/-
# The states that their own paths lead to

The path of a state is the id of its machine with the names that lead to the state behind it,
joined by dots, and a query takes it apart again: one text ends at a dot with another just when
the names of the one end with those of the other (`Path.dotted_suffix_iff`). So the path of a state
selects the state, and with it each namesake: a state that is reached, from somewhere below the
root, by the name of the root and then the names of the state (`Tree.selects_path_iff`).

Of the states that a query selects it stands for the deepest, and for the last of those
(`Tree.deepest_eq_some_iff`). A namesake is always deeper. So a state is addressed by its own path
if it has no namesake, and otherwise the path leads to the deepest of them
(`Tree.parse_path_resolve`): a house has a hall, but "house.hall" is the hall of the doll's house
in it (`Tree.house_hall_is_elsewhere`).

Key definitions: `Path.IsName`, `Recall.ending`, `Tree.namesakes`.
Key theorems: `Path.dotted_suffix_iff`, `Target.parse_ending`, `Tree.deepest_eq_some_iff`,
`Tree.selects_path_iff`, `Tree.resolve_path`, `Tree.parse_path_resolve`.
-/
import Statechart.Proofs.Origins

namespace Statechart

/-! ### Texts with names in them -/

namespace Text

/-- A text that has no character of the class at its ends is stripped already. -/
theorem strip_eq_self {drop : Char → Bool} {s : List Char}
    (head : ∀ c, s.head? = some c → drop c = false)
    (last : ∀ c, s.getLast? = some c → drop c = false) : strip drop s = s := by
  have keep : ∀ {l : List Char}, (∀ c, l.head? = some c → drop c = false) → l.dropWhile drop = l := by
    intro l hl
    cases l with
    | nil => rfl
    | cons c l => rw [List.dropWhile_cons, hl c rfl]; rfl
  have hlast : ∀ c, s.reverse.head? = some c → drop c = false := by
    intro c hc
    exact last c (by rwa [List.head?_reverse] at hc)
  rw [strip, keep head, keep hlast, List.reverse_reverse]

end Text

namespace Path

/-- A text that begins and ends with neither a blank nor a dot is a query as it is. -/
theorem normalized_eq_self {query : List Char}
    (head : ∀ c, query.head? = some c → c ≠ '.' ∧ Text.isBlank c = false)
    (last : ∀ c, query.getLast? = some c → c ≠ '.' ∧ Text.isBlank c = false) :
    normalized query = query := by
  have blanks : Text.strip Text.isBlank query = query :=
    Text.strip_eq_self (fun c hc => (head c hc).2) fun c hc => (last c hc).2
  rw [normalized, blanks]
  refine Text.strip_eq_self (fun c hc => ?_) fun c hc => ?_
  · simpa using (head c hc).1
  · simpa using (last c hc).1

/-- With a dot before both, to end at a dot is to end. -/
theorem endsAtDot_iff {query path : List Char} :
    endsAtDot query path = true ↔ '.' :: query <:+ '.' :: path := by
  rw [List.suffix_cons_iff]
  unfold endsAtDot
  split
  · rename_i h
    have heq : query = path := List.isSuffixOf?_eq_some_iff_append_eq.mp h
    simp [heq]
  · rename_i front hfront h
    obtain rfl : front ++ query = path := List.isSuffixOf?_eq_some_iff_append_eq.mp h
    have hne : '.' :: query ≠ '.' :: (front ++ query) := by
      simpa using hfront
    rw [beq_iff_eq, List.getLast?_eq_some_iff]
    constructor
    · rintro ⟨init, rfl⟩
      exact Or.inr ⟨init, by simp⟩
    · rintro (heq | ⟨init, heq⟩)
      · exact absurd heq hne
      · have hfront : front ++ query = init ++ ['.'] ++ query := by
          rw [← heq, List.append_assoc]
          rfl
        exact ⟨init, List.append_cancel_right hfront⟩
  · rename_i h
    have hnone : ¬ query <:+ path := by
      rintro ⟨front, heq⟩
      rw [List.isSuffixOf?_eq_some_iff_append_eq.mpr heq] at h
      cases h
    simp only [Bool.false_eq_true, List.cons.injEq, true_and, false_iff, not_or]
    exact ⟨fun heq => hnone (heq ▸ List.suffix_refl _),
      fun hsuffix => hnone ((List.suffix_cons _ _).trans hsuffix)⟩

/-- A name that needs no care: it is not empty, and has no dots and no blanks. -/
def IsName (name : String) : Prop :=
  name ≠ "" ∧ ∀ c ∈ name.toList, c ≠ '.' ∧ Text.isBlank c = false

instance (name : String) : Decidable (IsName name) :=
  decidable_of_iff (name ≠ "" ∧ name.toList.all (fun c => c ≠ '.' && !Text.isBlank c) = true)
    (by simp [IsName])

theorem IsName.toList_ne_nil {name : String} (h : IsName name) : name.toList ≠ [] :=
  fun hnil => h.1 (String.toList_eq_nil_iff.mp hnil)

theorem IsName.dotless {name : String} (h : IsName name) : '.' ∉ name.toList :=
  fun hmem => (h.2 _ hmem).1 rfl

theorem dotted_append (names more : List String) :
    dotted (names ++ more) = dotted names ++ dotted more := List.flatMap_append

/-- Joined names begin with a dot. -/
theorem head?_dotted {names : List String} {c : Char} (h : (dotted names).head? = some c) :
    c = '.' := by
  cases names with
  | nil => cases h
  | cons n names => exact (Option.some.inj h).symm

/-- Names without dots end with other names just when their joined texts do. -/
theorem dotted_suffix_iff {names : List String} (hnames : ∀ n ∈ names, '.' ∉ n.toList) :
    ∀ {more : List String}, (∀ n ∈ more, '.' ∉ n.toList) →
      (dotted names <:+ dotted more ↔ names <:+ more)
  | [], _ => by cases names <;> simp [dotted]
  | m :: more, hmore => by
    obtain ⟨hm, hrest⟩ := List.forall_mem_cons.mp hmore
    constructor
    · rintro ⟨front, hfront⟩
      have below : dotted names <:+ dotted more → names <:+ m :: more := fun h =>
        ((dotted_suffix_iff hnames hrest).mp h).trans (List.suffix_cons m more)
      have hsplit : front ++ dotted names = ('.' :: m.toList) ++ dotted more := hfront
      rcases List.append_eq_append_iff.mp hsplit with ⟨tail, htail, hdotted⟩ | ⟨tail, -, hdotted⟩
      · -- The joined names begin in the first of the others: at its start or at its end.
        rcases front with _ | ⟨d, front⟩
        · have heq := dotted_injective hnames hmore hfront
          exact heq ▸ List.suffix_refl _
        · injection htail with _ htail
          rcases tail with _ | ⟨c, tail⟩
          · exact below ⟨[], hdotted⟩
          · obtain rfl : c = '.' := head?_dotted (by rw [hdotted]; rfl)
            exact absurd (htail ▸ List.mem_append_right _ List.mem_cons_self) hm
      · exact below ⟨tail, hdotted.symm⟩
    · rintro ⟨front, hfront⟩
      exact ⟨dotted front, by rw [← dotted_append, hfront]⟩

end Path

/-! ### Targets -/

/-- What asks for a recall at the end of a target. -/
def Recall.ending : Recall → String
  | .fresh => ""
  | .previous => ".previous"
  | .restore => ".restore"

namespace Target

theorem isSuffixOf?_eq_none {ending cs : List Char} (h : ¬ ending <:+ cs) :
    ending.isSuffixOf? cs = none := by
  cases hfront : ending.isSuffixOf? cs with
  | none => rfl
  | some front => exact absurd ⟨front, List.isSuffixOf?_eq_some_iff_append_eq.mp hfront⟩ h

/-- A path with the ending for a recall is read as the path and the recall, if it is a query as it
is and does not end in one of these endings itself. -/
theorem parse_ending {path : String} (hne : path.toList ≠ [])
    (head : ∀ c, path.toList.head? = some c → c ≠ '.' ∧ Text.isBlank c = false)
    (last : ∀ c, path.toList.getLast? = some c → c ≠ '.' ∧ Text.isBlank c = false)
    (plain : ∀ r : Recall, r ≠ .fresh → ¬ r.ending.toList <:+ path.toList) (recalls : Recall) :
    parse (path ++ recalls.ending) = ⟨path, recalls⟩ := by
  have hhead : ∀ (ending : List Char) c, (path.toList ++ ending).head? = some c →
      c ≠ '.' ∧ Text.isBlank c = false := by
    intro ending c hc
    rw [List.head?_append_of_ne_nil _ hne] at hc
    exact head c hc
  cases recalls with
  | fresh =>
    have hcs : Path.normalized (path ++ "").toList = path.toList := by
      rw [String.append_empty]
      exact Path.normalized_eq_self head last
    have hprevious := isSuffixOf?_eq_none (plain .previous nofun)
    have hrestore := isSuffixOf?_eq_none (plain .restore nofun)
    simp only [Recall.ending] at hprevious hrestore ⊢
    simp only [parse, hcs, hprevious, hrestore, String.ofList_toList]
  | previous =>
    have hcs : Path.normalized (path ++ ".previous").toList = path.toList ++ ".previous".toList := by
      rw [String.toList_append]
      refine Path.normalized_eq_self (hhead _) fun c hc => ?_
      rw [List.getLast?_append] at hc
      cases hc
      decide
    have hprevious : ".previous".toList.isSuffixOf? (path.toList ++ ".previous".toList) =
        some path.toList := List.isSuffixOf?_eq_some_iff_append_eq.mpr rfl
    simp only [parse, Recall.ending, hcs, hprevious, String.ofList_toList]
  | restore =>
    have hcs : Path.normalized (path ++ ".restore").toList = path.toList ++ ".restore".toList := by
      rw [String.toList_append]
      refine Path.normalized_eq_self (hhead _) fun c hc => ?_
      rw [List.getLast?_append] at hc
      cases hc
      decide
    have hprevious : ".previous".toList.isSuffixOf? (path.toList ++ ".restore".toList) = none := by
      refine isSuffixOf?_eq_none fun ⟨front, heq⟩ => ?_
      have hlast := congrArg List.getLast? heq
      rw [List.getLast?_append, List.getLast?_append] at hlast
      exact absurd (show some 's' = some 'e' from hlast) (by decide)
    have hrestore : ".restore".toList.isSuffixOf? (path.toList ++ ".restore".toList) =
        some path.toList := List.isSuffixOf?_eq_some_iff_append_eq.mpr rfl
    simp only [parse, Recall.ending, hcs, hprevious, hrestore, String.ofList_toList]

end Target

namespace Tree

/-! ### The node that a query stands for -/

/-- Of the deepest nodes it is the last. -/
theorem deepest_eq_some_iff {ts : List Tree} {t : Tree} : deepest ts = some t ↔
    ∃ l r, ts = l ++ t :: r ∧ (∀ u ∈ l, u.node.depth ≤ t.node.depth) ∧
      ∀ u ∈ r, u.node.depth < t.node.depth := by
  constructor
  · intro h
    induction ts generalizing t with
    | nil => cases h
    | cons v vs ih =>
      unfold deepest at h
      split at h
      · rename_i w hw
        split at h <;> rename_i hle <;> cases h
        · obtain ⟨l, r, rfl, hl, hr⟩ := ih hw
          exact ⟨v :: l, r, rfl, List.forall_mem_cons.mpr ⟨hle, hl⟩, hr⟩
        · refine ⟨[], vs, rfl, nofun, fun u hu => ?_⟩
          exact Nat.lt_of_le_of_lt (depth_le_of_deepest hw u hu) (Nat.lt_of_not_le hle)
      · rename_i hnone
        cases h
        rw [deepest_eq_none_iff.mp hnone]
        exact ⟨[], [], rfl, nofun, nofun⟩
  · rintro ⟨l, r, rfl, hl, hr⟩
    induction l with
    | nil =>
      rw [List.nil_append, deepest]
      split
      · rename_i w hw
        rw [if_neg (Nat.not_le.mpr (hr w (deepest_mem hw)))]
      · rfl
    | cons v l ih =>
      obtain ⟨hv, hl⟩ := List.forall_mem_cons.mp hl
      rw [List.cons_append, deepest, ih hl]
      exact if_pos hv

/-- Nodes that are deeper than all the others are the ones that matter. -/
theorem deepest_filter {ts : List Tree} {t : Tree} {p : Tree → Bool}
    (h : deepest (ts.filter p) = some t)
    (others : ∀ u ∈ ts, p u = false → u.node.depth < t.node.depth) : deepest ts = some t := by
  obtain ⟨l, r, hfilter, hl, hr⟩ := deepest_eq_some_iff.mp h
  obtain ⟨l', r', rfl, hl', hr'⟩ := List.filter_eq_append_iff.mp hfilter
  obtain ⟨l'', r'', rfl, hl'', -, hr''⟩ := List.filter_eq_cons_iff.mp hr'
  refine deepest_eq_some_iff.mpr ⟨l' ++ l'', r'', by rw [List.append_assoc], ?_, ?_⟩
  · intro u hu
    cases hp : p u with
    | false =>
      have hmem : u ∈ l' ++ l'' ++ t :: r'' := List.mem_append_left _ hu
      exact Nat.le_of_lt (others u (List.append_assoc .. ▸ hmem) hp)
    | true =>
      rcases List.mem_append.mp hu with hu | hu
      · exact hl u (hl' ▸ List.mem_filter.mpr ⟨hu, hp⟩)
      · exact absurd hp (hl'' u hu)
  · intro u hu
    cases hp : p u with
    | false => exact others u (by simp [hu]) hp
    | true => exact hr u (hr'' ▸ List.mem_filter.mpr ⟨hu, hp⟩)

/-! ### The path of a node -/

variable {D : Type} {d : Design D} {id : String} {c : Compiled D} {u v : Tree}

/-- The path of a node in a compiled tree is the id with the names on the way behind it, none of
which has a dot. -/
theorem path_of_compile (hc : d.compile id = .ok c) (hu : u ∈ c.tree.preorder) :
    u.node.path.toList = id.toList ++ Path.dotted u.node.trail ∧
      ∀ n ∈ u.node.trail, '.' ∉ n.toList := by
  obtain ⟨hwf, -, htrail, -⟩ := Design.tree_of_compile hc
  obtain ⟨names, hnames, hdots, hpath⟩ := (pathed_of_compile hc).path_eq hwf hu
  rw [htrail, List.nil_append] at hnames
  rw [(mirrors_of_compile hc).path_eq] at hpath
  rw [hnames]
  exact ⟨hpath, hdots⟩

/-- The trail of a node in a compiled tree ends with the name of the node, which is valid, unless
the node is the root, whose name is the id. -/
theorem name_of_compile (hc : d.compile id = .ok c) (hu : u ∈ c.tree.preorder) :
    u.node.trail = [] ∧ u.node.name = id ∨
      ∃ trail, u.node.trail = trail ++ [u.node.name] ∧ validStateName u.node.name = true := by
  obtain ⟨hwf, -, htrail, -⟩ := Design.tree_of_compile hc
  rcases exists_parent hu with rfl | ⟨p, hp, hup⟩
  · obtain ⟨-, rfl⟩ := Design.compile_eq_ok_iff.mp hc
    exact Or.inl ⟨htrail, (d.host.state_mirrors id id [] 0 d.root {}).2⟩
  · exact Or.inr ⟨p.node.trail, hwf.trails p hp u hup, validStateName_of_child hc hp hup⟩

/-- What a path must be to be a query as it is. -/
theorem ends_of_compile (hid : Path.IsName id) (hc : d.compile id = .ok c)
    (hu : u ∈ c.tree.preorder)
    (hname : ∀ ch, u.node.name.toList.getLast? = some ch → Text.isBlank ch = false) :
    (∀ ch, u.node.path.toList.head? = some ch → ch ≠ '.' ∧ Text.isBlank ch = false) ∧
      ∀ ch, u.node.path.toList.getLast? = some ch → ch ≠ '.' ∧ Text.isBlank ch = false := by
  obtain ⟨hpath, hdots⟩ := path_of_compile hc hu
  constructor
  · intro ch hch
    rw [hpath, List.head?_append_of_ne_nil _ hid.toList_ne_nil] at hch
    exact hid.2 ch (List.mem_of_head? hch)
  · intro ch hch
    rcases name_of_compile hc hu with ⟨htrail, -⟩ | ⟨trail, htrail, hvalid⟩
    · rw [hpath, htrail, Path.dotted, List.flatMap_nil, List.append_nil] at hch
      exact hid.2 ch (List.mem_of_getLast? hch)
    · have hne : u.node.name.toList ≠ [] := by
        intro hnil
        simp [validStateName, String.toList_eq_nil_iff.mp hnil] at hvalid
      have hlast : u.node.name.toList.getLast? = some ch := by
        have hsplit : u.node.path.toList =
            (id.toList ++ Path.dotted trail ++ ['.']) ++ u.node.name.toList := by
          rw [hpath, htrail, Path.dotted_append]
          simp [Path.dotted]
        rw [hsplit, List.getLast?_append, List.getLast?_eq_some_getLast hne, Option.some_or] at hch
        rw [List.getLast?_eq_some_getLast hne, hch]
      refine ⟨?_, hname ch hlast⟩
      rintro rfl
      exact hdots u.node.name (by rw [htrail]; simp) (List.mem_of_getLast? hlast)

/-- No path of a node ends in what asks for a recall. -/
theorem plain_of_compile (hid : Path.IsName id) (hc : d.compile id = .ok c)
    (hu : u ∈ c.tree.preorder) (r : Recall) (hr : r ≠ .fresh) :
    ¬ r.ending.toList <:+ u.node.path.toList := by
  intro hending
  obtain ⟨hpath, hdots⟩ := path_of_compile hc hu
  have hword : r.ending.toList = Path.dotted [r.word] := by
    cases r with
    | fresh => exact absurd rfl hr
    | previous => decide
    | restore => decide
  have hdotless : ∀ n ∈ [r.word], '.' ∉ n.toList := by cases r <;> decide
  have hids : ∀ n ∈ id :: u.node.trail, '.' ∉ n.toList :=
    List.forall_mem_cons.mpr ⟨hid.dotless, hdots⟩
  have hnames : [r.word] <:+ id :: u.node.trail := by
    rw [← Path.dotted_suffix_iff hdotless hids, ← hword]
    refine hending.trans ⟨['.'], ?_⟩
    rw [hpath]
    rfl
  rcases name_of_compile hc hu with ⟨htrail, -⟩ | ⟨trail, htrail, hvalid⟩
  · rw [htrail] at hnames hpath
    obtain rfl : r.word = id := by simpa [List.suffix_cons_iff] using hnames
    have hlength := hending.length_le
    rw [hword, hpath] at hlength
    simp only [Path.dotted, List.flatMap_cons, List.flatMap_nil, List.append_nil,
      List.length_cons] at hlength
    omega
  · obtain ⟨front, hfront⟩ := hnames
    rw [htrail, ← List.cons_append] at hfront
    have hname : r.word = u.node.name := (List.cons.inj (List.append_inj' hfront rfl).2).1
    rw [← hname] at hvalid
    cases r with
    | fresh => exact hr rfl
    | previous => simp [validStateName] at hvalid
    | restore => simp [validStateName] at hvalid

/-- The nodes whose trail ends with the id and the trail of the node. -/
def namesakes (id : String) (t u : Tree) : List Tree :=
  t.preorder.filter fun v => decide (id :: u.node.trail <:+ v.node.trail)

theorem selects_path_iff (hid : Path.IsName id) (hc : d.compile id = .ok c)
    (hu : u ∈ c.tree.preorder) (hv : v ∈ c.tree.preorder)
    (hname : ∀ ch, u.node.name.toList.getLast? = some ch → Text.isBlank ch = false) :
    Path.selects u.node.path v.node.path = true ↔
      v = u ∨ id :: u.node.trail <:+ v.node.trail := by
  obtain ⟨hpath, hdots⟩ := path_of_compile hc hu
  obtain ⟨hpath', hdots'⟩ := path_of_compile hc hv
  obtain ⟨hhead, hlast⟩ := ends_of_compile hid hc hu hname
  have hne : u.node.path.toList ≠ [] := by
    rw [hpath]
    exact List.append_ne_nil_of_left_ne_nil hid.toList_ne_nil _
  have hdotted : ∀ {w : Tree}, w.node.path.toList = id.toList ++ Path.dotted w.node.trail →
      '.' :: w.node.path.toList = Path.dotted (id :: w.node.trail) := fun h => by
    rw [h]
    rfl
  have hquery := Path.normalized_eq_self hhead hlast
  have hends : Path.selects u.node.path v.node.path = true ↔
      '.' :: u.node.path.toList <:+ '.' :: v.node.path.toList := by
    rw [← Path.endsAtDot_iff]
    simp [Path.selects, hquery, hne]
  rw [hends, hdotted hpath, hdotted hpath',
    Path.dotted_suffix_iff (List.forall_mem_cons.mpr ⟨hid.dotless, hdots⟩)
      (List.forall_mem_cons.mpr ⟨hid.dotless, hdots'⟩), List.suffix_cons_iff]
  refine or_congr_left ?_
  constructor
  · intro h
    exact (Design.tree_of_compile hc).1.eq_of_trail_eq hv hu (List.cons.inj h).2.symm
  · rintro rfl
    rfl

theorem mem_namesakes {t : Tree} (h : v ∈ t.namesakes id u) : v ∈ t.preorder ∧
    id :: u.node.trail <:+ v.node.trail ∧ u.node.depth < v.node.depth := by
  obtain ⟨hmem, hsuffix⟩ := List.mem_filter.mp h
  have hsuffix := of_decide_eq_true hsuffix
  exact ⟨hmem, hsuffix, hsuffix.length_le⟩

/-- The path of a node leads to the deepest namesake, or to the node if it has none. -/
theorem resolve_path (hid : Path.IsName id) (hc : d.compile id = .ok c) (hu : u ∈ c.tree.preorder)
    (hname : ∀ ch, u.node.name.toList.getLast? = some ch → Text.isBlank ch = false) :
    c.tree.resolve u.node.path = (deepest (c.tree.namesakes id u)).or (some u) := by
  have htargets : ∀ {v : Tree}, v ∈ c.tree.targets u.node.path ↔
      v ∈ c.tree.preorder ∧ (v = u ∨ id :: u.node.trail <:+ v.node.trail) := fun {v} => by
    rw [targets, List.mem_filter]
    exact and_congr_right fun hv => selects_path_iff hid hc hu hv hname
  cases hdeepest : deepest (c.tree.namesakes id u) with
  | none =>
    have hnone := List.filter_eq_nil_iff.mp (deepest_eq_none_iff.mp hdeepest)
    cases hfound : c.tree.resolve u.node.path with
    | none =>
      have hmem := htargets.mpr ⟨hu, Or.inl rfl⟩
      rw [deepest_eq_none_iff.mp hfound] at hmem
      cases hmem
    | some v =>
      obtain ⟨hv, rfl | hsuffix⟩ := htargets.mp (deepest_mem hfound)
      · rfl
      · exact absurd (decide_eq_true hsuffix) (hnone v hv)
  | some v =>
    refine deepest_filter (p := fun w => decide (id :: u.node.trail <:+ w.node.trail)) ?_ ?_
    · rw [← hdeepest, namesakes, targets, List.filter_filter]
      refine congrArg deepest (List.filter_congr fun w hw => ?_)
      by_cases hsuffix : id :: u.node.trail <:+ w.node.trail
      · have hselects := (selects_path_iff hid hc hu hw hname).mpr (Or.inr hsuffix)
        simp [hsuffix, hselects]
      · simp [hsuffix]
    · intro w hw hother
      obtain ⟨-, rfl | hsuffix⟩ := htargets.mp hw
      · exact (mem_namesakes (deepest_mem hdeepest)).2.2
      · exact absurd hsuffix (of_decide_eq_false hother)

/-- **A state is addressed by its own path.** In a design that is compiled under a plain name, the
path of each node whose name does not end in a blank is read as it is, without a recall, and with
the ending for a recall behind it as the path and the recall. It leads to the node just when no
other node is reached by the name of the root and then the names of the node, and otherwise to the
deepest of those, the last one if there are more. -/
theorem parse_path_resolve (hid : Path.IsName id) (hc : d.compile id = .ok c)
    (hu : u ∈ c.tree.preorder)
    (hname : ∀ ch, u.node.name.toList.getLast? = some ch → Text.isBlank ch = false) :
    (∀ recalls : Recall, Target.parse (u.node.path ++ recalls.ending) = ⟨u.node.path, recalls⟩) ∧
      (c.tree.resolve u.node.path = some u ↔
        ∀ v ∈ c.tree.preorder, ¬ id :: u.node.trail <:+ v.node.trail) ∧
      ∀ v ∈ c.tree.preorder, id :: u.node.trail <:+ v.node.trail →
        ∃ w l r, c.tree.resolve u.node.path = some w ∧ c.tree.namesakes id u = l ++ w :: r ∧
          (∀ x ∈ l, x.node.depth ≤ w.node.depth) ∧ ∀ x ∈ r, x.node.depth < w.node.depth := by
  have hne : u.node.path.toList ≠ [] := by
    rw [(path_of_compile hc hu).1]
    exact List.append_ne_nil_of_left_ne_nil hid.toList_ne_nil _
  obtain ⟨hhead, hlast⟩ := ends_of_compile hid hc hu hname
  have hresolve := resolve_path hid hc hu hname
  have hnamesakes : ∀ {v : Tree}, v ∈ c.tree.preorder → id :: u.node.trail <:+ v.node.trail →
      ∃ w, deepest (c.tree.namesakes id u) = some w := by
    intro v hv hsuffix
    rw [← Option.ne_none_iff_exists', Ne, deepest_eq_none_iff]
    intro hnil
    exact List.filter_eq_nil_iff.mp hnil v hv (decide_eq_true hsuffix)
  refine ⟨Target.parse_ending hne hhead hlast (plain_of_compile hid hc hu), ?_, ?_⟩
  · constructor
    · intro h v hv hsuffix
      obtain ⟨w, hw⟩ := hnamesakes hv hsuffix
      rw [hresolve, hw] at h
      obtain rfl : w = u := Option.some.inj h
      exact Nat.lt_irrefl _ (mem_namesakes (deepest_mem hw)).2.2
    · intro h
      have hnil : c.tree.namesakes id u = [] :=
        List.filter_eq_nil_iff.mpr fun v hv hsuffix => h v hv (of_decide_eq_true hsuffix)
      rw [hresolve, hnil]
      rfl
  · intro v hv hsuffix
    obtain ⟨w, hw⟩ := hnamesakes hv hsuffix
    obtain ⟨l, r, hsplit, hl, hr⟩ := deepest_eq_some_iff.mp hw
    exact ⟨w, l, r, by rw [hresolve, hw]; rfl, hsplit, hl, hr⟩

end Tree

/-- A house has a hall and a room, and in the room stands a doll's house with a hall. -/
def Design.house : Design Unit where
  id := none
  data := ()
  host := .empty
  root := .mk {} [
    ("hall", .mk {} []),
    ("room", .mk {} [("house", .mk {} [("hall", .mk {} [])])])]

namespace Tree

/-- The room is addressed by its own path. -/
theorem parse_path_resolve_room :
    ∃ c u, Design.house.compile "house" = .ok c ∧ u ∈ c.tree.preorder ∧
      u.node.path = "house.room" ∧ Path.IsName "house" ∧
      (∀ ch, u.node.name.toList.getLast? = some ch → Text.isBlank ch = false) ∧
      Target.parse ("house.room" ++ Recall.previous.ending) = ⟨"house.room", .previous⟩ ∧
      c.tree.resolve "house.room" = some u := by
  let c := Design.house.build "house"
  have hc : Design.house.compile "house" = .ok c := Design.compile_eq_ok_iff.mpr ⟨by decide, rfl⟩
  have hid : Path.IsName "house" := by decide
  obtain ⟨u, hget, hpath, hname, hnamesakes⟩ : ∃ u, c.tree.preorder[2]? = some u ∧
      u.node.path = "house.room" ∧ u.node.name = "room" ∧
      ∀ v ∈ c.tree.preorder, ¬ "house" :: u.node.trail <:+ v.node.trail :=
    ⟨_, rfl, by decide, by decide, by decide⟩
  have hu := List.mem_of_getElem? hget
  have hlast : ∀ ch, u.node.name.toList.getLast? = some ch → Text.isBlank ch = false := by
    rw [hname]
    rintro _ ⟨⟩
    decide
  obtain ⟨hparse, hresolve, -⟩ := parse_path_resolve hid hc hu hlast
  rw [hpath] at hparse hresolve
  exact ⟨c, u, hc, hu, hpath, hid, hlast, hparse .previous, hresolve.mpr hnamesakes⟩

/-- The hall is not: its path leads to the hall of the doll's house. -/
theorem house_hall_is_elsewhere :
    ∃ c u v, Design.house.compile "house" = .ok c ∧ u ∈ c.tree.preorder ∧ Path.IsName "house" ∧
      u.node.path = "house.hall" ∧ Target.parse "house.hall" = ⟨"house.hall", .fresh⟩ ∧
      c.tree.resolve "house.hall" = some v ∧ v.node.path = "house.room.house.hall" ∧ v ≠ u := by
  let c := Design.house.build "house"
  have hc : Design.house.compile "house" = .ok c := Design.compile_eq_ok_iff.mpr ⟨by decide, rfl⟩
  obtain ⟨u, v, hget, hu, hresolve, hv⟩ : ∃ u v, c.tree.preorder[1]? = some u ∧
      u.node.path = "house.hall" ∧ c.tree.resolve "house.hall" = some v ∧
      v.node.path = "house.room.house.hall" := ⟨_, _, rfl, by decide, rfl, by decide⟩
  refine ⟨c, u, v, hc, List.mem_of_getElem? hget, by decide, hu, by decide, hresolve, hv, ?_⟩
  rintro rfl
  exact absurd (hu.symm.trans hv) (by decide)

end Tree
end Statechart
