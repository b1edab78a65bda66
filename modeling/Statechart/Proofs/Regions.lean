/-
# Regions of a parallel node

A transition to a node below an active parallel node enters the other children of the parallel
node too, beside the way. They are settled and were active, so they stay as they are, all that is
below them included, and none of their initial rules is asked (`Tree.Course.regions_isolated`).

Which initial rules an activation asks is written down by `Tree.asked`, in order. Its outcome
hangs on what these rules give, and on no others (`Tree.activate_congr`), and it fails with the
first error among them (`Tree.activate_failure`). So what succeeds whatever the rules give asks
none (`Tree.asked_eq_nil`).

Key definitions: `Tree.asked`, `Node.ruleFailure?`.
Key theorems: `Tree.activate_failure`, `Tree.activate_congr`, `Tree.asked_eq_nil`,
`Tree.mem_asked_of_way`, `Tree.Course.regions_isolated`.
-/
import Statechart.Proofs.Repetition

namespace Statechart

/-- The error that the initial rule of a node gives. -/
def Node.ruleFailure? (choose : Tree.Chooser) (n : Node) : Option FunctionError :=
  match n.shape with
  | .branch rule =>
    match choose rule with
    | .error e => some e
    | .ok _ => none
  | _ => none

namespace Tree

/-! ### The initial rules that are asked -/

mutual

/-- The nodes whose initial rules an activation asks, in order. -/
def asked (choose : Chooser) (before : Nat → Bool) (entry : Approach) : Tree → List Node
  | mk node activity children =>
    match node.shape with
    | .leaf => []
    | .parallel => askedAll choose before entry children
    | .branch initial =>
      let activity := activity.enter
      let known := knownIndex activity (before node.index) children entry
      let here := if known.isNone then [node] else []
      match select choose initial activity (before node.index) children entry with
      | .error _ => here
      | .ok (i, entry) => here ++ askedOnly choose before entry i children

/-- Those in the children of a parallel node: after a failure no more are asked. -/
def askedAll (choose : Chooser) (before : Nat → Bool) (entry : Approach) : List Tree → List Node
  | [] => []
  | t :: ts =>
    asked choose before (entry.region t.node.name) t ++
      match (activate choose before (entry.region t.node.name) t).2 with
      | some _ => []
      | none => askedAll choose before entry ts

/-- Those in the child that a branch enters. -/
def askedOnly (choose : Chooser) (before : Nat → Bool) (entry : Approach) :
    Nat → List Tree → List Node
  | _, [] => []
  | 0, t :: _ => asked choose before entry t
  | i + 1, _ :: ts => askedOnly choose before entry i ts

end

section

variable {choose choose' : Chooser} {before : Nat → Bool}

theorem mem_askedAll {entry : Approach} {m : Node} : ∀ {cs : List Tree},
    m ∈ askedAll choose before entry cs →
      ∃ c ∈ cs, m ∈ asked choose before (entry.region c.node.name) c
  | c :: cs, h => by
    rw [askedAll, List.mem_append] at h
    rcases h with h | h
    · exact ⟨c, List.mem_cons_self, h⟩
    · split at h
      · cases h
      · obtain ⟨d, hd, hm⟩ := mem_askedAll h
        exact ⟨d, List.mem_cons_of_mem c hd, hm⟩

theorem askedOnly_eq (entry : Approach) : ∀ (i : Nat) (cs : List Tree),
    askedOnly choose before entry i cs = (cs[i]?).elim [] (asked choose before entry)
  | _, [] => by simp [askedOnly]
  | 0, c :: cs => by simp [askedOnly]
  | i + 1, c :: cs => by
    rw [askedOnly, askedOnly_eq entry i cs, List.getElem?_cons_succ]

/-- What a branch asks: its own rule, if the child to enter is not known without it, and those in
the child that it enters. -/
theorem mem_asked_branch {n m : Node} {a : Activity} {rule : InitialRule} {cs : List Tree}
    {entry : Approach} (shape : n.shape = .branch rule)
    (h : m ∈ asked choose before entry (mk n a cs)) :
    m = n ∧ knownIndex a.enter (before n.index) cs entry = none ∨
      ∃ i entry' c, select choose rule a.enter (before n.index) cs entry = .ok (i, entry') ∧
        cs[i]? = some c ∧ m ∈ asked choose before entry' c := by
  have here : m ∈ (if (knownIndex a.enter (before n.index) cs entry).isNone then [n] else []) →
      m = n ∧ knownIndex a.enter (before n.index) cs entry = none := fun h => by
    by_cases hnone : (knownIndex a.enter (before n.index) cs entry).isNone
    · rw [if_pos hnone] at h
      exact ⟨List.mem_singleton.mp h, Option.isNone_iff_eq_none.mp hnone⟩
    · rw [if_neg hnone] at h
      cases h
  rw [asked, shape] at h
  dsimp only at h
  split at h
  · exact Or.inl (here h)
  · rename_i i entry' hsel
    rw [List.mem_append, askedOnly_eq] at h
    rcases h with h | h
    · exact Or.inl (here h)
    · cases hc : cs[i]? with
      | none =>
        rw [hc] at h
        cases h
      | some c =>
        rw [hc] at h
        exact Or.inr ⟨i, entry', c, hsel, hc, h⟩

/-- The nodes that are asked are branches of the tree. -/
theorem mem_asked {t : Tree} : ∀ {entry : Approach} {m : Node}, m ∈ asked choose before entry t →
    (∃ u ∈ t.preorder, u.node = m) ∧ ∃ rule, m.shape = .branch rule := by
  induction t using Tree.induction with
  | mk n a cs ih =>
    intro entry m h
    have below : ∀ {c : Tree} {entry : Approach}, c ∈ cs → m ∈ asked choose before entry c →
        (∃ u ∈ (mk n a cs).preorder, u.node = m) ∧ ∃ rule, m.shape = .branch rule := by
      intro c entry hc hm
      obtain ⟨⟨u, hu, hnode⟩, hrule⟩ := ih c hc hm
      exact ⟨⟨u, mem_preorder_of_child hc hu, hnode⟩, hrule⟩
    cases hs : n.shape with
    | leaf =>
      rw [asked, hs] at h
      cases h
    | parallel =>
      rw [asked, hs] at h
      obtain ⟨c, hc, hm⟩ := mem_askedAll h
      exact below hc hm
    | branch rule =>
      rcases mem_asked_branch hs h with ⟨rfl, -⟩ | ⟨i, entry', c, -, hc, hm⟩
      · exact ⟨⟨_, self_mem_preorder _, rfl⟩, rule, hs⟩
      · exact below (List.mem_of_getElem? hc) hm

theorem activateAll_failure {entry : Approach} : ∀ {cs : List Tree},
    (∀ c ∈ cs, ∀ entry, (activate choose before entry c).2 =
      (asked choose before entry c).findSome? (Node.ruleFailure? choose)) →
        (activateAll choose before entry cs).2 =
          (askedAll choose before entry cs).findSome? (Node.ruleFailure? choose)
  | [], _ => rfl
  | c :: cs, h => by
    obtain ⟨hc, hcs⟩ := List.forall_mem_cons.mp h
    have hrest : (activateAll choose before entry cs).2 =
        (askedAll choose before entry cs).findSome? (Node.ruleFailure? choose) :=
      activateAll_failure hcs
    have hfirst := hc (entry.region c.node.name)
    rw [activateAll, askedAll, List.findSome?_append, ← hfirst]
    cases hact : activate choose before (entry.region c.node.name) c with
    | mk c' failure =>
      cases failure with
      | some e => rfl
      | none => simpa using hrest

theorem activateOnly_snd (entry : Approach) : ∀ (i : Nat) (cs : List Tree),
    (activateOnly choose before entry i cs).2 =
      (cs[i]?).bind fun c => (activate choose before entry c).2
  | _, [] => by simp [activateOnly]
  | 0, c :: cs => by simp [activateOnly]
  | i + 1, c :: cs => by
    rw [activateOnly, List.getElem?_cons_succ, ← activateOnly_snd entry i cs]

/-- An activation fails with the first error among those of the rules that it asks. -/
theorem activate_failure (t : Tree) : ∀ entry : Approach, (activate choose before entry t).2 =
    (asked choose before entry t).findSome? (Node.ruleFailure? choose) := by
  induction t using Tree.induction with
  | mk n a cs ih =>
    intro entry
    cases hs : n.shape with
    | leaf => rw [activate, asked, hs]; rfl
    | parallel =>
      rw [activate, asked, hs]
      exact activateAll_failure ih
    | branch rule =>
      have hchild : ∀ (i : Nat) (entry : Approach), (activateOnly choose before entry i cs).2 =
          (askedOnly choose before entry i cs).findSome? (Node.ruleFailure? choose) := by
        intro i entry
        rw [activateOnly_snd, askedOnly_eq]
        cases hc : cs[i]? with
        | none => rfl
        | some c => exact ih c (List.mem_of_getElem? hc) entry
      rw [activate, asked, hs]
      simp only [select_eq]
      cases knownIndex a.enter (before n.index) cs entry with
      | some i => exact hchild i _
      | none =>
        -- The rule of this branch is asked first.
        have hrule : n.ruleFailure? choose =
            match choose rule with
            | .error e => some e
            | .ok _ => none := by
          rw [Node.ruleFailure?, hs]
        unfold initialIndex
        cases hchoose : choose rule with
        | error e =>
          rw [hchoose] at hrule
          simp [Except.map, hrule]
        | ok name =>
          rw [hchoose] at hrule
          simp [Except.map, hrule, hchild]

end

section

variable {choose choose' : Chooser} {before : Nat → Bool}

/-- Two ways to decide initial rules agree on what an activation asks. -/
def Agrees (choose choose' : Chooser) (ns : List Node) : Prop :=
  ∀ n ∈ ns, ∀ rule, n.shape = .branch rule → choose' rule = choose rule

theorem Agrees.of_append {ns ms : List Node} (h : Agrees choose choose' (ns ++ ms)) :
    Agrees choose choose' ns ∧ Agrees choose choose' ms :=
  ⟨fun n hn => h n (List.mem_append_left ms hn), fun n hn => h n (List.mem_append_right ns hn)⟩

theorem activateAll_congr {entry : Approach} : ∀ {cs : List Tree},
    (∀ c ∈ cs, ∀ entry, Agrees choose choose' (asked choose before entry c) →
      activate choose' before entry c = activate choose before entry c ∧
        asked choose' before entry c = asked choose before entry c) →
      Agrees choose choose' (askedAll choose before entry cs) →
        activateAll choose' before entry cs = activateAll choose before entry cs ∧
          askedAll choose' before entry cs = askedAll choose before entry cs
  | [], _, _ => ⟨rfl, rfl⟩
  | c :: cs, ih, h => by
    obtain ⟨ihc, ihcs⟩ := List.forall_mem_cons.mp ih
    rw [askedAll] at h
    obtain ⟨hfirst, hrest⟩ := h.of_append
    obtain ⟨hact, hasked⟩ := ihc _ hfirst
    rw [activateAll, activateAll, askedAll, askedAll, hact, hasked]
    cases hc : activate choose before (entry.region c.node.name) c with
    | mk c' failure =>
      cases failure with
      | some e => exact ⟨rfl, rfl⟩
      | none =>
        rw [hc] at hrest
        obtain ⟨hacts, haskeds⟩ := activateAll_congr ihcs hrest
        simp only [hacts, haskeds, and_self]

theorem activateOnly_congr {entry : Approach} : ∀ {i : Nat} {cs : List Tree},
    (∀ c ∈ cs, Agrees choose choose' (asked choose before entry c) →
      activate choose' before entry c = activate choose before entry c ∧
        asked choose' before entry c = asked choose before entry c) →
      Agrees choose choose' (askedOnly choose before entry i cs) →
        activateOnly choose' before entry i cs = activateOnly choose before entry i cs ∧
          askedOnly choose' before entry i cs = askedOnly choose before entry i cs
  | _, [], _, _ => by simp [activateOnly, askedOnly]
  | 0, c :: cs, ih, h => by
    rw [askedOnly] at h
    obtain ⟨hact, hasked⟩ := ih c List.mem_cons_self h
    simp only [activateOnly, askedOnly, hact, hasked, and_self]
  | i + 1, c :: cs, ih, h => by
    rw [askedOnly] at h
    obtain ⟨hacts, haskeds⟩ := activateOnly_congr (fun c hc => ih c (List.mem_cons_of_mem _ hc)) h
    simp only [activateOnly, askedOnly, hacts, haskeds, and_self]

/-- An activation hangs on what the rules that it asks give, and on no others. -/
theorem activate_congr (t : Tree) : ∀ entry : Approach,
    Agrees choose choose' (asked choose before entry t) →
      activate choose' before entry t = activate choose before entry t ∧
        asked choose' before entry t = asked choose before entry t := by
  induction t using Tree.induction with
  | mk n a cs ih =>
    intro entry h
    cases hs : n.shape with
    | leaf => simp only [activate, asked, hs, and_self]
    | parallel =>
      rw [asked, hs] at h
      obtain ⟨hacts, haskeds⟩ := activateAll_congr ih h
      simp only [activate, asked, hs, hacts, haskeds, and_self]
    | branch rule =>
      -- The branch is decided alike: either its rule is not asked, or it gives the same.
      have hselect : select choose' rule a.enter (before n.index) cs entry =
          select choose rule a.enter (before n.index) cs entry := by
        rw [select_eq, select_eq]
        cases hknown : knownIndex a.enter (before n.index) cs entry with
        | some i => rfl
        | none =>
          have hmem : n ∈ asked choose before entry (mk n a cs) := by
            rw [asked, hs]
            simp only [hknown, Option.isNone_none, if_true]
            split <;> simp
          have hrule : choose' rule = choose rule := h n hmem rule hs
          simp only [initialIndex, hrule]
      rw [asked, hs] at h
      simp only [activate, asked, hs, hselect]
      cases hsel : select choose rule a.enter (before n.index) cs entry with
      | error e => exact ⟨rfl, rfl⟩
      | ok chosen =>
        simp only [hsel] at h
        obtain ⟨hacts, haskeds⟩ := activateOnly_congr (fun c hc => ih c hc _) h.of_append.2
        simp only [hacts, haskeds, and_self]

/-- What succeeds whatever initial rules give asks none of them. -/
theorem asked_eq_nil {entry : Approach} {t : Tree}
    (h : ∀ choose : Chooser, (activate choose before entry t).2 = none) (choose : Chooser) :
    asked choose before entry t = [] := by
  -- With rules that all fail, one that is asked would make it fail.
  let fails : Chooser := fun _ => .error ⟨.initial, "", ""⟩
  have hnil : asked fails before entry t = [] := by
    have hnone := h fails
    rw [activate_failure, List.findSome?_eq_none_iff] at hnone
    refine List.eq_nil_iff_forall_not_mem.mpr fun n hn => ?_
    obtain ⟨-, rule, hrule⟩ := mem_asked hn
    have hfails := hnone n hn
    rw [Node.ruleFailure?, hrule] at hfails
    cases hfails
  have hagrees : Agrees fails choose (asked fails before entry t) := by
    rw [hnil]
    exact fun n hn => nomatch hn
  rw [(activate_congr t entry hagrees).2, hnil]

/-! ### On the way down -/

/-- Of the nodes below one that the way goes through, those are asked that are asked from there. -/
theorem mem_asked_of_way {t : Tree} : ∀ {u v : Tree} {names rest : List String} {recalls : Recall}
    {entry : Approach}, t.WellFormed → entry = .down (names ++ rest) recalls → u ∈ t.preorder →
      u.node.trail = t.node.trail ++ names → v ∈ u.preorder →
        v.node ∈ asked choose before entry t →
          v.node ∈ asked choose before (.down rest recalls) u := by
  induction t using Tree.induction with
  | mk n a cs ih =>
    rintro u v names rest recalls entry hwf rfl hu htrail hv hm
    rcases hwf.trail_cases hu htrail with ⟨rfl, rfl⟩ | ⟨s, hs, names', rfl, hus, htrail'⟩
    · exact hm
    -- What is asked below another child is not below this one.
    have hvs : v ∈ s.preorder := mem_preorder_trans hus hv
    have same : ∀ {c : Tree} {entry : Approach}, c ∈ cs → v.node ∈ asked choose before entry c →
        c = s := by
      intro c entry hc hm
      obtain ⟨⟨w, hw, hnode⟩, -⟩ := mem_asked hm
      have hwv : w = v := hwf.eq_of_index_eq (mem_preorder_of_child hc hw)
        (mem_preorder_of_child hs hvs) (by rw [hnode])
      exact hwf.child_eq hc hs hw (hwv ▸ hvs)
    cases hshape : n.shape with
    | leaf =>
      rw [asked, hshape] at hm
      cases hm
    | parallel =>
      rw [asked, hshape] at hm
      obtain ⟨c, hc, hm⟩ := mem_askedAll hm
      obtain rfl := same hc hm
      rw [List.cons_append, Approach.down, Approach.region, if_pos rfl] at hm
      exact ih c hc (hwf.of_child hs) rfl hus htrail' hv hm
    | branch rule =>
      obtain ⟨l, r, hsplit⟩ := List.append_of_mem hs
      rw [children_mk] at hsplit
      have hnamed : named cs s.node.name = some l.length := by
        rw [hsplit]
        exact named_append (hsplit ▸ hwf.names _ (self_mem_preorder _))
      rcases mem_asked_branch hshape hm with ⟨-, hnone⟩ | ⟨i, entry', c, hsel, hc, hm⟩
      · have hknown : named cs s.node.name = none := hnone
        cases hnamed.symm.trans hknown
      · obtain rfl := same (List.mem_of_getElem? hc) hm
        rw [List.cons_append, Approach.down, select, hnamed] at hsel
        cases hsel
        exact ih c (List.mem_of_getElem? hc) (hwf.of_child hs) rfl hus htrail' hv hm

end

/-! ### Regions -/

/-- The leases of what is active in a part of a tree that is unmoved stay current. -/
theorem Unmoved.isCurrent {t t' r r' u : Tree} (hwf : t.WellFormed) (hwf' : t'.WellFormed)
    (hr : r ∈ t.preorder) (hr' : r' ∈ t'.preorder) (h : r.Unmoved r') (hu : u ∈ r.preorder)
    (ha : u.isActive = true) : t'.isCurrent (t.lease u.node.index) = true := by
  obtain ⟨u', hu', huu'⟩ : ∃ u' ∈ r'.preorder, u.Unmoved u' := by
    have hall := h.forall₂_preorder
    obtain ⟨u', hzip⟩ := exists_mem_zip_left hall.length_eq hu
    exact ⟨u', (List.of_mem_zip hzip).2, (List.forall₂_iff_zip.mp hall).2 hzip⟩
  have hfind : t.find? u.node.index = some u :=
    hwf.find?_eq_some_iff.mpr ⟨mem_preorder_trans hr hu, rfl⟩
  have hfind' : t'.find? u.node.index = some u' :=
    hwf'.find?_eq_some_iff.mpr ⟨mem_preorder_trans hr' hu', by rw [huu'.node_eq]⟩
  have hactive : u'.isActive = true := huu'.activity.active.trans ha
  have hgeneration := huu'.activity.generation ha
  simp [Tree.isCurrent, lease, hfind, hfind', hactive, hgeneration]

/-- A child of a parallel node that is active in a settled tree stays as it is beside the way. -/
theorem Settled.region_stays {t p r : Tree} (h : t.Settled) (hwf : t.WellFormed)
    (hp : p ∈ t.preorder) (hshape : p.node.shape = .parallel) (ha : p.isActive = true)
    (hr : r ∈ p.children) (choose : Chooser) : Stays choose t.wasActive (.within false) r := by
  have hrt : r ∈ t.preorder :=
    mem_preorder_trans hp (mem_preorder_of_child hr r.self_mem_preorder)
  have hra : r.isActive = true := (h.of_mem hp ha).isActive_of_parallel hshape hr
  exact (h.of_mem hrt hra).stays false (hwf.of_mem hrt) fun u hu hua =>
    h.wasActive (mem_preorder_trans hrt hu) hua

/-- The way from a node to one below it goes through one child, and beside all others. -/
theorem WellFormed.region_eq {p n r : Tree} (h : p.WellFormed) (hn : n ∈ p.preorder) (hne : n ≠ p)
    {rest : List String} (hrest : n.node.trail = p.node.trail ++ rest) (hr : r ∈ p.children)
    (hoff : n ∉ r.preorder) (recalls : Recall) :
    (Approach.down rest recalls).region r.node.name = .within false := by
  obtain ⟨-, heq⟩ | ⟨s, hs, rest', rfl, hns, -⟩ := h.trail_cases hn hrest
  · exact absurd heq hne
  · refine if_neg fun hname => hoff ?_
    have hrs : r = s := List.inj_on_of_nodup_map (h.names p p.self_mem_preorder) hr hs hname
    exact hrs ▸ hns

section

variable {choose : Chooser} {before : Nat → Bool} {entry : Approach}

theorem Activates.exists_region {p p' r : Tree} (h : Activates choose before entry p p')
    (hshape : p.node.shape = .parallel) (hr : r ∈ p.children) :
    ∃ r' ∈ p'.preorder, activate choose before (entry.region r.node.name) r = (r', none) := by
  cases h with
  | leaf shape => cases shape.symm.trans hshape
  | branch shape => cases shape.symm.trans hshape
  | parallel _ length children =>
    obtain ⟨r', hzip⟩ := exists_mem_zip_left length hr
    refine ⟨r', ?_, (children r r' hzip).activate_eq⟩
    exact mem_preorder_of_child (List.of_mem_zip hzip).2 r'.self_mem_preorder

/-- What is asked below a child of a parallel node is asked by entering this child. -/
theorem mem_asked_region {p r u : Tree} (hwf : p.WellFormed) (hshape : p.node.shape = .parallel)
    (hr : r ∈ p.children) (hu : u ∈ r.preorder) (h : u.node ∈ asked choose before entry p) :
    u.node ∈ asked choose before (entry.region r.node.name) r := by
  obtain ⟨n, a, cs⟩ := p
  rw [asked, show n.shape = .parallel from hshape] at h
  obtain ⟨q, hq, hmem⟩ := mem_askedAll h
  obtain ⟨⟨w, hw, hnode⟩, -⟩ := mem_asked hmem
  have hwu : w = u := hwf.eq_of_index_eq (mem_preorder_of_child hq hw)
    (mem_preorder_of_child hr hu) (by rw [hnode])
  have hqr : q = r := hwf.child_eq hq hr hw (hwu ▸ hu)
  exact hqr ▸ hmem

end

variable {D : Type} {d : Design D} {id : String} {c : Compiled D}

/-- **Regions.** In a run of a compiled tree, a transition to a node below an active parallel node
leaves every child of the parallel node that is not on the way unmoved: what is active in it, what
it remembers, and the generations of what is active, so that leases of it stay current. No initial
rule of it is asked. -/
theorem Course.regions_isolated (hc : d.compile id = .ok c) {now : Tree} {earlier : List Tree}
    (run : Course c.tree (now :: earlier)) {p n r : Tree} (hp : p ∈ now.preorder)
    (hshape : p.node.shape = .parallel) (ha : p.isActive = true) (hn : n ∈ p.preorder)
    (hne : n ≠ p) (hr : r ∈ p.children) (hoff : n ∉ r.preorder) {choose : Chooser}
    {recalls : Recall} {t : Tree}
    (h : now.activate choose now.wasActive (.down n.node.trail recalls) = (t, none)) :
    (∃ r' ∈ t.preorder, r.Unmoved r') ∧
      (∀ u ∈ r.preorder, u.isActive = true → t.isCurrent (now.lease u.node.index) = true) ∧
        ∀ u ∈ r.preorder, u.node ∉ asked choose now.wasActive (.down n.node.trail recalls) now := by
  obtain ⟨hsettled, hplain⟩ := settled hc run now List.mem_cons_self
  have hwf := wellFormed_of_compile hc hplain
  have hwfp := hwf.of_mem hp
  have hact := activates_of_activate hwf h
  -- The way goes to the parallel node, and from there to the node, beside the region.
  obtain ⟨names, hnames⟩ := WellFormed.exists_trail_eq hwf hp
  obtain ⟨rest, hrest⟩ := WellFormed.exists_trail_eq hwfp hn
  have hentry : Approach.down n.node.trail recalls = .down (names ++ rest) recalls := by
    rw [hrest, hnames, trail_of_compile hc hplain, List.nil_append]
  have hregion := hwfp.region_eq hn hne hrest hr hoff recalls
  have hstays := hsettled.region_stays hwf hp hshape ha hr
  have hunmoved : ∃ r' ∈ t.preorder, r.Unmoved r' := by
    obtain ⟨p', hp', hpact⟩ := hact.exists_way hwf hentry hp hnames
    obtain ⟨r', hr', heq⟩ := hpact.exists_region hshape hr
    obtain ⟨r'', heq', hrel⟩ := hstays choose
    rw [hregion] at heq
    cases heq.symm.trans heq'
    exact ⟨r', mem_preorder_trans hp' hr', hrel⟩
  refine ⟨hunmoved, fun u hu hua => ?_, fun u hu hasked => ?_⟩
  · obtain ⟨r', hr', hrel⟩ := hunmoved
    have hwft := wellFormed_of_compile hc (hact.plain_eq.trans hplain)
    have hrnow := mem_preorder_trans hp (mem_preorder_of_child hr r.self_mem_preorder)
    exact hrel.isCurrent hwf hwft hrnow hr' hu hua
  · have hbelow := mem_asked_of_way hwf hentry hp hnames (mem_preorder_of_child hr hu) hasked
    have hmem := mem_asked_region hwfp hshape hr hu hbelow
    have hnil := asked_eq_nil (fun choose => (hstays choose).failure_eq) choose
    rw [hregion, hnil] at hmem
    cases hmem

/-- The lamp of the device has been made bright. To enter the fan leaves the lamp as it is, though
its initial rule would fail by now. -/
theorem Course.regions_isolated_device :
    let choose : Chooser :=
      (⟨(Design.device.build "m").table, .null⟩ : Context Unit).initialChild ()
    let fails : Chooser := fun _ => .error ⟨.initial, "reading", "no reading"⟩
    let tree := (Design.device.build "m").tree
    let idle := (tree.activate choose (fun _ => false) (.target .fresh)).1
    let bright := (idle.activate choose idle.wasActive (.down ["on", "lamp", "bright"] .fresh)).1
    let after := (bright.activate fails bright.wasActive (.down ["on", "fan"] .fresh)).1
    Course tree [bright, idle] ∧ ∃ lamp ∈ bright.preorder, lamp.node.path = "m.on.lamp" ∧
      lamp.activeBelow.map (·.path) = ["m.on.lamp", "m.on.lamp.bright"] ∧
        ∃ lamp' ∈ after.preorder, lamp.Unmoved lamp' := by
  intro choose fails tree idle bright after
  have hidle : Course tree [idle] := .begin (Prod.ext rfl (by decide))
  have hbright : Course tree [bright, idle] := by
    have h : idle.activate choose idle.wasActive (.down ["on", "lamp", "bright"] .fresh) =
        (bright, none) := Prod.ext rfl (by decide)
    obtain ⟨n, hn, htrail⟩ :
        ∃ n ∈ idle.preorder, n.node.trail = ["on", "lamp", "bright"] := by decide
    exact .move hidle hn (htrail ▸ h)
  have hafter : bright.activate fails bright.wasActive (.down ["on", "fan"] .fresh) =
      (after, none) := Prod.ext rfl (by decide)
  obtain ⟨on, hon, hshape, ha, lamp, hlamp, hpath, hactive, fan, hfan, htrail, hne, hoff⟩ :
      ∃ on ∈ bright.preorder, on.node.shape.isParallel = true ∧ on.isActive = true ∧
        ∃ lamp ∈ on.children, lamp.node.path = "m.on.lamp" ∧
          lamp.activeBelow.map (·.path) = ["m.on.lamp", "m.on.lamp.bright"] ∧
            ∃ fan ∈ on.preorder, fan.node.trail = ["on", "fan"] ∧
              fan.node.index ≠ on.node.index ∧
                ∀ u ∈ lamp.preorder, u.node.index ≠ fan.node.index := by decide
  have hparallel : on.node.shape = .parallel := by
    cases hs : on.node.shape <;> rw [hs] at hshape <;> first | rfl | cases hshape
  obtain ⟨hunmoved, -, -⟩ := hbright.regions_isolated Design.compile_device hon hparallel ha hfan
    (fun heq => hne (by rw [heq])) hlamp (fun hmem => hoff fan hmem rfl) (htrail ▸ hafter)
  exact ⟨hbright, lamp, mem_preorder_trans hon (mem_preorder_of_child hlamp lamp.self_mem_preorder),
    hpath, hactive, hunmoved⟩

end Tree
end Statechart
