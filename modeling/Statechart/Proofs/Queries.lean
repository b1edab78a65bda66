/-
# What queries select

A path is made of segments, which stand between its dots, and so is a query without the blanks and
dots around it. The query selects the paths whose segments end with its own (`Path.selects_iff`):
a name is only ever matched as a whole, also where it is empty or has blanks in it. The state that a
query stands for is the deepest of those it selects, and the last of these
(`Tree.resolve_by_segments`).

Two queries select the same paths just when they come to the same without what is around them
(`Path.selects_eq_iff`). The query that is read from a target has lost its blanks and dots already,
and loses them once more when it is matched. That makes no difference unless a blank was hidden
inside the dots at an end: of `. a` there is left ` a` at first and then `a`. For all other
spellings a target and a query lead to the same states (`Target.parse_selects_iff`).

Key definitions: `Path.segments`, `Path.Ends`, `Path.Hides`, `Path.IsTidy`.
Key theorems: `Path.selects_iff`, `Tree.resolve_by_segments`, `Path.selects_eq_iff`,
`Path.isTidy_iff`, `Path.normalize_normalize_iff`, `Target.parse_selects_iff`.
-/
import Mathlib.Data.List.TakeWhile
import Statechart.Proofs.Addresses

namespace Statechart
namespace Path

/-! ### Segments -/

/-- What stands between the dots of a text. -/
def segments (text : String) : List String := (text.toList.splitOn '.').map String.ofList

theorem splitOn_dots (cs : List Char) :
    (cs.splitOn '.').flatMap ('.' :: ·) = '.' :: cs ∧ ∀ s ∈ cs.splitOn '.', '.' ∉ s := by
  induction cs with
  | nil => simp
  | cons c cs ih =>
    obtain ⟨hjoin, hdots⟩ := ih
    rw [List.splitOn_cons_eq_if_modifyHead]
    by_cases hc : c = '.'
    · subst hc
      rw [if_pos (beq_self_eq_true '.')]
      refine ⟨?_, List.forall_mem_cons.mpr ⟨List.not_mem_nil, hdots⟩⟩
      rw [List.flatMap_cons, hjoin]
      rfl
    · rw [if_neg (by simpa using hc)]
      cases hsplit : cs.splitOn '.' with
      | nil => exact absurd hsplit (List.splitOn_ne_nil '.' cs)
      | cons first more =>
        rw [hsplit, List.flatMap_cons] at hjoin
        rw [hsplit] at hdots
        obtain ⟨hfirst, hmore⟩ := List.forall_mem_cons.mp hdots
        obtain rfl : first ++ more.flatMap ('.' :: ·) = cs := (List.cons.inj hjoin).2
        refine ⟨rfl, List.forall_mem_cons.mpr ⟨?_, hmore⟩⟩
        rw [List.mem_cons, not_or]
        exact ⟨fun h => hc h.symm, hfirst⟩

/-- The segments of a text make it up, each with a dot before it. -/
theorem dotted_segments (text : String) : dotted (segments text) = '.' :: text.toList := by
  have hjoin := (splitOn_dots text.toList).1
  simpa [dotted, segments, List.flatMap_map] using hjoin

theorem dotless_of_mem_segments {text s : String} (h : s ∈ segments text) : '.' ∉ s.toList := by
  obtain ⟨cs, hcs, rfl⟩ := List.mem_map.mp h
  rw [String.toList_ofList]
  exact (splitOn_dots text.toList).2 cs hcs

/-- The query is not empty without the blanks and dots around it, and the segments of the path end
with its own. -/
def Ends (query path : String) : Prop :=
  normalize query ≠ "" ∧ segments (normalize query) <:+ segments path

theorem selects_iff_endsAtDot {query path : String} : selects query path = true ↔
    normalized query.toList ≠ [] ∧ endsAtDot (normalized query.toList) path.toList = true := by
  simp [selects]

theorem selects_iff (query path : String) : selects query path = true ↔ Ends query path := by
  have hquery : dotted (segments (normalize query)) = '.' :: normalized query.toList := by
    rw [dotted_segments, normalize, String.toList_ofList]
  have hne : normalize query ≠ "" ↔ normalized query.toList ≠ [] := by
    rw [Ne, ← String.toList_eq_nil_iff, normalize, String.toList_ofList]
  rw [selects_iff_endsAtDot, endsAtDot_iff, Ends, hne, ← hquery, ← dotted_segments,
    dotted_suffix_iff (fun _ => dotless_of_mem_segments) fun _ => dotless_of_mem_segments]

/-- An empty segment and one that is all of a name are segments like others. -/
example : segments "m.a..b" = ["m", "a", "", "b"] := by cbv

end Path

namespace Tree

/-- **A query stands for the deepest state whose path ends with its segments.** A query selects a
path just when the segments of the path end with those of the query. In each tree it stands for no
node if no path does, and otherwise for the one with such a path than which none is deeper and none
that is as deep comes later in the pre-order. -/
theorem resolve_by_segments (query : String) :
    (∀ path, Path.selects query path = true ↔ Path.Ends query path) ∧
      ∀ t : Tree,
        (t.resolve query = none ↔ ∀ u ∈ t.preorder, ¬ Path.Ends query u.node.path) ∧
        ∀ u, t.resolve query = some u ↔ Path.Ends query u.node.path ∧
          ∃ l r, t.preorder = l ++ u :: r ∧
            (∀ v ∈ l, Path.Ends query v.node.path → v.node.depth ≤ u.node.depth) ∧
            ∀ v ∈ r, Path.Ends query v.node.path → v.node.depth < u.node.depth := by
  have hselects := Path.selects_iff query
  refine ⟨hselects, fun t => ⟨?_, fun u => ?_⟩⟩
  · rw [resolve_eq_none_iff]
    refine forall₂_congr fun u _ => ?_
    rw [← hselects, Bool.not_eq_true]
  · rw [resolve, deepest_eq_some_iff]
    constructor
    · rintro ⟨l, r, hfilter, hl, hr⟩
      obtain ⟨front, back, hpreorder, rfl, hback⟩ := List.filter_eq_append_iff.mp hfilter
      obtain ⟨skipped, back, rfl, hskipped, hu, rfl⟩ := List.filter_eq_cons_iff.mp hback
      refine ⟨(hselects _).mp hu, front ++ skipped, back, by rw [hpreorder, List.append_assoc], ?_, ?_⟩
      · intro v hv hends
        rcases List.mem_append.mp hv with hv | hv
        · exact hl v (List.mem_filter.mpr ⟨hv, (hselects _).mpr hends⟩)
        · exact absurd ((hselects _).mpr hends) (hskipped v hv)
      · exact fun v hv hends => hr v (List.mem_filter.mpr ⟨hv, (hselects _).mpr hends⟩)
    · rintro ⟨hu, l, r, hpreorder, hl, hr⟩
      let p : Tree → Bool := fun v => Path.selects query v.node.path
      refine ⟨l.filter p, r.filter p, ?_, fun v hv => ?_, fun v hv => ?_⟩
      · have hp : p u = true := (hselects _).mpr hu
        rw [targets, hpreorder, List.filter_append, List.filter_cons_of_pos hp]
      · obtain ⟨hv, hsel⟩ := List.mem_filter.mp hv
        exact hl v hv ((hselects _).mp hsel)
      · obtain ⟨hv, hsel⟩ := List.mem_filter.mp hv
        exact hr v hv ((hselects _).mp hsel)

end Tree

/-! ### Queries that come to the same -/

namespace Path

theorem selects_self {query : String} (h : normalized query.toList ≠ []) :
    selects query (normalize query) = true := by
  rw [selects_iff_endsAtDot, endsAtDot_iff, normalize, String.toList_ofList]
  exact ⟨h, List.suffix_refl _⟩

/-- Two queries select the same paths just when they come to the same without the blanks and dots
around them. -/
theorem selects_eq_iff {query other : String} :
    (∀ path, selects query path = selects other path) ↔ normalize query = normalize other := by
  -- What one query comes to is a path that it selects, so that it ends with what the other comes to.
  have ends : ∀ {q q' : String}, (∀ path, selects q path = selects q' path) →
      normalized q.toList ≠ [] →
      normalized q'.toList ≠ [] ∧ '.' :: normalized q'.toList <:+ '.' :: normalized q.toList := by
    intro q q' h hne
    have hself := selects_self hne
    rw [h, selects_iff_endsAtDot, endsAtDot_iff, normalize, String.toList_ofList] at hself
    exact hself
  constructor
  · intro h
    have h' : ∀ path, selects other path = selects query path := fun path => (h path).symm
    by_cases hne : normalized query.toList = []
    · by_cases hne' : normalized other.toList = []
      · rw [normalize, normalize, hne, hne']
      · exact absurd hne (ends h' hne').1
    · obtain ⟨hne', hsuffix⟩ := ends h hne
      obtain ⟨-, hsuffix'⟩ := ends h' hne'
      have heq := hsuffix.eq_of_length_le hsuffix'.length_le
      rw [normalize, normalize, (List.cons.inj heq).2]
  · intro h path
    have heq : normalized query.toList = normalized other.toList := String.ofList_injective h
    rw [selects, selects, heq]

end Path

/-! ### Texts with something around them -/

namespace Text

variable {drop : Char → Bool}

/-- A text is its beginning and then the characters of the class at its end. -/
theorem exists_trailing (drop : Char → Bool) (s : List Char) : ∃ front back, s = front ++ back ∧
    (∀ c ∈ back, drop c = true) ∧ ∀ c, front.getLast? = some c → drop c = false := by
  refine ⟨(s.reverse.dropWhile drop).reverse, (s.reverse.takeWhile drop).reverse, ?_, ?_, ?_⟩
  · rw [← List.reverse_append, List.takeWhile_append_dropWhile, List.reverse_reverse]
  · exact fun c hc => List.mem_takeWhile_imp (List.mem_reverse.mp hc)
  · intro c hc
    rw [List.getLast?_reverse] at hc
    exact drop_head?_dropWhile hc

/-- A text that neither begins nor ends with the class is what is left of it in the midst of the
class. -/
theorem strip_append {a m b : List Char} (ha : ∀ c ∈ a, drop c = true) (hb : ∀ c ∈ b, drop c = true)
    (head : ∀ c, m.head? = some c → drop c = false)
    (last : ∀ c, m.getLast? = some c → drop c = false) : strip drop (a ++ m ++ b) = m := by
  have hall : ∀ {l : List Char}, (∀ c ∈ l, drop c = true) → l.dropWhile drop = [] := fun h =>
    List.dropWhile_eq_nil_iff.mpr h
  cases m with
  | nil =>
    have hab : ∀ c ∈ a ++ [] ++ b, drop c = true := by
      intro c hc
      rw [List.append_nil] at hc
      exact (List.mem_append.mp hc).elim (ha c) (hb c)
    rw [strip, hall hab]
    rfl
  | cons c m =>
    have hfront : (a ++ (c :: m) ++ b).dropWhile drop = (c :: m) ++ b := by
      rw [List.append_assoc, List.dropWhile_append_of_pos ha, List.cons_append,
        List.dropWhile_cons_of_neg (by simp [head c rfl])]
    have hback : ((c :: m) ++ b).reverse.dropWhile drop = (c :: m).reverse := by
      rw [List.reverse_append,
        List.dropWhile_append_of_pos fun d hd => hb d (List.mem_reverse.mp hd)]
      cases hrev : (c :: m).reverse with
      | nil => rfl
      | cons d m' =>
        have hlast : (c :: m).getLast? = some d := by
          rw [List.getLast?_eq_head?_reverse, hrev]
          rfl
        rw [List.dropWhile_cons_of_neg (by simp [last d hlast])]
    rw [strip, hfront, hback, List.reverse_reverse]

/-- What is stripped off a text are characters of the class at its ends. -/
theorem exists_strip (drop : Char → Bool) (s : List Char) : ∃ a b, s = a ++ strip drop s ++ b ∧
    (∀ c ∈ a, drop c = true) ∧ ∀ c ∈ b, drop c = true := by
  refine ⟨s.takeWhile drop, ((s.dropWhile drop).reverse.takeWhile drop).reverse, ?_, ?_, ?_⟩
  · rw [List.append_assoc, strip, ← List.reverse_append, List.takeWhile_append_dropWhile,
      List.reverse_reverse, List.takeWhile_append_dropWhile]
  · exact fun c hc => List.mem_takeWhile_imp hc
  · exact fun c hc => List.mem_takeWhile_imp (List.mem_reverse.mp hc)

theorem strip_infix (drop : Char → Bool) (s : List Char) : strip drop s <:+: s := by
  obtain ⟨a, b, hs, -⟩ := exists_strip drop s
  exact ⟨a, b, hs.symm⟩

/-- A text can be stripped from its end as well. -/
theorem strip_reverse (drop : Char → Bool) (s : List Char) :
    strip drop s.reverse = (strip drop s).reverse := by
  obtain ⟨a, b, hs, ha, hb⟩ := exists_strip drop s
  have hreverse : s.reverse = b.reverse ++ (strip drop s).reverse ++ a.reverse := by
    conv_lhs => rw [hs]
    simp
  rw [hreverse]
  refine strip_append (fun c hc => hb c (List.mem_reverse.mp hc))
    (fun c hc => ha c (List.mem_reverse.mp hc)) (fun c hc => ?_) fun c hc => ?_
  · rw [List.head?_reverse] at hc
    exact getLast?_strip hc
  · rw [List.getLast?_reverse] at hc
    exact head?_strip hc

/-- What is stripped off the front of a text goes up to the first character that is not of the
class. -/
theorem head?_strip_append {a m : List Char} {c : Char} (ha : ∀ x ∈ a, drop x = true)
    (hc : drop c = false) : (strip drop (a ++ c :: m)).head? = some c := by
  obtain ⟨kept, dropped, hkept, hdropped, hlast⟩ := exists_trailing drop (c :: m)
  cases kept with
  | nil =>
    have hmem : c ∈ dropped := by
      rw [List.nil_append] at hkept
      exact hkept ▸ List.mem_cons_self
    exact absurd (hc.symm.trans (hdropped c hmem)) Bool.false_ne_true
  | cons k kept =>
    obtain rfl : c = k := (List.cons.inj hkept).1
    have hhead : ∀ x, (c :: kept).head? = some x → drop x = false := by
      rintro x ⟨⟩
      exact hc
    rw [hkept, ← List.append_assoc, strip_append ha hdropped hhead hlast]
    rfl

/-- If a text does not end with the class, then a character of the class has one behind it that is
not of the class. -/
theorem exists_behind {s a m : List Char} {c : Char} (hs : s = a ++ c :: m)
    (last : ∀ x, s.getLast? = some x → drop x = false) (hc : drop c = true) :
    ∃ x ∈ m, drop x = false := by
  subst hs
  cases hm : m.getLast? with
  | none =>
    have hend : (a ++ c :: m).getLast? = some c := by
      rw [List.getLast?_eq_none_iff.mp hm, List.getLast?_append]
      rfl
    exact absurd ((last c hend).symm.trans hc) Bool.false_ne_true
  | some x =>
    have hend : (a ++ c :: m).getLast? = some x := by
      rw [List.getLast?_append, List.getLast?_cons, hm]
      rfl
    exact ⟨x, List.mem_of_getLast? hm, last x hend⟩

end Text

/-! ### Blanks inside the dots around a query -/

namespace Path

/-- A blank hides at the beginning of a query: it stands behind dots, with nothing but blanks
before them, and in front of something that is not a blank. -/
def Hides (query : List Char) : Prop :=
  ∃ blanks dots c rest, query = blanks ++ dots ++ c :: rest ∧
    (∀ b ∈ blanks, Text.isBlank b = true) ∧ dots ≠ [] ∧ (∀ d ∈ dots, d = '.') ∧
      Text.isBlank c = true ∧ ∃ r ∈ rest, Text.isBlank r = false

/-- No blank hides at an end of the query. -/
def IsTidy (query : String) : Prop := ¬ Hides query.toList ∧ ¬ Hides query.toList.reverse

theorem isBlank_dot : Text.isBlank '.' = false := by decide

theorem normalized_reverse (query : List Char) :
    normalized query.reverse = (normalized query).reverse := by
  rw [normalized, normalized, Text.strip_reverse, Text.strip_reverse]

theorem normalized_of_hides {blanks dots rest : List Char} {c : Char}
    (hblanks : ∀ b ∈ blanks, Text.isBlank b = true) (hne : dots ≠ []) (hdots : ∀ d ∈ dots, d = '.')
    (hc : Text.isBlank c = true) (hrest : ∃ r ∈ rest, Text.isBlank r = false) :
    (normalized (blanks ++ dots ++ c :: rest)).head? = some c := by
  have hcdot : (c == '.') = false := by
    rw [beq_eq_false_iff_ne]
    rintro rfl
    exact Bool.false_ne_true (isBlank_dot.symm.trans hc)
  -- The blanks go first, with those at the end of the rest, and leave the hidden one in its place.
  obtain ⟨front, back, rfl, hback, hfront⟩ := Text.exists_trailing Text.isBlank rest
  have hfrontne : front ≠ [] := by
    rintro rfl
    obtain ⟨r, hr, hr'⟩ := hrest
    exact Bool.false_ne_true (hr'.symm.trans (hback r hr))
  have hsplit : blanks ++ dots ++ c :: (front ++ back) = blanks ++ (dots ++ c :: front) ++ back := by
    simp
  have htext : Text.strip Text.isBlank (blanks ++ dots ++ c :: (front ++ back)) =
      dots ++ c :: front := by
    rw [hsplit]
    refine Text.strip_append hblanks hback (fun d hd => ?_) fun d hd => ?_
    · rw [List.head?_append_of_ne_nil _ hne] at hd
      rw [hdots d (List.mem_of_head? hd)]
      exact isBlank_dot
    · rw [List.getLast?_append_of_ne_nil _ (List.cons_ne_nil c front),
        List.getLast?_cons_of_ne_nil hfrontne] at hd
      exact hfront d hd
  rw [normalized, htext]
  exact Text.head?_strip_append (fun d hd => by simp [hdots d hd]) hcdot

/-- What a query comes to begins with a blank just when one hides at its beginning. -/
theorem hides_iff (query : List Char) :
    Hides query ↔ ∃ c, (normalized query).head? = some c ∧ Text.isBlank c = true := by
  constructor
  · rintro ⟨blanks, dots, c, rest, rfl, hblanks, hne, hdots, hc, hrest⟩
    exact ⟨c, normalized_of_hides hblanks hne hdots hc hrest, hc⟩
  · rintro ⟨c, hhead, hc⟩
    obtain ⟨a, b, hquery, ha, -⟩ := Text.exists_strip Text.isBlank query
    obtain ⟨d, e, htext, hd, -⟩ := Text.exists_strip (· == '.') (Text.strip Text.isBlank query)
    obtain ⟨n, hn⟩ := List.head?_eq_some_iff.mp hhead
    rw [normalized] at hn
    rw [hn] at htext
    have hne : d ≠ [] := by
      rintro rfl
      have hfirst : (Text.strip Text.isBlank query).head? = some c := by
        rw [htext]
        rfl
      exact Bool.false_ne_true ((Text.head?_strip hfirst).symm.trans hc)
    have hsplit : Text.strip Text.isBlank query = d ++ c :: (n ++ e) := by
      rw [htext]
      simp
    obtain ⟨r, hr, hr'⟩ := Text.exists_behind hsplit (fun _ => Text.getLast?_strip) hc
    refine ⟨a, d, c, n ++ e ++ b, ?_, ha, hne, fun x hx => by simpa using hd x hx, hc, r,
      List.mem_append_left _ hr, hr'⟩
    conv_lhs => rw [hquery, htext]
    simp

/-- No blank hides in a query just when none is at the ends of what it comes to. -/
theorem isTidy_iff (query : String) : IsTidy query ↔ ∀ c,
    ((normalize query).toList.head? = some c ∨ (normalize query).toList.getLast? = some c) →
      Text.isBlank c = false := by
  rw [IsTidy, hides_iff, hides_iff, normalized_reverse, normalize, String.toList_ofList]
  simp only [List.head?_reverse, not_exists, not_and, Bool.not_eq_true]
  constructor
  · rintro ⟨hfirst, hlast⟩ c (hc | hc)
    · exact hfirst c hc
    · exact hlast c hc
  · exact fun h => ⟨fun c hc => h c (Or.inl hc), fun c hc => h c (Or.inr hc)⟩

/-- What a query comes to neither begins nor ends with a dot. -/
theorem normalize_ne_dot {query : String} {c : Char}
    (h : (normalize query).toList.head? = some c ∨ (normalize query).toList.getLast? = some c) :
    c ≠ '.' := by
  rw [normalize, String.toList_ofList] at h
  rcases h with h | h
  · simpa using Text.head?_strip h
  · simpa using Text.getLast?_strip h

/-- What a query comes to comes to itself just when no blank hides in the query. -/
theorem normalize_normalize_iff (query : String) :
    normalize (normalize query) = normalize query ↔ IsTidy query := by
  rw [isTidy_iff]
  constructor
  · intro h c hc
    have hsame : normalized (normalize query).toList = (normalize query).toList := by
      rw [← String.toList_ofList (l := normalized _)]
      exact congrArg String.toList h
    -- Nothing is lost in the end, so that no blank was lost on the way.
    have hblanks : Text.strip Text.isBlank (normalize query).toList = (normalize query).toList := by
      have hdots := Text.strip_infix (· == '.') (Text.strip Text.isBlank (normalize query).toList)
      rw [← normalized, hsame] at hdots
      exact (Text.strip_infix Text.isBlank _).eq_of_length_le hdots.length_le
    rw [← hblanks] at hc
    exact hc.elim Text.head?_strip Text.getLast?_strip
  · intro h
    have hends : normalized (normalize query).toList = (normalize query).toList :=
      normalized_eq_self (fun c hc => ⟨normalize_ne_dot (Or.inl hc), h c (Or.inl hc)⟩)
        fun c hc => ⟨normalize_ne_dot (Or.inr hc), h c (Or.inr hc)⟩
    rw [normalize, hends, String.ofList_toList]

instance (query : String) : Decidable (IsTidy query) :=
  decidable_of_iff _ (normalize_normalize_iff query)

end Path

/-! ### Targets and queries of one spelling -/

namespace Target

/-- A target that recalls nothing is the query that its text comes to. -/
theorem parse_query_of_fresh {raw : String} (h : (parse raw).recalls = .fresh) :
    (parse raw).query = Path.normalize raw := by
  unfold parse at h ⊢
  dsimp only at h ⊢
  split
  · rename_i hprevious
    rw [hprevious] at h
    cases h
  · rename_i hprevious hrestore
    rw [hprevious, hrestore] at h
    cases h
  · rfl

/-- **A spelling is a query and a target for the same paths just when no blank hides in it.** What
a text comes to has no dots at its ends. Also no blank is there, and it comes to itself, just when
no blank stands inside the dots around the text. A target without a recall then selects the paths
that its text selects, and in no other case does it select the same ones. -/
theorem parse_selects_iff (raw : String) :
    (∀ c, ((Path.normalize raw).toList.head? = some c ∨
      (Path.normalize raw).toList.getLast? = some c) → c ≠ '.') ∧
    (Path.IsTidy raw ↔ ∀ c, ((Path.normalize raw).toList.head? = some c ∨
      (Path.normalize raw).toList.getLast? = some c) → Text.isBlank c = false) ∧
    (Path.normalize (Path.normalize raw) = Path.normalize raw ↔ Path.IsTidy raw) ∧
    ((parse raw).recalls = .fresh →
      ((∀ path, Path.selects (parse raw).query path = Path.selects raw path) ↔
        Path.IsTidy raw)) := by
  refine ⟨fun c => Path.normalize_ne_dot, Path.isTidy_iff raw, Path.normalize_normalize_iff raw,
    fun hfresh => ?_⟩
  rw [parse_query_of_fresh hfresh, Path.selects_eq_iff, Path.normalize_normalize_iff]

/-- Blanks and then dots around a spelling do not matter. -/
theorem parse_selects_padded :
    parse "  .editing.idle. " = ⟨"editing.idle", .fresh⟩ ∧
      ∀ path, Path.selects "editing.idle" path = Path.selects "  .editing.idle. " path := by
  have hparse : parse "  .editing.idle. " = ⟨"editing.idle", .fresh⟩ := by decide
  obtain ⟨-, -, -, hselects⟩ := parse_selects_iff "  .editing.idle. "
  rw [hparse] at hselects
  exact ⟨hparse, (hselects rfl).mpr (by decide)⟩

/-- The blank behind the dot of `. a` is left when the text is read as a target, so that it is not
what it comes to itself. The target selects the state a of m, and the query does not. -/
theorem parse_selects_hidden :
    parse ". a" = ⟨" a", .fresh⟩ ∧
      Path.normalize (Path.normalize ". a") ≠ Path.normalize ". a" ∧
      Path.selects (parse ". a").query "m.a" = true ∧ Path.selects ". a" "m.a" = false := by
  decide

end Target
end Statechart
