/-
# Functions filed in a table

As a design is read, its functions go into a table one after another, and what was filed stays
where it is (`Table.Extends`). A function that is referred to by name is filed once, under its
name, and an inline one gets a slot of its own. So whatever part of a design was read last, the
places that it came to have in the table are those of slots filed for it alone, or of slots under
the names that it refers to (`Host.Filed`). Two parts that are read one after the other add up
(`Host.Filed.and`), which carries this from one reference to a whole design.

Key definitions: `Shelf`, `Table.sources`, `Table.Extends`, `Host.Stocked`, `Host.Filed`,
`Table.reference`.
Key theorems: `Host.Filed.and`, `Host.refer_filed`, `Host.computed_filed`.
-/
import Statechart.Design.Compile

namespace Statechart

variable {D : Type}

/-! ### Tables -/

/-- A list of a table: one for each kind of functions, and one for computed targets. -/
inductive Shelf where
  | functions (kind : Kind)
  | targets
deriving DecidableEq

/-- A list of a table and a place in it. -/
abbrev Place := Shelf × Nat

/-- The reference that a slot was filed for. -/
def Slot.reference {F : Type} (s : Slot F) : Definition.Reference F :=
  match s.source with
  | some name => .named name
  | none => .inline s.fn

namespace Table

/-- The names that the slots of a list were filed under, if they have names. -/
def sources (t : Table D) : Shelf → List (Option String)
  | .functions k => (t.slots k).map (·.source)
  | .targets => t.targets.map (·.source)

/-- The reference that the slot at a place was filed for. -/
def reference (t : Table D) (k : Kind) (i : Nat) : Definition.Reference (k.Fn D) :=
  (t.slot k i).reference

theorem getElem?_of_extends {α : Type} {l l' : List α} (h : l <+: l') {i : Nat}
    (hi : i < l.length) : l'[i]? = l[i]? := by
  obtain ⟨more, rfl⟩ := h
  exact List.getElem?_append_left hi

theorem getElem?_eq_some_of_extends {α : Type} {l l' : List α} (h : l <+: l') {i : Nat} {a : α}
    (ha : l[i]? = some a) : l'[i]? = some a := by
  rw [getElem?_of_extends h (List.getElem?_eq_some_iff.mp ha).1, ha]

/-- The later table has all that the earlier one has, in the same places. -/
structure Extends (t t' : Table D) : Prop where
  slots : ∀ k, t.slots k <+: t'.slots k
  targets : t.targets <+: t'.targets

namespace Extends

variable {t t' t'' : Table D}

theorem refl (t : Table D) : t.Extends t := ⟨fun _ => List.prefix_refl _, List.prefix_refl _⟩

theorem trans (h : t.Extends t') (h' : t'.Extends t'') : t.Extends t'' :=
  ⟨fun k => (h.slots k).trans (h'.slots k), h.targets.trans h'.targets⟩

theorem sources (h : t.Extends t') (s : Shelf) : t.sources s <+: t'.sources s := by
  cases s with
  | functions k => exact (h.slots k).map _
  | targets => exact h.targets.map _

theorem length_le (h : t.Extends t') (s : Shelf) : (t.sources s).length ≤ (t'.sources s).length :=
  (h.sources s).length_le

theorem slot_eq (h : t.Extends t') {k : Kind} {i : Nat} {s : Slot (k.Fn D)}
    (hs : (t.slots k)[i]? = some s) : t'.slot k i = s := by
  rw [slot, getElem?_eq_some_of_extends (h.slots k) hs]
  rfl

theorem target_eq (h : t.Extends t') {i : Nat} {s : Slot (TargetFn D)}
    (hs : t.targets[i]? = some s) : t'.target i = s := by
  rw [target, getElem?_eq_some_of_extends h.targets hs]
  rfl

end Extends

/-- A slot more of one kind. -/
theorem extends_withSlots (t : Table D) (k : Kind) (s : Slot (k.Fn D)) :
    t.Extends (t.withSlots k (t.slots k ++ [s])) where
  slots l := by
    by_cases h : l = k
    · subst h
      rw [slots_withSlots]
      exact List.prefix_append _ _
    · have hother := slots_withSlots_of_ne t h (t.slots k ++ [s])
      simp [hother]
  targets := by simp

end Table

namespace Host

variable (host : Host D)

/-- What is filed under a name is the function that the host has under it, and nothing else is
filed under the same name. Computed targets have no names. -/
structure Stocked (t : Table D) : Prop where
  functions : ∀ k, ∀ s ∈ t.slots k, ∀ name, s.source = some name →
    (host.functions k).find? name = some s.fn
  once : ∀ k, ((t.slots k).filterMap (·.source)).Nodup
  targets : ∀ s ∈ t.targets, s.source = none

theorem stocked_empty : host.Stocked {} where
  functions k s hs := by cases k <;> cases hs
  once k := by cases k <;> exact List.nodup_nil
  targets s hs := by cases hs

theorem Stocked.withSlots {host : Host D} {t : Table D} (h : host.Stocked t) {k : Kind}
    {s : Slot (k.Fn D)} (fn : ∀ name, s.source = some name →
      (host.functions k).find? name = some s.fn)
    (fresh : ∀ name, s.source = some name → ∀ s' ∈ t.slots k, s'.source ≠ some name) :
    host.Stocked (t.withSlots k (t.slots k ++ [s])) where
  functions l := by
    by_cases hl : l = k
    · subst hl
      rw [Table.slots_withSlots]
      intro s' hs' name hname
      rcases List.mem_append.mp hs' with hs' | hs'
      · exact h.functions l s' hs' name hname
      · obtain rfl := List.mem_singleton.mp hs'
        exact fn name hname
    · rw [Table.slots_withSlots_of_ne t hl]
      exact h.functions l
  once l := by
    by_cases hl : l = k
    · subst hl
      rw [Table.slots_withSlots, List.filterMap_append, List.nodup_append]
      refine ⟨h.once l, ?_, ?_⟩
      · cases hs : s.source with
        | none => simp [hs]
        | some name => simp [hs]
      · intro name hname other hother
        obtain ⟨s', hs', hsource⟩ := List.mem_filterMap.mp hname
        obtain ⟨s'', hs'', hsource'⟩ := List.mem_filterMap.mp hother
        obtain rfl := List.mem_singleton.mp hs''
        rintro rfl
        exact fresh name hsource' s' hs' hsource
    · rw [Table.slots_withSlots_of_ne t hl]
      exact h.once l
  targets := by
    rw [Table.targets_withSlots]
    exact h.targets

/-- A name has one slot. -/
theorem Stocked.eq_of_source_eq {host : Host D} {t : Table D} (h : host.Stocked t) {k : Kind}
    {i j : Nat} {s s' : Slot (k.Fn D)} (hi : (t.slots k)[i]? = some s)
    (hj : (t.slots k)[j]? = some s') {name : String} (hs : s.source = some name)
    (hs' : s'.source = some name) : i = j := by
  have hdistinct := List.pairwise_iff_getElem.mp (List.pairwise_filterMap.mp (h.once k))
  obtain ⟨hilt, rfl⟩ := List.getElem?_eq_some_iff.mp hi
  obtain ⟨hjlt, rfl⟩ := List.getElem?_eq_some_iff.mp hj
  rcases Nat.lt_trichotomy i j with hlt | heq | hlt
  · exact absurd rfl (hdistinct i j hilt hjlt hlt name hs name hs')
  · exact heq
  · exact absurd rfl (hdistinct j i hjlt hilt hlt name hs' name hs)

/-- From the one table to the other a part of a design was filed that came to have the places. A
slot without a name that was there before is not among these, and one that is new is so once. From
then on the table holds what `Reads` says. -/
structure Filed (t t' : Table D) (ps : List Place) (Reads : Table D → Prop) : Prop where
  stocked : host.Stocked t'
  grows : t.Extends t'
  range : ∀ p ∈ ps, p.2 < (t'.sources p.1).length
  own : ∀ p : Place, (t'.sources p.1)[p.2]? = some none →
    ps.count p = if p.2 < (t.sources p.1).length then 0 else 1
  reads : ∀ T, t'.Extends T → Reads T

namespace Filed

variable {host : Host D} {t t' t'' : Table D} {ps qs : List Place} {R S : Table D → Prop}

theorem refl (h : host.Stocked t) (hR : ∀ T, R T) : host.Filed t t [] R where
  stocked := h
  grows := .refl t
  range := nofun
  own p hp := by
    obtain ⟨hlt, -⟩ := List.getElem?_eq_some_iff.mp hp
    rw [if_pos hlt, List.count_nil]
  reads T _ := hR T

/-- One part after another. -/
theorem and (h : host.Filed t t' ps R) (h' : host.Filed t' t'' qs S) :
    host.Filed t t'' (ps ++ qs) fun T => R T ∧ S T where
  stocked := h'.stocked
  grows := h.grows.trans h'.grows
  range p hp := by
    rcases List.mem_append.mp hp with hp | hp
    · exact Nat.lt_of_lt_of_le (h.range p hp) (h'.grows.length_le p.1)
    · exact h'.range p hp
  own p hp := by
    have hle := h.grows.length_le p.1
    rw [List.count_append, h'.own p hp]
    by_cases hlt : p.2 < (t'.sources p.1).length
    · -- the slot was there when the second part was filed
      have hp' : (t'.sources p.1)[p.2]? = some none := by
        rw [← hp, Table.getElem?_of_extends (h'.grows.sources p.1) hlt]
      rw [if_pos hlt, Nat.add_zero, h.own p hp']
    · have hnot : p ∉ ps := fun hmem => hlt (h.range p hmem)
      rw [if_neg hlt, List.count_eq_zero_of_not_mem hnot, if_neg (by omega)]
  reads T hT := ⟨h.reads T (h'.grows.trans hT), h'.reads T hT⟩

/-- Derived values are no functions that a design refers to. -/
theorem withValues (h : host.Filed t t' ps R) (values : List (String × ValueFn D)) :
    host.Filed t { t' with values } ps R := by
  have hsources : ∀ s, Table.sources { t' with values } s = t'.sources s := by
    rintro (_ | _ | _ | _ | _ | _) <;> rfl
  have grows : t'.Extends { t' with values } :=
    ⟨fun k => by cases k <;> exact List.prefix_refl _, List.prefix_refl _⟩
  constructor
  case stocked =>
    constructor
    case functions => exact fun k => by cases k <;> exact h.stocked.functions _
    case once => exact fun k => by cases k <;> exact h.stocked.once _
    case targets => exact h.stocked.targets
  case grows => exact h.grows.trans grows
  case range => exact fun p hp => by simpa [hsources] using h.range p hp
  case own => exact fun p hp => h.own p (by simpa [hsources] using hp)
  case reads => exact fun T hT => h.reads T (grows.trans hT)

/-- What has a place has a slot there. -/
theorem getElem?_slots (h : host.Filed t t' ps R) {k : Kind} {i : Nat}
    (hi : (.functions k, i) ∈ ps) : (t'.slots k)[i]? = some (t'.slot k i) := by
  have hlt : i < (t'.slots k).length := by simpa [Table.sources] using h.range _ hi
  simp [Table.slot, List.getElem?_eq_getElem hlt]

theorem mono (h : host.Filed t t' ps R) (hRS : ∀ T, R T → S T) : host.Filed t t' ps S :=
  { h with reads := fun T hT => hRS T (h.reads T hT) }

end Filed

/-! ### References -/

/-- One slot more on a list has the place behind those that were there. -/
theorem own_of_append {t t' : Table D} {shelf : Shelf} (source : Option String)
    (self : t'.sources shelf = t.sources shelf ++ [source])
    (other : ∀ s, s ≠ shelf → t'.sources s = t.sources s) {p : Place}
    (hp : (t'.sources p.1)[p.2]? = some none) :
    [(shelf, (t.sources shelf).length)].count p =
      if p.2 < (t.sources p.1).length then 0 else 1 := by
  obtain ⟨s, i⟩ := p
  obtain ⟨hi, -⟩ := List.getElem?_eq_some_iff.mp hp
  by_cases hs : s = shelf
  · subst hs
    rw [self, List.length_append, List.length_singleton] at hi
    by_cases hold : i < (t.sources s).length
    · have hne : i ≠ (t.sources s).length := by omega
      rw [if_pos hold, List.count_eq_zero]
      simpa using hne
    · obtain rfl : i = (t.sources s).length := by omega
      rw [if_neg hold, List.count_singleton_self]
  · rw [other s hs] at hi
    rw [if_pos hi, List.count_eq_zero]
    simpa using fun heq => absurd heq hs

/-- A new slot. -/
theorem filed_withSlots {host : Host D} {t : Table D} (ht : host.Stocked t) {k : Kind}
    {s : Slot (k.Fn D)} (fn : ∀ name, s.source = some name →
      (host.functions k).find? name = some s.fn)
    (fresh : ∀ name, s.source = some name → ∀ s' ∈ t.slots k, s'.source ≠ some name) :
    host.Filed t (t.withSlots k (t.slots k ++ [s])) [(.functions k, (t.slots k).length)]
      fun T => T.reference k (t.slots k).length = s.reference where
  stocked := ht.withSlots fn fresh
  grows := t.extends_withSlots k s
  range p hp := by
    obtain rfl := List.mem_singleton.mp hp
    simp [Table.sources]
  own p hp := by
    have hlength : (t.slots k).length = (t.sources (.functions k)).length := by simp [Table.sources]
    rw [hlength]
    refine own_of_append s.source ?_ (fun shelf hshelf => ?_) hp
    · simp [Table.sources]
    · cases shelf with
      | functions l =>
        have hl : l ≠ k := fun heq => hshelf (heq ▸ rfl)
        rw [Table.sources, Table.slots_withSlots_of_ne t hl, Table.sources]
      | targets => rw [Table.sources, Table.targets_withSlots, Table.sources]
  reads T hT := by
    have hs : ((t.withSlots k (t.slots k ++ [s])).slots k)[(t.slots k).length]? = some s := by
      rw [Table.slots_withSlots, List.getElem?_concat_length]
    rw [Table.reference, hT.slot_eq hs]

/-- A slot that was filed before. -/
theorem filed_self {host : Host D} {t : Table D} (ht : host.Stocked t) {k : Kind} {i : Nat}
    {s : Slot (k.Fn D)} {name : String} (hs : (t.slots k)[i]? = some s)
    (hname : s.source = some name) :
    host.Filed t t [(.functions k, i)] fun T => T.reference k i = s.reference where
  stocked := ht
  grows := .refl t
  range p hp := by
    obtain rfl := List.mem_singleton.mp hp
    simpa [Table.sources] using (List.getElem?_eq_some_iff.mp hs).1
  own p hp := by
    obtain ⟨hi, -⟩ := List.getElem?_eq_some_iff.mp hp
    rw [if_pos hi, List.count_eq_zero, List.mem_singleton]
    rintro rfl
    simp [Table.sources, hs, hname] at hp
  reads T hT := by rw [Table.reference, hT.slot_eq hs]

theorem refer_of_found {t : Table D} {k : Kind} {name : String} {i : Nat}
    (h : (t.slots k).findIdx? (·.source == some name) = some i) :
    (host.refer k (.named name)).run t = (i, t) := by
  simp [refer, h]
  rfl

theorem refer_of_new {t : Table D} {k : Kind} {name : String} {fn : k.Fn D}
    (h : (t.slots k).findIdx? (·.source == some name) = none)
    (hfn : (host.functions k).find? name = some fn) :
    (host.refer k (.named name)).run t =
      ((t.slots k).length, t.withSlots k (t.slots k ++ [⟨some name, fn⟩])) := by
  simp [refer, h, hfn]
  rfl

/-- A function gets a slot of its own, unless it is named and has one. -/
theorem refer_filed {t : Table D} (ht : host.Stocked t) {k : Kind}
    {ref : Definition.Reference (k.Fn D)} {path : String} (offered : host.missing path k ref = []) :
    host.Filed t ((host.refer k ref).run t).2 [(.functions k, ((host.refer k ref).run t).1)]
      fun T => T.reference k ((host.refer k ref).run t).1 = ref := by
  cases ref with
  | inline fn => exact filed_withSlots ht (s := ⟨none, fn⟩) nofun nofun
  | named name =>
    cases hfind : (t.slots k).findIdx? (·.source == some name) with
    | some i =>
      obtain ⟨hi, hname, -⟩ := List.findIdx?_eq_some_iff_getElem.mp hfind
      have hname : (t.slots k)[i].source = some name := by simpa using hname
      have hfiled := filed_self ht (List.getElem?_eq_getElem hi) hname
      rw [host.refer_of_found hfind]
      rwa [Slot.reference, hname] at hfiled
    | none =>
      obtain ⟨fn, hfn⟩ : ∃ fn, (host.functions k).find? name = some fn := by
        rw [missing] at offered
        split at offered
        · rename_i hsome
          exact Option.isSome_iff_exists.mp hsome
        · cases offered
      rw [host.refer_of_new hfind hfn]
      refine filed_withSlots ht (s := ⟨some name, fn⟩) (fun other hother => ?_)
        fun other hother s' hs' hsource => ?_
      · cases hother
        exact hfn
      · cases hother
        have := List.findIdx?_eq_none_iff.mp hfind s' hs'
        simp [hsource] at this

/-- Each computed target gets a slot of its own. -/
theorem computed_filed {host : Host D} {t : Table D} (ht : host.Stocked t) (fn : TargetFn D) :
    host.Filed t { t with targets := t.targets ++ [⟨none, fn⟩] } [(.targets, t.targets.length)]
      fun T => (T.target t.targets.length).fn = fn where
  stocked :=
    { functions := fun k => by cases k <;> exact ht.functions _
      once := fun k => by cases k <;> exact ht.once _
      targets := fun s hs => by
        rcases List.mem_append.mp hs with hs | hs
        · exact ht.targets s hs
        · rw [List.mem_singleton.mp hs] }
  grows := ⟨fun k => by cases k <;> exact List.prefix_refl _, List.prefix_append _ _⟩
  range p hp := by
    obtain rfl := List.mem_singleton.mp hp
    simp [Table.sources]
  own p hp := by
    have hlength : t.targets.length = (t.sources .targets).length := by simp [Table.sources]
    rw [hlength]
    refine own_of_append none ?_ (fun shelf hshelf => ?_) hp
    · simp [Table.sources]
    · cases shelf with
      | functions k => cases k <;> rfl
      | targets => exact absurd rfl hshelf
  reads T hT := by
    let s : Slot (TargetFn D) := ⟨none, fn⟩
    have hs : (t.targets ++ [s])[t.targets.length]? = some s := List.getElem?_concat_length
    rw [hT.target_eq hs]

end Host
end Statechart
