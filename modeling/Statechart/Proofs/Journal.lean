/-
# Journals

A journal tells what a machine did, the latest first. Each entry is about the machine as it
was then, and the entries before tell what that was: the tree is the last one reached, the
work under way is what was put off (`Happening.Fits`). In a sound journal every entry fits
those before it (`Journal.Sound`): trees are reached one after another, work is put off
under the lease that its node then had, the exit chain of a node runs when the node is not
active, and work that was put off is done under a lease that is current.

Key definitions: `Journal.lastTree`, `Happening.Fits`, `Journal.Sound`, `Role.deferral`,
`Task.deferral`.
Key theorems: `Journal.Sound.later`, `Journal.Sound.holds`.
-/
import Statechart.Machine
import Statechart.Proofs.Generations

namespace Statechart

variable {D : Type}

/-- What kind of work a chain is run for, if that was put off. -/
def Role.deferral : Role → Option Deferral
  | enter => none
  | exit => none
  | resume => some .wait
  | repeating .. => some .repeater
  | settlement => some .operation

/-- What kind of work a task on the timeline is. -/
def Task.deferral : Task → Deferral
  | resume .. => .wait
  | repeating .. => .repeater

namespace Journal

/-- The last tree that was reached. -/
def lastTree : List (Happening D) → Option Tree
  | [] => none
  | .reached t :: _ => some t
  | _ :: es => lastTree es

/-- The lease is current at the end of the journal. -/
def Holds (l : Lease) (es : List (Happening D)) : Prop :=
  ∃ t, lastTree es = some t ∧ t.isCurrent l = true

end Journal

/-- The entry fits the journal before it. -/
def Happening.Fits (es : List (Happening D)) : Happening D → Prop
  | .reached t => ∀ u, Journal.lastTree es = some u → u.Later t
  | .deferred l _ => ∃ t, Journal.lastTree es = some t ∧ t.lease l.node = l
  | .ran l role _ => ∃ t, Journal.lastTree es = some t ∧ t.lease l.node = l ∧
      (role = .exit → t.activeAt l.node = false) ∧
      ∀ work, role.deferral = some work → t.isCurrent l = true ∧ .deferred l work ∈ es
  | _ => True

namespace Journal

/-- Every entry fits those before it. -/
def Sound : List (Happening D) → Prop
  | [] => True
  | e :: es => e.Fits es ∧ Sound es

theorem Sound.of_append {late early : List (Happening D)} (h : Sound (late ++ early)) :
    Sound early := by
  induction late with
  | nil => exact h
  | cons e late ih => exact ih h.2

theorem Sound.fits {late early : List (Happening D)} {e : Happening D}
    (h : Sound (late ++ e :: early)) : e.Fits early := h.of_append.1

theorem exists_lastTree_append (late : List (Happening D)) {early : List (Happening D)} {t : Tree}
    (ht : lastTree early = some t) : ∃ u, lastTree (late ++ early) = some u := by
  induction late with
  | nil => exact ⟨t, ht⟩
  | cons e late ih =>
    cases e with
    | reached u => exact ⟨u, rfl⟩
    | _ => exact ih

/-- A tree is later than those that were reached before it. -/
theorem Sound.later {late early : List (Happening D)} (h : Sound (late ++ early)) {t u : Tree}
    (ht : lastTree early = some t) (hu : lastTree (late ++ early) = some u) : t.Later u := by
  induction late generalizing u with
  | nil =>
    obtain rfl : t = u := Option.some.inj (ht.symm.trans hu)
    exact .rfl
  | cons e late ih =>
    cases e with
    | reached v =>
      obtain rfl : v = u := Option.some.inj hu
      obtain ⟨w, hw⟩ := exists_lastTree_append late ht
      exact (ih h.2 hw).trans (h.1 w hw)
    | _ => exact ih h.2 hu

/-- A lease that was taken, and is current at the end of the journal, was current at every
time between. -/
theorem Sound.holds {late mid early : List (Happening D)} (h : Sound (late ++ (mid ++ early)))
    {l : Lease} {t : Tree} (ht : lastTree early = some t) (hl : t.lease l.node = l)
    (hlate : Holds l (late ++ (mid ++ early))) : Holds l (mid ++ early) := by
  obtain ⟨v, hv, hcurrent⟩ := hlate
  obtain ⟨u, hu⟩ := exists_lastTree_append mid ht
  have hgeneration : l.generation ≤ (u.lease l.node).generation := by
    have hle := (h.of_append.later ht hu).generation_le l.node
    rwa [hl] at hle
  exact ⟨u, hu, (h.later hu hv).isCurrent hgeneration hcurrent⟩

end Journal
end Statechart
