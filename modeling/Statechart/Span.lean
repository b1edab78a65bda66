/-
# Spans of time

A span counts nanoseconds, from nothing to one nanosecond short of `2 ^ 64`
seconds. Sums stop at the longest span (`Span.add`) or fail past it
(`Span.add?`), and seconds given as a double become the nearest span
(`Span.ofSeconds`): nothing for what is not a positive number, the longest span
for what is too long.

Key definitions: `Span`, `Span.add`, `Span.add?`, `Span.ofSeconds`, `Span.toSeconds`.
Key theorems: `Span.nanos_add`, `Span.add?_eq_some_iff`, `Span.le_antisymm`.
-/
import Statechart.Binary64

namespace Statechart

/-- A span of time, in nanoseconds. -/
structure Span where
  nanos : Nat
  nanos_lt : nanos < Nat.pow 2 64 * 1000000000
deriving DecidableEq

namespace Span

/-- Nanoseconds in a second. -/
def second : Nat := 1000000000

/-- The first count of nanoseconds that is no span. -/
def limit : Nat := Nat.pow 2 64 * second

theorem nanos_lt_limit (s : Span) : s.nanos < limit := s.nanos_lt

@[ext] theorem ext_nanos {a b : Span} (h : a.nanos = b.nanos) : a = b := by
  cases a; cases b; cases h; rfl

def zero : Span := ⟨0, by decide⟩

/-- The longest span. -/
def max : Span := ⟨limit - 1, by decide⟩

instance : Inhabited Span := ⟨zero⟩

instance : LE Span := ⟨fun a b => a.nanos ≤ b.nanos⟩

instance : LT Span := ⟨fun a b => a.nanos < b.nanos⟩

instance (a b : Span) : Decidable (a ≤ b) := inferInstanceAs (Decidable (a.nanos ≤ b.nanos))

instance (a b : Span) : Decidable (a < b) := inferInstanceAs (Decidable (a.nanos < b.nanos))

theorem le_def {a b : Span} : a ≤ b ↔ a.nanos ≤ b.nanos := Iff.rfl

theorem lt_def {a b : Span} : a < b ↔ a.nanos < b.nanos := Iff.rfl

theorem le_refl (a : Span) : a ≤ a := Nat.le_refl _

theorem le_trans {a b c : Span} (h : a ≤ b) (k : b ≤ c) : a ≤ c := Nat.le_trans h k

theorem le_antisymm {a b : Span} (h : a ≤ b) (k : b ≤ a) : a = b :=
  ext_nanos (Nat.le_antisymm h k)

theorem not_lt {a b : Span} : ¬ a < b ↔ b ≤ a := Nat.not_lt

theorem not_le {a b : Span} : ¬ a ≤ b ↔ b < a := Nat.not_le

theorem le_max (a : Span) : a ≤ max := Nat.le_sub_one_of_lt a.nanos_lt_limit

/-- The span of `n` nanoseconds, if there is one. -/
def ofNanos? (n : Nat) : Option Span :=
  if h : n < limit then some ⟨n, h⟩ else none

/-- The span of `n` nanoseconds, or the longest one. -/
def ofNanos (n : Nat) : Span := (ofNanos? n).getD max

/-- Whole seconds. -/
def seconds (s : Span) : Nat := s.nanos / second

/-- Nanoseconds beyond the whole seconds. -/
def subsecond (s : Span) : Nat := s.nanos % second

theorem seconds_lt (s : Span) : s.seconds < Nat.pow 2 64 :=
  Nat.div_lt_of_lt_mul (Nat.mul_comm _ _ ▸ s.nanos_lt_limit)

theorem subsecond_lt (s : Span) : s.subsecond < Nat.pow 2 32 :=
  Nat.lt_trans (Nat.mod_lt _ (by decide)) (by decide : second < Nat.pow 2 32)

/-- A span is its whole seconds and the nanoseconds beyond them. -/
theorem ofNanos?_parts (s : Span) : ofNanos? (second * s.seconds + s.subsecond) = some s := by
  have whole : second * s.seconds + s.subsecond = s.nanos := Nat.div_add_mod _ _
  rw [whole, ofNanos?, dif_pos s.nanos_lt_limit]

/-- The sum, or the longest span. -/
def add (a b : Span) : Span := ofNanos (a.nanos + b.nanos)

/-- The sum, if it is a span. -/
def add? (a b : Span) : Option Span := ofNanos? (a.nanos + b.nanos)

/-- The difference, or nothing. -/
def sub (a b : Span) : Span := ⟨a.nanos - b.nanos, Nat.lt_of_le_of_lt (Nat.sub_le _ _) a.nanos_lt⟩

@[simp] theorem nanos_zero : zero.nanos = 0 := rfl

@[simp] theorem nanos_sub (a b : Span) : (a.sub b).nanos = a.nanos - b.nanos := rfl

theorem nanos_ofNanos (n : Nat) : (ofNanos n).nanos = min n (limit - 1) := by
  unfold ofNanos ofNanos?
  by_cases h : n < limit
  · simp only [h, dite_true, Option.getD_some]; omega
  · simp only [h, dite_false, Option.getD_none, max]; omega

@[simp] theorem nanos_add (a b : Span) : (a.add b).nanos = min (a.nanos + b.nanos) (limit - 1) :=
  nanos_ofNanos _

/-- The checked sum is the sum, exactly where that is a span. -/
theorem add?_eq_some_iff {a b c : Span} : a.add? b = some c ↔ a.nanos + b.nanos = c.nanos := by
  unfold add? ofNanos?
  have hc := c.nanos_lt_limit
  by_cases h : a.nanos + b.nanos < limit
  · simp only [h, dite_true, Option.some.injEq]
    exact ⟨fun e => e ▸ rfl, fun e => ext_nanos e⟩
  · simp only [h, dite_false, reduceCtorEq, false_iff]; omega

theorem le_add (a b : Span) : a ≤ a.add b := by
  have := a.nanos_lt_limit
  rw [le_def, nanos_add]; omega

/-- The span nearest to a number of seconds: nothing for a number that is not
positive, the longest span for one that is too large. -/
def ofSeconds (x : Float) : Span :=
  match Binary64.split x with
  | (false, .finite m scale) =>
    if scale ≤ 1074 then ofNanos (Binary64.roundDiv (m * second) (Nat.pow 2 (1074 - scale)))
    else ofNanos (m * second * Nat.pow 2 (scale - 1074))
  | (false, .infinite) => max
  | _ => zero

/-- The span in seconds: the whole seconds and the fraction, each as a double,
added as doubles. -/
def toSeconds (s : Span) : Float :=
  (UInt64.ofNat s.seconds).toFloat + (UInt64.ofNat s.subsecond).toFloat / 1000000000.0

end Span
end Statechart
