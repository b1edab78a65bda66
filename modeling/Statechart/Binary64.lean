/-
# Binary floating-point numbers, exactly

A finite double is `m * 2 ^ e` with `m < 2 ^ 53`. Here a double is taken apart
into `m` and `e`, and the double nearest to a quotient of naturals is found, a
tie going to the even neighbour. All of it is arithmetic on naturals, so no
rounding step is hidden.

Key definitions: `Binary64.roundDiv`, `Binary64.nearest?`, `Binary64.split`.
Key theorems: `Binary64.roundDiv_near`, `Binary64.roundDiv_exact`.
-/

namespace Statechart
namespace Binary64

/-- The quotient rounded to the nearest natural, a tie to the even one. -/
def roundDiv (num den : Nat) : Nat :=
  let q := num / den
  let r := num % den
  if 2 * r < den then q
  else if den < 2 * r then q + 1
  else q + q % 2

/-- The rounded quotient is at most half a unit away. -/
theorem roundDiv_near (num den : Nat) (h : 0 < den) :
    2 * num ≤ 2 * (roundDiv num den * den) + den ∧
      2 * (roundDiv num den * den) ≤ 2 * num + den := by
  have hdm : den * (num / den) + num % den = num := Nat.div_add_mod num den
  have hr : num % den < den := Nat.mod_lt _ h
  rw [Nat.mul_comm] at hdm
  unfold roundDiv
  dsimp only
  split
  · omega
  · split
    · rw [Nat.add_mul]; omega
    · rcases Nat.mod_two_eq_zero_or_one (num / den) with h2 | h2 <;> rw [h2, Nat.add_mul] <;> omega

/-- A multiple is its own rounded quotient. -/
theorem roundDiv_exact (n den : Nat) (h : 0 < den) : roundDiv (n * den) den = n := by
  unfold roundDiv
  simp [Nat.mul_div_cancel n h, h]

/-- A double without its sign: a finite one is `mantissa * 2 ^ (scale - 1074)`. -/
inductive Magnitude where
  | finite (mantissa scale : Nat)
  | infinite
  | nan
deriving DecidableEq

/-- The sign (`true` for a set sign bit) and magnitude of a double. -/
def split (x : Float) : Bool × Magnitude :=
  let bits := x.toBits.toNat
  let low := bits % Nat.pow 2 52
  let biased := bits / Nat.pow 2 52 % Nat.pow 2 11
  let magnitude :=
    if biased = 2047 then if low = 0 then .infinite else .nan
    else if biased = 0 then .finite low 0
    else .finite (Nat.pow 2 52 + low) (biased - 1)
  (bits / Nat.pow 2 63 = 1, magnitude)

/-- The quotient in units of `2 ^ (scale - 1074)`, rounded. -/
def scaled (num den scale : Nat) : Nat :=
  if scale ≤ 1074 then roundDiv (num * Nat.pow 2 (1074 - scale)) den
  else roundDiv num (den * Nat.pow 2 (scale - 1074))

/-- The double nearest to `num / den`, a tie to the even mantissa; `none` where
that is beyond the largest finite double. A mantissa that rounds up to `2 ^ 53`
carries into the exponent by itself. -/
def nearest? (num den : Nat) : Option Float :=
  if num = 0 then some (Float.ofBits 0)
  else
    let low := num.log2 + 1074 - (den.log2 + 52) - 1
    let floor :=
      if low ≤ 1074 then num * Nat.pow 2 (1074 - low) / den
      else num / (den * Nat.pow 2 (low - 1074))
    let scale := if floor < Nat.pow 2 53 then low else low + 1
    let bits := scale * Nat.pow 2 52 + scaled num den scale
    if bits < 2047 * Nat.pow 2 52 then some (Float.ofBits (UInt64.ofNat bits)) else none

end Binary64
end Statechart
