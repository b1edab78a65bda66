/-
# Blank characters

The characters that Unicode lists as white space, and the removal of a class of
characters from both ends of a text.

Key definitions: `Text.isBlank`, `Text.strip`.
Key theorems: `Text.isBlank_of_isWhitespace`, `Text.head?_strip`, `Text.getLast?_strip`.
-/

namespace Statechart
namespace Text

/-- Unicode's `White_Space` property. -/
def isBlank (c : Char) : Bool :=
  let n := c.toNat
  (9 ≤ n && n ≤ 13) || n == 0x20 || n == 0x85 || n == 0xA0 || n == 0x1680 ||
    (0x2000 ≤ n && n ≤ 0x200A) || n == 0x2028 || n == 0x2029 || n == 0x202F || n == 0x205F ||
    n == 0x3000

theorem isBlank_of_isWhitespace {c : Char} (h : c.isWhitespace = true) : isBlank c = true := by
  simp only [Char.isWhitespace, Bool.or_eq_true, decide_eq_true_eq] at h
  rcases h with ((rfl | rfl) | rfl) | rfl <;> decide

/-- A text without the characters of a class at its two ends. -/
def strip (drop : Char → Bool) (s : List Char) : List Char :=
  ((s.dropWhile drop).reverse.dropWhile drop).reverse

theorem drop_head?_dropWhile {drop : Char → Bool} {s : List Char} {c : Char}
    (h : (s.dropWhile drop).head? = some c) : drop c = false := by
  have key := List.head?_dropWhile_not drop s
  rw [h] at key
  exact key

/-- A stripped text does not end with a character of the class. -/
theorem getLast?_strip {drop : Char → Bool} {s : List Char} {c : Char}
    (h : (strip drop s).getLast? = some c) : drop c = false := by
  rw [strip, List.getLast?_reverse] at h
  exact drop_head?_dropWhile h

/-- A stripped text does not begin with a character of the class. -/
theorem head?_strip {drop : Char → Bool} {s : List Char} {c : Char}
    (h : (strip drop s).head? = some c) : drop c = false := by
  have front : strip drop s <+: s.dropWhile drop := by
    rw [← List.reverse_suffix, strip, List.reverse_reverse]
    exact List.dropWhile_suffix drop
  obtain ⟨rest, hrest⟩ := front
  refine drop_head?_dropWhile (s := s) ?_
  rw [← hrest, List.head?_append, h]
  rfl

end Text
end Statechart
