/-
# Reading JSON text

Strict JSON: one value, nothing but blanks around it, no lone surrogate, no
control character in a string, no number beyond the doubles, and at most 127
arrays and objects inside one another. Objects keep their fields as written,
repeated ones too. A value that nobody will look at has only to be well formed: it
may be of any depth and size and have lone surrogates.

Each function reads from the front of a list and gives what it read and the rest.
Every call that goes round again has consumed a character, so the length of the text
bounds the calls, and `Json.readFields?` gives that bound.

Key definitions: `Json.read?`, `Json.readFields?`.
-/
import Statechart.Json.Decimal

namespace Statechart
namespace Json
namespace Reader

def skip : List Char → List Char := List.dropWhile (" \t\n\r".toList.contains ·)

/-- The value of a decimal digit. -/
def digit? (c : Char) : Option Nat := if c.isDigit then some (c.toNat - '0'.toNat) else none

def hexDigit? (c : Char) : Option Nat :=
  if c.isDigit then some (c.toNat - '0'.toNat)
  else if 'a' ≤ c && c ≤ 'f' then some (c.toNat - 'a'.toNat + 10)
  else if 'A' ≤ c && c ≤ 'F' then some (c.toNat - 'A'.toNat + 10)
  else none

/-- Four hexadecimal digits. -/
def unit : List Char → Option (Nat × List Char)
  | a :: b :: c :: d :: rest => do
    let a ← hexDigit? a
    let b ← hexDigit? b
    let c ← hexDigit? c
    let d ← hexDigit? d
    return (((a * 16 + b) * 16 + c) * 16 + d, rest)
  | _ => none

/-- A character given as one unit, or as a high and a low surrogate. Unless the text
has to be exact, a surrogate stands alone. -/
def escapedChar (exact : Bool) (cs : List Char) : Option (Char × List Char) := do
  let (high, rest) ← unit cs
  if high < 0xD800 || 0xDFFF < high then return (Char.ofNat high, rest)
  else if !exact then return ('\ufffd', rest)
  else if 0xDBFF < high then none
  else
    match rest with
    | '\\' :: 'u' :: rest =>
      let (low, rest) ← unit rest
      if 0xDC00 ≤ low && low ≤ 0xDFFF then
        return (Char.ofNat (0x10000 + (high - 0xD800) * 0x400 + (low - 0xDC00)), rest)
      else none
    | _ => none

/-- The rest of a string, its opening quote read; `soFar` is in reverse. -/
def string (exact : Bool) : Nat → List Char → List Char → Option (String × List Char)
  | 0, _, _ => none
  | fuel + 1, soFar, cs =>
    match cs with
    | '"' :: rest => some (String.ofList soFar.reverse, rest)
    | '\\' :: c :: rest =>
      match c with
      | '"' => string exact fuel ('"' :: soFar) rest
      | '\\' => string exact fuel ('\\' :: soFar) rest
      | '/' => string exact fuel ('/' :: soFar) rest
      | 'b' => string exact fuel ('\x08' :: soFar) rest
      | 'f' => string exact fuel ('\x0c' :: soFar) rest
      | 'n' => string exact fuel ('\n' :: soFar) rest
      | 'r' => string exact fuel ('\r' :: soFar) rest
      | 't' => string exact fuel ('\t' :: soFar) rest
      | 'u' =>
        match escapedChar exact rest with
        | some (c, rest) => string exact fuel (c :: soFar) rest
        | none => none
      | _ => none
    | c :: rest => if c.toNat < 0x20 then none else string exact fuel (c :: soFar) rest
    | [] => none

/-- The digits at the front, as a number and their count. -/
def digits (cs : List Char) : Nat × Nat × List Char :=
  let ds := cs.takeWhile Char.isDigit
  (ds.foldl (fun n c => n * 10 + (digit? c).getD 0) 0, ds.length, cs.drop ds.length)

/-- The integer part: a zero alone, or digits that do not begin with one. -/
def integerPart : List Char → Option (Nat × List Char)
  | '0' :: rest => if (rest.head?.map Char.isDigit).getD false then none else some (0, rest)
  | cs =>
    match digits cs with
    | (_, 0, _) => none
    | (n, _, rest) => some (n, rest)

/-- The fraction, as its digits and their count; none without a point. -/
def fraction : List Char → Option (Option (Nat × Nat) × List Char)
  | '.' :: rest =>
    match digits rest with
    | (_, 0, _) => none
    | (n, places, rest) => some (some (n, places), rest)
  | cs => some (none, cs)

/-- The exponent; none without its letter. -/
def exponent : List Char → Option (Option Int × List Char)
  | c :: rest =>
    if c == 'e' || c == 'E' then
      let (negative, rest) := match rest with
        | '-' :: rest => (true, rest)
        | '+' :: rest => (false, rest)
        | rest => (false, rest)
      match digits rest with
      | (_, 0, _) => none
      | (n, _, rest) => some (some (if negative then -n else n), rest)
    else some (none, c :: rest)
  | [] => some (none, [])

def number (exact : Bool) (cs : List Char) : Option (Json × List Char) := do
  let (negative, cs) := match cs with
    | '-' :: rest => (true, rest)
    | cs => (false, cs)
  let (whole, cs) ← integerPart cs
  let (frac, cs) ← fraction cs
  let (exp, cs) ← exponent cs
  let (fracDigits, places) := frac.getD (0, 0)
  let literal : Decimal := {
    negative
    digits := whole * Nat.pow 10 places + fracDigits
    places
    exponent := exp.getD 0
    whole := frac.isNone && exp.isNone }
  match literal.value? with
  | some v => return (v, cs)
  | none => if exact then none else return (.null, cs)

/-- Every key. -/
def anyKey : String → Bool := fun _ => true

mutual

/-- One value; `depth` is how many more arrays and objects may open. If it is an
object, its fields have to be exact only under the keys that `known` holds of. -/
def value (exact : Bool) (known : String → Bool) : Nat → Nat → List Char → Option (Json × List Char)
  | 0, _, _ => none
  | fuel + 1, depth, cs =>
    match skip cs with
    | 'n' :: 'u' :: 'l' :: 'l' :: rest => some (.null, rest)
    | 't' :: 'r' :: 'u' :: 'e' :: rest => some (.bool true, rest)
    | 'f' :: 'a' :: 'l' :: 's' :: 'e' :: rest => some (.bool false, rest)
    | '"' :: rest => (string exact fuel [] rest).map fun (s, rest) => (.str s, rest)
    | '[' :: rest =>
      if exact && depth = 0 then none
      else
        match skip rest with
        | ']' :: rest => some (.arr [], rest)
        | rest => (items exact fuel (depth - 1) [] rest).map fun (vs, rest) => (.arr vs, rest)
    | '\x7b' :: rest =>
      if exact && depth = 0 then none
      else
        match skip rest with
        | '\x7d' :: rest => some (.obj [], rest)
        | rest =>
          (fields exact known fuel (depth - 1) [] rest).map fun (fs, rest) => (.obj fs, rest)
    | cs => number exact cs

/-- The items of an array up to its end; `soFar` is in reverse. -/
def items (exact : Bool) : Nat → Nat → List Json → List Char → Option (List Json × List Char)
  | 0, _, _, _ => none
  | fuel + 1, depth, soFar, cs =>
    match value exact anyKey fuel depth cs with
    | none => none
    | some (v, rest) =>
      match skip rest with
      | ',' :: rest => items exact fuel depth (v :: soFar) rest
      | ']' :: rest => some ((v :: soFar).reverse, rest)
      | _ => none

/-- The fields of an object up to its end; `soFar` is in reverse. -/
def fields (exact : Bool) (known : String → Bool) :
    Nat → Nat → List (String × Json) → List Char → Option (List (String × Json) × List Char)
  | 0, _, _, _ => none
  | fuel + 1, depth, soFar, cs =>
    match skip cs with
    | '"' :: rest =>
      match string exact fuel [] rest with
      | none => none
      | some (key, rest) =>
        match skip rest with
        | ':' :: rest =>
          match value (exact && known key) anyKey fuel depth rest with
          | none => none
          | some (v, rest) =>
            match skip rest with
            | ',' :: rest => fields exact known fuel depth ((key, v) :: soFar) rest
            | '\x7d' :: rest => some (((key, v) :: soFar).reverse, rest)
            | _ => none
        | _ => none
    | _ => none

end

end Reader

/-- How many arrays and objects may be inside one another. -/
def maxDepth : Nat := 127

/-- The value a text is written for. If it is an object, only the fields under known
keys will be looked at. -/
def readFields? (known : String → Bool) (text : String) : Option Json :=
  let cs := text.toList
  match Reader.value true known (2 * cs.length + 2) maxDepth cs with
  | some (v, rest) => if (Reader.skip rest).isEmpty then some v else none
  | none => none

/-- The value a text is written for. -/
def read? (text : String) : Option Json := readFields? Reader.anyKey text

end Json
end Statechart
