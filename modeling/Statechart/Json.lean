/-
# JSON values

The dynamic values of the library: what events carry, what result functions
give, and what a design document is written in. A value read from a document
keeps the fields of an object as they were written; `Json.canonical` puts them in
order, the last of repeated ones winning. An integer is not the float of the same
size.

Key definitions: `Json`, `Json.same`, `Json.canonical`, `Json.field?`, `Json.setField`.
-/
import Statechart.Registry

namespace Statechart

inductive Json where
  | null
  | bool (b : Bool)
  | int (i : Int)
  | float (x : Float)
  | str (s : String)
  | arr (items : List Json)
  | obj (fields : List (String × Json))
deriving Inhabited

namespace Json

mutual

/-- Equality of values: floats compare as numbers, all else by what it is. -/
def same : Json → Json → Bool
  | null, null => true
  | bool a, bool b => a == b
  | int a, int b => a == b
  | float a, float b => a == b
  | str a, str b => a == b
  | arr as, arr bs => sameItems as bs
  | obj as, obj bs => sameFields as bs
  | _, _ => false

def sameItems : List Json → List Json → Bool
  | [], [] => true
  | a :: as, b :: bs => same a b && sameItems as bs
  | _, _ => false

def sameFields : List (String × Json) → List (String × Json) → Bool
  | [], [] => true
  | (k, a) :: as, (l, b) :: bs => k == l && same a b && sameFields as bs
  | _, _ => false

end

mutual

/-- The value with the fields of every object in order, each key once. -/
def canonical : Json → Json
  | arr items => arr (canonicalItems items)
  | obj fields => obj (Registry.ofList (canonicalFields fields))
  | v => v

def canonicalItems : List Json → List Json
  | [] => []
  | v :: vs => canonical v :: canonicalItems vs

def canonicalFields : List (String × Json) → List (String × Json)
  | [] => []
  | (k, v) :: fs => (k, canonical v) :: canonicalFields fs

end

/-- The object with these fields, the last of repeated ones winning. -/
def ofFields (fields : List (String × Json)) : Json := obj (Registry.ofList fields)

/-- The field `key` of an object. -/
def field? (key : String) : Json → Option Json
  | obj fields => Registry.find? key fields
  | _ => none

/-- The item at `index` of an array. -/
def item? (index : Nat) : Json → Option Json
  | arr items => items[index]?
  | _ => none

/-- Set a field; what is no object becomes one. -/
def setField (v : Json) (key : String) (value : Json) : Json :=
  match v with
  | obj fields => obj (Registry.insert key value fields)
  | _ => obj [(key, value)]

/-- The text of a string. -/
def str? : Json → Option String
  | str s => some s
  | _ => none

/-- The items of an array. -/
def items? : Json → Option (List Json)
  | arr items => some items
  | _ => none

/-- The fields of an object. -/
def fields? : Json → Option (List (String × Json))
  | obj fields => some fields
  | _ => none

/-- Only `true` is true. -/
def isTrue : Json → Bool
  | bool b => b
  | _ => false

end Json
end Statechart
