/-
# Scripts

A small language for host functions, written as JSON. An expression that is no list
stands for itself; a list names an operation and its arguments. Expressions read
the data, the payload and the result before; statements change the data, one after
another. Arithmetic is on signed 64-bit integers and stops at their bounds; what is
no such integer counts as zero. A script may raise a text.

Key definitions: `Script.Expr`, `Script.Expr.ofJson`, `Script.Expr.eval`,
`Script.Stmt`, `Script.Stmt.ofJson`, `Script.run`.
-/
import Statechart.Json

namespace Statechart
namespace Script

/-- What an expression can read. -/
inductive Source where
  | data
  | payload
  | result
deriving DecidableEq

inductive Arith where
  | add
  | sub
  | mul
deriving DecidableEq

inductive Expr where
  | lit (v : Json)
  | read (source : Source) (keys : List Json)
  | arith (op : Arith) (a b : Expr)
  | eq (a b : Expr)
  | lt (a b : Expr)
  | not (a : Expr)
  | and (as : List Expr)
  | or (as : List Expr)
  | cond (c a b : Expr)
  | list (as : List Expr)
  | object (fields : List (String × Expr))
  | len (a : Expr)
  | cat (as : List Expr)
  | fail (a : Expr)
  /-- An operation that there is not. -/
  | unknown (head : String)

/-- The least and the greatest integer that arithmetic gives. -/
def least : Int := -9223372036854775808

def greatest : Int := 9223372036854775807

/-- The value as a signed 64-bit integer, zero for any other. -/
def toInt : Json → Int
  | .int i => if least ≤ i && i ≤ greatest then i else 0
  | _ => 0

/-- The integer, or the bound it is beyond. -/
def clamp (i : Int) : Json := .int (max least (min greatest i))

/-- The text of a value: a string is its own, a signed 64-bit integer is written in
decimal, and nothing else has one. -/
def text : Json → String
  | .str s => s
  | .int i => if least ≤ i && i ≤ greatest then toString i else ""
  | _ => ""

/-- How many items, fields or characters a value has. -/
def length : Json → Nat
  | .arr items => items.length
  | .obj fields => fields.length
  | .str s => s.length
  | _ => 0

/-- One step down: a field of an object or an item of an array, or null. -/
def step (v key : Json) : Json :=
  match key with
  | .str key => (v.field? key).getD .null
  | .int i => if 0 ≤ i then (v.item? i.toNat).getD .null else .null
  | _ => .null

def Arith.apply (op : Arith) (a b : Int) : Json :=
  match op with
  | .add => clamp (a + b)
  | .sub => clamp (a - b)
  | .mul => clamp (a * b)

namespace Expr

/-- An argument that is not given. -/
def absent : Expr := lit .null

mutual

/-- The expression a value is written for. -/
def ofJson : Json → Expr
  | .arr (.str "lit" :: args) => lit (args.head?.getD .null)
  | .arr (.str "data" :: keys) => read .data keys
  | .arr (.str "payload" :: keys) => read .payload keys
  | .arr (.str "result" :: keys) => read .result keys
  | .arr (.str "obj" :: args) => object (fieldsOfJson args)
  | .arr (.str head :: args) => ofHead head (argsOfJson args)
  | .arr _ => unknown ""
  | v => lit v

/-- The operation `head` of arguments. -/
def ofHead (head : String) (args : List Expr) : Expr :=
  let a := args[0]?.getD absent
  let b := args[1]?.getD absent
  match head with
  | "add" => arith .add a b
  | "sub" => arith .sub a b
  | "mul" => arith .mul a b
  | "eq" => eq a b
  | "lt" => lt a b
  | "not" => not a
  | "and" => and args
  | "or" => or args
  | "if" => cond a b (args[2]?.getD absent)
  | "list" => list args
  | "len" => len a
  | "cat" => cat args
  | "fail" => fail a
  | _ => unknown head

def argsOfJson : List Json → List Expr
  | [] => []
  | v :: vs => ofJson v :: argsOfJson vs

/-- The fields of an object expression; what is no pair is passed over. -/
def fieldsOfJson : List Json → List (String × Expr)
  | [] => []
  | .arr (.str key :: args) :: vs =>
    (key, (argsOfJson args).head?.getD absent) :: fieldsOfJson vs
  | _ :: vs => fieldsOfJson vs

end

end Expr

/-- What a script reads. -/
structure Scope where
  data : Json
  payload : Json := .null
  result : Json := .null

def Scope.get (s : Scope) : Source → Json
  | .data => s.data
  | .payload => s.payload
  | .result => s.result

namespace Expr

variable (scope : Scope)

mutual

/-- The value of an expression, or the text it raises. -/
def eval : Expr → Except String Json
  | lit v => .ok v
  | read source keys => .ok (keys.foldl step (scope.get source))
  | arith op a b =>
    match eval a, eval b with
    | .error e, _ => .error e
    | .ok _, .error e => .error e
    | .ok a, .ok b => .ok (op.apply (toInt a) (toInt b))
  | eq a b =>
    match eval a, eval b with
    | .error e, _ => .error e
    | .ok _, .error e => .error e
    | .ok a, .ok b => .ok (.bool (a.same b))
  | lt a b =>
    match eval a, eval b with
    | .error e, _ => .error e
    | .ok _, .error e => .error e
    | .ok a, .ok b => .ok (.bool (toInt a < toInt b))
  | not a => (eval a).map fun v => .bool !v.isTrue
  | and as => evalAnd as
  | or as => evalOr as
  | cond c a b =>
    match eval c with
    | .error e => .error e
    | .ok v => if v.isTrue then eval a else eval b
  | list as => (evalAll as).map .arr
  | object fields => (evalFields fields).map .ofFields
  | len a => (eval a).map fun v => .int (length v)
  | cat as => (evalAll as).map fun vs => .str (String.join (vs.map text))
  | fail a =>
    match eval a with
    | .error e => .error e
    | .ok v => .error (text v)
  | unknown head => .error ("unknown expression '" ++ head ++ "'")

/-- The values of expressions, up to the first that raises. -/
def evalAll : List Expr → Except String (List Json)
  | [] => .ok []
  | a :: as =>
    match eval a with
    | .error e => .error e
    | .ok v => (evalAll as).map (v :: ·)

def evalFields : List (String × Expr) → Except String (List (String × Json))
  | [] => .ok []
  | (key, a) :: rest =>
    match eval a with
    | .error e => .error e
    | .ok v => (evalFields rest).map ((key, v) :: ·)

/-- Up to the first that is not true. -/
def evalAnd : List Expr → Except String Json
  | [] => .ok (.bool true)
  | a :: as =>
    match eval a with
    | .error e => .error e
    | .ok v => if v.isTrue then evalAnd as else .ok (.bool false)

/-- Up to the first that is true. -/
def evalOr : List Expr → Except String Json
  | [] => .ok (.bool false)
  | a :: as =>
    match eval a with
    | .error e => .error e
    | .ok v => if v.isTrue then .ok (.bool true) else evalOr as

end

end Expr

inductive Stmt where
  | set (key : String) (a : Expr)
  | inc (key : String) (a : Expr)
  | push (key : String) (a : Expr)
  | replace (a : Expr)
  | when_ (c : Expr) (body : List Stmt)
  | fail (a : Expr)
  /-- A statement that there is not. -/
  | unknown (head : String)

namespace Stmt

mutual

/-- The statement a value is written for. -/
def ofJson : Json → Stmt
  | .arr (.str "when" :: c :: body) => when_ (.ofJson c) (listOfJson body)
  | .arr (.str head :: args) =>
    let key := (args[0]?.bind Json.str?).getD ""
    let first := Expr.ofJson (args[0]?.getD .null)
    let second := Expr.ofJson (args[1]?.getD .null)
    match head with
    | "set" => set key second
    | "inc" => inc key second
    | "push" => push key second
    | "replace" => replace first
    | "fail" => fail first
    | "when" => when_ .absent []
    | _ => unknown head
  | _ => unknown ""

def listOfJson : List Json → List Stmt
  | [] => []
  | v :: vs => ofJson v :: listOfJson vs

end

/-- The statements of an action. -/
def ofBody : Json → List Stmt
  | .arr items => listOfJson items
  | _ => []

end Stmt

/-- Change the field `key` of the data, an empty object in place of data that are no
object. -/
def update (data : Json) (key : String) (f : Option Json → Json) : Json :=
  data.setField key (f (data.field? key))

mutual

/-- Run one statement: the data after it, and the text it raised. -/
def runStmt (payload result data : Json) : Stmt → Json × Option String
  | .set key a =>
    match a.eval ⟨data, payload, result⟩ with
    | .error e => (data, some e)
    | .ok v => (update data key fun _ => v, none)
  | .inc key a =>
    match a.eval ⟨data, payload, result⟩ with
    | .error e => (data, some e)
    | .ok v => (update data key fun old => clamp (toInt (old.getD .null) + toInt v), none)
  | .push key a =>
    match a.eval ⟨data, payload, result⟩ with
    | .error e => (data, some e)
    | .ok v =>
      (update data key fun
        | some (.arr items) => .arr (items ++ [v])
        | _ => .arr [v], none)
  | .replace a =>
    match a.eval ⟨data, payload, result⟩ with
    | .error e => (data, some e)
    | .ok v => (v, none)
  | .when_ c body =>
    match c.eval ⟨data, payload, result⟩ with
    | .error e => (data, some e)
    | .ok v => if v.isTrue then run payload result data body else (data, none)
  | .fail a =>
    match a.eval ⟨data, payload, result⟩ with
    | .error e => (data, some e)
    | .ok v => (data, some (text v))
  | .unknown head => (data, some ("unknown statement '" ++ head ++ "'"))

/-- Run statements up to the first that raises. -/
def run (payload result data : Json) : List Stmt → Json × Option String
  | [] => (data, none)
  | s :: rest =>
    match runStmt payload result data s with
    | (data, some e) => (data, some e)
    | (data, none) => run payload result data rest

end

end Script
end Statechart
