/-
# State paths and the queries that select them

A state's path is its machine's id and the names down to it, joined by dots. A
query selects the states whose path ends with it at a dot; blanks and dots around
a query do not count. A transition target is a query that may end in `.previous`
or `.restore`, which ask for what the target remembers.

Key definitions: `Path.join`, `Path.normalize`, `Path.selects`, `Recall`,
`Target.parse`.
Key theorems: `Path.selects_of_normalized_eq_nil`, `Recall.ofWord?_word`.
-/
import Statechart.Text.Blank

namespace Statechart
namespace Path

/-- The path of the child `name` of a state. -/
def join (parent name : String) : String := parent ++ "." ++ name

/-- The characters of a query without the blanks and then the dots around it. -/
def normalized (query : List Char) : List Char :=
  Text.strip (· == '.') (Text.strip Text.isBlank query)

/-- A query without the blanks and then the dots around it. -/
def normalize (query : String) : String := String.ofList (normalized query.toList)

/-- A text ends with the query, and the query begins it or follows a dot. -/
def endsAtDot (query path : List Char) : Bool :=
  match query.isSuffixOf? path with
  | some [] => true
  | some front => front.getLast? == some '.'
  | none => false

/-- The query selects the state at `path`. A query with nothing in it selects none. -/
def selects (query path : String) : Bool :=
  let query := normalized query.toList
  !query.isEmpty && endsAtDot query path.toList

/-- A query that is blanks and dots alone selects nothing. -/
theorem selects_of_normalized_eq_nil {query : String} (h : normalized query.toList = [])
    (path : String) : selects query path = false := by
  simp [selects, h]

end Path

/-- What an entry to a state recalls: nothing, the last child, or the last
configuration below it. -/
inductive Recall where
  | fresh
  | previous
  | restore
deriving DecidableEq

namespace Recall

def word : Recall → String
  | .fresh => "fresh"
  | .previous => "previous"
  | .restore => "restore"

def all : List Recall := [.fresh, .previous, .restore]

/-- The recall a word stands for. -/
def ofWord? (s : String) : Option Recall := all.find? (·.word == s)

theorem ofWord?_word (r : Recall) : ofWord? r.word = some r := by cases r <;> decide

end Recall

/-- A transition target: the query for the state and what to recall there. -/
structure Target where
  query : String
  recalls : Recall
deriving DecidableEq

namespace Target

/-- Read a target: the ending `.previous` or `.restore`, if there, is the recall. -/
def parse (raw : String) : Target :=
  let cs := Path.normalized raw.toList
  match ".previous".toList.isSuffixOf? cs, ".restore".toList.isSuffixOf? cs with
  | some front, _ => ⟨String.ofList front, .previous⟩
  | none, some front => ⟨String.ofList front, .restore⟩
  | none, none => ⟨String.ofList cs, .fresh⟩

end Target
end Statechart
