/-
# Machine settings

The settings of a machine and their JSON form. A setting that is not given has its
default, a key that names none is passed over, and a key may not come twice; the
settings may also come as a list in their order. The frame interval is whole
seconds and nanoseconds, of which those beyond a second count as seconds.

Key definitions: `Settings`, `Settings.ofJson?`, `Settings.ofText?`, `Settings.toJson`.
Key theorems: `Span.ofJson?_toJson`, `Settings.ofJson?_toJson`.
-/
import Statechart.Json.Reader
import Statechart.Timeline
import Statechart.Transition

namespace Statechart

/-- What becomes of an unknown target and of a step that goes over its bounds: an
error in development, nothing in production. -/
inductive Mode where
  | development
  | production
deriving DecidableEq

namespace Mode

def word : Mode → String
  | .development => "development"
  | .production => "production"

def ofWord? (s : String) : Option Mode := [development, production].find? (·.word == s)

/-- A mode is its word, or an object that maps its word to null. -/
def ofJson? : Json → Option Mode
  | .str s => ofWord? s
  | .obj [(s, .null)] => ofWord? s
  | _ => none

theorem ofWord?_word (m : Mode) : ofWord? m.word = some m := by cases m <;> decide

end Mode

structure Settings where
  mode : Mode := .development
  /-- How many transitions, and how many events, one step may take. -/
  maxTransitions : Nat := 200
  frameInterval : Span := Timeline.defaultFrameInterval
  logCapacity : Nat := Transition.Log.defaultCapacity
deriving DecidableEq

/-- A natural number of at most `bits` bits. -/
def Json.nat? (bits : Nat) : Json → Option Nat
  | .int i => if 0 ≤ i && i.toNat < Nat.pow 2 bits then some i.toNat else none
  | _ => none

theorem Json.nat?_int {bits n : Nat} (h : n < Nat.pow 2 bits) :
    (Json.int n).nat? bits = some n := by
  have hn : (0 : Int) ≤ n := Int.natCast_nonneg n
  simp only [Json.nat?, hn, Int.toNat_natCast, h, decide_true, Bool.and_self, if_true]

namespace Span

/-- The span of whole seconds and nanoseconds, the latter carried into the former. -/
def ofParts? (seconds nanos : Json) : Option Span := do
  let seconds ← seconds.nat? 64
  let nanos ← nanos.nat? 32
  ofNanos? (second * seconds + nanos)

def ofJson? : Json → Option Span
  | .arr [seconds, nanos] => ofParts? seconds nanos
  | .obj [("secs", seconds), ("nanos", nanos)] => ofParts? seconds nanos
  | .obj [("nanos", nanos), ("secs", seconds)] => ofParts? seconds nanos
  | _ => none

def toJson (s : Span) : Json := .obj [("nanos", .int s.subsecond), ("secs", .int s.seconds)]

theorem ofJson?_toJson (s : Span) : ofJson? s.toJson = some s := by
  have hs := Json.nat?_int s.seconds_lt
  have hn := Json.nat?_int s.subsecond_lt
  have whole := ofNanos?_parts s
  simp only [toJson, ofJson?, ofParts?, hs, hn, Option.bind_eq_bind, Option.bind_some, whole]

end Span

namespace Settings

/-- The names of the settings, in the order of a list of settings. -/
def keys : List String := ["mode", "max_transitions", "frame_interval", "log_capacity"]

/-- Change the setting `key`; a key that names no setting changes nothing. -/
def set? (c : Settings) (key : String) (v : Json) : Option Settings :=
  match key with
  | "mode" => (Mode.ofJson? v).map fun mode => { c with mode }
  | "max_transitions" => (v.nat? 64).map fun maxTransitions => { c with maxTransitions }
  | "frame_interval" => (Span.ofJson? v).map fun frameInterval => { c with frameInterval }
  | "log_capacity" => (v.nat? 64).map fun logCapacity => { c with logCapacity }
  | _ => some c

/-- The settings a JSON value gives. -/
def ofJson? : Json → Option Settings
  | .obj fields =>
    let known := fields.filter fun f => keys.contains f.1
    if (known.map (·.1)).Nodup then known.foldlM (fun c f => c.set? f.1 f.2) {} else none
  | .arr items =>
    if items.length ≤ keys.length then
      (keys.zip items).foldlM (fun c f => c.set? f.1 f.2) {}
    else none
  | _ => none

/-- The settings a text gives. -/
def ofText? (text : String) : Option Settings :=
  (Json.readFields? keys.contains text).bind ofJson?

def toJson (c : Settings) : Json :=
  .obj [("frame_interval", c.frameInterval.toJson), ("log_capacity", .int c.logCapacity),
    ("max_transitions", .int c.maxTransitions), ("mode", .str c.mode.word)]

/-- Settings are read back from their JSON form, if their counts fit 64 bits. -/
theorem ofJson?_toJson {c : Settings} (hm : c.maxTransitions < Nat.pow 2 64)
    (hl : c.logCapacity < Nat.pow 2 64) : ofJson? c.toJson = some c := by
  have frame := Span.ofJson?_toJson c.frameInterval
  have mode : Mode.ofJson? (.str c.mode.word) = some c.mode := Mode.ofWord?_word c.mode
  simp [toJson, ofJson?, keys, set?, frame, mode, Json.nat?_int hm, Json.nat?_int hl]

end Settings
end Statechart
