/-
# The value a text spells

The grammar of JSON as a relation, beside the reader: `Json.Spells cs v rest` says that the
characters `cs` begin with a spelling of `v` and that `rest` comes behind it. The fields of an
object are those of its text, one for one and in order, repeated ones too, and a key is its
letters with the escapes decoded. Numbers are left to their reader, for no name is in them.

The reader gives only what the text spells (`Json.written_of_read?`). What it has read so far it
keeps in reverse, so each part of it is proved for whatever came before.

Key definitions: `Json.Letters`, `Json.Spells`, `Json.Written`.
Key theorems: `Json.Reader.letters_of_string`, `Json.Reader.sound`, `Json.written_of_read?`.
-/
import Statechart.Json.Reader

namespace Statechart
namespace Json

/-! ### The grammar -/

/-- Blanks, and what comes behind them. -/
inductive Gap : List Char → List Char → Prop
  | none {rest : List Char} : Gap rest rest
  | blank {c : Char} {cs rest : List Char} (blank : c ∈ [' ', '\t', '\n', '\r'])
    (more : Gap cs rest) : Gap (c :: cs) rest

/-- What a letter behind a backslash stands for. -/
def escapes : List (Char × Char) :=
  [('"', '"'), ('\\', '\\'), ('/', '/'), ('b', '\x08'), ('f', '\x0c'), ('n', '\n'), ('r', '\r'),
    ('t', '\t')]

/-- One character of a string: itself, or what an escape stands for. -/
inductive Letter : List Char → Char → List Char → Prop
  | plain {c : Char} {rest : List Char} (quote : c ≠ '"') (backslash : c ≠ '\\')
    (control : 0x20 ≤ c.toNat) : Letter (c :: rest) c rest
  | escape {e c : Char} {rest : List Char} (mem : (e, c) ∈ escapes) :
    Letter ('\\' :: e :: rest) c rest
  | unit {cs rest : List Char} {n : Nat} (digits : Reader.unit cs = some (n, rest))
    (single : n < 0xD800 ∨ 0xDFFF < n) : Letter ('\\' :: 'u' :: cs) (Char.ofNat n) rest
  | pair {cs ds rest : List Char} {high low : Nat}
    (first : Reader.unit cs = some (high, '\\' :: 'u' :: ds))
    (second : Reader.unit ds = some (low, rest))
    (isHigh : 0xD800 ≤ high ∧ high ≤ 0xDBFF) (isLow : 0xDC00 ≤ low ∧ low ≤ 0xDFFF) :
    Letter ('\\' :: 'u' :: cs) (Char.ofNat (0x10000 + (high - 0xD800) * 0x400 + (low - 0xDC00)))
      rest

/-- The characters of a string, up to its closing quote. -/
inductive Letters : List Char → List Char → List Char → Prop
  | close {rest : List Char} : Letters ('"' :: rest) [] rest
  | letter {cs ds s rest : List Char} {c : Char} (first : Letter cs c ds)
    (more : Letters ds s rest) : Letters cs (c :: s) rest

mutual

/-- A value, blanks before it, and what comes behind it. -/
inductive Spells : List Char → Json → List Char → Prop
  | gap {cs ds rest : List Char} {v : Json} (gap : Gap cs ds) (value : Spells ds v rest) :
    Spells cs v rest
  | null {rest : List Char} : Spells ('n' :: 'u' :: 'l' :: 'l' :: rest) .null rest
  | true {rest : List Char} : Spells ('t' :: 'r' :: 'u' :: 'e' :: rest) (.bool Bool.true) rest
  | false {rest : List Char} :
    Spells ('f' :: 'a' :: 'l' :: 's' :: 'e' :: rest) (.bool Bool.false) rest
  | number {cs rest : List Char} {v : Json} (read : Reader.number Bool.true cs = some (v, rest)) :
    Spells cs v rest
  | str {cs s rest : List Char} (letters : Letters cs s rest) :
    Spells ('"' :: cs) (.str (String.ofList s)) rest
  | noItems {cs rest : List Char} (close : Gap cs (']' :: rest)) : Spells ('[' :: cs) (.arr []) rest
  | arr {cs rest : List Char} {vs : List Json} (items : SpellsItems cs vs rest) :
    Spells ('[' :: cs) (.arr vs) rest
  | noFields {cs rest : List Char} (close : Gap cs ('\x7d' :: rest)) :
    Spells ('\x7b' :: cs) (.obj []) rest
  | obj {cs rest : List Char} {fs : List (String × Json)} (fields : SpellsFields cs fs rest) :
    Spells ('\x7b' :: cs) (.obj fs) rest

/-- The items of an array, up to its end. -/
inductive SpellsItems : List Char → List Json → List Char → Prop
  | last {cs ds rest : List Char} {v : Json} (item : Spells cs v ds)
    (close : Gap ds (']' :: rest)) : SpellsItems cs [v] rest
  | comma {cs ds es rest : List Char} {v : Json} {vs : List Json} (item : Spells cs v ds)
    (comma : Gap ds (',' :: es)) (more : SpellsItems es vs rest) : SpellsItems cs (v :: vs) rest

/-- A key and its value. -/
inductive SpellsField : List Char → String × Json → List Char → Prop
  | field {cs ds es fs key rest : List Char} {v : Json} (quote : Gap cs ('"' :: ds))
    (letters : Letters ds key es) (colon : Gap es (':' :: fs)) (value : Spells fs v rest) :
    SpellsField cs (String.ofList key, v) rest

/-- The fields of an object, up to its end. -/
inductive SpellsFields : List Char → List (String × Json) → List Char → Prop
  | last {cs ds rest : List Char} {f : String × Json} (field : SpellsField cs f ds)
    (close : Gap ds ('\x7d' :: rest)) : SpellsFields cs [f] rest
  | comma {cs ds es rest : List Char} {f : String × Json} {fs : List (String × Json)}
    (field : SpellsField cs f ds) (comma : Gap ds (',' :: es)) (more : SpellsFields es fs rest) :
    SpellsFields cs (f :: fs) rest

end

/-- The text is a spelling of the value, with nothing but blanks around it. -/
def Written (text : String) (v : Json) : Prop := ∃ rest, Spells text.toList v rest ∧ Gap rest []

/-! ### Blanks before a spelling -/

theorem Gap.trans {cs ds rest : List Char} (h : Gap cs ds) (h' : Gap ds rest) : Gap cs rest := by
  induction h with
  | none => exact h'
  | blank blank _ ih => exact .blank blank (ih h')

theorem SpellsItems.gap {cs ds rest : List Char} {vs : List Json} (gap : Gap cs ds)
    (h : SpellsItems ds vs rest) : SpellsItems cs vs rest := by
  cases h with
  | last item close => exact .last (.gap gap item) close
  | comma item comma more => exact .comma (.gap gap item) comma more

theorem SpellsField.gap {cs ds rest : List Char} {f : String × Json} (gap : Gap cs ds)
    (h : SpellsField ds f rest) : SpellsField cs f rest := by
  cases h with
  | field quote letters colon value => exact .field (gap.trans quote) letters colon value

theorem SpellsFields.gap {cs ds rest : List Char} {fs : List (String × Json)} (gap : Gap cs ds)
    (h : SpellsFields ds fs rest) : SpellsFields cs fs rest := by
  cases h with
  | last field close => exact .last (field.gap gap) close
  | comma field comma more => exact .comma (field.gap gap) comma more

namespace Reader

/-! ### Strings -/

theorem gap_skip (cs : List Char) : Gap cs (skip cs) := by
  induction cs with
  | nil => exact .none
  | cons c cs ih =>
    by_cases h : " \t\n\r".toList.contains c = true
    · rw [skip, List.dropWhile_cons_of_pos h]
      exact .blank (by simpa using h) ih
    · rw [skip, List.dropWhile_cons_of_neg h]
      exact .none

/-- What stands where nothing but blanks are skipped. -/
theorem gap_of_skip_eq {cs ds : List Char} (h : skip cs = ds) : Gap cs ds := h ▸ gap_skip cs

/-- A character behind a backslash and a `u`. -/
theorem letter_of_escapedChar {cs rest : List Char} {c : Char}
    (h : escapedChar true cs = some (c, rest)) : Letter ('\\' :: 'u' :: cs) c rest := by
  unfold escapedChar at h
  simp only [Option.bind_eq_bind, Option.bind_eq_some_iff] at h
  obtain ⟨⟨high, ds⟩, hunit, h⟩ := h
  by_cases hsingle : high < 0xD800 ∨ 0xDFFF < high
  · rw [if_pos (by simpa using hsingle)] at h
    cases h
    exact .unit hunit hsingle
  · rw [if_neg (by simpa using hsingle)] at h
    simp only [Bool.not_true, Bool.false_eq_true, if_false] at h
    split at h
    · cases h
    · rename_i hhigh
      split at h
      · simp only [Option.bind_eq_some_iff] at h
        obtain ⟨⟨low, es⟩, hlow, h⟩ := h
        split at h
        · rename_i hisLow
          injection h with h
          injection h with hc hrest
          rw [← hc, ← hrest]
          refine .pair hunit hlow ?_ (by simpa using hisLow)
          omega
        · cases h
      · cases h

theorem string_nil (exact : Bool) (fuel : Nat) (soFar : List Char) :
    string exact fuel soFar [] = none := by cases fuel <;> rfl

/-- The string reader, whatever it has read before, reads letters up to a quote. -/
theorem letters_of_string : ∀ {fuel : Nat} {soFar cs rest : List Char} {s : String},
    string true fuel soFar cs = some (s, rest) →
      ∃ t, Letters cs t rest ∧ s = String.ofList (soFar.reverse ++ t) := by
  intro fuel
  induction fuel with
  | zero =>
    intro soFar cs rest s h
    cases h
  | succ fuel ih =>
    intro soFar cs rest s h
    -- each letter read goes before those that the rest of the call reads
    have step : ∀ {ds : List Char} {c : Char}, Letter cs c ds →
        string true fuel (c :: soFar) ds = some (s, rest) →
          ∃ t, Letters cs t rest ∧ s = String.ofList (soFar.reverse ++ t) := by
      intro ds c hletter hrest
      obtain ⟨t, ht, hs⟩ := ih hrest
      refine ⟨c :: t, .letter hletter ht, ?_⟩
      rw [hs, List.reverse_cons, List.append_assoc]
      rfl
    rw [string.eq_def] at h
    simp only at h
    split at h
    · cases h
      exact ⟨[], .close, by rw [List.append_nil]⟩
    · split at h
      case h_9 =>
        split at h
        · exact step (letter_of_escapedChar ‹_›) h
        · cases h
      case h_10 => cases h
      all_goals exact step (.escape (by decide)) h
    · rename_i c ds hquote hbackslash
      split at h
      · cases h
      · rename_i hcontrol
        refine step (.plain hquote ?_ (Nat.le_of_not_lt hcontrol)) h
        rintro rfl
        cases ds with
        | nil => rw [string_nil] at h; cases h
        | cons c ds => exact hbackslash c ds rfl rfl
    · cases h

/-! ### Values -/

/-- With this fuel, what is read is spelled by what was taken for it. -/
structure Sound (fuel : Nat) : Prop where
  value {depth : Nat} {cs rest : List Char} {v : Json} :
    value true anyKey fuel depth cs = some (v, rest) → Spells cs v rest
  items {depth : Nat} {soFar vs : List Json} {cs rest : List Char} :
    items true fuel depth soFar cs = some (vs, rest) →
      ∃ ws, SpellsItems cs ws rest ∧ vs = soFar.reverse ++ ws
  fields {depth : Nat} {soFar fs : List (String × Json)} {cs rest : List Char} :
    fields true anyKey fuel depth soFar cs = some (fs, rest) →
      ∃ gs, SpellsFields cs gs rest ∧ fs = soFar.reverse ++ gs

namespace Sound

variable {fuel : Nat} (ih : Sound fuel)
include ih

theorem value_succ {depth : Nat} {cs rest : List Char} {v : Json}
    (h : Reader.value true anyKey (fuel + 1) depth cs = some (v, rest)) : Spells cs v rest := by
  refine .gap (gap_skip cs) ?_
  rw [Reader.value] at h
  generalize skip cs = ds at h
  split at h
  · cases h
    exact .null
  · cases h
    exact .true
  · cases h
    exact .false
  · -- a string
    obtain ⟨⟨s, rest'⟩, hs, heq⟩ := Option.map_eq_some_iff.mp h
    obtain ⟨t, ht, rfl⟩ := letters_of_string hs
    cases heq
    exact .str ht
  · -- an array
    split at h
    · cases h
    · split at h
      · cases h
        exact .noItems (gap_of_skip_eq ‹_›)
      · obtain ⟨⟨vs, rest'⟩, hvs, heq⟩ := Option.map_eq_some_iff.mp h
        obtain ⟨ws, hws, rfl⟩ := ih.items hvs
        cases heq
        exact .arr (hws.gap (gap_skip _))
  · -- an object
    split at h
    · cases h
    · split at h
      · cases h
        exact .noFields (gap_of_skip_eq ‹_›)
      · obtain ⟨⟨fs, rest'⟩, hfs, heq⟩ := Option.map_eq_some_iff.mp h
        obtain ⟨gs, hgs, rfl⟩ := ih.fields hfs
        cases heq
        exact .obj (hgs.gap (gap_skip _))
  · exact .number h

theorem items_succ {depth : Nat} {soFar vs : List Json} {cs rest : List Char}
    (h : Reader.items true (fuel + 1) depth soFar cs = some (vs, rest)) :
    ∃ ws, SpellsItems cs ws rest ∧ vs = soFar.reverse ++ ws := by
  rw [Reader.items] at h
  cases hvalue : Reader.value true anyKey fuel depth cs with
  | none => simp [hvalue] at h
  | some read =>
    obtain ⟨v, ds⟩ := read
    have hv := ih.value hvalue
    simp only [hvalue] at h
    split at h
    · obtain ⟨ws, hws, rfl⟩ := ih.items h
      exact ⟨v :: ws, .comma hv (gap_of_skip_eq ‹_›) hws, by simp⟩
    · cases h
      exact ⟨[v], .last hv (gap_of_skip_eq ‹_›), List.reverse_cons⟩
    · cases h

theorem fields_succ {depth : Nat} {soFar fs : List (String × Json)} {cs rest : List Char}
    (h : Reader.fields true anyKey (fuel + 1) depth soFar cs = some (fs, rest)) :
    ∃ gs, SpellsFields cs gs rest ∧ fs = soFar.reverse ++ gs := by
  rw [Reader.fields] at h
  split at h
  · rename_i ds hquote
    cases hkey : string true fuel [] ds with
    | none => simp [hkey] at h
    | some read =>
      obtain ⟨key, es⟩ := read
      obtain ⟨t, ht, rfl⟩ := letters_of_string hkey
      simp only [hkey] at h
      split at h
      · rename_i gs hcolon
        cases hvalue : Reader.value true anyKey fuel depth gs with
        | none => simp [anyKey, hvalue] at h
        | some read =>
          obtain ⟨v, hs⟩ := read
          have hfield := SpellsField.field (gap_of_skip_eq hquote) ht (gap_of_skip_eq hcolon)
            (ih.value hvalue)
          simp only [anyKey, Bool.and_true, hvalue] at h
          split at h
          · obtain ⟨gs, hgs, rfl⟩ := ih.fields h
            exact ⟨_, .comma hfield (gap_of_skip_eq ‹_›) hgs, by simp⟩
          · cases h
            exact ⟨_, .last hfield (gap_of_skip_eq ‹_›), List.reverse_cons⟩
          · cases h
      · cases h
  · cases h

end Sound

theorem sound (fuel : Nat) : Sound fuel := by
  induction fuel with
  | zero =>
    refine ⟨fun h => ?_, fun h => ?_, fun h => ?_⟩
    · rw [Reader.value] at h
      cases h
    · rw [Reader.items] at h
      cases h
    · rw [Reader.fields] at h
      cases h
  | succ fuel ih => exact ⟨ih.value_succ, ih.items_succ, ih.fields_succ⟩

end Reader

/-- What is read of a text is what it spells. -/
theorem written_of_read? {text : String} {v : Json} (h : read? text = some v) : Written text v := by
  rw [read?, readFields?] at h
  split at h
  · rename_i w rest hvalue
    split at h
    · rename_i hrest
      cases h
      exact ⟨rest, (Reader.sound _).value hvalue,
        Reader.gap_of_skip_eq (List.isEmpty_iff.mp hrest)⟩
    · cases h
  · cases h

end Json
end Statechart
