/-
# The states of a document

The tree of a design that was read from a text has the states as they are written: a state of
the document is reached by the names that lead to it (`Json.StateAt`), and the tree has one node
for each, whose children are the names written in its `states`, in order
(`Design.states_as_written`).

A state is an object or a list of its fields. Reading keeps the names in it as they come,
repeated ones too, and refuses a state with a field that comes twice, so no name that is written
is passed over. That no name comes twice is found when the design is compiled, in the definition
that was read.

Key definitions: `Json.keys`, `Json.StateAt`, `Json.trails`, `Tree.Follows`, `Tree.AsWritten`.
Key theorems: `Dialect.of_state?`, `Tree.follows_of_mirrors`, `Tree.Follows.map_trail`,
`Design.states_as_written`.
-/
import Statechart.Design.Reader
import Statechart.Proofs.Spelling
import Statechart.Proofs.Validity

namespace Statechart

variable {D : Type}

/-! ### States in a document -/

namespace Json

/-- The fields of a state: those of an object, or the items of a list under the names that they
stand for. -/
def stateFields : Json → List (String × Json)
  | .obj fields => fields
  | .arr items => Dialect.stateKeys.zip items
  | _ => []

/-- What is written in the object under a key of a state. -/
def entries (key : String) (v : Json) : List (String × Json) :=
  match v.stateFields.lookup key with
  | some (.obj fields) => fields
  | _ => []

/-- The keys of the object under a key of a state. -/
def keys (key : String) (v : Json) : List String := (v.entries key).map (·.1)

/-- The state that is reached in another one by names, from each to one in its `states`. -/
inductive StateAt : Json → List String → Json → Prop
  | here (v : Json) : StateAt v [] v
  | inside {v w s : Json} {name : String} {names : List String} (mem : (name, w) ∈ v.entries "states")
    (h : StateAt w names s) : StateAt v (name :: names) s

theorem sizeOf_lt_of_mem {l : List (String × Json)} {name : String} {w : Json}
    (h : (name, w) ∈ l) : sizeOf w < sizeOf l := by
  have := List.sizeOf_lt_of_mem h
  simp only [Prod.mk.sizeOf_spec] at this
  omega

theorem sizeOf_entry {key name : String} {v w : Json} (h : (name, w) ∈ v.entries key) :
    sizeOf w < sizeOf v := by
  unfold entries at h
  split at h
  · rename_i fields hlookup
    have hfields := sizeOf_lt_of_mem h
    obtain ⟨before, after, heq, -⟩ := List.lookup_eq_some_iff.mp hlookup
    have hmem : (key, Json.obj fields) ∈ v.stateFields := heq ▸ List.mem_append_cons_self
    cases v with
    | obj all =>
      have := sizeOf_lt_of_mem (l := all) hmem
      simp only [obj.sizeOf_spec] at this ⊢
      omega
    | arr items =>
      have := List.sizeOf_lt_of_mem (List.of_mem_zip hmem).2
      simp only [obj.sizeOf_spec, arr.sizeOf_spec] at this ⊢
      omega
    | _ => cases hmem
  · cases h

/-- The names that lead to each state, in the order in which the states are written. -/
def trails (v : Json) : List (List String) :=
  [] :: (v.entries "states").attach.flatMap fun e => (trails e.1.2).map (e.1.1 :: ·)
termination_by sizeOf v
decreasing_by exact sizeOf_entry e.2

theorem trails_eq (v : Json) :
    v.trails = [] :: (v.entries "states").flatMap fun e => e.2.trails.map (e.1 :: ·) := by
  rw [trails, List.flatMap_subtype (g := fun e => e.2.trails.map (e.1 :: ·)) fun e he => rfl,
    List.unattach_attach]

end Json

/-! ### Reading a state -/

namespace Dialect

variable {dialect : Dialect D}

theorem distinct_cons {known : List String} {key : String} {v : Json}
    {rest : List (String × Json)} (h : distinct known ((key, v) :: rest) = true) :
    distinct known rest = true ∧ (key ∈ known → rest.lookup key = none) := by
  simp only [distinct, decide_eq_true_eq, List.map_cons] at h ⊢
  by_cases hkey : key ∈ known
  · rw [List.filter_cons_of_pos (by simpa using hkey), List.nodup_cons] at h
    refine ⟨h.2, fun _ => List.lookup_eq_none_iff.mpr fun p hp => ?_⟩
    rw [bne_iff_ne]
    rintro rfl
    exact h.1 (List.mem_filter.mpr ⟨List.mem_map_of_mem hp, by simpa using hkey⟩)
  · rw [List.filter_cons_of_neg (by simpa using hkey)] at h
    exact ⟨h, fun hmem => absurd hmem hkey⟩

/-- Only the field `on` sets the chains for events. -/
theorem on_of_body? {b b' : Definition.State.Body D} {key : String} {v : Json}
    (h : dialect.body? b key v = some b') :
    if key = "on" then dialect.entries? dialect.chain? v = some b'.on else b'.on = b.on := by
  unfold body? at h
  split at h
  case h_8 hon _ _ _ _ _ =>
    cases h
    rw [if_neg hon]
  all_goals
    obtain ⟨x, hx, rfl⟩ := Option.map_eq_some_iff.mp h
    simp [hx]

/-- The first field of a state is the states in it or says something of its body. -/
theorem stateFields?_cons_iff {key : String} {v : Json} {rest : List (String × Json)}
    {body : Definition.State.Body D} {states : List (String × Definition.State D)}
    {s : Definition.State D} : dialect.stateFields? ((key, v) :: rest) body states = some s ↔
      (key = "states" ∧ ∃ read, dialect.states? v = some read ∧
        dialect.stateFields? rest body read = some s) ∨
      (key ≠ "states" ∧ ∃ read, dialect.body? body key v = some read ∧
        dialect.stateFields? rest read states = some s) := by
  rw [stateFields?]
  by_cases hkey : key = "states"
  · cases hv : dialect.states? v <;> simp [hkey]
  · cases hv : dialect.body? body key v <;> simp [hkey]

theorem stateItems?_cons_iff {key : String} {keys : List String} {v : Json} {items : List Json}
    {body : Definition.State.Body D} {states : List (String × Definition.State D)}
    {s : Definition.State D} : dialect.stateItems? (key :: keys) (v :: items) body states = some s ↔
      (key = "states" ∧ ∃ read, dialect.states? v = some read ∧
        dialect.stateItems? keys items body read = some s) ∨
      (key ≠ "states" ∧ ∃ read, dialect.body? body key v = some read ∧
        dialect.stateItems? keys items read states = some s) := by
  rw [stateItems?]
  by_cases hkey : key = "states"
  · cases hv : dialect.states? v <;> simp [hkey]
  · cases hv : dialect.body? body key v <;> simp [hkey]

/-- What the fields of a state come to: the states and the chains for events are those of their
fields, or what they were if there is no such field. -/
theorem of_stateFields? {fields : List (String × Json)} : ∀ {body : Definition.State.Body D}
    {states : List (String × Definition.State D)} {s : Definition.State D},
    distinct stateKeys fields = true → dialect.stateFields? fields body states = some s →
      (fields.lookup "states").elim (s.states = states) (dialect.states? · = some s.states) ∧
      (fields.lookup "on").elim (s.body.on = body.on)
        (dialect.entries? dialect.chain? · = some s.body.on) := by
  induction fields with
  | nil =>
    intro body states s _ h
    rw [stateFields?] at h
    cases h
    exact ⟨rfl, rfl⟩
  | cons field rest ih =>
    obtain ⟨key, v⟩ := field
    intro body states s hdistinct h
    obtain ⟨hrest, hnew⟩ := distinct_cons hdistinct
    rcases stateFields?_cons_iff.mp h with ⟨rfl, read, hv, h⟩ | ⟨hstates, read, hv, h⟩
    · obtain ⟨hkeep, hon⟩ := ih hrest h
      rw [hnew (by decide)] at hkeep
      have hread : s.states = read := hkeep
      refine ⟨?_, ?_⟩
      · rw [List.lookup_cons_self, hread]
        exact hv
      · simpa [List.lookup_cons] using hon
    · obtain ⟨hs, hon⟩ := ih hrest h
      have hbody := on_of_body? hv
      refine ⟨?_, ?_⟩
      · rwa [List.lookup_cons, beq_false_of_ne (Ne.symm hstates)]
      · by_cases hkey : key = "on"
        · subst hkey
          rw [hnew (by decide)] at hon
          have hread : s.body.on = read.on := hon
          rw [if_pos rfl] at hbody
          rw [List.lookup_cons_self, hread]
          exact hbody
        · rw [if_neg hkey] at hbody
          rw [List.lookup_cons, beq_false_of_ne (Ne.symm hkey), ← hbody]
          exact hon

/-- A list of the fields of a state is read as the fields that its items stand for. -/
theorem stateFields?_of_stateItems? {items : List Json} : ∀ {keys : List String}
    {body : Definition.State.Body D} {states : List (String × Definition.State D)}
    {s : Definition.State D}, dialect.stateItems? keys items body states = some s →
      dialect.stateFields? (keys.zip items) body states = some s := by
  induction items with
  | nil =>
    intro keys body states s h
    rw [List.zip_nil_right, stateFields?]
    rwa [stateItems?] at h
  | cons v items ih =>
    intro keys body states s h
    cases keys with
    | nil =>
      rw [stateItems?] at h
      cases h
    | cons key keys =>
      rw [List.zip_cons_cons, stateFields?_cons_iff]
      rcases stateItems?_cons_iff.mp h with ⟨hkey, read, hv, h⟩ | ⟨hkey, read, hv, h⟩
      · exact Or.inl ⟨hkey, read, hv, ih h⟩
      · exact Or.inr ⟨hkey, read, hv, ih h⟩

/-- A state is read by its fields, however they are written, and no field that says something
comes twice. -/
theorem stateFields?_of_state? {v : Json} {s : Definition.State D}
    (h : dialect.state? v = some s) : distinct stateKeys v.stateFields = true ∧
      dialect.stateFields? v.stateFields {} [] = some s := by
  cases v with
  | obj fields =>
    rw [state?] at h
    split at h
    · exact ⟨‹_›, h⟩
    · cases h
  | arr items =>
    rw [state?] at h
    refine ⟨?_, stateFields?_of_stateItems? h⟩
    have hkeys : (stateKeys.zip items).map (·.1) <+: stateKeys := by
      rw [List.zip_eq_zip_take_min, List.map_fst_zip (by simp)]
      exact List.take_prefix _ _
    rw [distinct, decide_eq_true_eq]
    exact (hkeys.sublist.filter _).nodup (by decide)
  | _ => cases h

/-- The entries of an object are read under their keys, in order. -/
theorem keys_of_mapM {α : Type} {read : Json → Option α} {fields : List (String × Json)} :
    ∀ {entries : List (String × α)}, (fields.mapM fun e => (read e.2).map (e.1, ·)) = some entries →
      entries.map (·.1) = fields.map (·.1) := by
  induction fields with
  | nil =>
    intro entries h
    cases h
    rfl
  | cons field rest ih =>
    intro entries h
    simp only [List.mapM_cons, Option.bind_eq_bind, Option.bind_eq_some_iff,
      Option.map_eq_some_iff] at h
    obtain ⟨_, ⟨x, -, rfl⟩, entries, hrest, heq⟩ := h
    cases heq
    rw [List.map_cons, List.map_cons, ih hrest]

theorem keys_of_entries? (hpairs : dialect.pairs = false) {α : Type} {read : Json → Option α}
    {v : Json} {entries : List (String × α)} (h : dialect.entries? read v = some entries) :
    ∃ fields, v = .obj fields ∧ entries.map (·.1) = fields.map (·.1) := by
  rw [entries?, hpairs] at h
  simp only [Bool.false_eq_true, if_false, Option.bind_eq_bind, Option.bind_eq_some_iff] at h
  obtain ⟨fields, hv, hread⟩ := h
  cases v with
  | obj all =>
    cases hv
    exact ⟨_, rfl, keys_of_mapM hread⟩
  | _ => cases hv

theorem stateEntries?_of_states? (hpairs : dialect.pairs = false) {v : Json}
    {states : List (String × Definition.State D)} (h : dialect.states? v = some states) :
    ∃ fields, v = .obj fields ∧ dialect.stateEntries? fields = some states := by
  cases v with
  | obj fields =>
    rw [states?, hpairs] at h
    exact ⟨fields, rfl, h⟩
  | arr items =>
    rw [states?, hpairs] at h
    cases h
  | _ => cases h

/-- The states in an object are read under their names, in order. -/
theorem of_stateEntries? {fields : List (String × Json)} : ∀ {states : List (String × Definition.State D)},
    dialect.stateEntries? fields = some states → fields.length = states.length ∧
      ∀ e s, (e, s) ∈ fields.zip states → e.1 = s.1 ∧ dialect.state? e.2 = some s.2 := by
  induction fields with
  | nil =>
    intro states h
    rw [stateEntries?] at h
    cases h
    exact ⟨rfl, nofun⟩
  | cons field rest ih =>
    obtain ⟨name, v⟩ := field
    intro states h
    rw [stateEntries?] at h
    cases hv : dialect.state? v with
    | none => simp [hv] at h
    | some s =>
      simp only [hv] at h
      obtain ⟨states, hstates, rfl⟩ := Option.map_eq_some_iff.mp h
      obtain ⟨hlength, hread⟩ := ih hstates
      refine ⟨congrArg Nat.succ hlength, fun e s' hes => ?_⟩
      rcases List.mem_cons.mp hes with hes | hes
      · cases hes
        exact ⟨rfl, hv⟩
      · exact hread e s' hes

/-- What is read of a state: the chains for events and the states in it have the keys that are
written, in order, and each of these states is read from what is written for it. -/
theorem of_state? (hpairs : dialect.pairs = false) {v : Json} {s : Definition.State D}
    (h : dialect.state? v = some s) :
    s.body.on.map (·.1) = v.keys "on" ∧ (v.entries "states").length = s.states.length ∧
      ∀ e t, (e, t) ∈ (v.entries "states").zip s.states →
        e.1 = t.1 ∧ dialect.state? e.2 = some t.2 := by
  obtain ⟨hdistinct, hfields⟩ := stateFields?_of_state? h
  obtain ⟨hstates, hon⟩ := of_stateFields? hdistinct hfields
  refine ⟨?_, ?_⟩
  · rw [Json.keys, Json.entries]
    cases hlookup : v.stateFields.lookup "on" with
    | none =>
      rw [hlookup] at hon
      rw [hon]
      rfl
    | some w =>
      rw [hlookup] at hon
      obtain ⟨fields, rfl, hkeys⟩ := keys_of_entries? hpairs hon
      exact hkeys
  · rw [Json.entries]
    cases hlookup : v.stateFields.lookup "states" with
    | none =>
      rw [hlookup] at hstates
      rw [hstates]
      exact ⟨rfl, nofun⟩
    | some w =>
      rw [hlookup] at hstates
      obtain ⟨fields, rfl, hentries⟩ := stateEntries?_of_states? hpairs hstates
      exact of_stateEntries? hentries

end Dialect

/-! ### Trees of documents -/

namespace Host

theorem events_eq (host : Host D) : ∀ (on : List (String × Definition.Chain D)) (table : Table D),
    ((host.events on).run table).1.map (·.1) = on.map (·.1)
  | [], _ => rfl
  | (event, _) :: rest, _ => congrArg (event :: ·) (host.events_eq rest _)

/-- A node has the chains for the events of its state, in order. -/
theorem on_handlers (host : Host D) (b : Definition.State.Body D) (table : Table D) :
    ((host.handlers b).run table).1.on.map (·.1) = b.on.map (·.1) := host.events_eq b.on table

/-- No event comes twice in a state without problems. -/
theorem nodup_on_of_stateProblems (host : Host D) {path : String} {s : Definition.State D}
    (h : host.stateProblems path s = []) : (s.body.on.map (·.1)).Nodup := by
  refine List.nodup_iff_forall_not_duplicate.mpr fun event hagain => ?_
  have hp := (host.mem_stateProblems_cases path).mpr (Or.inl (.repeatedEvent hagain))
  rw [h] at hp
  exact List.not_mem_nil hp

end Host

namespace Tree

/-- The tree has a node for each state that is reached in the document, in order, with the chains
that are written for events; no field of these states comes twice. -/
inductive Follows : Json → Tree → Prop
  | node {v : Json} {n : Node} {a : Activity} {cs : List Tree}
    (once : Dialect.distinct Dialect.stateKeys v.stateFields = true)
    (on : n.handlers.on.map (·.1) = v.keys "on")
    (length : (v.entries "states").length = cs.length)
    (names : ∀ e c, (e, c) ∈ (v.entries "states").zip cs → e.1 = c.node.name)
    (inside : ∀ e c, (e, c) ∈ (v.entries "states").zip cs → Follows e.2 c) : Follows v (.mk n a cs)

theorem follows_of_mirrors {host : Host D} {dialect : Dialect D} (hpairs : dialect.pairs = false)
    {path : String} {s : Definition.State D} {t : Tree} (h : Mirrors host path s t) :
    ∀ {v : Json}, dialect.state? v = some s → Follows v t := by
  induction h with
  | @node path body states n cs table place handlers length names inside ih =>
    intro v hv
    obtain ⟨hon, hlength, hread⟩ := Dialect.of_state? hpairs hv
    -- from what is written to the states that are read of it, and from these to the nodes
    have hstates : List.Forall₂ (fun e s => e.1 = s.1 ∧ dialect.state? e.2 = some s.2)
        (v.entries "states") states := List.forall₂_iff_zip.mpr ⟨hlength, fun h => hread _ _ h⟩
    have hnodes : List.Forall₂ (fun s c => s.1 = c.node.name ∧
        ∀ {w}, dialect.state? w = some s.2 → Follows w c) states cs :=
      List.forall₂_iff_zip.mpr ⟨length, fun h => ⟨(names _ _ h).symm, ih _ _ h⟩⟩
    have hfollows : List.Forall₂ (fun e c => e.1 = c.node.name ∧ Follows e.2 c)
        (v.entries "states") cs :=
      forall₂_comp (fun _ _ _ hes hsc => ⟨hes.1.trans hsc.1, hsc.2 hes.2⟩) hstates hnodes
    obtain ⟨hlength, hfollows⟩ := List.forall₂_iff_zip.mp hfollows
    refine .node (Dialect.stateFields?_of_state? hv).1 ?_ hlength (fun e c hec => ?_) fun e c hec => ?_
    · rw [handlers, host.on_handlers]
      exact hon
    · exact (hfollows hec).1
    · exact (hfollows hec).2

namespace Follows

variable {v : Json} {t : Tree}

theorem length_entries (h : Follows v t) : (v.entries "states").length = t.children.length := by
  cases h
  assumption

/-- The children of a node have the names that are written for them, and follow what is. -/
theorem child (h : Follows v t) {e : String × Json} {c : Tree}
    (hec : (e, c) ∈ (v.entries "states").zip t.children) :
    e.1 = c.node.name ∧ Follows e.2 c := by
  cases h with
  | node _ _ _ names inside => exact ⟨names e c hec, inside e c hec⟩

/-- The children of a node are the states that are written, in order. -/
theorem names_eq (h : Follows v t) : t.children.map (·.node.name) = v.keys "states" :=
  (map_eq_map_of_zip h.length_entries fun _ _ hec => (h.child hec).1).symm

theorem on_eq (h : Follows v t) : t.node.handlers.on.map (·.1) = v.keys "on" := by
  cases h with
  | node _ on _ _ _ => exact on

theorem once (h : Follows v t) : Dialect.distinct Dialect.stateKeys v.stateFields = true := by
  cases h
  assumption

/-- The trail of a child has the name that is written for it at its end. -/
theorem trail_child (h : Follows v t) (hwf : t.WellFormed) {e : String × Json} {c : Tree}
    (hec : (e, c) ∈ (v.entries "states").zip t.children) (names : List String) :
    c.node.trail ++ names = t.node.trail ++ e.1 :: names := by
  rw [hwf.trails t (self_mem_preorder t) c (List.of_mem_zip hec).2, (h.child hec).1,
    List.append_assoc]
  rfl

/-- The nodes come in the order in which the states are written. -/
theorem map_trail (h : Follows v t) (hwf : t.WellFormed) :
    t.preorder.map (·.node.trail) = v.trails.map (t.node.trail ++ ·) := by
  induction h with
  | @node v n a cs once on length names inside ih =>
    have hchild : ∀ e c, (e, c) ∈ (v.entries "states").zip cs →
        (e.2.trails.map (e.1 :: ·)).map (n.trail ++ ·) = c.preorder.map (·.node.trail) := by
      intro e c hec
      rw [ih e c hec (hwf.of_child (List.of_mem_zip hec).2), List.map_map]
      exact List.map_congr_left fun names' _ =>
        ((Follows.node (a := a) once on length names inside).trail_child hwf hec names').symm
    rw [preorder_mk, List.map_cons, Json.trails_eq, List.map_cons, List.append_nil, node_mk,
      List.map_flatMap, List.map_flatMap, List.flatMap_def, List.flatMap_def]
    exact congrArg (n.trail :: ·.flatten) (map_eq_map_of_zip length hchild).symm

/-- Each node is that of a state in the document. -/
theorem exists_state (h : Follows v t) (hwf : t.WellFormed) {u : Tree} (hu : u ∈ t.preorder) :
    ∃ names s, u.node.trail = t.node.trail ++ names ∧ v.StateAt names s ∧ Follows s u := by
  induction h with
  | @node v n a cs once on length names inside ih =>
    have h := Follows.node (a := a) once on length names inside
    rcases mem_preorder_iff.mp hu with rfl | ⟨c, hc, hu⟩
    · exact ⟨[], v, (List.append_nil _).symm, .here v, h⟩
    · obtain ⟨e, hec⟩ := exists_mem_zip_right length hc
      obtain ⟨names', s, htrail, hs, hfollows⟩ := ih e c hec (hwf.of_child hc) hu
      refine ⟨e.1 :: names', s, ?_, .inside (List.of_mem_zip hec).1 hs, hfollows⟩
      rw [htrail, h.trail_child hwf hec]

/-- Each state in the document has a node. -/
theorem exists_node {names : List String} {s : Json} (hs : v.StateAt names s) : ∀ {t : Tree},
    Follows v t → t.WellFormed →
      ∃ u ∈ t.preorder, u.node.trail = t.node.trail ++ names ∧ Follows s u := by
  induction hs with
  | here v => exact fun h _ => ⟨_, self_mem_preorder _, (List.append_nil _).symm, h⟩
  | @inside v w s name names mem hs ih =>
    intro t h hwf
    obtain ⟨c, hec⟩ := exists_mem_zip_left h.length_entries mem
    have hc := (List.of_mem_zip hec).2
    obtain ⟨u, hu, htrail, hfollows⟩ := ih (h.child hec).2 (hwf.of_child hc)
    refine ⟨u, mem_preorder_of_child hc hu, ?_, hfollows⟩
    rw [htrail, h.trail_child hwf hec]

end Follows

/-! ### States as they are written -/

/-- The tree has the states of the document as they are written. No field of a state comes twice,
and no name comes twice in its states or in its events. Each state has a node and each node a
state, with the states in it as the children, in order, and the events that are written there; and
the nodes come in the order of the document. -/
structure AsWritten (doc : Json) (t : Tree) : Prop where
  distinct : ∀ names s, doc.StateAt names s →
    Dialect.distinct Dialect.stateKeys s.stateFields = true ∧ (s.keys "states").Nodup ∧
      (s.keys "on").Nodup
  exists_node : ∀ names s, doc.StateAt names s → ∃ u ∈ t.preorder, u.node.trail = names
  exists_state : ∀ u ∈ t.preorder, ∃ s, doc.StateAt u.node.trail s
  children : ∀ u ∈ t.preorder, ∀ s, doc.StateAt u.node.trail s →
    u.children.map (·.node.name) = s.keys "states"
  events : ∀ u ∈ t.preorder, ∀ s, doc.StateAt u.node.trail s →
    u.node.handlers.on.map (·.1) = s.keys "on"
  order : t.preorder.map (·.node.trail) = doc.trails

/-- A tree that follows a document has its states as they are written, if no event comes twice
in a node. -/
theorem Follows.asWritten {doc : Json} {t : Tree} (h : Follows doc t) (hwf : t.WellFormed)
    (hroot : t.node.trail = []) (hon : ∀ u ∈ t.preorder, (u.node.handlers.on.map (·.1)).Nodup) :
    t.AsWritten doc := by
  have hnode : ∀ names s, doc.StateAt names s →
      ∃ u ∈ t.preorder, u.node.trail = names ∧ Follows s u := by
    intro names s hs
    obtain ⟨u, hu, htrail, hsu⟩ := exists_node hs h hwf
    exact ⟨u, hu, by rw [htrail, hroot, List.nil_append], hsu⟩
  -- the node with the trail that leads to a state is the one of that state
  have hfollows : ∀ u ∈ t.preorder, ∀ s, doc.StateAt u.node.trail s → Follows s u := by
    intro u hu s hs
    obtain ⟨u', hu', htrail, hsu⟩ := hnode u.node.trail s hs
    have heq : u' = u := hwf.eq_of_trail_eq hu' hu htrail
    exact heq ▸ hsu
  refine ⟨?distinct, ?node, ?state, ?children, ?events, ?order⟩
  case distinct =>
    intro names s hs
    obtain ⟨u, hu, -, hsu⟩ := hnode names s hs
    refine ⟨hsu.once, ?_, ?_⟩
    · rw [← hsu.names_eq]
      exact hwf.names u hu
    · rw [← hsu.on_eq]
      exact hon u hu
  case node =>
    intro names s hs
    obtain ⟨u, hu, htrail, -⟩ := hnode names s hs
    exact ⟨u, hu, htrail⟩
  case state =>
    intro u hu
    obtain ⟨names, s, hnames, hs, -⟩ := h.exists_state hwf hu
    rw [hroot, List.nil_append] at hnames
    exact ⟨s, hnames ▸ hs⟩
  case children => exact fun u hu s hs => (hfollows u hu s hs).names_eq
  case events => exact fun u hu s hs => (hfollows u hu s hs).on_eq
  case order =>
    rw [h.map_trail hwf, hroot]
    simp

/-! ### Designs that were read -/

variable {d : Design D} {id : String} {c : Compiled D}

/-- No event comes twice in a node of a compiled tree. -/
theorem nodup_on_of_compile (hc : d.compile id = .ok c) {u : Tree} (hu : u ∈ c.tree.preorder) :
    (u.node.handlers.on.map (·.1)).Nodup := by
  obtain ⟨s, hwithin, hmirrors⟩ := (mirrors_of_compile hc).exists_within hu
  obtain ⟨path, hnone⟩ :=
    d.host.stateProblems_of_within hwithin (Design.compile_eq_ok_iff.mp hc).1
  cases hmirrors with
  | node _ handlers _ _ _ =>
    rw [node_mk, handlers, d.host.on_handlers]
    exact d.host.nodup_on_of_stateProblems hnone

end Tree

namespace Design

theorem state?_of_document? {dialect : Dialect D} {v : Json} {id : Option String}
    {root : Definition.State D} (h : document? dialect v = some (id, root)) :
    (∃ fields, v = .obj fields) ∧ dialect.state? v = some root := by
  cases v with
  | obj fields =>
    refine ⟨⟨fields, rfl⟩, ?_⟩
    simp only [document?, Option.bind_eq_bind] at h
    -- whatever is read of the id, the root is read behind it
    split at h
    all_goals
      simp only [Option.bind_eq_some_iff] at h
      obtain ⟨_, _, root, hroot, heq⟩ := h
      cases heq
      exact hroot
  | _ => cases h

/-- The root of a design that was read is read from the object that its text spells. -/
theorem state?_of_ofText? {text : String} {data : D} {host : Host D} {d : Design D}
    (h : ofText? text data host = some d) :
    ∃ fields, Json.Written text (.obj fields) ∧
      Dialect.document.state? (.obj fields) = some d.root := by
  simp only [ofText?, Option.bind_eq_bind, Option.bind_eq_some_iff] at h
  obtain ⟨v, hread, ⟨id, root⟩, hdocument, heq⟩ := h
  cases heq
  obtain ⟨⟨fields, rfl⟩, hroot⟩ := state?_of_document? hdocument
  exact ⟨fields, Json.written_of_read? hread, hroot⟩

variable {text : String} {data : D} {host : Host D} {d : Design D} {id : String} {c : Compiled D}

/-- A design that was read from a text and compiles has the states that the text spells, as they
are written. -/
theorem states_as_written (hread : ofText? text data host = some d) (hc : d.compile id = .ok c) :
    ∃ fields, Json.Written text (.obj fields) ∧ c.tree.AsWritten (.obj fields) := by
  obtain ⟨fields, hwritten, hroot⟩ := state?_of_ofText? hread
  obtain ⟨hwf, -, htrail, -⟩ := tree_of_compile hc
  have hfollows : Tree.Follows (.obj fields) c.tree :=
    Tree.follows_of_mirrors rfl (Tree.mirrors_of_compile hc) hroot
  exact ⟨fields, hwritten,
    hfollows.asWritten hwf htrail fun u hu => Tree.nodup_on_of_compile hc hu⟩

/-- A hatch that is shut or open, and open wide or ajar. The name of an event has an escaped
letter, and the state `open` is a list of its fields. -/
def hatchText : String :=
  "\x7b \"on\": \x7b\"KNOC\\u004b\": []\x7d, \"states\": \x7b\"shut\": \x7b\x7d, \"open\": [null, " ++
    "\x7b\"PUSH\": []\x7d, null, null, null, null, null, \x7b\"wide\": [], \"ajar\": []\x7d]\x7d\x7d"

def hatch : Design Unit where
  id := none
  data := ()
  root := .mk { on := [("KNOCK", .many [])] } [
    ("shut", .mk {} []),
    ("open", .mk { on := [("PUSH", .many [])] } [("wide", .mk {} []), ("ajar", .mk {} [])])]
  host := .empty

/-- What the text is written for. -/
def hatchValue : Json := .obj [
  ("on", .obj [("KNOCK", .arr [])]),
  ("states", .obj [
    ("shut", .obj []),
    ("open", .arr [.null, .obj [("PUSH", .arr [])], .null, .null, .null, .null, .null,
      .obj [("wide", .arr []), ("ajar", .arr [])]])])]

set_option maxRecDepth 4000 in
theorem read?_hatchText : Json.read? hatchText = some hatchValue := by
  -- Its characters are those of the two lines.
  obtain ⟨cs, htext, hvalue⟩ : ∃ cs : List Char, hatchText = String.ofList cs ∧
      Json.Reader.value true Json.Reader.anyKey (2 * cs.length + 2) Json.maxDepth cs =
        some (hatchValue, []) := ⟨_, String.ofList_append.symm, rfl⟩
  simp only [htext, Json.read?, Json.readFields?, String.toList_ofList, hvalue]
  rfl

theorem document?_hatchValue : document? Dialect.document hatchValue = some (none, hatch.root) := by
  have hpairs : (Dialect.document : Dialect Unit).pairs = false := rfl
  have hchain : (Dialect.document : Dialect Unit).chain? (.arr []) = some (.many []) := by
    simp [Dialect.chain?, Dialect.links?]
  have hevent : ∀ name : String, (Dialect.document : Dialect Unit).entries?
      (Dialect.document : Dialect Unit).chain? (.obj [(name, .arr [])]) = some [(name, .many [])] := by
    simp [Dialect.entries?, hpairs, Json.fields?, hchain]
  simp [document?, hatchValue, Dialect.state?, Dialect.stateFields?, Dialect.stateItems?,
    Dialect.states?, Dialect.stateEntries?, Dialect.distinct, Dialect.stateKeys, Dialect.body?,
    Dialect.maybe, hpairs, hevent, hatch]

theorem ofText?_hatchText : ofText? hatchText () .empty = some hatch := by
  rw [ofText?, read?_hatchText]
  simp only [Option.bind_eq_bind, Option.bind_some, document?_hatchValue]
  rfl

theorem compile_hatch : hatch.compile "hatch" = .ok (hatch.build "hatch") :=
  compile_eq_ok_iff.mpr ⟨by decide, rfl⟩

theorem states_as_written_hatch :
    ofText? hatchText () .empty = some hatch ∧ hatch.compile "hatch" = .ok (hatch.build "hatch") ∧
      (∃ fields, Json.Written hatchText (.obj fields) ∧
        (hatch.build "hatch").tree.AsWritten (.obj fields)) ∧
      (hatch.build "hatch").tree.preorder.map (·.node.trail) =
        [[], ["shut"], ["open"], ["open", "wide"], ["open", "ajar"]] :=
  ⟨ofText?_hatchText, compile_hatch, states_as_written ofText?_hatchText compile_hatch, by decide⟩

end Design

end Statechart
