/-
# Failures in a journal

What a run of chains comes to is taken over, unless one of them fails; an activation leads to
a transition, unless an initial rule fails. The journal has all four, so it tells how often
something failed (`Journal.failures`): the runs of which nothing was taken over, and the trees
that no transition led to, but for the first one.

Whatever runs a chain or makes a transition counts for one failure if its result is an error,
and for none otherwise (`Machine.Accounts`). Nothing takes a failure back
(`Machine.Step.failures_le`), so where nothing failed in all, nothing failed on the way
(`Machine.Deeds.unfailing`).

Key definitions: `Happening.arranges`, `Journal.failedRuns`, `Journal.failedActivations`,
`Journal.failures`, `Machine.Accounts`.
Key theorems: `Machine.execute_cases`, `Machine.Passage.accounts`, `Machine.answer_accounts`,
`Machine.Step.failures_le`, `Machine.Change.failedActivations_le`, `Machine.Deeds.unfailing`,
`Machine.unfailing_of_create`.
-/
import Statechart.Proofs.Deeds

namespace Statechart

variable {D : Type}

/-! ### Counting failures -/

namespace Happening

/-- Work is put off, an event comes into the queue, or a subscriber is notified. -/
def arranges : Happening D → Bool
  | queued _ => true
  | deferred .. => true
  | notified .. => true
  | _ => false

/-- One for runs of chains, and one less where what they came to is taken over. -/
def runs : Happening D → Int
  | handled _ => 1
  | ran .. => 1
  | committed _ => -1
  | _ => 0

/-- One for an activation, and one less where it led to a transition. -/
def activations : Happening D → Int
  | reached _ => 1
  | moved _ => -1
  | _ => 0

theorem runs_of_arranges {e : Happening D} (h : e.arranges = true) : e.runs = 0 := by
  cases e <;> first | rfl | cases h

theorem activations_of_arranges {e : Happening D} (h : e.arranges = true) : e.activations = 0 := by
  cases e <;> first | rfl | cases h

end Happening

namespace Journal

/-- How many times chains failed. -/
def failedRuns (es : List (Happening D)) : Int := es.foldr (fun e n => n + e.runs) 0

/-- How many times an activation failed; no transition leads to the first tree. -/
def failedActivations (es : List (Happening D)) : Int := es.foldr (fun e n => n + e.activations) (-1)

def failures (es : List (Happening D)) : Int := failedRuns es + failedActivations es

@[simp] theorem failedRuns_cons (e : Happening D) (es : List (Happening D)) :
    failedRuns (e :: es) = failedRuns es + e.runs := rfl

@[simp] theorem failedActivations_cons (e : Happening D) (es : List (Happening D)) :
    failedActivations (e :: es) = failedActivations es + e.activations := rfl

@[simp] theorem failures_cons (e : Happening D) (es : List (Happening D)) :
    failures (e :: es) = failures es + e.runs + e.activations := by
  rw [failures, failedRuns_cons, failedActivations_cons, failures]
  omega

theorem failures_append_of_arranges {late : List (Happening D)}
    (h : ∀ e ∈ late, e.arranges = true) (es : List (Happening D)) :
    failures (late ++ es) = failures es := by
  induction late with
  | nil => rfl
  | cons e late ih =>
    obtain ⟨he, hlate⟩ := List.forall_mem_cons.mp h
    rw [List.cons_append, failures_cons, Happening.runs_of_arranges he,
      Happening.activations_of_arranges he, ih hlate]
    omega

end Journal

namespace Machine

variable {m : Machine D}

/-! ### What is written -/

/-- Nothing is written but that work is put off, events come into the queue, and subscribers are
notified. -/
def Arranges (m m' : Machine D) : Prop :=
  ∃ late, m'.journal = late ++ m.journal ∧ ∀ e ∈ late, e.arranges = true

theorem Arranges.refl (m : Machine D) : Arranges m m := ⟨[], rfl, fun _ h => nomatch h⟩

theorem Arranges.trans {m₁ m₂ m₃ : Machine D} (h : Arranges m₁ m₂) (k : Arranges m₂ m₃) :
    Arranges m₁ m₃ := by
  obtain ⟨late, hjournal, hlate⟩ := h
  obtain ⟨later, kjournal, klater⟩ := k
  refine ⟨later ++ late, by rw [kjournal, hjournal, List.append_assoc], fun e he => ?_⟩
  rcases List.mem_append.mp he with he | he
  · exact klater e he
  · exact hlate e he

theorem Arranges.of_note {m m' : Machine D} {e : Happening D} (journal : m'.journal = e :: m.journal)
    (h : e.arranges = true) : Arranges m m' :=
  ⟨[e], journal, fun _ he => List.mem_singleton.mp he ▸ h⟩

theorem Arranges.failures_eq {m' : Machine D} (h : Arranges m m') :
    Journal.failures m'.journal = Journal.failures m.journal := by
  obtain ⟨late, hjournal, hlate⟩ := h
  rw [hjournal, Journal.failures_append_of_arranges hlate]

theorem enqueueAll_arranges (events : List Event) (m : Machine D) :
    Arranges m (events.foldl enqueue m) := by
  induction events generalizing m with
  | nil => exact .refl m
  | cons e events ih =>
    have hfirst : Arranges m (m.enqueue e) := .of_note rfl rfl
    exact hfirst.trans (ih _)

theorem commit_arranges (m : Machine D) (payload : Json) (runs : List (Lease × Run D)) :
    Arranges (m.note (.committed (runs.flatMap fun r => r.2.passed))) (m.commit payload runs) := by
  have hwaits : ∀ (waits : List (Lease × Continuation)) (m : Machine D),
      Arranges m (waits.foldl (fun m w => m.postpone payload w.1 w.2) m) := by
    intro waits
    induction waits with
    | nil => exact Arranges.refl
    | cons w waits ih =>
      intro m
      have hfirst : Arranges m (m.postpone payload w.1 w.2) := .of_note rfl rfl
      exact hfirst.trans (ih _)
  unfold commit
  dsimp only
  refine Arranges.trans ?_ (enqueueAll_arranges _ _)
  exact hwaits _ _

theorem flush_arranges (m : Machine D) : Arranges m m.flush := by
  have hnotes : ∀ (ss : List Nat) (m : Machine D),
      Arranges m (ss.foldl (fun m s => m.note (.notified s m.snapshot)) m) := by
    intro ss
    induction ss with
    | nil => exact Arranges.refl
    | cons s ss ih =>
      intro m
      have hfirst : Arranges m (m.note (.notified s m.snapshot)) := .of_note rfl rfl
      exact hfirst.trans (ih _)
  unfold flush
  dsimp only
  split
  · exact hnotes _ { m with snapshot := m.view, owed := false }
  · exact .refl m

/-- A run of a chain fails, and changes nothing; or what it comes to is taken over. -/
theorem execute_cases (m : Machine D) (index : Nat) (role : Role) (payload : Json) (event : String)
    (run : Context D → WorkingCopy D → Run D) :
    (∃ e, m.execute index role payload event run =
      (m.note (.ran (m.tree.lease index) role m.timeline.now), .error (.eval event e))) ∨
    ∃ r, m.execute index role payload event run =
      ((m.note (.ran (m.tree.lease index) role m.timeline.now)).commit payload
        [(m.tree.lease index, r)], .ok (requestsOf [(m.tree.lease index, r)])) := by
  unfold execute
  dsimp only
  split
  · exact Or.inl ⟨_, rfl⟩
  · exact Or.inr ⟨_, rfl⟩

theorem startRepeater_arranges (payload : Json) (owner : Lease) (r : Option Repeater) :
    Arranges m (m.startRepeater payload owner r) := by
  cases r with
  | none => exact .refl m
  | some r => exact .of_note rfl rfl

theorem launch_arranges (payload : Json) (owner : Lease) (a : Option Awaiting) :
    Arranges m (m.launch payload owner a) := by
  cases a with
  | none => exact .refl m
  | some a => exact .of_note rfl rfl

/-! ### Failures and errors -/

/-- There is one failure more if the result is an error, and the error is that of a function;
otherwise there is none more. -/
inductive Accounts {α : Type} (m : Machine D) : Machine D × Except MachineError α → Prop
  | ok {m' : Machine D} {a : α}
    (none_more : Journal.failures m'.journal = Journal.failures m.journal) : Accounts m (m', .ok a)
  | error {m' : Machine D} {event : String} {error : FunctionError}
    (one_more : Journal.failures m'.journal = Journal.failures m.journal + 1) :
    Accounts m (m', .error (.eval event error))

namespace Accounts

variable {α : Type} {r : Machine D × Except MachineError α}

theorem failures_le (h : Accounts m r) :
    Journal.failures m.journal ≤ Journal.failures r.1.journal := by
  cases h <;> dsimp only <;> omega

/-- Where nothing failed there is a result. -/
theorem exists_eq_ok (h : Accounts m r)
    (hsame : Journal.failures r.1.journal = Journal.failures m.journal) : ∃ a, r.2 = .ok a := by
  cases h with
  | ok => exact ⟨_, rfl⟩
  | error one_more =>
    dsimp only at hsame
    omega

/-- What was done before makes no difference if nothing failed in it. -/
theorem of_eq {m₁ : Machine D} (h : Accounts m₁ r)
    (hsame : Journal.failures m₁.journal = Journal.failures m.journal) : Accounts m r := by
  cases h with
  | ok none_more => exact .ok (none_more.trans hsame)
  | error one_more => exact .error (by rw [one_more, hsame])

end Accounts

theorem execute_accounts (m : Machine D) (index : Nat) (role : Role) (payload : Json)
    (event : String) (run : Context D → WorkingCopy D → Run D) :
    Accounts m (m.execute index role payload event run) := by
  rcases m.execute_cases index role payload event run with ⟨e, heq⟩ | ⟨r, heq⟩ <;> rw [heq]
  · refine .error ?_
    simp [note, Happening.runs, Happening.activations]
  · refine .ok ?_
    rw [(commit_arranges _ payload _).failures_eq]
    simp only [note, Journal.failures_cons, Happening.runs, Happening.activations]
    omega

theorem executeChain_accounts (m : Machine D) (index : Nat) (role : Role) (payload : Json)
    (event : String) (chain : Option Chain) :
    Accounts m (m.executeChain index role payload event chain) := by
  cases chain with
  | none => exact .ok rfl
  | some chain =>
    exact execute_accounts m index role payload event fun ctx copy => ctx.run chain copy

theorem leave_accounts (m : Machine D) (payload : Json) (event : String) (n : Node) :
    Accounts m (m.leave payload event n) := by
  let m' : Machine D := { m with
    timeline := m.timeline.cancel n.index
    jobs := m.jobs.filter fun job => job.owner.node ≠ n.index }
  have hchain := executeChain_accounts m' n.index .exit payload event n.handlers.onExit
  exact hchain.of_eq rfl

theorem enter_accounts (m : Machine D) (payload : Json) (event : String) (n : Node) :
    Accounts m (m.enter payload event n) := by
  let owner := m.tree.lease n.index
  have hstart := (startRepeater_arranges (m := m) payload owner n.handlers.repeater).failures_eq
  have hchain := (executeChain_accounts (m.startRepeater payload owner n.handlers.repeater) n.index
    .enter payload event n.handlers.onEnter).of_eq hstart
  unfold enter
  dsimp only
  split <;> rename_i heq <;> rw [heq] at hchain
  · exact hchain
  · cases hchain with
    | ok none_more =>
      exact .ok ((launch_arranges payload owner n.handlers.awaiting).failures_eq.trans none_more)

theorem forNodes_accounts {f : Node → Machine D → Machine D × Except MachineError (List Request)}
    (h : ∀ n m, Accounts m (f n m)) : ∀ (ns : List Node) (m : Machine D),
      Accounts m (forNodes f ns m)
  | [], _ => .ok rfl
  | n :: ns, m => by
    have hn := h n m
    rw [forNodes]
    split <;> rename_i heq <;> rw [heq] at hn
    · exact hn
    · rename_i m' requests
      cases hn with
      | ok none_more =>
        have hns := (forNodes_accounts h ns m').of_eq none_more
        split <;> rename_i heq' <;> rw [heq'] at hns
        · exact hns
        · cases hns with
          | ok none_more => exact .ok none_more

/-- A transition counts for a failure if its activation fails, or a chain as nodes are left or
entered. -/
theorem Passage.accounts {target : Tree} {recalls : Recall} {payload : Json} {event : String}
    {r : Machine D × Except MachineError (List Request)}
    (h : Passage m target recalls payload event r) : Accounts m r := by
  have harrive : ∀ tree, Journal.failures (m.arrive target recalls tree).journal =
      Journal.failures m.journal := fun tree => by
    simp only [arrive, note, Journal.failures_cons, Happening.runs, Happening.activations]
    omega
  have hleave : ∀ {tree : Tree} {out : Machine D × Except MachineError (List Request)},
      forNodes (leave payload event) (m.leaves tree).reverse (m.arrive target recalls tree) = out →
        Accounts m out := by
    rintro tree _ rfl
    exact (forNodes_accounts (fun n m => leave_accounts m payload event n) _ _).of_eq (harrive tree)
  have henter : ∀ {m₁ : Machine D} {ns : List Node} {requests : List Request}
      {out : Machine D × Except MachineError (List Request)}, Accounts m (m₁, .ok requests) →
        forNodes (enter payload event) ns m₁ = out → Accounts m out := by
    rintro m₁ ns requests _ (none_more | _) rfl
    exact (forNodes_accounts (fun n m => enter_accounts m payload event n) _ _).of_eq none_more
  cases h with
  | fallen =>
    refine .error ?_
    simp [note, Happening.runs, Happening.activations]
  | leaving _ left => exact hleave left
  | entering _ left entered => exact henter (hleave left) entered
  | done _ left entered =>
    cases henter (hleave left) entered with
    | ok none_more => exact .ok none_more

/-- A transition in which nothing fails is done to its end. -/
theorem Passage.exists_done {target : Tree} {recalls : Recall} {payload : Json} {event : String}
    {r : Machine D × Except MachineError (List Request)}
    (h : Passage m target recalls payload event r)
    (same : Journal.failures r.1.journal = Journal.failures m.journal) :
    ∃ tree m₁ requests more, m.activates target recalls payload = (tree, none) ∧
      forNodes (leave payload event) (m.leaves tree).reverse (m.arrive target recalls tree) =
        (m₁, .ok requests) ∧
      forNodes (enter payload event) (m.enters tree) m₁ = (r.1, .ok more) := by
  obtain ⟨a, ha⟩ := h.accounts.exists_eq_ok same
  cases h with
  | fallen => cases ha
  | leaving => cases ha
  | entering => cases ha
  | done activation left entered => exact ⟨_, _, _, _, activation, left, entered⟩

/-- An event counts for a failure if one of its chains fails. -/
theorem answer_accounts (m : Machine D) (e : Event) : Accounts m (m.answer e) := by
  unfold answer
  split
  · refine .error ?_
    simp [note, Happening.runs, Happening.activations]
  · refine .ok ?_
    rw [(commit_arranges _ _ _).failures_eq]
    simp only [note, Journal.failures_cons, Happening.runs, Happening.activations]
    omega

/-! ### Nothing takes a failure back -/

theorem Deed.failures_le {m m' : Machine D} (h : Deed m m') :
    Journal.failures m.journal ≤ Journal.failures m'.journal := by
  cases h with
  | receive e => simp [enqueue, note, Happening.runs, Happening.activations]
  | @answer e rest queue => exact (answer_accounts { m with queue := rest } e).failures_le
  | drop => exact Int.le_refl _
  | move mem recalls payload event => exact (move_passage m _ recalls payload event).accounts.failures_le
  | work current kind due payload event run =>
    exact (execute_accounts m _ _ payload event run).failures_le
  | flush => exact Int.le_of_eq (flush_arranges m).failures_eq.symm
  | poll gates => exact Int.le_refl _

theorem Deeds.failures_le {m m' : Machine D} (h : Deeds m m') :
    Journal.failures m.journal ≤ Journal.failures m'.journal := by
  induction h with
  | refl => exact Int.le_refl _
  | tail _ hdeed ih => exact Int.le_trans ih hdeed.failures_le

/-- Where nothing failed in all, what is kept by each deed in which nothing fails is kept. -/
theorem Deeds.unfailing {P : Machine D → Prop} {m m' : Machine D} (h : Deeds m m')
    (same : Journal.failures m'.journal = Journal.failures m.journal)
    (keeps : ∀ {m₁ m₂ : Machine D}, Deeds m m₁ → Deed m₁ m₂ →
      Journal.failures m₂.journal = Journal.failures m₁.journal → P m₁ → P m₂) (hm : P m) :
    P m' := by
  induction h with
  | refl => exact hm
  | @tail m₁ m₂ hdeeds hdeed ih =>
    have hbefore := Deeds.failures_le hdeeds
    have hafter := hdeed.failures_le
    exact keeps hdeeds hdeed (by omega) (ih (by omega))

theorem Step.failures_le {m m' : Machine D} (h : Step m m') (hm : m.Faithful) :
    Journal.failures m.journal ≤ Journal.failures m'.journal := by
  cases h with
  | send e => exact (send_deeds m e).failures_le
  | pop h =>
    obtain ⟨due, timeline, -, hdeeds⟩ := popStep_deeds h hm
    exact hdeeds.failures_le
  | settle done => exact Int.le_refl _
  | poll gates => exact (pollOperations_deeds gates hm).failures_le
  | subscribe => exact Int.le_refl _
  | unsubscribe s =>
    unfold Machine.unsubscribe
    dsimp only
    split
    · simp [note, Happening.runs, Happening.activations]
    · exact Int.le_refl _

/-- Where nothing failed in all, what is kept by each step in which nothing fails is kept, also
by steps of some kind alone. -/
theorem unfailing_of_steps {R : Machine D → Machine D → Prop}
    (step : ∀ {m₁ m₂ : Machine D}, R m₁ m₂ → Step m₁ m₂) {P : Machine D → Prop} {m m' : Machine D}
    (h : Relation.ReflTransGen R m m') (hm : m.Faithful)
    (same : Journal.failures m'.journal = Journal.failures m.journal)
    (keeps : ∀ {m₁ m₂ : Machine D}, Changes m m₁ → R m₁ m₂ →
      Journal.failures m₂.journal = Journal.failures m₁.journal → P m₁ → P m₂) (hP : P m) : P m' := by
  have hall : Changes m m' ∧ Journal.failures m.journal ≤ Journal.failures m'.journal ∧
      (Journal.failures m'.journal = Journal.failures m.journal → P m') := by
    clear same
    induction h with
    | refl => exact ⟨.refl, Int.le_refl _, fun _ => hP⟩
    | tail _ hstep ih =>
      obtain ⟨hchanges, hle, hkept⟩ := ih
      have hfaithful := hchanges.faithful hm
      have hlast := (step hstep).failures_le hfaithful
      refine ⟨hchanges.trans ((step hstep).changes hfaithful), by omega, fun same => ?_⟩
      exact keeps hchanges hstep (by omega) (hkept (by omega))
  exact hall.2.2 same

/-- No change takes a failed activation back. -/
theorem Change.failedActivations_le {m m' : Machine D} (h : Change m m') :
    Journal.failedActivations m.journal ≤ Journal.failedActivations m'.journal := by
  have chore : ∀ {m m' : Machine D}, Chore m m' →
      Journal.failedActivations m.journal ≤ Journal.failedActivations m'.journal := by
    intro m m' h
    cases h with
    | startRepeater payload index r =>
      cases r <;> simp [Machine.startRepeater, note, Happening.activations]
    | launch payload index a =>
      cases a <;> simp [Machine.launch, note, Happening.activations]
    | _ => simp [Machine.postpone, Machine.enqueue, note, Happening.activations]
  cases h with
  | act h =>
    cases h with
    | chore h => exact chore h
    | _ =>
      simp only [note, Journal.failedActivations_cons, Happening.activations]
      omega
  | receive e => exact chore (.enqueue m e)
  | unsubscribe s =>
    unfold Machine.unsubscribe
    dsimp only
    split <;> simp [note, Happening.activations]
  | subscribe => exact Int.le_refl _
  | _ => simp [note, Machine.poll, Happening.activations]

theorem Changes.failedActivations_le {m m' : Machine D} (h : Changes m m') :
    Journal.failedActivations m.journal ≤ Journal.failedActivations m'.journal := by
  induction h with
  | refl => exact Int.le_refl _
  | tail _ hstep ih => exact Int.le_trans ih hstep.failedActivations_le

/-! ### The start -/

variable {design : Design D} {settings : Settings} {c : Compiled D} {tree : Tree}

theorem Steps.failures_le {m m' : Machine D} (h : Steps m m') (hm : m.Faithful) :
    Journal.failures m.journal ≤ Journal.failures m'.journal := by
  induction h with
  | refl => exact Int.le_refl _
  | tail hbefore hstep ih =>
    exact Int.le_trans ih (hstep.failures_le ((Steps.changes hbefore hm).faithful hm))

/-- Nothing fails in the creation of a machine until its first states are entered. -/
theorem failures_started {m₁ : Machine D} {requests : List Request}
    (h : forNodes (enter .null "start") (tree.activeNodes.map Tree.node)
      (begin design settings c tree) = (m₁, .ok requests)) : Journal.failures m₁.journal = 0 := by
  have hall := forNodes_accounts (fun n m => enter_accounts m .null "start" n)
    (tree.activeNodes.map Tree.node) (begin design settings c tree)
  rw [h] at hall
  cases hall with
  | ok none_more => exact none_more

/-- Where nothing failed since the creation of a machine, what holds when its first states are
entered, and is kept by each deed and by each step in which nothing fails, holds of it. -/
theorem unfailing_of_create {fresh : String} {R : Machine D → Machine D → Prop}
    (step : ∀ {m₁ m₂ : Machine D}, R m₁ m₂ → Step m₁ m₂) {P : Machine D → Prop} {m₀ m : Machine D}
    (hcreate : create design settings fresh = .ok m₀) (h : Relation.ReflTransGen R m₀ m)
    (unfailing : Journal.failures m.journal = 0)
    (started : ∀ {c : Compiled D} {tree : Tree} {m₁ : Machine D} {requests : List Request},
      Arises design settings fresh (begin design settings c tree) →
      forNodes (enter .null "start") (tree.activeNodes.map Tree.node)
        (begin design settings c tree) = (m₁, .ok requests) → P m₁)
    (deed : ∀ {m₁ m₂ : Machine D}, Arises design settings fresh m₁ → Deed m₁ m₂ →
      Journal.failures m₂.journal = Journal.failures m₁.journal → P m₁ → P m₂)
    (next : ∀ {m₁ m₂ : Machine D}, Arises design settings fresh m₁ → R m₁ m₂ →
      Journal.failures m₂.journal = Journal.failures m₁.journal → P m₁ → P m₂) : P m := by
  obtain ⟨c, tree, m₁, requests, hc, htree, henter, hdeeds⟩ := create_deeds hcreate
  have hbegin : Arises design settings fresh (begin design settings c tree) :=
    ⟨c, tree, hc, htree, .refl⟩
  have hstarted := hbegin.changes (started_chores henter).acts.changes
  have hcreated := hstarted.changes (hdeeds.changes hstarted.faithful)
  have hsteps : Steps m₀ m := Relation.ReflTransGen.mono (fun _ _ => step) _ _ h
  -- There were no failures at the start and are none now, so there were none between.
  have hzero := failures_started henter
  have hle := hdeeds.failures_le
  have hle' := hsteps.failures_le hcreated.faithful
  have hcreation : P m₀ :=
    hdeeds.unfailing (by omega) (fun hbefore hdeed same hP =>
      deed (hstarted.changes (hbefore.changes hstarted.faithful)) hdeed same hP)
      (started hbegin henter)
  exact unfailing_of_steps step h hcreated.faithful (by omega)
    (fun hchanges hstep same hP => next (hcreated.changes hchanges) hstep same hP) hcreation

end Machine
end Statechart
