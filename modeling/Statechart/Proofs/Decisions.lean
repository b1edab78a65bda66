/-
# Initial rules as chains

A decision of an initial rule reads like a handler: it gathers results, checks guards, and goes
on to a child, to another rule, or to its `else` rule. So each rule is written as a chain: a child
is a handler that asks for a transition to it, and a decision is a handler with the same results
and guards, with its child for a target or else with the chain of its `then` rule, and with the
chain of its `else` rule. The rule is decided by one evaluator and the chain is run by another;
what they come to is the same (`InitialRule.initialChild_iff`): the child that the rule gives is
the only transition that the chain asks for, a rule that gives none asks for none, and where a
function fails it is the same function, with the same text.

Key definitions: `InitialRule.chain`, `FunctionError.during`, `FunctionError.relabel`, `Run.Heeds`.
Key theorems: `Context.runChain_heeds`, `InitialRule.initialChild_iff`.
-/
import Statechart.InitialRule
import Statechart.Proofs.Resumption

namespace Statechart

variable {D : Type}

/-- The same failure of the same function, called for something else. -/
def FunctionError.during (stage : Purpose) (e : FunctionError) : FunctionError := { e with stage }

/-- The same answer, with the function that failed called for something else. -/
def FunctionError.relabel {α : Type} (stage : Purpose) :
    Except FunctionError α → Except FunctionError α
  | .ok a => .ok a
  | .error e => .error (e.during stage)

namespace InitialRule

/-- The handler of a decision, with the chains of the rules in it. The target comes before the
`then` rule. -/
def handler (get : List Nat) (guards : Guards) (child : Option String)
    (thenDo otherwise : Option Chain) : Handler :=
  .mk { get, guards, targets := (child.map Destination.path).toList }
    (if child.isSome then none else thenDo) otherwise

/-- The chain that asks for a transition to the child that a rule gives. -/
def chain : InitialRule → Chain
  | .child name => [handler [] {} (some name) none none]
  | .decision get guards target thenDo otherwise =>
    [handler get guards target
      (match thenDo with
        | none => none
        | some rule => some (chain rule))
      (match otherwise with
        | none => none
        | some rule => some (chain rule))]

theorem chain_decision (get : List Nat) (guards : Guards) (target : Option String)
    (thenDo otherwise : Option InitialRule) : chain (.decision get guards target thenDo otherwise) =
      [handler get guards target (thenDo.map chain) (otherwise.map chain)] := by
  cases thenDo <;> cases otherwise <;> rw [chain] <;> rfl

/-- What holds of a child, and of a decision if it holds of the rules in it, holds of every
rule. -/
@[elab_as_elim]
theorem induction {P : InitialRule → Prop} (child : ∀ name, P (.child name))
    (decision : ∀ get guards child thenDo otherwise, (∀ r, thenDo = some r → P r) →
      (∀ r, otherwise = some r → P r) → P (.decision get guards child thenDo otherwise)) :
    ∀ rule, P rule := by
  refine InitialRule.rec (motive_1 := P) (motive_2 := fun o => ∀ r, o = some r → P r) child
    decision ?_ ?_
  · exact fun r h => nomatch h
  · rintro r hr _ ⟨⟩
    exact hr

end InitialRule

/-- A run goes on as a decision says: it fails as the decision does, or asks for a transition to
the child and ends, or asks for nothing and goes on. -/
def Run.Heeds (r r' : Run D) : Except FunctionError (Option String) → Prop
  | .error e => r'.stop = some (.failed (e.during .result))
  | .ok (some name) => r'.stop = some .broke ∧ r'.requests = r.requests ++ [⟨name, false⟩]
  | .ok none => r'.stop = none ∧ r'.requests = r.requests

/-- A decision suspends no run, so frames around it make no difference. -/
theorem Run.Heeds.enclose {r r' : Run D} {answer : Except FunctionError (Option String)}
    (h : r.Heeds r' answer) (outer : List Frame) : r.Heeds (r'.enclose outer) answer := by
  have hnone : r'.continuation? = none := by
    unfold Run.continuation?
    match answer with
    | .error e => rw [show r'.stop = _ from h]
    | .ok (some name) => rw [h.1]
    | .ok none => rw [h.1]
  rwa [Run.enclose_of_continuation?_eq_none hnone]

/-- What a run that heeds a decision comes to. -/
theorem Run.Heeds.outcome_eq {copy : WorkingCopy D} {r : Run D}
    {answer : Except FunctionError (Option String)} (h : (Run.start copy).Heeds r answer) :
    r.outcome.map (·.requests) = FunctionError.relabel .result
      (answer.map fun child => (child.map (Request.mk · false)).toList) := by
  unfold Run.outcome
  match answer with
  | .error e =>
    rw [show r.stop = _ from h]
    rfl
  | .ok (some name) =>
    rw [h.1]
    exact congrArg Except.ok h.2
  | .ok none =>
    rw [h.1]
    exact congrArg Except.ok h.2

namespace Context

variable (ctx : Context D)

/-! ### Failures -/

/-- Results are gathered alike whatever they are for. -/
theorem gather_during (stage stage' : Purpose) (data : D) (is : List Nat) (result : Json) :
    ctx.gather stage' data is result =
      FunctionError.relabel stage' (ctx.gather stage data is result) := by
  induction is generalizing result with
  | nil => rfl
  | cons i is ih =>
    unfold gather
    cases ctx.table.fn .result i data ctx.payload result with
    | error text => rfl
    | ok result => exact ih result

theorem stage_of_gather {stage : Purpose} {data : D} {is : List Nat} {result : Json}
    {e : FunctionError} (h : ctx.gather stage data is result = .error e) : e.stage = stage := by
  rw [ctx.gather_during stage stage] at h
  cases hgather : ctx.gather stage data is result with
  | ok result' => simp [hgather, FunctionError.relabel] at h
  | error e' =>
    rw [hgather, FunctionError.relabel, Except.error.injEq] at h
    rw [← h]
    rfl

/-- Decisions fail for initial rules. -/
theorem stage_of_decide {data : D} {e : FunctionError} (rule : InitialRule) :
    ∀ {result : Json}, ctx.decide data rule result = .error e → e.stage = .initial := by
  induction rule using InitialRule.induction with
  | child name => exact fun h => nomatch h
  | decision get guards child thenDo otherwise ihThen ihElse =>
    intro result h
    unfold decide at h
    cases hgather : ctx.gather .initial data get result with
    | error e' =>
      simp only [hgather, Except.error.injEq] at h
      exact h ▸ ctx.stage_of_gather hgather
    | ok result' =>
      simp only [hgather] at h
      split at h
      · split at h
        · cases h
        · exact ihThen _ rfl h
        · cases h
      · split at h
        · exact ihElse _ rfl h
        · cases h

/-! ### Rules run as chains -/

/-- The handler of a decision does nothing but gather results and check guards, and then asks for
the transition to its child or runs a chain in it. -/
theorem runChain_handler (get : List Nat) (guards : Guards) (child : Option String)
    (thenDo otherwise : Option Chain) {r : Run D} (hr : r.stop = none) :
    let h := InitialRule.handler get guards child thenDo otherwise
    ctx.runChain [] [h] r =
      match ctx.gather .result r.copy.value get r.result with
      | .error e => r.fail e
      | .ok result =>
        if ctx.passes r.copy.value result guards then
          match child with
          | some name => { r with
              result
              passed := r.passed ++ [h]
              requests := r.requests ++ [⟨name, false⟩]
              notify := true
              stop := some .broke }
          | none =>
            ctx.nested ⟨[], h, [], .thenDone⟩ thenDo { r with result, passed := r.passed ++ [h] }
        else ctx.nested ⟨[], h, [], .elseDone⟩ otherwise { r with result } := by
  intro h
  have hsingle : ctx.runChain [] [h] r = ctx.runHandler [] [] h r := by
    rw [ctx.runChain_cons (h := h) rfl]
    exact ite_self _
  have henact : ∀ x : Run D, ctx.enact h x = { x with passed := x.passed ++ [h] } := fun x => by
    simp [enact, act, h, InitialRule.handler, Handler.body]
  rw [hsingle, show h = InitialRule.handler get guards child thenDo otherwise from rfl,
    InitialRule.handler, runHandler_eq]
  cases ctx.gather .result r.copy.value get r.result with
  | error e => rfl
  | ok result =>
    simp only
    by_cases hpass : ctx.passes r.copy.value result guards = true
    · have hstop : ({ r with result, passed := r.passed ++ [h] } : Run D).stop = none := hr
      rw [if_pos hpass, if_pos hpass, show Handler.mk _ _ _ = h from rfl, henact,
        Run.andThen_of_stop_eq_none hstop]
      cases child with
      | none => rfl
      | some name => simp [Handler.Body.moves, move, requests, target, Except.map]
    · rw [if_neg hpass, if_neg hpass]

/-- The chain in the handler of a decision is run as the rule that it is the chain of is
decided. -/
theorem nested_heeds {h : Handler} (hbreak : h.body.breakWhen = none) (point : ResumePoint)
    (hpoint : point ≠ .wait) {r : Run D} (hr : r.stop = none) {rule : Option InitialRule}
    (ih : ∀ q, rule = some q → ∀ {r : Run D}, r.stop = none →
      r.Heeds (ctx.runChain [] q.chain r) (ctx.decide r.copy.value q r.result)) :
    r.Heeds (ctx.nested ⟨[], h, [], point⟩ (rule.map InitialRule.chain) r)
      (rule.elim (.ok none) fun q => ctx.decide r.copy.value q r.result) := by
  have hfinish : ctx.finish ⟨[], h, [], point⟩ = id := by
    funext x
    cases point with
    | wait => exact absurd rfl hpoint
    | thenDone => simp [finish, checkBreak, hbreak]
    | elseDone => rfl
  have hid : ∀ x : Run D, x.andThen id = x := fun x => ite_self x
  unfold nested
  rw [hfinish]
  cases rule with
  | none => exact ⟨hr, rfl⟩
  | some q =>
    have henclosed := (ih q rfl hr).enclose [⟨[], h, [], point⟩]
    rw [Option.map_some, Option.elim_some]
    dsimp only
    rw [hid]
    exact henclosed

/-- A rule is decided as its chain runs, from any result, whatever was asked for before. -/
theorem runChain_heeds (rule : InitialRule) : ∀ {r : Run D}, r.stop = none →
    r.Heeds (ctx.runChain [] rule.chain r) (ctx.decide r.copy.value rule r.result) := by
  induction rule using InitialRule.induction with
  | child name =>
    intro r hr
    have hpass : ctx.passes r.copy.value r.result {} = true := rfl
    rw [InitialRule.chain, ctx.runChain_handler _ _ _ _ _ hr]
    simp only [gather, hpass, if_true, decide]
    exact ⟨rfl, rfl⟩
  | decision get guards child thenDo otherwise ihThen ihElse =>
    intro r hr
    let h := InitialRule.handler get guards child (thenDo.map InitialRule.chain)
      (otherwise.map InitialRule.chain)
    rw [InitialRule.chain_decision, ctx.runChain_handler _ _ _ _ _ hr, decide,
      ctx.gather_during .initial .result]
    cases ctx.gather .initial r.copy.value get r.result with
    | error e => rfl
    | ok result =>
      simp only [FunctionError.relabel]
      by_cases hpass : ctx.passes r.copy.value result guards = true
      · rw [if_pos hpass, if_pos hpass]
        cases child with
        | some name => exact ⟨rfl, rfl⟩
        | none =>
          have hthen := ctx.nested_heeds (h := h) rfl .thenDone (by simp)
            (r := { r with result, passed := r.passed ++ [h] }) hr ihThen
          cases thenDo <;> exact hthen
      · rw [if_neg hpass, if_neg hpass]
        have helse := ctx.nested_heeds (h := h) rfl .elseDone (by simp)
          (r := { r with result }) hr ihElse
        cases otherwise <;> exact helse

end Context

namespace InitialRule

/-- A rule and its chain agree. The rule gives a child if and only if a run of the chain asks for
the one transition to it, and gives none if and only if the run asks for none; it fails if and only
if the run does, and then in the same function and with the same text, the one in deciding an
initial rule and the other in gathering a result. -/
theorem initialChild_iff (ctx : Context D) (rule : InitialRule) (copy : WorkingCopy D) :
    let answer := ctx.initialChild copy.value rule
    let run := (ctx.run rule.chain copy).outcome
    (∀ name, answer = .ok (some name) ↔ run.map (·.requests) = .ok [⟨name, false⟩]) ∧
      (answer = .ok none ↔ run.map (·.requests) = .ok []) ∧
      (∀ name text, answer = .error ⟨.initial, name, text⟩ ↔ run = .error ⟨.result, name, text⟩) ∧
      ((∃ e, answer = .error e) ↔ ∃ e, run = .error e) ∧
      (∀ e, answer = .error e → e.stage = .initial) ∧ ∀ e, run = .error e → e.stage = .result := by
  intro answer run
  have hheeds : (Run.start copy).Heeds (ctx.run rule.chain copy) answer :=
    ctx.runChain_heeds rule rfl
  have hstage : ∀ e, answer = .error e → e.stage = .initial := fun e => ctx.stage_of_decide rule
  have houtcome : run.map (·.requests) = _ := hheeds.outcome_eq
  cases hanswer : answer with
  | error e =>
    have hrun : run = .error (e.during .result) := by
      cases hrun : run with
      | error e' => simpa [hrun, hanswer, Except.map, FunctionError.relabel] using houtcome
      | ok outcome => simp [hrun, hanswer, Except.map, FunctionError.relabel] at houtcome
    rw [hrun]
    simp only [Except.map, reduceCtorEq, Except.error.injEq, exists_eq']
    have hinitial : e.stage = .initial := hstage e hanswer
    obtain ⟨stage, fn, text⟩ := e
    subst hinitial
    simp [FunctionError.during]
  | ok child =>
    cases hrun : run with
    | error e' => simp [hrun, hanswer, Except.map, FunctionError.relabel] at houtcome
    | ok outcome =>
      have hrequests : outcome.requests = (child.map (Request.mk · false)).toList := by
        simpa [hrun, hanswer, Except.map, FunctionError.relabel] using houtcome
      simp only [Except.map, reduceCtorEq, Except.ok.injEq, exists_false, hrequests]
      cases child <;> simp

end InitialRule

end Statechart
