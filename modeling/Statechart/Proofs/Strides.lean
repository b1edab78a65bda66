/-
# The strides of a run

What a run does is a walk through what it has to do: the handlers of a chain one by one, those of a
chain in a handler before what is left of the handler, and the handler and chains around a wait when
the wait is over. On the way it takes strides: it tries a handler, whose guards may pass, and then
acts and asks for transitions, or has it break off the run, or wait (`Context.Walks`). The strides
tell all that comes of a run, so what a walk can be like says what can come of one: it ends with
the first stride that stops it, and of the handlers in it only the last one asks for transitions.

Key definitions: `Item`, `Stride`, `Context.Walks`, `Context.Leads`, `Context.Accounts`.
Key theorems: `Context.Walks.append`, `Context.Walks.closes`, `Context.runChain_leads`,
`Context.resumeFrames_leads`, `Context.strides`.
-/
import Mathlib.Data.List.Forall2
import Statechart.Machine.Step
import Statechart.Proofs.Resumption

namespace Statechart

variable {D : Type}

/-! ### Walks -/

/-- What there is to do in a run: go through a chain, run one handler of it, or see whether a
handler breaks off once its `then` chain is done. -/
inductive Item where
  | chain (handlers : Chain)
  | handler (h : Handler)
  | check (h : Handler)

/-- What happens in a run. -/
inductive Stride where
  | tries (h : Handler)
  | passes (h : Handler)
  | acts (h : Handler) (fn : Nat)
  | asks (h : Handler) (requests : List Request)
  | breaks (h : Handler)
  | waits (h : Handler)

/-- What stops a walk before all is done: it is broken off, or has to wait. -/
inductive Halt where
  | broke
  | waited
deriving DecidableEq

/-- How the stride stops the walk, if it does. -/
def Stride.halt : Stride → Option Halt
  | asks _ _ => some .broke
  | breaks _ => some .broke
  | waits _ => some .waited
  | _ => none

/-- The transitions asked for. -/
def Stride.requests : Stride → List Request
  | asks _ requests => requests
  | _ => []

/-- The events sent: a handler sends its event when its guards pass. -/
def Stride.sends : Stride → List Event
  | passes h => h.body.send.toList
  | _ => []

/-- An action that is not secret was done, or transitions were asked for that are not. -/
def Stride.obliges : Stride → Bool
  | acts _ _ => true
  | asks h _ => !h.body.targets.isEmpty
  | _ => false

/-- The strides of a handler that asks for transitions. -/
def Stride.asking (h : Handler) (requests : List Request) : List Stride :=
  .tries h :: .passes h :: (h.body.actions.map (.acts h) ++ [.asks h requests])

theorem Stride.filterMap_halt_acts (h : Handler) (is : List Nat) :
    (is.map (acts h)).filterMap halt = [] := by
  simp [List.filterMap_eq_nil_iff, halt]

theorem Stride.filterMap_halt_asking (h : Handler) (requests : List Request) :
    (asking h requests).filterMap halt = [.broke] := by
  simp only [asking, List.filterMap_cons, List.filterMap_append, filterMap_halt_acts, halt]
  rfl

theorem Stride.flatMap_requests_asking (h : Handler) (qs : List Request) :
    (asking h qs).flatMap requests = qs := by
  have hacts : (h.body.actions.map (acts h)).flatMap requests = [] := by
    simp [List.flatMap_eq_nil_iff, requests]
  simp [asking, hacts, requests]

/-- Only a stride that stops the run asks for transitions. -/
theorem Stride.requests_of_halt {x : Stride} (h : x.halt = none) : x.requests = [] := by
  cases x with
  | asks _ _ => cases h
  | _ => rfl

/-- Where a run is: its copy of the data, and the last result. -/
structure Spot (D : Type) where
  copy : WorkingCopy D
  result : Json

namespace Context

variable (ctx : Context D)

/-- Actions are done, none of which fails. -/
inductive Performs (result : Json) : List Nat → WorkingCopy D → WorkingCopy D → Prop
  | done (copy : WorkingCopy D) : Performs result [] copy copy
  | next {i : Nat} {is : List Nat} {copy copy' : WorkingCopy D} {data : D}
    (act : ctx.table.fn .action i copy.value ctx.payload result = (data, none))
    (rest : Performs result is (copy.write data) copy') : Performs result (i :: is) copy copy'

/-- The transitions for destinations, in order. -/
def Resolves (s : Spot D) (secret : Bool) : List Destination → List Request → Prop :=
  List.Forall₂ fun d q => ctx.target s.copy.value s.result d = .ok q.target ∧ q.secret = secret

variable {ctx} in
theorem Performs.unique {result : Json} {is : List Nat} {c c' c'' : WorkingCopy D}
    (h : ctx.Performs result is c c') (h' : ctx.Performs result is c c'') : c' = c'' := by
  induction h with
  | done =>
    cases h'
    rfl
  | next act _ ih =>
    cases h' with
    | next act' rest =>
      obtain ⟨rfl, -⟩ := Prod.mk.inj (act.symm.trans act')
      exact ih rest

variable {ctx} in
theorem Resolves.unique {s : Spot D} {secret : Bool} : ∀ {ds : List Destination}
    {qs qs' : List Request}, ctx.Resolves s secret ds qs → ctx.Resolves s secret ds qs' → qs = qs'
  | [], _, _, .nil, .nil => rfl
  | _ :: _, q :: _, q' :: _, .cons ⟨target, hsecret⟩ rest, .cons ⟨target', hsecret'⟩ rest' => by
    have htarget := Except.ok.inj (target.symm.trans target')
    have hq : q = q' := congrArg₂ Request.mk htarget (hsecret.trans hsecret'.symm)
    rw [hq, Resolves.unique rest rest']

/-- From one spot to another there is a walk with these strides, stopped or not. -/
inductive Walks : List Item → Spot D → List Stride → Spot D → Option Halt → Prop
  | through (s : Spot D) : Walks [] s [] s none
  | chainDone {items : List Item} {s s' : Spot D} {ss : List Stride} {e : Option Halt}
    (walk : Walks items s ss s' e) : Walks (.chain [] :: items) s ss s' e
  | waits {items : List Item} {s : Spot D} {h : Handler} {rest : Chain} {d : Delay}
    (wait : h.body.wait = some d) :
    Walks (.chain (h :: rest) :: items) s [.waits h] s (some .waited)
  | next {items : List Item} {s s' : Spot D} {h : Handler} {rest : Chain} {ss : List Stride}
    {e : Option Halt} (wait : h.body.wait = none)
    (walk : Walks (.handler h :: .chain rest :: items) s ss s' e) :
    Walks (.chain (h :: rest) :: items) s ss s' e
  | refused {items : List Item} {s s' : Spot D} {h : Handler} {result : Json} {ss : List Stride}
    {e : Option Halt} (get : ctx.gather .result s.copy.value h.body.get s.result = .ok result)
    (guards : ctx.passes s.copy.value result h.body.guards = false)
    (walk : Walks (.chain (h.otherwise.getD []) :: items) ⟨s.copy, result⟩ ss s' e) :
    Walks (.handler h :: items) s (.tries h :: ss) s' e
  | passes {items : List Item} {s s' : Spot D} {h : Handler} {result : Json}
    {copy : WorkingCopy D} {ss : List Stride} {e : Option Halt}
    (get : ctx.gather .result s.copy.value h.body.get s.result = .ok result)
    (guards : ctx.passes s.copy.value result h.body.guards = true)
    (acts : ctx.Performs result (h.body.actions ++ h.body.secretActions) s.copy copy)
    (stays : h.body.moves = false)
    (walk : Walks (.chain (h.thenDo.getD []) :: .check h :: items) ⟨copy, result⟩ ss s' e) :
    Walks (.handler h :: items) s
      (.tries h :: .passes h :: (h.body.actions.map (.acts h) ++ ss)) s' e
  | asks {items : List Item} {s : Spot D} {h : Handler} {result : Json} {copy : WorkingCopy D}
    {opens secrets : List Request}
    (get : ctx.gather .result s.copy.value h.body.get s.result = .ok result)
    (guards : ctx.passes s.copy.value result h.body.guards = true)
    (acts : ctx.Performs result (h.body.actions ++ h.body.secretActions) s.copy copy)
    (moves : h.body.moves = true)
    (targets : ctx.Resolves ⟨copy, result⟩ false h.body.targets opens)
    (secretTargets : ctx.Resolves ⟨copy, result⟩ true h.body.secretTargets secrets) :
    Walks (.handler h :: items) s
      (.tries h :: .passes h :: (h.body.actions.map (.acts h) ++ [.asks h (opens ++ secrets)]))
      ⟨copy, result⟩ (some .broke)
  | breaks {items : List Item} {s : Spot D} {h : Handler} {i : Nat}
    (check : h.body.breakWhen = some i) (holds : ctx.holds s.copy.value s.result i = true) :
    Walks (.check h :: items) s [.breaks h] s (some .broke)
  | goesOn {items : List Item} {s s' : Spot D} {h : Handler} {ss : List Stride} {e : Option Halt}
    (check : ∀ i, h.body.breakWhen = some i → ctx.holds s.copy.value s.result i = false)
    (walk : Walks items s ss s' e) : Walks (.check h :: items) s ss s' e

namespace Walks

variable {ctx} {items more : List Item} {s s' s'' : Spot D} {ss ss' : List Stride}
  {e e' : Option Halt}

/-- A walk goes on where another has ended with nothing more to do. -/
theorem append (h : ctx.Walks items s ss s' e) (he : e = none)
    (h' : ctx.Walks more s' ss' s'' e') : ctx.Walks (items ++ more) s (ss ++ ss') s'' e' := by
  induction h with
  | through => exact h'
  | chainDone _ ih => exact .chainDone (ih he h')
  | waits => cases he
  | next wait _ ih => exact .next wait (ih he h')
  | refused get guards _ ih => exact .refused get guards (ih he h')
  | passes get guards acts stays _ ih =>
    rw [List.cons_append, List.cons_append, List.cons_append, List.append_assoc]
    exact .passes get guards acts stays (ih he h')
  | asks => cases he
  | breaks => cases he
  | goesOn check _ ih => exact .goesOn check (ih he h')

/-- A walk that has been stopped leaves undone what there is to do behind it. -/
theorem append_of_stopped (h : ctx.Walks items s ss s' e) (he : e ≠ none) (more : List Item) :
    ctx.Walks (items ++ more) s ss s' e := by
  induction h with
  | through => exact absurd rfl he
  | chainDone _ ih => exact .chainDone (ih he)
  | waits wait => exact .waits wait
  | next wait _ ih => exact .next wait (ih he)
  | refused get guards _ ih => exact .refused get guards (ih he)
  | passes get guards acts stays _ ih => exact .passes get guards acts stays (ih he)
  | asks get guards acts moves targets secretTargets =>
    exact .asks get guards acts moves targets secretTargets
  | breaks check holds => exact .breaks check holds
  | goesOn check _ ih => exact .goesOn check (ih he)

/-- From a spot there is one walk. -/
theorem unique (h : ctx.Walks items s ss s' e) (h' : ctx.Walks items s ss' s'' e') :
    ss = ss' ∧ s' = s'' ∧ e = e' := by
  induction h generalizing ss' s'' e' with
  | through =>
    cases h'
    exact ⟨rfl, rfl, rfl⟩
  | chainDone _ ih =>
    cases h' with
    | chainDone walk => exact ih walk
  | waits wait =>
    cases h' with
    | waits => exact ⟨rfl, rfl, rfl⟩
    | next wait' _ => simp [wait] at wait'
  | next wait _ ih =>
    cases h' with
    | waits wait' => simp [wait] at wait'
    | next _ walk => exact ih walk
  | refused get guards _ ih =>
    cases h' with
    | refused get' _ walk =>
      obtain rfl := Except.ok.inj (get.symm.trans get')
      obtain ⟨rfl, hrest⟩ := ih walk
      exact ⟨rfl, hrest⟩
    | passes get' guards' | asks get' guards' =>
      obtain rfl := Except.ok.inj (get.symm.trans get')
      simp [guards] at guards'
  | passes get guards acts stays _ ih =>
    cases h' with
    | refused get' guards' =>
      obtain rfl := Except.ok.inj (get.symm.trans get')
      simp [guards] at guards'
    | passes get' _ acts' _ walk =>
      obtain rfl := Except.ok.inj (get.symm.trans get')
      obtain rfl := acts.unique acts'
      obtain ⟨rfl, hrest⟩ := ih walk
      exact ⟨rfl, hrest⟩
    | asks _ _ _ moves => simp [stays] at moves
  | asks get guards acts moves targets secretTargets =>
    cases h' with
    | refused get' guards' =>
      obtain rfl := Except.ok.inj (get.symm.trans get')
      simp [guards] at guards'
    | passes _ _ _ stays => simp [moves] at stays
    | asks get' _ acts' _ targets' secretTargets' =>
      obtain rfl := Except.ok.inj (get.symm.trans get')
      obtain rfl := acts.unique acts'
      obtain rfl := targets.unique targets'
      obtain rfl := secretTargets.unique secretTargets'
      exact ⟨rfl, rfl, rfl⟩
  | breaks check holds =>
    cases h' with
    | breaks => exact ⟨rfl, rfl, rfl⟩
    | goesOn check' => simp [check' _ check] at holds
  | goesOn check _ ih =>
    cases h' with
    | breaks check' holds => simp [check _ check'] at holds
    | goesOn _ walk => exact ih walk

/-- A walk has one stride that stops it if it was stopped, and else none. -/
theorem filterMap_halt (h : ctx.Walks items s ss s' e) : ss.filterMap Stride.halt = e.toList := by
  induction h with
  | through => rfl
  | chainDone _ ih => exact ih
  | waits => rfl
  | next _ _ ih => exact ih
  | refused _ _ _ ih => simpa [List.filterMap_cons, Stride.halt] using ih
  | passes _ _ _ _ _ ih =>
    simp only [List.filterMap_cons, List.filterMap_append, Stride.filterMap_halt_acts, Stride.halt]
    exact ih
  | asks => exact Stride.filterMap_halt_asking _ _
  | breaks => rfl
  | goesOn _ _ ih => exact ih

/-- Where transitions are asked for, the walk is at its end, and the handler that asks is the last
one tried. -/
theorem asks_last {h : Handler} {requests : List Request} (walk : ctx.Walks items s ss s' e)
    (hmem : .asks h requests ∈ ss) : ∃ front opens secrets,
      ss = front ++ Stride.asking h requests ∧ requests = opens ++ secrets ∧
        ctx.Resolves s' false h.body.targets opens ∧
        ctx.Resolves s' true h.body.secretTargets secrets := by
  induction walk with
  | through => cases hmem
  | chainDone _ ih => exact ih hmem
  | waits => simp at hmem
  | next _ _ ih => exact ih hmem
  | @refused _ _ _ g _ ss _ _ _ _ ih =>
    obtain ⟨front, opens, secrets, rfl, hrequests⟩ := ih (by simpa using hmem)
    exact ⟨.tries g :: front, opens, secrets, rfl, hrequests⟩
  | @passes _ _ _ g _ _ ss _ _ _ _ _ _ ih =>
    obtain ⟨front, opens, secrets, rfl, hrequests⟩ := ih (by simpa using hmem)
    refine ⟨.tries g :: .passes g :: (g.body.actions.map (.acts g) ++ front), opens, secrets, ?_,
      hrequests⟩
    simp
  | asks _ _ _ _ targets secretTargets =>
    obtain ⟨rfl, rfl⟩ : h = _ ∧ requests = _ := by simpa using hmem
    exact ⟨[], _, _, rfl, rfl, targets, secretTargets⟩
  | breaks => simp at hmem
  | goesOn _ _ ih => exact ih hmem

end Walks

end Context

/-! ### Runs that walk -/

/-- A run that has not failed goes on or has stopped as a walk has. -/
def Halt.Fits : Option Halt → Option Stop → Prop
  | none, none => True
  | some .broke, some .broke => True
  | some .waited, some (.suspended _) => True
  | _, _ => False

theorem Halt.Fits.broke_iff {e : Option Halt} {r : Run D} (h : Fits e r.stop) :
    r.broke = true ↔ e = some .broke := by
  unfold Run.broke
  rcases e with _ | _ | _ <;> rcases hs : r.stop with _ | _ | c | failure <;> simp_all [Fits]

theorem Halt.Fits.continuation?_iff {e : Option Halt} {r : Run D} (h : Fits e r.stop) :
    r.continuation?.isSome = true ↔ e = some .waited := by
  unfold Run.continuation?
  rcases e with _ | _ | _ <;> rcases hs : r.stop with _ | _ | c | failure <;> simp_all [Fits]

def Run.spot (r : Run D) : Spot D := ⟨r.copy, r.result⟩

/-- The later run has what the earlier one has collected and what the strides add to it, and it has
stopped as a walk with them does. -/
structure Run.Takes (r r' : Run D) (ss : List Stride) (e : Option Halt) : Prop where
  requests : r'.requests = r.requests ++ ss.flatMap Stride.requests
  sends : r'.sends = r.sends ++ ss.flatMap Stride.sends
  notify : r'.notify = (r.notify || ss.any Stride.obliges)
  stop : Halt.Fits e r'.stop

namespace Run.Takes

variable {r r' r'' : Run D} {ss ss' : List Stride} {e e' : Option Halt}

/-- A run that does nothing takes no strides. -/
theorem refl {r : Run D} (hr : r.stop = none) : r.Takes r [] none where
  requests := by simp
  sends := by simp
  notify := by simp
  stop := by simp [hr, Halt.Fits]

theorem trans (h : r.Takes r' ss e) (h' : r'.Takes r'' ss' e') : r.Takes r'' (ss ++ ss') e' where
  requests := by rw [h'.requests, h.requests, List.flatMap_append, List.append_assoc]
  sends := by rw [h'.sends, h.sends, List.flatMap_append, List.append_assoc]
  notify := by rw [h'.notify, h.notify, List.any_append, Bool.or_assoc]
  stop := h'.stop

theorem stop_eq_none (h : r.Takes r' ss none) : r'.stop = none := by
  have hstop := h.stop
  cases hs : r'.stop with
  | none => rfl
  | some s => simp [hs, Halt.Fits] at hstop

theorem isStopped {halt : Halt} (h : r.Takes r' ss (some halt)) : r'.isStopped = true := by
  have hstop := h.stop
  cases hs : r'.stop with
  | none => cases halt <;> simp [hs, Halt.Fits] at hstop
  | some s => exact Run.isStopped_of_stop_eq_some hs

end Run.Takes

namespace Context

variable (ctx : Context D)

/-- From one run to another through what there is to do: the other has failed, or there is a walk
whose strides tell what it comes to. -/
def Leads (items : List Item) (r r' : Run D) : Prop :=
  (∃ e, r'.stop = some (.failed e)) ∨
    ∃ ss e, ctx.Walks items r.spot ss r'.spot e ∧ r.Takes r' ss e

namespace Leads

variable {ctx} {items more : List Item} {r r' : Run D}

/-- One thing after another. -/
theorem andThen (h : ctx.Leads items r r') {f : Run D → Run D}
    (hf : r'.stop = none → ctx.Leads more r' (f r')) :
    ctx.Leads (items ++ more) r (r'.andThen f) := by
  rcases h with ⟨e, he⟩ | ⟨ss, _ | halt, hwalk, htakes⟩
  · rw [Run.andThen_of_isStopped (Run.isStopped_of_stop_eq_some he)]
    exact Or.inl ⟨e, he⟩
  · have hnone := htakes.stop_eq_none
    rw [Run.andThen_of_stop_eq_none hnone]
    rcases hf hnone with hfailed | ⟨ss', e, hwalk', htakes'⟩
    · exact Or.inl hfailed
    · exact Or.inr ⟨ss ++ ss', e, hwalk.append rfl hwalk', htakes.trans htakes'⟩
  · rw [Run.andThen_of_isStopped htakes.isStopped]
    exact Or.inr ⟨ss, some halt, hwalk.append_of_stopped (by simp) more, htakes⟩

theorem enclose (h : ctx.Leads items r r') (outer : List Frame) :
    ctx.Leads items r (r'.enclose outer) := by
  unfold Run.enclose
  split
  · rename_i c hstop
    rcases h with ⟨e, he⟩ | ⟨ss, e, hwalk, htakes⟩
    · rw [hstop] at he
      cases he
    · have hfits : Halt.Fits e (some (.suspended { c with frames := c.frames ++ outer })) := by
        have h := htakes.stop
        rw [hstop] at h
        rcases e with _ | _ | _ <;> exact h
      exact Or.inr ⟨ss, e, hwalk, { htakes with stop := hfits }⟩
  · exact h

/-- What a walk begins with adds to what it comes to. -/
theorem prepend {r₀ : Run D} (h : ctx.Leads more r r') (first : List Stride)
    (hfirst : r₀.Takes r first none)
    (hwalk : ∀ ss s e, ctx.Walks more r.spot ss s e → ctx.Walks items r₀.spot (first ++ ss) s e) :
    ctx.Leads items r₀ r' := by
  rcases h with hfailed | ⟨ss, e, hwalk', htakes⟩
  · exact Or.inl hfailed
  · exact Or.inr ⟨first ++ ss, e, hwalk _ _ _ hwalk', hfirst.trans htakes⟩

end Leads

theorem leads_chainDone {items : List Item} {r r' : Run D} (h : ctx.Leads items r r') :
    ctx.Leads (.chain [] :: items) r r' := by
  rcases h with hfailed | ⟨ss, e, hwalk, htakes⟩
  · exact Or.inl hfailed
  · exact Or.inr ⟨ss, e, .chainDone hwalk, htakes⟩

/-! ### What a handler does when its guards pass -/

theorem Performs.append {result : Json} {is js : List Nat} {c c' c'' : WorkingCopy D}
    (h : ctx.Performs result is c c') (h' : ctx.Performs result js c' c'') :
    ctx.Performs result (is ++ js) c c'' := by
  induction h with
  | done => exact h'
  | next act _ ih => exact .next act (ih h')

/-- The strides of actions. Secret ones take none. -/
def actStrides (h : Handler) (stage : Purpose) (is : List Nat) : List Stride :=
  if stage = .action then is.map (.acts h) else []

/-- Actions fail, or all of them are done. -/
theorem act_takes (h : Handler) (stage : Purpose) : ∀ (is : List Nat) {r : Run D}, r.stop = none →
    (∃ e, (ctx.act stage is r).stop = some (.failed e)) ∨
      (ctx.act stage is r).result = r.result ∧
        ctx.Performs r.result is r.copy (ctx.act stage is r).copy ∧
        r.Takes (ctx.act stage is r) (actStrides h stage is) none
  | [], r, hr => by
    have hstrides : actStrides h stage [] = [] := by
      unfold actStrides
      split <;> rfl
    rw [hstrides]
    exact Or.inr ⟨rfl, .done r.copy, .refl hr⟩
  | i :: is, r, hr => by
    unfold act
    rcases hfn : ctx.table.fn .action i r.copy.value ctx.payload r.result with ⟨data, _ | text⟩
    · have first : r.Takes
          { r with copy := r.copy.write data, notify := r.notify || stage = .action }
          (actStrides h stage [i]) none := by
        refine ⟨?_, ?_, ?_, ?_⟩ <;> by_cases hstage : stage = .action <;>
          simp [actStrides, hstage, hr, Stride.requests, Stride.sends, Stride.obliges, Halt.Fits]
      have hstrides : actStrides h stage [i] ++ actStrides h stage is =
          actStrides h stage (i :: is) := by
        unfold actStrides
        split <;> rfl
      rcases act_takes h stage is (r := { r with
          copy := r.copy.write data, notify := r.notify || stage = .action }) hr with
        hfailed | ⟨hresult, hperforms, htakes⟩
      · exact Or.inl hfailed
      · exact Or.inr ⟨hresult, .next hfn hperforms, hstrides ▸ first.trans htakes⟩
    · exact Or.inl ⟨_, rfl⟩

/-- A handler whose guards pass fails as it acts, or does all its actions and sends its event. -/
theorem enact_takes (h : Handler) {r : Run D} (hr : r.stop = none) :
    (∃ e, (ctx.enact h r).stop = some (.failed e)) ∨
      (ctx.enact h r).result = r.result ∧
        ctx.Performs r.result (h.body.actions ++ h.body.secretActions) r.copy (ctx.enact h r).copy ∧
        r.Takes (ctx.enact h r) (.passes h :: h.body.actions.map (.acts h)) none := by
  rw [enact_eq]
  rcases ctx.act_takes h .action h.body.actions (r := { r with passed := r.passed ++ [h] }) hr with
    ⟨e, he⟩ | ⟨hresult, hperforms, htakes⟩
  · rw [Run.andThen_of_isStopped (Run.isStopped_of_stop_eq_some he)]
    exact Or.inl ⟨e, he⟩
  · rw [Run.andThen_of_stop_eq_none htakes.stop_eq_none]
    rcases ctx.act_takes h .secretAction h.body.secretActions htakes.stop_eq_none with
      ⟨e, he⟩ | ⟨hresult', hperforms', htakes'⟩
    · rw [Run.andThen_of_isStopped (Run.isStopped_of_stop_eq_some he)]
      exact Or.inl ⟨e, he⟩
    · rw [Run.andThen_of_stop_eq_none htakes'.stop_eq_none]
      rw [hresult] at hperforms'
      refine Or.inr ⟨hresult'.trans hresult, hperforms.append ctx hperforms', ?_⟩
      have hboth := htakes.trans htakes'
      have hsends : (h.body.actions.map (Stride.acts h)).flatMap Stride.sends = [] := by
        simp [List.flatMap_eq_nil_iff, Stride.sends]
      simp only [actStrides, if_true, reduceCtorEq, if_false, List.append_nil] at hboth
      constructor
      case requests => simpa [Stride.requests] using hboth.requests
      case sends => simp [hboth.sends, hsends, Stride.sends]
      case notify => simpa [Stride.obliges] using hboth.notify
      case stop => exact hboth.stop

theorem resolves_of_requests {s : Spot D} {secret : Bool} : ∀ {ds : List Destination}
    {qs : List Request}, ctx.requests s.copy.value s.result secret ds = .ok qs →
      ctx.Resolves s secret ds qs
  | [], qs, h => by
    obtain rfl : [] = qs := by simpa [requests] using h
    exact .nil
  | d :: ds, qs, h => by
    rw [requests] at h
    split at h
    · cases h
    · rename_i target htarget
      cases hrest : ctx.requests s.copy.value s.result secret ds with
      | error e => simp [hrest, Except.map] at h
      | ok rest =>
        obtain rfl : ⟨target, secret⟩ :: rest = qs := by simpa [hrest, Except.map] using h
        exact .cons ⟨htarget, rfl⟩ (resolves_of_requests hrest)

/-- Asking for transitions fails, or it is the last stride. -/
theorem move_takes (h : Handler) (r : Run D) :
    (∃ e, (ctx.move h.body r).stop = some (.failed e)) ∨
      ∃ opens secrets, (ctx.move h.body r).spot = r.spot ∧
        ctx.Resolves r.spot false h.body.targets opens ∧
        ctx.Resolves r.spot true h.body.secretTargets secrets ∧
        r.Takes (ctx.move h.body r) [.asks h (opens ++ secrets)] (some .broke) := by
  unfold move
  split
  · exact Or.inl ⟨_, rfl⟩
  · exact Or.inl ⟨_, rfl⟩
  · rename_i opens secrets hopens hsecrets
    refine Or.inr ⟨opens, secrets, rfl, ctx.resolves_of_requests (s := r.spot) hopens,
      ctx.resolves_of_requests (s := r.spot) hsecrets, ?_⟩
    constructor <;> simp [Stride.requests, Stride.sends, Stride.obliges, Halt.Fits]

/-! ### Chains, frames and stacks of frames -/

theorem checkBreak_leads (h : Handler) {r : Run D} (hr : r.stop = none) :
    ctx.Leads [.check h] r (ctx.checkBreak h.body r) := by
  have hthrough : (∀ i, h.body.breakWhen = some i → ctx.holds r.copy.value r.result i = false) →
      ctx.Leads [.check h] r r := fun hnone =>
    Or.inr ⟨[], none, .goesOn hnone (.through r.spot), .refl hr⟩
  unfold checkBreak
  cases hbreak : h.body.breakWhen with
  | none => exact hthrough fun i hi => by simp [hbreak] at hi
  | some i =>
    by_cases hholds : ctx.holds r.copy.value r.result i = true
    · simp only [hholds, if_true]
      refine Or.inr ⟨[.breaks h], some .broke, .breaks hbreak hholds, ?_⟩
      constructor <;> simp [Stride.requests, Stride.sends, Stride.obliges, Halt.Fits]
    · simp only [hholds]
      exact hthrough fun j hj => by
        obtain rfl : i = j := by simpa [hbreak] using hj
        simpa using hholds

end Context

/-- What there is to do of a handler where a frame goes on with it. -/
def ResumePoint.items (h : Handler) : ResumePoint → List Item
  | .wait => [.handler h]
  | .thenDone => [.check h]
  | .elseDone => []

/-- What there is to do of a frame: the rest of its handler, and the handlers after it. -/
def Frame.items (f : Frame) : List Item := f.point.items f.handler ++ [.chain f.rest]

namespace Context

variable (ctx : Context D)

theorem nested_leads {f : Frame} (hf : f.point ≠ .wait) {chain : Option Chain}
    (ih : ∀ c, chain = some c → ∀ before {r : Run D}, r.stop = none →
      ctx.Leads [.chain c] r (ctx.runChain before c r)) {r : Run D} (hr : r.stop = none) :
    ctx.Leads (.chain (chain.getD []) :: f.point.items f.handler) r (ctx.nested f chain r) := by
  have hfinish : ∀ {x : Run D}, x.stop = none →
      ctx.Leads (f.point.items f.handler) x (ctx.finish f x) := by
    intro x hx
    unfold finish
    cases hpoint : f.point with
    | wait => exact absurd hpoint hf
    | thenDone => exact ctx.checkBreak_leads f.handler hx
    | elseDone => exact Or.inr ⟨[], none, .through x.spot, .refl hx⟩
  cases chain with
  | none => exact ctx.leads_chainDone (hfinish hr)
  | some c =>
    have hchain := (ih c rfl [] hr).enclose [f]
    exact hchain.andThen hfinish

theorem runHandler_leads {body : Handler.Body} {thenDo otherwise : Option Chain}
    (ihThen : ∀ c, thenDo = some c → ∀ before {r : Run D}, r.stop = none →
      ctx.Leads [.chain c] r (ctx.runChain before c r))
    (ihElse : ∀ c, otherwise = some c → ∀ before {r : Run D}, r.stop = none →
      ctx.Leads [.chain c] r (ctx.runChain before c r))
    (before rest : List Handler) {r : Run D} (hr : r.stop = none) :
    ctx.Leads [.handler (.mk body thenDo otherwise)] r
      (ctx.runHandler before rest (.mk body thenDo otherwise) r) := by
  let h := Handler.mk body thenDo otherwise
  rw [runHandler_eq]
  cases hget : ctx.gather .result r.copy.value body.get r.result with
  | error e => exact Or.inl ⟨e, rfl⟩
  | ok result =>
    have htries : r.Takes { r with result } [.tries h] none := by
      constructor <;> simp [Stride.requests, Stride.sends, Stride.obliges, Halt.Fits, hr]
    simp only
    by_cases hguards : ctx.passes r.copy.value result body.guards = true
    · rw [if_pos hguards]
      rcases ctx.enact_takes h (r := { r with result }) hr with
        ⟨e, he⟩ | ⟨hresult, hperforms, htakes⟩
      · rw [Run.andThen_of_isStopped (Run.isStopped_of_stop_eq_some he)]
        exact Or.inl ⟨e, he⟩
      · rw [Run.andThen_of_stop_eq_none htakes.stop_eq_none]
        have hpasses := htries.trans htakes
        have hspot : (ctx.enact h { r with result }).spot =
            ⟨(ctx.enact h { r with result }).copy, result⟩ := by rw [Run.spot, hresult]
        by_cases hmoves : body.moves = true
        · rw [if_pos hmoves]
          rcases ctx.move_takes h (ctx.enact h { r with result }) with
            hfailed | ⟨opens, secrets, hmoved, hopens, hsecrets, hasks⟩
          · exact Or.inl hfailed
          · rw [hspot] at hmoved hopens hsecrets
            have hwalk : ctx.Walks [.handler h] r.spot (Stride.asking h (opens ++ secrets))
                ⟨(ctx.enact h { r with result }).copy, result⟩ (some .broke) :=
              .asks hget hguards hperforms hmoves hopens hsecrets
            exact Or.inr ⟨_, _, hmoved ▸ hwalk, hpasses.trans hasks⟩
        · rw [if_neg hmoves]
          have hthen := ctx.nested_leads (f := ⟨before, h, rest, .thenDone⟩) (by simp) ihThen
            htakes.stop_eq_none
          refine hthen.prepend _ hpasses fun ss s e hwalk => ?_
          rw [hspot] at hwalk
          exact .passes hget hguards hperforms (Bool.eq_false_iff.mpr hmoves) hwalk
    · rw [if_neg hguards]
      have helse := ctx.nested_leads (f := ⟨before, h, rest, .elseDone⟩) (by simp) ihElse
        (r := { r with result }) hr
      exact helse.prepend [.tries h] htries fun ss s e hwalk =>
        .refused hget (Bool.eq_false_iff.mpr hguards) hwalk

/-- What a run of a chain comes to is told by a walk through the chain. -/
theorem runChain_leads (chain : Chain) : ∀ (before : List Handler) {r : Run D}, r.stop = none →
    ctx.Leads [.chain chain] r (ctx.runChain before chain r) := by
  induction chain using Chain.induction with
  | nil =>
    intro before r hr
    exact Or.inr ⟨[], none, .chainDone (.through r.spot), .refl hr⟩
  | cons body thenDo otherwise rest ihThen ihElse ih =>
    intro before r hr
    cases hwait : body.wait with
    | some d =>
      simp only [runChain, Handler.body, hwait]
      refine Or.inr ⟨[.waits (.mk body thenDo otherwise)], some .waited, .waits hwait, ?_⟩
      constructor <;> simp [Stride.requests, Stride.sends, Stride.obliges, Halt.Fits]
    | none =>
      rw [ctx.runChain_cons (h := .mk body thenDo otherwise) hwait]
      have hfirst : ctx.Leads [.handler (.mk body thenDo otherwise)] r
          (ctx.runHandler before rest (.mk body thenDo otherwise) r) :=
        ctx.runHandler_leads ihThen ihElse before rest hr
      have hall := hfirst.andThen (ih (before ++ [.mk body thenDo otherwise]))
      rcases hall with hfailed | ⟨ss, e, hwalk, htakes⟩
      · exact Or.inl hfailed
      · exact Or.inr ⟨ss, e, .next hwait hwalk, htakes⟩

theorem resumeFrame_leads (f : Frame) {r : Run D} (hr : r.stop = none) :
    ctx.Leads f.items r (ctx.resumeFrame f r) := by
  rw [resumeFrame_eq]
  refine Leads.andThen ?_ (ctx.runChain_leads f.rest _)
  unfold finish
  cases hpoint : f.point with
  | wait =>
    obtain ⟨body, thenDo, otherwise⟩ := f.handler
    exact ctx.runHandler_leads (fun c _ => ctx.runChain_leads c) (fun c _ => ctx.runChain_leads c)
      f.before f.rest hr
  | thenDone => exact ctx.checkBreak_leads f.handler hr
  | elseDone => exact Or.inr ⟨[], none, .through r.spot, .refl hr⟩

/-- What is left of a chain is a walk through the frames, the innermost first. -/
theorem resumeFrames_leads : ∀ (frames : List Frame) {r : Run D}, r.stop = none →
    ctx.Leads (frames.flatMap Frame.items) r (ctx.resumeFrames frames r)
  | [], r, hr => Or.inr ⟨[], none, .through r.spot, .refl hr⟩
  | f :: outer, r, hr => by
    have hsplit := ctx.resumeFrames_append [f] outer hr
    rw [resumeFrames_singleton, List.singleton_append] at hsplit
    rw [hsplit, List.flatMap_cons]
    exact ((ctx.resumeFrame_leads f hr).enclose outer).andThen fun hx => resumeFrames_leads outer hx

/-! ### What comes of a run -/

/-- The strides of a walk from a spot account for a run. -/
structure Accounts (items : List Item) (s : Spot D) (r : Run D) (ss : List Stride) : Prop where
  walk : ∃ e, ctx.Walks items s ss r.spot e
  unique : ∀ ss' s' e, ctx.Walks items s ss' s' e → ss' = ss
  /-- No more than one stride stops the run: by a break, or for a wait. -/
  once : (ss.filterMap Stride.halt).length ≤ 1
  broke : r.broke = true ↔ ∃ x ∈ ss, x.halt = some .broke
  suspended : r.continuation?.isSome = true ↔ ∃ x ∈ ss, x.halt = some .waited
  exclusive : ¬ (r.broke = true ∧ r.continuation?.isSome = true)
  /-- Transitions are asked for by one handler, the last one that is tried: those to its targets
  and then the secret ones, as they are when its actions are done. -/
  transitions : (r.requests = [] ∧ ∀ h requests, .asks h requests ∉ ss) ∨
    ∃ h front opens secrets, ss = front ++ Stride.asking h r.requests ∧ r.broke = true ∧
      r.requests = opens ++ secrets ∧ ctx.Resolves r.spot false h.body.targets opens ∧
      ctx.Resolves r.spot true h.body.secretTargets secrets
  notify : r.notify = true ↔ (∃ h fn, .acts h fn ∈ ss) ∨
    ∃ h requests, .asks h requests ∈ ss ∧ h.body.targets ≠ []
  sends : r.sends = ss.flatMap Stride.sends

/-- The runs for an event have no transitions, or the last one has all of them, from the last
handler that is tried in it. -/
def OneAsks (chains : List (Lease × Chain)) (copy : WorkingCopy D) : Prop :=
  Machine.requestsOf (Machine.traverse ctx chains copy) = [] ∨
    ∃ front owner chain copy' ss h,
      Machine.traverse ctx chains copy = front ++ [(owner, ctx.run chain copy')] ∧
        (∀ r ∈ front, r.2.requests = []) ∧
        ctx.Accounts [.chain chain] ⟨copy', .null⟩ (ctx.run chain copy') ss ∧
        ss.getLast? = some (.asks h (Machine.requestsOf (Machine.traverse ctx chains copy)))

variable {ctx}

/-- The transitions of a run that began with none are those of the last handler that was tried, or
nobody asked for any. -/
theorem Walks.transitions {items : List Item} {r₀ r : Run D} {ss : List Stride} {e : Option Halt}
    (hwalk : ctx.Walks items r₀.spot ss r.spot e) (htakes : r₀.Takes r ss e)
    (requests : r₀.requests = []) : (r.requests = [] ∧ ∀ h qs, .asks h qs ∉ ss) ∨
      ∃ h front opens secrets, ss = front ++ Stride.asking h r.requests ∧ r.broke = true ∧
        r.requests = opens ++ secrets ∧ ctx.Resolves r.spot false h.body.targets opens ∧
        ctx.Resolves r.spot true h.body.secretTargets secrets := by
  have hrequests : r.requests = ss.flatMap Stride.requests := by
    simpa [requests] using htakes.requests
  by_cases hasks : ∃ h qs, .asks h qs ∈ ss
  · obtain ⟨h, qs, hmem⟩ := hasks
    obtain ⟨front, opens, secrets, hss, hqs, hopens, hsecrets⟩ := hwalk.asks_last hmem
    have hhalts := hwalk.filterMap_halt
    rw [hss, List.filterMap_append, Stride.filterMap_halt_asking] at hhalts
    obtain ⟨hfront, rfl⟩ : front.filterMap Stride.halt = [] ∧ e = some .broke := by
      cases e with
      | none => simp at hhalts
      | some halt =>
        have hlength := congrArg List.length hhalts
        have hfront : front.filterMap Stride.halt = [] := by
          rw [← List.length_eq_zero_iff]
          simp only [List.length_append, List.length_singleton, Option.toList_some] at hlength
          omega
        rw [hfront] at hhalts
        exact ⟨hfront, by simpa using hhalts.symm⟩
    have hquiet : front.flatMap Stride.requests = [] := by
      rw [List.flatMap_eq_nil_iff]
      exact fun x hx => Stride.requests_of_halt (List.filterMap_eq_nil_iff.mp hfront x hx)
    have heq : r.requests = qs := by
      rw [hrequests, hss, List.flatMap_append, hquiet, Stride.flatMap_requests_asking,
        List.nil_append]
    rw [heq]
    have hbroke := htakes.stop.broke_iff.mpr rfl
    exact Or.inr ⟨h, front, opens, secrets, hss, hbroke, hqs, hopens, hsecrets⟩
  · refine Or.inl ⟨?_, fun h qs hmem => hasks ⟨h, qs, hmem⟩⟩
    rw [hrequests, List.flatMap_eq_nil_iff]
    intro x hx
    cases x with
    | asks h qs => exact absurd ⟨h, qs, hx⟩ hasks
    | _ => rfl

/-- A run that began with nothing collected is accounted for, unless it fails. -/
theorem Leads.exists_accounts {items : List Item} {r₀ r : Run D} (h : ctx.Leads items r₀ r)
    (requests : r₀.requests = []) (sends : r₀.sends = []) (notify : r₀.notify = false)
    (ok : ∀ e, r.stop ≠ some (.failed e)) : ∃ ss, ctx.Accounts items r₀.spot r ss := by
  rcases h with ⟨e, he⟩ | ⟨ss, e, hwalk, htakes⟩
  · exact absurd he (ok e)
  · have hhalts := hwalk.filterMap_halt
    have hhalt : ∀ halt, (∃ x ∈ ss, x.halt = some halt) ↔ e = some halt := fun halt => by
      rw [← List.mem_filterMap, hhalts, Option.mem_toList]
    have hbroke := htakes.stop.broke_iff
    have hwaited := htakes.stop.continuation?_iff
    refine ⟨ss, ?_⟩
    constructor
    case walk => exact ⟨e, hwalk⟩
    case unique => exact fun ss' s' e' hwalk' => (hwalk'.unique hwalk).1
    case once =>
      rw [hhalts]
      cases e <;> simp
    case broke => rw [hhalt, hbroke]
    case suspended => rw [hhalt, hwaited]
    case exclusive =>
      rw [hbroke, hwaited]
      rintro ⟨rfl, h⟩
      cases h
    case transitions => exact hwalk.transitions htakes requests
    case notify =>
      rw [htakes.notify, notify, Bool.false_or, List.any_eq_true]
      constructor
      · rintro ⟨x, hx, hobliges⟩
        cases x with
        | acts h fn => exact Or.inl ⟨h, fn, hx⟩
        | asks h qs => exact Or.inr ⟨h, qs, hx, by simpa [Stride.obliges] using hobliges⟩
        | _ => cases hobliges
      · rintro (⟨h, fn, hx⟩ | ⟨h, qs, hx, htargets⟩)
        · exact ⟨_, hx, rfl⟩
        · exact ⟨_, hx, by simpa [Stride.obliges] using htargets⟩
    case sends => rw [htakes.sends, sends, List.nil_append]

/-- A run of a chain that does not fail is accounted for. -/
theorem run_accounts (chain : Chain) (copy : WorkingCopy D) (result : Json)
    (ok : ∀ e, (ctx.run chain copy result).stop ≠ some (.failed e)) :
    ∃ ss, ctx.Accounts [.chain chain] ⟨copy, result⟩ (ctx.run chain copy result) ss :=
  (ctx.runChain_leads chain [] rfl).exists_accounts rfl rfl rfl ok

/-- A run that broke off is the last one for an event. -/
theorem traverse_of_broke (owner : Lease) {chain : Chain} {copy : WorkingCopy D}
    (h : (ctx.run chain copy).broke = true) (rest : List (Lease × Chain)) :
    Machine.traverse ctx ((owner, chain) :: rest) copy = [(owner, ctx.run chain copy)] := by
  have hstop : (ctx.run chain copy).stop = some .broke := by
    unfold Run.broke at h
    split at h
    · assumption
    · cases h
  rw [Machine.traverse, hstop]

theorem traverse_of_not_broke (owner : Lease) {chain : Chain} {copy : WorkingCopy D}
    (h : ¬ (ctx.run chain copy).broke = true)
    (ok : ∀ e, (ctx.run chain copy).stop ≠ some (.failed e))
    (rest : List (Lease × Chain)) : Machine.traverse ctx ((owner, chain) :: rest) copy =
      (owner, ctx.run chain copy) :: Machine.traverse ctx rest (ctx.run chain copy).copy := by
  rw [Machine.traverse]
  split
  · rename_i e hfailed
    exact absurd hfailed (ok e)
  · rename_i hbroke
    exact absurd (by rw [Run.broke, hbroke]) h
  · rfl

theorem getLast?_asking (front : List Stride) (h : Handler) (requests : List Request) :
    (front ++ Stride.asking h requests).getLast? = some (.asks h requests) := by
  have hsplit : front ++ Stride.asking h requests =
      (front ++ .tries h :: .passes h :: h.body.actions.map (.acts h)) ++ [.asks h requests] := by
    simp [Stride.asking]
  rw [hsplit, List.getLast?_concat]

/-- Of the runs for an event the last one alone may have transitions, if none fails. -/
theorem requestsOf_traverse : ∀ {chains : List (Lease × Chain)} {copy : WorkingCopy D},
    (∀ r ∈ Machine.traverse ctx chains copy, ∀ e, r.2.stop ≠ some (.failed e)) →
      ctx.OneAsks chains copy
  | [], _, _ => Or.inl rfl
  | (owner, chain) :: rest, copy, ok => by
    have hcons : ∀ runs, Machine.requestsOf ((owner, ctx.run chain copy) :: runs) =
        (ctx.run chain copy).requests ++ Machine.requestsOf runs := fun _ => List.flatMap_cons
    by_cases hbroke : (ctx.run chain copy).broke = true
    · have hruns := traverse_of_broke owner hbroke rest
      have hrequests : Machine.requestsOf [(owner, ctx.run chain copy)] =
          (ctx.run chain copy).requests := (hcons []).trans (List.append_nil _)
      unfold OneAsks
      rw [hruns] at ok ⊢
      rw [hrequests]
      obtain ⟨ss, hss⟩ := ctx.run_accounts chain copy .null (ok _ List.mem_cons_self)
      rcases hss.transitions with ⟨hnone, -⟩ | ⟨h, front, opens, secrets, heq, -⟩
      · exact Or.inl hnone
      · refine Or.inr ⟨[], owner, chain, copy, ss, h, rfl, nofun, hss, ?_⟩
        rw [heq, getLast?_asking]
    · have hself : ∀ e, (ctx.run chain copy).stop ≠ some (.failed e) := by
        refine ok (owner, ctx.run chain copy) ?_
        rw [Machine.traverse]
        split <;> simp
      have hruns := traverse_of_not_broke owner hbroke hself rest
      obtain ⟨ss, hss⟩ := ctx.run_accounts chain copy .null hself
      have hnone : (ctx.run chain copy).requests = [] := by
        rcases hss.transitions with ⟨hnone, -⟩ | ⟨h, front, opens, secrets, -, hbroke', -⟩
        · exact hnone
        · exact absurd hbroke' hbroke
      unfold OneAsks
      rw [hruns] at ok ⊢
      rw [hcons, hnone, List.nil_append]
      rcases requestsOf_traverse fun r hr => ok r (List.mem_cons_of_mem _ hr) with
        hrest | ⟨front, owner', chain', copy', ss', h, heq, hfront, hacc, hlast⟩
      · exact Or.inl hrest
      · refine Or.inr ⟨(owner, ctx.run chain copy) :: front, owner', chain', copy', ss', h, ?_, ?_,
          hacc, hlast⟩
        · rw [heq, List.cons_append]
        · exact List.forall_mem_cons.mpr ⟨hnone, hfront⟩

variable (ctx)

/-- What comes of a run that does not fail, of a chain from its start or of what a wait has left of
one: it breaks off or waits, not both; its transitions are those of one handler, after which no
other is tried; actions and transitions that are not secret oblige to a notification, and each
handler whose guards pass sends its event. So the transitions for an event come from one handler. -/
theorem strides : (∀ (chain : Chain) (copy : WorkingCopy D) (result : Json),
      (∀ e, (ctx.run chain copy result).stop ≠ some (.failed e)) →
        ∃ ss, ctx.Accounts [.chain chain] ⟨copy, result⟩ (ctx.run chain copy result) ss) ∧
    (∀ (k : Continuation) (copy : WorkingCopy D),
      (∀ e, (ctx.resume k copy).stop ≠ some (.failed e)) →
        ∃ ss, ctx.Accounts (k.frames.flatMap Frame.items) ⟨copy, .null⟩ (ctx.resume k copy) ss) ∧
    ∀ (chains : List (Lease × Chain)) (copy : WorkingCopy D),
      (∀ r ∈ Machine.traverse ctx chains copy, ∀ e, r.2.stop ≠ some (.failed e)) →
        ctx.OneAsks chains copy :=
  ⟨fun chain copy result ok => ctx.run_accounts chain copy result ok,
    fun k _ ok => (ctx.resumeFrames_leads k.frames rfl).exists_accounts rfl rfl rfl ok,
    fun _ _ ok => requestsOf_traverse ok⟩

/-- Functions for an errand: an action that counts. -/
def errand : Context Nat where
  table := { actions := [⟨none, fun n _ _ => (n + 1, none)⟩] }
  payload := .null

/-- An errand is counted and announced; after a wait one is at home, and in secret in the garden. -/
def errandChain : Chain := [
  .mk { actions := [0], send := some { name := "LEFT" } }
    (some [.mk { wait := some (.fixed 1.0) } none none,
      .mk { targets := [.path "home"], secretTargets := [.path "garden"] } none none]) none]

theorem strides_errand : ∃ k, (errand.run errandChain { base := 0 }).continuation? = some k ∧
    (∃ ss, errand.Accounts [.chain errandChain] ⟨{ base := 0 }, .null⟩
      (errand.run errandChain { base := 0 }) ss) ∧
    (∃ ss, errand.Accounts (k.frames.flatMap Frame.items) ⟨{ base := 1 }, .null⟩
      (errand.resume k { base := 1 }) ss) ∧
    (errand.resume k { base := 1 }).requests = [⟨"home", false⟩, ⟨"garden", true⟩] ∧
    Machine.requestsOf (Machine.traverse errand
      [(⟨0, 1⟩, errandChain), (⟨1, 1⟩, Chain.unwaited errandChain)] { base := 0 }) =
        [⟨"home", false⟩, ⟨"garden", true⟩] ∧
    errand.OneAsks [(⟨0, 1⟩, errandChain), (⟨1, 1⟩, Chain.unwaited errandChain)] { base := 0 } := by
  refine ⟨_, rfl, ?_, ?_, rfl, rfl, ?_⟩
  · exact errand.strides.1 errandChain { base := 0 } .null nofun
  · exact errand.strides.2.1 _ { base := 1 } nofun
  · refine errand.strides.2.2 _ { base := 0 } ?_
    exact List.forall_mem_cons.mpr ⟨nofun, List.forall_mem_cons.mpr ⟨nofun, nofun⟩⟩

end Context

end Statechart
