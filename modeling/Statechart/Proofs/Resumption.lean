/-
# How a run stops and is picked up again

A run goes on as long as it has not stopped (`Run.andThen`): a chain is its first
handler and then the rest, a frame is what is left of its handler and then the
handlers after it, and a stack of frames is its inner frames and then its outer ones
(`Context.resumeFrames_append`). Only a handler that waits suspends a run, so a chain
without waits does not, and each time a chain is suspended fewer of its waits are
still to come (`Context.pending_resumeFrames`).

Key definitions: `Run.andThen`, `Run.outcome`, `Frame.pending`, `Frame.unwaited`,
`Context.Preserves`.
Key theorems: `Context.resumeFrames_append`, `Context.Preserves.runChain`,
`Context.pending_runChain`, `Context.pending_resumeFrames`.
-/
import Statechart.Proofs.Waits

namespace Statechart

namespace Frame

/-- A frame of a chain without its waits. -/
def unwaited (f : Frame) : Frame :=
  { f with
    before := Chain.unwaited f.before
    handler := f.handler.unwaited
    rest := Chain.unwaited f.rest }

/-- How many waits may still come up in a frame: after its handler and, if the handler
has yet to run, in the chains of the handler. -/
def pending (f : Frame) : Nat :=
  (if f.point = .wait then Handler.Body.waits f.handler.inner else 0) + Chain.waits f.rest

end Frame

/-- How many waits may still come up in some frames. -/
def Continuation.pending : List Frame → Nat
  | [] => 0
  | f :: outer => f.pending + pending outer

theorem Continuation.pending_append (outer : List Frame) : ∀ inner : List Frame,
    pending (inner ++ outer) = pending inner + pending outer
  | [] => (Nat.zero_add _).symm
  | f :: inner => by
    rw [List.cons_append, pending, pending, pending_append outer inner, Nat.add_assoc]

theorem Continuation.pending_unwaited (frames : List Frame) :
    pending (frames.map Frame.unwaited) = 0 := by
  have frame : ∀ f : Frame, f.unwaited.pending = 0 := fun f => by
    have hinner : Handler.Body.waits f.handler.unwaited.inner = 0 := by
      have := Chain.waits_unwaited [f.handler]
      rw [Chain.unwaited, Chain.waits_cons] at this
      omega
    simp only [Frame.pending, Frame.unwaited, hinner, Chain.waits_unwaited, ite_self]
  induction frames with
  | nil => rfl
  | cons f outer ih =>
    rw [List.map_cons, pending, frame f, Nat.zero_add, ih]

/-- What a run comes to, or the runs of a chain in all: the data they leave, what they
collected, and whether the last one broke off. -/
structure Outcome (D : Type) where
  data : D
  notify : Bool
  requests : List Request
  sends : List Event
  broke : Bool

/-- What a run that does not wait came to: a failure, or its outcome. -/
def Run.outcome {D : Type} (r : Run D) : Except FunctionError (Outcome D) :=
  match r.stop with
  | some (.failed e) => .error e
  | _ => .ok {
      data := r.copy.value
      notify := r.notify
      requests := r.requests
      sends := r.sends
      broke := r.broke }

namespace Run

variable {D : Type}

/-- Go on with a run unless it has stopped. -/
def andThen (r : Run D) (f : Run D → Run D) : Run D := if r.isStopped then r else f r

theorem andThen_of_isStopped {r : Run D} (h : r.isStopped = true) (f : Run D → Run D) :
    r.andThen f = r := if_pos h

theorem andThen_of_stop_eq_none {r : Run D} (h : r.stop = none) (f : Run D → Run D) :
    r.andThen f = f r := by simp [andThen, isStopped, h]

theorem stop_eq_none_of_not_isStopped {r : Run D} (h : ¬ r.isStopped = true) : r.stop = none := by
  simpa [isStopped] using h

theorem isStopped_of_stop_eq_some {r : Run D} {s : Stop} (h : r.stop = some s) :
    r.isStopped = true := by simp [isStopped, h]

theorem andThen_assoc (r : Run D) (f g : Run D → Run D) :
    (r.andThen f).andThen g = r.andThen fun x => (f x).andThen g := by
  by_cases h : r.isStopped = true
  · rw [andThen_of_isStopped h, andThen_of_isStopped h, andThen_of_isStopped h]
  · simp [andThen, h]

/-- A run that has gone on waits where it had stopped or where it went on. -/
theorem continuation?_andThen {r : Run D} {f : Run D → Run D} {c : Continuation}
    (h : (r.andThen f).continuation? = some c) :
    r.continuation? = some c ∨ r.stop = none ∧ (f r).continuation? = some c := by
  by_cases hs : r.isStopped = true
  · rw [andThen_of_isStopped hs] at h
    exact Or.inl h
  · have hn := stop_eq_none_of_not_isStopped hs
    rw [andThen_of_stop_eq_none hn] at h
    exact Or.inr ⟨hn, h⟩

/-- What holds of a run, and lasts as it goes on, holds of the run that has gone on. -/
theorem andThen_induction {P : Run D → Prop} {r : Run D} {f : Run D → Run D} (h : P r)
    (hf : r.stop = none → P r → P (f r)) : P (r.andThen f) := by
  by_cases hs : r.isStopped = true
  · rwa [andThen_of_isStopped hs]
  · have hn := stop_eq_none_of_not_isStopped hs
    rw [andThen_of_stop_eq_none hn]
    exact hf hn h

theorem continuation?_eq_some_iff {r : Run D} {c : Continuation} :
    r.continuation? = some c ↔ r.stop = some (.suspended c) := by
  unfold continuation?
  split
  · simp_all
  · rename_i h
    simp only [reduceCtorEq, false_iff]
    exact h c

theorem continuation?_of_stop_eq_none {r : Run D} (h : r.stop = none) : r.continuation? = none := by
  simp [continuation?, h]

@[simp] theorem continuation?_fail (r : Run D) (e : FunctionError) :
    (r.fail e).continuation? = none := rfl

/-- A run that waits does so with the frames put around what is left of it. -/
theorem continuation?_enclose (r : Run D) (outer : List Frame) : (r.enclose outer).continuation? =
    r.continuation?.map fun c => { c with frames := c.frames ++ outer } := by
  unfold enclose
  split
  · rename_i c h
    simp [continuation?, h]
  · rename_i h
    cases hc : r.continuation? with
    | none => rfl
    | some c => exact absurd (continuation?_eq_some_iff.mp hc) (h c)

theorem enclose_of_continuation?_eq_none {r : Run D} (h : r.continuation? = none)
    (outer : List Frame) : r.enclose outer = r := by
  unfold enclose
  split
  · rename_i c hc
    rw [continuation?_eq_some_iff.mpr hc] at h
    cases h
  · rfl

theorem enclose_nil (r : Run D) : r.enclose [] = r := by
  unfold enclose
  split
  · rename_i c h
    cases r
    simp_all
  · rfl

theorem enclose_enclose (r : Run D) (inner outer : List Frame) :
    (r.enclose inner).enclose outer = r.enclose (inner ++ outer) := by
  cases hc : r.continuation? with
  | none => simp only [enclose_of_continuation?_eq_none hc]
  | some c =>
    have h := continuation?_eq_some_iff.mp hc
    simp [enclose, h]

@[simp] theorem isStopped_enclose (r : Run D) (outer : List Frame) :
    (r.enclose outer).isStopped = r.isStopped := by
  unfold enclose
  split
  · rename_i c h
    simp [isStopped, h]
  · rfl

end Run

namespace Context

variable {D : Type} (ctx : Context D)

/-! ### A chain, a frame and a stack of frames, one part after the other -/

theorem runChain_cons {h : Handler} (hw : h.body.wait = none) (before rest : List Handler)
    (r : Run D) : ctx.runChain before (h :: rest) r =
      (ctx.runHandler before rest h r).andThen (ctx.runChain (before ++ [h]) rest) := by
  simp only [runChain, hw]
  rfl

theorem enact_eq (h : Handler) (r : Run D) : ctx.enact h r =
    (ctx.act .action h.body.actions { r with passed := r.passed ++ [h] }).andThen fun r =>
      (ctx.act .secretAction h.body.secretActions r).andThen fun r =>
        { r with sends := r.sends ++ h.body.send.toList } := rfl

theorem resumeFrame_eq (f : Frame) (r : Run D) : ctx.resumeFrame f r =
    (ctx.finish f r).andThen (ctx.runChain (f.before ++ [f.handler]) f.rest) := rfl

/-- Run the chain inside a frame's handler that the frame is around, if there is one, and
then what is left of the handler. -/
def nested (f : Frame) : Option Chain → Run D → Run D
  | none, r => ctx.finish f r
  | some chain, r => ((ctx.runChain [] chain r).enclose [f]).andThen (ctx.finish f)

/-- A handler whose guards pass acts, and then moves or runs its `then` chain; one whose
guards fail runs its `else` chain. -/
theorem runHandler_eq (before rest : List Handler) (body : Handler.Body)
    (thenDo otherwise : Option Chain) (r : Run D) :
    ctx.runHandler before rest (.mk body thenDo otherwise) r =
      match ctx.gather .result r.copy.value body.get r.result with
      | .error e => r.fail e
      | .ok result =>
        if ctx.passes r.copy.value result body.guards then
          (ctx.enact (.mk body thenDo otherwise) { r with result }).andThen fun r =>
            if body.moves then ctx.move body r
            else ctx.nested ⟨before, .mk body thenDo otherwise, rest, .thenDone⟩ thenDo r
        else
          ctx.nested ⟨before, .mk body thenDo otherwise, rest, .elseDone⟩ otherwise
            { r with result } := by
  rw [runHandler]
  cases ctx.gather .result r.copy.value body.get r.result with
  | error e => rfl
  | ok result =>
    simp only
    split
    · cases thenDo <;> rfl
    · cases otherwise <;> simp [Run.andThen, nested, finish]

@[simp] theorem resumeFrames_singleton (f : Frame) : ctx.resumeFrames [f] = ctx.resumeFrame f :=
  funext fun r => by simp only [resumeFrames, Run.enclose_nil, ite_self]

/-- The inner frames of a stack are picked up before the outer ones, which go around
what is left of a run that waits again. -/
theorem resumeFrames_append : ∀ (inner outer : List Frame) {r : Run D}, r.stop = none →
    ctx.resumeFrames (inner ++ outer) r =
      ((ctx.resumeFrames inner r).enclose outer).andThen (ctx.resumeFrames outer)
  | [], outer, r, h => by
    have hc := Run.continuation?_of_stop_eq_none h
    rw [List.nil_append, resumeFrames, Run.enclose_of_continuation?_eq_none hc,
      Run.andThen_of_stop_eq_none h]
  | f :: inner, outer, r, h => by
    simp only [List.cons_append, resumeFrames]
    by_cases hs : (ctx.resumeFrame f r).isStopped = true
    · rw [if_pos hs, if_pos hs, Run.enclose_enclose, Run.andThen_of_isStopped]
      rw [Run.isStopped_enclose]
      exact hs
    · rw [if_neg hs, if_neg hs]
      exact resumeFrames_append inner outer (Run.stop_eq_none_of_not_isStopped hs)

/-! ### What does not suspend a run -/

/-- Actions leave a run stopped as it was, or fail. -/
theorem stop_act (stage : Purpose) : ∀ (is : List Nat) (r : Run D),
    (ctx.act stage is r).stop = r.stop ∨ ∃ e, (ctx.act stage is r).stop = some (.failed e)
  | [], _ => Or.inl rfl
  | i :: is, r => by
    unfold act
    dsimp only
    split
    · exact Or.inr ⟨_, rfl⟩
    · exact stop_act stage is _

theorem continuation?_act (stage : Purpose) (is : List Nat) {r : Run D}
    (h : r.continuation? = none) : (ctx.act stage is r).continuation? = none := by
  rcases ctx.stop_act stage is r with hs | ⟨e, hs⟩
  · simpa only [Run.continuation?, hs] using h
  · simp only [Run.continuation?, hs]

theorem continuation?_enact (h : Handler) {r : Run D} (hr : r.continuation? = none) :
    (ctx.enact h r).continuation? = none := by
  have hact := ctx.continuation?_act .action h.body.actions
    (r := { r with passed := r.passed ++ [h] }) hr
  unfold enact
  dsimp only
  split
  · exact hact
  · have hsecret := ctx.continuation?_act .secretAction h.body.secretActions hact
    split
    · exact hsecret
    · exact hsecret

theorem continuation?_move (b : Handler.Body) (r : Run D) :
    (ctx.move b r).continuation? = none := by
  unfold move
  split <;> rfl

theorem continuation?_checkBreak (b : Handler.Body) {r : Run D} (h : r.continuation? = none) :
    (ctx.checkBreak b r).continuation? = none := by
  unfold checkBreak
  split
  · exact h
  · split
    · rfl
    · exact h

theorem continuation?_finish {f : Frame} (hf : f.point ≠ .wait) {r : Run D}
    (h : r.continuation? = none) : (ctx.finish f r).continuation? = none := by
  unfold finish
  split
  · contradiction
  · exact ctx.continuation?_checkBreak f.handler.body h
  · exact h

/-! ### What every part of a run preserves -/

/-- A property of runs that lasts through each thing a run does. -/
structure Preserves (P : Run D → Prop) : Prop where
  fail : ∀ {r : Run D} {is : List Nat} {e : FunctionError}, r.stop = none → P r →
    ctx.gather .result r.copy.value is r.result = .error e → P (r.fail e)
  result : ∀ {r : Run D} (result : Json), r.stop = none → P r → P { r with result }
  enact : ∀ {r : Run D} (h : Handler), r.stop = none → P r → P (ctx.enact h r)
  move : ∀ {r : Run D} (b : Handler.Body), r.stop = none → P r → P (ctx.move b r)
  checkBreak : ∀ {r : Run D} (b : Handler.Body), r.stop = none → P r → P (ctx.checkBreak b r)
  suspend : ∀ {r : Run D} (k : Continuation), P r → P { r with stop := some (.suspended k) }

namespace Preserves

variable {ctx} {P : Run D → Prop} (hP : ctx.Preserves P)
include hP

theorem enclose {r : Run D} (outer : List Frame) (h : P r) : P (r.enclose outer) := by
  unfold Run.enclose
  split
  · exact hP.suspend _ h
  · exact h

theorem nested {f : Frame} (hf : f.point ≠ .wait) {chain : Option Chain}
    (ih : ∀ c, chain = some c → ∀ (before : List Handler) (r : Run D), r.stop = none → P r →
      P (ctx.runChain before c r)) {r : Run D} (hr : r.stop = none) (h : P r) :
    P (ctx.nested f chain r) := by
  have hfinish : ∀ x : Run D, x.stop = none → P x → P (ctx.finish f x) := fun x hx h => by
    unfold finish
    split
    · contradiction
    · exact hP.checkBreak _ hx h
    · exact h
  cases chain with
  | none => exact hfinish r hr h
  | some chain =>
    exact Run.andThen_induction (hP.enclose [f] (ih chain rfl [] r hr h)) (hfinish _)

theorem runHandler {body : Handler.Body} {thenDo otherwise : Option Chain}
    (ihThen : ∀ c, thenDo = some c → ∀ (before : List Handler) (r : Run D), r.stop = none → P r →
      P (ctx.runChain before c r))
    (ihElse : ∀ c, otherwise = some c → ∀ (before : List Handler) (r : Run D), r.stop = none →
      P r → P (ctx.runChain before c r))
    (before rest : List Handler) {r : Run D} (hr : r.stop = none) (h : P r) :
    P (ctx.runHandler before rest (.mk body thenDo otherwise) r) := by
  rw [runHandler_eq]
  split
  · rename_i e hg
    exact hP.fail hr h hg
  · rename_i result _
    have h' : P { r with result } := hP.result result hr h
    split
    · refine Run.andThen_induction (hP.enact _ hr h') fun hx h'' => ?_
      split
      · exact hP.move body hx h''
      · exact hP.nested (by simp) ihThen hx h''
    · exact hP.nested (r := { r with result }) (by simp) ihElse hr h'

/-- What each thing a run does preserves, the run of a chain preserves. -/
theorem runChain (chain : Chain) : ∀ (before : List Handler) (r : Run D), r.stop = none → P r →
    P (ctx.runChain before chain r) := by
  induction chain using Chain.induction with
  | nil => exact fun _ _ _ h => h
  | cons body thenDo otherwise rest ihThen ihElse ih =>
    intro before r hr h
    cases hw : body.wait with
    | some d =>
      simp only [Context.runChain, Handler.body, hw]
      exact hP.suspend _ h
    | none =>
      rw [ctx.runChain_cons (h := .mk body thenDo otherwise) hw]
      exact Run.andThen_induction (hP.runHandler ihThen ihElse before rest hr h)
        fun hx h' => ih _ _ hx h'

end Preserves

/-! ### How many waits are still to come -/

/-- A run of the chain that is suspended has fewer waits to come than the chain has. -/
def Advances (chain : Chain) : Prop :=
  ∀ (before : List Handler) (r : Run D) (k : Continuation), r.stop = none →
    (ctx.runChain before chain r).continuation? = some k →
      Continuation.pending k.frames < Chain.waits chain

theorem pending_nested {f : Frame} (hf : f.point ≠ .wait) {chain : Option Chain}
    (ih : ∀ c, chain = some c → ctx.Advances c) {r : Run D} (hr : r.stop = none) {k : Continuation}
    (hk : (ctx.nested f chain r).continuation? = some k) :
    Continuation.pending k.frames <
      Handler.Body.waits (chain.elim [] Chain.bodies) + f.pending := by
  have hfinish := ctx.continuation?_finish hf (Run.continuation?_of_stop_eq_none hr)
  cases chain with
  | none =>
    rw [nested, hfinish] at hk
    cases hk
  | some chain =>
    rcases Run.continuation?_andThen hk with hk | ⟨hn, hk⟩
    · rw [Run.continuation?_enclose] at hk
      obtain ⟨inner, hinner, rfl⟩ := Option.map_eq_some_iff.mp hk
      have := ih chain rfl [] r inner hr hinner
      simp only [Continuation.pending_append, Continuation.pending, Option.elim,
        Chain.waits] at this ⊢
      omega
    · rw [ctx.continuation?_finish hf (Run.continuation?_of_stop_eq_none hn)] at hk
      cases hk

theorem pending_runHandler {body : Handler.Body} {thenDo otherwise : Option Chain}
    (ihThen : ∀ c, thenDo = some c → ctx.Advances c)
    (ihElse : ∀ c, otherwise = some c → ctx.Advances c) (before rest : List Handler) {r : Run D}
    (hr : r.stop = none) {k : Continuation}
    (hk : (ctx.runHandler before rest (.mk body thenDo otherwise) r).continuation? = some k) :
    Continuation.pending k.frames <
      Handler.Body.waits (Handler.mk body thenDo otherwise).inner + Chain.waits rest := by
  rw [runHandler_eq] at hk
  rw [Handler.inner_mk, Handler.Body.waits_append]
  split at hk
  · rw [Run.continuation?_fail] at hk
    cases hk
  · rename_i result _
    have hr' : ({ r with result } : Run D).continuation? = none :=
      Run.continuation?_of_stop_eq_none hr
    split at hk
    · rcases Run.continuation?_andThen hk with hk | ⟨hn, hk⟩
      · rw [ctx.continuation?_enact _ hr'] at hk
        cases hk
      · split at hk
        · rw [continuation?_move] at hk
          cases hk
        · have := ctx.pending_nested (by simp) ihThen hn hk
          simp only [Frame.pending, reduceCtorEq, if_false] at this
          omega
    · have := ctx.pending_nested (by simp) ihElse (r := { r with result }) hr hk
      simp only [Frame.pending, reduceCtorEq, if_false] at this
      omega

/-- Each time a chain is suspended, one of its waits is behind it. -/
theorem pending_runChain (chain : Chain) : ctx.Advances chain := by
  induction chain using Chain.induction with
  | nil =>
    intro before r k hr hk
    rw [runChain, Run.continuation?_of_stop_eq_none hr] at hk
    cases hk
  | cons body thenDo otherwise rest ihThen ihElse ih =>
    intro before r k hr hk
    rw [Chain.waits_cons]
    cases hw : body.wait with
    | some d =>
      simp only [runChain, Handler.body, hw, Run.continuation?, Option.some.injEq] at hk
      subst hk
      simp [Continuation.pending, Frame.pending, Handler.body, hw]
    | none =>
      rw [ctx.runChain_cons (h := .mk body thenDo otherwise) hw] at hk
      rcases Run.continuation?_andThen hk with hk | ⟨hn, hk⟩
      · have := ctx.pending_runHandler ihThen ihElse before rest hr hk
        omega
      · have := ih _ _ _ hn hk
        omega

theorem pending_finish {f : Frame} {r : Run D} (hr : r.stop = none) {k : Continuation}
    (hk : (ctx.finish f r).continuation? = some k) : Continuation.pending k.frames < f.pending := by
  by_cases hf : f.point = .wait
  · obtain ⟨before, ⟨body, thenDo, otherwise⟩, rest, point⟩ := f
    subst hf
    exact ctx.pending_runHandler (fun c _ => ctx.pending_runChain c)
      (fun c _ => ctx.pending_runChain c) before rest hr hk
  · rw [ctx.continuation?_finish hf (Run.continuation?_of_stop_eq_none hr)] at hk
    cases hk

theorem pending_resumeFrame {f : Frame} {r : Run D} (hr : r.stop = none) {k : Continuation}
    (hk : (ctx.resumeFrame f r).continuation? = some k) :
    Continuation.pending k.frames < f.pending := by
  rw [resumeFrame_eq] at hk
  rcases Run.continuation?_andThen hk with hk | ⟨hn, hk⟩
  · exact ctx.pending_finish hr hk
  · have := ctx.pending_runChain f.rest _ _ _ hn hk
    unfold Frame.pending
    omega

/-- Each time what is left of a chain is suspended again, one more wait is behind it. -/
theorem pending_resumeFrames : ∀ (frames : List Frame) {r : Run D}, r.stop = none →
    ∀ {k : Continuation}, (ctx.resumeFrames frames r).continuation? = some k →
      Continuation.pending k.frames < Continuation.pending frames
  | [], r, hr, k, hk => by
    rw [resumeFrames, Run.continuation?_of_stop_eq_none hr] at hk
    cases hk
  | f :: outer, r, hr, k, hk => by
    simp only [resumeFrames] at hk
    by_cases hs : (ctx.resumeFrame f r).isStopped = true
    · rw [if_pos hs, Run.continuation?_enclose] at hk
      obtain ⟨inner, hinner, rfl⟩ := Option.map_eq_some_iff.mp hk
      have := ctx.pending_resumeFrame hr hinner
      simp only [Continuation.pending_append, Continuation.pending]
      omega
    · rw [if_neg hs] at hk
      have := pending_resumeFrames outer (Run.stop_eq_none_of_not_isStopped hs) hk
      simp only [Continuation.pending]
      omega

/-- A chain without waits is never suspended. -/
theorem continuation?_runChain {chain : Chain} (hw : Chain.waits chain = 0)
    (before : List Handler) {r : Run D} (hr : r.stop = none) :
    (ctx.runChain before chain r).continuation? = none := by
  cases hk : (ctx.runChain before chain r).continuation? with
  | none => rfl
  | some k =>
    have := ctx.pending_runChain chain before r k hr hk
    omega

/-- What is left of a chain without waits is never suspended. -/
theorem continuation?_resumeFrames {frames : List Frame} (hw : Continuation.pending frames = 0)
    {r : Run D} (hr : r.stop = none) : (ctx.resumeFrames frames r).continuation? = none := by
  cases hk : (ctx.resumeFrames frames r).continuation? with
  | none => rfl
  | some k =>
    have := ctx.pending_resumeFrames frames hr hk
    omega

end Context
end Statechart
