/-
# What a run obliges to

A handler that passes its guards obliges to a notification if it has actions or targets, other
than secret ones. A run collects this as it goes: an action counts when it is done, and targets
count when the transitions to them are asked for, which ends the run. So a run that has not failed
asks for a notification exactly if a handler passed in it that obliges to one (`Run.Honest`),
whether it started at the head of a chain or picked up one that waited.

Key definitions: `Handler.obliges`, `Run.Honest`.
Key theorems: `Context.runHandler_honest`, `Context.run_honest`, `Context.resume_honest`.
-/
import Statechart.Proofs.Resumption

namespace Statechart

variable {D : Type}

/-- A handler that passes obliges to a notification if it acts or asks for transitions, not in
secret. -/
def Handler.obliges (h : Handler) : Bool := !h.body.actions.isEmpty || !h.body.targets.isEmpty

/-! ### What a run obliges to -/

/-- A run that has not failed asks for a notification exactly if a handler that obliges to one
passed in it. -/
def Run.Honest (r : Run D) : Prop :=
  (∃ e, r.stop = some (.failed e)) ∨ r.notify = r.passed.any Handler.obliges

theorem Run.Honest.notify_eq {r : Run D} (h : r.Honest) (hr : ∀ e, r.stop ≠ some (.failed e)) :
    r.notify = r.passed.any Handler.obliges := by
  rcases h with ⟨e, hfailed⟩ | heq
  · exact absurd hfailed (hr e)
  · exact heq

theorem Run.Honest.enclose {r : Run D} (h : r.Honest) (outer : List Frame) :
    (r.enclose outer).Honest := by
  unfold Run.enclose
  split
  · rename_i c hstop
    exact Or.inr (h.notify_eq (by simp [hstop]))
  · exact h

namespace Context

variable (ctx : Context D)

/-- Actions fail, or none of them does and one that is not secret asks for a notification. -/
theorem act_cases (stage : Purpose) : ∀ (is : List Nat) (r : Run D),
    (∃ e, (ctx.act stage is r).stop = some (.failed e)) ∨
      (ctx.act stage is r).stop = r.stop ∧ (ctx.act stage is r).passed = r.passed ∧
        (ctx.act stage is r).notify = (r.notify || (Decidable.decide (stage = .action) && !is.isEmpty))
  | [], r => Or.inr ⟨rfl, rfl, by simp [act]⟩
  | i :: is, r => by
    unfold act
    dsimp only
    split
    · exact Or.inl ⟨_, rfl⟩
    · rcases act_cases stage is { r with
          copy := r.copy.write (ctx.table.fn .action i r.copy.value ctx.payload r.result).1
          notify := r.notify || stage = .action } with hfailed | ⟨hstop, hpassed, hnotify⟩
      · exact Or.inl hfailed
      · refine Or.inr ⟨hstop, hpassed, hnotify.trans ?_⟩
        by_cases hstage : stage = .action <;> simp [hstage]

/-- A handler whose guards pass fails as it acts, or asks for a notification if it has actions. -/
theorem enact_cases (h : Handler) {r : Run D} (hr : r.stop = none) :
    (∃ e, (ctx.enact h r).stop = some (.failed e)) ∨
      (ctx.enact h r).stop = none ∧ (ctx.enact h r).passed = r.passed ++ [h] ∧
        (ctx.enact h r).notify = (r.notify || !h.body.actions.isEmpty) := by
  rw [enact_eq]
  rcases ctx.act_cases .action h.body.actions { r with passed := r.passed ++ [h] } with
    ⟨e, he⟩ | ⟨hstop, hpassed, hnotify⟩
  · rw [Run.andThen_of_isStopped (Run.isStopped_of_stop_eq_some he)]
    exact Or.inl ⟨e, he⟩
  · rw [Run.andThen_of_stop_eq_none (hstop.trans hr)]
    rcases ctx.act_cases .secretAction h.body.secretActions
      (ctx.act .action h.body.actions { r with passed := r.passed ++ [h] }) with
      ⟨e, he⟩ | ⟨hstop', hpassed', hnotify'⟩
    · rw [Run.andThen_of_isStopped (Run.isStopped_of_stop_eq_some he)]
      exact Or.inl ⟨e, he⟩
    · rw [Run.andThen_of_stop_eq_none (hstop'.trans (hstop.trans hr))]
      exact Or.inr ⟨hstop'.trans (hstop.trans hr), hpassed'.trans hpassed,
        by simpa [hnotify] using hnotify'⟩

theorem move_honest {b : Handler.Body} {r : Run D}
    (h : (r.notify || !b.targets.isEmpty) = r.passed.any Handler.obliges) :
    (ctx.move b r).Honest := by
  unfold move
  split
  · exact Or.inl ⟨_, rfl⟩
  · exact Or.inl ⟨_, rfl⟩
  · exact Or.inr h

theorem checkBreak_honest (b : Handler.Body) {r : Run D} (hr : r.stop = none) (h : r.Honest) :
    (ctx.checkBreak b r).Honest := by
  have heq := h.notify_eq (by simp [hr])
  unfold checkBreak
  split
  · exact h
  · split
    · exact Or.inr heq
    · exact h

/-- What is left of a handler after the chain in it. -/
theorem nested_honest {f : Frame} (hf : f.point ≠ .wait) {chain : Option Chain}
    (ih : ∀ c, chain = some c → ∀ (before : List Handler) (r : Run D), r.stop = none → r.Honest →
      (ctx.runChain before c r).Honest) {r : Run D} (hr : r.stop = none) (h : r.Honest) :
    (ctx.nested f chain r).Honest := by
  have hfinish : ∀ x : Run D, x.stop = none → x.Honest → (ctx.finish f x).Honest := by
    intro x hx hx'
    unfold finish
    split
    · contradiction
    · exact ctx.checkBreak_honest _ hx hx'
    · exact hx'
  cases chain with
  | none => exact hfinish r hr h
  | some chain =>
    exact Run.andThen_induction ((ih chain rfl [] r hr h).enclose [f]) (hfinish _)

/-- A handler that asks for transitions ends its run with what it obliges to; any other has no
targets, so that its actions alone oblige. -/
theorem runHandler_honest {body : Handler.Body} {thenDo otherwise : Option Chain}
    (ihThen : ∀ c, thenDo = some c → ∀ (before : List Handler) (r : Run D), r.stop = none →
      r.Honest → (ctx.runChain before c r).Honest)
    (ihElse : ∀ c, otherwise = some c → ∀ (before : List Handler) (r : Run D), r.stop = none →
      r.Honest → (ctx.runChain before c r).Honest)
    (before rest : List Handler) {r : Run D} (hr : r.stop = none) (h : r.Honest) :
    (ctx.runHandler before rest (.mk body thenDo otherwise) r).Honest := by
  have heq := h.notify_eq (by simp [hr])
  rw [runHandler_eq]
  split
  · exact Or.inl ⟨_, rfl⟩
  · rename_i result _
    split
    · rcases ctx.enact_cases (.mk body thenDo otherwise) (r := { r with result }) hr with
        ⟨e, he⟩ | ⟨hstop, hpassed, hnotify⟩
      · rw [Run.andThen_of_isStopped (Run.isStopped_of_stop_eq_some he)]
        exact Or.inl ⟨e, he⟩
      · rw [Run.andThen_of_stop_eq_none hstop]
        have hmove : ((ctx.enact (.mk body thenDo otherwise) { r with result }).notify ||
            !body.targets.isEmpty) =
              (ctx.enact (.mk body thenDo otherwise) { r with result }).passed.any
                Handler.obliges := by
          rw [hnotify, hpassed, List.any_append, ← heq, Bool.or_assoc]
          simp [Handler.obliges, Handler.body]
        by_cases hmoves : body.moves = true
        · rw [if_pos hmoves]
          exact ctx.move_honest hmove
        · rw [if_neg hmoves]
          have htargets : body.targets = [] := by
            simp only [Handler.Body.moves, Bool.or_eq_true, Bool.not_eq_true', not_or] at hmoves
            simpa using hmoves.1
          refine ctx.nested_honest (by simp) ihThen hstop (Or.inr ?_)
          rw [← hmove, htargets]
          simp
    · exact ctx.nested_honest (r := { r with result }) (by simp) ihElse hr (Or.inr heq)

theorem runChain_honest (chain : Chain) : ∀ (before : List Handler) (r : Run D), r.stop = none →
    r.Honest → (ctx.runChain before chain r).Honest := by
  induction chain using Chain.induction with
  | nil => exact fun _ _ _ h => h
  | cons body thenDo otherwise rest ihThen ihElse ih =>
    intro before r hr h
    cases hw : body.wait with
    | some d =>
      simp only [Context.runChain, Handler.body, hw]
      exact Or.inr (h.notify_eq (by simp [hr]))
    | none =>
      rw [ctx.runChain_cons (h := .mk body thenDo otherwise) hw]
      exact Run.andThen_induction (ctx.runHandler_honest ihThen ihElse before rest hr h)
        fun hx h' => ih _ _ hx h'

theorem run_honest (chain : Chain) (copy : WorkingCopy D) (result : Json) :
    (ctx.run chain copy result).Honest := ctx.runChain_honest chain [] _ rfl (Or.inr rfl)

theorem resumeFrame_honest (f : Frame) {r : Run D} (hr : r.stop = none) (h : r.Honest) :
    (ctx.resumeFrame f r).Honest := by
  have hfinish : (ctx.finish f r).Honest := by
    unfold finish
    split
    · obtain ⟨body, thenDo, otherwise⟩ := f.handler
      exact ctx.runHandler_honest (fun c _ => ctx.runChain_honest c)
        (fun c _ => ctx.runChain_honest c) f.before f.rest hr h
    · exact ctx.checkBreak_honest _ hr h
    · exact h
  rw [resumeFrame_eq]
  exact Run.andThen_induction hfinish fun hx hx' => ctx.runChain_honest f.rest _ _ hx hx'

theorem resumeFrames_honest : ∀ (frames : List Frame) {r : Run D}, r.stop = none → r.Honest →
    (ctx.resumeFrames frames r).Honest
  | [], _, _, h => h
  | f :: outer, r, hr, h => by
    have hframe := ctx.resumeFrame_honest f hr h
    simp only [resumeFrames]
    split
    · exact hframe.enclose outer
    · rename_i hs
      exact resumeFrames_honest outer (Run.stop_eq_none_of_not_isStopped hs) hframe

theorem resume_honest (k : Continuation) (copy : WorkingCopy D) : (ctx.resume k copy).Honest :=
  ctx.resumeFrames_honest k.frames rfl (Or.inr rfl)

end Context
end Statechart
