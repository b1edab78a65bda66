/-
# Suspending is transparent

A chain that waits is run in stages: up to its first wait, and after each wait from
there, on a copy of the data that the stage before left. If no function of the table
looks at the result before it, the stages together come to what one run of the chain
without its waits comes to (`Context.staged_run_iff`): the same data, the same
notification, transitions and events, the same break, or the same failure.

The proof goes through what a waiting run would come to if it did not have to wait
(`Context.unwait`). For any table, that is what the chain, or what is left of it, comes
to with its waits taken out (`Context.unwait_runChain`, `Context.unwait_resumeFrames`).
The stages differ from it only in starting without a result and with nothing collected,
which `Run.Follows` carries from one stage to the next.

Key definitions: `Table.IgnoresResults`, `Run.Follows`, `Context.unwait`, `Run.outcome`,
`Context.Staged`.
Key theorems: `Context.resumeFrames_follows`, `Context.unwait_runChain`,
`Context.unwait_resumeFrames`, `Context.staged_run_iff`.
-/
import Statechart.Proofs.Resumption

namespace Statechart

variable {D : Type}

/-! ### Functions that ignore the result before them -/

/-- No function of the table that a chain calls looks at the result before it. -/
structure Table.IgnoresResults (t : Table D) : Prop where
  results : ∀ s ∈ t.results, ∀ data payload a b, s.fn data payload a = s.fn data payload b
  conditions : ∀ s ∈ t.conditions, ∀ data payload a b, s.fn data payload a = s.fn data payload b
  actions : ∀ s ∈ t.actions, ∀ data payload a b, s.fn data payload a = s.fn data payload b
  times : ∀ s ∈ t.times, ∀ data payload a b, s.fn data payload a = s.fn data payload b
  targets : ∀ s ∈ t.targets, ∀ data payload a b, s.fn data payload a = s.fn data payload b

namespace Table.IgnoresResults

variable {t : Table D} (h : t.IgnoresResults) (i : Nat) (data : D) (payload a b : Json)
include h

theorem result : t.fn .result i data payload a = t.fn .result i data payload b :=
  forall_fn (P := fun f : Kind.result.Fn D => f data payload a = f data payload b) rfl
    (fun s hs => h.results s hs data payload a b) i

theorem condition : t.fn .condition i data payload a = t.fn .condition i data payload b :=
  forall_fn (P := fun f : Kind.condition.Fn D => f data payload a = f data payload b) rfl
    (fun s hs => h.conditions s hs data payload a b) i

theorem action : t.fn .action i data payload a = t.fn .action i data payload b :=
  forall_fn (P := fun f : Kind.action.Fn D => f data payload a = f data payload b) rfl
    (fun s hs => h.actions s hs data payload a b) i

theorem time : t.fn .time i data payload a = t.fn .time i data payload b :=
  forall_fn (P := fun f : Kind.time.Fn D => f data payload a = f data payload b) rfl
    (fun s hs => h.times s hs data payload a b) i

theorem target : (t.target i).fn data payload a = (t.target i).fn data payload b :=
  forall_target (P := fun f => f data payload a = f data payload b) rfl
    (fun s hs => h.targets s hs data payload a b) i

end Table.IgnoresResults

namespace Context

variable {ctx : Context D} (h : ctx.table.IgnoresResults) (data : D) (a b : Json)
include h

theorem gather_eq_error_iff (stage : Purpose) (is : List Nat) (e : FunctionError) :
    ctx.gather stage data is a = .error e ↔ ctx.gather stage data is b = .error e := by
  cases is with
  | nil => simp [gather]
  | cons i is => simp only [gather, h.result i data ctx.payload a b]

theorem passes_eq (guards : Guards) : ctx.passes data a guards = ctx.passes data b guards := by
  have : ctx.holds data a = ctx.holds data b :=
    funext fun i => h.condition i data ctx.payload a b
  rw [passes, this, passes]

theorem delay_eq (d : Delay) : ctx.delay data a d = ctx.delay data b d := by
  cases d with
  | fixed seconds => rfl
  | computed i => simp only [delay, h.time i data ctx.payload a b]

theorem target_eq (d : Destination) : ctx.target data a d = ctx.target data b d := by
  cases d with
  | path target => rfl
  | computed i => simp only [target, h.target i data ctx.payload a b]

theorem requests_eq (secret : Bool) : ∀ ds : List Destination,
    ctx.requests data a secret ds = ctx.requests data b secret ds
  | [] => rfl
  | d :: ds => by simp only [requests, target_eq h data a b d, requests_eq secret ds]

end Context

/-! ### A run behind an earlier one -/

/-- `r'` is where `r` is, with what `earlier` collected before it. Results, and which
handlers passed, are left out. -/
structure Run.Follows (earlier r r' : Run D) : Prop where
  value : r'.copy.value = r.copy.value
  notify : r'.notify = (earlier.notify || r.notify)
  requests : r'.requests = earlier.requests ++ r.requests
  sends : r'.sends = earlier.sends ++ r.sends
  stop : r'.stop = r.stop

namespace Run.Follows

variable {earlier r r' : Run D}

theorem isStopped (h : Follows earlier r r') : r'.isStopped = r.isStopped := by
  rw [Run.isStopped, h.stop, Run.isStopped]

theorem fail (h : Follows earlier r r') (e : FunctionError) :
    Follows earlier (r.fail e) (r'.fail e) :=
  ⟨h.value, h.notify, h.requests, h.sends, rfl⟩

theorem enclose (h : Follows earlier r r') (outer : List Frame) :
    Follows earlier (r.enclose outer) (r'.enclose outer) := by
  unfold Run.enclose
  rw [h.stop]
  split
  · exact ⟨h.value, h.notify, h.requests, h.sends, rfl⟩
  · exact h

theorem withResult (h : Follows earlier r r') (a b : Json) :
    Follows earlier { r with result := a } { r' with result := b } :=
  ⟨h.value, h.notify, h.requests, h.sends, h.stop⟩

theorem andThen (h : Follows earlier r r') {f g : Run D → Run D}
    (hfg : ∀ {x x' : Run D}, x.stop = none → Follows earlier x x' → Follows earlier (f x) (g x')) :
    Follows earlier (r.andThen f) (r'.andThen g) := by
  by_cases hs : r.isStopped = true
  · rw [Run.andThen_of_isStopped hs, Run.andThen_of_isStopped (h.isStopped.trans hs)]
    exact h
  · have hn := Run.stop_eq_none_of_not_isStopped hs
    rw [Run.andThen_of_stop_eq_none hn, Run.andThen_of_stop_eq_none (h.stop.trans hn)]
    exact hfg hn h

end Run.Follows

namespace Context

open Run (Follows)

variable {ctx : Context D} (hT : ctx.table.IgnoresResults) {earlier : Run D}
include hT

theorem act_follows (stage : Purpose) : ∀ (is : List Nat) {r r' : Run D}, Follows earlier r r' →
    Follows earlier (ctx.act stage is r) (ctx.act stage is r')
  | [], _, _, h => h
  | i :: is, r, r', h => by
    unfold act
    rw [h.value, hT.action i r.copy.value ctx.payload r'.result r.result]
    dsimp only
    split
    · exact ⟨rfl, h.notify, h.requests, h.sends, rfl⟩
    · refine act_follows stage is ⟨rfl, ?_, h.requests, h.sends, h.stop⟩
      simp only [h.notify, Bool.or_assoc]

theorem enact_follows (g : Handler) {r r' : Run D} (h : Follows earlier r r') :
    Follows earlier (ctx.enact g r) (ctx.enact g r') := by
  have hact : Follows earlier
      (ctx.act .action g.body.actions { r with passed := r.passed ++ [g] })
      (ctx.act .action g.body.actions { r' with passed := r'.passed ++ [g] }) :=
    act_follows hT _ _ ⟨h.value, h.notify, h.requests, h.sends, h.stop⟩
  rw [enact_eq, enact_eq]
  refine hact.andThen fun _ hx => ?_
  refine (act_follows hT .secretAction g.body.secretActions hx).andThen fun _ hy => ?_
  refine ⟨hy.value, hy.notify, hy.requests, ?_, hy.stop⟩
  simp only [hy.sends, List.append_assoc]

theorem move_follows (b : Handler.Body) {r r' : Run D} (h : Follows earlier r r') :
    Follows earlier (ctx.move b r) (ctx.move b r') := by
  unfold move
  rw [h.value, requests_eq hT _ r'.result r.result, requests_eq hT _ r'.result r.result]
  split
  · exact h.fail _
  · exact h.fail _
  · refine ⟨h.value, ?_, ?_, h.sends, rfl⟩
    · simp only [h.notify, Bool.or_assoc]
    · simp only [h.requests, List.append_assoc]

theorem checkBreak_follows (b : Handler.Body) {r r' : Run D} (h : Follows earlier r r') :
    Follows earlier (ctx.checkBreak b r) (ctx.checkBreak b r') := by
  unfold checkBreak
  split
  · exact h
  · rename_i i _
    have : ctx.holds r'.copy.value r'.result i = ctx.holds r.copy.value r.result i := by
      rw [h.value]
      exact hT.condition i _ _ _ _
    rw [this]
    split
    · exact ⟨h.value, h.notify, h.requests, h.sends, rfl⟩
    · exact h

/-- Runs of the chain go on alike behind what an earlier run collected. -/
def KeepsFollowing (ctx : Context D) (earlier : Run D) (chain : Chain) : Prop :=
  ∀ (before : List Handler) {r r' : Run D}, Follows earlier r r' →
    Follows earlier (ctx.runChain before chain r) (ctx.runChain before chain r')

theorem nested_follows {f : Frame} (hf : f.point ≠ .wait) {chain : Option Chain}
    (ih : ∀ c, chain = some c → ctx.KeepsFollowing earlier c) {r r' : Run D}
    (h : Follows earlier r r') :
    Follows earlier (ctx.nested f chain r) (ctx.nested f chain r') := by
  have hfinish : ∀ {x x' : Run D}, Follows earlier x x' →
      Follows earlier (ctx.finish f x) (ctx.finish f x') := fun {x x'} hx => by
    unfold finish
    split
    · contradiction
    · exact checkBreak_follows hT f.handler.body hx
    · exact hx
  cases chain with
  | none => exact hfinish h
  | some chain => exact ((ih chain rfl [] h).enclose [f]).andThen fun _ hx => hfinish hx

theorem runHandler_follows {body : Handler.Body} {thenDo otherwise : Option Chain}
    (ihThen : ∀ c, thenDo = some c → ctx.KeepsFollowing earlier c)
    (ihElse : ∀ c, otherwise = some c → ctx.KeepsFollowing earlier c)
    (before rest : List Handler) {r r' : Run D} (h : Follows earlier r r') :
    Follows earlier (ctx.runHandler before rest (.mk body thenDo otherwise) r)
      (ctx.runHandler before rest (.mk body thenDo otherwise) r') := by
  rw [runHandler_eq, runHandler_eq, h.value]
  cases hg : ctx.gather .result r.copy.value body.get r.result with
  | error e =>
    rw [(gather_eq_error_iff hT _ r.result r'.result _ _ e).mp hg]
    exact h.fail e
  | ok result =>
    cases hg' : ctx.gather .result r.copy.value body.get r'.result with
    | error e =>
      rw [(gather_eq_error_iff hT _ r'.result r.result _ _ e).mp hg'] at hg
      cases hg
    | ok result' =>
      simp only [passes_eq hT r.copy.value result' result]
      have hr := h.withResult result result'
      split
      · refine (enact_follows hT _ hr).andThen fun _ hx => ?_
        split
        · exact move_follows hT body hx
        · exact nested_follows hT (by simp) ihThen hx
      · exact nested_follows hT (by simp) ihElse hr

theorem runChain_follows (chain : Chain) : ctx.KeepsFollowing earlier chain := by
  induction chain using Chain.induction with
  | nil => exact fun _ _ _ h => h
  | cons body thenDo otherwise rest ihThen ihElse ih =>
    intro before r r' h
    cases hw : body.wait with
    | some d =>
      simp only [runChain, Handler.body, hw]
      rw [h.value, delay_eq hT _ r'.result r.result]
      exact ⟨h.value, h.notify, h.requests, h.sends, rfl⟩
    | none =>
      rw [ctx.runChain_cons (h := .mk body thenDo otherwise) hw,
        ctx.runChain_cons (h := .mk body thenDo otherwise) hw]
      exact (runHandler_follows hT ihThen ihElse before rest h).andThen fun _ hx => ih _ hx

theorem resumeFrame_follows (f : Frame) {r r' : Run D} (h : Follows earlier r r') :
    Follows earlier (ctx.resumeFrame f r) (ctx.resumeFrame f r') := by
  refine Follows.andThen ?_ fun _ hx => runChain_follows hT f.rest _ hx
  obtain ⟨before, ⟨body, thenDo, otherwise⟩, rest, point⟩ := f
  cases point with
  | wait =>
    exact runHandler_follows hT (fun c _ => runChain_follows hT c)
      (fun c _ => runChain_follows hT c) before rest h
  | thenDone => exact checkBreak_follows hT body h
  | elseDone => exact h

/-- What is left of a chain goes on alike behind what an earlier run collected. -/
theorem resumeFrames_follows : ∀ (frames : List Frame) {r r' : Run D}, Follows earlier r r' →
    Follows earlier (ctx.resumeFrames frames r) (ctx.resumeFrames frames r')
  | [], _, _, h => h
  | f :: outer, r, r', h => by
    have hf := resumeFrame_follows hT f h
    simp only [resumeFrames, hf.isStopped]
    split
    · exact hf.enclose outer
    · exact resumeFrames_follows outer hf

end Context

/-! ### Going on without waiting -/

/-- The run as it is of the chain without its waits. -/
def Run.unwaited (r : Run D) : Run D := { r with passed := r.passed.map Handler.unwaited }

namespace Context

variable (ctx : Context D)

/-- What a run comes to if nothing of what is left of it waits. -/
def unwait (r : Run D) : Run D :=
  match r.continuation? with
  | none => r.unwaited
  | some k => ctx.resumeFrames (k.frames.map Frame.unwaited) { r.unwaited with stop := none }

theorem unwait_of_continuation?_eq_none {r : Run D} (h : r.continuation? = none) :
    ctx.unwait r = r.unwaited := by simp only [unwait, h]

theorem act_unwaited (stage : Purpose) : ∀ (is : List Nat) (r : Run D),
    ctx.act stage is r.unwaited = (ctx.act stage is r).unwaited
  | [], _ => rfl
  | i :: is, r => by
    simp only [act]
    have hfn : ctx.table.fn .action i r.unwaited.copy.value ctx.payload r.unwaited.result =
        ctx.table.fn .action i r.copy.value ctx.payload r.result := rfl
    rw [hfn]
    split
    · rfl
    · exact act_unwaited stage is { r with copy := r.copy.write _, notify := _ }

theorem andThen_unwaited {r : Run D} {f g : Run D → Run D}
    (h : r.stop = none → g r.unwaited = (f r).unwaited) :
    r.unwaited.andThen g = (r.andThen f).unwaited := by
  by_cases hs : r.isStopped = true
  · rw [Run.andThen_of_isStopped hs, Run.andThen_of_isStopped (r := r.unwaited) hs]
  · have hn := Run.stop_eq_none_of_not_isStopped hs
    rw [Run.andThen_of_stop_eq_none hn, Run.andThen_of_stop_eq_none (r := r.unwaited) hn, h hn]

theorem enact_unwaited (h : Handler) (r : Run D) :
    ctx.enact h.unwaited r.unwaited = (ctx.enact h r).unwaited := by
  obtain ⟨body, thenDo, otherwise⟩ := h
  rw [enact_eq, enact_eq]
  have hpassed : ({ r.unwaited with
        passed := r.unwaited.passed ++ [(Handler.mk body thenDo otherwise).unwaited] } : Run D) =
      Run.unwaited { r with passed := r.passed ++ [.mk body thenDo otherwise] } := by
    simp [Run.unwaited]
  rw [hpassed, Handler.unwaited_mk]
  dsimp only [Handler.body]
  rw [act_unwaited]
  refine andThen_unwaited fun _ => ?_
  rw [act_unwaited]
  exact andThen_unwaited fun _ => rfl

theorem move_unwaited (b : Handler.Body) (r : Run D) :
    ctx.move { b with wait := none } r.unwaited = (ctx.move b r).unwaited := by
  unfold move
  dsimp only [Run.unwaited]
  split <;> rfl

theorem checkBreak_unwaited (b : Handler.Body) (r : Run D) :
    ctx.checkBreak { b with wait := none } r.unwaited = (ctx.checkBreak b r).unwaited := by
  simp only [checkBreak]
  cases b.breakWhen with
  | none => rfl
  | some i =>
    have hholds : ctx.holds r.unwaited.copy.value r.unwaited.result i =
        ctx.holds r.copy.value r.result i := rfl
    simp only [hholds]
    split <;> rfl

theorem finish_unwaited {f : Frame} (hf : f.point ≠ .wait) (r : Run D) :
    ctx.finish f.unwaited r.unwaited = (ctx.finish f r).unwaited := by
  obtain ⟨before, ⟨body, thenDo, otherwise⟩, rest, point⟩ := f
  cases point with
  | wait => contradiction
  | thenDone => exact ctx.checkBreak_unwaited body r
  | elseDone => rfl

/-- A run that does not wait goes on as the run without waits does. -/
theorem unwait_andThen {r : Run D} (h : r.continuation? = none) {f g : Run D → Run D}
    (hfg : ∀ x : Run D, x.stop = none → ctx.unwait (f x) = g x.unwaited) :
    ctx.unwait (r.andThen f) = r.unwaited.andThen g := by
  by_cases hs : r.isStopped = true
  · rw [Run.andThen_of_isStopped hs, Run.andThen_of_isStopped (r := r.unwaited) hs,
      ctx.unwait_of_continuation?_eq_none h]
  · have hn := Run.stop_eq_none_of_not_isStopped hs
    rw [Run.andThen_of_stop_eq_none hn, Run.andThen_of_stop_eq_none (r := r.unwaited) hn, hfg r hn]

/-- Whether a run waits inside some frames or not, it goes on with them. -/
theorem unwait_enclose_andThen (r : Run D) (outer : List Frame)
    (h : ∀ x : Run D, x.stop = none → ctx.unwait (ctx.resumeFrames outer x) =
      ctx.resumeFrames (outer.map Frame.unwaited) x.unwaited) :
    ctx.unwait ((r.enclose outer).andThen (ctx.resumeFrames outer)) =
      ((ctx.unwait r).enclose (outer.map Frame.unwaited)).andThen
        (ctx.resumeFrames (outer.map Frame.unwaited)) := by
  cases hc : r.continuation? with
  | none =>
    rw [Run.enclose_of_continuation?_eq_none hc, ctx.unwait_of_continuation?_eq_none hc,
      Run.enclose_of_continuation?_eq_none (r := r.unwaited) hc]
    exact ctx.unwait_andThen hc h
  | some k =>
    have hstop := Run.continuation?_eq_some_iff.mp hc
    have hs : (r.enclose outer).isStopped = true := by
      rw [Run.isStopped_enclose]
      exact Run.isStopped_of_stop_eq_some hstop
    have henclose : ({ (r.enclose outer).unwaited with stop := none } : Run D) =
        { r.unwaited with stop := none } := by
      simp [Run.enclose, hstop, Run.unwaited]
    rw [Run.andThen_of_isStopped hs]
    simp only [unwait, Run.continuation?_enclose, hc, Option.map_some, List.map_append, henclose]
    exact ctx.resumeFrames_append _ _ rfl

/-- Without its waits, the chain comes to what its run would come to without waiting. -/
def Unwaits (chain : Chain) : Prop :=
  ∀ (before : List Handler) (r : Run D), r.stop = none →
    ctx.unwait (ctx.runChain before chain r) =
      ctx.runChain (Chain.unwaited before) (Chain.unwaited chain) r.unwaited

theorem unwait_tail (before : List Handler) (h : Handler) {rest : List Handler}
    (ih : ctx.Unwaits rest) (r : Run D) (hr : r.stop = none) :
    ctx.unwait (ctx.runChain (before ++ [h]) rest r) =
      ctx.runChain (Chain.unwaited before ++ [h.unwaited]) (Chain.unwaited rest) r.unwaited := by
  rw [ih _ r hr, Chain.unwaited_append]
  rfl

theorem unwait_resumeFrame_of_ne_wait {f : Frame} (hf : f.point ≠ .wait)
    (ih : ctx.Unwaits f.rest) (r : Run D) (hr : r.stop = none) :
    ctx.unwait (ctx.resumeFrame f r) = ctx.resumeFrame f.unwaited r.unwaited := by
  rw [resumeFrame_eq, resumeFrame_eq, ctx.finish_unwaited hf]
  exact ctx.unwait_andThen (ctx.continuation?_finish hf (Run.continuation?_of_stop_eq_none hr))
    (ctx.unwait_tail f.before f.handler ih)

/-- A chain inside a handler, and then the handlers after that handler. -/
theorem unwait_nested {f : Frame} (hf : f.point ≠ .wait) {chain : Option Chain}
    (ihInner : ∀ c, chain = some c → ctx.Unwaits c) (ih : ctx.Unwaits f.rest) (r : Run D)
    (hr : r.stop = none) :
    ctx.unwait ((ctx.nested f chain r).andThen
        (ctx.runChain (f.before ++ [f.handler]) f.rest)) =
      (ctx.nested f.unwaited (chain.map Chain.unwaited) r.unwaited).andThen
        (ctx.runChain (f.unwaited.before ++ [f.unwaited.handler]) f.unwaited.rest) := by
  cases chain with
  | none => exact ctx.unwait_resumeFrame_of_ne_wait hf ih r hr
  | some chain =>
    have hframe : ∀ x : Run D, x.stop = none → ctx.unwait (ctx.resumeFrames [f] x) =
        ctx.resumeFrames ([f].map Frame.unwaited) x.unwaited := fun x hx => by
      rw [List.map_singleton, resumeFrames_singleton, resumeFrames_singleton]
      exact ctx.unwait_resumeFrame_of_ne_wait hf ih x hx
    have h := ctx.unwait_enclose_andThen (ctx.runChain [] chain r) [f] hframe
    rw [ihInner chain rfl [] r hr] at h
    simp only [List.map_singleton, resumeFrames_singleton] at h
    simp only [nested, Option.map_some, Run.andThen_assoc]
    exact h

/-- A handler whose wait is over, and then the handlers after it. -/
theorem unwait_runHandler {body : Handler.Body} {thenDo otherwise : Option Chain}
    (ihThen : ∀ c, thenDo = some c → ctx.Unwaits c)
    (ihElse : ∀ c, otherwise = some c → ctx.Unwaits c) (before : List Handler)
    {rest : List Handler} (ih : ctx.Unwaits rest) (r : Run D) (hr : r.stop = none) :
    ctx.unwait ((ctx.runHandler before rest (.mk body thenDo otherwise) r).andThen
        (ctx.runChain (before ++ [.mk body thenDo otherwise]) rest)) =
      (ctx.runHandler (Chain.unwaited before) (Chain.unwaited rest)
          (Handler.mk body thenDo otherwise).unwaited r.unwaited).andThen
        (ctx.runChain (Chain.unwaited before ++ [(Handler.mk body thenDo otherwise).unwaited])
          (Chain.unwaited rest)) := by
  have hunwaited := Handler.unwaited_mk body thenDo otherwise
  have hgather : ctx.gather .result r.unwaited.copy.value body.get r.unwaited.result =
      ctx.gather .result r.copy.value body.get r.result := rfl
  rw [hunwaited, runHandler_eq, runHandler_eq, hgather]
  cases ctx.gather .result r.copy.value body.get r.result with
  | error e => rfl
  | ok result =>
    have hpasses : ctx.passes r.unwaited.copy.value result body.guards =
        ctx.passes r.copy.value result body.guards := rfl
    have hr' : ({ r with result } : Run D).stop = none := hr
    simp only [hpasses]
    split
    · have henact := ctx.enact_unwaited (.mk body thenDo otherwise) { r with result }
      have hnone := ctx.continuation?_enact (.mk body thenDo otherwise)
        (Run.continuation?_of_stop_eq_none hr')
      rw [hunwaited] at henact
      rw [Run.andThen_assoc, Run.andThen_assoc]
      refine (ctx.unwait_andThen hnone fun x hx => ?_).trans
        (congrArg (Run.andThen · _) henact.symm)
      -- a handler that moves stops the run, so neither its chains nor the rest come up
      by_cases hm : body.moves = true
      · have hm' : ({ body with wait := none } : Handler.Body).moves = true := hm
        have htail := ctx.unwait_tail before (.mk body thenDo otherwise) ih
        rw [hunwaited] at htail
        rw [if_pos hm, if_pos hm', ctx.move_unwaited]
        exact ctx.unwait_andThen (ctx.continuation?_move body x) htail
      · have hm' : ¬ ({ body with wait := none } : Handler.Body).moves = true := hm
        rw [if_neg hm, if_neg hm', ← hunwaited]
        exact ctx.unwait_nested (f := ⟨before, .mk body thenDo otherwise, rest, .thenDone⟩)
          (by simp) ihThen ih x hx
    · rw [← hunwaited]
      exact ctx.unwait_nested (f := ⟨before, .mk body thenDo otherwise, rest, .elseDone⟩)
        (by simp) ihElse ih { r with result } hr

theorem unwait_wait (before : List Handler) (h : Handler) (rest : List Handler) (r : Run D) :
    ctx.resumeFrame (Frame.unwaited ⟨before, h, rest, .wait⟩) r =
      ctx.runChain (Chain.unwaited before) (Chain.unwaited (h :: rest)) r := by
  rw [Chain.unwaited, ctx.runChain_cons h.wait_unwaited]
  rfl

/-- Taking the waits out of a chain changes nothing but that it waits. -/
theorem unwait_runChain (chain : Chain) : ctx.Unwaits chain := by
  induction chain using Chain.induction with
  | nil =>
    intro before r hr
    exact ctx.unwait_of_continuation?_eq_none (Run.continuation?_of_stop_eq_none hr)
  | cons body thenDo otherwise rest ihThen ihElse ih =>
    intro before r hr
    cases hw : body.wait with
    | some d =>
      have hreleased : ({ r.unwaited with stop := none } : Run D) = r.unwaited := by
        cases r
        cases hr
        rfl
      rw [← unwait_wait, ← hreleased]
      simp only [runChain, Handler.body, hw, unwait, Run.continuation?, List.map_singleton,
        resumeFrames_singleton]
      rfl
    | none =>
      rw [ctx.runChain_cons (h := .mk body thenDo otherwise) hw, Chain.unwaited,
        ctx.runChain_cons (Handler.wait_unwaited _)]
      exact ctx.unwait_runHandler ihThen ihElse before ih r hr

theorem unwait_resumeFrame (f : Frame) (r : Run D) (hr : r.stop = none) :
    ctx.unwait (ctx.resumeFrame f r) = ctx.resumeFrame f.unwaited r.unwaited := by
  by_cases hf : f.point = .wait
  · obtain ⟨before, ⟨body, thenDo, otherwise⟩, rest, point⟩ := f
    subst hf
    exact ctx.unwait_runHandler (fun c _ => ctx.unwait_runChain c)
      (fun c _ => ctx.unwait_runChain c) before (ctx.unwait_runChain rest) r hr
  · exact ctx.unwait_resumeFrame_of_ne_wait hf (ctx.unwait_runChain f.rest) r hr

/-- Taking the waits out of what is left of a chain changes nothing but that it waits. -/
theorem unwait_resumeFrames : ∀ (frames : List Frame) (r : Run D), r.stop = none →
    ctx.unwait (ctx.resumeFrames frames r) =
      ctx.resumeFrames (frames.map Frame.unwaited) r.unwaited
  | [], r, hr => ctx.unwait_of_continuation?_eq_none (Run.continuation?_of_stop_eq_none hr)
  | f :: outer, r, hr => by
    have hcons : ∀ (f : Frame) (outer : List Frame) {r : Run D}, r.stop = none →
        ctx.resumeFrames (f :: outer) r =
          ((ctx.resumeFrame f r).enclose outer).andThen (ctx.resumeFrames outer) :=
      fun f outer r hr => by
        have h := ctx.resumeFrames_append [f] outer hr
        rwa [resumeFrames_singleton] at h
    rw [hcons f outer hr, ctx.unwait_enclose_andThen _ _ (unwait_resumeFrames outer),
      ctx.unwait_resumeFrame f r hr, List.map_cons]
    exact (hcons f.unwaited (outer.map Frame.unwaited) (r := r.unwaited) hr).symm

/-- Without waiting, a run comes to an end. -/
theorem continuation?_unwait (r : Run D) : (ctx.unwait r).continuation? = none := by
  cases hc : r.continuation? with
  | none =>
    rw [ctx.unwait_of_continuation?_eq_none hc]
    exact hc
  | some k =>
    simp only [unwait, hc]
    exact ctx.continuation?_resumeFrames (Continuation.pending_unwaited k.frames) rfl

end Context

/-! ### Stages -/

/-- The outcome with what an earlier run collected before it. -/
def Outcome.after (earlier : Run D) (o : Outcome D) : Outcome D :=
  { o with
    notify := earlier.notify || o.notify
    requests := earlier.requests ++ o.requests
    sends := earlier.sends ++ o.sends }

theorem Run.Follows.outcome {earlier r r' : Run D} (h : Follows earlier r r') :
    r'.outcome = r.outcome.map (Outcome.after earlier) := by
  unfold Run.outcome Run.broke
  rw [h.stop]
  split
  · rfl
  · simp only [h.value, h.notify, h.requests, h.sends, Except.map, Outcome.after]

namespace Context

variable (ctx : Context D)

/-- What a run comes to in stages: while it waits, what is left of it is picked up on a
copy of the data it left. -/
inductive Staged : Run D → Except FunctionError (Outcome D) → Prop
  | ended {r : Run D} (h : r.continuation? = none) : Staged r r.outcome
  | resumed {r : Run D} {k : Continuation} {o : Except FunctionError (Outcome D)}
      (h : r.continuation? = some k) (later : Staged (ctx.resume k { base := r.copy.value }) o) :
      Staged r (o.map (Outcome.after r))

variable {ctx}

theorem staged_iff_of_continuation?_eq_none {r : Run D} (h : r.continuation? = none)
    {o : Except FunctionError (Outcome D)} :
    ctx.Staged r o ↔ o = (ctx.unwait r).outcome := by
  rw [ctx.unwait_of_continuation?_eq_none h]
  constructor
  · rintro (_ | ⟨hc, _⟩)
    · rfl
    · rw [h] at hc
      cases hc
  · rintro rfl
    exact .ended h

variable (hT : ctx.table.IgnoresResults)
include hT

/-- What is left of a run comes, without waiting, to what the run comes to. -/
theorem outcome_unwait {r : Run D} {k : Continuation} (h : r.continuation? = some k) :
    (ctx.unwait r).outcome =
      (ctx.unwait (ctx.resume k { base := r.copy.value })).outcome.map (Outcome.after r) := by
  have hstart : Run.Follows r (Run.start (D := D) { base := r.copy.value }).unwaited
      { r.unwaited with stop := none } :=
    ⟨rfl, (Bool.or_false _).symm, (List.append_nil _).symm, (List.append_nil _).symm, rfl⟩
  rw [resume, unwait_resumeFrames _ _ _ rfl]
  simp only [unwait, h]
  exact (resumeFrames_follows hT _ hstart).outcome

/-- The stages of a run come to what it would come to without waiting. The induction is
on the waits still to come. -/
theorem staged_iff_of_pending_lt (n : Nat) : ∀ {r : Run D} {o : Except FunctionError (Outcome D)},
    (∀ k, r.continuation? = some k → Continuation.pending k.frames < n) →
      (ctx.Staged r o ↔ o = (ctx.unwait r).outcome) := by
  induction n with
  | zero =>
    intro r o hn
    have hc : r.continuation? = none := Option.eq_none_iff_forall_ne_some.mpr fun k hk =>
      absurd (hn k hk) (Nat.not_lt_zero _)
    exact staged_iff_of_continuation?_eq_none hc
  | succ n ih =>
    intro r o hn
    cases hc : r.continuation? with
    | none => exact staged_iff_of_continuation?_eq_none hc
    | some k =>
      have hnext : ∀ k', (ctx.resume k { base := r.copy.value }).continuation? = some k' →
          Continuation.pending k'.frames < n := fun k' hk' => by
        have := ctx.pending_resumeFrames k.frames rfl hk'
        have := hn k hc
        omega
      rw [outcome_unwait hT hc]
      constructor
      · rintro (h | ⟨h, later⟩)
        · rw [hc] at h
          cases h
        · rw [hc] at h
          cases h
          rw [(ih hnext).mp later]
      · rintro rfl
        exact .resumed hc ((ih hnext).mpr rfl)

/-- **Suspending is transparent.** With functions that ignore the result before them, a
chain that is run in stages comes to what one run of it without its waits comes to, a
run that never waits. -/
theorem staged_run_iff (chain : Chain) (data : D) (result : Json)
    (o : Except FunctionError (Outcome D)) :
    (ctx.run (Chain.unwaited chain) { base := data } result).continuation? = none ∧
      (ctx.Staged (ctx.run chain { base := data } result) o ↔
        o = (ctx.run (Chain.unwaited chain) { base := data } result).outcome) := by
  have hrun : ctx.unwait (ctx.run chain { base := data } result) =
      ctx.run (Chain.unwaited chain) { base := data } result :=
    ctx.unwait_runChain chain [] (.start { base := data } result) rfl
  rw [← hrun]
  exact ⟨ctx.continuation?_unwait _,
    staged_iff_of_pending_lt hT _ fun k hk => ctx.pending_runChain chain [] _ k rfl hk⟩

omit hT

/-- A table of one action, which counts, and one condition, that the count is positive. -/
def counting : Context Nat where
  table := {
    actions := [⟨some "count", fun n _ _ => (n + 1, none)⟩]
    conditions := [⟨some "isPositive", fun n _ _ => 0 < n⟩] }
  payload := .null

theorem counting_ignoresResults : counting.table.IgnoresResults := by
  constructor <;> simp [counting]

/-- A wait inside a `then` chain whose handler breaks off only afterwards, an `else` chain
with a wait, and a transition that is made in the third stage. -/
theorem staged_run_counting :
    let chain : Chain := [
      .mk {} (some [.mk { wait := some (.fixed 1), actions := [0] } none none]) none,
      .mk { guards := { noneOf := [0] } } none
        (some [.mk { wait := some (.computed 0), targets := [.path "done"] } none none]),
      .ofAction 0]
    counting.table.IgnoresResults ∧
      counting.Staged (counting.run chain { base := 0 })
        (.ok {
          data := 1
          notify := true
          requests := [⟨"done", false⟩]
          sends := []
          broke := true }) :=
  ⟨counting_ignoresResults, (staged_run_iff counting_ignoresResults _ 0 .null _).2.mpr rfl⟩

end Context
end Statechart
