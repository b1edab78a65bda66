/-
# What a probe foresees

`Context.wouldPass` tells, without acting, whether some handler of a chain would pass
its guards. It looks at the handlers in the order in which a run does, and gathers as a
run does, but it goes on after an `else` chain with the result from before that chain,
where a run goes on with the result the chain left. Both are one search
(`Context.search`) that goes on in one way or the other (`Context.probe_eq_search`,
`Context.runChain_agrees`); so a probe foresees a run exactly if both ways find alike
(`Context.wouldPass_foresees_iff`), as they do if no `else` chain that is searched in
vain leaves another result to the handlers after it. None does if the handlers of `else`
chains do not gather (`Context.keepsResults_of_get_eq_nil`).

Key definitions: `Context.search`, `Context.SearchesAlike`, `Context.KeepsResults`,
`Chain.elseBodies`, `Table.NeverFails`.
Key theorems: `Context.probe_eq_search`, `Context.runChain_agrees`,
`Context.wouldPass_foresees_iff`.
-/
import Statechart.Proofs.Resumption

namespace Statechart

variable {D : Type}

/-- No function of the table that a chain calls fails. -/
structure Table.NeverFails (t : Table D) : Prop where
  results : ∀ s ∈ t.results, ∀ data payload result, (s.fn data payload result).isOk = true
  actions : ∀ s ∈ t.actions, ∀ data payload result, (s.fn data payload result).2 = none
  targets : ∀ s ∈ t.targets, ∀ data payload result, (s.fn data payload result).isOk = true

namespace Table.NeverFails

variable {t : Table D} (h : t.NeverFails) (i : Nat) (data : D) (payload given : Json)
include h

theorem result : (t.fn .result i data payload given).isOk = true :=
  forall_fn (P := fun f : Kind.result.Fn D => (f data payload given).isOk = true) rfl
    (fun s hs => h.results s hs data payload given) i

theorem action : (t.fn .action i data payload given).2 = none :=
  forall_fn (P := fun f : Kind.action.Fn D => (f data payload given).2 = none) rfl
    (fun s hs => h.actions s hs data payload given) i

theorem target : ((t.target i).fn data payload given).isOk = true :=
  forall_target (P := fun f => (f data payload given).isOk = true) rfl
    (fun s hs => h.targets s hs data payload given) i

end Table.NeverFails

/-- A run that did not fail comes to an outcome. -/
theorem Run.exists_outcome {r : Run D} (h : ∀ e, r.stop ≠ some (.failed e)) :
    ∃ o, r.outcome = .ok o ∧ o.notify = r.notify := by
  unfold Run.outcome
  split
  · rename_i e he
    exact absurd he (h e)
  · exact ⟨_, rfl, rfl⟩

/-- The handlers of the `else` chains in a chain, of those in them, and so on. -/
def Chain.elseBodies : List Handler → List Handler.Body
  | [] => []
  | .mk _ _ otherwise :: rest =>
    (match otherwise with
      | none => []
      | some chain => chain.map Handler.body ++ elseBodies chain) ++
    elseBodies rest

theorem Chain.elseBodies_cons (body : Handler.Body) (thenDo otherwise : Option Chain)
    (rest : Chain) : elseBodies (.mk body thenDo otherwise :: rest) =
      (otherwise.elim [] fun chain => chain.map Handler.body ++ elseBodies chain) ++
        elseBodies rest := by
  cases otherwise <;> simp [elseBodies]

namespace Context

variable (ctx : Context D)

/-! ### Searching a chain -/

/-- Look, without acting, for a handler whose guards pass. `none` is that there is one;
otherwise there is the result that the chain leaves. After an `else` chain the search
goes on as `goOn` says, from the result it was given and the one it left. -/
def search (goOn : Json → Json → Json) (data : D) :
    List Handler → Json → Except FunctionError (Option Json)
  | [], result => .ok (some result)
  | .mk body _ otherwise :: rest, result =>
    match ctx.gather .result data body.get result with
    | .error e => .error e
    | .ok given =>
      if ctx.passes data given body.guards then .ok none
      else
        match otherwise with
        | none => search goOn data rest given
        | some chain =>
          match search goOn data chain given with
          | .error e => .error e
          | .ok none => .ok none
          | .ok (some left) => search goOn data rest (goOn given left)

/-- The search that goes on with the result an `else` chain was given. -/
abbrev searchGiven : D → List Handler → Json → Except FunctionError (Option Json) :=
  ctx.search fun given _ => given

/-- The search that goes on with the result an `else` chain left. -/
abbrev searchLeft : D → List Handler → Json → Except FunctionError (Option Json) :=
  ctx.search fun _ left => left

/-- Both searches of the chain find a handler that passes, or neither does. -/
def SearchesAlike (data : D) (chain : Chain) : Prop :=
  ctx.searchGiven data chain .null = .ok none ↔ ctx.searchLeft data chain .null = .ok none

/-- An `else` chain that is searched in vain leaves the result it was given, unless no
handler comes after it. -/
def KeepsResults (data : D) : List Handler → Json → Prop
  | [], _ => True
  | .mk body _ otherwise :: rest, result =>
    ∀ given, ctx.gather .result data body.get result = .ok given →
      ctx.passes data given body.guards = false →
        match otherwise with
        | none => KeepsResults data rest given
        | some chain =>
          KeepsResults data chain given ∧
            ∀ left, ctx.searchLeft data chain given = .ok (some left) →
              (rest ≠ [] → left = given) ∧ KeepsResults data rest left

/-- A probe goes on with the result that an `else` chain was given. -/
theorem probe_eq_search (data : D) (chain : Chain) : ∀ result : Json,
    ctx.probe data chain result = (ctx.searchGiven data chain result).map Option.isNone := by
  induction chain using Chain.induction with
  | nil =>
    intro result
    rw [probe, searchGiven, search]
    rfl
  | cons body thenDo otherwise rest _ ihElse ih =>
    intro result
    rw [probe, searchGiven, search]
    cases ctx.gather .result data body.get result with
    | error e => rfl
    | ok given =>
      simp only
      split
      · rfl
      · cases otherwise with
        | none => exact ih given
        | some chain =>
          simp only [ihElse chain rfl given]
          rcases hs : ctx.search (fun given _ => given) data chain given with e | (_ | left)
          · simp [hs, Except.map]
          · simp [hs, Except.map]
          · simp only [hs, Except.map, Option.isNone_some]
            exact ih given

/-- Where no result is lost, a probe goes on with the result that an `else` chain left
as well. -/
theorem probe_eq_search_of_keepsResults (data : D) (chain : Chain) : ∀ result : Json,
    ctx.KeepsResults data chain result →
      ctx.probe data chain result = (ctx.searchLeft data chain result).map Option.isNone := by
  induction chain using Chain.induction with
  | nil =>
    intro result _
    rw [probe, searchLeft, search]
    rfl
  | cons body thenDo otherwise rest _ ihElse ih =>
    intro result hk
    rw [probe, searchLeft, search]
    rw [KeepsResults] at hk
    cases hg : ctx.gather .result data body.get result with
    | error e => rfl
    | ok given =>
      cases hp : ctx.passes data given body.guards with
      | true => simp only [hp, if_true]; rfl
      | false =>
        simp only [hp, Bool.false_eq_true, if_false]
        replace hk := hk given hg hp
        cases otherwise with
        | none => exact ih given hk
        | some chain =>
          obtain ⟨hchain, hrest⟩ := hk
          simp only [ihElse chain rfl given hchain]
          rcases hs : ctx.searchLeft data chain given with e | (_ | left)
          · simp [hs, Except.map]
          · simp [hs, Except.map]
          · obtain ⟨hleft, hkeeps⟩ := hrest left hs
            simp only [hs, Except.map, Option.isNone_some]
            cases rest with
            | nil => simp [probe, search]
            | cons g rest =>
              rw [← hleft (by simp)]
              exact ih left hkeeps

/-- Where no handler gathers, neither those of the chain nor those of the `else` chains in
it, a search in vain leaves the result it was given. -/
theorem left_eq_of_get_eq_nil (data : D) (chain : Chain) : ∀ {result left : Json},
    (∀ b ∈ chain.map Handler.body ++ Chain.elseBodies chain, b.get = []) →
      ctx.searchLeft data chain result = .ok (some left) → left = result := by
  induction chain using Chain.induction with
  | nil =>
    intro result left _ h
    rw [searchLeft, search] at h
    cases h
    rfl
  | cons body thenDo otherwise rest _ ihElse ih =>
    intro result left hget h
    rw [Chain.elseBodies_cons] at hget
    have hbody : body.get = [] := hget body List.mem_cons_self
    have hrest : ∀ b ∈ rest.map Handler.body ++ Chain.elseBodies rest, b.get = [] := by
      intro b hb
      rcases List.mem_append.mp hb with hb | hb
      · exact hget b (List.mem_append_left _ (List.mem_cons_of_mem _ hb))
      · exact hget b (List.mem_append_right _ (List.mem_append_right _ hb))
    rw [searchLeft, search, hbody, gather] at h
    simp only at h
    split at h
    · cases h
    · cases otherwise with
      | none => exact ih hrest h
      | some chain =>
        have hchain : ∀ b ∈ chain.map Handler.body ++ Chain.elseBodies chain, b.get = [] :=
          fun b hb => hget b (List.mem_append_right _ (List.mem_append_left _ hb))
        simp only at h
        rcases hs : ctx.searchLeft data chain result with e | (_ | between)
        · rw [searchLeft] at hs
          rw [hs] at h
          cases h
        · rw [searchLeft] at hs
          rw [hs] at h
          cases h
        · rw [ihElse chain rfl hchain hs, searchLeft] at hs
          rw [hs] at h
          exact ih hrest h

/-- Where the handlers of `else` chains do not gather, no result is lost. -/
theorem keepsResults_of_get_eq_nil (data : D) (chain : Chain) : ∀ result : Json,
    (∀ b ∈ Chain.elseBodies chain, b.get = []) → ctx.KeepsResults data chain result := by
  induction chain using Chain.induction with
  | nil =>
    intro result _
    rw [KeepsResults]
    trivial
  | cons body thenDo otherwise rest _ ihElse ih =>
    intro result helse
    rw [Chain.elseBodies_cons] at helse
    have hrest : ∀ b ∈ Chain.elseBodies rest, b.get = [] := fun b hb =>
      helse b (List.mem_append_right _ hb)
    rw [KeepsResults]
    intro given _ _
    cases otherwise with
    | none => exact ih given hrest
    | some chain =>
      have hchain : ∀ b ∈ chain.map Handler.body ++ Chain.elseBodies chain, b.get = [] :=
        fun b hb => helse b (List.mem_append_left _ hb)
      refine ⟨ihElse chain rfl given fun b hb => hchain b (List.mem_append_right _ hb), ?_⟩
      intro left hleft
      exact ⟨fun _ => ctx.left_eq_of_get_eq_nil data chain hchain hleft, ih left hrest⟩

theorem wouldPass_eq_ok_true_iff (data : D) (chain : Chain) :
    ctx.wouldPass data chain = .ok true ↔ ctx.searchGiven data chain .null = .ok none := by
  rw [wouldPass, probe_eq_search]
  rcases ctx.searchGiven data chain .null with e | (_ | left) <;> simp [Except.map]

theorem searchesAlike_of_keepsResults {data : D} {chain : Chain}
    (hk : ctx.KeepsResults data chain .null) : ctx.SearchesAlike data chain := by
  have h := ctx.probe_eq_search_of_keepsResults data chain .null hk
  rw [SearchesAlike, ← wouldPass_eq_ok_true_iff, wouldPass, h]
  rcases ctx.searchLeft data chain .null with e | (_ | left) <;> simp [Except.map]

/-! ### Running a chain -/

/-- `r` is further than `earlier`: handlers passed behind those that had, and an
obligation to a notification stays. -/
structure Grows (earlier r : Run D) : Prop where
  passed : earlier.passed <+: r.passed
  notify : earlier.notify = true → r.notify = true

theorem act_grows (stage : Purpose) {earlier : Run D} : ∀ (is : List Nat) {r : Run D},
    Grows earlier r → Grows earlier (ctx.act stage is r)
  | [], _, h => h
  | i :: is, r, h => by
    unfold act
    dsimp only
    split
    · exact ⟨h.passed, h.notify⟩
    · refine act_grows stage is ⟨h.passed, fun hn => ?_⟩
      simp only [h.notify hn, Bool.true_or]

theorem enact_grows (h : Handler) {earlier r : Run D}
    (hr : Grows earlier { r with passed := r.passed ++ [h] }) : Grows earlier (ctx.enact h r) := by
  rw [enact_eq]
  refine Run.andThen_induction (ctx.act_grows .action _ hr) fun _ hx => ?_
  refine Run.andThen_induction (ctx.act_grows .secretAction _ hx) fun _ hy => ?_
  exact ⟨hy.passed, hy.notify⟩

/-- Whatever a run does, it only grows. -/
theorem preserves_grows (earlier : Run D) : ctx.Preserves (Grows earlier) where
  fail _ h _ := ⟨h.passed, h.notify⟩
  result _ _ h := ⟨h.passed, h.notify⟩
  enact h _ hr := ctx.enact_grows h ⟨hr.passed.trans (List.prefix_append _ _), hr.notify⟩
  move b _ h := by
    unfold move
    split
    · exact ⟨h.passed, h.notify⟩
    · exact ⟨h.passed, h.notify⟩
    · exact ⟨h.passed, fun hn => by simp only [h.notify hn, Bool.true_or]⟩
  checkBreak b _ h := by
    unfold checkBreak
    split
    · exact h
    · split
      · exact ⟨h.passed, h.notify⟩
      · exact h
  suspend _ h := ⟨h.passed, h.notify⟩

/-- From `r`, a handler of the chain was the first to pass its guards in the run `r'`. -/
def Finds (chain : Chain) (r r' : Run D) : Prop :=
  ∃ h x, h.body ∈ Chain.bodies chain ∧ x.stop = none ∧ x.passed = r.passed ∧
    Grows (ctx.enact h x) r'

/-- What a run does that goes as a search of the chain did. -/
def Agrees (chain : Chain) (r r' : Run D) : Except FunctionError (Option Json) → Prop
  | .error e => r'.passed = r.passed ∧ r'.notify = r.notify ∧ r'.stop = some (.failed e)
  | .ok (some left) => r' = { r with result := left }
  | .ok none => ctx.Finds chain r r'

variable {ctx}

/-- What goes as a search of some handlers did, goes as one of more of them. -/
theorem Agrees.mono {chain more : Chain} (h : ∀ b ∈ Chain.bodies chain, b ∈ Chain.bodies more)
    {r r' : Run D} {given : Json} : ∀ {found : Except FunctionError (Option Json)},
    ctx.Agrees chain { r with result := given } r' found → ctx.Agrees more r r' found
  | .error _, ha => ha
  | .ok (some _), ha => ha
  | .ok none, ⟨g, x, hg, hx⟩ => ⟨g, x, h _ hg, hx⟩

variable (ctx)

/-- A handler whose guards fail does what its `else` chain does, if that does not wait. -/
theorem nested_elseDone (before : List Handler) (h : Handler) (rest : List Handler)
    {otherwise : Option Chain} (hw : ∀ c, otherwise = some c → Chain.waits c = 0) {r : Run D}
    (hr : r.stop = none) : ctx.nested ⟨before, h, rest, .elseDone⟩ otherwise r =
      otherwise.elim r fun c => ctx.runChain [] c r := by
  cases otherwise with
  | none => rfl
  | some chain =>
    rw [nested,
      Run.enclose_of_continuation?_eq_none (ctx.continuation?_runChain (hw chain rfl) [] hr)]
    exact Run.andThen_induction (P := fun x => x = ctx.runChain [] chain r) rfl fun _ h => h

/-- A run of a chain that does not wait goes as the search that goes on with the result an
`else` chain left. -/
theorem runChain_agrees (chain : Chain) : Chain.waits chain = 0 →
    ∀ (before : List Handler) (r : Run D), r.stop = none →
      ctx.Agrees chain r (ctx.runChain before chain r)
        (ctx.searchLeft r.copy.value chain r.result) := by
  induction chain using Chain.induction with
  | nil =>
    intro _ before r hr
    rw [runChain, searchLeft, search]
    rfl
  | cons body thenDo otherwise rest ihThen ihElse ih =>
    intro hw before r hr
    rw [Chain.waits_cons, Handler.inner_mk, Handler.Body.waits_append] at hw
    have hwait : body.wait = none := by
      cases hb : body.wait with
      | none => rfl
      | some d => simp [Handler.body, hb] at hw
    have helse : ∀ c, otherwise = some c → Chain.waits c = 0 := by
      rintro c rfl
      simp only [Option.elim] at hw
      unfold Chain.waits
      omega
    have htail : ∀ b ∈ Chain.bodies rest,
        b ∈ Chain.bodies (.mk body thenDo otherwise :: rest) := fun b hb =>
      List.mem_cons_of_mem _ (List.mem_append_right _ hb)
    rw [ctx.runChain_cons (h := .mk body thenDo otherwise) hwait, runHandler_eq, searchLeft, search]
    cases hg : ctx.gather .result r.copy.value body.get r.result with
    | error e =>
      simp only
      rw [Run.andThen_of_isStopped rfl]
      exact ⟨rfl, rfl, rfl⟩
    | ok given =>
      simp only
      split
      -- Whatever the run does after the handler that passed, it only grows.
      · have he := ctx.preserves_grows
          (ctx.enact (.mk body thenDo otherwise) { r with result := given })
        refine ⟨.mk body thenDo otherwise, { r with result := given }, List.mem_cons_self, hr, rfl,
          ?_⟩
        refine Run.andThen_induction ?_ fun hx h => he.runChain rest _ _ hx h
        refine Run.andThen_induction ⟨List.prefix_rfl, id⟩ fun hx h => ?_
        split
        · exact he.move body hx h
        · exact he.nested (by simp) (fun c _ => he.runChain c) hx h
      · rw [nested_elseDone ctx before _ rest helse (r := { r with result := given }) hr]
        have hrest : ∀ result : Json, _ := fun result =>
          ih (by omega) (before ++ [.mk body thenDo otherwise]) { r with result } hr
        cases otherwise with
        | none =>
          rw [Option.elim, Run.andThen_of_stop_eq_none (r := { r with result := given }) hr]
          exact (hrest given).mono htail
        | some chain =>
          have hinner : ∀ b ∈ Chain.bodies chain,
              b ∈ Chain.bodies (.mk body thenDo (some chain) :: rest) := fun b hb => by
            rw [Chain.bodies, Handler.inner_mk]
            simp [hb]
          have h := ihElse chain rfl (helse chain rfl) [] { r with result := given } hr
          simp only [searchLeft, Option.elim] at h ⊢
          rcases hs : ctx.search (fun _ left => left) r.copy.value chain given with e | (_ | left)
          · rw [hs] at h
            rw [Run.andThen_of_isStopped (Run.isStopped_of_stop_eq_some h.2.2)]
            exact h
          · rw [hs] at h
            obtain ⟨g, x, hg, hx, hp, hgrows⟩ := h
            refine ⟨g, x, hinner _ hg, hx, hp, ?_⟩
            exact Run.andThen_induction hgrows fun hx h =>
              (ctx.preserves_grows _).runChain rest _ _ hx h
          · rw [hs] at h
            rw [show ctx.runChain [] chain { r with result := given } =
              { r with result := left } from h, Run.andThen_of_stop_eq_none (r := { r with result := left }) hr]
            exact (hrest left).mono htail

theorem passed_ne_nil_of_finds {chain : Chain} {r r' : Run D} (h : ctx.Finds chain r r') :
    r'.passed ≠ [] := by
  obtain ⟨g, x, -, -, -, hgrows⟩ := h
  have he := (ctx.enact_grows g (r := x) ⟨List.prefix_rfl, id⟩).passed.trans hgrows.passed
  intro hnil
  rw [hnil] at he
  simp at he

theorem run_agrees {chain : Chain} (hw : Chain.waits chain = 0) (data : D) :
    ctx.Agrees chain (.start { base := data }) (ctx.run chain { base := data })
      (ctx.searchLeft data chain .null) :=
  ctx.runChain_agrees chain hw [] (.start { base := data }) rfl

/-- A run of a chain that does not wait passes a handler exactly if the search that goes
on with the results of `else` chains finds one. -/
theorem passed_run_ne_nil_iff {chain : Chain} (hw : Chain.waits chain = 0) (data : D) :
    (ctx.run chain { base := data }).passed ≠ [] ↔ ctx.searchLeft data chain .null = .ok none := by
  have h := ctx.run_agrees hw data
  rcases hs : ctx.searchLeft data chain .null with e | (_ | left)
  · rw [hs] at h
    simp [h.1, Run.start]
  · rw [hs] at h
    simp [ctx.passed_ne_nil_of_finds h]
  · rw [hs] at h
    simp only [Agrees] at h
    simp [h, Run.start]

/-! ### Functions that do not fail -/

section NeverFails

variable {ctx} (hT : ctx.table.NeverFails)
include hT

theorem gather_ne_error (stage : Purpose) (data : D) (e : FunctionError) : ∀ (is : List Nat)
    (result : Json), ctx.gather stage data is result ≠ .error e
  | [], _ => by simp [gather]
  | i :: is, result => by
    have h := hT.result i data ctx.payload result
    unfold gather
    split
    · exact gather_ne_error stage data e is _
    · rename_i text hfn
      rw [hfn] at h
      cases h

theorem target_ne_error (data : D) (result : Json) (d : Destination) (e : FunctionError) :
    ctx.target data result d ≠ .error e := by
  cases d with
  | path target => simp [Context.target]
  | computed i =>
    have h := hT.target i data ctx.payload result
    unfold Context.target
    simp only
    split
    · simp
    · rename_i text hfn
      rw [hfn] at h
      cases h

theorem requests_ne_error (data : D) (result : Json) (secret : Bool) (e : FunctionError) :
    ∀ ds : List Destination, ctx.requests data result secret ds ≠ .error e
  | [] => by simp [requests]
  | d :: ds => by
    unfold requests
    split
    · rename_i e' he
      exact absurd he (target_ne_error hT data result d e')
    · rename_i target _
      cases hds : ctx.requests data result secret ds with
      | error e' => exact absurd hds (requests_ne_error data result secret e' ds)
      | ok requests => simp [Except.map]

/-- Actions that do not fail leave a run stopped as it was, and oblige to a notification
if they are some and not secret. -/
theorem act_of_neverFails (stage : Purpose) : ∀ (is : List Nat) (r : Run D),
    (ctx.act stage is r).stop = r.stop ∧
      (r.notify = true ∨ stage = .action ∧ is ≠ [] → (ctx.act stage is r).notify = true)
  | [], _ => ⟨rfl, fun h => h.elim id fun h => absurd rfl h.2⟩
  | i :: is, r => by
    have h := hT.action i r.copy.value ctx.payload r.result
    simp only [act]
    split
    · rename_i text hfn
      rw [hfn] at h
      cases h
    · obtain ⟨hstop, hnotify⟩ := act_of_neverFails stage is
        { r with
          copy := r.copy.write (ctx.table.fn .action i r.copy.value ctx.payload r.result).1
          notify := r.notify || stage = .action }
      refine ⟨hstop, fun hn => hnotify (Or.inl ?_)⟩
      rcases hn with hn | ⟨hn, -⟩
      · simp [hn]
      · simp [hn]

theorem enact_of_neverFails (h : Handler) {r : Run D} (hr : r.stop = none) :
    (ctx.enact h r).stop = none ∧ (h.body.actions ≠ [] → (ctx.enact h r).notify = true) := by
  have hact := act_of_neverFails hT .action h.body.actions { r with passed := r.passed ++ [h] }
  rw [enact_eq]
  generalize ctx.act .action h.body.actions { r with passed := r.passed ++ [h] } = x at hact ⊢
  have hsecret := act_of_neverFails hT .secretAction h.body.secretActions x
  have hx : x.stop = none := hact.1.trans hr
  rw [Run.andThen_of_stop_eq_none hx, Run.andThen_of_stop_eq_none (hsecret.1.trans hx)]
  exact ⟨hsecret.1.trans hx, fun hne => hsecret.2 (Or.inl (hact.2 (Or.inr ⟨rfl, hne⟩)))⟩

/-- Where no function fails, no run does. -/
theorem preserves_noFailure : ctx.Preserves fun r : Run D => ∀ e, r.stop ≠ some (.failed e) where
  fail _ _ hg := absurd hg (gather_ne_error hT _ _ _ _ _)
  result _ _ h := h
  enact h hr _ := by
    rw [(enact_of_neverFails hT h hr).1]
    simp
  move b _ h := by
    unfold move
    split
    · rename_i e he
      exact absurd he (requests_ne_error hT _ _ _ e _)
    · rename_i e _ he
      exact absurd he (requests_ne_error hT _ _ _ e _)
    · simp
  checkBreak b _ h := by
    unfold checkBreak
    split
    · exact h
    · split
      · simp
      · exact h
  suspend _ _ := by simp

theorem search_ne_error (goOn : Json → Json → Json) (data : D) (e : FunctionError) (chain : Chain) :
    ∀ result : Json, ctx.search goOn data chain result ≠ .error e := by
  induction chain using Chain.induction with
  | nil => simp [search]
  | cons body thenDo otherwise rest _ ihElse ih =>
    intro result
    rw [search]
    cases hg : ctx.gather .result data body.get result with
    | error e' => exact absurd hg (gather_ne_error hT _ _ e' _ _)
    | ok given =>
      simp only
      split
      · simp
      · cases otherwise with
        | none => exact ih given
        | some chain =>
          rcases hs : ctx.search goOn data chain given with e' | (_ | left)
          · have := ihElse chain rfl given
            simpa [hs] using this
          · simp [hs]
          · simpa [hs] using ih (goOn given left)

theorem exists_wouldPass_eq (data : D) (chain : Chain) : ∃ b, ctx.wouldPass data chain = .ok b := by
  rw [wouldPass, probe_eq_search]
  cases hs : ctx.searchGiven data chain .null with
  | error e => exact absurd hs (search_ne_error hT _ _ e chain _)
  | ok found => exact ⟨_, rfl⟩

/-- If every handler acts, a run obliges to a notification exactly if the search that goes
on with the results of `else` chains finds a handler. -/
theorem notify_run_iff {chain : Chain} (hw : Chain.waits chain = 0)
    (hne : ∀ b ∈ Chain.bodies chain, b.actions ≠ []) (data : D) :
    (ctx.run chain { base := data }).notify = true ↔
      ctx.searchLeft data chain .null = .ok none := by
  have h := ctx.run_agrees hw data
  rcases hs : ctx.searchLeft data chain .null with e | (_ | left)
  · exact absurd hs (search_ne_error hT _ _ e chain _)
  · rw [hs] at h
    obtain ⟨g, x, hbody, hx, -, hgrows⟩ := h
    simp [hgrows.notify ((enact_of_neverFails hT g hx).2 (hne g.body hbody))]
  · rw [hs] at h
    simp only [Agrees] at h
    simp [h, Run.start]

end NeverFails

/-- **What a probe foresees.** A probe of a chain that does not wait tells whether a handler
passes its guards when the chain is run, and so whether the run obliges to a notification
if no function fails and every handler acts, exactly if it makes no difference to the
search for such a handler whether it goes on with the results of `else` chains. It makes
none where those leave the results they were given, as they do if their handlers do not
gather. -/
theorem wouldPass_foresees_iff {chain : Chain} (hw : Chain.waits chain = 0) (data : D) :
    ((ctx.wouldPass data chain = .ok true ↔ (ctx.run chain { base := data }).passed ≠ []) ↔
        ctx.SearchesAlike data chain) ∧
      (ctx.table.NeverFails → (∀ b ∈ Chain.bodies chain, b.actions ≠ []) →
        ((∃ o, (ctx.run chain { base := data }).outcome = .ok o ∧
            ctx.wouldPass data chain = .ok o.notify) ↔ ctx.SearchesAlike data chain)) ∧
      (ctx.KeepsResults data chain .null → ctx.SearchesAlike data chain) ∧
      ((∀ b ∈ Chain.elseBodies chain, b.get = []) → ctx.KeepsResults data chain .null) := by
  have hprobe := ctx.wouldPass_eq_ok_true_iff data chain
  refine ⟨?_, fun hT hne => ?_, ctx.searchesAlike_of_keepsResults,
    ctx.keepsResults_of_get_eq_nil data chain .null⟩
  · rw [hprobe, ctx.passed_run_ne_nil_iff hw]
    rfl
  · obtain ⟨o, ho, honotify⟩ := Run.exists_outcome
      ((preserves_noFailure hT).runChain chain [] (.start { base := data }) rfl
        (by simp [Run.start]))
    obtain ⟨b, hb⟩ := exists_wouldPass_eq hT data chain
    rw [SearchesAlike, ← hprobe, ← notify_run_iff hT hw hne, hb, run, ho, ← honotify]
    simp only [Except.ok.injEq, exists_eq_left']
    cases b <;> cases o.notify <;> simp

/-- A table of a result, two conditions, that never hold and that look at the result, and
an action. -/
def relaying : Context Bool where
  table := {
    results := [⟨some "one", fun _ _ _ => .ok (.int 1)⟩]
    conditions := [⟨some "never", fun _ _ _ => false⟩,
      ⟨some "isOne", fun _ _ result => match result with | .int i => i == 1 | _ => false⟩]
    actions := [⟨some "mark", fun _ _ _ => (true, none)⟩] }
  payload := .null

theorem relaying_neverFails : relaying.table.NeverFails := by
  constructor <;> simp [relaying, Except.isOk, Except.toBool]

/-- The result of an `else` chain is looked at in that chain. -/
theorem wouldPass_foresees_relaying :
    let chain : Chain := [
      .mk { guards := { all := [0] }, actions := [0] } none
        (some [.mk { get := [0], guards := { all := [1] }, actions := [0] } none none]),
      .mk { guards := { all := [0] }, actions := [0] } none none]
    Chain.waits chain = 0 ∧ relaying.table.NeverFails ∧ (∀ b ∈ Chain.bodies chain, b.actions ≠ []) ∧
      relaying.SearchesAlike false chain ∧ relaying.wouldPass false chain = .ok true ∧
      (relaying.run chain { base := false }).passed ≠ [] := by
  intro chain
  have hw : Chain.waits chain = 0 := rfl
  have hne : ∀ b ∈ Chain.bodies chain, b.actions ≠ [] := by
    simp [chain, Chain.bodies, Handler.inner, Handler.body]
  have halike : relaying.SearchesAlike false chain := by
    simp [SearchesAlike, chain, search, gather, passes, holds, relaying, Guards.check, Table.fn,
      Table.slot, Table.slots]
  have hprobe : relaying.wouldPass false chain = .ok true := by
    simp [wouldPass, probe, chain, gather, passes, holds, relaying, Guards.check, Table.fn,
      Table.slot, Table.slots]
  have h := (relaying.wouldPass_foresees_iff hw false).1.mpr halike
  exact ⟨hw, relaying_neverFails, hne, halike, hprobe, h.mp hprobe⟩

/-- The result of an `else` chain that is run in vain is looked at after it: the run
passes a handler that the probe does not foresee. -/
theorem wouldPass_overlooks_relaying :
    let chain : Chain := [
      .mk { guards := { all := [0] }, actions := [0] } none
        (some [.mk { get := [0], guards := { all := [0] }, actions := [0] } none none]),
      .mk { guards := { all := [1] }, actions := [0] } none none]
    Chain.waits chain = 0 ∧ relaying.table.NeverFails ∧ (∀ b ∈ Chain.bodies chain, b.actions ≠ []) ∧
      ¬ (relaying.wouldPass false chain = .ok true ↔
        (relaying.run chain { base := false }).passed ≠ []) ∧
      ¬ ∃ o, (relaying.run chain { base := false }).outcome = .ok o ∧
        relaying.wouldPass false chain = .ok o.notify := by
  intro chain
  have hprobe : relaying.wouldPass false chain = .ok false := by
    simp [wouldPass, probe, chain, gather, passes, holds, relaying, Guards.check, Table.fn,
      Table.slot, Table.slots]
  have hpassed : (relaying.run chain { base := false }).passed ≠ [] := List.cons_ne_nil _ _
  have houtcome : (relaying.run chain { base := false }).outcome = .ok {
      data := true, notify := true, requests := [], sends := [], broke := false } := rfl
  refine ⟨rfl, relaying_neverFails, ?_, ?_, ?_⟩
  · simp [chain, Chain.bodies, Handler.inner, Handler.body]
  · simp [hprobe, hpassed]
  · rintro ⟨o, ho, h⟩
    rw [houtcome] at ho
    cases ho
    rw [hprobe] at h
    cases h

end Context
end Statechart
