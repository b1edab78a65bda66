/-
# Requests for transitions

A transition asks for further ones as nodes are left and entered. What a request comes to is told
here as a recursion without bounds (`Machine.Transits`): it is a transition, the requests that the
transition asks for, in the same way, and then the requests behind it. The recursion counts its
transitions up and refuses more than the settings allow; each error that it comes upon is told,
whether or not it is reported, and one that is reported ends it.

Requests always come to an end (`Machine.exists_transitsAll`), by induction on the transitions
that are left: those that a transition asks for have one less, and those behind it have no more.
Making requests in what is left of a budget comes to what the recursion comes to
(`Machine.TransitsAll.comes`): the budget that is left is what has not been counted, the
activations that are written are what has been, and the failure is the first of the errors that is
reported.

Key definitions: `Machine.reports`, `Machine.Transits`, `Machine.TransitsAll`, `Machine.Follows`,
`Machine.Counts`, `Machine.Comes`.
Key theorems: `Machine.moveAll_append`, `Machine.TransitsAll.comes`, `Machine.exists_transitsAll`,
`Machine.Follows.counts`.
-/
import Statechart.Proofs.Spending

namespace Statechart

variable {D : Type}

namespace Machine

variable {m m' : Machine D}

/-! ### Errors that are reported -/

/-- Errors of the structure are reported in development alone, and others always. -/
def reports (m : Machine D) (e : MachineError) : Bool :=
  match m.settings.mode with
  | .development => true
  | .production => !e.isStructural

theorem structural_eq (m : Machine D) {e : MachineError} (h : e.isStructural = true) :
    m.structural e = [e].find? m.reports := by
  unfold structural reports
  cases m.settings.mode <;> simp [h]

theorem reports_eval (m : Machine D) (event : String) (e : FunctionError) :
    m.reports (.eval event e) = true := by
  unfold reports
  cases m.settings.mode <;> rfl

theorem reports_congr (h : m'.settings = m.settings) : m'.reports = m.reports := by
  funext e
  rw [reports, reports, h]

/-- What fails for a function is reported. -/
theorem Accounts.reports {α : Type} {e : MachineError} {m₁ : Machine D}
    (h : Accounts m (m', (.error e : Except MachineError α))) : m₁.reports e = true := by
  cases h with
  | error => exact reports_eval m₁ _ _

/-! ### The recursion -/

mutual

/-- A request is refused, or its target is not there, or the transition to it fails, or it is made
and those it asks for are made in the same way. Transitions are counted, and errors are told. -/
inductive Transits (payload : Json) (event : String) :
    Nat → Request → Machine D → Machine D → Nat → List MachineError → Prop
  | guarded {made : Nat} {q : Request} {m : Machine D} (spent : m.settings.maxTransitions ≤ made) :
    Transits payload event made q m m made [.transitionLoop m.settings.maxTransitions event]
  | unknown {made : Nat} {q : Request} {m : Machine D} (left : made < m.settings.maxTransitions)
    (target : m.tree.resolve (Target.parse q.target).query = none) :
    Transits payload event made q m m made [.unknownTarget q.target]
  | fails {made : Nat} {q : Request} {m m' : Machine D} {t : Tree} {e : MachineError}
    (left : made < m.settings.maxTransitions)
    (target : m.tree.resolve (Target.parse q.target).query = some t)
    (move : m.move t (Target.parse q.target).recalls payload event = (m', .error e)) :
    Transits payload event made q m m' (made + 1) [e]
  | moves {made made' : Nat} {q : Request} {m m₁ m' : Machine D} {t : Tree}
    {requests : List Request} {met : List MachineError}
    (left : made < m.settings.maxTransitions)
    (target : m.tree.resolve (Target.parse q.target).query = some t)
    (move : m.move t (Target.parse q.target).recalls payload event = (m₁, .ok requests))
    (more : TransitsAll payload event (made + 1) requests m₁ m' made' met) :
    Transits payload event made q m m' made' met

/-- Requests are made in order, up to the first that comes upon an error that is reported. -/
inductive TransitsAll (payload : Json) (event : String) :
    Nat → List Request → Machine D → Machine D → Nat → List MachineError → Prop
  | nil (made : Nat) (m : Machine D) : TransitsAll payload event made [] m m made []
  | stop {made made' : Nat} {q : Request} {rest : List Request} {m m' : Machine D}
    {met : List MachineError} (first : Transits payload event made q m m' made' met)
    (failed : ∃ e ∈ met, m.reports e = true) :
    TransitsAll payload event made (q :: rest) m m' made' met
  | next {made made₁ made' : Nat} {q : Request} {rest : List Request} {m m₁ m' : Machine D}
    {met met' : List MachineError} (first : Transits payload event made q m m₁ made₁ met)
    (passed : ∀ e ∈ met, m.reports e = false)
    (more : TransitsAll payload event made₁ rest m₁ m' made' met') :
    TransitsAll payload event made (q :: rest) m m' made' (met ++ met')

end

/-- What was done for an event or a task failed, or the requests that it asks for are made. -/
inductive Follows (payload : Json) (event : String) (made : Nat) :
    Machine D × Except MachineError (List Request) → Machine D → Nat → List MachineError → Prop
  | failed {m : Machine D} {e : MachineError} : Follows payload event made (m, .error e) m made [e]
  | asked {m m' : Machine D} {requests : List Request} {made' : Nat} {met : List MachineError}
    (transits : TransitsAll payload event made requests m m' made' met) :
    Follows payload event made (m, .ok requests) m' made' met

/-! ### What requests come to -/

theorem nextTarget_append (m : Machine D) (more : List Request) : ∀ requests : List Request,
    m.nextTarget (requests ++ more) =
      match m.nextTarget requests with
      | .error e => .error e
      | .ok none => m.nextTarget more
      | .ok (some (t, recalls, rest)) => .ok (some (t, recalls, rest ++ more))
  | [] => rfl
  | q :: rest => by
    rw [List.cons_append, nextTarget, nextTarget]
    cases m.tree.resolve (Target.parse q.target).query with
    | some t => rfl
    | none =>
      cases m.structural (.unknownTarget q.target) with
      | some e => rfl
      | none => exact nextTarget_append m more rest

/-- Requests are made, and then those behind them, unless there was a failure. -/
theorem moveAll_append (payload : Json) (event : String) (more : List Request) :
    ∀ (budget : Nat) (requests : List Request) (m : Machine D),
      moveAll payload event budget (requests ++ more) m =
        match moveAll payload event budget requests m with
        | (m', left, some e) => (m', left, some e)
        | (m', left, none) => moveAll payload event left more m'
  | budget, [], m => by rw [moveAll_nil, List.nil_append]
  | 0, q :: rest, m => by
    rw [List.cons_append, moveAll_zero, moveAll_zero]
    cases hloop : m.structural (.transitionLoop m.settings.maxTransitions event) with
    | some e => rfl
    | none =>
      cases more with
      | nil => rfl
      | cons q' more =>
        show (m, 0, none) = moveAll payload event 0 (q' :: more) m
        rw [moveAll_zero, hloop]
  | budget + 1, q :: rest, m => by
    have htarget := nextTarget_append m more (q :: rest)
    rw [List.cons_append] at htarget ⊢
    rw [moveAll, moveAll, htarget]
    cases m.nextTarget (q :: rest) with
    | error e => rfl
    | ok found =>
      cases found with
      | none =>
        dsimp only
        cases more with
        | nil => rfl
        | cons q' more => rw [moveAll]
      | some next =>
        obtain ⟨t, recalls, rest'⟩ := next
        dsimp only
        cases m.move t recalls payload event with
        | mk m₁ out =>
          cases out with
          | error e => rfl
          | ok requests =>
            dsimp only
            rw [← List.append_assoc]
            exact moveAll_append payload event more budget (requests ++ rest') m₁

/-- Transitions are counted up to what the settings allow, as many as activations are written, and
the limit is told that they have. -/
structure Counts (m m' : Machine D) (made made' : Nat) (met : List MachineError) : Prop where
  le : made ≤ made'
  le_max : made' ≤ m.settings.maxTransitions
  spends : Spends m m' (made' - made) 0
  limit : ∀ limit event, .transitionLoop limit event ∈ met → limit = m.settings.maxTransitions

namespace Counts

variable {made made₁ made' : Nat} {m₁ : Machine D} {met met' : List MachineError}

/-- What spends nothing counts nothing. -/
theorem of_spends (spends : Spends m m' 0 0) (hmade : made ≤ m.settings.maxTransitions)
    (limit : ∀ limit event, .transitionLoop limit event ∈ met → limit = m.settings.maxTransitions) :
    Counts m m' made made met where
  le := Nat.le_refl _
  le_max := hmade
  spends := by
    rw [Nat.sub_self]
    exact spends
  limit := limit

theorem settings_eq (h : Counts m m' made made' met) : m'.settings = m.settings := h.spends.1

theorem trans (first : Counts m m₁ made made₁ met) (more : Counts m₁ m' made₁ made' met') :
    Counts m m' made made' (met ++ met') where
  le := Nat.le_trans first.le more.le
  le_max := by
    rw [← first.settings_eq]
    exact more.le_max
  spends := by
    have hle := first.le
    have hle' := more.le
    have hmade' : made' - made = (made₁ - made) + (made' - made₁) := by omega
    rw [hmade']
    exact first.spends.trans more.spends
  limit := by
    intro limit event hmem
    rcases List.mem_append.mp hmem with hmem | hmem
    · exact first.limit limit event hmem
    · rw [← first.settings_eq]
      exact more.limit limit event hmem

theorem flush (h : Counts m m' made made' met) : Counts m m'.flush made made' met := by
  have hflush : Counts m' m'.flush made' made' [] :=
    .of_spends (flush_spends m') (by rw [h.settings_eq]; exact h.le_max) fun _ _ hmem => nomatch hmem
  have hboth := h.trans hflush
  rwa [List.append_nil] at hboth

end Counts

/-- Requests come to a machine, a count of transitions and errors, and making them in what is left
of the budget comes to the same. -/
def Comes (payload : Json) (event : String) (made : Nat) (requests : List Request)
    (m m' : Machine D) (made' : Nat) (met : List MachineError) : Prop :=
  made ≤ m.settings.maxTransitions → Counts m m' made made' met ∧
    moveAll payload event (m.settings.maxTransitions - made) requests m =
      (m', m.settings.maxTransitions - made', met.find? m.reports)

namespace Comes

variable {payload : Json} {event : String} {made made₁ made' : Nat} {q : Request}
  {requests rest : List Request} {m₁ : Machine D} {met met' : List MachineError}

theorem guarded (spent : m.settings.maxTransitions ≤ made) :
    Comes payload event made [q] m m made
      [.transitionLoop m.settings.maxTransitions event] := by
  intro hmade
  have hnone : m.settings.maxTransitions - made = 0 := by omega
  refine ⟨.of_spends (.refl m) hmade fun limit event' hmem => ?_, ?_⟩
  · cases List.mem_singleton.mp hmem
    rfl
  · rw [hnone, moveAll_zero, structural_eq m rfl]

theorem unknown (left : made < m.settings.maxTransitions)
    (target : m.tree.resolve (Target.parse q.target).query = none) :
    Comes payload event made [q] m m made [.unknownTarget q.target] := by
  intro hmade
  obtain ⟨budget, hbudget⟩ := Nat.exists_eq_add_one_of_ne_zero (Nat.sub_ne_zero_of_lt left)
  refine ⟨.of_spends (.refl m) hmade fun limit event' hmem => ?_, ?_⟩
  · cases List.mem_singleton.mp hmem
  · rw [hbudget, moveAll, nextTarget, target, ← structural_eq m rfl]
    cases m.structural (.unknownTarget q.target) <;> rfl

/-- The first request of those that are left has a target. -/
theorem moveAll_succ {t : Tree} (left : made < m.settings.maxTransitions)
    (target : m.tree.resolve (Target.parse q.target).query = some t) :
    moveAll payload event (m.settings.maxTransitions - made) [q] m =
      follow payload event (m.settings.maxTransitions - (made + 1))
        (m.move t (Target.parse q.target).recalls payload event) := by
  obtain ⟨budget, hbudget⟩ := Nat.exists_eq_add_one_of_ne_zero (Nat.sub_ne_zero_of_lt left)
  have hrest : m.settings.maxTransitions - (made + 1) = budget := by omega
  rw [hbudget, hrest, moveAll, nextTarget, target]
  dsimp only
  obtain ⟨m₁, e | requests⟩ := m.move t (Target.parse q.target).recalls payload event
  · rfl
  · show moveAll payload event budget (requests ++ []) m₁ = _
    rw [List.append_nil]
    rfl

theorem fails {t : Tree} {e : MachineError} (left : made < m.settings.maxTransitions)
    (target : m.tree.resolve (Target.parse q.target).query = some t)
    (move : m.move t (Target.parse q.target).recalls payload event = (m', .error e)) :
    Comes payload event made [q] m m' (made + 1) [e] := by
  intro hmade
  have hpassage := move_passage m t (Target.parse q.target).recalls payload event
  rw [move] at hpassage
  refine ⟨⟨Nat.le_succ _, left, ?_, ?_⟩, ?_⟩
  · rw [Nat.add_sub_cancel_left]
    exact hpassage.spends
  · intro limit event' hmem
    cases List.mem_singleton.mp hmem
    cases hpassage.accounts
  · rw [moveAll_succ left target, move, List.find?_cons, hpassage.accounts.reports]
    rfl

theorem moves {t : Tree} (left : made < m.settings.maxTransitions)
    (target : m.tree.resolve (Target.parse q.target).query = some t)
    (move : m.move t (Target.parse q.target).recalls payload event = (m₁, .ok requests))
    (more : Comes payload event (made + 1) requests m₁ m' made' met) :
    Comes payload event made [q] m m' made' met := by
  intro hmade
  have hspends := (move_passage m t (Target.parse q.target).recalls payload event).spends
  rw [move] at hspends
  have hsettings : m₁.settings = m.settings := hspends.1
  obtain ⟨hcounts, heq⟩ := more (by rw [hsettings]; omega)
  rw [hsettings, reports_congr hsettings] at heq
  have hle := hcounts.le
  refine ⟨⟨by omega, ?_, ?_, ?_⟩, ?_⟩
  · rw [← hsettings]
    exact hcounts.le_max
  · have hmade' : made' - made = 1 + (made' - (made + 1)) := by omega
    rw [hmade']
    exact hspends.trans hcounts.spends
  · rw [← hsettings]
    exact hcounts.limit
  · rw [moveAll_succ left target, move]
    exact heq

theorem nil : Comes payload event made [] m m made [] := by
  intro hmade
  exact ⟨.of_spends (.refl _) hmade (fun _ _ hmem => nomatch hmem), moveAll_nil _ _ _ _⟩

theorem stop (first : Comes payload event made [q] m m' made' met)
    (failed : ∃ e ∈ met, m.reports e = true) :
    Comes payload event made (q :: rest) m m' made' met := by
  intro hmade
  obtain ⟨hcounts, heq⟩ := first hmade
  obtain ⟨e, he⟩ := Option.isSome_iff_exists.mp (List.find?_isSome.mpr failed)
  refine ⟨hcounts, ?_⟩
  rw [← List.singleton_append, moveAll_append, heq, he]

theorem next (first : Comes payload event made [q] m m₁ made₁ met)
    (passed : ∀ e ∈ met, m.reports e = false)
    (more : Comes payload event made₁ rest m₁ m' made' met') :
    Comes payload event made (q :: rest) m m' made' (met ++ met') := by
  intro hmade
  obtain ⟨hcounts, heq⟩ := first hmade
  obtain ⟨hcounts', heq'⟩ := more (by rw [hcounts.settings_eq]; exact hcounts.le_max)
  rw [hcounts.settings_eq, reports_congr hcounts.settings_eq] at heq'
  have hnone : met.find? m.reports = none :=
    List.find?_eq_none.mpr fun e he => by rw [passed e he]; exact Bool.false_ne_true
  refine ⟨hcounts.trans hcounts', ?_⟩
  rw [← List.singleton_append, moveAll_append, heq, hnone, List.find?_append, hnone]
  exact heq'

end Comes

/-- Requests come to what the recursion says, in the budget that is left. -/
theorem TransitsAll.comes {payload : Json} {event : String} {made made' : Nat}
    {requests : List Request} {met : List MachineError}
    (h : TransitsAll payload event made requests m m' made' met) :
    Comes payload event made requests m m' made' met :=
  TransitsAll.rec
    (motive_1 := fun made q m m' made' met _ => Comes payload event made [q] m m' made' met)
    (motive_2 := fun made qs m m' made' met _ => Comes payload event made qs m m' made' met)
    (fun spent => Comes.guarded spent)
    (fun left target => Comes.unknown left target)
    (fun left target move => Comes.fails left target move)
    (fun left target move _ more => Comes.moves left target move more)
    (fun _ _ => Comes.nil)
    (fun _ failed first => Comes.stop first failed)
    (fun _ passed _ first more => Comes.next first passed more)
    h

theorem Transits.comes {payload : Json} {event : String} {made made' : Nat} {q : Request}
    {met : List MachineError} (h : Transits payload event made q m m' made' met) :
    Comes payload event made [q] m m' made' met := by
  by_cases failed : ∃ e ∈ met, m.reports e = true
  · exact (TransitsAll.stop h failed).comes
  · have hnext := (TransitsAll.next h (by simpa using failed) (.nil _ _)).comes
    rwa [List.append_nil] at hnext

/-! ### Requests come to an end -/

/-- A request comes to an end if those that its transition asks for do. -/
theorem exists_transits {payload : Json} {event : String} {made : Nat}
    (ih : made < m.settings.maxTransitions → ∀ (requests : List Request) (m₁ : Machine D),
      m₁.settings = m.settings →
        ∃ m' made' met, TransitsAll payload event (made + 1) requests m₁ m' made' met)
    (q : Request) : ∃ m' made' met, Transits payload event made q m m' made' met := by
  by_cases left : made < m.settings.maxTransitions
  · cases target : m.tree.resolve (Target.parse q.target).query with
    | none => exact ⟨_, _, _, .unknown left target⟩
    | some t =>
      have hspends := (move_passage m t (Target.parse q.target).recalls payload event).spends
      cases move : m.move t (Target.parse q.target).recalls payload event with
      | mk m₁ out =>
        rw [move] at hspends
        cases out with
        | error e => exact ⟨_, _, _, .fails left target move⟩
        | ok requests =>
          obtain ⟨m', made', met, hmore⟩ := ih left requests m₁ hspends.1
          exact ⟨m', made', met, .moves left target move hmore⟩
  · exact ⟨_, _, _, .guarded (Nat.le_of_not_lt left)⟩

/-- Requests come to an end if each of them does. -/
theorem exists_transitsAll_of {payload : Json} {event : String} {left : Nat}
    (first : ∀ (q : Request) (made : Nat) (m : Machine D), m.settings.maxTransitions ≤ made + left →
      ∃ m' made' met, Transits payload event made q m m' made' met)
    (requests : List Request) : ∀ (made : Nat) (m : Machine D), made ≤ m.settings.maxTransitions →
      m.settings.maxTransitions ≤ made + left →
        ∃ m' made' met, TransitsAll payload event made requests m m' made' met := by
  induction requests with
  | nil => exact fun made m _ _ => ⟨_, _, _, .nil made m⟩
  | cons q rest ih =>
    intro made m hmade hleft
    obtain ⟨m₁, made₁, met, hfirst⟩ := first q made m hleft
    by_cases failed : ∃ e ∈ met, m.reports e = true
    · exact ⟨_, _, _, .stop hfirst failed⟩
    · have hcounts := (hfirst.comes hmade).1
      have hle := hcounts.le
      have hle_max := hcounts.le_max
      rw [← hcounts.settings_eq] at hleft hle_max
      obtain ⟨m', made', met', hmore⟩ := ih made₁ m₁ hle_max (by omega)
      exact ⟨_, _, _, .next hfirst (by simpa using failed) hmore⟩

/-- Requests come to an end, whatever their transitions ask for: each transition takes one of those
that are left, and a request for which none is left asks for nothing. -/
theorem exists_transitsAll (payload : Json) (event : String) (left : Nat) :
    ∀ (requests : List Request) (made : Nat) (m : Machine D), made ≤ m.settings.maxTransitions →
      m.settings.maxTransitions ≤ made + left →
        ∃ m' made' met, TransitsAll payload event made requests m m' made' met := by
  induction left with
  | zero =>
    refine exists_transitsAll_of fun q made m hleft => exists_transits (fun hlt => ?_) q
    omega
  | succ left ih =>
    refine exists_transitsAll_of fun q made m hleft => exists_transits (fun hlt => ?_) q
    intro requests m₁ hsettings
    exact ih requests (made + 1) m₁ (by rw [hsettings]; omega) (by rw [hsettings]; omega)

/-! ### What follows on chains -/

/-- What follows on the chains of an event or a task is what the recursion says. -/
theorem Follows.follow_eq {payload : Json} {event : String} {made made' : Nat} {m₀ : Machine D}
    {out : Machine D × Except MachineError (List Request)} {met : List MachineError}
    (h : Follows payload event made out m' made' met) (accounts : Accounts m₀ out)
    (hmade : made ≤ out.1.settings.maxTransitions) :
    Counts out.1 m' made made' met ∧
      follow payload event (out.1.settings.maxTransitions - made) out =
        (m', out.1.settings.maxTransitions - made', met.find? out.1.reports) := by
  cases h with
  | failed =>
    refine ⟨.of_spends (.refl _) hmade fun limit event' hmem => ?_, ?_⟩
    · cases List.mem_singleton.mp hmem
      cases accounts
    · rw [List.find?_cons, accounts.reports]
      rfl
  | asked transits => exact transits.comes hmade

theorem exists_follows (payload : Json) (event : String) {made : Nat}
    {out : Machine D × Except MachineError (List Request)}
    (hmade : made ≤ out.1.settings.maxTransitions) :
    ∃ m' made' met, Follows payload event made out m' made' met := by
  obtain ⟨m, e | requests⟩ := out
  · exact ⟨_, _, _, .failed⟩
  · obtain ⟨m', made', met, h⟩ := exists_transitsAll payload event m.settings.maxTransitions requests
      made m hmade (Nat.le_add_left _ _)
    exact ⟨m', made', met, .asked h⟩

/-- What follows on the chain of a task or an operation counts from where the chain began. -/
theorem Follows.counts {payload : Json} {event : String} {made made' : Nat}
    {out : Machine D × Except MachineError (List Request)} {met : List MachineError}
    (h : Follows payload event made out m' made' met) (accounts : Accounts m out)
    (spends : Spends m out.1 0 0) (hmade : made ≤ m.settings.maxTransitions) :
    Counts m m' made made' met ∧ follow payload event (m.settings.maxTransitions - made) out =
      (m', m.settings.maxTransitions - made', met.find? m.reports) := by
  have hsettings : out.1.settings = m.settings := spends.1
  obtain ⟨hcounts, heq⟩ := h.follow_eq accounts (by rw [hsettings]; exact hmade)
  rw [hsettings, reports_congr hsettings] at heq
  have hchain : Counts m out.1 made made [] :=
    .of_spends spends hmade fun _ _ hmem => nomatch hmem
  exact ⟨hchain.trans hcounts, heq⟩

end Machine
end Statechart
