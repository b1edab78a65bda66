/-
# The frames of a waiting chain

What is left of a waiting chain is a stack of frames, from the handler that waits out to the chain
(`Continuation.Nested`): the first frame is at that handler, each later one has run the `then` or
the `else` chain of its handler as far as the frame before it is, and the last one is in the chain
itself. So the frames say where in the chain the wait is: so many handlers are written before the
one that waits, as each frame counts those before it in its own chain (`Continuation.position`).

A run that is picked up goes on from there. If it has to wait again its frames are nested in the
same chain, and the wait is written further down (`Context.nested_resumeFrames`). Hence a chain is
suspended at most as often as it has waits (`Chain.Suspends.proceeds`), whatever the data are and
whatever the functions do in between.

Key definitions: `Frame.Encloses`, `Continuation.Nested`, `Continuation.position`,
`Chain.Suspends`.
Key theorems: `Continuation.Nested.getElem?_position`, `Continuation.Linked.replace`,
`Context.nested_runChain`, `Context.nested_resumeFrames`, `Chain.Suspends.proceeds`.
-/
import Mathlib.Algebra.GroupWithZero.Nat
import Mathlib.Data.List.Chain
import Statechart.Proofs.Resumption

namespace Statechart

namespace Chain

theorem bodies_cons (h : Handler) (rest : Chain) :
    bodies (h :: rest) = h.body :: (h.inner ++ bodies rest) := rfl

theorem bodies_append : ∀ chain more : Chain, bodies (chain ++ more) = bodies chain ++ bodies more
  | [], _ => rfl
  | h :: rest, more => by simp [bodies, bodies_append rest more]

end Chain

/-! ### Where a frame is in its chain -/

namespace Frame

/-- The chain of the inner frame is the one that the outer frame has run of its handler. -/
def Encloses (outer inner : Frame) : Prop :=
  outer.point = .thenDone ∧ outer.handler.thenDo = some inner.chain ∨
    outer.point = .elseDone ∧ outer.handler.otherwise = some inner.chain

theorem Encloses.congr {outer inner inner' : Frame} (h : outer.Encloses inner)
    (heq : inner'.chain = inner.chain) : outer.Encloses inner' := by
  unfold Encloses
  rw [heq]
  exact h

/-- The handlers of the frame's chain, at every depth, that are written before what it is at. -/
def behind (f : Frame) : List Handler.Body :=
  Chain.bodies f.before ++
    match f.point with
    | .wait => []
    | .thenDone => [f.handler.body]
    | .elseDone => f.handler.body :: f.handler.thenDo.elim [] Chain.bodies

/-- What the frame is at: its handler, or the handlers of the chain it has run of it. -/
def current (f : Frame) : List Handler.Body :=
  match f.point with
  | .wait => [f.handler.body]
  | .thenDone => f.handler.thenDo.elim [] Chain.bodies
  | .elseDone => f.handler.otherwise.elim [] Chain.bodies

/-- The handlers written after what the frame is at, up to the next one of its chain. -/
def remainder (f : Frame) : List Handler.Body :=
  match f.point with
  | .wait => f.handler.inner
  | .thenDone => f.handler.otherwise.elim [] Chain.bodies
  | .elseDone => []

/-- The chain up to the frame's handler and with it, in three parts. -/
theorem bodies_through (f : Frame) :
    Chain.bodies (f.before ++ [f.handler]) = f.behind ++ f.current ++ f.remainder := by
  obtain ⟨before, ⟨body, thenDo, otherwise⟩, rest, point⟩ := f
  rw [Chain.bodies_append, Chain.bodies_cons, Handler.inner_mk]
  cases point <;>
    simp [behind, current, remainder, Handler.inner_mk, Handler.body, Handler.thenDo,
      Handler.otherwise, Chain.bodies]

theorem bodies_chain (f : Frame) :
    Chain.bodies f.chain = f.behind ++ f.current ++ (f.remainder ++ Chain.bodies f.rest) := by
  have hchain : f.chain = (f.before ++ [f.handler]) ++ f.rest := by simp [chain]
  rw [hchain, Chain.bodies_append, bodies_through, List.append_assoc]

/-- A frame around another is at the chain of that one. -/
theorem Encloses.current_eq {outer inner : Frame} (h : outer.Encloses inner) :
    outer.current = Chain.bodies inner.chain := by
  unfold current
  rcases h with ⟨hpoint, hchain⟩ | ⟨hpoint, hchain⟩ <;> simp only [hpoint, hchain, Option.elim_some]

/-- The handler of a frame and those after it are read off its chain and its place, which is one
of the chain. -/
theorem read_off (f : Frame) :
    f.chain[f.index]? = some f.handler ∧ f.chain.drop (f.index + 1) = f.rest := by
  simp [chain, index]

end Frame

/-! ### Stacks of frames -/

namespace Continuation

/-- How many handlers are written before the one that waits, each before those in its chains, and
those of its `then` chain before those of its `else` chain. -/
def position (frames : List Frame) : Nat := (frames.map fun f => f.behind.length).sum

@[simp] theorem position_cons (f : Frame) (outer : List Frame) :
    position (f :: outer) = f.behind.length + position outer := List.sum_cons

@[simp] theorem position_append (inner outer : List Frame) :
    position (inner ++ outer) = position inner + position outer := by
  simp [position]

/-- Frames that lie one in the other, out to the chain. -/
structure Linked (chain : Chain) (frames : List Frame) : Prop where
  inside : frames.IsChain fun inner outer => outer.Encloses inner
  outermost : frames.getLast?.map Frame.chain = some chain

/-- Frames from a handler that waits out to the chain. -/
structure Nested (chain : Chain) (frames : List Frame) : Prop extends Linked chain frames where
  waits : ∃ f outer, frames = f :: outer ∧ f.point = .wait ∧ f.handler.body.wait.isSome = true

namespace Linked

variable {chain : Chain} {f : Frame} {inner outer : List Frame}

theorem singleton (f : Frame) : Linked f.chain [f] := ⟨.singleton f, rfl⟩

theorem chain_eq (h : Linked chain [f]) : f.chain = chain := Option.some.inj h.outermost

theorem tail {g : Frame} (h : Linked chain (f :: g :: outer)) :
    g.Encloses f ∧ Linked chain (g :: outer) := by
  obtain ⟨hencloses, hinside⟩ := List.isChain_cons_cons.mp h.inside
  exact ⟨hencloses, hinside, by rw [← h.outermost, List.getLast?_cons_cons]⟩

/-- Frames in the chain of a frame can stand in place of the frame. -/
theorem replace (h : Linked chain (f :: outer)) (hinner : Linked f.chain inner) :
    Linked chain (inner ++ outer) := by
  cases outer with
  | nil => rwa [List.append_nil, ← h.chain_eq]
  | cons g outer =>
    obtain ⟨hencloses, htail⟩ := h.tail
    obtain ⟨last, hlast, hchain⟩ := Option.map_eq_some_iff.mp hinner.outermost
    constructor
    · refine List.isChain_append.mpr ⟨hinner.inside, htail.inside, fun x hx y hy => ?_⟩
      obtain rfl : last = x := Option.some.inj (hlast.symm.trans hx)
      obtain rfl : g = y := Option.some.inj hy
      exact hencloses.congr hchain
    · rw [List.getLast?_append_of_ne_nil _ (List.cons_ne_nil g outer)]
      exact htail.outermost

/-- The handlers of the chain are those written before what the first frame is at, that, and those
after it. -/
theorem exists_bodies_eq : ∀ {frames : List Frame} {f : Frame}, Linked chain (f :: frames) →
    ∃ front back, Chain.bodies chain = front ++ f.current ++ back ∧
      front.length = position (f :: frames)
  | [], f, h => ⟨f.behind, _, by rw [← h.chain_eq, f.bodies_chain], by simp [position]⟩
  | g :: frames, f, h => by
    obtain ⟨hencloses, htail⟩ := h.tail
    obtain ⟨front, back, hbodies, hlength⟩ := exists_bodies_eq htail
    refine ⟨front ++ f.behind, f.remainder ++ Chain.bodies f.rest ++ back, ?_, ?_⟩
    · rw [hbodies, hencloses.current_eq, f.bodies_chain]
      simp only [List.append_assoc]
    · rw [List.length_append, hlength, position_cons f, Nat.add_comm]

end Linked

namespace Nested

variable {chain : Chain} {frames : List Frame}

/-- The handler that waits stands at its position among all handlers of the chain. -/
theorem getElem?_position (h : Nested chain frames) : ∃ f outer, frames = f :: outer ∧
    (Chain.bodies chain)[position frames]? = some f.handler.body := by
  obtain ⟨f, outer, rfl, hpoint, -⟩ := h.waits
  obtain ⟨front, back, hbodies, hlength⟩ := h.toLinked.exists_bodies_eq
  have hcurrent : f.current = [f.handler.body] := by simp only [Frame.current, hpoint]
  refine ⟨f, outer, rfl, ?_⟩
  rw [hbodies, hcurrent, ← hlength, List.append_assoc, List.getElem?_append_right (Nat.le_refl _),
    Nat.sub_self]
  rfl

/-- A frame around the frames is put behind them. -/
theorem replace {f : Frame} {inner outer : List Frame} (hinner : Nested f.chain inner)
    (h : Linked chain (f :: outer)) : Nested chain (inner ++ outer) := by
  obtain ⟨g, rest, rfl, hpoint, hwait⟩ := hinner.waits
  exact ⟨h.replace hinner.toLinked, g, rest ++ outer, rfl, hpoint, hwait⟩

end Nested
end Continuation

/-! ### A run that has to wait -/

namespace Context

open Continuation (Nested Linked position)

variable {D : Type} (ctx : Context D)

/-- A run of the chain that has to wait leaves frames nested in it, behind the handlers gone by. -/
def LeavesNested (chain : Chain) : Prop :=
  ∀ (before : List Handler) (r : Run D) (k : Continuation), r.stop = none →
    (ctx.runChain before chain r).continuation? = some k →
      Nested (before ++ chain) k.frames ∧ (Chain.bodies before).length ≤ position k.frames

/-- A run inside a frame's handler that has to wait leaves frames nested in the frame's chain. -/
theorem nested_nested {f : Frame} (hf : f.point ≠ .wait) {chain : Option Chain}
    (hchain : ∀ inner : Frame, chain = some inner.chain → f.Encloses inner)
    (ih : ∀ c, chain = some c → ctx.LeavesNested c) {r : Run D} (hr : r.stop = none) {k : Continuation}
    (hk : (ctx.nested f chain r).continuation? = some k) :
    Nested f.chain k.frames ∧ f.behind.length ≤ position k.frames := by
  have hfinish : ∀ x : Run D, x.stop = none → (ctx.finish f x).continuation? ≠ some k := by
    intro x hx hk
    rw [ctx.continuation?_finish hf (Run.continuation?_of_stop_eq_none hx)] at hk
    cases hk
  cases chain with
  | none => exact absurd hk (hfinish r hr)
  | some chain =>
    rcases Run.continuation?_andThen hk with hk | ⟨hn, hk⟩
    · rw [Run.continuation?_enclose] at hk
      obtain ⟨inner, hinner, rfl⟩ := Option.map_eq_some_iff.mp hk
      obtain ⟨hnested, -⟩ := ih chain rfl [] r inner hr hinner
      obtain ⟨last, hlast, heq⟩ := Option.map_eq_some_iff.mp hnested.outermost
      rw [List.nil_append] at heq
      have hstack : Linked f.chain [last, f] :=
        ⟨List.isChain_pair.mpr (hchain last (congrArg some heq.symm)), rfl⟩
      rw [List.nil_append, ← heq] at hnested
      refine ⟨hnested.replace hstack, ?_⟩
      rw [Continuation.position_append, Continuation.position_cons]
      omega
    · exact absurd hk (hfinish _ hn)

/-- A handler that has to wait in one of its chains leaves frames nested in its own chain, and is
itself written before the one that waits. -/
theorem nested_runHandler {body : Handler.Body} {thenDo otherwise : Option Chain}
    (ihThen : ∀ c, thenDo = some c → ctx.LeavesNested c)
    (ihElse : ∀ c, otherwise = some c → ctx.LeavesNested c) (before rest : List Handler) {r : Run D}
    (hr : r.stop = none) {k : Continuation}
    (hk : (ctx.runHandler before rest (.mk body thenDo otherwise) r).continuation? = some k) :
    Nested (before ++ .mk body thenDo otherwise :: rest) k.frames ∧
      (Chain.bodies before).length < position k.frames := by
  rw [runHandler_eq] at hk
  split at hk
  · rw [Run.continuation?_fail] at hk
    cases hk
  · rename_i result _
    have hr' : ({ r with result } : Run D).continuation? = none :=
      Run.continuation?_of_stop_eq_none hr
    split at hk
    · rcases Run.continuation?_andThen hk with hk | ⟨hn, hk⟩
      · rw [ctx.continuation?_enact _ hr'] at hk
        cases hk
      · split at hk
        · rw [continuation?_move] at hk
          cases hk
        · have hencloses : ∀ inner : Frame, thenDo = some inner.chain →
              Frame.Encloses ⟨before, .mk body thenDo otherwise, rest, .thenDone⟩ inner :=
            fun inner hinner => Or.inl ⟨rfl, hinner⟩
          obtain ⟨hnested, hle⟩ := ctx.nested_nested (by simp) hencloses ihThen hn hk
          refine ⟨hnested, Nat.lt_of_lt_of_le ?_ hle⟩
          simp [Frame.behind]
    · have hencloses : ∀ inner : Frame, otherwise = some inner.chain →
          Frame.Encloses ⟨before, .mk body thenDo otherwise, rest, .elseDone⟩ inner :=
        fun inner hinner => Or.inr ⟨rfl, hinner⟩
      obtain ⟨hnested, hle⟩ := ctx.nested_nested (by simp) hencloses ihElse
        (r := { r with result }) hr hk
      refine ⟨hnested, Nat.lt_of_lt_of_le ?_ hle⟩
      simp [Frame.behind]

theorem nested_runChain (chain : Chain) : ctx.LeavesNested chain := by
  induction chain using Chain.induction with
  | nil =>
    intro before r k hr hk
    rw [runChain, Run.continuation?_of_stop_eq_none hr] at hk
    cases hk
  | cons body thenDo otherwise rest ihThen ihElse ih =>
    intro before r k hr hk
    cases hw : body.wait with
    | some d =>
      simp only [runChain, Handler.body, hw, Run.continuation?, Option.some.injEq] at hk
      subst hk
      have hlinked := Linked.singleton ⟨before, .mk body thenDo otherwise, rest, .wait⟩
      have hwait : body.wait.isSome = true := by rw [hw]; rfl
      exact ⟨⟨hlinked, _, [], rfl, rfl, hwait⟩, by simp [Frame.behind]⟩
    | none =>
      rw [ctx.runChain_cons (h := .mk body thenDo otherwise) hw] at hk
      rcases Run.continuation?_andThen hk with hk | ⟨hn, hk⟩
      · obtain ⟨hnested, hlt⟩ := ctx.nested_runHandler ihThen ihElse before rest hr hk
        exact ⟨hnested, Nat.le_of_lt hlt⟩
      · obtain ⟨hnested, hle⟩ := ih _ _ _ hn hk
        rw [List.append_assoc] at hnested
        rw [Chain.bodies_append, List.length_append] at hle
        exact ⟨hnested, by omega⟩

/-- A frame that has to wait again leaves frames nested in its chain, further down than all that it
was at. -/
theorem nested_resumeFrame {f : Frame} {r : Run D} (hr : r.stop = none) {k : Continuation}
    (hk : (ctx.resumeFrame f r).continuation? = some k) :
    Nested f.chain k.frames ∧ f.behind.length + f.current.length ≤ position k.frames := by
  rw [resumeFrame_eq] at hk
  rcases Run.continuation?_andThen hk with hk | ⟨hn, hk⟩
  · by_cases hf : f.point = .wait
    · obtain ⟨before, ⟨body, thenDo, otherwise⟩, rest, point⟩ := f
      subst hf
      obtain ⟨hnested, hlt⟩ := ctx.nested_runHandler (fun c _ => ctx.nested_runChain c)
        (fun c _ => ctx.nested_runChain c) before rest hr hk
      refine ⟨hnested, ?_⟩
      simpa [Frame.behind, Frame.current] using Nat.succ_le_of_lt hlt
    · rw [ctx.continuation?_finish hf (Run.continuation?_of_stop_eq_none hr)] at hk
      cases hk
  · obtain ⟨hnested, hle⟩ := ctx.nested_runChain f.rest _ _ _ hn hk
    rw [List.append_assoc] at hnested
    refine ⟨hnested, ?_⟩
    rw [f.bodies_through, List.length_append, List.length_append] at hle
    omega

/-- What is left of a chain, if it has to wait again, leaves frames nested in the chain, further
down than all that its first frame was at. -/
theorem nested_resumeFrames {chain : Chain} : ∀ {frames : List Frame} {f : Frame} {r : Run D},
    Linked chain (f :: frames) → r.stop = none →
    ∀ {k : Continuation}, (ctx.resumeFrames (f :: frames) r).continuation? = some k →
      Nested chain k.frames ∧ position (f :: frames) + f.current.length ≤ position k.frames
  | frames, f, r, h, hr, k, hk => by
    rw [resumeFrames] at hk
    by_cases hs : (ctx.resumeFrame f r).isStopped = true
    · rw [if_pos hs, Run.continuation?_enclose] at hk
      obtain ⟨inner, hinner, rfl⟩ := Option.map_eq_some_iff.mp hk
      obtain ⟨hnested, hle⟩ := ctx.nested_resumeFrame hr hinner
      refine ⟨hnested.replace h, ?_⟩
      simp only [Continuation.position_cons, Continuation.position_append]
      omega
    · rw [if_neg hs] at hk
      have hn := Run.stop_eq_none_of_not_isStopped hs
      cases frames with
      | nil =>
        rw [resumeFrames, Run.continuation?_of_stop_eq_none hn] at hk
        cases hk
      | cons g frames =>
        -- The next frame is at the chain of this one, which is behind it with all its handlers.
        obtain ⟨hencloses, htail⟩ := h.tail
        obtain ⟨hnested, hle⟩ := nested_resumeFrames htail hn hk
        refine ⟨hnested, ?_⟩
        rw [hencloses.current_eq, f.bodies_chain] at hle
        simp only [List.length_append, Continuation.position_cons] at hle ⊢
        omega

end Context

/-! ### A chain that is suspended again and again -/

/-- The continuations that a chain has left, the last one first: its run left one, and each other
was left as the one before it was picked up, with whatever data and whatever functions. -/
inductive Chain.Suspends (D : Type) (chain : Chain) : List Continuation → Prop
  | run (ctx : Context D) (copy : WorkingCopy D) (result : Json) {k : Continuation}
    (hk : (ctx.run chain copy result).continuation? = some k) : Suspends D chain [k]
  | resume {k k' : Continuation} {ks : List Continuation} (h : Suspends D chain (k :: ks))
    (ctx : Context D) (copy : WorkingCopy D) (hk : (ctx.resume k copy).continuation? = some k') :
    Suspends D chain (k' :: k :: ks)

namespace Chain.Suspends

open Continuation (Nested position)

variable {D : Type} {chain : Chain} {ks : List Continuation}

theorem nested (h : Suspends D chain ks) : ∀ k ∈ ks, Nested chain k.frames := by
  induction h with
  | run ctx copy result hk =>
    exact List.forall_mem_singleton.mpr (ctx.nested_runChain chain [] _ _ rfl hk).1
  | resume h ctx copy hk ih =>
    obtain ⟨f, outer, hframes, -⟩ := (ih _ List.mem_cons_self).waits
    have hlinked := (ih _ List.mem_cons_self).toLinked
    rw [Context.resume, hframes] at hk
    rw [hframes] at hlinked
    exact List.forall_mem_cons.mpr ⟨(ctx.nested_resumeFrames hlinked rfl hk).1, ih⟩

/-- What is picked up and has to wait again waits further down. -/
theorem position_lt {k k' : Continuation} (hk : Nested chain k.frames) (ctx : Context D)
    (copy : WorkingCopy D) (hk' : (ctx.resume k copy).continuation? = some k') :
    position k.frames < position k'.frames := by
  obtain ⟨f, outer, hframes, hpoint, -⟩ := hk.waits
  have hlinked := hk.toLinked
  rw [Context.resume, hframes] at hk'
  rw [hframes] at hlinked ⊢
  obtain ⟨-, hle⟩ := ctx.nested_resumeFrames hlinked rfl hk'
  simp only [Frame.current, hpoint, List.length_singleton] at hle
  omega

theorem descends (h : Suspends D chain ks) :
    (ks.map fun k => position k.frames).Pairwise (· > ·) := by
  induction h with
  | run ctx copy result hk => exact List.pairwise_singleton ..
  | resume h ctx copy hk ih =>
    have hlt := position_lt (h.nested _ List.mem_cons_self) ctx copy hk
    simp only [List.map_cons] at ih ⊢
    refine List.pairwise_cons.mpr ⟨?_, ih⟩
    refine List.forall_mem_cons.mpr ⟨hlt, fun p hp => ?_⟩
    exact Nat.lt_trans ((List.pairwise_cons.mp ih).1 p hp) hlt

/-- Of the waits of a chain, as many are behind it as it was suspended. -/
theorem pending_add_length_le (h : Suspends D chain ks) : ∀ k, ks.head? = some k →
    Continuation.pending k.frames + ks.length ≤ waits chain := by
  induction h with
  | run ctx copy result hk =>
    rintro _ ⟨⟩
    exact ctx.pending_runChain chain [] _ _ rfl hk
  | resume h ctx copy hk ih =>
    rintro _ ⟨⟩
    have hlt := ctx.pending_resumeFrames _ rfl hk
    have hle := ih _ rfl
    simp only [List.length_cons] at hle ⊢
    omega

/-- **Waiting chains are left at a place of theirs, each time further down.** Whatever the data are
and whatever the functions do, the frames of each continuation that a chain leaves are nested in the
chain, from a handler that waits; each frame has a place in its chain, from which it goes on. The
handler that waits stands at the position the frames tell, and after the one that waited before.
So the chain is suspended at most as often as it has waits. -/
theorem proceeds (h : Suspends D chain ks) :
    (∀ k ∈ ks, Nested chain k.frames ∧
      (∀ f ∈ k.frames, f.chain[f.index]? = some f.handler ∧
        f.chain.drop (f.index + 1) = f.rest) ∧
      ∃ f outer, k.frames = f :: outer ∧
        (bodies chain)[position k.frames]? = some f.handler.body) ∧
    (ks.map fun k => position k.frames).Pairwise (· > ·) ∧
    ks.length ≤ waits chain := by
  refine ⟨fun k hk => ?_, h.descends, ?_⟩
  · have hnested := h.nested k hk
    exact ⟨hnested, fun f _ => f.read_off, hnested.getElem?_position⟩
  · cases ks with
    | nil => exact Nat.zero_le _
    | cons k ks =>
      have hle := h.pending_add_length_le k rfl
      omega

/-- A handler that does nothing but wait. -/
def pausing (d : Delay) : Handler := .mk { wait := some d } none none

/-- A handler that waits if the only condition fails. -/
def turning : Handler := .mk { guards := { all := [0] } } none (some [pausing (.computed 0)])

/-- A handler that waits in its `then` chain, perhaps twice. -/
def relaying : Handler := .mk {} (some [pausing (.fixed 1), turning]) none

/-- The data are whether the only condition holds. -/
def switching : Context Bool where
  table := { conditions := [⟨some "isOn", fun on _ _ => on⟩] }
  payload := .null

/-- The chain is suspended three times, at its handlers 1, 3 and 4, though the condition changes
while it waits. -/
theorem proceeds_relaying :
    let chain : Chain := [relaying, pausing (.fixed 2)]
    ∃ k₁ k₂ k₃ : Continuation, Suspends Bool chain [k₃, k₂, k₁] ∧
      [k₃, k₂, k₁].map (fun k => position k.frames) = [4, 3, 1] ∧ [4, 3, 1].Pairwise (· > ·) ∧
        Nested chain k₂.frames ∧ k₂.frames.length = 3 ∧ 3 ≤ waits chain := by
  intro chain
  let outer : Frame := ⟨[], relaying, [pausing (.fixed 2)], .thenDone⟩
  let frames₁ : List Frame := [⟨[], pausing (.fixed 1), [turning], .wait⟩, outer]
  let frames₂ : List Frame := [⟨[], pausing (.computed 0), [], .wait⟩,
    ⟨[pausing (.fixed 1)], turning, [], .elseDone⟩, outer]
  let frames₃ : List Frame := [⟨[relaying], pausing (.fixed 2), [], .wait⟩]
  obtain ⟨k₁, hk₁, hframes₁⟩ := Option.map_eq_some_iff.mp (show
    (switching.run chain { base := true }).continuation?.map (·.frames) = some frames₁ from rfl)
  obtain ⟨k₂, hk₂, hframes₂⟩ := Option.map_eq_some_iff.mp (show
    (switching.resumeFrames frames₁ (.start { base := false })).continuation?.map (·.frames) =
      some frames₂ from rfl)
  obtain ⟨k₃, hk₃, hframes₃⟩ := Option.map_eq_some_iff.mp (show
    (switching.resumeFrames frames₂ (.start { base := true })).continuation?.map (·.frames) =
      some frames₃ from rfl)
  rw [← hframes₁] at hk₂
  rw [← hframes₂] at hk₃
  have h : Suspends Bool chain [k₃, k₂, k₁] :=
    ((run switching _ _ hk₁).resume switching _ hk₂).resume switching _ hk₃
  obtain ⟨hnested, hdescends, hle⟩ := h.proceeds
  have hpositions : [k₃, k₂, k₁].map (fun k => position k.frames) = [4, 3, 1] := by
    simp only [List.map_cons, List.map_nil, hframes₁, hframes₂, hframes₃]
    rfl
  rw [hpositions] at hdescends
  exact ⟨k₁, k₂, k₃, h, hpositions, hdescends, (hnested k₂ (by simp)).1, by rw [hframes₂]; rfl, hle⟩

end Chain.Suspends
end Statechart
