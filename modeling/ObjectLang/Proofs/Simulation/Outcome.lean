import ObjectLang.Proofs.Simulation.State

/-!
# What becomes of a run

`World.Simulates` says that a run does what evaluation does: where evaluation gives a value, the run
reaches a state that satisfies a postcondition; where evaluation stops, so does the run, with the
fault that belongs to it; and where evaluation runs out of fuel, the run goes on for at least as
many steps.  A run that no machine has room for owes nothing.

Every state of the run, moreover, is one in which the stack is not too high and method calls go
where they should (`World.Observes`).

Simulations are composed like evaluations (`World.Simulates.bind`).
-/

namespace ObjectLang

open Reference (Store Stop Eval)
open Segmented (Word State Steps)

namespace Segmented.State

variable (s : State)

/-- The word reached by following a number of links. -/
def follow : Nat → Word → Option Word
  | 0, w => some w
  | hops + 1, w => (s.read w).bind (follow hops)

/-- The object that a method is called on. -/
def receiver (site : MethodSite) : Option Word :=
  (s.follow site.hops s.fp).bind fun link =>
    match site.offset with
    | none => some link
    | some offset => (link.add (.plain (Int64.ofInt offset))).bind s.read

end Segmented.State

namespace World

variable (K : World)

/-- If the next operation is the jump of a method call, it goes to the block of the method that
the class of the receiver has, and the receiver is the link of the new frame. -/
def Dispatches (s : State) : Prop :=
  ∀ site, K.img.piece s.ip = some (.dispatch site) →
    ∃ a this rest, s.stack = .plain (Int64.ofNat a) :: .plain this :: rest ∧ a < K.img.size ∧
      s.receiver site = some (.plain this) ∧
      ∀ cls, (this, cls) ∈ s.made →
        ∃ k, K.provides cls site.method k ∧ K.img.address (blockLabel k) = a

/-- What is asked of every state of a run. -/
structure Observes (s : State) : Prop where
  low : s.stack.length ≤ K.limit
  dispatches : K.Dispatches s

/-- A run of `n` steps through the code of the program. -/
def Run (n : Nat) (s t : State) : Prop := Steps K.img K.Observes n s t

/-- The next operation ends the run with a fault. -/
def Faults (t : State) (f : Fault) : Prop :=
  ∃ i, K.img.piece t.ip = some (.instr i) ∧ Segmented.step K.img t = .fault f

variable {α β : Type}

/-- The state after `n` steps is where the evaluation has ended. -/
def Ends (fuel n : Nat) (t : State) (P : α → Store → State → Prop) :
    Except Stop (α × Store) → Prop
  | .ok (a, τ) => P a τ t
  | .error .divisionByZero => K.Faults t .divisionByZero
  | .error .noObject => K.nulls ∧ K.Faults t (.badAddress (-1))
  | .error .noFunction => K.nulls ∧ (K.plainTypes → K.Faults t (.badJump (-1)))
  | .error .outOfFuel => fuel ≤ n
  | .error .meaningless => False

/-- There is no machine on which the state has room, and it is not only the stack that is to
blame. -/
structure Overflows (s : State) : Prop where
  full : ¬ s.Room
  low : s.stack.length ≤ K.limit
  bare : K.Bare → s.heap = []

/-- The run from a state does what the evaluation does. -/
def Simulates (fuel : Nat) (s : State) (r : Except Stop (α × Store))
    (P : α → Store → State → Prop) : Prop :=
  ∃ n t, K.Run n s t ∧ (K.Overflows t ∨ K.Ends fuel n t P r)

variable {K} {fuel n : Nat} {s t : State} {σ : Store} {P : α → Store → State → Prop}

/-- Where the stack is low, only the jump of a method call has to be watched. -/
theorem Low.observes (hlow : K.Low s) {p : Piece} (h : K.img.piece s.ip = some p)
    (hd : K.Dispatches s) : K.Observes s := by
  have hlt := lt_size h
  refine ⟨?_, hd⟩
  unfold Low at hlow
  omega

theorem Low.observes_of_ne (hlow : K.Low s) {p : Piece} (h : K.img.piece s.ip = some p)
    (hp : ∀ site, p ≠ .dispatch site) : K.Observes s := by
  refine hlow.observes h fun site hs => ?_
  rw [h, Option.some.injEq] at hs
  exact absurd hs (hp site)

theorem Low.observes_of_instr (hlow : K.Low s) {i : Instruction}
    (h : K.img.piece s.ip = some (.instr i)) : K.Observes s :=
  hlow.observes_of_ne h fun _ => by simp

theorem Run.refl (s : State) : K.Run 0 s s := Steps.refl s

theorem Run.trans {m : Nat} {u : State} (h₁ : K.Run m s t) (h₂ : K.Run n t u) :
    K.Run (m + n) s u := Steps.trans h₁ h₂

theorem run_straight (hlow : K.Low s) (os : List (Op Label)) (hf : os.all Op.fallsThrough = true)
    (hp : K.img.Placed s.ip (Piece.plain (straight os)))
    (h : Segmented.execAll K.img os s = .next t) : K.Run os.length s t :=
  Segmented.steps_execAll hf (fun hu => (hlow.mono hu).observes_of_instr) hp h

theorem run_op (hlow : K.Low s) {o : Op Label} (hp : K.img.piece s.ip = some (.instr (.op o)))
    (h : Segmented.execute K.img { s with ip := s.ip + 1 } o = .next t) : K.Run 1 s t :=
  Segmented.steps_op (hlow.observes_of_instr hp) hp h

theorem Faults.of_op {o : Op Label} {f : Fault} (hp : K.img.piece s.ip = some (.instr (.op o)))
    (h : Segmented.execute K.img { s with ip := s.ip + 1 } o = .fault f) : K.Faults s f :=
  ⟨_, hp, by rw [Segmented.step, hp]; exact h⟩

theorem Low.le_limit (hlow : K.Low s) (hip : s.ip ≤ K.img.size) : s.stack.length ≤ K.limit := by
  unfold Low at hlow
  omega

/-- A sound state has room or overflows. -/
theorem Sound.room_or (hs : K.Sound s σ) (hlow : K.Low s) (hip : s.ip ≤ K.img.size) :
    s.Room ∨ K.Overflows s := by
  by_cases hroom : s.Room
  · exact .inl hroom
  · exact .inr ⟨hroom, hlow.le_limit hip, hs.bare⟩

namespace Simulates

theorem of_run (hr : K.Run n s t) {r : Except Stop (α × Store)} (h : K.Ends fuel n t P r) :
    K.Simulates fuel s r P := ⟨n, t, hr, .inr h⟩

theorem ok {a : α} (hr : K.Run n s t) (h : P a σ t) : K.Simulates fuel s (.ok (a, σ)) P :=
  ⟨n, t, hr, .inr h⟩

theorem pure {a : α} (h : P a σ s) : K.Simulates fuel s (.ok (a, σ)) P := ok (.refl s) h

/-- There is nothing to show where there is no room. -/
theorem assume_room (hs : K.Sound s σ) (hlow : K.Low s) (hip : s.ip ≤ K.img.size)
    {r : Except Stop (α × Store)} (h : s.Room → K.Simulates fuel s r P) :
    K.Simulates fuel s r P := by
  rcases hs.room_or hlow hip with hroom | hfull
  · exact h hroom
  · exact ⟨0, s, .refl s, .inl hfull⟩

theorem mono {Q : α → Store → State → Prop} {r : Except Stop (α × Store)}
    (h : K.Simulates fuel s r P) (hPQ : ∀ a τ t, P a τ t → Q a τ t) :
    K.Simulates fuel s r Q := by
  obtain ⟨n, t, hr, he⟩ := h
  refine ⟨n, t, hr, he.imp_right fun he => ?_⟩
  rcases r with (_ | _ | _ | _ | _) | ⟨a, τ⟩
  case ok => exact hPQ a τ t he
  all_goals exact he

/-- Steps taken before count as fuel used. -/
theorem after {m : Nat} {r : Except Stop (α × Store)} (hr : K.Run m s t)
    (h : K.Simulates fuel t r P) : K.Simulates (m + fuel) s r P := by
  obtain ⟨n, u, hr', he⟩ := h
  refine ⟨m + n, u, hr.trans hr', he.imp_right fun he => ?_⟩
  rcases r with (_ | _ | _ | _ | _) | ⟨a, τ⟩
  case error.outOfFuel => exact Nat.add_le_add_left he m
  all_goals exact he

theorem weaken {fuel' : Nat} {r : Except Stop (α × Store)} (h : K.Simulates fuel s r P)
    (hle : fuel' ≤ fuel) : K.Simulates fuel' s r P := by
  obtain ⟨n, t, hr, he⟩ := h
  refine ⟨n, t, hr, he.imp_right fun he => ?_⟩
  rcases r with (_ | _ | _ | _ | _) | ⟨a, τ⟩
  case error.outOfFuel => exact Nat.le_trans hle he
  all_goals exact he

theorem run {m : Nat} {r : Except Stop (α × Store)} (hr : K.Run m s t)
    (h : K.Simulates fuel t r P) : K.Simulates fuel s r P :=
  (h.after hr).weaken (Nat.le_add_left fuel m)

/-- The run goes on after the evaluation has given its value. -/
theorem extend {Q : α → Store → State → Prop} {r : Except Stop (α × Store)}
    (h : K.Simulates fuel s r P)
    (hPQ : ∀ a τ t, P a τ t → ∃ m u, K.Run m t u ∧ Q a τ u) : K.Simulates fuel s r Q := by
  obtain ⟨n, t, hr, hfull | he⟩ := h
  · exact ⟨n, t, hr, .inl hfull⟩
  · rcases r with (_ | _ | _ | _ | _) | ⟨a, τ⟩
    case ok =>
      obtain ⟨m, u, hr', hq⟩ := hPQ a τ t he
      exact ⟨n + m, u, hr.trans hr', .inr hq⟩
    all_goals exact ⟨n, t, hr, .inr he⟩

/-- One evaluation after the other. -/
theorem bind {x : Eval α} {f : α → Eval β} {Q : β → Store → State → Prop}
    (h : K.Simulates fuel s (x σ) fun a τ t => K.Simulates fuel t (f a τ) Q) :
    K.Simulates fuel s ((x >>= f) σ) Q := by
  obtain ⟨n, t, hr, hfull | he⟩ := h
  · exact ⟨n, t, hr, .inl hfull⟩
  · have hbind : (x >>= f) σ =
        match x σ with
        | .ok (a, τ) => f a τ
        | .error e => .error e := by
      simp only [Bind.bind, StateT.bind, Except.bind]
      cases x σ <;> rfl
    rw [hbind]
    cases hx : x σ with
    | ok a =>
      obtain ⟨a, τ⟩ := a
      rw [hx] at he
      exact run hr he
    | error e =>
      rw [hx] at he
      refine ⟨n, t, hr, .inr ?_⟩
      cases e <;> exact he

end Simulates

end World

end ObjectLang
