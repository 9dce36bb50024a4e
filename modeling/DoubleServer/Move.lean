import DoubleServer.Server

/-!
# What one step of the server can do

`Sys.step` is a function: it says what happens.  `Move` says the same thing the other way
round, one constructor for each branch of `Peer.step` with the guard that leads to it, and
`Peer.step_move` shows that every step of a task is one of them.  The invariants of the
later modules are proved by `cases` on a `Move` and never unfold `Sys.step` again.

From it, `Sys.step_agent` says what a step does to one task, and
`Sys.Reachable.agent_induction` turns a property that a task's own steps and the messages sent
to it preserve into one of every task of every reachable state; a message is only sent to a
task that has a receiver, which `Sys.Reachable.agent_induction_rx` lets the property use.
-/

namespace DoubleServer

variable {Addr : Type} [DecidableEq Addr]

/-- The steps task `i`, in state `A`, can take from `s`. -/
inductive Move (s : Sys Addr) (i : Nat) (A : Agent Addr) : Sys Addr → Prop
  | intoFuture : A.phase = .naming → Move s i A (s.modify i Agent.intoFuture)
  /-- `CPeer::new`, once the lock of the task's own map is free. -/
  | new : A.phase = .joining → (s.state A.side).holder = none →
      Move s i A ((s.update A.side fun st => { st with peers := st.peers.insert A.addr i }).modify
        i Agent.join)
  | begin : A.phase = .active .idle → Move s i A (s.modify i Agent.begin)
  | drain {k} : A.phase = .active (.drain k) →
      Move s i A (s.modify i (·.drainStep k (s.senders i)))
  | flush : A.phase = .active .flush → Move s i A (s.modify i Agent.flushStep)
  | read : A.phase = .active .read → Move s i A (s.modify i Agent.readStep)
  /-- The lock of the other map is taken, and the loop will visit its entries. -/
  | lock {m} : A.phase = .active (.lock m) → (s.state A.side.swap).holder = none →
      Move s i A ((s.update A.side.swap fun st =>
          { st with holder := some i, fanned := st.fanned ++ [(i, A.said.length)] }).modify i
        (·.lockStep m (s.state A.side.swap).entries))
  /-- The entry of the task's own address is passed over. -/
  | skip {m a t rest} : A.phase = .active (.fanOut m ((a, t) :: rest)) → a = A.addr →
      Move s i A (s.modify i (·.visit m rest))
  | send {m a t rest} {B : Agent Addr} : A.phase = .active (.fanOut m ((a, t) :: rest)) →
      a ≠ A.addr → s.agents t = some B → B.phase.HasRx →
      Move s i A ((s.modify i (·.visit m rest)).modify t (·.push ⟨A.line m, (i, A.said.length)⟩))
  /-- `unbounded_send` fails, and `unwrap` panics. -/
  | abort {m a t rest} : A.phase = .active (.fanOut m ((a, t) :: rest)) → a ≠ A.addr →
      (∀ B, s.agents t = some B → ¬ B.phase.HasRx) → Move s i A (s.modify i (·.abort m))
  | release {m} : A.phase = .active (.fanOut m []) →
      Move s i A ((s.update A.side.swap fun st => { st with holder := none }).modify i
        (·.release m))
  /-- `Drop::drop`, once the lock of the task's own map is free. -/
  | drop {x} : A.phase = .finished x → (s.state A.side).holder = none →
      Move s i A ((s.update A.side fun st => { st with peers := st.peers.erase A.addr }).modify
        i Agent.dropped)
  | free : A.phase = .dropped → Move s i A (s.modify i Agent.free)

theorem Peer.step_move {s s' : Sys Addr} {i : Nat} {A : Agent Addr}
    (h : Peer.step A.side s i A = some s') : Move s i A s' := by
  simp only [Peer.step] at h
  rcases hp : A.phase with _ | _ | pc | x | _ | _ | _ <;> simp only [hp] at h
  · cases h; exact .intoFuture hp
  · simp only [Peer.new] at h
    split at h
    · cases h; exact .new hp ‹_›
    · cases h
  · cases pc with
    | idle => cases h; exact .begin hp
    | drain k => cases h; exact .drain hp
    | flush => cases h; exact .flush hp
    | read => cases h; exact .read hp
    | lock m =>
      simp only [Peer.poll] at h
      split at h
      · cases h; exact .lock hp ‹_›
      · cases h
    | fanOut m pending =>
      rcases pending with _ | ⟨⟨a, t⟩, rest⟩
      · cases h; exact .release hp
      simp only [Peer.poll] at h
      split at h
      · cases h; exact .skip hp ‹_›
      rcases ht : s.agents t with _ | B <;> simp only [ht] at h
      · cases h; exact .abort hp ‹_› (by simp [ht])
      split at h <;> cases h
      · exact .send hp ‹_› ht ‹_›
      · exact .abort hp ‹_› (by simpa [ht])
  · simp only [Peer.drop] at h
    split at h
    · cases h; exact .drop hp ‹_›
    · cases h
  · cases h; exact .free hp
  · cases h
  · cases h

theorem Sys.step_run_move {s s' : Sys Addr} {i : Nat} (h : s.step (.run i) = some s') :
    ∃ A, s.agents i = some A ∧ Move s i A s' := by
  cases hA : s.agents i with
  | none => simp [step, hA] at h
  | some A => exact ⟨A, rfl, Peer.step_move (step_run hA ▸ h)⟩

/-- A step of task `i` leaves every other task as it was, or sends it a message. -/
theorem Move.other {s s' : Sys Addr} {i : Nat} {A : Agent Addr} (hm : Move s i A s') {j : Nat}
    (hj : j ≠ i) {B' : Agent Addr} (hB' : s'.agents j = some B') :
    ∃ B, s.agents j = some B ∧ (B' = B ∨ ∃ m, B' = B.push m) := by
  cases hm with
  | @send m a t rest B =>
    by_cases ht : j = t
    · subst ht
      simp only [Sys.modify_agents_self, Sys.modify_agents_of_ne _ _ hj,
        Option.map_eq_some'] at hB'
      obtain ⟨B, hB, rfl⟩ := hB'
      exact ⟨B, hB, .inr ⟨_, rfl⟩⟩
    · exact ⟨B', by simpa [hj, ht] using hB', .inl rfl⟩
  | _ => exact ⟨B', by simpa [hj] using hB', .inl rfl⟩

/-! ## What a step does to one task -/

namespace Sys

omit [DecidableEq Addr] in
/-- After a step `f` of task `i`'s own, every task is as it was or has taken its own step. -/
theorem modify_own {s s₀ : Sys Addr} {i j : Nat} {A B' : Agent Addr}
    {f : Agent Addr → Agent Addr} (hag : s₀.agents = s.agents) (hA : s.agents i = some A)
    (hf : Agent.Step A (f A)) (hj : (s₀.modify i f).agents j = some B') :
    ∃ B, s.agents j = some B ∧ (B' = B ∨ Agent.Step B B') := by
  rcases modify_agents_eq hj with ⟨rfl, B, hB, rfl⟩ | ⟨-, hB⟩
  · rw [hag, hA] at hB
    cases hB
    exact ⟨A, hA, .inr hf⟩
  · exact ⟨B', hag ▸ hB, .inl rfl⟩

/-- What one step of the server does to task `j`: it creates the task, or lets it take a step
of its own or none, after which a message may have been sent on its channel, if it has a
receiver. -/
theorem step_agent {s s' : Sys Addr} {a : Action Addr} (h : s.step a = some s') {j : Nat}
    {B' : Agent Addr} (hj : s'.agents j = some B') :
    (∃ side addr ins outs,
      B' = { side, addr, lines := Lines.new { incoming := ins, outgoing := outs } }) ∨
    ∃ B, s.agents j = some B ∧ ∃ B₁, (B₁ = B ∨ Agent.Step B B₁) ∧
      (B' = B₁ ∨ ∃ m, B₁.phase.HasRx ∧ B' = B₁.push m) := by
  have own : ∀ {s₀ : Sys Addr} {i A} {f : Agent Addr → Agent Addr}, s₀.agents = s.agents →
      s.agents i = some A → Agent.Step A (f A) → (s₀.modify i f).agents j = some B' →
      ∃ B, s.agents j = some B ∧ ∃ B₁, (B₁ = B ∨ Agent.Step B B₁) ∧
        (B' = B₁ ∨ ∃ m, B₁.phase.HasRx ∧ B' = B₁.push m) := fun hag hA hf hj => by
    obtain ⟨B, hB, hstep⟩ := modify_own hag hA hf hj
    exact ⟨B, hB, B', hstep, .inl rfl⟩
  cases a with
  | accept side addr ins outs =>
    rw [step_accept] at h
    cases h
    by_cases hja : j = s.accepted
    · subst hja
      simp only [spawn, Function.update_same, Option.some.injEq] at hj
      exact .inl ⟨side, addr, ins, outs, hj.symm⟩
    · simp only [spawn, Function.update_noteq hja] at hj
      exact .inr ⟨B', hj, B', .inl rfl, .inl rfl⟩
  | run i =>
    obtain ⟨A, hA, hm⟩ := step_run_move h
    refine .inr ?_
    cases hm with
    | intoFuture hp => exact own rfl hA (.intoFuture hp) hj
    | new hp => exact own (by simp) hA (.join hp) hj
    | begin hp => exact own rfl hA (.begin hp) hj
    | drain hp => exact own rfl hA (.drain _ hp) hj
    | flush hp => exact own rfl hA (.flush hp) hj
    | read hp => exact own rfl hA (.read hp) hj
    | lock hp => exact own (by simp) hA (.lock _ hp) hj
    | skip hp => exact own rfl hA (.visit hp) hj
    | abort hp => exact own rfl hA (.abort hp) hj
    | release hp => exact own (by simp) hA (.release hp) hj
    | drop hp => exact own (by simp) hA (.dropped hp) hj
    | free hp => exact own rfl hA (.free hp) hj
    | send hp _ ht hrx =>
      rcases modify_agents_eq hj with ⟨rfl, B₀, hB₀, rfl⟩ | ⟨-, hB⟩
      · obtain ⟨B, hB, hstep⟩ := modify_own rfl hA (.visit hp) hB₀
        refine ⟨B, hB, B₀, hstep, .inr ⟨_, ?_, rfl⟩⟩
        rcases modify_agents_eq hB₀ with ⟨rfl, A₀, -, rfl⟩ | ⟨-, hB₀⟩
        · trivial
        · rw [ht] at hB₀
          exact Option.some_inj.1 hB₀ ▸ hrx
      · exact own rfl hA (.visit hp) hB

/-- An invariant of the server: it holds initially, and every accept the environment admits
and every step of a task preserve it in a reachable state. -/
theorem Reachable.invariant {I : Sys Addr → Prop} (init : I Sys.init)
    (accept : ∀ {s side addr ins outs}, s.Reachable → I s →
      s.Admissible (.accept side addr ins outs) →
      I (spawn side s addr { incoming := ins, outgoing := outs }))
    (move : ∀ {s s' i A}, s.Reachable → I s → s.agents i = some A → Move s i A s' → I s')
    {s : Sys Addr} (hs : s.Reachable) : I s := by
  induction hs with
  | init => exact init
  | @step s s' a hs₀ had hstep ih =>
    cases a with
    | accept side addr ins outs =>
      rw [step_accept] at hstep
      cases hstep
      exact accept hs₀ ih had
    | run i =>
      obtain ⟨A, hA, hm⟩ := step_run_move hstep
      exact move hs₀ ih hA hm

/-- An invariant of every task: it holds of a task just accepted, and a task's own steps and
the messages sent on its channel, which has a receiver, preserve it. -/
theorem Reachable.agent_induction_rx {P : Agent Addr → Prop}
    (fresh : ∀ side addr ins outs,
      P { side, addr, lines := Lines.new { incoming := ins, outgoing := outs } })
    (own : ∀ {A A'}, P A → Agent.Step A A' → P A')
    (push : ∀ {A} m, A.phase.HasRx → P A → P (A.push m))
    {s : Sys Addr} (hs : s.Reachable) {j : Nat} {A : Agent Addr} (hA : s.agents j = some A) :
    P A := by
  induction hs generalizing j A with
  | init => simp [Sys.init] at hA
  | step _ _ hstep ih =>
    rcases step_agent hstep hA with ⟨side, addr, ins, outs, rfl⟩ | ⟨B, hB, B₁, hB₁, hA'⟩
    · exact fresh side addr ins outs
    · have h₁ : P B₁ := by rcases hB₁ with rfl | h; exacts [ih hB, own (ih hB) h]
      rcases hA' with rfl | ⟨m, hrx, rfl⟩
      exacts [h₁, push m hrx h₁]

/-- An invariant of every task: it holds of a task just accepted, and a task's own steps and
the messages sent on its channel preserve it. -/
theorem Reachable.agent_induction {P : Agent Addr → Prop}
    (fresh : ∀ side addr ins outs,
      P { side, addr, lines := Lines.new { incoming := ins, outgoing := outs } })
    (own : ∀ {A A'}, P A → Agent.Step A A' → P A') (push : ∀ {A} m, P A → P (A.push m))
    {s : Sys Addr} (hs : s.Reachable) {j : Nat} {A : Agent Addr} (hA : s.agents j = some A) :
    P A :=
  hs.agent_induction_rx fresh own (fun m _ => push m) hA

end Sys

end DoubleServer
