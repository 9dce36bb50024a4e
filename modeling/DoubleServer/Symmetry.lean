import DoubleServer.Move

/-!
# The two listeners are one

`double_server.rs` holds two hand-written copies of one peer: `GOPeer` is `CPeer` with
`c_state` and `go_state` exchanged, and `go_process` is `c_process` for the other listener.
In the model both copies are `Peer` applied to their listeners, so the question is whether
that is what the source does: whether every operation of a `GOPeer` is the operation of a
`CPeer` on the state with the two maps exchanged.

`Sys.swap` exchanges the two maps and the listener of every task.  A task's steps never look
at its listener (`Agent.swap_intoFuture` and its siblings), so `Sys.swap_step`: a step of the
exchanged server is the exchanged step of the server.  `listeners_swap` collects the result.
-/

namespace DoubleServer

variable {Addr : Type}

namespace Agent

/-- The task as a task of the other listener. -/
def swap (A : Agent Addr) : Agent Addr := { A with side := A.side.swap }

section Swap

variable (A : Agent Addr)

@[simp] theorem swap_side : A.swap.side = A.side.swap := rfl
@[simp] theorem swap_addr : A.swap.addr = A.addr := rfl
@[simp] theorem swap_phase : A.swap.phase = A.phase := rfl
@[simp] theorem swap_said : A.swap.said = A.said := rfl
@[simp] theorem swap_line (m : Bytes) : A.swap.line m = A.line m := rfl

@[simp] theorem swap_swap : A.swap.swap = A := by simp [swap]

/-! The steps of a task do not look at its listener. -/

@[simp] theorem swap_intoFuture : A.intoFuture.swap = A.swap.intoFuture := rfl
@[simp] theorem swap_join : A.join.swap = A.swap.join := rfl
@[simp] theorem swap_begin : A.begin.swap = A.swap.begin := rfl
@[simp] theorem swap_flushStep : A.flushStep.swap = A.swap.flushStep := rfl
@[simp] theorem swap_readStep : A.readStep.swap = A.swap.readStep := rfl
@[simp] theorem swap_dropped : A.dropped.swap = A.swap.dropped := rfl
@[simp] theorem swap_free : A.free.swap = A.swap.free := rfl
@[simp] theorem swap_lockStep (m : Bytes) (q : List (Addr × Nat)) :
    (A.lockStep m q).swap = A.swap.lockStep m q := rfl
@[simp] theorem swap_visit (m : Bytes) (q : List (Addr × Nat)) :
    (A.visit m q).swap = A.swap.visit m q := rfl
@[simp] theorem swap_release (m : Bytes) : (A.release m).swap = A.swap.release m := rfl
@[simp] theorem swap_abort (m : Bytes) : (A.abort m).swap = A.swap.abort m := rfl
@[simp] theorem swap_push (m : Msg) : (A.push m).swap = A.swap.push m := rfl

@[simp] theorem swap_drainStep (k : Fin linesPerTick) (senders : Bool) :
    (A.drainStep k senders).swap = A.swap.drainStep k senders := by
  have hq : A.swap.queue = A.queue := rfl
  unfold drainStep
  rw [hq]
  split <;> (try split) <;> rfl

end Swap

end Agent

namespace Sys

/-- The server with the roles of its two listeners exchanged. -/
def swap (s : Sys Addr) : Sys Addr :=
  { cState := s.goState, goState := s.cState, agents := fun j => (s.agents j).map Agent.swap,
    accepted := s.accepted }

section Swap

variable (s : Sys Addr)

@[simp] theorem swap_state (side : Side) : s.swap.state side = s.state side.swap := by
  cases side <;> rfl

@[simp] theorem swap_agents (j : Nat) : s.swap.agents j = (s.agents j).map Agent.swap := rfl

@[simp] theorem swap_accepted : s.swap.accepted = s.accepted := rfl

@[simp] theorem swap_swap : s.swap.swap = s := by
  simp only [swap, Option.map_map]
  congr
  funext j
  cases s.agents j <;> simp

@[simp] theorem swap_senders (i : Nat) : s.swap.senders i = s.senders i := by
  simp [senders, swap, Bool.or_comm]

theorem swap_update (side : Side) (g : Shared Addr → Shared Addr) :
    (s.update side g).swap = s.swap.update side.swap g := by
  cases side <;> rfl

/-- A change of task `i` that does not look at its listener commutes with the exchange. -/
theorem swap_modify (i : Nat) {f : Agent Addr → Agent Addr} (hf : ∀ A, (f A).swap = f A.swap) :
    (s.modify i f).swap = s.swap.modify i f := by
  simp only [swap, modify]
  congr
  funext j
  by_cases hj : j = i
  · subst hj; cases s.agents j <;> simp [hf]
  · simp [hj]

theorem swap_spawn (side : Side) (addr : Addr) (socket : TcpStream) :
    (spawn side s addr socket).swap = spawn side.swap s.swap addr socket := by
  simp only [swap, spawn]
  congr
  funext j
  by_cases hj : j = s.accepted
  · subst hj; simp [Agent.swap]
  · simp [hj]

end Swap

end Sys

/-- The action with the roles of the two listeners exchanged. -/
def Action.swap : Action Addr → Action Addr
  | .accept side addr ins outs => .accept side.swap addr ins outs
  | .run i => .run i

variable [DecidableEq Addr]

namespace Peer

variable (s : Sys Addr) (i : Nat) (A : Agent Addr)

theorem new_swap (own : Side) :
    Peer.new own.swap s.swap i A.swap = (Peer.new own s i A).map Sys.swap := by
  simp only [Peer.new, Sys.swap_state, Side.swap_swap, Agent.swap_addr]
  split <;> simp [Sys.swap_update, Sys.swap_modify]

theorem drop_swap (own : Side) :
    Peer.drop own.swap s.swap i A.swap = (Peer.drop own s i A).map Sys.swap := by
  simp only [Peer.drop, Sys.swap_state, Side.swap_swap, Agent.swap_addr]
  split <;> simp [Sys.swap_update, Sys.swap_modify]

theorem poll_swap (target : Side) (pc : Pc Addr) :
    Peer.poll target.swap s.swap i A.swap pc = (Peer.poll target s i A pc).map Sys.swap := by
  cases pc with
  | idle | flush | read => simp [Peer.poll, Sys.swap_modify]
  | drain k => simp [Peer.poll, Sys.swap_modify]
  | lock m =>
    simp only [Peer.poll, Sys.swap_state, Side.swap_swap, Agent.swap_said]
    split <;> simp [Sys.swap_update, Sys.swap_modify]
  | fanOut m pending =>
    rcases pending with _ | ⟨⟨a, t⟩, rest⟩
    · simp [Peer.poll, Sys.swap_update, Sys.swap_modify]
    · simp only [Peer.poll, Agent.swap_addr, Sys.swap_agents]
      split
      · simp [Sys.swap_modify]
      · cases s.agents t <;> simp only [Option.map_none', Option.map_some', Agent.swap_phase]
        · simp [Sys.swap_modify]
        · split <;> simp [Sys.swap_modify]

end Peer

theorem Sys.swap_step (s : Sys Addr) (a : Action Addr) :
    s.swap.step a.swap = (s.step a).map Sys.swap := by
  cases a with
  | accept side addr ins outs =>
    simp [Action.swap, Sys.step_accept, Sys.swap_spawn]
  | run i =>
    cases hA : s.agents i with
    | none => simp [Action.swap, Sys.step, hA]
    | some A =>
      have hA' : s.swap.agents i = some A.swap := by simp [hA]
      rw [Action.swap, Sys.step_run hA', Sys.step_run hA]
      simp only [Peer.step, Agent.swap_phase, Agent.swap_side]
      split
      · simp [Sys.swap_modify]
      · exact Peer.new_swap s i A _
      · exact Peer.poll_swap s i A _ _
      · exact Peer.drop_swap s i A _
      · simp [Sys.swap_modify]
      · rfl
      · rfl

theorem Sys.Reachable.swap {s : Sys Addr} (hs : s.Reachable) : s.swap.Reachable := by
  induction hs with
  | init => exact .init
  | @step s s' a _ had hstep ih =>
    refine .step (a := a.swap) ih ?_ (by rw [Sys.swap_step, hstep]; rfl)
    cases a with
    | accept side addr ins outs =>
      intro j B hB hside hl haddr
      simp only [Sys.swap_agents, Option.map_eq_some'] at hB
      obtain ⟨B₀, hB₀, rfl⟩ := hB
      exact had j B₀ hB₀ (by simpa [Action.swap] using congrArg Side.swap hside) hl haddr
    | run i => trivial

theorem Sys.swap_run (s : Sys Addr) (as : List (Action Addr)) :
    s.swap.run (as.map Action.swap) = (s.run as).map Sys.swap := by
  induction as generalizing s with
  | nil => rfl
  | cons a as ih =>
    simp only [List.map_cons, Sys.run, Sys.swap_step]
    cases s.step a <;> simp [ih]

/-- `GOPeer` is `CPeer` with the two maps exchanged: `GOPeer::new`, `GOPeer::poll` and `Drop`
for `GOPeer` on a state are `CPeer::new`, `CPeer::poll` and `Drop` for `CPeer` on the state
with the maps (and the listener of every task) exchanged, and `go_process` is `c_process` for
the other listener; hence the exchange maps every step, every run and every reachable state of
the server to one of the server.  This is a fact of runs without accept errors, the runs the
model has: `main` spawns `c_server` on `rt` but runs `go_server` under `tokio::run`, so after an
accept error the two listeners end differently. -/
theorem listeners_swap (s : Sys Addr) (i : Nat) (A : Agent Addr) (pc : Pc Addr) (addr : Addr)
    (socket : TcpStream) :
    GOPeer.new s i A = (CPeer.new s.swap i A.swap).map Sys.swap ∧
    GOPeer.poll s i A pc = (CPeer.poll s.swap i A.swap pc).map Sys.swap ∧
    GOPeer.drop s i A = (CPeer.drop s.swap i A.swap).map Sys.swap ∧
    goProcess s addr socket = (cProcess s.swap addr socket).swap ∧
    (∀ a, s.swap.step a.swap = (s.step a).map Sys.swap) ∧
    (∀ as, s.swap.run (as.map Action.swap) = (s.run as).map Sys.swap) ∧
    (s.Reachable → s.swap.Reachable) := by
  have back : ∀ o : Option (Sys Addr), o = (o.map Sys.swap).map Sys.swap := fun o => by
    cases o <;> simp
  refine ⟨?_, ?_, ?_, ?_, Sys.swap_step s, Sys.swap_run s, Sys.Reachable.swap⟩
  · exact (back _).trans (congrArg _ (Peer.new_swap s i A .go).symm)
  · exact (back _).trans (congrArg _ (Peer.poll_swap s i A .c pc).symm)
  · exact (back _).trans (congrArg _ (Peer.drop_swap s i A .go).symm)
  · rw [cProcess, goProcess, Sys.swap_spawn, Sys.swap_swap]
    rfl

end DoubleServer
