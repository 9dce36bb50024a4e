import DoubleServer.Peer
import Mathlib.Data.List.AList

/-!
# The two-listener server

`main` binds two listeners, `c_socket` and `go_socket`, and creates two `Shared` maps behind
`Arc<Mutex<_>>`; every accepted connection gets a task (`c_process`, `go_process`) holding
both.  A `CPeer` registers in the `c` map and broadcasts into the `go` map, a `GOPeer` the
other way round.

`Sys` is the state of the whole server: the two maps with their locks, and every task.
`Sys.step` runs one atomic step: the environment accepts a connection, or task `i` runs until
its next access to shared state.  The locks are explicit: a task waiting for a lock has no
step until the lock is free, and a broadcast holds the lock for its whole
`for (addr, tx) in &peers` loop.

`CPeer` and `GOPeer` are one definition, `Peer`, applied to their own listeners: `CPeer::new`
and `Drop` use `c_state` and `CPeer::poll` locks `go_state`, and `GOPeer` the reverse, as in
the source.

`Sys.Reachable` adds the one assumption this model makes on the environment: a
connection accepted by a listener has an address that no task of the same listener has until
that task is dropped, as TCP guarantees for connections to one local address.

## What is not modelled

* The executor: any task may be scheduled at any time, which covers every schedule of
  tokio's thread pool.  Wake-ups are recorded in `Agent.tick`, not enforced.
* `peer_addr().unwrap()` is taken to return the address the connection was accepted with.
* A panic while a lock is held poisons the mutex; the only such panic, the `unwrap` of
  `unbounded_send`, is proved never to happen (`Registry.lean`), so the model stops the task
  there and keeps the lock held.
-/

namespace DoubleServer

variable {Addr : Type}

/-- `Shared`, behind its `Mutex`: the map `peers` from a client's address to the transmit half
of its channel (task `t`'s channel is named `t`), the task holding the lock, and every
broadcast made into the map, in the order the lock serialised them (a history). -/
structure Shared (Addr : Type) where
  peers : AList (fun _ : Addr => Nat) := ∅
  holder : Option Nat := none
  fanned : List (Nat × Nat) := []

namespace Shared

/-- The entries of the map, as the `for (addr, tx) in &peers` loop visits them. -/
def entries (st : Shared Addr) : List (Addr × Nat) := st.peers.entries.map fun e => (e.1, e.2)

/-- The map holds a transmit half of channel `t`. -/
def holds (st : Shared Addr) (t : Nat) : Bool := st.peers.entries.any fun e => e.2 == t

theorem mem_entries [DecidableEq Addr] {st : Shared Addr} {a : Addr} {t : Nat} :
    (a, t) ∈ st.entries ↔ st.peers.lookup a = some t := by
  simp only [entries, List.mem_map, Prod.mk.injEq]
  constructor
  · rintro ⟨⟨a', t'⟩, h, rfl, rfl⟩
    exact AList.mem_lookup_iff.2 h
  · intro h
    exact ⟨⟨a, t⟩, AList.mem_lookup_iff.1 h, rfl, rfl⟩

end Shared

/-- The server: the maps of `c_socket_state` and `go_socket_state` with their locks, and the
task of every accepted connection, numbered in the order of acceptance. -/
structure Sys (Addr : Type) where
  cState : Shared Addr
  goState : Shared Addr
  agents : Nat → Option (Agent Addr)
  /-- How many connections have been accepted. -/
  accepted : Nat

namespace Sys

/-- Nothing accepted yet: `Shared::new()` twice. -/
def init : Sys Addr := { cState := {}, goState := {}, agents := fun _ => none, accepted := 0 }

/-- The map of a listener. -/
def state (s : Sys Addr) : Side → Shared Addr
  | .c => s.cState
  | .go => s.goState

/-- Change the map of a listener. -/
def update (s : Sys Addr) (side : Side) (f : Shared Addr → Shared Addr) : Sys Addr :=
  match side with
  | .c => { s with cState := f s.cState }
  | .go => { s with goState := f s.goState }

/-- Change task `i`. -/
def modify (s : Sys Addr) (i : Nat) (f : Agent Addr → Agent Addr) : Sys Addr :=
  { s with agents := Function.update s.agents i ((s.agents i).map f) }

/-- Some map holds a transmit half of task `t`'s channel, so that `rx.poll()` cannot return
`Ready(None)`. -/
def senders (s : Sys Addr) (t : Nat) : Bool := s.cState.holds t || s.goState.holds t

@[simp] theorem update_agents (s : Sys Addr) (side : Side) (f : Shared Addr → Shared Addr) :
    (s.update side f).agents = s.agents := by cases side <;> rfl

@[simp] theorem update_accepted (s : Sys Addr) (side : Side) (f : Shared Addr → Shared Addr) :
    (s.update side f).accepted = s.accepted := by cases side <;> rfl

@[simp] theorem update_state_self (s : Sys Addr) (side : Side) (f : Shared Addr → Shared Addr) :
    (s.update side f).state side = f (s.state side) := by cases side <;> rfl

@[simp] theorem update_state_swap (s : Sys Addr) (side : Side) (f : Shared Addr → Shared Addr) :
    (s.update side f).state side.swap = s.state side.swap := by cases side <;> rfl

theorem update_state_of_ne (s : Sys Addr) {side side' : Side} (f : Shared Addr → Shared Addr)
    (h : side' ≠ side) : (s.update side f).state side' = s.state side' := by
  cases side <;> cases side' <;> first | rfl | exact absurd rfl h

theorem update_peers_eq (s : Sys Addr) {side : Side} {g : Shared Addr → Shared Addr}
    (hg : ∀ st, (g st).peers = st.peers) (side' : Side) :
    ((s.update side g).state side').peers = (s.state side').peers := by
  cases side <;> cases side' <;> simp [update, state, hg]

theorem update_entries (s : Sys Addr) {side : Side} {g : Shared Addr → Shared Addr}
    (hg : ∀ st, (g st).peers = st.peers) (side' : Side) :
    ((s.update side g).state side').entries = (s.state side').entries := by
  rw [Shared.entries, update_peers_eq s hg, Shared.entries]

theorem update_fanned (s : Sys Addr) {side : Side} {g : Shared Addr → Shared Addr}
    (hg : ∀ st, (g st).fanned = st.fanned) (side' : Side) :
    ((s.update side g).state side').fanned = (s.state side').fanned := by
  cases side <;> cases side' <;> simp [update, state, hg]

theorem update_holder (s : Sys Addr) {side : Side} {g : Shared Addr → Shared Addr}
    (hg : ∀ st, (g st).holder = st.holder) (side' : Side) :
    ((s.update side g).state side').holder = (s.state side').holder := by
  cases side <;> cases side' <;> simp [update, state, hg]

@[simp] theorem modify_state (s : Sys Addr) (i : Nat) (f : Agent Addr → Agent Addr)
    (side : Side) : (s.modify i f).state side = s.state side := by cases side <;> rfl

@[simp] theorem modify_accepted (s : Sys Addr) (i : Nat) (f : Agent Addr → Agent Addr) :
    (s.modify i f).accepted = s.accepted := rfl

@[simp] theorem modify_agents_self (s : Sys Addr) (i : Nat) (f : Agent Addr → Agent Addr) :
    (s.modify i f).agents i = (s.agents i).map f := by simp [modify]

@[simp] theorem modify_agents_of_ne (s : Sys Addr) {i j : Nat} (f : Agent Addr → Agent Addr)
    (h : j ≠ i) : (s.modify i f).agents j = s.agents j := by simp [modify, h]

/-- What `modify` leaves at task `j`. -/
theorem modify_agents_eq {s : Sys Addr} {i j : Nat} {f : Agent Addr → Agent Addr}
    {B' : Agent Addr} (h : (s.modify i f).agents j = some B') :
    (j = i ∧ ∃ B, s.agents j = some B ∧ B' = f B) ∨ (j ≠ i ∧ s.agents j = some B') := by
  by_cases hj : j = i
  · subst hj
    simp only [modify_agents_self, Option.map_eq_some'] at h
    obtain ⟨B, hB, rfl⟩ := h
    exact .inl ⟨rfl, B, hB, rfl⟩
  · exact .inr ⟨hj, by simpa [hj] using h⟩

/-- What `modify` leaves at task `j`, when task `i` is `A`. -/
theorem modify_agents_some {s : Sys Addr} {i j : Nat} {f : Agent Addr → Agent Addr}
    {A B' : Agent Addr} (hA : s.agents i = some A) (h : (s.modify i f).agents j = some B') :
    (j = i ∧ B' = f A) ∨ (j ≠ i ∧ s.agents j = some B') := by
  rcases modify_agents_eq h with ⟨rfl, B, hB, rfl⟩ | h
  · rw [hA] at hB
    cases hB
    exact .inl ⟨rfl, rfl⟩
  · exact .inr h

/-- Some task `j` of `s.modify i f` is `P`: task `i` changed by `f`, or another task. -/
theorem exists_modify_agents {s : Sys Addr} {i j : Nat} {f : Agent Addr → Agent Addr}
    {A : Agent Addr} (hA : s.agents i = some A) {P : Agent Addr → Prop} :
    (∃ B, (s.modify i f).agents j = some B ∧ P B) ↔
      (j = i ∧ P (f A)) ∨ (j ≠ i ∧ ∃ B, s.agents j = some B ∧ P B) := by
  by_cases hj : j = i
  · subst hj; simp [hA]
  · simp [hj]

theorem modify_agents_none {s : Sys Addr} {i j : Nat} {f : Agent Addr → Agent Addr}
    (h : s.agents j = none) : (s.modify i f).agents j = none := by
  by_cases hj : j = i
  · subst hj; simp [h]
  · simp [hj, h]

end Sys

/-! ## The peers -/

variable [DecidableEq Addr]

namespace Peer

/-- `new` for task `i` of listener `own`: lock `own`'s map, insert the task's address with
the transmit half of its channel, and start the peer future. -/
def new (own : Side) (s : Sys Addr) (i : Nat) (A : Agent Addr) : Option (Sys Addr) :=
  if (s.state own).holder = none then
    some ((s.update own fun st => { st with peers := st.peers.insert A.addr i }).modify i
      Agent.join)
  else none

/-- One atomic step of `poll` for task `i` at `pc`, broadcasting into `target`'s map. -/
def poll (target : Side) (s : Sys Addr) (i : Nat) (A : Agent Addr) : Pc Addr → Option (Sys Addr)
  | .idle => some (s.modify i Agent.begin)
  | .drain k => some (s.modify i (·.drainStep k (s.senders i)))
  | .flush => some (s.modify i Agent.flushStep)
  | .read => some (s.modify i Agent.readStep)
  | .lock m =>
    if (s.state target).holder = none then
      some ((s.update target fun st =>
          { st with holder := some i, fanned := st.fanned ++ [(i, A.said.length)] }).modify i
        (·.lockStep m (s.state target).entries))
    else none
  | .fanOut m [] =>
    some ((s.update target fun st => { st with holder := none }).modify i (·.release m))
  | .fanOut m ((a, t) :: rest) =>
    if a = A.addr then some (s.modify i (·.visit m rest))
    else
      match s.agents t with
      | some B =>
        if B.phase.HasRx then
          some ((s.modify i (·.visit m rest)).modify t (·.push ⟨A.line m, (i, A.said.length)⟩))
        else some (s.modify i (·.abort m))
      | none => some (s.modify i (·.abort m))

/-- `Drop::drop` for task `i` of listener `own`: lock `own`'s map and remove the entry of the
task's address. -/
def drop (own : Side) (s : Sys Addr) (i : Nat) (A : Agent Addr) : Option (Sys Addr) :=
  if (s.state own).holder = none then
    some ((s.update own fun st => { st with peers := st.peers.erase A.addr }).modify i
      Agent.dropped)
  else none

end Peer

/-- `CPeer::new`: registers in `c_state`. -/
def CPeer.new : Sys Addr → Nat → Agent Addr → Option (Sys Addr) := Peer.new .c

/-- `CPeer::poll`: broadcasts into `go_state`. -/
def CPeer.poll : Sys Addr → Nat → Agent Addr → Pc Addr → Option (Sys Addr) := Peer.poll .go

/-- `Drop for CPeer`: removes the entry from `c_state`. -/
def CPeer.drop : Sys Addr → Nat → Agent Addr → Option (Sys Addr) := Peer.drop .c

/-- `GOPeer::new`: registers in `go_state`. -/
def GOPeer.new : Sys Addr → Nat → Agent Addr → Option (Sys Addr) := Peer.new .go

/-- `GOPeer::poll`: broadcasts into `c_state`. -/
def GOPeer.poll : Sys Addr → Nat → Agent Addr → Pc Addr → Option (Sys Addr) := Peer.poll .c

/-- `Drop for GOPeer`: removes the entry from `go_state`. -/
def GOPeer.drop : Sys Addr → Nat → Agent Addr → Option (Sys Addr) := Peer.drop .go

/-- The task of a connection accepted by `side`'s listener: `Lines::new(socket)`, waiting for
the name. -/
def spawn (side : Side) (s : Sys Addr) (addr : Addr) (socket : TcpStream) : Sys Addr :=
  { s with
    agents := Function.update s.agents s.accepted (some { side, addr, lines := Lines.new socket })
    accepted := s.accepted + 1 }

section Spawn

omit [DecidableEq Addr]

variable (side : Side) (s : Sys Addr) (addr : Addr) (socket : TcpStream)

@[simp] theorem spawn_state (side' : Side) : (spawn side s addr socket).state side' = s.state side' := by
  cases side' <;> rfl

@[simp] theorem spawn_accepted : (spawn side s addr socket).accepted = s.accepted + 1 := rfl

theorem spawn_agents_some {j : Nat} {B' : Agent Addr}
    (h : (spawn side s addr socket).agents j = some B') :
    (j = s.accepted ∧ B' = { side, addr, lines := Lines.new socket }) ∨
      (j ≠ s.accepted ∧ s.agents j = some B') := by
  by_cases hj : j = s.accepted
  · subst hj
    simp only [spawn, Function.update_same, Option.some.injEq] at h
    exact .inl ⟨rfl, h.symm⟩
  · simp only [spawn, Function.update_noteq hj] at h
    exact .inr ⟨hj, h⟩

/-- The tasks that were there stay as they were. -/
theorem spawn_agents_of_some (hfresh : s.agents s.accepted = none) {j : Nat} {B : Agent Addr}
    (hB : s.agents j = some B) : (spawn side s addr socket).agents j = some B := by
  have hj : j ≠ s.accepted := fun hj => by rw [hj, hfresh] at hB; cases hB
  simp [spawn, Function.update_noteq hj, hB]

/-- Some task `j` after an accept is `P`: the new task, or one that was there. -/
theorem exists_spawn_agents {j : Nat} {P : Agent Addr → Prop} :
    (∃ B, (spawn side s addr socket).agents j = some B ∧ P B) ↔
      (j = s.accepted ∧ P { side, addr, lines := Lines.new socket }) ∨
        (j ≠ s.accepted ∧ ∃ B, s.agents j = some B ∧ P B) := by
  by_cases hj : j = s.accepted
  · subst hj; simp [spawn]
  · simp [spawn, hj]

end Spawn

/-- `c_process`. -/
def cProcess : Sys Addr → Addr → TcpStream → Sys Addr := spawn .c

/-- `go_process`. -/
def goProcess : Sys Addr → Addr → TcpStream → Sys Addr := spawn .go

/-- A step of the server: a listener accepts a connection from `addr`, whose socket will
behave as `incoming` and `outgoing` say, or task `i` runs. -/
inductive Action (Addr : Type) where
  | accept (side : Side) (addr : Addr) (incoming : List Incoming) (outgoing : List Outgoing)
  | run (i : Nat)

namespace Sys

/-- One atomic step of the server; `none` when the step cannot be taken (a task waiting for
a lock, or a task that is gone). -/
def step (s : Sys Addr) : Action Addr → Option (Sys Addr)
  | .accept .c addr ins outs => some (cProcess s addr { incoming := ins, outgoing := outs })
  | .accept .go addr ins outs => some (goProcess s addr { incoming := ins, outgoing := outs })
  | .run i =>
    match s.agents i with
    | none => none
    | some A =>
      match A.side, A.phase with
      | _, .naming => some (s.modify i Agent.intoFuture)
      | .c, .joining => CPeer.new s i A
      | .go, .joining => GOPeer.new s i A
      | .c, .active pc => CPeer.poll s i A pc
      | .go, .active pc => GOPeer.poll s i A pc
      | .c, .finished _ => CPeer.drop s i A
      | .go, .finished _ => GOPeer.drop s i A
      | _, .dropped => some (s.modify i Agent.free)
      | _, .gone | _, .panicked _ => none

/-- What the environment promises of a step: an accepted connection's address is not that of
a task of the same listener that is not yet dropped. -/
def Admissible (s : Sys Addr) : Action Addr → Prop
  | .accept side addr _ _ =>
    ∀ j B, s.agents j = some B → B.side = side → B.phase.Live → B.addr ≠ addr
  | .run _ => True

/-- The states of the server that some run from `init` reaches. -/
inductive Reachable : Sys Addr → Prop
  | init : Reachable init
  | step {s s' : Sys Addr} {a : Action Addr} :
      Reachable s → s.Admissible a → s.step a = some s' → Reachable s'

/-- The actions `as`, one step after the other. -/
def run (s : Sys Addr) : List (Action Addr) → Option (Sys Addr)
  | [] => some s
  | a :: as => (s.step a).bind fun s' => s'.run as

/-- Runs of tasks, which the environment always admits, stay reachable. -/
theorem Reachable.run_tasks {s s' : Sys Addr} (hs : s.Reachable) {l : List Nat}
    (h : s.run (l.map .run) = some s') : s'.Reachable := by
  induction l generalizing s with
  | nil => cases h; exact hs
  | cons i l ih =>
    simp only [List.map_cons, run, Option.bind_eq_some] at h
    obtain ⟨s₁, h₁, h⟩ := h
    exact ih (hs.step (a := .run i) trivial h₁) h

/-- One call of task `i`'s `poll` with no other task scheduled in between: the task's steps
until it is back at `Pc.idle` (`poll` has returned `Ok(NotReady)`) or no longer inside
`poll`, at most `fuel` of them. -/
def call (s : Sys Addr) (i : Nat) : Nat → Option (Sys Addr)
  | 0 => none
  | fuel + 1 => (s.step (.run i)).bind fun s' =>
    match (s'.agents i).map Agent.phase with
    | some (.active .idle) => some s'
    | some (.active _) => s'.call i fuel
    | _ => some s'

theorem Reachable.call {s s' : Sys Addr} (hs : s.Reachable) {i fuel : Nat}
    (h : s.call i fuel = some s') : s'.Reachable := by
  induction fuel generalizing s with
  | zero => cases h
  | succ fuel ih =>
    simp only [Sys.call, Option.bind_eq_some] at h
    obtain ⟨s₁, h₁, h⟩ := h
    have hs₁ := hs.step (a := .run i) trivial h₁
    split at h
    · cases h; exact hs₁
    · exact ih hs₁ h
    · cases h; exact hs₁

end Sys

/-- One step of task `i` of listener `own`: `Sys.step` for a `CPeer` is this at `own = c`,
for a `GOPeer` at `own = go`. -/
def Peer.step (own : Side) (s : Sys Addr) (i : Nat) (A : Agent Addr) : Option (Sys Addr) :=
  match A.phase with
  | .naming => some (s.modify i Agent.intoFuture)
  | .joining => Peer.new own s i A
  | .active pc => Peer.poll own.swap s i A pc
  | .finished _ => Peer.drop own s i A
  | .dropped => some (s.modify i Agent.free)
  | .gone | .panicked _ => none

theorem Sys.step_run {s : Sys Addr} {i : Nat} {A : Agent Addr} (h : s.agents i = some A) :
    s.step (.run i) = Peer.step A.side s i A := by
  obtain ⟨side, addr, lines, name, phase, inbox, taken, said, tick⟩ := A
  simp only [step, h, Peer.step]
  cases side <;> cases phase <;> rfl

theorem Sys.step_accept (s : Sys Addr) (side : Side) (addr : Addr) (ins : List Incoming)
    (outs : List Outgoing) :
    s.step (.accept side addr ins outs) =
      some (spawn side s addr { incoming := ins, outgoing := outs }) := by
  cases side <;> rfl

/-! ## A run

Two clients: `q` connects to the go listener, then `p`, from address 7, to the c listener.
Both send their names, and `p` then sends the line `hi`.  With `q` at address 8, `relayed` is
the state after `p` has broadcast `hi` to `q` and `q`'s socket has taken the first two bytes
of `p: hi\r\n`. -/

/-- `q`'s socket: the name `q`, then nothing; one write, of two bytes, before it would
block. -/
def relayQ : TcpStream :=
  { incoming := [.data 113 [13, 10], .wouldBlock, .wouldBlock], outgoing := [.written 2] }

/-- `p`'s socket: the name `p`, then the line `hi`. -/
def relayP : TcpStream :=
  { incoming := [.data 112 [13, 10], .wouldBlock, .data 104 [105, 13, 10], .wouldBlock,
      .wouldBlock], outgoing := [] }

/-- Both connections accepted, `q`'s from address `a`: the two listeners differ, so any
address is admitted. -/
theorem Sys.Reachable.relayStart (a : Nat) :
    (cProcess (goProcess (Sys.init : Sys Nat) a relayQ) 7 relayP).Reachable := by
  have hq : (goProcess (Sys.init : Sys Nat) a relayQ).Reachable :=
    .step (a := .accept .go a relayQ.incoming relayQ.outgoing) .init (fun _ _ h => by cases h) rfl
  refine .step (a := .accept .c 7 relayP.incoming relayP.outgoing) hq
    (fun j B hB hside _ => ?_) rfl
  rcases spawn_agents_some _ _ _ _ hB with ⟨-, rfl⟩ | ⟨-, h⟩
  · cases hside
  · cases h

/-- `q` (task 0) names itself and joins; `p` (task 1) names itself, joins and broadcasts `hi`,
and its call of `poll` returns; `q`'s next call drains the line and flushes what its socket
takes. -/
def relayTasks : List Nat := [0, 0, 1, 1, 1, 1, 1, 1, 1, 1, 1, 1, 0, 0, 0, 0, 0]

/-- The state after `relayTasks`, with `q` at address 8. -/
def relayed : Sys Nat :=
  ((cProcess (goProcess Sys.init 8 relayQ) 7 relayP).run (relayTasks.map .run)).get (by decide)

theorem Sys.Reachable.relayed : relayed.Reachable :=
  (Reachable.relayStart 8).run_tasks (Option.some_get _).symm

/-- `q` in `relayed`. -/
def relayedQ : Agent Nat := (relayed.agents 0).get (by decide)

/-- `p` in `relayed`. -/
def relayedP : Agent Nat := (relayed.agents 1).get (by decide)

end DoubleServer
