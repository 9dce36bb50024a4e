import DoubleServer.Lines

/-!
# One connection's task

Each accepted connection is one task.  It starts as `lines.into_future()` waiting for the
client's name, becomes a `CPeer` (or a `GOPeer`) once `CPeer::new` has registered it, runs
the peer future's `poll` until the client leaves, and is then dropped.  `Agent` is that
task's state: the fields of `CPeer`, its channel, and where the task stands.

`CPeer::poll` is not one atomic step: other tasks run between its accesses to its channel
and to the peer maps.  The model cuts `poll` at those accesses, and `Pc` says where inside
`poll` the task stands.  Between two cuts the code touches only the task's own `Lines`, so
each piece is a function of the task alone; they are defined here, and `Agent.Step` collects
them.  What the rest of the system supplies to a piece (whether the channel still has a
sender, the entries a lock finds) is a parameter.

## Histories

`Msg.origin`, `Agent.inbox`, `Agent.said` and `Agent.tick` record what happened; the code
reads none of them, and no step reads them either.  `inbox` is the channel's whole history,
and the queue itself is `inbox.drop taken`.
-/

namespace DoubleServer

/-- `LINES_PER_TICK`. -/
def linesPerTick : Nat := 10

/-- The two listeners of `main`: the task of a connection accepted by `c_socket` is a
`CPeer`, the task of one accepted by `go_socket` a `GOPeer`. -/
inductive Side where
  | c
  | go
deriving DecidableEq, Repr

/-- The other listener. -/
def Side.swap : Side → Side
  | .c => .go
  | .go => .c

@[simp] theorem Side.swap_swap (side : Side) : side.swap.swap = side := by cases side <;> rfl

@[simp] theorem Side.swap_ne (side : Side) : side.swap ≠ side := by cases side <;> decide

@[simp] theorem Side.ne_swap (side : Side) : side ≠ side.swap := by cases side <;> decide

theorem Side.eq_or_eq_swap (side side' : Side) : side' = side ∨ side' = side.swap := by
  cases side <;> cases side' <;> simp [Side.swap]

/-- A message on a channel: the bytes sent, and which broadcast sent them (the sender's
task and the index of the line among the sender's lines), which the code does not see. -/
structure Msg where
  bytes : Bytes
  origin : Nat × Nat
deriving DecidableEq, Repr

/-- What `self.rx.poll()` returned: `Ready(Some(_))`, `Ready(None)` or `NotReady`. -/
inductive RxPoll where
  | message
  | closed
  | notReady
deriving DecidableEq, Repr

/-- What a call of the peer's `poll` does, in order: the polls of the channel, the
`task::current().notify()` of the last iteration, and the calls of `Lines::poll` with what
their `fill_read_buf` returned. -/
inductive Event where
  | rx (r : RxPoll)
  | notify
  | lines (fill : Poll Unit) (r : Poll (Option Bytes))
deriving DecidableEq, Repr

/-- Where a task stands inside the peer's `poll`. -/
inductive Pc (Addr : Type) where
  /-- Not inside `poll`: the task waits for the executor. -/
  | idle
  /-- At iteration `i` of `for i in 0..LINES_PER_TICK`, about to poll the channel. -/
  | drain (i : Fin linesPerTick)
  /-- At `self.lines.poll_flush()?`. -/
  | flush
  /-- At `while let Async::Ready(line) = self.lines.poll()?`. -/
  | read
  /-- About to lock the other listener's map to broadcast `message`. -/
  | lock (message : Bytes)
  /-- Inside `for (addr, tx) in &peers`, holding the lock, with the entries still to visit. -/
  | fanOut (message : Bytes) (pending : List (Addr × Nat))
deriving DecidableEq, Repr

/-- How the peer future completed. -/
inductive Exit where
  /-- `Ok(Async::Ready(()))`: the client closed the connection. -/
  | ready
  /-- An I/O error of the socket. -/
  | err
  /-- The `assert!` or the `split_to` of `poll_flush` panicked. -/
  | panic
deriving DecidableEq, Repr

/-- The life of a connection's task. -/
inductive Phase (Addr : Type) where
  /-- `lines.into_future()`: waiting for the first line, the client's name. -/
  | naming
  /-- The name is read; `CPeer::new` waits for the lock of its own listener's map. -/
  | joining
  /-- The peer future, at `pc`. -/
  | active (pc : Pc Addr)
  /-- The peer future has completed and waits to be dropped. -/
  | finished (exit : Exit)
  /-- `Drop::drop` has removed the entry; the fields, the receiver among them, go next. -/
  | dropped
  /-- The task is gone, and so are its socket and its receiver. -/
  | gone
  /-- `tx.unbounded_send(..).unwrap()` panicked while the map was locked for `message`. -/
  | panicked (message : Bytes)
deriving DecidableEq, Repr

variable {Addr : Type}

namespace Phase

/-- `CPeer::new` has run and `Drop::drop` has not: the task owns an entry of its map. -/
def Registered : Phase Addr → Prop
  | .active _ | .finished _ => True
  | _ => False

/-- `Drop::drop` has not run, and the task did not end before its name. -/
def Live : Phase Addr → Prop
  | .dropped | .gone => False
  | _ => True

/-- The receiver of the task's channel is alive: it is dropped with the task's fields. -/
def HasRx : Phase Addr → Prop
  | .active _ | .finished _ | .dropped => True
  | _ => False

instance : DecidablePred (@Registered Addr)
  | .active _ | .finished _ => isTrue trivial
  | .naming | .joining | .dropped | .gone | .panicked _ => isFalse id

instance : DecidablePred (@Live Addr)
  | .dropped | .gone => isFalse id
  | .naming | .joining | .active _ | .finished _ | .panicked _ => isTrue trivial

instance : DecidablePred (@HasRx Addr)
  | .active _ | .finished _ | .dropped => isTrue trivial
  | .naming | .joining | .gone | .panicked _ => isFalse id

theorem Registered.live {p : Phase Addr} (h : p.Registered) : p.Live := by
  cases p <;> simp_all [Registered, Live]

theorem Registered.hasRx {p : Phase Addr} (h : p.Registered) : p.HasRx := by
  cases p <;> simp_all [Registered, HasRx]

@[simp] theorem registered_active (pc : Pc Addr) : (Phase.active pc).Registered := trivial
@[simp] theorem registered_finished (x : Exit) : (Phase.finished x : Phase Addr).Registered :=
  trivial

end Phase

/-- A connection's task. -/
structure Agent (Addr : Type) where
  /-- The listener that accepted the connection. -/
  side : Side
  /-- `peer_addr()` of the socket. -/
  addr : Addr
  lines : Lines
  /-- The client's name, once the first line has arrived. -/
  name : Option Bytes := none
  phase : Phase Addr := .naming
  /-- Every message sent on the task's channel, in order. -/
  inbox : List Msg := []
  /-- How many of them the receiver has returned: the channel holds the rest. -/
  taken : Nat := 0
  /-- The lines the task has broadcast. -/
  said : List Bytes := []
  /-- What the current, or the last, call of `poll` has done. -/
  tick : List Event := []
deriving DecidableEq, Repr

namespace Agent

/-- The messages waiting in the task's channel. -/
def queue (A : Agent Addr) : List Msg := A.inbox.drop A.taken

/-- `unbounded_send` of `m` on the task's channel. -/
def push (A : Agent Addr) (m : Msg) : Agent Addr := { A with inbox := A.inbox ++ [m] }

/-- The line `name: message\r\n` that the task broadcasts for `message`. -/
def line (A : Agent Addr) (message : Bytes) : Bytes := relay (A.name.getD []) message

/-- One poll of `lines.into_future()` and the `and_then` of `c_process`: a first line is the
name and the task goes on to `CPeer::new`; the end of the stream or an error ends the task
before it joins. -/
def intoFuture (A : Agent Addr) : Agent Addr :=
  let r := A.lines.poll
  { A with
    lines := r.2
    name := match r.1 with
      | .ready (some name) => some name
      | _ => A.name
    phase := match r.1 with
      | .ready (some _) => .joining
      | .ready none | .err => .gone
      | .notReady => A.phase }

/-- The end of `CPeer::new`: the peer future exists and waits for the executor. -/
def join (A : Agent Addr) : Agent Addr := { A with phase := .active .idle }

/-- The executor calls `poll`. -/
def begin (A : Agent Addr) : Agent Addr :=
  { A with tick := [], phase := .active (.drain ⟨0, by decide⟩) }

/-- Iteration `i` of the loop that receives messages from peers.  `self.rx.poll()` returns the
next message if there is one, `Ready(None)` once no sender is left (`senders = false`), and
`NotReady` otherwise.  A message is buffered, and at the last iteration the task notifies
itself; anything else breaks the loop. -/
def drainStep (A : Agent Addr) (i : Fin linesPerTick) (senders : Bool) : Agent Addr :=
  match A.queue with
  | m :: _ =>
    if h : i.val + 1 < linesPerTick then
      { A with taken := A.taken + 1, lines := A.lines.buffer m.bytes,
               tick := A.tick ++ [.rx .message], phase := .active (.drain ⟨i.val + 1, h⟩) }
    else
      { A with taken := A.taken + 1, lines := A.lines.buffer m.bytes,
               tick := A.tick ++ [.rx .message, .notify], phase := .active .flush }
  | [] =>
    { A with tick := A.tick ++ [.rx (if senders then .notReady else .closed)],
             phase := .active .flush }

/-- `let _ = self.lines.poll_flush()?;`: an error completes the future with the error, a panic
aborts it, and `Ready` or `NotReady` go on to reading. -/
def flushStep (A : Agent Addr) : Agent Addr :=
  let r := A.lines.pollFlush
  { A with
    lines := r.2
    phase := match r.1 with
      | none => .finished .panic
      | some .err => .finished .err
      | some _ => .active .read }

/-- One test of `while let Async::Ready(line) = self.lines.poll()?`: a line goes to the
broadcast, the end of the stream completes the future, an error fails it, and `NotReady`
ends the call of `poll` with `Ok(Async::NotReady)`. -/
def readStep (A : Agent Addr) : Agent Addr :=
  let r := A.lines.poll
  { A with
    lines := r.2
    tick := A.tick ++ [.lines (A.lines.fillReadBuf).1 r.1]
    phase := match r.1 with
      | .ready (some m) => .active (.lock m)
      | .ready none => .finished .ready
      | .err => .finished .err
      | .notReady => .active .idle }

/-- The lock is taken: the loop will visit the entries `pending` of the map. -/
def lockStep (A : Agent Addr) (message : Bytes) (pending : List (Addr × Nat)) : Agent Addr :=
  { A with phase := .active (.fanOut message pending) }

/-- One entry of the map visited. -/
def visit (A : Agent Addr) (message : Bytes) (rest : List (Addr × Nat)) : Agent Addr :=
  { A with phase := .active (.fanOut message rest) }

/-- The loop is over and the lock released: the line is broadcast. -/
def release (A : Agent Addr) (message : Bytes) : Agent Addr :=
  { A with said := A.said ++ [message], phase := .active .read }

/-- A send of the line for `message` failed and `unwrap` panicked. -/
def abort (A : Agent Addr) (message : Bytes) : Agent Addr := { A with phase := .panicked message }

/-- `Drop::drop` has removed the entry. -/
def dropped (A : Agent Addr) : Agent Addr := { A with phase := .dropped }

/-- The fields are dropped. -/
def free (A : Agent Addr) : Agent Addr := { A with phase := .gone }

/-- The steps a task takes on its own, between two accesses to shared state. -/
inductive Step : Agent Addr → Agent Addr → Prop
  | intoFuture {A : Agent Addr} : A.phase = .naming → Step A A.intoFuture
  | join {A : Agent Addr} : A.phase = .joining → Step A A.join
  | begin {A : Agent Addr} : A.phase = .active .idle → Step A A.begin
  | drain {A : Agent Addr} {i} (senders : Bool) :
      A.phase = .active (.drain i) → Step A (A.drainStep i senders)
  | flush {A : Agent Addr} : A.phase = .active .flush → Step A A.flushStep
  | read {A : Agent Addr} : A.phase = .active .read → Step A A.readStep
  | lock {A : Agent Addr} {m} (pending : List (Addr × Nat)) :
      A.phase = .active (.lock m) → Step A (A.lockStep m pending)
  | visit {A : Agent Addr} {m e rest} :
      A.phase = .active (.fanOut m (e :: rest)) → Step A (A.visit m rest)
  | release {A : Agent Addr} {m} : A.phase = .active (.fanOut m []) → Step A (A.release m)
  | abort {A : Agent Addr} {m e rest} :
      A.phase = .active (.fanOut m (e :: rest)) → Step A (A.abort m)
  | dropped {A : Agent Addr} {x} : A.phase = .finished x → Step A A.dropped
  | free {A : Agent Addr} : A.phase = .dropped → Step A A.free

/-! ## What a task's own steps leave alone -/

section Fields

variable (A : Agent Addr)

@[simp] theorem push_inbox (m : Msg) : (A.push m).inbox = A.inbox ++ [m] := rfl
@[simp] theorem push_lines (m : Msg) : (A.push m).lines = A.lines := rfl
@[simp] theorem push_phase (m : Msg) : (A.push m).phase = A.phase := rfl
@[simp] theorem push_side (m : Msg) : (A.push m).side = A.side := rfl
@[simp] theorem push_addr (m : Msg) : (A.push m).addr = A.addr := rfl
@[simp] theorem push_name (m : Msg) : (A.push m).name = A.name := rfl
@[simp] theorem push_taken (m : Msg) : (A.push m).taken = A.taken := rfl
@[simp] theorem push_said (m : Msg) : (A.push m).said = A.said := rfl
@[simp] theorem push_tick (m : Msg) : (A.push m).tick = A.tick := rfl

end Fields

/-- A task's own step keeps its listener, its address and its channel's history. -/
theorem Step.frame {A A' : Agent Addr} (h : Step A A') :
    A'.side = A.side ∧ A'.addr = A.addr ∧ A'.inbox = A.inbox := by
  cases h <;> try exact ⟨rfl, rfl, rfl⟩
  simp only [Agent.drainStep]
  split <;> (try split) <;> exact ⟨rfl, rfl, rfl⟩

end Agent

end DoubleServer
