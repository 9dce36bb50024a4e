import DoubleServer.Call
import DoubleServer.History
import DoubleServer.Outbound

/-!
# No task waits for a lock forever

A step of a task fails only where the task would block on a lock: `CPeer::new` and `Drop` lock
the task's own map, a broadcast locks the other listener's map, and each waits while another
task holds that lock (`Sys.step_run_isSome`).  A lock is only ever held by a task inside its
fan-out loop, which takes no other lock and never waits.  Hence `no_deadlock`: a task that
cannot step is gone, or waits for a lock whose holder, running on its own, releases it after
visiting the entries it has left and one more step, and the waiting task can then step.

The loop over the channel makes progress of its own: `call_drains_budget` shows that each call
of `poll` takes the first `LINES_PER_TICK` messages of the channel, or all if fewer, into the
write buffer, and leaves the rest queued, in order, for the calls after it; so
`polls_empty_channel` empties a channel of `n` messages within `⌈n / LINES_PER_TICK⌉` calls.
Put together with a broadcast, `line_reaches_client`: within a bounded number of steps of its
task and finitely many polls of the other's, a line one client sends is handed to the socket of
each client of the other listener, or waits in the buffer `poll_flush` writes from, unless that
client's connection ends first.

And no entry outlives its connection (`closed_connection_leaves`): once a client has sent all
it will send and closed, its task's next call completes the peer future, and `Drop` and the
end of the task follow.
-/

namespace DoubleServer

variable {Addr : Type} [DecidableEq Addr]

/-- The map whose lock a task's next step takes: its own for `new` and `Drop`, the other
listener's to broadcast a line. -/
def Agent.needs (A : Agent Addr) : Option Side :=
  match A.phase with
  | .joining | .finished _ => some A.side
  | .active (.lock _) => some A.side.swap
  | _ => none

omit [DecidableEq Addr] in
theorem Agent.needs_congr {A A' : Agent Addr} (hs : A'.side = A.side) (hp : A'.phase = A.phase) :
    A'.needs = A.needs := by
  simp only [Agent.needs, hs, hp]

/-- A task steps unless it is gone or has panicked, or another task holds the lock its step
takes. -/
theorem Sys.step_run_isSome {s : Sys Addr} {i : Nat} {A : Agent Addr} (hA : s.agents i = some A)
    (hg : A.phase ≠ .gone) (hpan : ∀ m, A.phase ≠ .panicked m)
    (hfree : ∀ side, A.needs = some side → (s.state side).holder = none) :
    (s.step (.run i)).isSome := by
  rw [Sys.step_run hA]
  rcases hp : A.phase with _ | _ | pc | x | _ | _ | m
  · simp [Peer.step, hp]
  · simp [Peer.step, hp, Peer.new, hfree A.side (by simp [Agent.needs, hp])]
  · cases pc with
    | lock m => simp [Peer.step, hp, Peer.poll, hfree A.side.swap (by simp [Agent.needs, hp])]
    | fanOut m q =>
      rcases q with _ | ⟨⟨a, t⟩, rest⟩
      · simp [Peer.step, hp, Peer.poll]
      · simp only [Peer.step, hp, Peer.poll]
        split <;> (try split) <;> (try split) <;> rfl
    | _ => simp [Peer.step, hp, Peer.poll]
  · simp [Peer.step, hp, Peer.drop, hfree A.side (by simp [Agent.needs, hp])]
  · simp [Peer.step, hp]
  · exact absurd hp hg
  · exact absurd hp (hpan m)

/-- In every reachable state, a task that cannot step is gone, or waits for the lock of a map
that another task `j` holds in the middle of a broadcast; `j`'s call of `poll`, run on its own,
releases the lock within `|q| + 1` steps, where `q` are the entries it has still to visit, and
the waiting task can then step. -/
theorem no_deadlock {s : Sys Addr} (hs : s.Reachable) {i : Nat} {A : Agent Addr}
    (hA : s.agents i = some A) (hb : s.step (.run i) = none) :
    A.phase = .gone ∨ ∃ side j B m q, A.needs = some side ∧ (s.state side).holder = some j ∧
      j ≠ i ∧ s.agents j = some B ∧ B.phase = .active (.fanOut m q) ∧
      ∃ s' : Sys Addr, (∀ fuel, s.call j (q.length + 1 + fuel) = s'.call j fuel) ∧
        (s'.state side).holder = none ∧ (s'.step (.run i)).isSome := by
  by_cases hg : A.phase = .gone
  · exact .inl hg
  right
  have hr := hs.registry
  obtain ⟨side, hn, hheld⟩ : ∃ side, A.needs = some side ∧ (s.state side).holder ≠ none := by
    by_contra hc
    push_neg at hc
    have hsome := Sys.step_run_isSome hA hg (hr.calm hA) hc
    rw [hb] at hsome
    cases hsome
  obtain ⟨j, hj⟩ := Option.ne_none_iff_exists'.1 hheld
  obtain ⟨B, hB, hside, m, q, hq⟩ := (hr.holder side j).1 hj
  have hji : j ≠ i := by
    rintro rfl
    rw [hA] at hB
    cases hB
    simp [Agent.needs, hq] at hn
  obtain ⟨s₁, hc₁, -, hB₁, -, hk₁⟩ := hs.call_visits hB hq
  obtain ⟨s', h', hB', hh', -, hk', -⟩ := Sys.step_release hB₁ rfl
  have hfree : (s'.state side).holder = none := hside ▸ hh'
  obtain ⟨A', hA', hsA, hpA⟩ :
      ∃ A', s'.agents i = some A' ∧ A'.side = A.side ∧ A'.phase = A.phase := by
    have hstage := (hk' i hji.symm).trans (hk₁ i hji.symm)
    simp only [Sys.stage, hA, Option.map_some', Option.map_eq_some', Prod.mk.injEq] at hstage
    exact hstage
  refine ⟨side, j, B, m, q, hn, hj, hji, hB, hq, s', fun fuel => ?_, hfree,
    Sys.step_run_isSome hA' (hpA ▸ hg) (hpA ▸ hr.calm hA) fun side' hn' => ?_⟩
  · rw [Nat.add_assoc, Nat.add_comm 1, hc₁, Sys.call_succ h' hB' rfl nofun]
  · rw [Agent.needs_congr hsA hpA, hn] at hn'
    cases hn'
    exact hfree

/-! ## A task waiting for a lock

`q` and `p` as in `relayed`, and a third client, with `q`'s socket, connecting to the go
listener from address 9 before any task runs.  While `p` broadcasts `hi`, holding the go map's
lock, the new task names itself and then waits for that lock to register. -/

theorem Sys.Reachable.waitStart :
    (goProcess (cProcess (goProcess (Sys.init : Sys Nat) 8 relayQ) 7 relayP) 9
      relayQ).Reachable := by
  refine .step (a := .accept .go 9 relayQ.incoming relayQ.outgoing) (Reachable.relayStart 8)
    (fun j B hB _ _ => ?_) rfl
  rcases spawn_agents_some _ _ _ _ hB with ⟨-, rfl⟩ | ⟨-, hB⟩
  · decide
  rcases spawn_agents_some _ _ _ _ hB with ⟨-, rfl⟩ | ⟨-, h⟩
  · decide
  · cases h

/-- `p` inside its broadcast, with `q` still to visit, and the third task named. -/
def waiting : Sys Nat :=
  ((goProcess (cProcess (goProcess Sys.init 8 relayQ) 7 relayP) 9 relayQ).run
    ([0, 0, 1, 1, 1, 1, 1, 1, 1, 2].map .run)).get (by decide)

theorem Sys.Reachable.waiting : waiting.Reachable :=
  Reachable.waitStart.run_tasks (Option.some_get _).symm

/-- The third task in `waiting`. -/
def waiter : Agent Nat := (waiting.agents 2).get (by decide)

/-- In `waiting` the third task cannot register: `p` holds the go map's lock, and two more steps
of `p` release it. -/
theorem no_deadlock_waiting :
    waiting.Reachable ∧ waiting.agents 2 = some waiter ∧ waiting.step (.run 2) = none ∧
      waiter.phase = .joining ∧
      (waiter.phase = .gone ∨ ∃ side j B m q, waiter.needs = some side ∧
        (waiting.state side).holder = some j ∧ j ≠ 2 ∧ waiting.agents j = some B ∧
        B.phase = .active (.fanOut m q) ∧
        ∃ s' : Sys Nat, (∀ fuel, waiting.call j (q.length + 1 + fuel) = s'.call j fuel) ∧
          (s'.state side).holder = none ∧ (s'.step (.run 2)).isSome) :=
  have hb : waiting.step (.run 2) = none := Option.isNone_iff_eq_none.1 (by decide)
  ⟨.waiting, by decide, hb, by decide, no_deadlock .waiting (by decide) hb⟩

/-! ## What a call takes from the channel -/

omit [DecidableEq Addr] in
/-- A queue's first `min k n` messages are its first `k`, and the rest alike. -/
theorem Agent.queue_min (A : Agent Addr) (k : Nat) :
    A.queue.take (min k A.queue.length) = A.queue.take k ∧
      A.queue.drop (min k A.queue.length) = A.queue.drop k := by
  rcases le_total k A.queue.length with h | h
  · simp [min_eq_left h]
  · simp [min_eq_right h, List.take_of_length_le h, List.drop_of_length_le h]

/-- Each call of `poll` takes from the channel the first `LINES_PER_TICK` messages, or all of
them if fewer, and no more: from a task waiting for the executor in any reachable state, with the
other listener's map unlocked, the call returns with the rest of the channel still queued, in
order, and the bytes of the messages it took added, in order, to what the socket has taken or
`wr` holds.  A queue of `n` messages is thus emptied by `⌈n / LINES_PER_TICK⌉` calls, whatever
is sent meanwhile behind it. -/
theorem call_drains_budget {s : Sys Addr} (hs : s.Reachable) {i : Nat} {A : Agent Addr}
    (hA : s.agents i = some A) (hp : A.phase = .active .idle)
    (hh : (s.state A.side.swap).holder = none) :
    ∃ (s' : Sys Addr) (A' : Agent Addr), s.call i (linesPerTick + 3 +
        A.lines.measure * ((s.state A.side.swap).entries.length + 3)) = some s' ∧
      s'.agents i = some A' ∧ A'.Returned ∧ A'.queue = A.queue.drop linesPerTick ∧
      A'.lines.socket.sent ++ A'.lines.wr =
        A.lines.socket.sent ++ A.lines.wr ++ Agent.bytesOf (A.queue.take linesPerTick) := by
  obtain ⟨s', A', hc, hA', hret, hin, htk⟩ := hs.call_idle hA hp hh
  obtain ⟨htake, hdrop⟩ := A.queue_min linesPerTick
  refine ⟨s', A', hc, hA', hret, ?_, ?_⟩
  · rw [← hdrop, Agent.queue, hin, htk, Agent.queue, List.drop_drop, Nat.add_comm A.taken]
  · rw [((hs.call hc).outbound hA').1, (hs.outbound hA).1, ← htake, ← Agent.bytesOf_append, hin,
      htk, List.take_add]
    rfl

/-- In `flooded`, `q`'s next call takes ten of its eleven queued messages and leaves the
eleventh for the call after. -/
theorem call_drains_budget_flooded :
    flooded.Reachable ∧ flooded.agents 0 = some floodedQ ∧ floodedQ.phase = .active .idle ∧
      (flooded.state floodedQ.side.swap).holder = none ∧ floodedQ.queue.length = 11 ∧
      ∃ (s' : Sys Nat) (A' : Agent Nat), flooded.call 0 (linesPerTick + 3 +
          floodedQ.lines.measure * ((flooded.state floodedQ.side.swap).entries.length + 3)) =
          some s' ∧ s'.agents 0 = some A' ∧ A'.Returned ∧
        A'.queue = floodedQ.queue.drop linesPerTick ∧
        A'.lines.socket.sent ++ A'.lines.wr = floodedQ.lines.socket.sent ++ floodedQ.lines.wr ++
          Agent.bytesOf (floodedQ.queue.take linesPerTick) :=
  ⟨.flooded, by decide, by decide, by decide, by decide,
    call_drains_budget .flooded (by decide) (by decide) (by decide)⟩

/-! ## Polls that empty the channel -/

/-- The executor polls task `i` `n` times in a row, and each call returns. -/
inductive Sys.Polls (i : Nat) : Nat → Sys Addr → Sys Addr → Prop
  | refl (s : Sys Addr) : Polls i 0 s s
  | call {n : Nat} {s s₁ s' : Sys Addr} (fuel : Nat) :
      s.call i fuel = some s₁ → Polls i n s₁ s' → Polls i (n + 1) s s'

/-- Polls are steps of the server. -/
theorem Sys.Polls.run {i n : Nat} {s s' : Sys Addr} (h : s.Polls i n s') : s.Run s' := by
  induction h with
  | refl => exact .refl
  | call _ hc _ ih => exact (Sys.Run.of_call hc).trans ih

/-- Polling a task alone `⌈n / LINES_PER_TICK⌉` times, for `n` queued messages, empties its
channel, or its connection ends first; no message is added meanwhile. -/
theorem Sys.Reachable.polls_drain {s : Sys Addr} (hs : s.Reachable) {i : Nat} {A : Agent Addr}
    (hA : s.agents i = some A) (hp : A.phase = .active .idle)
    (hh : (s.state A.side.swap).holder = none) :
    ∃ (n : Nat) (s' : Sys Addr) (A' : Agent Addr),
      n ≤ (A.queue.length + linesPerTick - 1) / linesPerTick ∧ s.Polls i n s' ∧
      s'.agents i = some A' ∧ A'.inbox = A.inbox ∧
      (A'.queue = [] ∨ ∃ x, A'.phase = .finished x) := by
  generalize hq : A.queue.length = q
  induction q using Nat.strong_induction_on generalizing s A with
  | _ q ih =>
  rcases Nat.eq_zero_or_pos q with rfl | hpos
  · exact ⟨0, s, A, Nat.zero_le _, .refl s, hA, rfl, .inl (List.length_eq_zero.1 hq)⟩
  obtain ⟨s₁, A₁, hc, hA₁, hend, hin, htk, -, hh₁⟩ := hs.call_from_idle hA hp hh
  have hq₁ : A₁.queue.length = q - min linesPerTick q := by
    rw [Agent.queue_length, hin, htk, ← Nat.sub_sub, ← Agent.queue_length, hq]
  have hbound : (q + linesPerTick - 1) / linesPerTick =
      (q - min linesPerTick q + linesPerTick - 1) / linesPerTick + 1 := by
    simp only [linesPerTick]; omega
  rcases hend with ⟨hp₁, -⟩ | hfin
  · obtain ⟨A₁', hA₁', hext⟩ := (hs.run_extends (Sys.Run.of_call hc)).agents hA
    rw [hA₁] at hA₁'
    cases hA₁'
    obtain ⟨n, s', A', hn, hpolls, hA', hin', hdone⟩ :=
      ih _ (by simp only [linesPerTick] at hq₁ ⊢; omega) (hs.call hc) hA₁ hp₁ (hext.side ▸ hh₁) hq₁
    exact ⟨n + 1, s', A', hbound ▸ Nat.succ_le_succ hn, .call _ hc hpolls, hA', hin'.trans hin,
      hdone⟩
  · exact ⟨1, s₁, A₁, hbound ▸ Nat.le_add_left 1 _, .call _ hc (.refl _), hA₁, hin, .inr hfin⟩

/-- A queue of `n` messages is emptied by `⌈n / LINES_PER_TICK⌉` calls of `poll`, the ones the
`notify` at the end of the budget asks the executor for: from a task waiting for the executor
in any reachable state, with the other listener's map unlocked, polling the task alone at most
that often empties its channel, or its connection ends first.  Nothing is lost on the way:
what the socket has taken, then `wr`, then the channel, stay the same bytes. -/
theorem polls_empty_channel {s : Sys Addr} (hs : s.Reachable) {i : Nat} {A : Agent Addr}
    (hA : s.agents i = some A) (hp : A.phase = .active .idle)
    (hh : (s.state A.side.swap).holder = none) :
    ∃ (n : Nat) (s' : Sys Addr) (A' : Agent Addr),
      n ≤ (A.queue.length + linesPerTick - 1) / linesPerTick ∧ s.Polls i n s' ∧
      s'.agents i = some A' ∧
      A'.lines.socket.sent ++ A'.lines.wr ++ Agent.bytesOf A'.queue =
        A.lines.socket.sent ++ A.lines.wr ++ Agent.bytesOf A.queue ∧
      (A'.queue = [] ∨ ∃ x, A'.phase = .finished x) := by
  obtain ⟨n, s', A', hn, hpolls, hA', hin, hdone⟩ := hs.polls_drain hA hp hh
  refine ⟨n, s', A', hn, hpolls, hA', ?_, hdone⟩
  rw [((hs.run hpolls.run).outbound hA').sent_wr_queue, (hs.outbound hA).sent_wr_queue, hin]

/-- In `flooded`, two calls of `q` take its eleven queued messages. -/
theorem polls_empty_channel_flooded :
    flooded.Reachable ∧ flooded.agents 0 = some floodedQ ∧ floodedQ.phase = .active .idle ∧
      (flooded.state floodedQ.side.swap).holder = none ∧
      ∃ (n : Nat) (s' : Sys Nat) (A' : Agent Nat),
        n ≤ (floodedQ.queue.length + linesPerTick - 1) / linesPerTick ∧ flooded.Polls 0 n s' ∧
        s'.agents 0 = some A' ∧
        A'.lines.socket.sent ++ A'.lines.wr ++ Agent.bytesOf A'.queue =
          floodedQ.lines.socket.sent ++ floodedQ.lines.wr ++ Agent.bytesOf floodedQ.queue ∧
        (A'.queue = [] ∨ ∃ x, A'.phase = .finished x) :=
  ⟨.flooded, by decide, by decide, by decide,
    polls_empty_channel .flooded (by decide) (by decide) (by decide)⟩

/-! ## From one client to another -/

/-- A line read from one client is handed to the socket of a client of the other listener, or
is in the buffer `poll_flush` writes to it from.  From any reachable state where a task `P` has
read the line `x` at its read loop, no map is locked, and a task `Q` of the other listener, at
another address, waits for the executor: `P`'s call sends `name: x\r\n` to `Q`'s channel within
`|entries| + 3` steps, and polling `Q` alone, finitely often, then takes the message from the
channel and puts its bytes in what `Q`'s socket has accepted followed by `wr`, unless `Q`'s
connection ends first.  Whether the socket then accepts `wr` is up to the client. -/
theorem line_reaches_client {s : Sys Addr} (hs : s.Reachable) {i : Nat} {P : Agent Addr}
    (hP : s.agents i = some P) (hp : P.phase = .active .read)
    (hh : ∀ side, (s.state side).holder = none) {x : Bytes}
    (hx : (P.lines.poll).1 = .ready (some x)) {j : Nat} {Q : Agent Addr}
    (hQ : s.agents j = some Q) (hq : Q.phase = .active .idle) (hside : Q.side = P.side.swap)
    (haddr : Q.addr ≠ P.addr) :
    ∃ (s₁ : Sys Addr) (n : Nat) (s₂ : Sys Addr) (Q₂ : Agent Addr),
      (∀ fuel, s.call i ((s.state P.side.swap).entries.length + 3 + fuel) = s₁.call i fuel) ∧
      s₁.Polls j n s₂ ∧ s₂.agents j = some Q₂ ∧
      ((⟨P.line x, (i, P.said.length)⟩ : Msg) ∈ Q₂.inbox.take Q₂.taken ∧
        P.line x <:+: Q₂.lines.socket.sent ++ Q₂.lines.wr ∨ ∃ e, Q₂.phase = .finished e) := by
  obtain ⟨s₁, -, hc, hs₁, -, -, -, -, -, -, -, -, -, hown, hk, hdel⟩ :=
    hs.call_line hP hp (hh _) hx
  have hji : j ≠ i := by
    rintro rfl
    rw [hP] at hQ
    cases hQ
    exact Side.ne_swap _ hside
  obtain ⟨Q₁, hQ₁, hmsg⟩ :=
    hdel _ _ ((hs.registry.peers _ _ _).2 ⟨Q, hQ, hside, rfl, by simp [hq]⟩) haddr
  have hst := hk j hji
  simp only [Sys.stage, hQ₁, hQ, Option.map_some', Option.some.injEq, Prod.mk.injEq] at hst
  obtain ⟨n, s₂, Q₂, -, hpolls, hQ₂, hin, hdone⟩ := hs₁.polls_drain hQ₁ (hst.2.trans hq)
    (by rw [hst.1, hside, Side.swap_swap, hown]; exact hh _)
  refine ⟨s₁, n, s₂, Q₂, hc, hpolls, hQ₂, hdone.imp (fun hempty => ?_) id⟩
  have ho := (hs₁.run hpolls.run).outbound hQ₂
  have hall : Q₂.inbox.take Q₂.taken = Q₂.inbox := List.take_of_length_le (by
    have h := Agent.queue_length Q₂
    rw [hempty, List.length_nil] at h
    omega)
  have hm : (⟨P.line x, (i, P.said.length)⟩ : Msg) ∈ Q₂.inbox.take Q₂.taken := by
    rw [hall, hin]; exact hmsg
  exact ⟨hm, ho.1 ▸ List.infix_of_mem_flatten (List.mem_map_of_mem Msg.bytes hm)⟩

/-- `q` joined on the go listener at address 8, and the task of a client of the c listener that
sent its name and then eleven lines in one read, at its read loop. -/
def crossReading : Sys Nat :=
  ((cProcess (goProcess Sys.init 8 relayQ) 7 chatty).run ([0, 0, 1, 1, 1, 1, 1].map .run)).get
    (by decide)

theorem Sys.Reachable.crossReading : crossReading.Reachable :=
  Reachable.floodStart.run_tasks (Option.some_get _).symm

/-- The c client's task in `crossReading`. -/
def crossReader : Agent Nat := (crossReading.agents 1).get (by decide)

/-- `q` in `crossReading`. -/
def crossListener : Agent Nat := (crossReading.agents 0).get (by decide)

/-- The c client's first line `a` reaches `q`. -/
theorem line_reaches_client_crossReading :
    crossReading.Reachable ∧ crossReading.agents 1 = some crossReader ∧
      crossReader.phase = .active .read ∧ (∀ side, (crossReading.state side).holder = none) ∧
      (crossReader.lines.poll).1 = .ready (some [97]) ∧
      crossReading.agents 0 = some crossListener ∧ crossListener.phase = .active .idle ∧
      crossListener.side = crossReader.side.swap ∧ crossListener.addr ≠ crossReader.addr ∧
      ∃ (s₁ : Sys Nat) (n : Nat) (s₂ : Sys Nat) (Q₂ : Agent Nat),
        (∀ fuel, crossReading.call 1
          ((crossReading.state crossReader.side.swap).entries.length + 3 + fuel) =
            s₁.call 1 fuel) ∧
        s₁.Polls 0 n s₂ ∧ s₂.agents 0 = some Q₂ ∧
        ((⟨crossReader.line [97], (1, crossReader.said.length)⟩ : Msg) ∈
            Q₂.inbox.take Q₂.taken ∧
          crossReader.line [97] <:+: Q₂.lines.socket.sent ++ Q₂.lines.wr ∨
          ∃ e, Q₂.phase = .finished e) :=
  have hh : ∀ side, (crossReading.state side).holder = none := fun side => by
    cases side <;> decide
  ⟨.crossReading, by decide, by decide, hh, by decide, by decide, by decide, by decide, by decide,
    line_reaches_client .crossReading (by decide) (by decide) hh (by decide) (Q := crossListener)
      (by decide) (by decide) (by decide) (by decide)⟩

/-! ## A connection that closes -/

/-- A client that has sent all it will send and closed its connection leaves no trace in the
maps: from a reachable state where its task waits for the executor, no read still to come
would block, and neither map is locked, the task's next call, run on its own, completes the
peer future (at the end of the stream, or on an error), the next step runs `Drop`, and the one
after drops the task's fields.  The task is then gone, and its listener's map holds nothing
under its address. -/
theorem closed_connection_leaves {s : Sys Addr} (hs : s.Reachable) {i : Nat} {A : Agent Addr}
    (hA : s.agents i = some A) (hp : A.phase = .active .idle)
    (hclosed : .wouldBlock ∉ A.lines.socket.incoming) (hh : ∀ side, (s.state side).holder = none) :
    ∃ (s₁ s₂ s₃ : Sys Addr) (A₃ : Agent Addr), s.call i (linesPerTick + 3 +
        A.lines.measure * ((s.state A.side.swap).entries.length + 3)) = some s₁ ∧
      s₁.step (.run i) = some s₂ ∧ s₂.step (.run i) = some s₃ ∧ s₃.agents i = some A₃ ∧
      A₃.phase = .gone ∧ (s₃.state A.side).peers.lookup A.addr = none := by
  obtain ⟨s₁, A₁, hc, hA₁, hend, -, -, hown, -⟩ := hs.call_from_idle hA hp (hh _)
  obtain ⟨x, hx⟩ := hend.resolve_left fun h => hclosed h.2
  obtain ⟨A₁', hA₁', hext⟩ := (hs.run_extends (Sys.Run.of_call hc)).agents hA
  rw [hA₁] at hA₁'
  cases hA₁'
  have hfree : (s₁.state A₁.side).holder = none := by rw [hext.side, hown]; exact hh _
  let s₂ := (s₁.update A₁.side fun st => { st with peers := st.peers.erase A₁.addr }).modify i
    Agent.dropped
  have hA₂ : s₂.agents i = some A₁.dropped := by simp [s₂, hA₁]
  refine ⟨s₁, s₂, s₂.modify i Agent.free, A₁.dropped.free, hc, ?_, ?_, by simp [hA₂], rfl, ?_⟩
  · rw [Sys.step_run hA₁]
    simp [Peer.step, hx, Peer.drop, hfree, s₂]
  · rw [Sys.step_run hA₂]
    rfl
  · simp [s₂, ← hext.side, hext.addr, AList.lookup_erase]

/-- A client that sends its name `c` and the line `hi` in one read, and closes the
connection. -/
def closer : TcpStream := { incoming := [.data 99 [13, 10, 104, 105, 13, 10]], outgoing := [] }

theorem Sys.Reachable.closerStart : (cProcess (Sys.init : Sys Nat) 7 closer).Reachable :=
  .step (a := .accept .c 7 closer.incoming closer.outgoing) .init (fun _ _ h => by cases h) rfl

/-- `closer`'s task, named, registered and waiting for the executor. -/
def closerNamed : Sys Nat := ((cProcess Sys.init 7 closer).run ([0, 0].map .run)).get (by decide)

theorem Sys.Reachable.closerNamed : closerNamed.Reachable :=
  Reachable.closerStart.run_tasks (Option.some_get _).symm

/-- The task in `closerNamed`. -/
def closerIdle : Agent Nat := (closerNamed.agents 0).get (by decide)

/-- `closer`'s task broadcasts `hi`, finds the end of the stream and leaves the c map. -/
theorem closed_connection_leaves_closer :
    closerNamed.Reachable ∧ closerNamed.agents 0 = some closerIdle ∧
      closerIdle.phase = .active .idle ∧ .wouldBlock ∉ closerIdle.lines.socket.incoming ∧
      (∀ side, (closerNamed.state side).holder = none) ∧
      ∃ (s₁ s₂ s₃ : Sys Nat) (A₃ : Agent Nat), closerNamed.call 0 (linesPerTick + 3 +
          closerIdle.lines.measure * ((closerNamed.state closerIdle.side.swap).entries.length + 3)) =
          some s₁ ∧
        s₁.step (.run 0) = some s₂ ∧ s₂.step (.run 0) = some s₃ ∧ s₃.agents 0 = some A₃ ∧
        A₃.phase = .gone ∧ (s₃.state closerIdle.side).peers.lookup closerIdle.addr = none :=
  have hh : ∀ side, (closerNamed.state side).holder = none := fun side => by
    cases side <;> decide
  ⟨.closerNamed, by decide, by decide, by decide, hh,
    closed_connection_leaves .closerNamed (by decide) (by decide) (by decide) hh⟩

end DoubleServer
