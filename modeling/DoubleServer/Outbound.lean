import DoubleServer.Move

/-!
# What a peer's socket receives

A message sent on a task's channel reaches its client through three stages: the channel,
the write buffer `wr` of `Lines` (into which the first loop of `poll` drains at most
`LINES_PER_TICK` messages per call), and the socket (which takes as much of `wr` as each write
accepts).  `Agent.Outbound` says that nothing is lost, duplicated or reordered on the way:
what the socket has accepted, then `wr`, then the channel, is every message ever sent on the
channel, in order.  It holds for every task in every reachable state (`outbound_fifo`), for
every behaviour of the socket, and it is a statement about one task: a task's own steps and
the messages other tasks send it preserve it, whatever those messages are.
-/

namespace DoubleServer

variable {Addr : Type}

namespace Agent

/-- The bytes of a list of messages, one after the other. -/
def bytesOf (ms : List Msg) : Bytes := (ms.map Msg.bytes).flatten

@[simp] theorem bytesOf_nil : bytesOf ([] : List Msg) = [] := rfl

@[simp] theorem bytesOf_append (ms ms' : List Msg) :
    bytesOf (ms ++ ms') = bytesOf ms ++ bytesOf ms' := by simp [bytesOf]

@[simp] theorem bytesOf_singleton (m : Msg) : bytesOf [m] = m.bytes := by simp [bytesOf]

/-- The socket has accepted, and `wr` holds, exactly the messages the receiver has returned,
and it has not returned more than were sent. -/
def Outbound (A : Agent Addr) : Prop :=
  A.lines.socket.sent ++ A.lines.wr = bytesOf (A.inbox.take A.taken) ∧ A.taken ≤ A.inbox.length

theorem outbound_fresh (side : Side) (addr : Addr) (ins : List Incoming) (outs : List Outgoing) :
    Outbound ({ side, addr, lines := Lines.new { incoming := ins, outgoing := outs } } : Agent Addr) :=
  ⟨rfl, le_rfl⟩

theorem Outbound.push {A : Agent Addr} (h : A.Outbound) (m : Msg) : (A.push m).Outbound := by
  refine ⟨?_, h.2.trans (by simp)⟩
  simpa [List.take_append_of_le_length h.2] using h.1

/-- Receiving the next message moves it from the channel to the end of `wr`. -/
theorem Outbound.receive {A : Agent Addr} {m : Msg} {rest : List Msg} (h : A.Outbound)
    (hq : A.queue = m :: rest) :
    A.lines.socket.sent ++ A.lines.wr ++ m.bytes = bytesOf (A.inbox.take (A.taken + 1)) ∧
      A.taken + 1 ≤ A.inbox.length := by
  have hget : A.inbox[A.taken]? = some m := by
    rw [← List.head?_drop, ← queue, hq]; rfl
  have hlt : A.taken < A.inbox.length := (List.getElem?_eq_some_iff.1 hget).1
  refine ⟨?_, hlt⟩
  rw [List.take_succ, hget, h.1]
  simp

theorem Outbound.drainStep {A : Agent Addr} (h : A.Outbound) (i : Fin linesPerTick)
    (senders : Bool) : (A.drainStep i senders).Outbound := by
  unfold Agent.drainStep
  split
  · rename_i m rest hq
    have := h.receive hq
    split <;> exact ⟨by simpa using this.1, this.2⟩
  · exact h

theorem Outbound.step {A A' : Agent Addr} (h : A.Outbound) (hs : Step A A') : A'.Outbound := by
  cases hs with
  | drain senders _ => exact h.drainStep _ senders
  | flush => exact ⟨(Lines.pollFlush_sent_wr _).trans h.1, h.2⟩
  | intoFuture | read => exact ⟨by simpa [intoFuture, readStep] using h.1, h.2⟩
  | _ => exact h

/-- What the socket has accepted, then `wr`, then the channel: the channel's whole history. -/
theorem Outbound.sent_wr_queue {A : Agent Addr} (h : A.Outbound) :
    A.lines.socket.sent ++ A.lines.wr ++ bytesOf A.queue = bytesOf A.inbox := by
  rw [h.1, queue, ← bytesOf_append, List.take_append_drop]

end Agent

theorem Sys.Reachable.outbound [DecidableEq Addr] {s : Sys Addr} (hs : s.Reachable) {j : Nat}
    {Q : Agent Addr} (hQ : s.agents j = some Q) : Q.Outbound :=
  Sys.Reachable.agent_induction Agent.outbound_fresh (fun h hs => h.step hs) (fun m h => h.push m)
    hs hQ

/-- What a task's socket has accepted, then its write buffer, then its channel, are all the
messages sent on the channel, in send order, in every reachable state; and `poll_flush`
returns `Ready` only with the write buffer empty. -/
theorem outbound_fifo [DecidableEq Addr] {s : Sys Addr} (hs : s.Reachable) {j : Nat}
    {Q : Agent Addr} (hQ : s.agents j = some Q) :
    Q.lines.socket.sent ++ Q.lines.wr ++ Agent.bytesOf Q.queue = Agent.bytesOf Q.inbox ∧
      ∀ l : Lines, (l.pollFlush).1 = some (.ready ()) → (l.pollFlush).2.wr = [] := by
  refine ⟨?_, fun l => Lines.pollFlush_ready⟩
  rw [(hs.outbound hQ).1, Agent.queue, ← Agent.bytesOf_append, List.take_append_drop]

/-- In `relayed`, `q`'s socket has taken `p:`, and ` hi\r\n` waits in its write buffer. -/
theorem outbound_fifo_relayed :
    relayed.Reachable ∧ relayed.agents 0 = some relayedQ ∧
      (relayedQ.lines.socket.sent ++ relayedQ.lines.wr ++ Agent.bytesOf relayedQ.queue =
        Agent.bytesOf relayedQ.inbox ∧
      ∀ l : Lines, (l.pollFlush).1 = some (.ready ()) → (l.pollFlush).2.wr = []) :=
  ⟨.relayed, by decide, outbound_fifo .relayed (j := 0) (by decide)⟩

end DoubleServer
