import DoubleServer.Delivery
import DoubleServer.Outbound

/-!
# What a client is sent

The server exists to relay lines: every line a client of one listener sends after its name goes
out, as `name: line\r\n`, to the clients of the other listener.  `socket_receives_relays` says
that nothing else ever reaches a client: in every reachable state, what its connection has taken
is a prefix of its task's channel, and every message there is `name: line\r\n` for a line
`line` that a client of the other listener, at another address, sent on its own connection
after the name `name`.  It puts together what a socket is sent (`Agent.Outbound`), what a
message stands for (`Sys.Relays`), what a task has read (`Agent.Inbound`), and `Sys.FromOthers`,
proved here: the `addr != self.addr` test of the fan-out loop keeps every message away from a
task at its sender's address.

`client_reads_whole_messages` is the same connection seen from the client, which reads it line
by line, as `Lines::poll` does: every message on a channel is one line, so at any moment, however
the socket has split its writes, the client has read the first messages of the channel whole and
in order, and what it cannot read yet is part of the next one.

`nameless_client_never_joins` is the other end of the connection: a client that never sends a
whole first line is never given an entry, and never sent anything.
-/

namespace DoubleServer

open scoped List

variable {Addr : Type} [DecidableEq Addr]

namespace Sys

/-- Every message on a task's channel was sent by a task of the other listener, at another
address. -/
def FromOthers (s : Sys Addr) : Prop :=
  ∀ ⦃j Q⦄, s.agents j = some Q → ∀ msg ∈ Q.inbox, ∃ P, s.agents msg.origin.1 = some P ∧
    P.side = Q.side.swap ∧ P.addr ≠ Q.addr

omit [DecidableEq Addr] in
/-- A change of task `i` that keeps its listener and address keeps those of every task. -/
theorem exists_modify_same {s : Sys Addr} {i : Nat} {A : Agent Addr} (hA : s.agents i = some A)
    {f : Agent Addr → Agent Addr} (hs : (f A).side = A.side) (ha : (f A).addr = A.addr) {k : Nat}
    {P : Agent Addr} (hP : s.agents k = some P) :
    ∃ P', (s.modify i f).agents k = some P' ∧ P'.side = P.side ∧ P'.addr = P.addr := by
  by_cases hk : k = i
  · subst hk
    rw [hA] at hP
    cases hP
    exact ⟨f A, by simp [hA], hs, ha⟩
  · exact ⟨P, by simp [hk, hP], rfl, rfl⟩

namespace FromOthers

omit [DecidableEq Addr]

theorem init : (Sys.init : Sys Addr).FromOthers := fun _ _ h => by cases h

theorem of_agents {s s₀ : Sys Addr} (h : s.FromOthers) (hag : s₀.agents = s.agents) :
    s₀.FromOthers := by
  intro j Q hQ
  rw [hag] at hQ ⊢
  exact h hQ

/-- A change of task `i` that keeps its listener and address, and whose channel gains only
messages of tasks of the other listener at other addresses. -/
theorem modify {s : Sys Addr} (h : s.FromOthers) {i : Nat} {A : Agent Addr}
    (hA : s.agents i = some A) {f : Agent Addr → Agent Addr} (hs : (f A).side = A.side)
    (ha : (f A).addr = A.addr)
    (hin : ∀ msg ∈ (f A).inbox, msg ∈ A.inbox ∨
      ∃ P, s.agents msg.origin.1 = some P ∧ P.side = A.side.swap ∧ P.addr ≠ A.addr) :
    (s.modify i f).FromOthers := by
  intro j Q' hQ' msg hmsg
  obtain ⟨P, hP, hside, hne⟩ : ∃ P, s.agents msg.origin.1 = some P ∧ P.side = Q'.side.swap ∧
      P.addr ≠ Q'.addr := by
    rcases Sys.modify_agents_some hA hQ' with ⟨rfl, rfl⟩ | ⟨-, hQ⟩
    · rw [hs, ha]
      exact (hin msg hmsg).elim (h hA msg) id
    · exact h hQ msg hmsg
  obtain ⟨P', hP', hs', ha'⟩ := Sys.exists_modify_same hA hs ha hP
  exact ⟨P', hP', hs'.trans hside, ha' ▸ hne⟩

theorem spawn {s : Sys Addr} (h : s.FromOthers) (hfresh : s.agents s.accepted = none)
    (side : Side) (addr : Addr) (socket : TcpStream) :
    (DoubleServer.spawn side s addr socket).FromOthers := by
  intro j Q hQ msg hmsg
  rcases spawn_agents_some _ _ _ _ hQ with ⟨-, rfl⟩ | ⟨-, hQ⟩
  · cases hmsg
  · obtain ⟨P, hP, hP'⟩ := h hQ msg hmsg
    exact ⟨P, spawn_agents_of_some _ _ _ _ hfresh hP, hP'⟩

end FromOthers

/-- The line sent to an entry of the map goes to a task of the other listener, registered under
an address that is not the sender's. -/
theorem FromOthers.move {s s' : Sys Addr} (hs : s.Reachable) (h : s.FromOthers) {i : Nat}
    {A : Agent Addr} (hA : s.agents i = some A) (hm : Move s i A s') : s'.FromOthers := by
  have own : ∀ {s₀ : Sys Addr} {f : Agent Addr → Agent Addr}, s₀.agents = s.agents →
      Agent.Step A (f A) → (s₀.modify i f).FromOthers := fun hag hf =>
    (h.of_agents hag).modify (hag ▸ hA) hf.frame.1 hf.frame.2.1
      fun _ hmsg => .inl (hf.frame.2.2 ▸ hmsg)
  cases hm with
  | intoFuture hp => exact own rfl (.intoFuture hp)
  | new hp => exact own (by simp) (.join hp)
  | begin hp => exact own rfl (.begin hp)
  | drain hp => exact own rfl (.drain _ hp)
  | flush hp => exact own rfl (.flush hp)
  | read hp => exact own rfl (.read hp)
  | lock hp => exact own (by simp) (.lock _ hp)
  | skip hp => exact own rfl (.visit hp)
  | abort hp => exact own rfl (.abort hp)
  | release hp => exact own (by simp) (.release hp)
  | drop hp => exact own (by simp) (.dropped hp)
  | free hp => exact own rfl (.free hp)
  | @send m a t rest B hp ha hB _ =>
    obtain ⟨B', hB', hside, haddr, -⟩ := hs.registry.pending_owner hA hp
    rw [hB] at hB'
    cases hB'
    have hB₁ : (s.modify i (·.visit m rest)).agents t = some B := by
      simp [hs.registry.pending_ne hA hp, hB]
    refine (own rfl (.visit hp)).modify hB₁ rfl rfl fun msg hmsg => ?_
    simp only [Agent.push_inbox, List.mem_append, List.mem_singleton] at hmsg
    refine hmsg.imp id fun hmsg => ⟨A.visit m rest, by simp [hmsg, hA], ?_, ?_⟩
    · simp [Agent.visit, hside]
    · simpa [Agent.visit, haddr] using Ne.symm ha

theorem Reachable.fromOthers {s : Sys Addr} (hs : s.Reachable) : s.FromOthers :=
  hs.invariant .init (fun hs h _ => h.spawn (hs.registry.fresh _ le_rfl) _ _ _)
    fun hs h hA hm => h.move hs hA hm

end Sys

/-- End to end: what a client has been sent on its connection is a prefix of the messages of its
task's channel, and each message is `name: line\r\n`, where `name` is the first line that a
client of the other listener, at another address, sent on its own connection, and `line` one of
its later lines. -/
theorem socket_receives_relays {s : Sys Addr} (hs : s.Reachable) {j : Nat} {Q : Agent Addr}
    (hQ : s.agents j = some Q) :
    Q.lines.socket.sent <+: Agent.bytesOf Q.inbox ∧
    ∀ msg ∈ Q.inbox, ∃ P name rest, s.agents msg.origin.1 = some P ∧ P.side = Q.side.swap ∧
      P.addr ≠ Q.addr ∧ (splitLines P.lines.stream).1 = name :: rest ∧
      ∃ x ∈ rest, msg.bytes = relay name x := by
  refine ⟨⟨Q.lines.wr ++ Agent.bytesOf (Q.inbox.drop Q.taken), ?_⟩, fun msg hmsg => ?_⟩
  · rw [← List.append_assoc, (hs.outbound hQ).1, ← Agent.bytesOf_append, List.take_append_drop]
  obtain ⟨P, hP, hk⟩ := hs.relays hQ msg hmsg
  obtain ⟨P', hP', hside, hne⟩ := hs.fromOthers hQ msg hmsg
  rw [hP] at hP'
  cases hP'
  obtain ⟨x, hx, hbytes⟩ := Option.map_eq_some'.1 hk
  have hin := hs.inbound hP
  obtain ⟨name, hname⟩ : ∃ name, P.name = some name := by
    rcases hn : P.name with _ | name
    · obtain ⟨hsaid, hp | hp⟩ := hin.unnamed hn <;>
        simp [Agent.broadcasts, hsaid, hp, Agent.inFlight] at hx
    · exact ⟨name, rfl⟩
  refine ⟨P, name, P.broadcasts ++ (splitLines P.lines.pending).1, hP, hside, hne, ?_, x,
    List.mem_append_left _ (List.getElem?_mem hx), ?_⟩
  · rw [hin.lines, Agent.heard, hname]
    simp [Agent.broadcasts]
  · rw [← hbytes, Agent.line, hname]
    rfl

/-- In `relayed`, `q`'s socket has taken a prefix of `p: hi\r\n`, made of `p`'s name and the
line it sent after it. -/
theorem socket_receives_relays_relayed :
    relayed.Reachable ∧ relayed.agents 0 = some relayedQ ∧
      (relayedQ.lines.socket.sent <+: Agent.bytesOf relayedQ.inbox ∧
      ∀ msg ∈ relayedQ.inbox, ∃ P name rest, relayed.agents msg.origin.1 = some P ∧
        P.side = relayedQ.side.swap ∧ P.addr ≠ relayedQ.addr ∧
        (splitLines P.lines.stream).1 = name :: rest ∧ ∃ x ∈ rest, msg.bytes = relay name x) :=
  ⟨.relayed, by decide, socket_receives_relays .relayed (j := 0) (by decide)⟩

/-! ## What a client reads -/

/-- The line a message carries, its terminator stripped. -/
def Msg.text (msg : Msg) : Bytes := msg.bytes.dropLast.dropLast

/-- Every message on a channel is one line: its text, which holds no terminator, and then a
terminator. -/
theorem Sys.Reachable.msg_line {s : Sys Addr} (hs : s.Reachable) {j : Nat} {Q : Agent Addr}
    (hQ : s.agents j = some Q) {msg : Msg} (hmsg : msg ∈ Q.inbox) :
    msg.bytes = msg.text ++ crlf ∧ ¬ HasCrlf msg.text := by
  obtain ⟨P, hP, hk⟩ := hs.relays hQ msg hmsg
  obtain ⟨x, hx, hbytes⟩ := Option.map_eq_some'.1 hk
  have hin := hs.inbound hP
  have hname : ¬ HasCrlf (P.name.getD []) := by
    rcases hn : P.name with _ | name
    · exact not_hasCrlf_nil
    · exact hin.not_hasCrlf_heard (by simp [Agent.heard, hn])
  have hxh : x ∈ P.heard := by
    rw [Agent.heard, List.append_assoc]
    exact List.mem_append_right _ (List.getElem?_mem hx)
  have hb : msg.bytes = (P.name.getD [] ++ colonSpace ++ x) ++ crlf := by rw [← hbytes]; rfl
  have ht : msg.text = P.name.getD [] ++ colonSpace ++ x := by
    simp [Msg.text, hb, crlf, List.dropLast_append_cons]
  exact ⟨by rw [ht, hb], ht ▸ not_hasCrlf_relayed hname (hin.not_hasCrlf_heard hxh)⟩

omit [DecidableEq Addr] in
theorem Agent.bytesOf_eq_framed {ms : List Msg} (h : ∀ msg ∈ ms, msg.bytes = msg.text ++ crlf) :
    Agent.bytesOf ms = framed (ms.map Msg.text) := by
  induction ms with
  | nil => rfl
  | cons msg ms ih =>
    simp only [List.mem_cons, forall_eq_or_imp] at h
    rw [← List.singleton_append, Agent.bytesOf_append, Agent.bytesOf_singleton, ih h.2, h.1]
    simp

/-- What a client reads, in every reachable state: every message on its task's channel is one
line, and the bytes its socket has accepted, cut into lines as `Lines::poll` cuts them, are the
lines of the channel's first `k` messages, whole and in order, followed by part of the next
message, at most its line and the first byte of its terminator.  However the writes of
`poll_flush` split the messages, the client never reads a message cut short, or two run
together. -/
theorem client_reads_whole_messages {s : Sys Addr} (hs : s.Reachable) {j : Nat}
    {Q : Agent Addr} (hQ : s.agents j = some Q) :
    (∀ msg ∈ Q.inbox, msg.bytes = msg.text ++ crlf ∧ ¬ HasCrlf msg.text) ∧
    ∃ k, (splitLines Q.lines.socket.sent).1 = (Q.inbox.take k).map Msg.text ∧
      (splitLines Q.lines.socket.sent).2 <+:
        ((Q.inbox.drop k).head?.map fun msg => msg.text ++ [cr]).getD [] := by
  have hline := fun msg (hmsg : msg ∈ Q.inbox) => hs.msg_line hQ hmsg
  have hsent : Q.lines.socket.sent <+: framed (Q.inbox.map Msg.text) := by
    rw [← Agent.bytesOf_eq_framed fun msg hmsg => (hline msg hmsg).1]
    refine ⟨Q.lines.wr ++ Agent.bytesOf (Q.inbox.drop Q.taken), ?_⟩
    rw [← List.append_assoc, (hs.outbound hQ).1, ← Agent.bytesOf_append, List.take_append_drop]
  obtain ⟨k, hk, hr⟩ := splitLines_prefix_framed
    (List.forall_mem_map.2 fun msg hmsg => (hline msg hmsg).2) hsent
  refine ⟨hline, k, by rw [hk, List.map_take], ?_⟩
  rwa [← List.map_drop, List.head?_map, Option.map_map] at hr

/-- In `relayed`, `q`'s socket has taken `p:`, the start of `p: hi\r\n`: `q`'s client has read
no line yet. -/
theorem client_reads_whole_messages_relayed :
    relayed.Reachable ∧ relayed.agents 0 = some relayedQ ∧
      ((∀ msg ∈ relayedQ.inbox, msg.bytes = msg.text ++ crlf ∧ ¬ HasCrlf msg.text) ∧
      ∃ k, (splitLines relayedQ.lines.socket.sent).1 = (relayedQ.inbox.take k).map Msg.text ∧
        (splitLines relayedQ.lines.socket.sent).2 <+:
          ((relayedQ.inbox.drop k).head?.map fun msg => msg.text ++ [cr]).getD []) :=
  ⟨.relayed, by decide, client_reads_whole_messages .relayed (j := 0) (by decide)⟩

/-! ## A client that never names itself -/

/-- A task without a name has never been sent a message: messages go to entries of a map, whose
tasks have a receiver and so have read their name. -/
theorem Sys.Reachable.unnamed_inbox {s : Sys Addr} (hs : s.Reachable) {j : Nat}
    {A : Agent Addr} (hA : s.agents j = some A) (hn : A.name = none) : A.inbox = [] :=
  (hs.agent_induction_rx (P := fun A => A.Inbound ∧ (A.name = none → A.inbox = []))
    (fun side addr ins outs => ⟨Agent.inbound_fresh side addr ins outs, fun _ => rfl⟩)
    (fun ⟨hin, h⟩ hst => ⟨hin.step hst, fun hn' => by
      rw [hst.frame.2.2]
      rcases hst.name with h' | hp
      exacts [h (h' ▸ hn'), h (hin.naming hp)]⟩)
    (fun m hrx ⟨hin, _⟩ => ⟨hin.push m, fun hn' => absurd hrx (by
      rcases (hin.unnamed hn').2 with hp | hp <;> simp [hp, Phase.HasRx])⟩) hA).2 hn

/-- A client that never sends a whole first line never joins the chat: in every reachable state,
if nothing its connection carries, before or after, holds a CR LF, its task has no name, has
broadcast nothing and been sent nothing, still waits for its name or has ended, and neither map
holds it.  `into_future` never yields a name, so `CPeer::new` never runs. -/
theorem nameless_client_never_joins {s : Sys Addr} (hs : s.Reachable) {j : Nat}
    {A : Agent Addr} (hA : s.agents j = some A) (hno : ¬ HasCrlf A.lines.stream) :
    A.name = none ∧ A.said = [] ∧ A.inbox = [] ∧ (A.phase = .naming ∨ A.phase = .gone) ∧
      ∀ side a, (s.state side).peers.lookup a ≠ some j := by
  have hin := hs.inbound hA
  have hheard : A.heard = [] := by
    have h := hin.lines
    rw [splitLines_of_not_hasCrlf hno] at h
    exact (List.append_eq_nil.1 h.symm).1
  have hn : A.name = none := by
    rcases h : A.name with _ | name
    · rfl
    · simp [Agent.heard, h] at hheard
  obtain ⟨hsaid, hp⟩ := hin.unnamed hn
  refine ⟨hn, hsaid, hs.unnamed_inbox hA hn, hp, fun side a h => ?_⟩
  obtain ⟨B, hB, -, -, hr⟩ := (hs.registry.peers side a j).1 h
  rw [hA] at hB
  cases hB
  rcases hp with hp | hp <;> simp [hp, Phase.Registered] at hr

/-- A client that sends `ab` and closes. -/
def muted : TcpStream := { incoming := [.data 97 [98]], outgoing := [] }

theorem Sys.Reachable.mutedStart : (cProcess (Sys.init : Sys Nat) 7 muted).Reachable :=
  .step (a := .accept .c 7 muted.incoming muted.outgoing) .init (fun _ _ h => by cases h) rfl

/-- `muted`'s task after its first poll: the stream ended without a name. -/
def mutedGone : Sys Nat := ((cProcess Sys.init 7 muted).run ([0].map .run)).get (by decide)

theorem Sys.Reachable.mutedGone : mutedGone.Reachable :=
  Reachable.mutedStart.run_tasks (Option.some_get _).symm

/-- The task in `mutedGone`. -/
def mutedTask : Agent Nat := (mutedGone.agents 0).get (by decide)

/-- `muted`'s task ends without joining. -/
theorem nameless_client_never_joins_muted :
    mutedGone.Reachable ∧ mutedGone.agents 0 = some mutedTask ∧
      ¬ HasCrlf mutedTask.lines.stream ∧
      (mutedTask.name = none ∧ mutedTask.said = [] ∧ mutedTask.inbox = [] ∧
        (mutedTask.phase = .naming ∨ mutedTask.phase = .gone) ∧
        ∀ side a, (mutedGone.state side).peers.lookup a ≠ some 0) :=
  ⟨.mutedGone, by decide, by decide,
    nameless_client_never_joins .mutedGone (j := 0) (by decide) (by decide)⟩

end DoubleServer
