import DoubleServer.Move

/-!
# What a peer reads from its client

Everything a client sends on its connection, `Lines.stream`, is cut by `Lines::poll` into
lines: the first is taken by `into_future` in `c_process` as the client's name, the others are
read by the peer's `poll` loop and broadcast.  `Agent.Inbound` says that the lines heard so
far, followed by the lines of the bytes not yet yielded, are the lines of the stream.  Hence
(`inbound_lines`) in every reachable state the name and the lines broadcast are a prefix of
the lines of the stream, terminators stripped, and all of them once the peer's future has
completed at the end of the stream; and polling on from there, as long as no read fails,
`Lines::poll` yields the rest of the lines and then the end of the stream
(`Lines.collect_eq_splitLines`).  How the stream was split into reads never matters.
-/

namespace DoubleServer

variable {Addr : Type}

namespace Agent

/-- The line a task is broadcasting, or was broadcasting when it panicked. -/
def inFlight : Phase Addr → List Bytes
  | .active (.lock m) | .active (.fanOut m _) | .panicked m => [m]
  | _ => []

/-- Every line `Lines::poll` has yielded to the task: its name, the lines it has broadcast,
and the one it is broadcasting. -/
def heard (A : Agent Addr) : List Bytes := A.name.toList ++ A.said ++ inFlight A.phase

/-- The lines of a task's stream are those it has heard and then those still pending; a task
without a name has heard nothing; a future completed at the end of the stream has nothing
pending. -/
structure Inbound (A : Agent Addr) : Prop where
  lines : (splitLines A.lines.stream).1 = A.heard ++ (splitLines A.lines.pending).1
  naming : A.phase = .naming → A.name = none
  unnamed : A.name = none → A.said = [] ∧ (A.phase = .naming ∨ A.phase = .gone)
  ended : A.phase = .finished .ready → (splitLines A.lines.pending).1 = []

theorem inbound_fresh (side : Side) (addr : Addr) (ins : List Incoming) (outs : List Outgoing) :
    Inbound ({ side, addr, lines := Lines.new { incoming := ins, outgoing := outs } } : Agent Addr) where
  lines := by simp [heard, inFlight, Lines.stream, Lines.pending, Lines.new]
  naming _ := rfl
  unnamed _ := ⟨rfl, .inl rfl⟩
  ended h := by cases h

theorem Inbound.push {A : Agent Addr} (h : A.Inbound) (m : Msg) : (A.push m).Inbound :=
  ⟨h.lines, h.naming, h.unnamed, h.ended⟩

/-- A step that leaves the read side of `Lines`, the name and the lines heard alone. -/
theorem Inbound.of_eq {A A' : Agent Addr} (h : A.Inbound) (hs : A'.lines.stream = A.lines.stream)
    (hp : A'.lines.pending = A.lines.pending) (hheard : A'.heard = A.heard)
    (hname : A'.name = A.name) (hphase : A'.phase ≠ .naming ∧ A'.phase ≠ .finished .ready)
    (hn : A.name ≠ none) : A'.Inbound where
  lines := by rw [hs, hp, hheard]; exact h.lines
  naming h' := absurd h' hphase.1
  unnamed h' := absurd (hname ▸ h') hn
  ended h' := absurd h' hphase.2

theorem Inbound.intoFuture {A : Agent Addr} (h : A.Inbound) (hp : A.phase = .naming) :
    A.intoFuture.Inbound := by
  have hn := h.naming hp
  obtain ⟨hsaid, -⟩ := h.unnamed hn
  have key : (splitLines (A.lines.poll).2.stream).1 =
      (A.lines.poll).1.item.toList ++ (splitLines (A.lines.poll).2.pending).1 := by
    rw [Lines.poll_stream, h.lines, Lines.poll_splitLines A.lines]
    simp [heard, hn, hsaid, hp, inFlight]
  unfold Agent.intoFuture
  rcases hr : (A.lines.poll).1 with (_ | name) | _ | _ <;> rw [hr] at key <;>
    constructor <;> simp_all [heard, inFlight, Poll.item]

theorem Inbound.name_ne {A : Agent Addr} (h : A.Inbound) (h₁ : A.phase ≠ .naming)
    (h₂ : A.phase ≠ .gone) : A.name ≠ none :=
  fun hn => (h.unnamed hn).2.elim h₁ h₂

theorem Inbound.read {A : Agent Addr} (h : A.Inbound) (hp : A.phase = .active .read) :
    A.readStep.Inbound := by
  have hn := h.name_ne (by simp [hp]) (by simp [hp])
  have key : (splitLines (A.lines.poll).2.stream).1 =
      A.heard ++ (A.lines.poll).1.item.toList ++ (splitLines (A.lines.poll).2.pending).1 := by
    rw [Lines.poll_stream, h.lines, Lines.poll_splitLines A.lines]; simp
  have hnone := @Lines.poll_ready_none A.lines
  unfold Agent.readStep
  rcases hr : (A.lines.poll).1 with (_ | m) | _ | _ <;> rw [hr] at key <;>
    constructor <;> simp_all [heard, inFlight, Poll.item]

theorem Inbound.step {A A' : Agent Addr} (h : A.Inbound) (hs : Step A A') : A'.Inbound := by
  cases hs with
  | intoFuture hp => exact h.intoFuture hp
  | read hp => exact h.read hp
  | drain senders hp =>
    refine h.of_eq ?_ ?_ ?_ ?_ ?_ (h.name_ne (by simp [hp]) (by simp [hp])) <;>
      unfold drainStep <;> split <;> (try split) <;>
      simp [hp, heard, inFlight, Lines.stream, Lines.pending]
  | flush hp =>
    refine h.of_eq ?_ ?_ ?_ rfl ?_ (h.name_ne (by simp [hp]) (by simp [hp])) <;>
      simp only [flushStep] <;> (try split) <;>
      simp [hp, heard, inFlight, Lines.stream, Lines.pending]
  | join hp | begin hp | lock _ hp | visit hp | release hp | abort hp | dropped hp | free hp =>
    refine h.of_eq rfl rfl ?_ rfl ?_ (h.name_ne (by simp [hp]) (by simp [hp])) <;>
      simp [hp, heard, inFlight, join, begin, lockStep, visit, release, abort, dropped, free]

end Agent

theorem Sys.Reachable.inbound [DecidableEq Addr] {s : Sys Addr} (hs : s.Reachable) {j : Nat}
    {A : Agent Addr} (hA : s.agents j = some A) : A.Inbound :=
  Sys.Reachable.agent_induction Agent.inbound_fresh (fun h hs => h.step hs) (fun m h => h.push m)
    hs hA

/-- The lines a task has heard carry no terminator. -/
theorem Agent.Inbound.not_hasCrlf_heard {A : Agent Addr} (h : A.Inbound) {x : Bytes}
    (hx : x ∈ A.heard) : ¬ HasCrlf x :=
  (splitLines_spec _).2.1 x (h.lines ▸ List.mem_append_left _ hx)

/-- In every reachable state, the lines of what a client sends on its connection carry no
terminator; the task's name and the lines it has broadcast are, in order, a prefix of them
(a line is broadcast at most once, and a name comes first); once the peer future has completed
at the end of the stream they are all of them; and, as long as no read of the socket fails,
polling the task's `Lines` on, under any schedule of reads and would-blocks, reaches the end of
the stream within `measure + 1` polls, having yielded exactly the lines not heard yet.  So the
items `Lines::poll` yields over the life of a connection are the lines of the stream, each
once and in order, and then one end of the stream. -/
theorem inbound_lines [DecidableEq Addr] {s : Sys Addr} (hs : s.Reachable) {j : Nat}
    {A : Agent Addr} (hA : s.agents j = some A) :
    (∀ x ∈ (splitLines A.lines.stream).1, ¬ HasCrlf x) ∧
    (A.name = none → A.said = []) ∧
    A.name.toList ++ A.said <+: (splitLines A.lines.stream).1 ∧
    (A.phase = .finished .ready → A.name.toList ++ A.said = (splitLines A.lines.stream).1) ∧
    (.error ∉ A.lines.socket.incoming → ∀ n, A.lines.measure < n →
      ∃ rest, A.lines.collect n = some rest ∧
        A.name.toList ++ A.said ++ Agent.inFlight A.phase ++ rest =
          (splitLines A.lines.stream).1) := by
  have h := hs.inbound hA
  refine ⟨(splitLines_spec _).2.1, fun hn => (h.unnamed hn).1, ?_, fun hp => ?_,
    fun he n hn => ⟨_, Lines.collect_eq_splitLines he hn, by rw [h.lines, Agent.heard]⟩⟩
  · rw [h.lines, Agent.heard, List.append_assoc]
    exact List.prefix_append _ _
  · rw [h.lines, h.ended hp, Agent.heard, hp]
    simp [Agent.inFlight]

/-- `p` has read its name; its line `hi` is still to come. -/
def relayNamed : Sys Nat :=
  ((cProcess (goProcess Sys.init 8 relayQ) 7 relayP).run ([1].map .run)).get (by decide)

theorem Sys.Reachable.relayNamed : relayNamed.Reachable :=
  (Reachable.relayStart 8).run_tasks (Option.some_get _).symm

/-- `p` in `relayNamed`. -/
def relayNamedP : Agent Nat := (relayNamed.agents 1).get (by decide)

/-- In `relayNamed`, `p` has heard its name, and polling its `Lines` on yields `hi` and then
the end of the stream. -/
theorem inbound_lines_relayNamed :
    relayNamed.Reachable ∧ relayNamed.agents 1 = some relayNamedP ∧
      relayNamedP.lines.collect (relayNamedP.lines.measure + 1) = some [[104, 105]] ∧
      ((∀ x ∈ (splitLines relayNamedP.lines.stream).1, ¬ HasCrlf x) ∧
      (relayNamedP.name = none → relayNamedP.said = []) ∧
      relayNamedP.name.toList ++ relayNamedP.said <+: (splitLines relayNamedP.lines.stream).1 ∧
      (relayNamedP.phase = .finished .ready →
        relayNamedP.name.toList ++ relayNamedP.said = (splitLines relayNamedP.lines.stream).1) ∧
      (.error ∉ relayNamedP.lines.socket.incoming → ∀ n, relayNamedP.lines.measure < n →
        ∃ rest, relayNamedP.lines.collect n = some rest ∧
          relayNamedP.name.toList ++ relayNamedP.said ++ Agent.inFlight relayNamedP.phase ++
            rest = (splitLines relayNamedP.lines.stream).1)) :=
  ⟨.relayNamed, by decide, by decide, inbound_lines .relayNamed (j := 1) (by decide)⟩

end DoubleServer
