import DoubleServer.Registry

/-!
# Wake-ups

A future of futures 0.1 may return `NotReady` only once something will wake its task again:
an inner future that returned `NotReady` has registered the task, or the task has notified
itself.  The comment at the end of `CPeer::poll` claims this contract.  `Agent.tick` records
what the current call of `poll` has done, and `Agent.TickOk` says what that record is
wherever the task stands inside the call.  It holds of every task of every reachable state
(`Sys.Reachable.tickOk`); the registry is what rules out `Ready(None)` from the channel,
since a task's own map keeps a transmit half of its channel while the task is registered.
At a return of `NotReady` it gives `poll_not_ready_wakes`.

One call of `poll` is the run of a task from `Pc.idle` back to `Pc.idle`: `Agent.begin`
empties the record.
-/

namespace DoubleServer

variable {Addr : Type}

/-- The channel polls of one call of `poll`: `k` messages and then `NotReady`, or
`LINES_PER_TICK` messages and a self-notification. -/
def Drained (evs : List Event) : Prop :=
  ∃ k ≤ linesPerTick, evs = List.replicate k (.rx .message) ++
    [if k < linesPerTick then .rx .notReady else .notify]

/-- Calls of `Lines::poll`, each of which yielded a line. -/
def ReadLines (evs : List Event) : Prop := ∀ e ∈ evs, ∃ f x, e = .lines f (.ready (some x))

theorem ReadLines.nil : ReadLines [] := nofun

theorem ReadLines.snoc {evs : List Event} (h : ReadLines evs) (f : Poll Unit) (x : Bytes) :
    ReadLines (evs ++ [.lines f (.ready (some x))]) := by
  intro e he
  rcases List.mem_append.1 he with he | he
  · exact h e he
  · exact ⟨f, x, List.mem_singleton.1 he⟩

namespace Agent

/-- What the current call of `poll` has done so far, wherever the task stands in it. -/
def TickOk (A : Agent Addr) : Prop :=
  match A.phase with
  | .naming | .joining => A.tick = []
  | .active .idle =>
    A.tick = [] ∨ ∃ d r, A.tick = d ++ r ++ [.lines .notReady .notReady] ∧ Drained d ∧ ReadLines r
  | .active (.drain k) => A.tick = List.replicate k (.rx .message)
  | .active .flush => Drained A.tick
  | .active .read | .active (.lock _) | .active (.fanOut _ _) =>
    ∃ d r, A.tick = d ++ r ∧ Drained d ∧ ReadLines r
  | .finished _ | .dropped | .gone | .panicked _ => True

theorem tickOk_fresh (side : Side) (addr : Addr) (socket : TcpStream) :
    ({ side, addr, lines := Lines.new socket } : Agent Addr).TickOk := rfl

theorem tickOk_begin (A : Agent Addr) : A.begin.TickOk := rfl

theorem TickOk.push {A : Agent Addr} (h : A.TickOk) (m : Msg) : (A.push m).TickOk := h

section Steps

variable {A : Agent Addr} (h : A.TickOk)
include h

theorem TickOk.intoFuture (hp : A.phase = .naming) : A.intoFuture.TickOk := by
  have ht : A.tick = [] := by simpa [TickOk, hp] using h
  rcases hr : (A.lines.poll).1 with (_ | x) | _ | _ <;> simp [TickOk, Agent.intoFuture, hr, ht, hp]

theorem TickOk.join (hp : A.phase = .joining) : A.join.TickOk :=
  .inl (by simpa [TickOk, hp] using h)

/-- With a sender left, the channel never says it is closed. -/
theorem TickOk.drainStep {k : Fin linesPerTick} (hp : A.phase = .active (.drain k)) :
    (A.drainStep k true).TickOk := by
  have ht : A.tick = List.replicate k (.rx .message) := by simpa [TickOk, hp] using h
  have hk := k.2
  unfold Agent.drainStep
  split
  · split
    · simp [TickOk, ht, List.replicate_succ']
    · refine ⟨linesPerTick, le_rfl, ?_⟩
      have h9 : k.val = 9 := by simp only [linesPerTick] at *; omega
      simp [ht, h9, linesPerTick, List.replicate_succ']
  · exact ⟨k, hk.le, by simp [ht, hk]⟩

theorem TickOk.flushStep (hp : A.phase = .active .flush) : A.flushStep.TickOk := by
  have hd : Drained A.tick := by simpa [TickOk, hp] using h
  rcases hr : (A.lines.pollFlush).1 with _ | (_ | _ | _) <;>
    simp only [TickOk, Agent.flushStep, hr] <;> exact ⟨A.tick, [], by simp, hd, .nil⟩

theorem TickOk.readStep (hp : A.phase = .active .read) : A.readStep.TickOk := by
  obtain ⟨d, r, ht, hd, hr⟩ : ∃ d r, A.tick = d ++ r ∧ Drained d ∧ ReadLines r := by
    simpa [TickOk, hp] using h
  rcases hx : (A.lines.poll).1 with (_ | x) | _ | _ <;> simp only [TickOk, Agent.readStep, hx]
  · exact ⟨d, r ++ [.lines (A.lines.fillReadBuf).1 (.ready (some x))], by simp [ht, hx], hd,
      hr.snoc _ x⟩
  · exact .inr ⟨d, r, by simp [ht, hx, Lines.poll_notReady hx], hd, hr⟩

theorem TickOk.lockStep {m : Bytes} (hp : A.phase = .active (.lock m)) (q : List (Addr × Nat)) :
    (A.lockStep m q).TickOk := by
  simpa [TickOk, hp] using h

theorem TickOk.visit {m : Bytes} {q : List (Addr × Nat)} (hp : A.phase = .active (.fanOut m q))
    (rest : List (Addr × Nat)) : (A.visit m rest).TickOk := by
  simpa [TickOk, hp] using h

theorem TickOk.release {m : Bytes} {q : List (Addr × Nat)} (hp : A.phase = .active (.fanOut m q)) :
    (A.release m).TickOk := by
  simpa [TickOk, hp] using h

end Steps

end Agent

variable [DecidableEq Addr]

/-- A registered task's own map holds a transmit half of its channel. -/
theorem Sys.Registry.senders {s : Sys Addr} (hr : s.Registry) {i : Nat} {A : Agent Addr}
    (hA : s.agents i = some A) (hreg : A.phase.Registered) : s.senders i = true := by
  have hl : (s.state A.side).peers.lookup A.addr = some i := (hr.peers _ _ _).2 ⟨A, hA, rfl, rfl, hreg⟩
  have hholds : (s.state A.side).holds i = true :=
    List.any_eq_true.2 ⟨_, AList.mem_lookup_iff.1 hl, by simp⟩
  cases hs : A.side <;> simp_all [Sys.senders, Sys.state]

/-- Every step of a task keeps its record of the current call. -/
theorem Agent.TickOk.move {s s' : Sys Addr} (hr : s.Registry) {i : Nat} {A : Agent Addr}
    (hA : s.agents i = some A) (h : A.TickOk) (hm : Move s i A s') {A' : Agent Addr}
    (hA' : s'.agents i = some A') : A'.TickOk := by
  have own : ∀ {s₀ : Sys Addr} {f : Agent Addr → Agent Addr} {A'}, s₀.agents = s.agents →
      (s₀.modify i f).agents i = some A' → (f A).TickOk → A'.TickOk := fun hag hA' hf => by
    simp only [Sys.modify_agents_self, hag, hA, Option.map_some', Option.some.injEq] at hA'
    exact hA' ▸ hf
  cases hm with
  | intoFuture hp => exact own rfl hA' (h.intoFuture hp)
  | new hp => exact own (by simp) hA' (h.join hp)
  | begin => exact own rfl hA' (Agent.tickOk_begin A)
  | drain hp => exact own rfl hA' (hr.senders hA (by simp [hp]) ▸ h.drainStep hp)
  | flush hp => exact own rfl hA' (h.flushStep hp)
  | read hp => exact own rfl hA' (h.readStep hp)
  | lock hp => exact own (by simp) hA' (h.lockStep hp _)
  | skip hp => exact own rfl hA' (h.visit hp _)
  | release hp => exact own (by simp) hA' (h.release hp)
  | abort => exact own rfl hA' trivial
  | drop => exact own (by simp) hA' trivial
  | free => exact own rfl hA' trivial
  | @send m a t rest B hp =>
    by_cases ht : i = t
    · subst ht
      simp only [Sys.modify_agents_self, hA, Option.map_some', Option.some.injEq] at hA'
      exact hA' ▸ (h.visit hp rest).push _
    · exact own rfl (by simpa [ht] using hA') (h.visit hp rest)

/-- The record of every task of every reachable state is as `TickOk` says. -/
theorem Sys.Reachable.tickOk {s : Sys Addr} (hs : s.Reachable) {j : Nat} {A : Agent Addr}
    (hA : s.agents j = some A) : A.TickOk := by
  refine hs.invariant (I := fun s => ∀ j A, s.agents j = some A → A.TickOk)
    (fun _ _ h => by cases h) ?_ ?_ j A hA
  · intro s side addr ins outs _ h _ j A hA
    rcases spawn_agents_some _ _ _ _ hA with ⟨-, rfl⟩ | ⟨-, hA⟩
    exacts [Agent.tickOk_fresh _ _ _, h _ _ hA]
  · intro s s' i A₀ hs₀ h hA₀ hm j A hA
    by_cases hj : j = i
    · subst hj
      exact (h _ _ hA₀).move hs₀.registry hA₀ hm hA
    · obtain ⟨B, hB, rfl | ⟨m, rfl⟩⟩ := hm.other hj hA
      exacts [h _ _ hB, (h _ _ hB).push m]

/-- Whenever a task's `poll` has returned `Ok(NotReady)` (the task is back at `Pc.idle` with a
record), during that call the channel returned `k` messages and then `NotReady`, or
`LINES_PER_TICK` messages after which the task notified itself, and never `Ready(None)`;
every later call of `Lines::poll` yielded a line, except the last, which returned `NotReady`
after `fill_read_buf`'s read would block. -/
theorem poll_not_ready_wakes {s : Sys Addr} (hs : s.Reachable) {j : Nat} {A : Agent Addr}
    (hA : s.agents j = some A) (hp : A.phase = .active .idle) (ht : A.tick ≠ []) :
    ∃ k r, k ≤ linesPerTick ∧
      A.tick = List.replicate k (.rx .message) ++
        [if k < linesPerTick then .rx .notReady else .notify] ++ r ++
          [.lines .notReady .notReady] ∧
      ∀ e ∈ r, ∃ f x, e = .lines f (.ready (some x)) := by
  have h := hs.tickOk hA
  simp only [Agent.TickOk, hp] at h
  obtain ⟨d, r, hd, ⟨k, hk, rfl⟩, hr⟩ := h.resolve_left ht
  exact ⟨k, r, hk, hd, hr⟩

/-! ## Ten messages and a notify

`q` of the relay run at address 8, and a client of the c listener that sends its name and then
eleven lines in one read. -/

/-- A client that sends its name, and then eleven lines in one read. -/
def chatty : TcpStream :=
  { incoming := [.data 110 [13, 10], .wouldBlock,
      .data 97 ([13, 10] ++ (List.replicate 10 [97, 13, 10]).flatten)] ++
      List.replicate 12 .wouldBlock,
    outgoing := [] }

/-- `q` at address 8, and a client of the other listener that sends its name and then eleven
lines in one read. -/
theorem Sys.Reachable.floodStart :
    (cProcess (goProcess (Sys.init : Sys Nat) 8 relayQ) 7 chatty).Reachable := by
  refine .step (a := .accept .c 7 chatty.incoming chatty.outgoing)
    (.step (a := .accept .go 8 relayQ.incoming relayQ.outgoing) .init (fun _ _ h => by cases h) rfl)
    (fun j B hB hside _ => ?_) rfl
  rcases spawn_agents_some _ _ _ _ hB with ⟨-, rfl⟩ | ⟨-, h⟩
  · cases hside
  · cases h

/-- Both tasks named and registered, and the second one's first call over: it has broadcast its
eleven lines to `q`, which waits for the executor with all eleven queued. -/
def flooded : Sys Nat :=
  ((cProcess (goProcess Sys.init 8 relayQ) 7 chatty).run
    (([0, 0, 1, 1] ++ List.replicate 48 1).map .run)).get (by decide)

theorem Sys.Reachable.flooded : flooded.Reachable :=
  Reachable.floodStart.run_tasks (Option.some_get _).symm

/-- `q` in `flooded`. -/
def floodedQ : Agent Nat := (flooded.agents 0).get (by decide)

/-- `q`'s next call in `flooded`: it takes ten messages, notifies itself, and returns when its
socket would block. -/
def floodedTicked : Sys Nat := (flooded.run ((List.replicate 13 0).map .run)).get (by decide)

theorem Sys.Reachable.floodedTicked : floodedTicked.Reachable :=
  Reachable.flooded.run_tasks (Option.some_get _).symm

/-- `q` in `floodedTicked`. -/
def floodedTickedQ : Agent Nat := (floodedTicked.agents 0).get (by decide)

/-- Both ways a call returns `NotReady`.  In `relayed`, `p`'s last call found its channel empty,
read `hi`, and stopped when the socket would block.  In `floodedTicked`, `q`'s call took ten
of its eleven messages, stopped draining at the budget, and notified itself. -/
theorem poll_not_ready_wakes_relayed_flooded :
    (relayed.Reachable ∧ relayed.agents 1 = some relayedP ∧ relayedP.phase = .active .idle ∧
      relayedP.tick ≠ [] ∧
      ∃ k r, k ≤ linesPerTick ∧
        relayedP.tick = List.replicate k (.rx .message) ++
          [if k < linesPerTick then .rx .notReady else .notify] ++ r ++
            [.lines .notReady .notReady] ∧
        ∀ e ∈ r, ∃ f x, e = .lines f (.ready (some x))) ∧
    (floodedTicked.Reachable ∧ floodedTicked.agents 0 = some floodedTickedQ ∧
      floodedTickedQ.phase = .active .idle ∧ floodedTickedQ.tick ≠ [] ∧
      floodedTickedQ.tick = List.replicate linesPerTick (.rx .message) ++
        [.notify, .lines .notReady .notReady] ∧
      ∃ k r, k ≤ linesPerTick ∧
        floodedTickedQ.tick = List.replicate k (.rx .message) ++
          [if k < linesPerTick then .rx .notReady else .notify] ++ r ++
            [.lines .notReady .notReady] ∧
        ∀ e ∈ r, ∃ f x, e = .lines f (.ready (some x))) :=
  ⟨⟨.relayed, by decide, by decide, by decide,
      poll_not_ready_wakes .relayed (j := 1) (by decide) (by decide) (by decide)⟩,
    ⟨.floodedTicked, by decide, by decide, by decide, by decide,
      poll_not_ready_wakes .floodedTicked (j := 0) (by decide) (by decide) (by decide)⟩⟩

end DoubleServer
