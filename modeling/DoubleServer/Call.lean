import DoubleServer.Delivery
import DoubleServer.History
import DoubleServer.Tick

/-!
# One call of `poll`

`Sys.call` runs one call of a task's `poll` with no other task scheduled in between.  The comment
at the top of `CPeer::poll` says that a call reads at most `LINES_PER_TICK` lines from the client;
only the loop over the channel is bounded so.  The loop over the lines runs while `Lines::poll`
has a line to give, and `call_broadcasts_buffer` shows that a call that has reached it broadcasts
every complete line of the read buffer before it can return, however many there are: each line
costs a lock of the other map, a visit of each of its entries and the release.
`call_broadcasts_eleven` is a call that broadcasts eleven.  What bounds the loop is the input:
`call_returns` shows that every call returns, within a number of steps linear in what the task
has still to read.
-/

namespace DoubleServer

variable {Addr : Type} [DecidableEq Addr]

/-- A call of `poll` has returned: the task is back at `Pc.idle`, or its future is polled no
more. -/
def Agent.Returned (A : Agent Addr) : Prop := A.phase = .active .idle ∨ ∀ pc, A.phase ≠ .active pc

namespace Agent

omit [DecidableEq Addr]

/-- What an iteration of the loop over the channel does: it takes the next message and goes on,
or it ends at the flush, having taken the last message it may or found the channel empty. -/
theorem drainStep_cases (A : Agent Addr) (k : Fin linesPerTick) (b : Bool) :
    (A.drainStep k b).inbox = A.inbox ∧
      ((∃ k' : Fin linesPerTick, k'.val = k.val + 1 ∧ A.queue ≠ [] ∧
          (A.drainStep k b).phase = .active (.drain k') ∧ (A.drainStep k b).taken = A.taken + 1) ∨
        (A.drainStep k b).phase = .active .flush ∧
          (A.drainStep k b).taken = A.taken + min (linesPerTick - k.val) A.queue.length) := by
  have hk := k.isLt
  unfold drainStep
  split
  · rename_i hq
    split
    · exact ⟨rfl, .inl ⟨_, rfl, by simp [hq], rfl, rfl⟩⟩
    · refine ⟨rfl, .inr ⟨rfl, ?_⟩⟩
      simp only [hq, List.length_cons]
      omega
  · rename_i hq
    simp [hq]

theorem drainStep_socket (A : Agent Addr) (k : Fin linesPerTick) (b : Bool) :
    (A.drainStep k b).lines.socket = A.lines.socket := by
  unfold drainStep
  split <;> (try split) <;> rfl

theorem queue_length (A : Agent Addr) : A.queue.length = A.inbox.length - A.taken :=
  List.length_drop _ _

/-- Buffering a message for the socket leaves what is left to read. -/
theorem drainStep_measure (A : Agent Addr) (k : Fin linesPerTick) (b : Bool) :
    (A.drainStep k b).lines.measure = A.lines.measure := by
  unfold drainStep
  split
  · split <;> simp [Lines.measure, Lines.pending]
  · rfl

/-- The flush goes on to the read loop, or completes the future. -/
theorem flushStep_phase (A : Agent Addr) :
    A.flushStep.phase = .active .read ∨ ∃ x, A.flushStep.phase = .finished x := by
  simp only [flushStep]
  split <;> simp

theorem flushStep_measure (A : Agent Addr) : A.flushStep.lines.measure = A.lines.measure := by
  simp [flushStep, Lines.measure, Lines.pending]

/-- How a call of `poll` has ended: with `Ok(NotReady)`, which takes a read of the socket that
would block (one of `ins`), or with the future completed. -/
def Ended (A : Agent Addr) (ins : List Incoming) : Prop :=
  A.phase = .active .idle ∧ .wouldBlock ∈ ins ∨ ∃ x, A.phase = .finished x

theorem Ended.returned {A : Agent Addr} {ins : List Incoming} (h : A.Ended ins) :
    A.Returned :=
  h.imp And.left fun ⟨_, hx⟩ _ hpc => by rw [hx] at hpc; cases hpc

theorem Ended.mono {A : Agent Addr} {ins ins' : List Incoming} (h : A.Ended ins)
    (hs : ins <:+ ins') : A.Ended ins' :=
  h.imp_left fun ⟨hp, hb⟩ => ⟨hp, hs.subset hb⟩

/-- A test of the read loop that finds no line ends the call. -/
theorem readStep_ended {A : Agent Addr} (hx : ∀ x, (A.lines.poll).1 ≠ .ready (some x)) :
    A.readStep.Ended A.lines.socket.incoming := by
  rcases h : (A.lines.poll).1 with (_ | x) | _ | _
  · exact .inr ⟨.ready, by simp [Agent.readStep, h]⟩
  · exact absurd h (hx x)
  · obtain ⟨pre, hpre, -⟩ := Lines.readLoop_notReady (Lines.poll_notReady h)
    refine .inl ⟨by simp [Agent.readStep, h], ?_⟩
    rw [hpre]
    simp
  · exact .inr ⟨.err, by simp [Agent.readStep, h]⟩

end Agent

namespace Sys

/-- A step of task `i` that leaves it inside `poll`, away from `Pc.idle`, belongs to the same
call. -/
theorem call_succ {s s₁ : Sys Addr} {i : Nat} (h : s.step (.run i) = some s₁) {A₁ : Agent Addr}
    (hA₁ : s₁.agents i = some A₁) {pc : Pc Addr} (hp : A₁.phase = .active pc) (hpc : pc ≠ .idle)
    (fuel : Nat) : s.call i (fuel + 1) = s₁.call i fuel := by
  simp only [call, h, Option.some_bind, hA₁, Option.map_some', hp]

/-- A step of task `i` after which the call has returned ends the call. -/
theorem call_stop {s s₁ : Sys Addr} {i : Nat} (h : s.step (.run i) = some s₁) {A₁ : Agent Addr}
    (hA₁ : s₁.agents i = some A₁) (hr : A₁.Returned) (fuel : Nat) :
    s.call i (fuel + 1) = some s₁ := by
  simp only [call, h, Option.some_bind, hA₁, Option.map_some']
  rcases hr with hp | hp
  · rw [hp]
  · split <;> simp_all

/-- A call that returns within `n` steps returns, the same, within more. -/
theorem call_add {s s' : Sys Addr} {i n : Nat} (h : s.call i n = some s') (k : Nat) :
    s.call i (n + k) = some s' := by
  induction n generalizing s with
  | zero => simp [call] at h
  | succ n ih =>
    rw [Nat.add_right_comm]
    cases h₁ : s.step (.run i) with
    | none => simp [call, h₁] at h
    | some s₁ =>
      simp only [call, h₁, Option.some_bind] at h ⊢
      split at h
      · exact h
      · exact ih h
      · exact h

section Stage

omit [DecidableEq Addr]

/-- Task `k`'s listener and phase: what decides which step it can take next. -/
def stage (s : Sys Addr) (k : Nat) : Option (Side × Phase Addr) :=
  (s.agents k).map fun B => (B.side, B.phase)

@[simp] theorem stage_update (s : Sys Addr) (side : Side) (g : Shared Addr → Shared Addr)
    (k : Nat) : (s.update side g).stage k = s.stage k := by
  simp [stage]

@[simp] theorem stage_modify_of_ne (s : Sys Addr) {i k : Nat} (f : Agent Addr → Agent Addr)
    (h : k ≠ i) : (s.modify i f).stage k = s.stage k := by
  simp [stage, h]

/-- A message sent on a channel changes no task's stage. -/
@[simp] theorem stage_push (s : Sys Addr) (t : Nat) (msg : Msg) (k : Nat) :
    (s.modify t (·.push msg)).stage k = s.stage k := by
  by_cases h : k = t
  · subst h; simp [stage, Option.map_map, Function.comp_def]
  · exact stage_modify_of_ne _ _ h

end Stage

/-- A step of task `i` changes no other task's stage. -/
theorem step_run_stage {s s' : Sys Addr} {i k : Nat} (h : s.step (.run i) = some s')
    (hk : k ≠ i) : s'.stage k = s.stage k := by
  obtain ⟨A, -, hm⟩ := step_run_move h
  cases hm <;> simp [hk]

section Steps

variable {s : Sys Addr} {i : Nat} {A : Agent Addr} (hA : s.agents i = some A)
include hA

/-- A step of task `i` that changes the task alone. -/
theorem step_modify {f : Agent Addr → Agent Addr} (h : s.step (.run i) = some (s.modify i f)) :
    ∃ s₁, s.step (.run i) = some s₁ ∧ s₁.agents i = some (f A) ∧
      ∀ side, s₁.state side = s.state side :=
  ⟨_, h, by simp [hA], by simp⟩

/-- `while let Async::Ready(line) = self.lines.poll()?` tests once. -/
theorem step_read (hp : A.phase = .active .read) :
    ∃ s₁, s.step (.run i) = some s₁ ∧ s₁.agents i = some A.readStep ∧
      ∀ side, s₁.state side = s.state side :=
  step_modify hA (by simp [step_run hA, Peer.step, hp, Peer.poll])

/-- The lock of the other map is taken, when it is free. -/
theorem step_lock {m : Bytes} (hp : A.phase = .active (.lock m))
    (hh : (s.state A.side.swap).holder = none) :
    ∃ s₁, s.step (.run i) = some s₁ ∧
      s₁.agents i = some (A.lockStep m (s.state A.side.swap).entries) ∧
      (s₁.state A.side.swap).entries = (s.state A.side.swap).entries ∧
      s₁.state A.side = s.state A.side := by
  rw [step_run hA]
  exact ⟨(s.update A.side.swap fun st =>
      { st with holder := some i, fanned := st.fanned ++ [(i, A.said.length)] }).modify i
      (·.lockStep m (s.state A.side.swap).entries), by simp [Peer.step, hp, Peer.poll, hh],
    by simp [hA],
    by rw [modify_state]; exact update_entries _ (by intro; rfl) _,
    by rw [modify_state, update_state_of_ne _ _ (Side.ne_swap _)]⟩

/-- The loop over the map is over, and the lock released. -/
theorem step_release {m : Bytes} (hp : A.phase = .active (.fanOut m [])) :
    ∃ s₁, s.step (.run i) = some s₁ ∧ s₁.agents i = some (A.release m) ∧
      (s₁.state A.side.swap).holder = none ∧
      (s₁.state A.side.swap).entries = (s.state A.side.swap).entries ∧
      (∀ k ≠ i, s₁.stage k = s.stage k) ∧ s₁.state A.side = s.state A.side := by
  rw [step_run hA]
  exact ⟨(s.update A.side.swap fun st => { st with holder := none }).modify i (·.release m),
    by simp [Peer.step, hp, Peer.poll], by simp [hA], by simp,
    by rw [modify_state]; exact update_entries _ (by intro; rfl) _, fun k hk => by simp [hk],
    by rw [modify_state, update_state_of_ne _ _ (Side.ne_swap _)]⟩

end Steps

/-- One entry of the map visited: its task is sent the line, or it is passed over. -/
theorem Reachable.step_visit {s : Sys Addr} (hs : s.Reachable) {i : Nat} {A : Agent Addr}
    (hA : s.agents i = some A) {m : Bytes} {a : Addr} {t : Nat} {rest : List (Addr × Nat)}
    (hp : A.phase = .active (.fanOut m ((a, t) :: rest))) :
    ∃ s₁, s.step (.run i) = some s₁ ∧ s₁.agents i = some (A.visit m rest) ∧
      (∀ side, s₁.state side = s.state side) ∧ ∀ k ≠ i, s₁.stage k = s.stage k := by
  rw [step_run hA]
  simp only [Peer.step, hp, Peer.poll]
  split
  · exact ⟨_, rfl, by simp [hA], by simp, fun k hk => by simp [hk]⟩
  · obtain ⟨B, hB, hrx⟩ := hs.registry.send_ok hA hp
    simp only [hB, hrx, if_true]
    exact ⟨_, rfl, by simp [Ne.symm (hs.registry.pending_ne hA hp), hA], by simp,
      fun k hk => by simp [hk]⟩

/-- The loop `for (addr, tx) in &peers` runs to its end within the call; the other tasks are
at most sent the line. -/
theorem Reachable.call_visits {s : Sys Addr} (hs : s.Reachable) {i : Nat} {A : Agent Addr}
    (hA : s.agents i = some A) {m : Bytes} {q : List (Addr × Nat)}
    (hp : A.phase = .active (.fanOut m q)) :
    ∃ s' : Sys Addr, (∀ fuel, s.call i (q.length + fuel) = s'.call i fuel) ∧ s'.Reachable ∧
      s'.agents i = some (A.visit m []) ∧ (∀ side, s'.state side = s.state side) ∧
      ∀ k ≠ i, s'.stage k = s.stage k := by
  induction q generalizing s A with
  | nil =>
    have hA' : A.visit m [] = A := by cases A; simp_all [Agent.visit]
    exact ⟨s, fun _ => by simp, hs, hA' ▸ hA, fun _ => rfl, fun _ _ => rfl⟩
  | cons e rest ih =>
    obtain ⟨a, t⟩ := e
    obtain ⟨s₁, h₁, hA₁, hst₁, hk₁⟩ := hs.step_visit hA hp
    obtain ⟨s', hcall, hs', hA', hst', hk'⟩ := ih (hs.step (a := .run i) trivial h₁) hA₁ rfl
    refine ⟨s', fun fuel => ?_, hs', hA', fun side => (hst' side).trans (hst₁ side),
      fun k hk => (hk' k hk).trans (hk₁ k hk)⟩
    rw [List.length_cons, Nat.add_right_comm, call_succ h₁ hA₁ rfl nofun, hcall]

/-- One turn of the read loop, for a line that `Lines::poll` yields: the lock of the other map
is taken, every entry visited, the lock released, and the line counted as broadcast;
`|entries| + 3` steps of the same call.  Every task of the map, but one under the task's own
address, has then been sent the line, and no other task has moved. -/
theorem Reachable.call_line {s : Sys Addr} (hs : s.Reachable) {i : Nat} {A : Agent Addr}
    (hA : s.agents i = some A) (hp : A.phase = .active .read)
    (hh : (s.state A.side.swap).holder = none) {x : Bytes}
    (hpoll : (A.lines.poll).1 = .ready (some x)) :
    ∃ (s' : Sys Addr) (A' : Agent Addr),
      (∀ fuel, s.call i ((s.state A.side.swap).entries.length + 3 + fuel) = s'.call i fuel) ∧
      s'.Reachable ∧ s'.agents i = some A' ∧ A'.phase = .active .read ∧
      A'.side = A.side ∧ A'.said = A.said ++ [x] ∧ (s'.state A.side.swap).holder = none ∧
      (s'.state A.side.swap).entries = (s.state A.side.swap).entries ∧
      A'.lines = (A.lines.poll).2 ∧ A'.inbox = A.inbox ∧ A'.taken = A.taken ∧
      s'.state A.side = s.state A.side ∧ (∀ k ≠ i, s'.stage k = s.stage k) ∧
      ∀ a t, (s.state A.side.swap).peers.lookup a = some t → a ≠ A.addr →
        ∃ Q, s'.agents t = some Q ∧ ⟨A.line x, (i, A.said.length)⟩ ∈ Q.inbox := by
  obtain ⟨s₁, h₁, hA₁, hst₁⟩ := step_read hA hp
  have hp₁ : A.readStep.phase = .active (.lock x) := by simp [Agent.readStep, hpoll]
  obtain ⟨s₂, h₂, hA₂, he₂, ho₂⟩ := step_lock hA₁ hp₁ (by rw [hst₁]; exact hh)
  have hE : (s₁.state A.readStep.side.swap).entries = (s.state A.side.swap).entries := by
    rw [hst₁]; rfl
  rw [hE] at hA₂ he₂
  have hs₂ := (hs.step (a := .run i) trivial h₁).step (a := .run i) trivial h₂
  obtain ⟨s₃, hc₃, hs₃, hA₃, hst₃, hk₃⟩ := hs₂.call_visits hA₂ rfl
  obtain ⟨s₄, h₄, hA₄, hh₄, he₄, hk₄, ho₄⟩ := step_release hA₃ rfl
  refine ⟨s₄, _, fun fuel => ?_, hs₃.step (a := .run i) trivial h₄, hA₄, rfl, rfl, rfl, hh₄,
    (he₄.trans (congrArg Shared.entries (hst₃ _))).trans he₂, rfl, rfl, rfl,
    (ho₄.trans (hst₃ _)).trans (ho₂.trans (hst₁ _)), fun k hk => ?_, fun a t ht ha => ?_⟩
  · rw [show (s.state A.side.swap).entries.length + 3 + fuel =
        (s.state A.side.swap).entries.length + (fuel + 1) + 1 + 1 by omega,
      call_succ h₁ hA₁ hp₁ nofun, call_succ h₂ hA₂ rfl nofun, hc₃]
    exact call_succ h₄ hA₄ rfl nofun fuel
  · rw [hk₄ k hk, hk₃ k hk, step_run_stage h₂ hk, step_run_stage h₁ hk]
  · -- the broadcast visited the entry `(a, t)` before the release
    obtain ⟨v, hv, hd⟩ := hs₃.delivers hA₃ rfl
    have hmem : (a, t) ∈ v := by
      rw [← List.append_nil v, ← hv, hst₃]
      exact (he₂ ▸ Shared.mem_entries.2 ht : (a, t) ∈ (s₂.state A.readStep.side.swap).entries)
    obtain ⟨Q₃, hQ₃, hf⟩ := hd _ hmem ha
    obtain ⟨Q, hQ, hx⟩ := (hs₃.step_extends h₄).agents hQ₃
    exact ⟨Q, hQ, hx.inbox.subset (List.mem_of_mem_filter (hf ▸ List.mem_singleton_self _))⟩

/-- The read loop returns: from it, with the other listener's map unlocked, the call ends within
`m * (|entries| + 3) + 1` steps, where `m` bounds what is left to read, with `NotReady` only after
a read that would block; it takes nothing from the channel, leaves the task's own map and the
other map's lock free. -/
theorem Reachable.call_read_returns {s : Sys Addr} (hs : s.Reachable) {i : Nat} {A : Agent Addr}
    (hA : s.agents i = some A) (hp : A.phase = .active .read)
    (hh : (s.state A.side.swap).holder = none) :
    ∃ (s' : Sys Addr) (A' : Agent Addr), s.call i
        (A.lines.measure * ((s.state A.side.swap).entries.length + 3) + 1) = some s' ∧
      s'.agents i = some A' ∧ A'.Ended A.lines.socket.incoming ∧ A'.inbox = A.inbox ∧
      A'.taken = A.taken ∧ s'.state A.side = s.state A.side ∧
      (s'.state A.side.swap).holder = none := by
  generalize hm : A.lines.measure = n
  induction n using Nat.strong_induction_on generalizing s A with
  | _ n ih =>
  obtain ⟨s₁, h₁, hA₁, hst₁⟩ := step_read hA hp
  rcases hr : (A.lines.poll).1 with (_ | x) | _ | _
  case ready.some =>
    obtain ⟨s₄, A₄, hc, hs₄, hA₄, hp₄, hside, -, hh₄, he₄, hl₄, hin₄, htk₄, ho₄, -⟩ :=
      hs.call_line hA hp hh hr
    have hlt : A₄.lines.measure < n := hm ▸ hl₄ ▸ Lines.poll_measure (by simp [hr]) (by simp [hr])
    obtain ⟨s', A', hc', hA', hend, hin', htk', ho', hh'⟩ :=
      ih _ hlt hs₄ hA₄ hp₄ (hside ▸ hh₄) rfl
    rw [hside, he₄] at hc'
    rw [hside] at ho' hh'
    obtain ⟨d, rfl⟩ : ∃ d, n = A₄.lines.measure + 1 + d := ⟨n - A₄.lines.measure - 1, by omega⟩
    refine ⟨s', A', ?_, hA', hend.mono (hl₄ ▸ Lines.poll_incoming_suffix A.lines),
      hin'.trans hin₄, htk'.trans htk₄, ho'.trans ho₄, hh'⟩
    rw [show (A₄.lines.measure + 1 + d) * ((s.state A.side.swap).entries.length + 3) + 1 =
        (s.state A.side.swap).entries.length + 3 + (A₄.lines.measure *
          ((s.state A.side.swap).entries.length + 3) + 1 +
          d * ((s.state A.side.swap).entries.length + 3)) by
        rw [Nat.add_mul, Nat.add_mul, Nat.one_mul]; omega, hc]
    exact call_add hc' _
  all_goals
    have hend := Agent.readStep_ended (A := A) (by simp [hr])
    exact ⟨s₁, _, call_stop h₁ hA₁ hend.returned _, hA₁, hend, rfl, rfl, hst₁ _, hst₁ _ ▸ hh⟩

/-- The loop over the channel ends within the call, after at most `LINES_PER_TICK - k` more
steps, at the flush, having taken the next `LINES_PER_TICK - k` messages of the channel, or all
if fewer; it changes no map and leaves what is left to read. -/
theorem Reachable.call_drain {s : Sys Addr} (hs : s.Reachable) {i : Nat} {A : Agent Addr}
    (hA : s.agents i = some A) {k : Fin linesPerTick} (hp : A.phase = .active (.drain k)) :
    ∃ j ≤ linesPerTick - k.val, ∃ (s' : Sys Addr) (A' : Agent Addr),
      (∀ fuel, s.call i (j + fuel) = s'.call i fuel) ∧ s'.Reachable ∧ s'.agents i = some A' ∧
      A'.phase = .active .flush ∧ A'.side = A.side ∧ A'.lines.measure = A.lines.measure ∧
      (∀ side, s'.state side = s.state side) ∧ A'.inbox = A.inbox ∧
      A'.taken = A.taken + min (linesPerTick - k.val) A.queue.length ∧
      A'.lines.socket = A.lines.socket := by
  generalize hn : linesPerTick - k.val = n
  induction n using Nat.strong_induction_on generalizing s A k with
  | _ n ih =>
  have hk := k.isLt
  obtain ⟨s₁, h₁, hA₁, hst₁⟩ := step_modify hA (f := (·.drainStep k (s.senders i)))
    (by simp [step_run hA, Peer.step, hp, Peer.poll])
  have hs₁ := hs.step (a := .run i) trivial h₁
  have hside := (Agent.Step.drain (s.senders i) hp).frame.1
  obtain ⟨hin₁, ⟨k', hk', hq, hd, htk₁⟩ | ⟨hf, htk₁⟩⟩ := Agent.drainStep_cases A k (s.senders i)
  · obtain ⟨j, hj, s', A', hc, hs', hA', hp', hside', hm, hst, hin', htk', hso'⟩ :=
      ih _ (by have := k'.isLt; omega) hs₁ hA₁ hd rfl
    have hlen₁ : (A.drainStep k (s.senders i)).queue.length = A.queue.length - 1 := by
      rw [Agent.queue_length, Agent.queue_length, hin₁, htk₁, Nat.sub_sub]
    have hpos : 1 ≤ min n A.queue.length :=
      le_min (hn ▸ Nat.sub_pos_of_lt hk) (List.length_pos.2 hq)
    refine ⟨j + 1, by have := k'.isLt; omega, s', A', fun fuel => by
        rw [Nat.add_right_comm, call_succ h₁ hA₁ hd nofun, hc],
      hs', hA', hp', hside'.trans hside, hm.trans (Agent.drainStep_measure ..),
      fun side => (hst side).trans (hst₁ side), hin'.trans hin₁, ?_,
      hso'.trans (Agent.drainStep_socket ..)⟩
    rw [htk', htk₁, hk', hlen₁, ← Nat.sub_sub, hn, Nat.sub_min_sub_right, Nat.add_assoc,
      Nat.add_sub_of_le hpos]
  · exact ⟨1, by omega, s₁, _, fun fuel => by rw [Nat.add_comm, call_succ h₁ hA₁ hf nofun], hs₁,
      hA₁, hf, hside, Agent.drainStep_measure .., hst₁, hin₁, hn ▸ htk₁,
      Agent.drainStep_socket ..⟩

end Sys

/-- From the read loop, with the other listener's map unlocked and a socket whose reads do not
fail, one call of `poll` broadcasts every complete line of the read buffer before it can
return: after `|entries| + 3` steps for each line, the same call is back at the read loop with
all of them broadcast.  However many lines the buffer holds, `LINES_PER_TICK` bounds none of
this. -/
theorem call_broadcasts_buffer {s : Sys Addr} (hs : s.Reachable) {i : Nat} {A : Agent Addr}
    (hA : s.agents i = some A) (hp : A.phase = .active .read)
    (hh : (s.state A.side.swap).holder = none) (he : .error ∉ A.lines.socket.incoming) :
    ∃ (s' : Sys Addr) (A' : Agent Addr), (∀ fuel, s.call i ((splitLines A.lines.rd).1.length *
        ((s.state A.side.swap).entries.length + 3) + fuel) = s'.call i fuel) ∧
      s'.agents i = some A' ∧ A'.phase = .active .read ∧
      A'.said = A.said ++ (splitLines A.lines.rd).1 := by
  obtain ⟨hspec, hlines, -⟩ := splitLines_spec A.lines.rd
  suffices key : ∀ (xs : List Bytes) (t : Bytes) {s : Sys Addr} {A : Agent Addr}, s.Reachable →
      s.agents i = some A → A.phase = .active .read → (s.state A.side.swap).holder = none →
      .error ∉ A.lines.socket.incoming → (∀ x ∈ xs, ¬ HasCrlf x) → A.lines.rd = framed xs ++ t →
      ∃ (s' : Sys Addr) (A' : Agent Addr), (∀ fuel,
        s.call i (xs.length * ((s.state A.side.swap).entries.length + 3) + fuel) =
        s'.call i fuel) ∧ s'.agents i = some A' ∧ A'.phase = .active .read ∧
        A'.said = A.said ++ xs from
    key _ _ hs hA hp hh he hlines hspec.symm
  intro xs
  induction xs with
  | nil => exact fun t s A _ hA hp _ _ _ _ => ⟨s, A, fun _ => by simp, hA, hp, by simp⟩
  | cons x xs ih =>
    intro t s A hs hA hp hh he hxs hrd
    simp only [List.mem_cons, forall_eq_or_imp] at hxs
    obtain ⟨hpoll, u, hu⟩ := Lines.poll_line hxs.1 (r := framed xs ++ t)
      (by rw [hrd, framed_cons]; simp) he
    obtain ⟨s₁, A₁, hc₁, hs₁, hA₁, hp₁, hside, hsaid, hh₁, he₁, hl₁, -⟩ :=
      hs.call_line hA hp hh hpoll
    have herr : .error ∉ A₁.lines.socket.incoming := fun hm =>
      he ((Lines.poll_incoming_suffix A.lines).subset (hl₁ ▸ hm))
    obtain ⟨s', A', hc, hA', hp', hsaid'⟩ := ih (t ++ u) hs₁ hA₁ hp₁ (hside ▸ hh₁) herr hxs.2
      (by rw [hl₁, hu, List.append_assoc])
    refine ⟨s', A', fun fuel => ?_, hA', hp', by rw [hsaid', hsaid]; simp⟩
    rw [List.length_cons, Nat.succ_mul, Nat.add_comm _ (_ + 3), Nat.add_assoc, hc₁, ← hc, hside,
      he₁]

/-! ## Eleven lines in one call -/

theorem Sys.Reachable.chattyStart : (cProcess (Sys.init : Sys Nat) 7 chatty).Reachable :=
  .step (a := .accept .c 7 chatty.incoming chatty.outgoing) .init (fun _ _ h => by cases h) rfl

/-- `chatty`'s task inside a call of `poll`, back at the read loop after its first line, with
the ten others in its read buffer. -/
def chattyReading : Sys Nat :=
  ((cProcess Sys.init 7 chatty).run ((List.replicate 8 0).map .run)).get (by decide)

theorem Sys.Reachable.chattyReading : chattyReading.Reachable :=
  Reachable.chattyStart.run_tasks (Option.some_get _).symm

/-- The task in `chattyReading`. -/
def chattyReader : Agent Nat := (chattyReading.agents 0).get (by decide)

/-- In `chattyReading` the rest of the call broadcasts the ten lines of the buffer. -/
theorem call_broadcasts_buffer_chattyReading :
    chattyReading.Reachable ∧ chattyReading.agents 0 = some chattyReader ∧
      chattyReader.phase = .active .read ∧
      (chattyReading.state chattyReader.side.swap).holder = none ∧
      .error ∉ chattyReader.lines.socket.incoming ∧
      (splitLines chattyReader.lines.rd).1.length = 10 ∧
      ∃ (s' : Sys Nat) (A' : Agent Nat), (∀ fuel, chattyReading.call 0
        ((splitLines chattyReader.lines.rd).1.length *
          ((chattyReading.state chattyReader.side.swap).entries.length + 3) + fuel) =
          s'.call 0 fuel) ∧
        s'.agents 0 = some A' ∧ A'.phase = .active .read ∧
        A'.said = chattyReader.said ++ (splitLines chattyReader.lines.rd).1 :=
  ⟨.chattyReading, by decide, by decide, by decide, by decide, by decide,
    call_broadcasts_buffer .chattyReading (by decide) (by decide) (by decide) (by decide)⟩

/-- `chatty`'s task, named and waiting for the executor, has broadcast nothing; its next call
of `poll` reads and broadcasts all eleven lines, more than `LINES_PER_TICK`, and then returns
`NotReady`. -/
theorem call_broadcasts_eleven :
    ∃ s, (cProcess (Sys.init : Sys Nat) 7 chatty).run [.run 0, .run 0] = some s ∧
      s.Reachable ∧ (s.agents 0).map (fun A => (A.phase, A.said.length)) = some (.active .idle, 0) ∧
      ((s.call 0 40).bind (·.agents 0)).map (fun A => (A.phase, A.said.length)) =
        some (.active .idle, 11) ∧ linesPerTick < 11 :=
  ⟨_, rfl, Sys.Reachable.chattyStart.run_tasks (l := [0, 0]) rfl, by decide, by decide, by decide⟩

/-! ## Every call returns

The read loop is unbounded by `LINES_PER_TICK`, but not unbounded: the input bounds it. -/

/-- A call of `poll` from `Pc.idle`, with the other listener's map unlocked, ends within
`LINES_PER_TICK + 3 + m * (|entries| + 3)` steps, where `m` bounds what the task has still to
read, with `NotReady` only after a read that would block; of its channel it has taken the first
`LINES_PER_TICK` messages, or all if fewer, and it leaves its own listener's map. -/
theorem Sys.Reachable.call_from_idle {s : Sys Addr} (hs : s.Reachable) {i : Nat}
    {A : Agent Addr} (hA : s.agents i = some A) (hp : A.phase = .active .idle)
    (hh : (s.state A.side.swap).holder = none) :
    ∃ (s' : Sys Addr) (A' : Agent Addr), s.call i (linesPerTick + 3 +
        A.lines.measure * ((s.state A.side.swap).entries.length + 3)) = some s' ∧
      s'.agents i = some A' ∧ A'.Ended A.lines.socket.incoming ∧ A'.inbox = A.inbox ∧
      A'.taken = A.taken + min linesPerTick A.queue.length ∧
      s'.state A.side = s.state A.side ∧ (s'.state A.side.swap).holder = none := by
  obtain ⟨s₁, h₁, hA₁, hst₁⟩ := Sys.step_modify hA (f := Agent.begin)
    (by simp [Sys.step_run hA, Peer.step, hp, Peer.poll])
  obtain ⟨j, hj, s₂, A₂, hc₂, hs₂, hA₂, hp₂, hside₂, hm₂, hst₂, hin₂, htk₂, hso₂⟩ :=
    (hs.step (a := .run i) trivial h₁).call_drain hA₁ rfl
  obtain ⟨s₃, h₃, hA₃, hst₃⟩ := Sys.step_modify hA₂ (f := Agent.flushStep)
    (by simp [Sys.step_run hA₂, Peer.step, hp₂, Peer.poll])
  have hst : ∀ side, s₃.state side = s.state side := fun side =>
    ((hst₃ side).trans (hst₂ side)).trans (hst₁ side)
  have hins : A₂.flushStep.lines.socket.incoming = A.lines.socket.incoming := by
    rw [Agent.flushStep, Lines.pollFlush_incoming, hso₂]; rfl
  generalize hM : A.lines.measure * ((s.state A.side.swap).entries.length + 3) = M
  have hbegin : s.call i (linesPerTick + 3 + M) = s₂.call i (linesPerTick + 2 + M - j) := by
    rw [show linesPerTick + 3 + M = j + (linesPerTick + 2 + M - j) + 1 by simp at hj; omega,
      Sys.call_succ h₁ hA₁ rfl nofun, hc₂]
  rcases Agent.flushStep_phase A₂ with hread | hfin
  · obtain ⟨s', A', hc', hA', hend, hin', htk', ho', hh'⟩ :=
      (hs₂.step (a := .run i) trivial h₃).call_read_returns hA₃ hread
        (by rw [hst]; exact hside₂ ▸ hh)
    rw [hins] at hend
    rw [show A₂.flushStep.side = A.side from hside₂, hst] at ho'
    rw [show A₂.flushStep.side = A.side from hside₂] at hh'
    refine ⟨s', A', ?_, hA', hend, hin'.trans hin₂, htk'.trans htk₂, ho', hh'⟩
    rw [Agent.flushStep_measure, hm₂, show A₂.flushStep.side = A.side from hside₂, hst] at hc'
    simp only [Agent.begin] at hc'
    rw [hbegin, show linesPerTick + 2 + M - j = M + 1 + (linesPerTick - j) + 1 by
      simp at hj; omega, Sys.call_succ h₃ hA₃ hread nofun, ← hM]
    exact Sys.call_add hc' _
  · have hend : A₂.flushStep.Ended A.lines.socket.incoming := .inr hfin
    refine ⟨s₃, _, ?_, hA₃, hend, hin₂, htk₂, hst _, hst _ ▸ hh⟩
    rw [hbegin, show linesPerTick + 2 + M - j = (linesPerTick + 1 + M - j) + 1 by
      simp at hj; omega]
    exact Sys.call_stop h₃ hA₃ hend.returned _

/-- A call of `poll` from `Pc.idle` returns, and takes the first `LINES_PER_TICK` messages of
the channel, or all if fewer. -/
theorem Sys.Reachable.call_idle {s : Sys Addr} (hs : s.Reachable) {i : Nat} {A : Agent Addr}
    (hA : s.agents i = some A) (hp : A.phase = .active .idle)
    (hh : (s.state A.side.swap).holder = none) :
    ∃ (s' : Sys Addr) (A' : Agent Addr), s.call i (linesPerTick + 3 +
        A.lines.measure * ((s.state A.side.swap).entries.length + 3)) = some s' ∧
      s'.agents i = some A' ∧ A'.Returned ∧ A'.inbox = A.inbox ∧
      A'.taken = A.taken + min linesPerTick A.queue.length := by
  obtain ⟨s', A', hc, hA', hend, hin, htk, -, -⟩ := hs.call_from_idle hA hp hh
  exact ⟨s', A', hc, hA', hend.returned, hin, htk⟩

/-- Every call of `poll` returns: from a task waiting for the executor in any reachable state,
with the other listener's map unlocked, the call, run on its own, ends (with `NotReady`, or with
the future completed) within `LINES_PER_TICK + 3 + m * (|entries| + 3)` steps, where `m` bounds
what the task has still to read from its socket.  The loop over the lines is bounded by the input
alone. -/
theorem call_returns {s : Sys Addr} (hs : s.Reachable) {i : Nat} {A : Agent Addr}
    (hA : s.agents i = some A) (hp : A.phase = .active .idle)
    (hh : (s.state A.side.swap).holder = none) :
    ∃ (s' : Sys Addr) (A' : Agent Addr), s.call i (linesPerTick + 3 +
        A.lines.measure * ((s.state A.side.swap).entries.length + 3)) = some s' ∧
      s'.agents i = some A' ∧ A'.Returned := by
  obtain ⟨s', A', hc, hA', hret, -⟩ := hs.call_idle hA hp hh
  exact ⟨s', A', hc, hA', hret⟩

/-- `chatty`'s task, named, registered and waiting for the executor, with its eleven lines still
to read. -/
def chattyNamed : Sys Nat := ((cProcess Sys.init 7 chatty).run ([0, 0].map .run)).get (by decide)

theorem Sys.Reachable.chattyNamed : chattyNamed.Reachable :=
  Reachable.chattyStart.run_tasks (Option.some_get _).symm

/-- The task in `chattyNamed`. -/
def chattyIdle : Agent Nat := (chattyNamed.agents 0).get (by decide)

/-- The call of `chattyNamed` that reads the eleven lines returns. -/
theorem call_returns_chattyNamed :
    chattyNamed.Reachable ∧ chattyNamed.agents 0 = some chattyIdle ∧
      chattyIdle.phase = .active .idle ∧
      (chattyNamed.state chattyIdle.side.swap).holder = none ∧
      ∃ (s' : Sys Nat) (A' : Agent Nat), chattyNamed.call 0 (linesPerTick + 3 +
          chattyIdle.lines.measure * ((chattyNamed.state chattyIdle.side.swap).entries.length + 3)) =
          some s' ∧ s'.agents 0 = some A' ∧ A'.Returned :=
  ⟨.chattyNamed, by decide, by decide, by decide,
    call_returns .chattyNamed (by decide) (by decide) (by decide)⟩

end DoubleServer
