import DoubleServer.Registry

/-!
# Nothing is undone

A run of the server only adds to what has happened.  `Agent.Extends` says of two states of a
task that the second is the first later on: the listener and the address are the same, the
name once read stays, the phase has only moved forward in the life of a connection
(`Phase.rank`), and the channel's history, the count of messages the receiver has returned, the
lines broadcast and the bytes the socket has delivered and accepted have only grown.
`Sys.Extends` says it of every task of the server, and adds that the broadcasts into each map
have only been added to.

Every step from a reachable state extends it (`Sys.Reachable.step_extends`), and so does every
run (`Sys.Reachable.run_extends`); the name needs the invariant `Agent.Inbound`, since only a
task that has not read its name reads one.  Later modules use this to carry facts about one
task across the steps of others.  With the registry, `map_entry_interval`: a task's entry is in
its map for one stretch of every run; `CPeer::new` inserts it once and `Drop` removes it for
good.
-/

namespace DoubleServer

variable {Addr : Type}

/-- Where a phase stands in the life of a task: the name, `CPeer::new`, the peer future, its
end, `Drop`, the end of the task; a panic in the fan-out loop ends it for good. -/
def Phase.rank : Phase Addr → Nat
  | .naming => 0
  | .joining => 1
  | .active _ => 2
  | .finished _ => 3
  | .dropped => 4
  | .gone => 5
  | .panicked _ => 6

/-- A task is registered exactly while its phase stands between the peer future and its
end. -/
theorem Phase.registered_iff_rank {p : Phase Addr} : p.Registered ↔ 2 ≤ p.rank ∧ p.rank ≤ 3 := by
  cases p <;> simp [Phase.Registered, Phase.rank]

/-- `A'` is the task `A` later on. -/
structure Agent.Extends (A A' : Agent Addr) : Prop where
  side : A'.side = A.side
  addr : A'.addr = A.addr
  /-- The name, once read, stays. -/
  name : A.name.isSome → A'.name = A.name
  rank : A.phase.rank ≤ A'.phase.rank
  /-- The channel's history only grows, and the receiver gives no message back. -/
  inbox : A.inbox <+: A'.inbox
  taken : A.taken ≤ A'.taken
  said : A.said <+: A'.said
  /-- What the socket has delivered, and what it has accepted, only grow. -/
  received : A.lines.socket.received <+: A'.lines.socket.received
  sent : A.lines.socket.sent <+: A'.lines.socket.sent

namespace Agent.Extends

theorem refl (A : Agent Addr) : A.Extends A :=
  ⟨rfl, rfl, fun _ => rfl, le_rfl, List.prefix_refl _, le_rfl, List.prefix_refl _,
    List.prefix_refl _, List.prefix_refl _⟩

theorem trans {A A' A'' : Agent Addr} (h : A.Extends A') (h' : A'.Extends A'') :
    A.Extends A'' where
  side := h'.side.trans h.side
  addr := h'.addr.trans h.addr
  name hn := (h'.name (by rwa [h.name hn])).trans (h.name hn)
  rank := h.rank.trans h'.rank
  inbox := h.inbox.trans h'.inbox
  taken := h.taken.trans h'.taken
  said := h.said.trans h'.said
  received := h.received.trans h'.received
  sent := h.sent.trans h'.sent

theorem push (A : Agent Addr) (m : Msg) : A.Extends (A.push m) :=
  { refl A with inbox := List.prefix_append _ _ }

end Agent.Extends

/-- An iteration of the loop over the channel may take a message, and changes nothing else
recorded. -/
theorem Agent.drainStep_fields (A : Agent Addr) (k : Fin linesPerTick) (b : Bool) :
    (A.drainStep k b).name = A.name ∧ A.taken ≤ (A.drainStep k b).taken ∧
      (A.drainStep k b).said = A.said ∧ (A.drainStep k b).lines.socket = A.lines.socket ∧
      ∃ pc, (A.drainStep k b).phase = .active pc := by
  unfold Agent.drainStep
  split
  · split <;> exact ⟨rfl, Nat.le_succ _, rfl, rfl, _, rfl⟩
  · exact ⟨rfl, le_rfl, rfl, rfl, _, rfl⟩

/-- A task's own step extends it, when only a task that has not read its name is reading
one. -/
theorem Agent.Step.extends {A A' : Agent Addr} (h : Agent.Step A A')
    (hn : A.phase = .naming → A.name = none) : A.Extends A' := by
  obtain ⟨hside, haddr, hin⟩ := h.frame
  have hinbox : A.inbox <+: A'.inbox := by rw [hin]
  -- a step that moves the phase forward and may take messages, touching nothing else recorded
  have quiet : A'.name = A.name → A.taken ≤ A'.taken → A'.said = A.said →
      A'.lines.socket = A.lines.socket → A.phase.rank ≤ A'.phase.rank → A.Extends A' :=
    fun hname htaken hsaid hsock hr => ⟨hside, haddr, fun _ => hname, hr, hinbox, htaken,
      by rw [hsaid], by rw [hsock], by rw [hsock]⟩
  cases h with
  | intoFuture hp =>
    exact ⟨hside, haddr, fun hs => absurd (hn hp) (Option.isSome_iff_ne_none.1 hs),
      by simp [Phase.rank, hp], hinbox, le_rfl, List.prefix_refl _,
      Lines.poll_received_prefix _, by simp [Agent.intoFuture]⟩
  | drain senders hp =>
    obtain ⟨hname, htaken, hsaid, hsock, pc, hpc⟩ := Agent.drainStep_fields A _ senders
    exact quiet hname htaken hsaid hsock (by simp [Phase.rank, hp, hpc])
  | flush hp =>
    refine ⟨hside, haddr, fun _ => rfl, ?_, hinbox, le_rfl, List.prefix_refl _,
      List.prefix_refl _, Lines.pollFlush_sent_prefix _⟩
    simp only [Agent.flushStep, hp]
    split <;> simp [Phase.rank]
  | read hp =>
    refine ⟨hside, haddr, fun _ => rfl, ?_, hinbox, le_rfl, List.prefix_refl _,
      Lines.poll_received_prefix _, by simp [Agent.readStep]⟩
    simp only [Agent.readStep, hp]
    split <;> simp [Phase.rank]
  | release hp =>
    exact ⟨hside, haddr, fun _ => rfl, by simp [Phase.rank, hp, Agent.release], hinbox, le_rfl,
      List.prefix_append _ _, List.prefix_refl _, List.prefix_refl _⟩
  | join hp | begin hp | lock _ hp | visit hp | abort hp | dropped hp | free hp =>
    exact quiet rfl le_rfl rfl rfl (by simp [Phase.rank, hp, Agent.join, Agent.begin,
      Agent.lockStep, Agent.visit, Agent.abort, Agent.dropped, Agent.free])

/-- `s'` is the server `s` later on: every task of `s` is still there, later on, and the
broadcasts into each map have only been added to. -/
structure Sys.Extends (s s' : Sys Addr) : Prop where
  agents : ∀ ⦃i A⦄, s.agents i = some A → ∃ A', s'.agents i = some A' ∧ A.Extends A'
  fanned : ∀ side, (s.state side).fanned <+: (s'.state side).fanned
  accepted : s.accepted ≤ s'.accepted

namespace Sys.Extends

theorem refl (s : Sys Addr) : s.Extends s :=
  ⟨fun _ A hA => ⟨A, hA, .refl A⟩, fun _ => List.prefix_refl _, le_rfl⟩

theorem trans {s s' s'' : Sys Addr} (h : s.Extends s') (h' : s'.Extends s'') : s.Extends s'' where
  agents i A hA := by
    obtain ⟨A', hA', hx⟩ := h.agents hA
    obtain ⟨A'', hA'', hx'⟩ := h'.agents hA'
    exact ⟨A'', hA'', hx.trans hx'⟩
  fanned side := (h.fanned side).trans (h'.fanned side)
  accepted := h.accepted.trans h'.accepted

/-- A step of task `i` that extends it, after a change of the maps that only adds to their
histories. -/
theorem modify {s s₀ : Sys Addr} (hag : s₀.agents = s.agents)
    (hf : ∀ side, (s.state side).fanned <+: (s₀.state side).fanned)
    (hacc : s₀.accepted = s.accepted) {i : Nat} {A : Agent Addr} (hA : s.agents i = some A)
    {f : Agent Addr → Agent Addr} (hx : A.Extends (f A)) : s.Extends (s₀.modify i f) where
  agents j B hB := by
    by_cases hj : j = i
    · subst hj
      rw [hA] at hB
      cases hB
      exact ⟨f A, by simp [hag, hA], hx⟩
    · exact ⟨B, by simp [hj, hag, hB], .refl B⟩
  fanned side := by rw [Sys.modify_state]; exact hf side
  accepted := by rw [Sys.modify_accepted, hacc]

/-- A message sent on a channel. -/
theorem push (s : Sys Addr) {t : Nat} {B : Agent Addr} (hB : s.agents t = some B) (m : Msg) :
    s.Extends (s.modify t (·.push m)) :=
  .modify rfl (fun _ => List.prefix_refl _) rfl hB (.push B m)

end Sys.Extends

/-- A change of one map that only adds to its history of broadcasts. -/
theorem Sys.update_fanned_prefix (s : Sys Addr) {side : Side} {g : Shared Addr → Shared Addr}
    (hg : ∀ st, st.fanned <+: (g st).fanned) (side' : Side) :
    (s.state side').fanned <+: ((s.update side g).state side').fanned := by
  cases side <;> cases side' <;> simp [Sys.update, Sys.state, hg]

variable [DecidableEq Addr]

/-- Every step from a reachable state extends it. -/
theorem Sys.Reachable.step_extends {s s' : Sys Addr} (hs : s.Reachable) {a : Action Addr}
    (h : s.step a = some s') : s.Extends s' := by
  cases a with
  | accept side addr ins outs =>
    rw [Sys.step_accept] at h
    cases h
    exact ⟨fun j B hB => ⟨B, spawn_agents_of_some _ _ _ _ (hs.registry.fresh _ le_rfl) hB, .refl B⟩,
      fun side => by rw [spawn_state], by simp⟩
  | run i =>
    obtain ⟨A, hA, hm⟩ := Sys.step_run_move h
    have hn := (hs.inbound hA).naming
    have own : ∀ {g : Shared Addr → Shared Addr} {side : Side} {f : Agent Addr → Agent Addr},
        (∀ st, st.fanned <+: (g st).fanned) → Agent.Step A (f A) →
        s.Extends ((s.update side g).modify i f) := fun hg hf =>
      .modify (by simp) (Sys.update_fanned_prefix s hg) (by simp) hA (hf.extends hn)
    have plain : ∀ {f : Agent Addr → Agent Addr}, Agent.Step A (f A) → s.Extends (s.modify i f) :=
      fun hf => .modify rfl (fun _ => List.prefix_refl _) rfl hA (hf.extends hn)
    cases hm with
    | intoFuture hp => exact plain (.intoFuture hp)
    | new hp => exact own (fun _ => List.prefix_refl _) (.join hp)
    | begin hp => exact plain (.begin hp)
    | drain hp => exact plain (.drain _ hp)
    | flush hp => exact plain (.flush hp)
    | read hp => exact plain (.read hp)
    | lock hp => exact own (fun _ => List.prefix_append _ _) (.lock _ hp)
    | skip hp => exact plain (.visit hp)
    | @send m a t rest B hp ha hB =>
      have hB₁ : (s.modify i (·.visit m rest)).agents t = some B := by
        simp [hs.registry.pending_ne hA hp, hB]
      exact (plain (.visit hp)).trans (.push _ hB₁ _)
    | abort hp => exact plain (.abort hp)
    | release hp => exact own (fun _ => List.prefix_refl _) (.release hp)
    | drop hp => exact own (fun _ => List.prefix_refl _) (.dropped hp)
    | free hp => exact plain (.free hp)

/-- A run of the server: steps the environment admits, one after the other. -/
def Sys.Run : Sys Addr → Sys Addr → Prop :=
  Relation.ReflTransGen fun s s' => ∃ a, s.Admissible a ∧ s.step a = some s'

/-- Steps of tasks make a run. -/
theorem Sys.Run.of_tasks {s s' : Sys Addr} {l : List Nat} (h : s.run (l.map .run) = some s') :
    s.Run s' := by
  induction l generalizing s with
  | nil => cases h; exact .refl
  | cons i l ih =>
    simp only [List.map_cons, Sys.run, Option.bind_eq_some] at h
    obtain ⟨s₁, h₁, h⟩ := h
    exact .head ⟨.run i, trivial, h₁⟩ (ih h)

/-- One call of a task's `poll` is a run. -/
theorem Sys.Run.of_call {s s' : Sys Addr} {i n : Nat} (h : s.call i n = some s') : s.Run s' := by
  induction n generalizing s with
  | zero => cases h
  | succ n ih =>
    simp only [Sys.call, Option.bind_eq_some] at h
    obtain ⟨s₁, h₁, h⟩ := h
    have hr₁ : s.Run s₁ := .single ⟨.run i, trivial, h₁⟩
    split at h
    · cases h; exact hr₁
    · exact hr₁.trans (ih h)
    · cases h; exact hr₁

theorem Sys.Reachable.run {s s' : Sys Addr} (hs : s.Reachable) (hr : s.Run s') : s'.Reachable := by
  induction hr with
  | refl => exact hs
  | tail _ hstep ih =>
    obtain ⟨a, had, h⟩ := hstep
    exact ih.step had h

theorem Sys.Reachable.run_extends {s s' : Sys Addr} (hs : s.Reachable) (hr : s.Run s') :
    s.Extends s' := by
  induction hr with
  | refl => exact .refl s
  | tail hr hstep ih =>
    obtain ⟨a, -, h⟩ := hstep
    exact ih.trans ((hs.run hr).step_extends h)

/-- A task's entry is in its map for one stretch of every run: a map that holds the entry
`a ↦ t` at two states of a run holds it at every state between.  `CPeer::new` inserts it once,
and after `Drop` has removed it, it never comes back. -/
theorem map_entry_interval {s₁ s₂ s₃ : Sys Addr} (hs : s₁.Reachable) (h₁₂ : s₁.Run s₂)
    (h₂₃ : s₂.Run s₃) {side : Side} {a : Addr} {t : Nat}
    (h₁ : (s₁.state side).peers.lookup a = some t) (h₃ : (s₃.state side).peers.lookup a = some t) :
    (s₂.state side).peers.lookup a = some t := by
  have hs₂ := hs.run h₁₂
  obtain ⟨B₁, hB₁, hside, haddr, hreg₁⟩ := (hs.registry.peers side a t).1 h₁
  obtain ⟨B₃, hB₃, -, -, hreg₃⟩ := ((hs₂.run h₂₃).registry.peers side a t).1 h₃
  obtain ⟨B₂, hB₂, hx₁₂⟩ := (hs.run_extends h₁₂).agents hB₁
  obtain ⟨B₃', hB₃', hx₂₃⟩ := (hs₂.run_extends h₂₃).agents hB₂
  rw [hB₃] at hB₃'
  cases hB₃'
  refine (hs₂.registry.peers side a t).2
    ⟨B₂, hB₂, hx₁₂.side.trans hside, hx₁₂.addr.trans haddr, ?_⟩
  rw [Phase.registered_iff_rank] at hreg₁ hreg₃ ⊢
  exact ⟨hreg₁.1.trans hx₁₂.rank, hx₂₃.rank.trans hreg₃.2⟩

/-! ## A task's entry along the run of `relayed`

`q` registered at address 8 in the go map, then `p`'s broadcast of `hi`, then `q`'s call. -/

/-- `q` has joined. -/
def relayJoined : Sys Nat :=
  ((cProcess (goProcess Sys.init 8 relayQ) 7 relayP).run ([0, 0].map .run)).get (by decide)

/-- `p` has joined and is broadcasting `hi`. -/
def relayBroadcasting : Sys Nat :=
  (relayJoined.run ([1, 1, 1, 1, 1, 1, 1, 1].map .run)).get (by decide)

/-- `p`'s call is over, and `q`'s next one. -/
def relayCalled : Sys Nat :=
  (relayBroadcasting.run ([1, 1, 0, 0, 0, 0, 0].map .run)).get (by decide)

/-- `q`'s entry is in the go map when `q` has joined and after `q`'s call, hence all along. -/
theorem map_entry_interval_relay :
    relayJoined.Reachable ∧ relayJoined.Run relayBroadcasting ∧
      relayBroadcasting.Run relayCalled ∧ (relayJoined.state .go).peers.lookup 8 = some 0 ∧
      (relayCalled.state .go).peers.lookup 8 = some 0 ∧
      (relayBroadcasting.state .go).peers.lookup 8 = some 0 :=
  have hs : relayJoined.Reachable :=
    (Sys.Reachable.relayStart 8).run_tasks (Option.some_get _).symm
  have h₁₂ : relayJoined.Run relayBroadcasting := Sys.Run.of_tasks (Option.some_get _).symm
  have h₂₃ : relayBroadcasting.Run relayCalled := Sys.Run.of_tasks (Option.some_get _).symm
  ⟨hs, h₁₂, h₂₃, by decide, by decide, map_entry_interval hs h₁₂ h₂₃ (by decide) (by decide)⟩

end DoubleServer
