import DoubleServer.Inbound

/-!
# The registry

`CPeer::new` inserts the task's address into its own listener's map, `Drop` removes it, and
the fan-out loop of every task of the other listener sends on each transmit half it finds
there.  The comment above the `unwrap` of that send says why it cannot fail: the `tx` half is
removed from the map before the `rx` is dropped.  `Registry` is the invariant behind that
sentence: each map holds exactly the registered tasks of its listener, under their
addresses; a map's lock is held by the one task broadcasting into it; and that task has still
to visit a suffix of the map's entries.  It holds in every reachable state
(`Sys.Reachable.registry`), whatever the interleaving of the tasks.
-/

namespace DoubleServer

variable {Addr : Type}

namespace Phase

/-- A step from phase `p` to phase `p'` that the maps and their locks do not see. -/
structure Quiet (p p' : Phase Addr) : Prop where
  registered : p'.Registered ↔ p.Registered
  live : p'.Live → p.Live
  fanOut : ∀ {m q'}, p' = .active (.fanOut m q') → ∃ q, p = .active (.fanOut m q) ∧ q' <:+ q
  stays : ∀ {m q}, p = .active (.fanOut m q) → ∃ m' q', p' = .active (.fanOut m' q')
  calm : ∀ m, p' ≠ .panicked m

/-- Two phases, neither inside a broadcast, with nothing registered or brought to life. -/
theorem Quiet.of_plain {p p' : Phase Addr} (hr : p'.Registered ↔ p.Registered)
    (hl : p'.Live → p.Live) (hp : ∀ m q, p ≠ .active (.fanOut m q))
    (hp' : ∀ m q, p' ≠ .active (.fanOut m q)) (hc : ∀ m, p' ≠ .panicked m) : Quiet p p' :=
  ⟨hr, hl, fun h => absurd h (hp' _ _), fun h => absurd h (hp _ _), hc⟩

theorem Quiet.refl {p : Phase Addr} (hc : ∀ m, p ≠ .panicked m) : Quiet p p :=
  ⟨Iff.rfl, id, fun h => ⟨_, h, List.suffix_refl _⟩, fun h => ⟨_, _, h⟩, hc⟩

end Phase

namespace Agent

open Phase

theorem quiet_intoFuture {A : Agent Addr} (hp : A.phase = .naming) :
    A.phase.Quiet A.intoFuture.phase := by
  refine .of_plain ?_ ?_ (by simp [hp]) ?_ ?_ <;>
    simp only [intoFuture] <;> split <;> simp [hp, Registered, Live]

theorem quiet_begin {A : Agent Addr} (hp : A.phase = .active .idle) :
    A.phase.Quiet A.begin.phase :=
  .of_plain (by simp [hp, begin]) (by simp [hp, Live]) (by simp [hp]) (by simp [begin])
    (by simp [begin])

theorem quiet_drainStep {A : Agent Addr} {k : Fin linesPerTick} (hp : A.phase = .active (.drain k))
    (senders : Bool) : A.phase.Quiet (A.drainStep k senders).phase := by
  refine .of_plain ?_ ?_ (by simp [hp]) ?_ ?_ <;>
    simp only [drainStep] <;> split <;> (try split) <;> simp [hp, Live]

theorem quiet_flushStep {A : Agent Addr} (hp : A.phase = .active .flush) :
    A.phase.Quiet A.flushStep.phase := by
  refine .of_plain ?_ ?_ (by simp [hp]) ?_ ?_ <;>
    simp only [flushStep] <;> split <;> simp [hp, Live]

theorem quiet_readStep {A : Agent Addr} (hp : A.phase = .active .read) :
    A.phase.Quiet A.readStep.phase := by
  refine .of_plain ?_ ?_ (by simp [hp]) ?_ ?_ <;>
    simp only [readStep] <;> split <;> simp [hp, Live]

theorem quiet_visit {A : Agent Addr} {m : Bytes} {e : Addr × Nat} {rest : List (Addr × Nat)}
    (hp : A.phase = .active (.fanOut m (e :: rest))) : A.phase.Quiet (A.visit m rest).phase where
  registered := by simp [hp, visit]
  live := by simp [hp, Live]
  fanOut h := by
    simp only [visit, Phase.active.injEq, Pc.fanOut.injEq] at h
    obtain ⟨rfl, rfl⟩ := h
    exact ⟨e :: rest, hp, List.suffix_cons e rest⟩
  stays _ := ⟨m, rest, rfl⟩
  calm := by simp [visit]

theorem quiet_free {A : Agent Addr} (hp : A.phase = .dropped) : A.phase.Quiet A.free.phase :=
  .of_plain (by simp [hp, free, Registered]) (by simp [free, Live]) (by simp [hp])
    (by simp [free]) (by simp [free])

end Agent

namespace Sys

/-- Two tasks of one listener that are not yet dropped have different addresses. -/
def Distinct (s : Sys Addr) : Prop :=
  ∀ ⦃j j' B B'⦄, s.agents j = some B → s.agents j' = some B' → B.side = B'.side →
    B.phase.Live → B'.phase.Live → B.addr = B'.addr → j = j'

/-- No task has panicked. -/
def Calm (s : Sys Addr) : Prop := ∀ ⦃i A⦄, s.agents i = some A → ∀ m, A.phase ≠ .panicked m

/-- Task `t` is registered under the address `a` of listener `side`. -/
def Owner (s : Sys Addr) (side : Side) (a : Addr) (t : Nat) : Prop :=
  ∃ B, s.agents t = some B ∧ B.side = side ∧ B.addr = a ∧ B.phase.Registered

/-- Task `i` is broadcasting into the map of `side`. -/
def Broadcasting (s : Sys Addr) (side : Side) (i : Nat) : Prop :=
  ∃ A, s.agents i = some A ∧ A.side.swap = side ∧ ∃ m q, A.phase = .active (.fanOut m q)

/-- What a task that owns an entry is. -/
theorem owner_self {s : Sys Addr} {i : Nat} {A : Agent Addr} {side : Side} {a : Addr}
    (hA : s.agents i = some A) (h : s.Owner side a i) :
    A.side = side ∧ A.addr = a ∧ A.phase.Registered := by
  obtain ⟨B, hB, h'⟩ := h
  rw [hA] at hB
  cases hB
  exact h'

/-- What a task that broadcasts is. -/
theorem broadcasting_self {s : Sys Addr} {i : Nat} {A : Agent Addr} {side : Side}
    (hA : s.agents i = some A) (h : s.Broadcasting side i) :
    A.side.swap = side ∧ ∃ m q, A.phase = .active (.fanOut m q) := by
  obtain ⟨B, hB, h'⟩ := h
  rw [hA] at hB
  cases hB
  exact h'

section Modify

variable {s : Sys Addr} {i : Nat} {A : Agent Addr} {f : Agent Addr → Agent Addr}

theorem Distinct.modify (h : s.Distinct) (hA : s.agents i = some A) (hs : (f A).side = A.side)
    (ha : (f A).addr = A.addr) (hl : (f A).phase.Live → A.phase.Live) : (s.modify i f).Distinct := by
  intro j j' B B' hj hj' hs' hl₁ hl₂ ha'
  rcases modify_agents_some hA hj with ⟨rfl, rfl⟩ | ⟨-, h₁⟩ <;>
    rcases modify_agents_some hA hj' with ⟨rfl, rfl⟩ | ⟨-, h₂⟩
  · rfl
  · exact h hA h₂ (hs ▸ hs') (hl hl₁) hl₂ (ha ▸ ha')
  · exact h h₁ hA (hs ▸ hs') hl₁ (hl hl₂) (ha ▸ ha')
  · exact h h₁ h₂ hs' hl₁ hl₂ ha'

theorem Calm.modify (h : s.Calm) (hA : s.agents i = some A) (hc : ∀ m, (f A).phase ≠ .panicked m) :
    (s.modify i f).Calm := by
  intro j B' hB'
  rcases modify_agents_some hA hB' with ⟨rfl, rfl⟩ | ⟨-, hB⟩
  exacts [hc, h hB]

theorem owner_modify (hA : s.agents i = some A) (hs : (f A).side = A.side)
    (ha : (f A).addr = A.addr) {side : Side} {a : Addr} {t : Nat} :
    (s.modify i f).Owner side a t ↔
      (t = i ∧ A.side = side ∧ A.addr = a ∧ (f A).phase.Registered) ∨ (t ≠ i ∧ s.Owner side a t) := by
  rw [Owner, exists_modify_agents hA, hs, ha]; rfl

/-- A step that keeps a task registered, or not, changes no owner. -/
theorem owner_modify_iff (hA : s.agents i = some A) (hs : (f A).side = A.side)
    (ha : (f A).addr = A.addr) (hr : (f A).phase.Registered ↔ A.phase.Registered) {side : Side}
    {a : Addr} {t : Nat} : (s.modify i f).Owner side a t ↔ s.Owner side a t := by
  rw [owner_modify hA hs ha, hr]
  by_cases ht : t = i
  · subst ht
    exact ⟨fun h => h.elim (fun ⟨_, h'⟩ => ⟨A, hA, h'⟩) (absurd rfl ·.1),
      fun h => .inl ⟨rfl, owner_self hA h⟩⟩
  · simp [ht]

theorem broadcasting_modify (hA : s.agents i = some A) (hs : (f A).side = A.side) {side : Side}
    {j : Nat} : (s.modify i f).Broadcasting side j ↔
      (j = i ∧ A.side.swap = side ∧ ∃ m q, (f A).phase = .active (.fanOut m q)) ∨
        (j ≠ i ∧ s.Broadcasting side j) := by
  rw [Broadcasting, exists_modify_agents hA, hs]; rfl

end Modify

section Agents

variable {s s₀ : Sys Addr} (hag : s₀.agents = s.agents)
include hag

theorem Distinct.of_agents (h : s.Distinct) : s₀.Distinct := by
  intro j j' B B' hj hj'
  rw [hag] at hj hj'
  exact h hj hj'

theorem Calm.of_agents (h : s.Calm) : s₀.Calm := fun _ _ hA => h (hag ▸ hA)

theorem owner_of_agents {side : Side} {a : Addr} {t : Nat} : s₀.Owner side a t ↔ s.Owner side a t := by
  rw [Owner, Owner, hag]

theorem broadcasting_of_agents {side : Side} {j : Nat} :
    s₀.Broadcasting side j ↔ s.Broadcasting side j := by
  rw [Broadcasting, Broadcasting, hag]

end Agents

end Sys

variable [DecidableEq Addr]

/-- The registry invariant of the server. -/
structure Sys.Registry (s : Sys Addr) : Prop where
  /-- Tasks are numbered in the order of acceptance. -/
  fresh : ∀ j, s.accepted ≤ j → s.agents j = none
  distinct : s.Distinct
  /-- A map holds the registered tasks of its listener, each under its address. -/
  peers : ∀ side a t, (s.state side).peers.lookup a = some t ↔ s.Owner side a t
  /-- A map's lock is held by the task broadcasting into it, if there is one. -/
  holder : ∀ side i, (s.state side).holder = some i ↔ s.Broadcasting side i
  /-- A broadcast has still to visit a suffix of the entries of the map. -/
  pending : ∀ {i A m q}, s.agents i = some A → A.phase = .active (.fanOut m q) →
    q <:+ (s.state A.side.swap).entries
  calm : s.Calm

namespace Sys.Registry

theorem init : (Sys.init : Sys Addr).Registry where
  fresh _ _ := rfl
  distinct _ _ _ _ h := by cases h
  peers side a t := by cases side <;> simp [Sys.init, Sys.state, Sys.Owner]
  holder side i := by cases side <;> simp [Sys.init, Sys.state, Sys.Broadcasting]
  pending h := by cases h
  calm _ _ h := by cases h

section Modify

variable {s : Sys Addr} (h : s.Registry) {i : Nat} {A : Agent Addr} (hA : s.agents i = some A)
include h hA

/-- A step of task `i` that changes nothing but the task, unseen by the maps. -/
theorem modify {f : Agent Addr → Agent Addr} (hs : (f A).side = A.side) (ha : (f A).addr = A.addr)
    (hq : A.phase.Quiet (f A).phase) : (s.modify i f).Registry := by
  refine ⟨fun j hj => Sys.modify_agents_none (h.fresh j hj), h.distinct.modify hA hs ha hq.live,
    fun side a t => ?_, fun side j => ?_, fun hB hp => ?_, h.calm.modify hA hq.calm⟩
  · rw [Sys.modify_state, h.peers, Sys.owner_modify_iff hA hs ha hq.registered]
  · rw [Sys.modify_state, h.holder, Sys.broadcasting_modify hA hs]
    by_cases hj : j = i
    · subst hj
      simp only [Sys.Broadcasting, hA, Option.some.injEq, exists_eq_left', true_and, ne_eq,
        not_true_eq_false, false_and, or_false]
      exact and_congr_right fun _ =>
        ⟨fun ⟨_, _, hp⟩ => hq.stays hp, fun ⟨m, _, hp⟩ => ⟨m, _, (hq.fanOut hp).choose_spec.1⟩⟩
    · simp [hj]
  · rw [Sys.modify_state]
    rcases Sys.modify_agents_some hA hB with ⟨rfl, rfl⟩ | ⟨-, hB⟩
    · obtain ⟨q₀, hp₀, hq₀⟩ := hq.fanOut hp
      exact hs ▸ hq₀.trans (h.pending hA hp₀)
    · exact h.pending hB hp

/-- A message sent on task `i`'s channel. -/
theorem push (m : Msg) : (s.modify i (·.push m)).Registry :=
  h.modify hA rfl rfl (.refl (h.calm hA))

/-- The entry a broadcast visits next is a registered task of the other listener, under its
own address. -/
theorem pending_owner {m : Bytes} {a : Addr} {t : Nat} {rest : List (Addr × Nat)}
    (hp : A.phase = .active (.fanOut m ((a, t) :: rest))) :
    ∃ B, s.agents t = some B ∧ B.side = A.side.swap ∧ B.addr = a ∧ B.phase.Registered :=
  (h.peers _ a t).1 (Shared.mem_entries.1 ((h.pending hA hp).subset (List.mem_cons_self _ _)))

/-- The entries a broadcast visits are registered tasks, whose receivers are alive, so that
the send never fails. -/
theorem send_ok {m : Bytes} {a : Addr} {t : Nat} {rest : List (Addr × Nat)}
    (hp : A.phase = .active (.fanOut m ((a, t) :: rest))) :
    ∃ B, s.agents t = some B ∧ B.phase.HasRx :=
  have ⟨B, hB, _, _, hr⟩ := h.pending_owner hA hp
  ⟨B, hB, hr.hasRx⟩

/-- A broadcast never visits its own task: the map holds tasks of the other listener. -/
theorem pending_ne {m : Bytes} {a : Addr} {t : Nat} {rest : List (Addr × Nat)}
    (hp : A.phase = .active (.fanOut m ((a, t) :: rest))) : t ≠ i := by
  rintro rfl
  obtain ⟨B, hB, hside, -⟩ := h.pending_owner hA hp
  rw [hA] at hB
  cases hB
  exact Side.ne_swap _ hside

/-- `CPeer::new` and `Drop`: task `i`, outside any broadcast, changes its own map while no task
broadcasts into it; `hpeers` says what the map then holds. -/
theorem rekey {g : AList (fun _ : Addr => Nat) → AList (fun _ : Addr => Nat)}
    {f : Agent Addr → Agent Addr} (hs : (f A).side = A.side) (ha : (f A).addr = A.addr)
    (hl : (f A).phase.Live → A.phase.Live)
    (hfan : ∀ m q, A.phase ≠ .active (.fanOut m q) ∧ (f A).phase ≠ .active (.fanOut m q))
    (hc : ∀ m, (f A).phase ≠ .panicked m) (hh : (s.state A.side).holder = none)
    (hpeers : ∀ a t, (g (s.state A.side).peers).lookup a = some t ↔
      (t = i ∧ A.addr = a ∧ (f A).phase.Registered) ∨ (t ≠ i ∧ s.Owner A.side a t)) :
    ((s.update A.side fun st => { st with peers := g st.peers }).modify i f).Registry := by
  set s₁ := s.update A.side fun st => { st with peers := g st.peers }
  have hag : s₁.agents = s.agents := Sys.update_agents ..
  have hA₁ : s₁.agents i = some A := hag ▸ hA
  have other : ∀ {side}, side ≠ A.side → s₁.state side = s.state side :=
    fun hne => Sys.update_state_of_ne _ _ hne
  have hholder : ∀ side, (s₁.state side).holder = (s.state side).holder := fun side => by
    by_cases hside : side = A.side
    · subst hside; simp [s₁]
    · rw [other hside]
  refine ⟨fun j hj => Sys.modify_agents_none (hag ▸ h.fresh j (by simpa [s₁] using hj)),
    (h.distinct.of_agents hag).modify hA₁ hs ha hl, fun side a t => ?_, fun side j => ?_,
    fun {j B' m q} hB hp => ?_, (h.calm.of_agents hag).modify hA₁ hc⟩
  · rw [Sys.owner_modify hA₁ hs ha, Sys.owner_of_agents hag, Sys.modify_state]
    by_cases hside : side = A.side
    · subst hside
      simpa [s₁] using hpeers a t
    · have hne : A.side ≠ side := Ne.symm hside
      rw [other hside, h.peers]
      constructor
      · exact fun ho => .inr ⟨fun ht => hne (Sys.owner_self hA (ht ▸ ho)).1, ho⟩
      · rintro (⟨-, h', -⟩ | ⟨-, ho⟩)
        exacts [absurd h' hne, ho]
  · rw [Sys.modify_state, hholder, h.holder, Sys.broadcasting_modify hA₁ hs,
      Sys.broadcasting_of_agents hag]
    constructor
    · exact fun hb => .inr ⟨fun hj => (hfan _ _).1
        (Sys.broadcasting_self hA (hj ▸ hb)).2.choose_spec.choose_spec, hb⟩
    · rintro (⟨-, -, m, q, hq⟩ | ⟨-, hb⟩)
      exacts [absurd hq (hfan m q).2, hb]
  · rw [Sys.modify_state]
    rcases Sys.modify_agents_some hA₁ hB with ⟨rfl, rfl⟩ | ⟨-, hB⟩
    · exact absurd hp (hfan m q).2
    rw [hag] at hB
    by_cases hside : B'.side.swap = A.side
    · have hb := (h.holder _ j).2 ⟨B', hB, hside, m, q, hp⟩
      rw [hh] at hb
      cases hb
    · rw [other hside]
      exact h.pending hB hp

/-- `CPeer::new`. -/
theorem new (hp : A.phase = .joining) (hh : (s.state A.side).holder = none) :
    ((s.update A.side fun st => { st with peers := st.peers.insert A.addr i }).modify i
      Agent.join).Registry := by
  have hl : A.phase.Live := by simp [hp, Phase.Live]
  refine h.rekey hA (g := fun p => p.insert A.addr i) rfl rfl (fun _ => hl)
    (fun m q => by simp [hp, Agent.join]) (by simp [Agent.join]) hh fun a t => ?_
  simp only [Agent.join, Phase.registered_active, and_true]
  by_cases ha : a = A.addr
  · subst ha
    rw [AList.lookup_insert]
    constructor
    · rintro ⟨⟩
      exact .inl ⟨rfl, rfl⟩
    · rintro (⟨rfl, -⟩ | ⟨ht, B, hB, hs, ha, hr⟩)
      · rfl
      · exact absurd (h.distinct hB hA hs hr.live hl ha) ht
  · rw [AList.lookup_insert_ne ha, h.peers]
    constructor
    · refine fun ho => .inr ⟨fun ht => ?_, ho⟩
      have hr := (Sys.owner_self hA (ht ▸ ho)).2.2
      rw [hp] at hr
      exact hr
    · rintro (⟨-, h'⟩ | ⟨-, ho⟩)
      exacts [absurd h'.symm ha, ho]

/-- `Drop::drop`. -/
theorem drop {x : Exit} (hp : A.phase = .finished x) (hh : (s.state A.side).holder = none) :
    ((s.update A.side fun st => { st with peers := st.peers.erase A.addr }).modify i
      Agent.dropped).Registry := by
  refine h.rekey hA (g := fun p => p.erase A.addr) rfl rfl (fun h' => by cases h')
    (fun m q => by simp [hp, Agent.dropped]) (by simp [Agent.dropped]) hh fun a t => ?_
  simp only [Agent.dropped, Phase.Registered, and_false, false_or]
  by_cases ha : a = A.addr
  · subst ha
    rw [AList.lookup_erase]
    refine ⟨nofun, fun ⟨ht, B, hB, hs, ha, hr⟩ => ?_⟩
    exact absurd (h.distinct hB hA hs hr.live (by simp [hp, Phase.Live]) ha) ht
  · rw [AList.lookup_erase_ne ha, h.peers]
    exact ⟨fun ho => ⟨fun ht => ha (Sys.owner_self hA (ht ▸ ho)).2.1.symm, ho⟩, And.right⟩

/-- Task `i` takes or releases the lock of the map it broadcasts into; `hholder` says who holds
it then, and `hpend` what the task has still to visit. -/
theorem relock {o : Option Nat} {F : List (Nat × Nat) → List (Nat × Nat)}
    {f : Agent Addr → Agent Addr} (hs : (f A).side = A.side) (ha : (f A).addr = A.addr)
    (hr : (f A).phase.Registered ↔ A.phase.Registered) (hl : (f A).phase.Live → A.phase.Live)
    (hc : ∀ m, (f A).phase ≠ .panicked m)
    (hholder : ∀ j, o = some j ↔ (j = i ∧ ∃ m q, (f A).phase = .active (.fanOut m q)) ∨
      (j ≠ i ∧ s.Broadcasting A.side.swap j))
    (hpend : ∀ {m q}, (f A).phase = .active (.fanOut m q) → q <:+ (s.state A.side.swap).entries) :
    ((s.update A.side.swap fun st => { st with holder := o, fanned := F st.fanned }).modify i
      f).Registry := by
  set s₁ := s.update A.side.swap fun st => { st with holder := o, fanned := F st.fanned }
  have hag : s₁.agents = s.agents := Sys.update_agents ..
  have hA₁ : s₁.agents i = some A := hag ▸ hA
  have other : ∀ {side}, side ≠ A.side.swap → s₁.state side = s.state side :=
    fun hne => Sys.update_state_of_ne _ _ hne
  have hpeers : ∀ side, (s₁.state side).peers = (s.state side).peers := fun side => by
    by_cases hside : side = A.side.swap
    · subst hside; simp [s₁]
    · rw [other hside]
  have hentries : ∀ side, (s₁.state side).entries = (s.state side).entries := fun side => by
    unfold Shared.entries; rw [hpeers]
  refine ⟨fun j hj => Sys.modify_agents_none (hag ▸ h.fresh j (by simpa [s₁] using hj)),
    (h.distinct.of_agents hag).modify hA₁ hs ha hl, fun side a t => ?_, fun side j => ?_,
    fun {j B' m q} hB hp => ?_, (h.calm.of_agents hag).modify hA₁ hc⟩
  · rw [Sys.modify_state, hpeers, h.peers, Sys.owner_modify_iff hA₁ hs ha hr,
      Sys.owner_of_agents hag]
  · rw [Sys.modify_state, Sys.broadcasting_modify hA₁ hs, Sys.broadcasting_of_agents hag]
    by_cases hside : side = A.side.swap
    · subst hside
      simpa [s₁] using hholder j
    · rw [other hside, h.holder]
      constructor
      · exact fun hb => .inr ⟨fun hj => hside (Sys.broadcasting_self hA (hj ▸ hb)).1.symm, hb⟩
      · rintro (⟨-, h', -⟩ | ⟨-, hb⟩)
        exacts [absurd h'.symm hside, hb]
  · rw [Sys.modify_state, hentries]
    rcases Sys.modify_agents_some hA₁ hB with ⟨rfl, rfl⟩ | ⟨-, hB⟩
    · exact hs ▸ hpend hp
    · exact h.pending (hag ▸ hB) hp

/-- The lock of the other map is taken. -/
theorem lock {m : Bytes} (hp : A.phase = .active (.lock m))
    (hh : (s.state A.side.swap).holder = none) :
    ((s.update A.side.swap fun st =>
        { st with holder := some i, fanned := st.fanned ++ [(i, A.said.length)] }).modify i
      (·.lockStep m (s.state A.side.swap).entries)).Registry := by
  refine h.relock hA (F := (· ++ [(i, A.said.length)])) rfl rfl (by simp [hp, Agent.lockStep])
    (fun _ => by simp [hp, Phase.Live]) (by simp [Agent.lockStep]) (fun j => ?_)
    (fun hq => ?_)
  · constructor
    · rintro ⟨⟩
      exact .inl ⟨rfl, m, _, rfl⟩
    · rintro (⟨rfl, -⟩ | ⟨-, hb⟩)
      · rfl
      · have := (h.holder _ j).2 hb
        rw [hh] at this
        cases this
  · simp only [Agent.lockStep, Phase.active.injEq, Pc.fanOut.injEq] at hq
    rw [← hq.2]

/-- The broadcast is over and the lock released. -/
theorem release {m : Bytes} (hp : A.phase = .active (.fanOut m [])) :
    ((s.update A.side.swap fun st => { st with holder := none }).modify i
      (·.release m)).Registry := by
  refine h.relock hA (F := id) rfl rfl (by simp [hp, Agent.release])
    (fun _ => by simp [hp, Phase.Live]) (by simp [Agent.release])
    (fun j => ⟨nofun, ?_⟩) (fun hq => by simp [Agent.release] at hq)
  rintro (⟨-, m, q, hq⟩ | ⟨hj, hb⟩)
  · simp [Agent.release] at hq
  · have hi := (h.holder _ i).2 ⟨A, hA, rfl, m, [], hp⟩
    rw [(h.holder _ j).2 hb, Option.some.injEq] at hi
    exact absurd hi hj

end Modify

/-- A connection accepted with an address that no task of its listener has. -/
theorem accept {s : Sys Addr} (h : s.Registry) {side : Side} {addr : Addr} {socket : TcpStream}
    (had : ∀ j B, s.agents j = some B → B.side = side → B.phase.Live → B.addr ≠ addr) :
    (spawn side s addr socket).Registry := by
  have none_k : s.agents s.accepted = none := h.fresh _ le_rfl
  have back := @spawn_agents_some _ side s addr socket
  refine ⟨fun j hj => ?_, fun j j' B B' hj hj' hs hl hl' ha => ?_, fun side' a t => ?_,
    fun side' j => ?_, fun {j B' m q} hB hp => ?_, fun j B' hB => ?_⟩
  · simp only [spawn_accepted] at hj
    show Function.update s.agents s.accepted _ j = none
    rw [Function.update_noteq (by omega)]
    exact h.fresh j (by omega)
  · rcases back hj with ⟨rfl, rfl⟩ | ⟨-, h₁⟩ <;> rcases back hj' with ⟨rfl, rfl⟩ | ⟨-, h₂⟩
    · rfl
    · exact absurd ha.symm (had _ _ h₂ hs.symm hl')
    · exact absurd ha (had _ _ h₁ hs hl)
    · exact h.distinct h₁ h₂ hs hl hl' ha
  · rw [spawn_state, h.peers, Sys.Owner, Sys.Owner, exists_spawn_agents]
    constructor
    · rintro ⟨B, hB, hB'⟩
      exact .inr ⟨(fun ht => by rw [ht, none_k] at hB; cases hB), B, hB, hB'⟩
    · rintro (⟨-, -, -, hr⟩ | ⟨-, hB⟩)
      exacts [absurd hr id, hB]
  · rw [spawn_state, h.holder, Sys.Broadcasting, Sys.Broadcasting, exists_spawn_agents]
    constructor
    · rintro ⟨B, hB, hB'⟩
      exact .inr ⟨(fun ht => by rw [ht, none_k] at hB; cases hB), B, hB, hB'⟩
    · rintro (⟨-, -, m, q, hq⟩ | ⟨-, hB⟩)
      exacts [(nomatch hq), hB]
  · rcases back hB with ⟨-, rfl⟩ | ⟨-, hB⟩
    · exact nomatch hp
    · rw [spawn_state]
      exact h.pending hB hp
  · rcases back hB with ⟨-, rfl⟩ | ⟨-, hB⟩
    · exact nofun
    · exact h.calm hB

/-- Every step of a task keeps the registry. -/
theorem move {s s' : Sys Addr} (h : s.Registry) {i : Nat} {A : Agent Addr}
    (hA : s.agents i = some A) (hm : Move s i A s') : s'.Registry := by
  have own : ∀ {f : Agent Addr → Agent Addr}, Agent.Step A (f A) → A.phase.Quiet (f A).phase →
      (s.modify i f).Registry := fun hf hq => h.modify hA hf.frame.1 hf.frame.2.1 hq
  cases hm with
  | intoFuture hp => exact own (.intoFuture hp) (Agent.quiet_intoFuture hp)
  | begin hp => exact own (.begin hp) (Agent.quiet_begin hp)
  | drain hp => exact own (.drain _ hp) (Agent.quiet_drainStep hp _)
  | flush hp => exact own (.flush hp) (Agent.quiet_flushStep hp)
  | read hp => exact own (.read hp) (Agent.quiet_readStep hp)
  | skip hp => exact own (.visit hp) (Agent.quiet_visit hp)
  | free hp => exact own (.free hp) (Agent.quiet_free hp)
  | new hp hh => exact h.new hA hp hh
  | lock hp hh => exact h.lock hA hp hh
  | release hp => exact h.release hA hp
  | drop hp hh => exact h.drop hA hp hh
  | @send m a t rest B hp _ hB _ =>
    have hB₁ : (s.modify i (·.visit m rest)).agents t = some B := by
      simp [h.pending_ne hA hp, hB]
    exact (own (f := (·.visit m rest)) (.visit hp) (Agent.quiet_visit hp)).push hB₁ _
  | abort hp _ hB =>
    obtain ⟨B, hB', hrx⟩ := h.send_ok hA hp
    exact absurd hrx (hB B hB')

end Sys.Registry

/-- The registry invariant holds in every reachable state. -/
theorem Sys.Reachable.registry {s : Sys Addr} (hs : s.Reachable) : s.Registry :=
  hs.invariant .init (fun _ h had => h.accept had) fun _ h hA hm => h.move hA hm

/-- The registry in every reachable state.  Each listener's map holds exactly the tasks of
that listener that have run `new` and have not been dropped, each under its own address and
with the transmit half of its own channel, whose receiver is alive; a connection that ended
before its first line has no entry; `Drop` removes the entry of its own task and no other;
and in a fan-out loop every `unbounded_send` finds its receiver, so that no task panics. -/
theorem registry_exact {s : Sys Addr} (hs : s.Reachable) :
    (∀ side a t, (s.state side).peers.lookup a = some t ↔
      ∃ B, s.agents t = some B ∧ B.side = side ∧ B.addr = a ∧ B.phase.Registered) ∧
    (∀ side a t, (s.state side).peers.lookup a = some t →
      ∃ B, s.agents t = some B ∧ B.phase.HasRx) ∧
    (∀ t B, s.agents t = some B → B.name = none →
      ∀ side a, (s.state side).peers.lookup a ≠ some t) ∧
    (∀ i A s', s.agents i = some A → A.phase.Registered → Peer.drop A.side s i A = some s' →
      ∀ side a t, (s'.state side).peers.lookup a = some t ↔
        (s.state side).peers.lookup a = some t ∧ t ≠ i) ∧
    (∀ i A m a t rest, s.agents i = some A → A.phase = .active (.fanOut m ((a, t) :: rest)) →
      ∃ B, s.agents t = some B ∧ B.phase.HasRx) ∧
    (∀ i A, s.agents i = some A → ∀ m, A.phase ≠ .panicked m) := by
  have h := hs.registry
  refine ⟨h.peers, fun side a t ht => ?_, fun t B hB hn side a ht => ?_,
    fun i A s' hA hr hd => ?_, fun i A m a t rest hA hp => h.send_ok hA hp, h.calm⟩
  · obtain ⟨B, hB, -, -, hr⟩ := (h.peers side a t).1 ht
    exact ⟨B, hB, hr.hasRx⟩
  · obtain ⟨B', hB', -, -, hr⟩ := (h.peers side a t).1 ht
    rw [hB] at hB'
    cases hB'
    rcases ((hs.inbound hB).unnamed hn).2 with hp | hp <;> rw [hp] at hr <;> exact hr
  · simp only [Peer.drop] at hd
    split at hd
    · cases hd
      intro side a t
      have hi : (s.state side).peers.lookup a = some i → A.side = side ∧ A.addr = a := fun hl =>
        (Sys.owner_self hA ((h.peers side a i).1 hl)).imp_right And.left
      rw [Sys.modify_state]
      by_cases hside : side = A.side
      · subst hside
        simp only [Sys.update_state_self]
        by_cases ha : a = A.addr
        · subst ha
          rw [AList.lookup_erase]
          refine ⟨nofun, fun ⟨hl, ht⟩ => absurd ?_ ht⟩
          obtain ⟨B, hB, hs, ha, hr'⟩ := (h.peers _ _ t).1 hl
          exact h.distinct hB hA hs hr'.live hr.live ha
        · rw [AList.lookup_erase_ne ha]
          exact ⟨fun hl => ⟨hl, fun ht => ha (hi (ht ▸ hl)).2.symm⟩, And.left⟩
      · rw [Sys.update_state_of_ne _ _ hside]
        exact ⟨fun hl => ⟨hl, fun ht => hside (hi (ht ▸ hl)).1.symm⟩, And.left⟩
    · cases hd

/-- The registry of `relayed`, where `q` and `p` are both in their maps. -/
theorem registry_exact_relayed :
    relayed.Reachable ∧
    ((∀ side a t, (relayed.state side).peers.lookup a = some t ↔
      ∃ B, relayed.agents t = some B ∧ B.side = side ∧ B.addr = a ∧ B.phase.Registered) ∧
    (∀ side a t, (relayed.state side).peers.lookup a = some t →
      ∃ B, relayed.agents t = some B ∧ B.phase.HasRx) ∧
    (∀ t B, relayed.agents t = some B → B.name = none →
      ∀ side a, (relayed.state side).peers.lookup a ≠ some t) ∧
    (∀ i A s', relayed.agents i = some A → A.phase.Registered →
      Peer.drop A.side relayed i A = some s' →
      ∀ side a t, (s'.state side).peers.lookup a = some t ↔
        (relayed.state side).peers.lookup a = some t ∧ t ≠ i) ∧
    (∀ i A m a t rest, relayed.agents i = some A →
      A.phase = .active (.fanOut m ((a, t) :: rest)) →
      ∃ B, relayed.agents t = some B ∧ B.phase.HasRx) ∧
    (∀ i A, relayed.agents i = some A → ∀ m, A.phase ≠ .panicked m)) :=
  ⟨.relayed, registry_exact .relayed⟩

end DoubleServer
