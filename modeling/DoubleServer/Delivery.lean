import DoubleServer.Order

/-!
# Who receives a line

`CPeer::poll` sends each line it reads to every entry of the other listener's map, but an entry
under its own address, and holds the map's lock for the whole loop.  Three invariants say what
that gives, in every reachable state:

* `Sys.Relays`: every message on a channel is `name: line\r\n` for the line of the broadcast
  that sent it, under the sender's name;
* `Sys.InOrder`: the broadcasts of one task enter a map in the order of its lines;
* `Sys.Delivers`: a broadcast in progress has sent its line, once, on the channel of every entry
  of the map it has visited, but an entry under the broadcaster's own address.

From them, `fanout_delivers`: when a broadcast releases the lock, every task in the map, but one
under the broadcaster's address, has received the line exactly once; `broadcast_keeps_map`: no
step changes the map while a broadcast holds its lock, so these are the tasks that were in the
map when the lock was taken; and `relayed_in_order`: the lines of one task reach a channel in
the order the task read them, each at most once.  The entry the loop passes over is under the
broadcaster's address in the *other* listener's map, where the broadcaster never is:
`twin_address_missed` is a run where it is another task's entry.
-/

namespace DoubleServer

open scoped List

variable {Addr : Type}

namespace Agent

/-- The lines of a task's broadcasts, in order: those done and the one in progress. -/
def broadcasts (A : Agent Addr) : List Bytes := A.said ++ inFlight A.phase

@[simp] theorem broadcasts_push (A : Agent Addr) (m : Msg) :
    (A.push m).broadcasts = A.broadcasts := rfl

/-- A task's own steps only add to its lines. -/
theorem Step.broadcasts {A A' : Agent Addr} (h : Step A A') : A.broadcasts <+: A'.broadcasts := by
  cases h with
  | intoFuture hp =>
    rcases hr : (A.lines.poll).1 with (_ | x) | _ | _ <;>
      simp [Agent.broadcasts, Agent.intoFuture, inFlight, hr, hp]
  | drain _ hp =>
    unfold drainStep
    split <;> (try split) <;> simp [Agent.broadcasts, inFlight, hp]
  | flush hp =>
    rcases hr : (A.lines.pollFlush).1 with _ | (_ | _ | _) <;>
      simp [Agent.broadcasts, Agent.flushStep, inFlight, hr, hp]
  | read hp =>
    rcases hr : (A.lines.poll).1 with (_ | x) | _ | _ <;>
      simp [Agent.broadcasts, Agent.readStep, inFlight, hr, hp]
  | release hp => simp [Agent.broadcasts, Agent.release, inFlight, hp]
  | join hp | begin hp | lock _ hp | visit hp | abort hp | dropped hp | free hp =>
    simp [Agent.broadcasts, Agent.join, Agent.begin, Agent.lockStep, Agent.visit, Agent.abort,
      Agent.dropped, Agent.free, inFlight, hp]

/-- Only `into_future` names a task. -/
theorem Step.name {A A' : Agent Addr} (h : Step A A') : A'.name = A.name ∨ A.phase = .naming := by
  cases h with
  | intoFuture hp => exact .inr hp
  | drain =>
    left
    unfold drainStep
    split <;> (try split) <;> rfl
  | _ => exact .inl rfl

/-- A task that is still waiting for its name has broadcast nothing. -/
theorem Inbound.broadcasts_naming {A : Agent Addr} (h : A.Inbound) (hp : A.phase = .naming) :
    A.broadcasts = [] := by
  simp [Agent.broadcasts, (h.unnamed (h.naming hp)).1, hp, inFlight]

/-- Once a task has lines, its steps keep its name. -/
theorem Inbound.line_step {A A' : Agent Addr} (h : A.Inbound) (hs : Step A A')
    (hb : A.broadcasts ≠ []) : A'.name = A.name :=
  hs.name.resolve_right fun hp => hb (h.broadcasts_naming hp)

end Agent

namespace Sys

/-- Every message on a channel is the line `name: line\r\n` of the broadcast that sent it. -/
def Relays (s : Sys Addr) : Prop :=
  ∀ ⦃j Q⦄, s.agents j = some Q → ∀ msg ∈ Q.inbox, ∃ P, s.agents msg.origin.1 = some P ∧
    P.broadcasts[msg.origin.2]?.map P.line = some msg.bytes

/-- The broadcasts of each task enter each map in the order of its lines. -/
def InOrder (s : Sys Addr) : Prop :=
  ∀ side i, (((s.state side).fanned.filter (·.1 = i)).map Prod.snd).Pairwise (· < ·)

/-- A broadcast in progress has sent its line, once, on the channel of every entry of the map it
has visited, but an entry under its own address. -/
def Delivers (s : Sys Addr) : Prop :=
  ∀ ⦃i P m q⦄, s.agents i = some P → P.phase = .active (.fanOut m q) →
    ∃ v, (s.state P.side.swap).entries = v ++ q ∧ ∀ e ∈ v, e.1 ≠ P.addr →
      ∃ Q, s.agents e.2 = some Q ∧
        Q.inbox.filter (·.origin = (i, P.said.length)) = [⟨P.line m, (i, P.said.length)⟩]

end Sys

/-! ## Every message is the line it stands for -/

namespace Sys.Relays

theorem init : (Sys.init : Sys Addr).Relays := fun _ _ h => by cases h

theorem of_agents {s s₀ : Sys Addr} (h : s.Relays) (hag : s₀.agents = s.agents) : s₀.Relays := by
  intro j Q hQ
  rw [hag] at hQ ⊢
  exact h hQ

section Modify

variable {s : Sys Addr} {i : Nat} {A : Agent Addr} (hA : s.agents i = some A)
  {f : Agent Addr → Agent Addr} (hb : A.broadcasts <+: (f A).broadcasts)
  (hname : A.broadcasts ≠ [] → (f A).name = A.name)
include hA hb hname

/-- A change of task `i` that extends its lines, under the same name once it has some, leaves
every sender's lines where they were. -/
theorem lift {j : Nat} {P : Agent Addr} (hP : s.agents j = some P) {k : Nat} {b : Bytes}
    (hk : P.broadcasts[k]?.map P.line = some b) :
    ∃ P', (s.modify i f).agents j = some P' ∧ P'.broadcasts[k]?.map P'.line = some b := by
  by_cases hj : j = i
  · subst hj
    rw [hA] at hP
    cases hP
    obtain ⟨x, hx, rfl⟩ := Option.map_eq_some'.1 hk
    have hne : A.broadcasts ≠ [] := fun he => by simp [he] at hx
    obtain ⟨t, ht⟩ := hb
    refine ⟨f A, by simp [hA], ?_⟩
    rw [← ht, List.getElem?_append_left (List.getElem?_eq_some_iff.1 hx).1, hx]
    simp [Agent.line, hname hne]
  · exact ⟨P, by simp [hj, hP], hk⟩

theorem modify (h : s.Relays) (hin : (f A).inbox = A.inbox) : (s.modify i f).Relays := by
  intro j Q' hQ' msg hmsg
  obtain ⟨Q, hQ, hq⟩ : ∃ Q, s.agents j = some Q ∧ Q'.inbox = Q.inbox := by
    rcases Sys.modify_agents_some hA hQ' with ⟨rfl, rfl⟩ | ⟨-, hQ⟩
    exacts [⟨A, hA, hin⟩, ⟨Q', hQ, rfl⟩]
  obtain ⟨P, hP, hk⟩ := h hQ msg (hq ▸ hmsg)
  exact lift hA hb hname hP hk

end Modify

/-- The line `b` of task `i`'s broadcast `k` sent on task `t`'s channel. -/
theorem push {s : Sys Addr} (h : s.Relays) {t : Nat} {B : Agent Addr} (hB : s.agents t = some B)
    {i k : Nat} {P : Agent Addr} (hP : s.agents i = some P) {b : Bytes}
    (hk : P.broadcasts[k]? = some b) : (s.modify t (·.push ⟨P.line b, (i, k)⟩)).Relays := by
  intro j Q' hQ' msg hmsg
  suffices ∃ P₀, s.agents msg.origin.1 = some P₀ ∧
      P₀.broadcasts[msg.origin.2]?.map P₀.line = some msg.bytes by
    obtain ⟨P₀, hP₀, hk₀⟩ := this
    exact lift (f := (·.push ⟨P.line b, (i, k)⟩)) hB (List.prefix_refl _) (fun _ => rfl) hP₀ hk₀
  rcases Sys.modify_agents_some hB hQ' with ⟨rfl, rfl⟩ | ⟨-, hQ⟩
  · rcases List.mem_append.1 hmsg with hmsg | hmsg
    · exact h hB msg hmsg
    · rw [List.mem_singleton.1 hmsg]
      exact ⟨P, hP, by simp [hk]⟩
  · exact h hQ msg hmsg

theorem spawn {s : Sys Addr} (h : s.Relays) (hfresh : s.agents s.accepted = none) (side : Side)
    (addr : Addr) (socket : TcpStream) : (DoubleServer.spawn side s addr socket).Relays := by
  intro j Q hQ msg hmsg
  rcases spawn_agents_some _ _ _ _ hQ with ⟨-, rfl⟩ | ⟨-, hQ⟩
  · cases hmsg
  · obtain ⟨P, hP, hk⟩ := h hQ msg hmsg
    exact ⟨P, spawn_agents_of_some _ _ _ _ hfresh hP, hk⟩

end Sys.Relays

/-! ## The broadcasts of one task enter a map in order -/

namespace Sys.InOrder

theorem init : (Sys.init : Sys Addr).InOrder := fun side _ => by
  cases side <;> simp [Sys.init, Sys.state]

theorem of_fanned {s s₀ : Sys Addr} (h : s.InOrder)
    (hf : ∀ side, (s₀.state side).fanned = (s.state side).fanned) : s₀.InOrder := fun side i => by
  rw [hf]
  exact h side i

/-- Broadcast `k` of task `i` enters the map of `side` after every earlier one of the task. -/
theorem lock {s : Sys Addr} (h : s.InOrder) {side : Side} {i k : Nat}
    (hk : ∀ k', (i, k') ∈ (s.state side).fanned → k' < k) {g : Shared Addr → Shared Addr}
    (hg : ∀ st, (g st).fanned = st.fanned ++ [(i, k)]) : (s.update side g).InOrder := by
  intro side' j
  by_cases hside : side' = side
  · subst hside
    rw [Sys.update_state_self, hg, List.filter_append, List.map_append, List.pairwise_append]
    refine ⟨h _ j, (List.pairwise_singleton _ _).sublist ((List.filter_sublist _).map _),
      fun a ha b hb => ?_⟩
    simp only [List.mem_map, List.mem_filter, List.mem_singleton, decide_eq_true_eq] at ha hb
    obtain ⟨_, ⟨rfl, rfl⟩, rfl⟩ := hb
    obtain ⟨⟨x, a⟩, ⟨hmem, rfl⟩, rfl⟩ := ha
    exact hk a hmem
  · rw [Sys.update_state_of_ne _ _ hside]
    exact h side' j

end Sys.InOrder

/-! ## A broadcast reaches every entry it visits -/

namespace Sys

/-- A change of task `i` that keeps its channel keeps every channel. -/
theorem exists_modify_inbox {s : Sys Addr} {i : Nat} {A : Agent Addr} (hA : s.agents i = some A)
    {f : Agent Addr → Agent Addr} (hin : (f A).inbox = A.inbox) {t : Nat} {Q : Agent Addr}
    (hQ : s.agents t = some Q) : ∃ Q', (s.modify i f).agents t = some Q' ∧ Q'.inbox = Q.inbox := by
  by_cases ht : t = i
  · subst ht
    rw [hA] at hQ
    cases hQ
    exact ⟨f A, by simp [hA], hin⟩
  · exact ⟨Q, by simp [ht, hQ], rfl⟩

end Sys

namespace Sys.Delivers

theorem init : (Sys.init : Sys Addr).Delivers := fun _ _ _ _ h => by cases h

theorem of_shared {s s₀ : Sys Addr} (h : s.Delivers) (hag : s₀.agents = s.agents)
    (he : ∀ side, (s₀.state side).entries = (s.state side).entries) : s₀.Delivers := by
  intro i P m q hP hp
  rw [hag] at hP ⊢
  rw [he]
  exact h hP hp

section Modify

variable {s : Sys Addr} (h : s.Delivers) {i : Nat} {A : Agent Addr} (hA : s.agents i = some A)
  {f : Agent Addr → Agent Addr}
include h hA

/-- A step of task `i` that keeps its channel, its listener and its address; if the task is
inside a broadcast afterwards, `hfan` says what the broadcast has delivered. -/
theorem modify (hin : (f A).inbox = A.inbox) (hs : (f A).side = A.side) (ha : (f A).addr = A.addr)
    (hfan : ∀ {m q}, (f A).phase = .active (.fanOut m q) →
      ∃ v, (s.state A.side.swap).entries = v ++ q ∧ ∀ e ∈ v, e.1 ≠ A.addr →
        ∃ Q, s.agents e.2 = some Q ∧ Q.inbox.filter (·.origin = (i, (f A).said.length)) =
          [⟨(f A).line m, (i, (f A).said.length)⟩]) :
    (s.modify i f).Delivers := by
  have lift : ∀ {v : List (Addr × Nat)} {P : Agent Addr} {m : Bytes} {k : Nat} {x : Addr},
      (∀ e ∈ v, e.1 ≠ x → ∃ Q, s.agents e.2 = some Q ∧
        Q.inbox.filter (·.origin = (k, P.said.length)) = [⟨P.line m, (k, P.said.length)⟩]) →
      ∀ e ∈ v, e.1 ≠ x → ∃ Q, (s.modify i f).agents e.2 = some Q ∧
        Q.inbox.filter (·.origin = (k, P.said.length)) = [⟨P.line m, (k, P.said.length)⟩] :=
    fun hd e he hne => by
      obtain ⟨Q, hQ, hf⟩ := hd e he hne
      obtain ⟨Q', hQ', hq⟩ := Sys.exists_modify_inbox hA hin hQ
      exact ⟨Q', hQ', hq ▸ hf⟩
  intro j P' m q hP' hp
  rw [Sys.modify_state]
  rcases Sys.modify_agents_some hA hP' with ⟨rfl, rfl⟩ | ⟨-, hP⟩
  · obtain ⟨v, hv, hd⟩ := hfan hp
    exact ⟨v, hs ▸ hv, ha ▸ lift hd⟩
  · obtain ⟨v, hv, hd⟩ := h hP hp
    exact ⟨v, hv, lift hd⟩

/-- A step of task `i` that keeps its channel and is outside any broadcast afterwards. -/
theorem quiet (hin : (f A).inbox = A.inbox) (hs : (f A).side = A.side) (ha : (f A).addr = A.addr)
    (hfan : ∀ m q, (f A).phase ≠ .active (.fanOut m q)) : (s.modify i f).Delivers :=
  h.modify hA hin hs ha fun hp => absurd hp (hfan _ _)

/-- The entry under the task's own address is passed over. -/
theorem skip {m : Bytes} {a : Addr} {t : Nat} {rest : List (Addr × Nat)}
    (hp : A.phase = .active (.fanOut m ((a, t) :: rest))) (ha : a = A.addr) :
    (s.modify i (·.visit m rest)).Delivers := by
  refine h.modify hA rfl rfl rfl fun hp' => ?_
  simp only [Agent.visit, Phase.active.injEq, Pc.fanOut.injEq] at hp'
  obtain ⟨rfl, rfl⟩ := hp'
  obtain ⟨v, hv, hd⟩ := h hA hp
  refine ⟨v ++ [(a, t)], by simp [hv], fun e he hne => ?_⟩
  rcases List.mem_append.1 he with he | he
  · exact hd e he hne
  · exact absurd (by rw [List.mem_singleton.1 he, ha]) hne

end Modify

/-- The lock of the other map is taken: the broadcast has visited nothing yet. -/
theorem lock {s : Sys Addr} (h : s.Delivers) {i : Nat} {A : Agent Addr} (hA : s.agents i = some A)
    {m : Bytes} {o : Option Nat} {F : List (Nat × Nat) → List (Nat × Nat)} :
    ((s.update A.side.swap fun st => { st with holder := o, fanned := F st.fanned }).modify i
      (·.lockStep m (s.state A.side.swap).entries)).Delivers := by
  have he : ∀ side, ((s.update A.side.swap fun st =>
      { st with holder := o, fanned := F st.fanned }).state side).entries =
      (s.state side).entries := Sys.update_entries s (by intro; rfl)
  refine (h.of_shared (Sys.update_agents ..) he).modify (by simpa using hA) rfl rfl rfl
    fun hp => ?_
  simp only [Agent.lockStep, Phase.active.injEq, Pc.fanOut.injEq] at hp
  exact ⟨[], by rw [he, ← hp.2, List.nil_append], nofun⟩

/-- The line sent on the channel of the entry `(a, t)`, which has no message of this broadcast
yet. -/
theorem send {s : Sys Addr} (h : s.Delivers) {i : Nat} {A : Agent Addr} (hA : s.agents i = some A)
    {m : Bytes} {a : Addr} {t : Nat} {rest : List (Addr × Nat)}
    (hp : A.phase = .active (.fanOut m ((a, t) :: rest))) {B : Agent Addr}
    (hB : s.agents t = some B) (hti : t ≠ i)
    (hnew : ∀ msg ∈ B.inbox, msg.origin ≠ (i, A.said.length)) :
    ((s.modify i (·.visit m rest)).modify t (·.push ⟨A.line m, (i, A.said.length)⟩)).Delivers := by
  set msg : Msg := ⟨A.line m, (i, A.said.length)⟩
  set s' := (s.modify i (·.visit m rest)).modify t (·.push msg)
  have hB' : s'.agents t = some (B.push msg) := by simp [s', hti, hB]
  have hnil : B.inbox.filter (·.origin = (i, A.said.length)) = [] :=
    List.filter_eq_nil_iff.2 fun x hx => by simpa using hnew x hx
  /- What every task becomes: the same channel, or `t` with the message added. -/
  have lift : ∀ {u Q}, s.agents u = some Q → ∃ Q', s'.agents u = some Q' ∧
      (Q'.inbox = Q.inbox ∨ u = t ∧ Q = B ∧ Q'.inbox = Q.inbox ++ [msg]) := fun {u Q} hQ => by
    by_cases hu : u = t
    · subst hu
      rw [hB] at hQ
      cases hQ
      exact ⟨_, hB', .inr ⟨rfl, rfl, rfl⟩⟩
    · obtain ⟨Q', hQ', hq⟩ := Sys.exists_modify_inbox hA (f := (·.visit m rest)) rfl hQ
      exact ⟨Q', by simpa [s', hu] using hQ', .inl hq⟩
  have hstate : ∀ side, s'.state side = s.state side := by simp [s']
  intro j P' m' q hP' hp'
  rw [hstate]
  by_cases hj : j = i
  · subst hj
    simp only [s', Sys.modify_agents_of_ne _ _ (Ne.symm hti), Sys.modify_agents_self, hA,
      Option.map_some', Option.some.injEq] at hP'
    subst hP'
    simp only [Agent.visit, Phase.active.injEq, Pc.fanOut.injEq] at hp'
    obtain ⟨rfl, rfl⟩ := hp'
    obtain ⟨v, hv, hd⟩ := h hA hp
    refine ⟨v ++ [(a, t)], by simp [hv, Agent.visit], fun e he hne => ?_⟩
    rcases List.mem_append.1 he with he | he
    · obtain ⟨Q, hQ, hf⟩ := hd e he hne
      obtain ⟨Q', hQ', hq | ⟨-, hQB, -⟩⟩ := lift hQ
      · exact ⟨Q', hQ', hq ▸ hf⟩
      · rw [hQB, hnil] at hf
        cases hf
    · rw [List.mem_singleton.1 he]
      exact ⟨_, hB', by simp [hnil, msg, Agent.visit, Agent.line]⟩
  · obtain ⟨P, hP, hPP⟩ : ∃ P, s.agents j = some P ∧ P'.phase = P.phase ∧ P'.side = P.side ∧
        P'.said = P.said ∧ P'.addr = P.addr ∧ P'.line = P.line := by
      by_cases hjt : j = t
      · subst hjt
        rw [hB'] at hP'
        cases hP'
        exact ⟨B, hB, rfl, rfl, rfl, rfl, rfl⟩
      · exact ⟨P', by simpa [s', hj, hjt] using hP', rfl, rfl, rfl, rfl, rfl⟩
    obtain ⟨hph, hsd, hsaid, had, hline⟩ := hPP
    obtain ⟨v, hv, hd⟩ := h hP (hph ▸ hp')
    refine ⟨v, by rw [hsd, hv], fun e he hne => ?_⟩
    obtain ⟨Q, hQ, hf⟩ := hd e he (had ▸ hne)
    obtain ⟨Q', hQ', hq | ⟨-, -, hq⟩⟩ := lift hQ
    · exact ⟨Q', hQ', by rw [hq, hsaid, hline, hf]⟩
    · refine ⟨Q', hQ', ?_⟩
      rw [hq, List.filter_append, hsaid, hline, hf]
      simp [msg, Ne.symm hj]

theorem spawn {s : Sys Addr} (h : s.Delivers) (hfresh : s.agents s.accepted = none) (side : Side)
    (addr : Addr) (socket : TcpStream) : (DoubleServer.spawn side s addr socket).Delivers := by
  intro i P m q hP hp
  rcases spawn_agents_some _ _ _ _ hP with ⟨-, rfl⟩ | ⟨-, hP⟩
  · cases hp
  obtain ⟨v, hv, hd⟩ := h hP hp
  refine ⟨v, by rw [spawn_state, hv], fun e he hne => ?_⟩
  obtain ⟨Q, hQ, hf⟩ := hd e he hne
  exact ⟨Q, spawn_agents_of_some _ _ _ _ hfresh hQ, hf⟩

/-- `CPeer::new` and `Drop` change the map of a listener no task broadcasts into. -/
theorem update_peers {s : Sys Addr} (h : s.Delivers) {side : Side}
    (hno : ∀ ⦃i P m q⦄, s.agents i = some P → P.phase = .active (.fanOut m q) → P.side.swap ≠ side)
    (g : AList (fun _ : Addr => Nat) → AList (fun _ : Addr => Nat)) :
    (s.update side fun st => { st with peers := g st.peers }).Delivers := by
  intro i P m q hP hp
  rw [Sys.update_agents] at hP ⊢
  rw [Sys.update_state_of_ne _ _ (hno hP hp)]
  exact h hP hp

end Sys.Delivers

/-! ## Every step keeps them -/

variable [DecidableEq Addr]

theorem Sys.Relays.move {s s' : Sys Addr} (hs : s.Reachable) (h : s.Relays) {i : Nat}
    {A : Agent Addr} (hA : s.agents i = some A) (hm : Move s i A s') : s'.Relays := by
  have hin := hs.inbound hA
  have own : ∀ {s₀ : Sys Addr} {f : Agent Addr → Agent Addr}, s₀.agents = s.agents →
      Agent.Step A (f A) → (s₀.modify i f).Relays := fun hag hf =>
    (h.of_agents hag).modify (hag ▸ hA) hf.broadcasts (hin.line_step hf) hf.frame.2.2
  cases hm with
  | intoFuture hp => exact own rfl (.intoFuture hp)
  | new hp => exact own (by simp) (.join hp)
  | begin hp => exact own rfl (.begin hp)
  | drain hp => exact own rfl (.drain _ hp)
  | flush hp => exact own rfl (.flush hp)
  | read hp => exact own rfl (.read hp)
  | lock hp => exact own (by simp) (.lock _ hp)
  | skip hp => exact own rfl (.visit hp)
  | abort hp => exact own rfl (.abort hp)
  | release hp => exact own (by simp) (.release hp)
  | drop hp => exact own (by simp) (.dropped hp)
  | free hp => exact own rfl (.free hp)
  | @send m a t rest B hp _ hB _ =>
    have hB₁ : (s.modify i (·.visit m rest)).agents t = some B := by
      simp [hs.registry.pending_ne hA hp, hB]
    exact (own rfl (.visit hp)).push hB₁ (P := A.visit m rest) (by simp [hA]) (b := m)
      (k := A.said.length) (by simp [Agent.broadcasts, Agent.visit, Agent.inFlight])

theorem Sys.InOrder.move {s s' : Sys Addr} (hs : s.Reachable) (h : s.InOrder) {i : Nat}
    {A : Agent Addr} (hA : s.agents i = some A) (hm : Move s i A s') : s'.InOrder := by
  have keep : ∀ {s₀ : Sys Addr} {f : Agent Addr → Agent Addr},
      (∀ side, (s₀.state side).fanned = (s.state side).fanned) → (s₀.modify i f).InOrder :=
    fun hf => h.of_fanned fun side => by rw [Sys.modify_state, hf]
  cases hm with
  | @lock m hp hh =>
    have hk : ∀ k, (i, k) ∈ (s.state A.side.swap).fanned → k < A.said.length := fun k hk => by
      obtain ⟨B, hB, -, hk⟩ := hs.ordered.fanned _ hk
      rw [hA] at hB
      cases hB
      exact hk.resolve_right fun ⟨_, h'⟩ => by rw [hh] at h'; cases h'
    exact (h.lock hk (g := fun st =>
      { st with holder := some i, fanned := st.fanned ++ [(i, A.said.length)] }) fun _ => rfl).of_fanned
      fun side => by rw [Sys.modify_state]
  | send => exact h.of_fanned fun side => by simp
  | new | drop | release => exact keep (Sys.update_fanned _ fun _ => rfl)
  | _ => exact keep fun _ => rfl

theorem Sys.Delivers.move {s s' : Sys Addr} (hs : s.Reachable) (h : s.Delivers) {i : Nat}
    {A : Agent Addr} (hA : s.agents i = some A) (hm : Move s i A s') : s'.Delivers := by
  have hr := hs.registry
  have quiet : ∀ {s₀ : Sys Addr} {f : Agent Addr → Agent Addr}, s₀.Delivers →
      s₀.agents = s.agents → Agent.Step A (f A) → (∀ m q, (f A).phase ≠ .active (.fanOut m q)) →
      (s₀.modify i f).Delivers := fun h₀ hag hf hfan =>
    h₀.quiet (hag ▸ hA) hf.frame.2.2 hf.frame.1 hf.frame.2.1 hfan
  have still : ∀ {A' : Agent Addr}, A.phase.Quiet A'.phase →
      (∀ m q, A.phase ≠ .active (.fanOut m q)) → ∀ m q, A'.phase ≠ .active (.fanOut m q) :=
    fun hq hA' _ _ h' => by
      obtain ⟨_, hp', -⟩ := hq.fanOut h'
      exact hA' _ _ hp'
  /- No task broadcasts into a map whose lock is free. -/
  have hno : (s.state A.side).holder = none → ∀ ⦃j P m q⦄, s.agents j = some P →
      P.phase = .active (.fanOut m q) → P.side.swap ≠ A.side := fun hh j P m q hP hp he => by
    have := (hr.holder _ j).2 ⟨P, hP, he, m, q, hp⟩
    rw [hh] at this
    cases this
  cases hm with
  | intoFuture hp =>
    exact quiet h rfl (.intoFuture hp) (still (Agent.quiet_intoFuture hp) (by simp [hp]))
  | begin hp => exact quiet h rfl (.begin hp) (still (Agent.quiet_begin hp) (by simp [hp]))
  | drain hp =>
    exact quiet h rfl (.drain _ hp) (still (Agent.quiet_drainStep hp _) (by simp [hp]))
  | flush hp => exact quiet h rfl (.flush hp) (still (Agent.quiet_flushStep hp) (by simp [hp]))
  | read hp => exact quiet h rfl (.read hp) (still (Agent.quiet_readStep hp) (by simp [hp]))
  | free hp => exact quiet h rfl (.free hp) (still (Agent.quiet_free hp) (by simp [hp]))
  | abort hp => exact quiet h rfl (.abort hp) (by simp [Agent.abort])
  | new hp hh =>
    exact quiet (h.update_peers (hno hh) _) (by simp) (.join hp) (by simp [Agent.join])
  | drop hp hh =>
    exact quiet (h.update_peers (hno hh) _) (by simp) (.dropped hp) (by simp [Agent.dropped])
  | release hp =>
    exact quiet (h.of_shared (by simp) (Sys.update_entries _ fun _ => rfl)) (by simp)
      (.release hp) (by simp [Agent.release])
  | lock => exact h.lock hA (o := some i) (F := (· ++ [(i, A.said.length)]))
  | skip hp ha => exact h.skip hA hp ha
  | @send m a t rest B hp _ hB _ =>
    refine h.send hA hp hB (hr.pending_ne hA hp) fun msg hmsg ho => ?_
    exact (hs.ordered.current hA hp).2 (a, t) (List.mem_cons_self _ _) B hB
      (ho ▸ List.mem_map_of_mem _ hmsg)

theorem Sys.Reachable.relays {s : Sys Addr} (hs : s.Reachable) : s.Relays :=
  hs.invariant .init (fun hs h _ => h.spawn (hs.registry.fresh _ le_rfl) _ _ _)
    fun hs h hA hm => h.move hs hA hm

theorem Sys.Reachable.inOrder {s : Sys Addr} (hs : s.Reachable) : s.InOrder :=
  hs.invariant .init (fun _ h _ => h.of_fanned fun _ => by rw [spawn_state])
    fun hs h hA hm => h.move hs hA hm

theorem Sys.Reachable.delivers {s : Sys Addr} (hs : s.Reachable) : s.Delivers :=
  hs.invariant .init (fun hs h _ => h.spawn (hs.registry.fresh _ le_rfl) _ _ _)
    fun hs h hA hm => h.move hs hA hm

/-! ## Who receives a line -/

/-- `relayed`'s run, stopped when `p` has sent `hi` to `q` and is about to release the lock of the
go map. -/
def relaying : Sys Nat :=
  ((cProcess (goProcess Sys.init 8 relayQ) 7 relayP).run ((relayTasks.take 10).map .run)).get
    (by decide)

theorem Sys.Reachable.relaying : relaying.Reachable :=
  (Reachable.relayStart 8).run_tasks (Option.some_get _).symm

/-- `p` in `relaying`. -/
def relayingP : Agent Nat := (relaying.agents 1).get (by decide)

/-- When a broadcast has visited the whole of the other listener's map and is about to release
its lock, every task in the map, but one under the broadcaster's own address, has received the
line `name: m\r\n` exactly once. -/
theorem fanout_delivers {s : Sys Addr} (hs : s.Reachable) {i : Nat} {P : Agent Addr} {m : Bytes}
    (hP : s.agents i = some P) (hp : P.phase = .active (.fanOut m [])) {a : Addr} {t : Nat}
    (ht : (s.state P.side.swap).peers.lookup a = some t) (ha : a ≠ P.addr) :
    ∃ Q, s.agents t = some Q ∧ Q.side = P.side.swap ∧ Q.addr = a ∧
      Q.inbox.filter (·.origin = (i, P.said.length)) = [⟨P.line m, (i, P.said.length)⟩] := by
  obtain ⟨v, hv, hd⟩ := hs.delivers hP hp
  obtain ⟨Q, hQ, hf⟩ := hd (a, t) (by simpa [hv] using Shared.mem_entries.2 ht) ha
  obtain ⟨B, hB, hside, haddr, -⟩ := (hs.registry.peers _ _ _).1 ht
  rw [hQ] at hB
  cases hB
  exact ⟨Q, hQ, hside, haddr, hf⟩

/-- In `relaying`, `q` (task 0, at address 8) has `p`'s line `p: hi\r\n` once. -/
theorem fanout_delivers_relaying :
    relaying.Reachable ∧ relaying.agents 1 = some relayingP ∧
      relayingP.phase = .active (.fanOut [104, 105] []) ∧
      (relaying.state relayingP.side.swap).peers.lookup 8 = some 0 ∧ 8 ≠ relayingP.addr ∧
      ∃ Q, relaying.agents 0 = some Q ∧ Q.side = relayingP.side.swap ∧ Q.addr = 8 ∧
        Q.inbox.filter (·.origin = (1, relayingP.said.length)) =
          [⟨relayingP.line [104, 105], (1, relayingP.said.length)⟩] :=
  ⟨.relaying, by decide, by decide, by decide, by decide,
    fanout_delivers .relaying (i := 1) (by decide) (by decide) (by decide) (by decide)⟩

/-- While a task broadcasts into the other listener's map, no step of the server changes the
map: `CPeer::new` and `Drop` wait for the lock the broadcast holds.  The tasks in the map when
the broadcast releases the lock are those that were there when it took it. -/
theorem broadcast_keeps_map {s s' : Sys Addr} (hs : s.Reachable) {i : Nat} {P : Agent Addr}
    {m : Bytes} {q : List (Addr × Nat)} (hP : s.agents i = some P)
    (hp : P.phase = .active (.fanOut m q)) {a : Action Addr} (h : s.step a = some s') :
    (s'.state P.side.swap).peers = (s.state P.side.swap).peers := by
  have hholder := (hs.registry.holder _ i).2 ⟨P, hP, rfl, m, q, hp⟩
  cases a with
  | accept side addr ins outs =>
    rw [Sys.step_accept] at h
    cases h
    rw [spawn_state]
  | run j =>
    obtain ⟨B, -, hm⟩ := Sys.step_run_move h
    have rekey : (s.state B.side).holder = none → ∀ (g : Shared Addr → Shared Addr)
        (f : Agent Addr → Agent Addr),
        (((s.update B.side g).modify j f).state P.side.swap).peers = (s.state P.side.swap).peers :=
      fun hh g f => by
        rw [Sys.modify_state, Sys.update_state_of_ne]
        rintro he
        rw [← he, hholder] at hh
        cases hh
    cases hm with
    | new _ hh | drop _ hh => exact rekey hh _ _
    | lock | release =>
      rw [Sys.modify_state]
      exact Sys.update_peers_eq _ (by intro; rfl) _
    | send => simp
    | _ => rw [Sys.modify_state]

/-- In `relaying`, a client connecting to the go listener while `p` broadcasts leaves the go map
as it was. -/
theorem broadcast_keeps_map_relaying :
    relaying.Reachable ∧ relaying.agents 1 = some relayingP ∧
      relayingP.phase = .active (.fanOut [104, 105] []) ∧
      relaying.step (.accept .go 9 [] []) =
        some (goProcess relaying 9 { incoming := [], outgoing := [] }) ∧
      ((goProcess relaying 9 { incoming := [], outgoing := [] }).state
          relayingP.side.swap).peers = (relaying.state relayingP.side.swap).peers :=
  ⟨.relaying, by decide, by decide, rfl,
    broadcast_keeps_map .relaying (i := 1) (m := [104, 105]) (q := []) (by decide) (by decide)
      (a := .accept .go 9 [] []) rfl⟩

/-- The messages on any channel from one task are the task's lines relayed, `name: line\r\n`,
in the order the task read them, each at most once: the indices of its lines strictly
increase along the channel. -/
theorem relayed_in_order {s : Sys Addr} (hs : s.Reachable) {j i : Nat} {Q P : Agent Addr}
    (hQ : s.agents j = some Q) (hP : s.agents i = some P) :
    ((Q.inbox.filter (·.origin.1 = i)).map (·.origin.2)).Pairwise (· < ·) ∧
    ∀ msg ∈ Q.inbox, msg.origin.1 = i → P.broadcasts[msg.origin.2]?.map P.line = some msg.bytes := by
  have hmap : (Q.inbox.filter (·.origin.1 = i)).map (·.origin.2) =
      ((Q.origins).filter (·.1 = i)).map Prod.snd := by
    simp [Agent.origins, List.filter_map, Function.comp_def]
  refine ⟨?_, fun msg hmsg hi => ?_⟩
  · rw [hmap]
    exact (hs.inOrder Q.side i).sublist (((hs.ordered.inbox hQ).filter _).map _)
  · obtain ⟨P', hP', hk⟩ := hs.relays hQ msg hmsg
    rw [hi, hP] at hP'
    cases hP'
    exact hk

/-- In `pairSent`, the go client at address 8 holds two messages of `p`, `p: a\r\n` and then
`p: b\r\n`, each once and in the order `p` read the lines. -/
theorem relayed_in_order_pairSent :
    pairSent.Reachable ∧ pairSent.agents 0 = some pairQ₈ ∧ pairSent.agents 2 = some pairP ∧
      (pairQ₈.inbox.filter (·.origin.1 = 2)).map Msg.bytes =
        [pairP.line [97], pairP.line [98]] ∧
      ((pairQ₈.inbox.filter (·.origin.1 = 2)).map (·.origin.2)).Pairwise (· < ·) ∧
      ∀ msg ∈ pairQ₈.inbox, msg.origin.1 = 2 →
        pairP.broadcasts[msg.origin.2]?.map pairP.line = some msg.bytes :=
  ⟨.pairSent, by decide, by decide, by decide,
    relayed_in_order .pairSent (j := 0) (i := 2) (by decide) (by decide)⟩

end DoubleServer
