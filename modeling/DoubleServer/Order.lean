import DoubleServer.Registry

/-!
# The order of broadcasts

A broadcast holds the lock of the map it sends into for its whole `for (addr, tx) in &peers`
loop, so the broadcasts into one map happen one after the other, in the order the lock was
taken; `Shared.fanned` records that order.  `Sys.Ordered` says that the channel of every task
receives broadcasts into its listener's map as a subsequence of that order (`inbox`), that
each entry of the order is one broadcast of a task of the other listener (`fanned`, `nodup`),
and where the broadcast in progress stands (`current`).  It holds in every reachable state
(`Sys.Reachable.ordered`), and from it `fanout_order`: the tasks of one listener see the
broadcasts they have in common in one order.
-/

namespace DoubleServer

open scoped List

/-! ## Two sublists of a list without repetitions -/

section Pairs

variable {α : Type} {a b : α}

theorem pair_sublist_or : ∀ {l : List α}, a ∈ l → b ∈ l → a ≠ b → [a, b] <+ l ∨ [b, a] <+ l
  | x :: l, ha, hb, hne => by
    rcases List.mem_cons.1 ha with rfl | ha' <;> rcases List.mem_cons.1 hb with rfl | hb'
    · exact absurd rfl hne
    · exact .inl ((List.singleton_sublist.2 hb').cons₂ _)
    · exact .inr ((List.singleton_sublist.2 ha').cons₂ _)
    · exact (pair_sublist_or ha' hb' hne).imp (·.cons _) (·.cons _)

theorem not_pair_sublist_swap : ∀ {l : List α}, l.Nodup → [a, b] <+ l → ¬ [b, a] <+ l
  | x :: l, hl, h₁, h₂ => by
    rw [List.nodup_cons] at hl
    rcases List.sublist_cons_iff.1 h₁ with g₁ | ⟨r, hr, g₁⟩ <;>
      rcases List.sublist_cons_iff.1 h₂ with g₂ | ⟨r', hr', g₂⟩
    · exact not_pair_sublist_swap hl.2 g₁ g₂
    · cases hr'
      exact hl.1 (g₁.subset (List.mem_cons_of_mem _ (List.mem_singleton_self _)))
    · cases hr
      exact hl.1 (g₂.subset (List.mem_cons_of_mem _ (List.mem_singleton_self _)))
    · cases hr
      cases hr'
      exact hl.1 (List.singleton_sublist.1 g₁)

/-- Two sublists of a list without repetitions order their common elements alike. -/
theorem pair_sublist_of_common {L l₁ l₂ : List α} (hL : L.Nodup) (h₁ : l₁ <+ L) (h₂ : l₂ <+ L)
    (hab : [a, b] <+ l₁) (ha : a ∈ l₂) (hb : b ∈ l₂) : [a, b] <+ l₂ := by
  have hne : a ≠ b := by simpa using (hab.trans h₁).nodup hL
  exact (pair_sublist_or ha hb hne).resolve_right
    fun h => not_pair_sublist_swap hL (hab.trans h₁) (h.trans h₂)

/-- A sublist that misses the last element of a list stays a sublist once it is appended. -/
theorem sublist_append_getLast {l L : List α} {x : α} (h : l <+ L) (hx : L.getLast? = some x)
    (hn : x ∉ l) : l ++ [x] <+ L := by
  obtain ⟨L', rfl⟩ : ∃ L', L = L' ++ [x] := ⟨L.dropLast, (List.dropLast_append_getLast? x hx).symm⟩
  refine List.Sublist.append ?_ (List.Sublist.refl _)
  rcases List.sublist_append_iff.1 h with ⟨l₁, l₂, rfl, h₁, h₂⟩
  rcases List.sublist_singleton.1 h₂ with rfl | rfl
  · simpa using h₁
  · simp at hn

end Pairs

variable {Addr : Type}

namespace Agent

/-- The broadcasts that sent the messages on a task's channel, in the order they arrived. -/
def origins (A : Agent Addr) : List (Nat × Nat) := A.inbox.map Msg.origin

@[simp] theorem origins_push (A : Agent Addr) (m : Msg) :
    (A.push m).origins = A.origins ++ [m.origin] := by
  simp [origins]

theorem said_drainStep (A : Agent Addr) (k : Fin linesPerTick) (senders : Bool) :
    (A.drainStep k senders).said = A.said := by
  unfold drainStep; split <;> (try split) <;> rfl

end Agent

variable [DecidableEq Addr]

/-- The order invariant of the server. -/
structure Sys.Ordered (s : Sys Addr) : Prop where
  /-- A channel receives broadcasts into its listener's map in the order the lock took them. -/
  inbox : ∀ ⦃j Q⦄, s.agents j = some Q → Q.origins <+ (s.state Q.side).fanned
  /-- A broadcast into a map is one by a task of the other listener: of a line it has
  broadcast, or of the one it is broadcasting while it holds the lock. -/
  fanned : ∀ side ⦃i k⦄, (i, k) ∈ (s.state side).fanned → ∃ A, s.agents i = some A ∧
    A.side.swap = side ∧ (k < A.said.length ∨ k = A.said.length ∧ (s.state side).holder = some i)
  nodup : ∀ side, (s.state side).fanned.Nodup
  /-- The broadcast in progress is the last one of its map, and has not reached the entries
  still to visit. -/
  current : ∀ ⦃i A m q⦄, s.agents i = some A → A.phase = .active (.fanOut m q) →
    (s.state A.side.swap).fanned.getLast? = some (i, A.said.length) ∧
    ∀ e ∈ q, ∀ Q, s.agents e.2 = some Q → (i, A.said.length) ∉ Q.origins

namespace Sys.Ordered

omit [DecidableEq Addr] in
theorem init : (Sys.init : Sys Addr).Ordered where
  inbox _ _ h := by cases h
  fanned side := by cases side <;> simp [Sys.init, Sys.state]
  nodup side := by cases side <;> simp [Sys.init, Sys.state]
  current _ _ _ _ h := by cases h

omit [DecidableEq Addr] in
/-- A change of the maps that leaves their histories and locks alone. -/
theorem of_shared {s s₀ : Sys Addr} (h : s.Ordered) (hag : s₀.agents = s.agents)
    (hst : ∀ side, (s₀.state side).fanned = (s.state side).fanned ∧
      (s₀.state side).holder = (s.state side).holder) : s₀.Ordered where
  inbox j Q hQ := by rw [(hst _).1]; exact h.inbox (hag ▸ hQ)
  fanned side i k hk := by
    rw [(hst side).1] at hk
    rw [(hst side).2, hag]
    exact h.fanned side hk
  nodup side := by rw [(hst side).1]; exact h.nodup side
  current i A m q hA hp := by
    rw [(hst _).1, hag]
    exact h.current (hag ▸ hA) hp

section Modify

variable {s : Sys Addr} (h : s.Ordered) {i : Nat} {A : Agent Addr} (hA : s.agents i = some A)
include h hA

omit [DecidableEq Addr] in
/-- A step of task `i` that keeps its listener, its channel and its lines, and that may only
advance a broadcast. -/
theorem modify {f : Agent Addr → Agent Addr} (hs : (f A).side = A.side)
    (hin : (f A).inbox = A.inbox) (hsaid : (f A).said = A.said)
    (hfan : ∀ {m q'}, (f A).phase = .active (.fanOut m q') →
      ∃ q, A.phase = .active (.fanOut m q) ∧ q' <:+ q) : (s.modify i f).Ordered := by
  have view : ∀ {j B'}, (s.modify i f).agents j = some B' →
      ∃ B, s.agents j = some B ∧ B'.origins = B.origins ∧ B'.side = B.side := fun hB' => by
    rcases Sys.modify_agents_some hA hB' with ⟨rfl, rfl⟩ | ⟨-, hB⟩
    exacts [⟨A, hA, by simp [Agent.origins, hin], hs⟩, ⟨_, hB, rfl, rfl⟩]
  have hcur : ∀ {j B m q}, s.agents j = some B → B.phase = .active (.fanOut m q) →
      ∀ e ∈ q, ∀ Q, (s.modify i f).agents e.2 = some Q → (j, B.said.length) ∉ Q.origins :=
    fun hB hp e he Q hQ => by
      obtain ⟨Q₀, hQ₀, ho, -⟩ := view hQ
      exact ho ▸ (h.current hB hp).2 e he Q₀ hQ₀
  refine ⟨fun j Q hQ => ?_, fun side j k hk => ?_, fun side => h.nodup side,
    fun j B' m q hB' hp => ?_⟩
  · obtain ⟨Q₀, hQ₀, ho, hs'⟩ := view hQ
    rw [Sys.modify_state, ho, hs']
    exact h.inbox hQ₀
  · rw [Sys.modify_state] at hk ⊢
    obtain ⟨B, hB, hs', hk'⟩ := h.fanned side hk
    rw [Sys.exists_modify_agents hA]
    by_cases hj : j = i
    · subst hj
      rw [hA] at hB
      cases hB
      exact .inl ⟨rfl, hs ▸ hs', hsaid ▸ hk'⟩
    · exact .inr ⟨hj, B, hB, hs', hk'⟩
  · rw [Sys.modify_state]
    rcases Sys.modify_agents_some hA hB' with ⟨rfl, rfl⟩ | ⟨-, hB⟩
    · obtain ⟨q₀, hp₀, hsuf⟩ := hfan hp
      rw [hs, hsaid]
      exact ⟨(h.current hA hp₀).1, fun e he => hcur hA hp₀ e (hsuf.subset he)⟩
    · exact ⟨(h.current hB hp).1, hcur hB hp⟩

end Modify

omit [DecidableEq Addr] in
/-- A message for the broadcast `x`, the last one of the task's map and not yet received,
sent on task `t`'s channel, where no other broadcast still has to visit `t`. -/
theorem push {s : Sys Addr} (h : s.Ordered) {t : Nat} {B : Agent Addr}
    (hB : s.agents t = some B) (b : Bytes) {x : Nat × Nat}
    (hlast : (s.state B.side).fanned.getLast? = some x) (hx : x ∉ B.origins)
    (hcur : ∀ ⦃j A' m q⦄, s.agents j = some A' → A'.phase = .active (.fanOut m q) →
      ∀ e ∈ q, e.2 = t → (j, A'.said.length) ≠ x) :
    (s.modify t (·.push ⟨b, x⟩)).Ordered := by
  have hnot : ∀ {j A' m q}, s.agents j = some A' → A'.phase = .active (.fanOut m q) →
      ∀ e ∈ q, ∀ Q, (s.modify t (·.push ⟨b, x⟩)).agents e.2 = some Q →
        (j, A'.said.length) ∉ Q.origins := fun hA' hp e he Q hQ => by
    rcases Sys.modify_agents_some hB hQ with ⟨ht, rfl⟩ | ⟨-, hQ⟩
    · rw [Agent.origins_push, List.mem_append, List.mem_singleton, not_or]
      exact ⟨(h.current hA' hp).2 e he B (ht ▸ hB), hcur hA' hp e he ht⟩
    · exact (h.current hA' hp).2 e he Q hQ
  refine ⟨fun j Q hQ => ?_, fun side j k hk => ?_, fun side => h.nodup side,
    fun j A' m q hA' hp => ?_⟩
  · rw [Sys.modify_state]
    rcases Sys.modify_agents_some hB hQ with ⟨rfl, rfl⟩ | ⟨-, hQ⟩
    · simpa [Agent.origins] using sublist_append_getLast (h.inbox hB) hlast hx
    · exact h.inbox hQ
  · rw [Sys.modify_state] at hk ⊢
    obtain ⟨C, hC, hk'⟩ := h.fanned side hk
    rw [Sys.exists_modify_agents hB]
    by_cases hj : j = t
    · subst hj
      rw [hB] at hC
      cases hC
      exact .inl ⟨rfl, hk'⟩
    · exact .inr ⟨hj, C, hC, hk'⟩
  · rw [Sys.modify_state]
    rcases Sys.modify_agents_some hB hA' with ⟨rfl, rfl⟩ | ⟨-, hA'⟩
    · have := hnot hB hp
      exact ⟨(h.current hB hp).1, this⟩
    · exact ⟨(h.current hA' hp).1, hnot hA' hp⟩

/-- The lock of the other map is taken for the line the task broadcasts next. -/
theorem lock {s : Sys Addr} (hr : s.Registry) (h : s.Ordered) {i : Nat} {A : Agent Addr}
    (hA : s.agents i = some A) {m : Bytes} (hh : (s.state A.side.swap).holder = none) :
    ((s.update A.side.swap fun st =>
        { st with holder := some i, fanned := st.fanned ++ [(i, A.said.length)] }).modify i
      (·.lockStep m (s.state A.side.swap).entries)).Ordered := by
  set s₁ := s.update A.side.swap fun st =>
    { st with holder := some i, fanned := st.fanned ++ [(i, A.said.length)] }
  have hag : s₁.agents = s.agents := Sys.update_agents ..
  have hA₁ : s₁.agents i = some A := hag ▸ hA
  have hself : (s₁.state A.side.swap).fanned =
      (s.state A.side.swap).fanned ++ [(i, A.said.length)] ∧
      (s₁.state A.side.swap).holder = some i := by simp [s₁]
  have other : ∀ {side}, side ≠ A.side.swap → s₁.state side = s.state side :=
    fun hne => Sys.update_state_of_ne _ _ hne
  have hx : (i, A.said.length) ∉ (s.state A.side.swap).fanned := fun hx => by
    obtain ⟨B, hB, -, hk⟩ := h.fanned _ hx
    rw [hA] at hB
    cases hB
    rcases hk with hk | ⟨-, hk⟩
    · exact lt_irrefl _ hk
    · rw [hh] at hk; cases hk
  have view : ∀ {j B'}, (s₁.modify i (·.lockStep m (s.state A.side.swap).entries)).agents j =
      some B' → ∃ B, s.agents j = some B ∧ B'.side = B.side ∧ B'.said = B.said ∧
        B'.origins = B.origins := fun {j B'} hB' => by
    rcases Sys.modify_agents_some hA₁ hB' with ⟨rfl, rfl⟩ | ⟨-, hB⟩
    exacts [⟨A, hA, rfl, rfl, rfl⟩, ⟨B', hag ▸ hB, rfl, rfl, rfl⟩]
  have lift : ∀ {j B}, s.agents j = some B → ∃ B',
      (s₁.modify i (·.lockStep m (s.state A.side.swap).entries)).agents j = some B' ∧
        B'.side = B.side ∧ B'.said = B.said := fun {j B} hB => by
    by_cases hj : j = i
    · subst hj
      rw [hA] at hB
      cases hB
      exact ⟨A.lockStep m (s.state A.side.swap).entries, by simp [hA₁], rfl, rfl⟩
    · exact ⟨B, by simp [hj, hag, hB], rfl, rfl⟩
  refine ⟨fun j Q hQ => ?_, fun side j k hk => ?_, fun side => ?_, fun j B' m' q hB' hp' => ?_⟩
  · obtain ⟨Q₀, hQ₀, hs, -, ho⟩ := view hQ
    rw [Sys.modify_state, hs, ho]
    refine (h.inbox hQ₀).trans ?_
    by_cases hside : Q₀.side = A.side.swap
    · rw [hside, hself.1]
      exact List.sublist_append_left _ _
    · rw [other hside]
  · rw [Sys.modify_state] at hk ⊢
    by_cases hside : side = A.side.swap
    · subst hside
      rw [hself.1, List.mem_append, List.mem_singleton] at hk
      rcases hk with hk | hk
      · obtain ⟨B, hB, hs, hk'⟩ := h.fanned _ hk
        have hlt : k < B.said.length := hk'.resolve_right fun ⟨_, h'⟩ => by rw [hh] at h'; cases h'
        obtain ⟨B', hB', hs', hsaid'⟩ := lift hB
        exact ⟨B', hB', hs'.symm ▸ hs, .inl (hsaid' ▸ hlt)⟩
      · obtain ⟨rfl, rfl⟩ := Prod.mk.inj hk
        exact ⟨A.lockStep m (s.state A.side.swap).entries, by simp [hA₁], rfl,
          .inr ⟨rfl, hself.2⟩⟩
    · rw [other hside] at hk ⊢
      obtain ⟨B, hB, hs, hk'⟩ := h.fanned _ hk
      obtain ⟨B', hB', hs', hsaid'⟩ := lift hB
      exact ⟨B', hB', hs'.symm ▸ hs, hsaid'.symm ▸ hk'⟩
  · rw [Sys.modify_state]
    by_cases hside : side = A.side.swap
    · rw [hside, hself.1]
      exact List.nodup_append.2 ⟨h.nodup _, List.nodup_singleton _, List.disjoint_singleton.2 hx⟩
    · rw [other hside]
      exact h.nodup side
  · rw [Sys.modify_state]
    rcases Sys.modify_agents_some hA₁ hB' with ⟨rfl, rfl⟩ | ⟨hj, hB⟩
    · simp only [Agent.lockStep, Phase.active.injEq, Pc.fanOut.injEq] at hp'
      obtain ⟨-, rfl⟩ := hp'
      refine ⟨by simp [Agent.lockStep, hself.1], fun e he Q hQ hmem => hx ?_⟩
      obtain ⟨B, hB, hs, -⟩ := (hr.peers _ e.1 e.2).1 (Shared.mem_entries.1 he)
      obtain ⟨Q₀, hQ₀, -, -, ho⟩ := view hQ
      rw [hB] at hQ₀
      cases hQ₀
      exact hs ▸ (h.inbox hB).subset (ho ▸ hmem)
    · rw [hag] at hB
      have hne : B'.side.swap ≠ A.side.swap := fun he => by
        have := (hr.holder _ j).2 ⟨B', hB, he, m', q, hp'⟩
        rw [hh] at this
        cases this
      rw [other hne]
      refine ⟨(h.current hB hp').1, fun e he Q hQ => ?_⟩
      obtain ⟨Q₀, hQ₀, -, -, ho⟩ := view hQ
      exact ho ▸ (h.current hB hp').2 e he Q₀ hQ₀

/-- The broadcast is over: the lock is released and the line counted as broadcast. -/
theorem release {s : Sys Addr} (hr : s.Registry) (h : s.Ordered) {i : Nat} {A : Agent Addr}
    (hA : s.agents i = some A) {m : Bytes} (hp : A.phase = .active (.fanOut m [])) :
    ((s.update A.side.swap fun st => { st with holder := none }).modify i
      (·.release m)).Ordered := by
  set s₁ := s.update A.side.swap fun st => { st with holder := none }
  have hag : s₁.agents = s.agents := Sys.update_agents ..
  have hA₁ : s₁.agents i = some A := hag ▸ hA
  have other : ∀ {side}, side ≠ A.side.swap → s₁.state side = s.state side :=
    fun hne => Sys.update_state_of_ne _ _ hne
  have hfan : ∀ side, (s₁.state side).fanned = (s.state side).fanned := fun side => by
    by_cases hside : side = A.side.swap
    · subst hside; simp [s₁]
    · rw [other hside]
  have hhold : (s.state A.side.swap).holder = some i := (hr.holder _ i).2 ⟨A, hA, rfl, m, [], hp⟩
  have view : ∀ {j B'}, (s₁.modify i (·.release m)).agents j = some B' →
      ∃ B, s.agents j = some B ∧ B'.side = B.side ∧ B'.origins = B.origins ∧
        (j = i ∧ B'.said = B.said ++ [m] ∨ B' = B) := fun {j B'} hB' => by
    rcases Sys.modify_agents_some hA₁ hB' with ⟨rfl, rfl⟩ | ⟨-, hB⟩
    exacts [⟨A, hA, rfl, rfl, .inl ⟨rfl, rfl⟩⟩, ⟨B', hag ▸ hB, rfl, rfl, .inr rfl⟩]
  refine ⟨fun j Q hQ => ?_, fun side j k hk => ?_, fun side => ?_, fun j B' m' q hB' hp' => ?_⟩
  · obtain ⟨Q₀, hQ₀, hs, ho, -⟩ := view hQ
    rw [Sys.modify_state, hs, ho, hfan]
    exact h.inbox hQ₀
  · rw [Sys.modify_state, hfan] at hk
    rw [Sys.modify_state]
    obtain ⟨B, hB, hs, hk'⟩ := h.fanned side hk
    by_cases hj : j = i
    · subst hj
      rw [hA] at hB
      cases hB
      refine ⟨A.release m, by simp [hA₁], hs, .inl ?_⟩
      simp only [Agent.release, List.length_append, List.length_singleton]
      omega
    · refine ⟨B, by simp [hj, hag, hB], hs, hk'.imp_right fun ⟨hk, hh⟩ => ⟨hk, ?_⟩⟩
      by_cases hside : side = A.side.swap
      · subst hside
        rw [hhold, Option.some.injEq] at hh
        exact absurd hh.symm hj
      · rwa [other hside]
  · rw [Sys.modify_state, hfan]
    exact h.nodup side
  · rw [Sys.modify_state, hfan]
    rcases Sys.modify_agents_some hA₁ hB' with ⟨rfl, rfl⟩ | ⟨-, hB⟩
    · simp [Agent.release] at hp'
    · rw [hag] at hB
      refine ⟨(h.current hB hp').1, fun e he Q hQ => ?_⟩
      obtain ⟨Q₀, hQ₀, -, ho, -⟩ := view hQ
      exact ho ▸ (h.current hB hp').2 e he Q₀ hQ₀

omit [DecidableEq Addr] in
/-- A connection accepted: the new task's channel is empty. -/
theorem accept {s : Sys Addr} (h : s.Ordered) (hfresh : s.agents s.accepted = none) {side : Side}
    {addr : Addr} {socket : TcpStream} : (spawn side s addr socket).Ordered := by
  have hnot : ∀ {j A m q}, s.agents j = some A → A.phase = .active (.fanOut m q) →
      ∀ e ∈ q, ∀ Q, (spawn side s addr socket).agents e.2 = some Q →
        (j, A.said.length) ∉ Q.origins := fun hA hp e he Q hQ => by
    rcases spawn_agents_some _ _ _ _ hQ with ⟨-, rfl⟩ | ⟨-, hQ⟩
    exacts [by simp [Agent.origins], (h.current hA hp).2 e he Q hQ]
  refine ⟨fun j Q hQ => ?_, fun side' j k hk => ?_, fun side' => ?_, fun j A m q hA hp => ?_⟩
  · rw [spawn_state]
    rcases spawn_agents_some _ _ _ _ hQ with ⟨-, rfl⟩ | ⟨-, hQ⟩
    exacts [by simp [Agent.origins], h.inbox hQ]
  · rw [spawn_state] at hk ⊢
    obtain ⟨B, hB, hB'⟩ := h.fanned side' hk
    exact ⟨B, spawn_agents_of_some _ _ _ _ hfresh hB, hB'⟩
  · rw [spawn_state]
    exact h.nodup side'
  · rw [spawn_state]
    rcases spawn_agents_some _ _ _ _ hA with ⟨-, rfl⟩ | ⟨-, hA⟩
    · cases hp
    · exact ⟨(h.current hA hp).1, hnot hA hp⟩

omit [DecidableEq Addr] in
/-- `CPeer::new` and `Drop` change a map's entries, not its history or its lock. -/
theorem update_peers {s : Sys Addr} (h : s.Ordered) (side : Side)
    (g : AList (fun _ : Addr => Nat) → AList (fun _ : Addr => Nat)) :
    (s.update side fun st => { st with peers := g st.peers }).Ordered :=
  h.of_shared (Sys.update_agents ..) fun side' => by cases side <;> cases side' <;> exact ⟨rfl, rfl⟩

end Sys.Ordered

/-- The entries a broadcast has still to visit belong to different tasks. -/
theorem Sys.Registry.pending_snd {s : Sys Addr} (hr : s.Registry) {i : Nat} {A : Agent Addr}
    (hA : s.agents i = some A) {m : Bytes} {a : Addr} {t : Nat} {rest : List (Addr × Nat)}
    (hp : A.phase = .active (.fanOut m ((a, t) :: rest))) : ∀ e ∈ rest, e.2 ≠ t := by
  rintro ⟨a', t'⟩ he (rfl : t' = t)
  have hsuf := hr.pending hA hp
  have owner : ∀ {a'}, (a', t') ∈ (s.state A.side.swap).entries →
      ∃ B, s.agents t' = some B ∧ B.addr = a' := fun he' => by
    obtain ⟨B, hB, -, ha, -⟩ := (hr.peers _ _ _).1 (Shared.mem_entries.1 he')
    exact ⟨B, hB, ha⟩
  obtain ⟨B, hB, rfl⟩ := owner (hsuf.subset (List.mem_cons_self _ _))
  obtain ⟨B', hB', rfl⟩ := owner (hsuf.subset (List.mem_cons_of_mem _ he))
  rw [hB] at hB'
  cases hB'
  have hkeys : (((B.addr, t') :: rest).map Prod.fst).Nodup :=
    (hsuf.map Prod.fst).sublist.nodup (by
      simpa [Shared.entries, Function.comp_def] using (s.state A.side.swap).peers.keys_nodup)
  exact (List.nodup_cons.1 hkeys).1 (List.mem_map_of_mem _ he)

/-- Every step of a task keeps the order invariant, given the registry. -/
theorem Sys.Ordered.move {s s' : Sys Addr} (hr : s.Registry) (h : s.Ordered) {i : Nat}
    {A : Agent Addr} (hA : s.agents i = some A) (hm : Move s i A s') : s'.Ordered := by
  have own : ∀ {f : Agent Addr → Agent Addr}, Agent.Step A (f A) → (f A).said = A.said →
      A.phase.Quiet (f A).phase → (s.modify i f).Ordered :=
    fun hf hsaid hq => h.modify hA hf.frame.1 hf.frame.2.2 hsaid hq.fanOut
  cases hm with
  | intoFuture hp => exact own (.intoFuture hp) rfl (Agent.quiet_intoFuture hp)
  | begin hp => exact own (.begin hp) rfl (Agent.quiet_begin hp)
  | drain hp => exact own (.drain _ hp) (Agent.said_drainStep ..) (Agent.quiet_drainStep hp _)
  | flush hp => exact own (.flush hp) rfl (Agent.quiet_flushStep hp)
  | read hp => exact own (.read hp) rfl (Agent.quiet_readStep hp)
  | skip hp => exact own (.visit hp) rfl (Agent.quiet_visit hp)
  | free hp => exact own (.free hp) rfl (Agent.quiet_free hp)
  | new =>
    exact (h.update_peers A.side (·.insert A.addr i)).modify (by simpa using hA) (f := Agent.join)
      rfl rfl rfl fun h => by cases h
  | drop =>
    exact (h.update_peers A.side (·.erase A.addr)).modify (by simpa using hA) (f := Agent.dropped)
      rfl rfl rfl fun h => by cases h
  | lock _ hh => exact h.lock hr hA hh
  | release hp => exact h.release hr hA hp
  | @send m a t rest B hp _ hB _ =>
    obtain ⟨B', hB', hside, -⟩ := (hr.peers _ a t).1
      (Shared.mem_entries.1 ((hr.pending hA hp).subset (List.mem_cons_self _ _)))
    rw [hB] at hB'
    cases hB'
    have hB₁ : (s.modify i (·.visit m rest)).agents t = some B := by
      simp [hr.pending_ne hA hp, hB]
    refine (own (f := (·.visit m rest)) (.visit hp) rfl (Agent.quiet_visit hp)).push hB₁ (A.line m)
      (by rw [Sys.modify_state, hside]; exact (h.current hA hp).1)
      ((h.current hA hp).2 (a, t) (List.mem_cons_self _ _) B hB) ?_
    intro j A' m' q hA' hp' e he het heq
    rcases Sys.modify_agents_some hA hA' with ⟨rfl, rfl⟩ | ⟨hj, -⟩
    · simp only [Agent.visit, Phase.active.injEq, Pc.fanOut.injEq] at hp'
      obtain ⟨-, rfl⟩ := hp'
      exact hr.pending_snd hA hp e he het
    · exact hj (Prod.mk.inj heq).1
  | abort hp _ hB =>
    obtain ⟨B, hB', hrx⟩ := hr.send_ok hA hp
    exact absurd hrx (hB B hB')

/-- The order invariant holds in every reachable state. -/
theorem Sys.Reachable.ordered {s : Sys Addr} (hs : s.Reachable) : s.Ordered :=
  hs.invariant .init (fun hs h _ => h.accept (hs.registry.fresh _ le_rfl))
    fun hs h hA hm => h.move hs.registry hA hm

/-- A task's channel only receives broadcasts of tasks of the other listener: never one of a
task of its own listener, nor one of its own. -/
theorem inbox_from_other_listener {s : Sys Addr} (hs : s.Reachable) {j : Nat} {Q : Agent Addr}
    (hQ : s.agents j = some Q) :
    ∀ msg ∈ Q.inbox, ∃ P, s.agents msg.origin.1 = some P ∧ P.side = Q.side.swap := by
  intro msg hmsg
  have h := hs.ordered
  obtain ⟨P, hP, hside, -⟩ := h.fanned Q.side
    ((h.inbox hQ).subset (List.mem_map_of_mem Msg.origin hmsg))
  exact ⟨P, hP, by rw [← hside, Side.swap_swap]⟩

/-- In `relayed`, `q`'s channel holds `p`'s line, and `p` is a task of the c listener. -/
theorem inbox_from_other_listener_relayed :
    relayed.Reachable ∧ relayed.agents 0 = some relayedQ ∧
      ∀ msg ∈ relayedQ.inbox, ∃ P, relayed.agents msg.origin.1 = some P ∧
        P.side = relayedQ.side.swap :=
  ⟨.relayed, by decide, inbox_from_other_listener .relayed (j := 0) (by decide)⟩

/-- The run of `relayed` with `q` connecting from address 7, which is `p`'s address too.
While `p` broadcasts `hi` (the lock of the go map, the visit of its one entry, the release)
`q` is in the go map, but the loop takes `q`'s entry for `p`'s own and passes over it:
`q`'s channel never receives the line. -/
theorem twin_address_missed :
    ∃ s s', (cProcess (goProcess (Sys.init : Sys Nat) 7 relayQ) 7 relayP).run
        ([0, 0, 1, 1, 1, 1, 1, 1].map .run) = some s ∧ s.Reachable ∧
      s.run [.run 1, .run 1, .run 1] = some s' ∧
      (s.agents 0).map (fun Q => (Q.side, Q.addr, Q.phase, Q.inbox)) =
        some (.go, 7, .active .idle, []) ∧
      (s.agents 1).map (fun P => (P.side, P.addr, P.phase, P.said)) =
        some (.c, 7, .active (.lock [104, 105]), []) ∧
      (∀ k ≤ 3, (s.run (List.replicate k (.run 1))).map (fun t => (t.state .go).peers.lookup 7) =
        some (some 0)) ∧
      (s'.agents 0).map Agent.inbox = some [] ∧
      (s'.agents 1).map (fun P => (P.phase, P.said)) = some (.active .read, [[104, 105]]) :=
  ⟨_, _, rfl, (Sys.Reachable.relayStart 7).run_tasks (l := [0, 0, 1, 1, 1, 1, 1, 1]) rfl, rfl,
    by decide, by decide, by decide, by decide, by decide⟩

/-- The broadcasts into one map reach the tasks of its listener in one order, the order in
which the map's lock was taken: each channel receives a subsequence of it, so two tasks of
the listener receive the broadcasts they both receive in the same relative order. -/
theorem fanout_order {s : Sys Addr} (hs : s.Reachable) (side : Side) :
    ∃ L : List (Nat × Nat), L.Nodup ∧
      (∀ j Q, s.agents j = some Q → Q.side = side → Q.inbox.map Msg.origin <+ L) ∧
      ∀ j₁ j₂ Q₁ Q₂ e₁ e₂, s.agents j₁ = some Q₁ → s.agents j₂ = some Q₂ →
        Q₁.side = side → Q₂.side = side → [e₁, e₂] <+ Q₁.inbox.map Msg.origin →
        e₁ ∈ Q₂.inbox.map Msg.origin → e₂ ∈ Q₂.inbox.map Msg.origin →
        [e₁, e₂] <+ Q₂.inbox.map Msg.origin := by
  have h := hs.ordered
  have sub : ∀ j Q, s.agents j = some Q → Q.side = side →
      Q.inbox.map Msg.origin <+ (s.state side).fanned := fun j Q hQ hside => hside ▸ h.inbox hQ
  exact ⟨_, h.nodup side, sub, fun j₁ j₂ Q₁ Q₂ e₁ e₂ h₁ h₂ hs₁ hs₂ h12 he₁ he₂ =>
    pair_sublist_of_common (h.nodup side) (sub j₁ Q₁ h₁ hs₁) (sub j₂ Q₂ h₂ hs₂) h12 he₁ he₂⟩

/-! ## Two receivers of two lines

Two clients of the go listener, from addresses 8 and 9, then a client of the c listener that
sends its name `p` and the lines `a` and `b` in one read. -/

/-- The c client's socket: the name `p`, then `a` and `b` in one read, then the end of the
stream. -/
def relayPair : TcpStream :=
  { incoming := [.data 112 [13, 10], .wouldBlock, .data 97 [13, 10, 98, 13, 10], .wouldBlock],
    outgoing := [] }

theorem Sys.Reachable.pairStart :
    (cProcess (goProcess (goProcess (Sys.init : Sys Nat) 8 relayQ) 9 relayQ) 7
      relayPair).Reachable := by
  have h₉ : (goProcess (goProcess (Sys.init : Sys Nat) 8 relayQ) 9 relayQ).Reachable := by
    refine .step (a := .accept .go 9 relayQ.incoming relayQ.outgoing)
      (.step (a := .accept .go 8 relayQ.incoming relayQ.outgoing) .init (fun _ _ h => by cases h)
        rfl) (fun j B hB _ _ => ?_) rfl
    rcases spawn_agents_some _ _ _ _ hB with ⟨-, rfl⟩ | ⟨-, h⟩
    · decide
    · cases h
  -- both tasks so far are of the go listener
  refine .step (a := .accept .c 7 relayPair.incoming relayPair.outgoing) h₉
    (fun j B hB hside _ => ?_) rfl
  rcases spawn_agents_some _ _ _ _ hB with ⟨-, rfl⟩ | ⟨-, h⟩
  · cases hside
  rcases spawn_agents_some _ _ _ _ h with ⟨-, rfl⟩ | ⟨-, h⟩
  · cases hside
  · cases h

/-- Both go clients named and registered, and the c client's call: it has broadcast `a` and
then `b` to both, and found the end of its stream. -/
def pairSent : Sys Nat :=
  ((cProcess (goProcess (goProcess Sys.init 8 relayQ) 9 relayQ) 7 relayPair).run
    (([0, 0, 1, 1] ++ List.replicate 16 2).map .run)).get (by decide)

theorem Sys.Reachable.pairSent : pairSent.Reachable :=
  Reachable.pairStart.run_tasks (Option.some_get _).symm

/-- The go client at address 8 in `pairSent`. -/
def pairQ₈ : Agent Nat := (pairSent.agents 0).get (by decide)

/-- The go client at address 9 in `pairSent`. -/
def pairQ₉ : Agent Nat := (pairSent.agents 1).get (by decide)

/-- The c client in `pairSent`. -/
def pairP : Agent Nat := (pairSent.agents 2).get (by decide)

/-- In `pairSent` both go clients hold the broadcasts of `a` and `b`, and the one that has
`a` before `b` forces the other to have them in that order too. -/
theorem fanout_order_pairSent :
    pairSent.Reachable ∧ pairSent.agents 0 = some pairQ₈ ∧ pairSent.agents 1 = some pairQ₉ ∧
      pairQ₈.inbox.map Msg.origin = [(2, 0), (2, 1)] ∧
      (∃ L : List (Nat × Nat), L.Nodup ∧
        (∀ j Q, pairSent.agents j = some Q → Q.side = .go → Q.inbox.map Msg.origin <+ L) ∧
        ∀ j₁ j₂ Q₁ Q₂ e₁ e₂, pairSent.agents j₁ = some Q₁ → pairSent.agents j₂ = some Q₂ →
          Q₁.side = .go → Q₂.side = .go → [e₁, e₂] <+ Q₁.inbox.map Msg.origin →
          e₁ ∈ Q₂.inbox.map Msg.origin → e₂ ∈ Q₂.inbox.map Msg.origin →
          [e₁, e₂] <+ Q₂.inbox.map Msg.origin) ∧
      [(2, 0), (2, 1)] <+ pairQ₉.inbox.map Msg.origin :=
  have ⟨L, hL, hsub, hord⟩ := fanout_order .pairSent .go
  have h₈ : pairSent.agents 0 = some pairQ₈ := by decide
  have h₉ : pairSent.agents 1 = some pairQ₉ := by decide
  ⟨.pairSent, h₈, h₉, by decide, ⟨L, hL, hsub, hord⟩,
    hord 0 1 pairQ₈ pairQ₉ (2, 0) (2, 1) h₈ h₉ (by decide) (by decide) (by decide) (by decide)
      (by decide)⟩

end DoubleServer
