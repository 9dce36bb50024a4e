import DoubleServer.Order

/-!
# The chat room the server implements

Seen from its clients, the server is a chat room with two sides.  Each connection comes through
one of the two listeners and, once named, joins that listener's side under its address; each
task has a channel.  A member of one side broadcasts a line to the other side at once, to every
member there but one under the sender's own address.  `Room` is that model and `Room.Step` its
steps, each with the guard under which the room allows it: a task joins its own listener's side,
once, under an address no member has, with a name that holds no terminator; a member leaves by
removing its own entry; a broadcast comes from a member, as `name: line\r\n` under the name it
joined with, for a line that holds no terminator.  `Room.Sound` is what these guards give every
room reachable by its steps (`Room.sound_of_reachable`): a channel holds only such lines, from
members of the other side.

The server broadcasts a line in many steps: it locks the map, visits its entries one at a time,
sending the line on their channels, and unlocks it, while other tasks run in between.
`Sys.room` shows each channel followed by what the broadcast in progress still owes it
(`Sys.owed`), and each task's listener and, from `CPeer::new` on, its name.  So seen, every step
of the server is one step of the room or none (`Sys.Reachable.room_step`): the lock taken is the
whole broadcast (`Sys.Registry.room_lock`), and the visits and the release change nothing.
Hence `server_refines_room`: every reachable state of the server shows a room reachable by the
room's own steps, and the room's guarantees hold of it (`Sys.Reachable.room_sound`).
-/

namespace DoubleServer

variable {Addr : Type} [DecidableEq Addr]

/-- The chat room: the members of each side under their addresses, the channel of each task
(`none` before the task exists), the listener each task came through, and the name each member
joined with. -/
@[ext] structure Room (Addr : Type) where
  members : Side → AList (fun _ : Addr => Nat)
  channel : Nat → Option (List Msg)
  side : Nat → Option Side
  name : Nat → Option Bytes

namespace Room

/-- The room before any connection. -/
def init : Room Addr :=
  { members := fun _ => ∅, channel := fun _ => none, side := fun _ => none, name := fun _ => none }

/-- Task `t` is a member of `side` under an address other than `addr`. -/
def receives (R : Room Addr) (side : Side) (addr : Addr) (t : Nat) : Bool :=
  (R.members side).entries.any fun e => e.2 == t && e.1 != addr

/-- `msg` broadcast to `side` at once: every member but one under `addr` receives it. -/
def broadcast (R : Room Addr) (side : Side) (addr : Addr) (msg : Msg) : Room Addr :=
  { R with
    channel := fun t => (R.channel t).map (· ++ if R.receives side addr t then [msg] else []) }

/-- Task `t` connects through the listener `side`: its channel opens, empty. -/
def connect (R : Room Addr) (side : Side) (t : Nat) : Room Addr :=
  { R with channel := Function.update R.channel t (some []),
           side := Function.update R.side t (some side) }

/-- Task `t` joins `side` under the address `a`, with the name `n`. -/
def join (R : Room Addr) (side : Side) (a : Addr) (t : Nat) (n : Bytes) : Room Addr :=
  { R with members := Function.update R.members side ((R.members side).insert a t),
           name := Function.update R.name t (some n) }

/-- The member under the address `a` leaves `side`. -/
def leave (R : Room Addr) (side : Side) (a : Addr) : Room Addr :=
  { R with members := Function.update R.members side ((R.members side).erase a) }

/-- What the room does: a task connects through a listener; it joins that listener's side once,
under an address no member has, with a name without a terminator; a member leaves, removing its
own entry; or a member of one side broadcasts a line without a terminator to the other side, as
`name: line\r\n` under its name. -/
inductive Step : Room Addr → Room Addr → Prop
  | connect {R : Room Addr} (side : Side) {t : Nat} : R.channel t = none →
      Step R (R.connect side t)
  | join {R : Room Addr} {side : Side} {a : Addr} {t : Nat} {n : Bytes} : R.side t = some side →
      (R.members side).lookup a = none → R.name t = none → ¬ HasCrlf n →
      Step R (R.join side a t n)
  | leave {R : Room Addr} {side : Side} {a : Addr} {t : Nat} :
      (R.members side).lookup a = some t → Step R (R.leave side a)
  | broadcast {R : Room Addr} {side : Side} {a : Addr} {t : Nat} {n x : Bytes} (k : Nat) :
      (R.members side).lookup a = some t → R.name t = some n → ¬ HasCrlf x →
      Step R (R.broadcast side.swap a ⟨relay n x, (t, k)⟩)

/-! ## What the room guarantees -/

/-- What every room reachable by its steps guarantees: a channel is open exactly when its task
has come through a listener; a member belongs to its listener's side and has a name without a
terminator; and every message on a channel is `name: line\r\n`, under the name of a task of
the other listener, for a line without a terminator. -/
structure Sound (R : Room Addr) : Prop where
  opened : ∀ t, R.channel t = none ↔ R.side t = none
  member : ∀ {side a t}, (R.members side).lookup a = some t →
    R.side t = some side ∧ (R.name t).isSome
  named : ∀ {t n}, R.name t = some n → ¬ HasCrlf n
  heard : ∀ {t side ms}, R.side t = some side → R.channel t = some ms → ∀ msg ∈ ms,
    R.side msg.origin.1 = some side.swap ∧
      ∃ n x, R.name msg.origin.1 = some n ∧ ¬ HasCrlf x ∧ msg.bytes = relay n x

namespace Sound

variable {R : Room Addr}

/-- The empty room: no channel, no member, no name. -/
theorem init : (Room.init : Room Addr).Sound where
  opened _ := by simp [Room.init]
  member h := by simp [Room.init] at h
  named h := by cases h
  heard _ h := by cases h

/-- A channel opens empty, for a task that had none. -/
theorem connect (h : R.Sound) {t : Nat} (ht : R.channel t = none) (side : Side) :
    (R.connect side t).Sound := by
  have hside : R.side t = none := (h.opened t).1 ht
  -- a task that has come through a listener is not `t`
  have hne : ∀ {t' s'}, R.side t' = some s' → t' ≠ t := fun h' e => by
    rw [e, hside] at h'; cases h'
  refine ⟨fun t' => ?_, fun hl => ?_, h.named, fun {t' side' ms} hs hc msg hm => ?_⟩
  · by_cases e : t' = t
    · subst e; simp [Room.connect]
    · simpa [Room.connect, e] using h.opened t'
  · obtain ⟨h₁, h₂⟩ := h.member hl
    exact ⟨by simpa [Room.connect, hne h₁] using h₁, h₂⟩
  · by_cases e : t' = t
    · subst e; simp [Room.connect] at hc; subst hc; cases hm
    · simp only [Room.connect, Function.update_noteq e] at hs hc
      obtain ⟨h₁, h₂⟩ := h.heard hs hc msg hm
      exact ⟨by simpa [Room.connect, hne h₁] using h₁, h₂⟩

/-- A task joins the side it came through, with a name that holds no terminator. -/
theorem join (h : R.Sound) {side : Side} {a : Addr} {t : Nat} {n : Bytes}
    (hs : R.side t = some side) (hn : R.name t = none) (hx : ¬ HasCrlf n) :
    (R.join side a t n).Sound := by
  -- a task with a name is not `t`
  have hne : ∀ {t' n'}, R.name t' = some n' → t' ≠ t := fun h' e => by
    rw [e, hn] at h'; cases h'
  refine ⟨h.opened, fun {side' a' t'} hl => ?_, fun {t' n'} hl => ?_, fun hs' hc msg hm => ?_⟩
  · by_cases e : t' = t
    · subst e
      by_cases es : side' = side
      · subst es; exact ⟨hs, by simp [Room.join]⟩
      · simp only [Room.join, Function.update_noteq es] at hl
        exact ⟨(h.member hl).1, by simp [Room.join]⟩
    · have hl' : (R.members side').lookup a' = some t' := by
        by_cases es : side' = side
        · subst es
          by_cases ea : a' = a
          · subst ea; simp [Room.join] at hl; exact absurd hl.symm e
          · simpa [Room.join, AList.lookup_insert_ne ea] using hl
        · simpa [Room.join, es] using hl
      obtain ⟨h₁, h₂⟩ := h.member hl'
      exact ⟨h₁, by simpa [Room.join, e] using h₂⟩
  · by_cases e : t' = t
    · subst e; simp [Room.join] at hl; exact hl ▸ hx
    · exact h.named (by simpa [Room.join, e] using hl)
  · obtain ⟨h₁, n', x', h₂, h₃⟩ := h.heard hs' hc msg hm
    exact ⟨h₁, n', x', by simpa [Room.join, hne h₂] using h₂, h₃⟩

/-- Removing an entry leaves every member that stays, and every channel, as it was. -/
theorem leave (h : R.Sound) (side : Side) (a : Addr) : (R.leave side a).Sound := by
  refine ⟨h.opened, fun {side' a' t'} hl => ?_, h.named, h.heard⟩
  have hl' : (R.members side').lookup a' = some t' := by
    by_cases es : side' = side
    · subst es
      by_cases ea : a' = a
      · subst ea; simp [Room.leave] at hl
      · simpa [Room.leave, AList.lookup_erase_ne ea] using hl
    · simpa [Room.leave, es] using hl
  exact h.member hl'

/-- A member's line reaches only members of the other side, under the member's name. -/
theorem broadcast (h : R.Sound) {side : Side} {a : Addr} {t : Nat} {n x : Bytes} (k : Nat)
    (hl : (R.members side).lookup a = some t) (hn : R.name t = some n) (hx : ¬ HasCrlf x) :
    (R.broadcast side.swap a ⟨relay n x, (t, k)⟩).Sound := by
  refine ⟨fun t' => by simpa [Room.broadcast] using h.opened t', h.member, h.named,
    fun {t' side' ms} hs hc msg hm => ?_⟩
  obtain ⟨ms₀, hc₀, rfl⟩ := Option.map_eq_some'.1 hc
  rcases List.mem_append.1 hm with hm | hm
  · exact h.heard hs hc₀ msg hm
  · -- the new line: `t'` is a member of the other side, the sender one of `side`
    by_cases hr : R.receives side.swap a t' = true
    · rw [if_pos hr, List.mem_singleton] at hm
      subst hm
      obtain ⟨⟨a', t''⟩, he, het, -⟩ :
          ∃ e ∈ (R.members side.swap).entries, e.2 = t' ∧ e.1 ≠ a := by
        simpa [Room.receives] using hr
      simp only at het
      subst het
      have hs' := (h.member (AList.mem_lookup_iff.2 he)).1
      rw [show R.side t'' = some side' by simpa [Room.broadcast] using hs] at hs'
      cases hs'
      exact ⟨by simpa using (h.member hl).1, n, x, hn, hx, rfl⟩
    · rw [if_neg hr] at hm; cases hm

theorem step (h : R.Sound) {R' : Room Addr} (hs : Step R R') : R'.Sound := by
  cases hs with
  | connect side ht => exact h.connect ht side
  | join hs _ hn hx => exact h.join hs hn hx
  | leave _ => exact h.leave _ _
  | broadcast k hl hn hx => exact h.broadcast k hl hn hx

end Sound

/-- Every room reachable by the room's steps keeps its guarantees. -/
theorem sound_of_reachable {R : Room Addr} (h : Relation.ReflTransGen Step init R) : R.Sound := by
  induction h with
  | refl => exact .init
  | tail _ hs ih => exact ih.step hs

end Room

/-- The name a task shows the room: the one it has joined with, none before `CPeer::new`. -/
def Agent.joinedName (A : Agent Addr) : Option Bytes :=
  match A.phase with
  | .naming | .joining => none
  | _ => A.name

omit [DecidableEq Addr] in
@[simp] theorem Agent.joinedName_push (A : Agent Addr) (m : Msg) :
    (A.push m).joinedName = A.joinedName := rfl

omit [DecidableEq Addr] in
/-- A task's own step, other than `CPeer::new`, leaves the name it shows the room. -/
theorem Agent.Step.joinedName_eq {A A' : Agent Addr} (h : Agent.Step A A')
    (hn : A.phase = .naming → A.name = none) (hj : A.phase ≠ .joining) :
    A'.joinedName = A.joinedName := by
  cases h with
  | intoFuture hp =>
    rcases hr : (A.lines.poll).1 with (_ | x) | _ | _ <;>
      simp [Agent.joinedName, Agent.intoFuture, hr, hp, hn hp]
  | join hp => exact absurd hp hj
  | drain _ hp =>
    unfold Agent.drainStep
    split <;> (try split) <;> simp [Agent.joinedName, hp]
  | flush hp =>
    rcases hr : (A.lines.pollFlush).1 with _ | (_ | _ | _) <;>
      simp [Agent.joinedName, Agent.flushStep, hr, hp]
  | read hp =>
    rcases hr : (A.lines.poll).1 with (_ | x) | _ | _ <;>
      simp [Agent.joinedName, Agent.readStep, hr, hp]
  | begin hp | lock _ hp | visit hp | release hp | abort hp | dropped hp | free hp =>
    simp [Agent.joinedName, Agent.begin, Agent.lockStep, Agent.visit, Agent.release, Agent.abort,
      Agent.dropped, Agent.free, hp]

/-- What task `i`, as `P`, still owes task `t` in its fan-out loop: the line, if an entry of `t`
under an address other than `P`'s is left to visit. -/
def Agent.owed (P : Agent Addr) (i t : Nat) : List Msg :=
  match P.phase with
  | .active (.fanOut m q) =>
    if q.any (fun e => e.2 == t && e.1 != P.addr) then [⟨P.line m, (i, P.said.length)⟩] else []
  | _ => []

omit [DecidableEq Addr] in
/-- A test of the entries of a map, as the loop visits them or as the map holds them. -/
theorem Shared.any_entries (st : Shared Addr) (p : Addr × Nat → Bool) :
    st.entries.any p = st.peers.entries.any fun e => p (e.1, e.2) := by
  unfold Shared.entries
  induction st.peers.entries <;> simp [*]

namespace Sys

/-- What the broadcast in progress into `side`'s map, if there is one, still owes task `t`. -/
def owed (s : Sys Addr) (side : Side) (t : Nat) : List Msg :=
  match (s.state side).holder with
  | some i => ((s.agents i).map (·.owed i t)).getD []
  | none => []

/-- The room the server shows: its maps, each task's channel followed by what the broadcast in
progress still owes it, each task's listener, and the name it joined with. -/
def room (s : Sys Addr) : Room Addr where
  members side := (s.state side).peers
  channel t := (s.agents t).map fun Q => Q.inbox ++ s.owed Q.side t
  side t := (s.agents t).map (·.side)
  name t := (s.agents t).bind Agent.joinedName

@[simp] theorem room_members (s : Sys Addr) (side : Side) :
    s.room.members side = (s.state side).peers := rfl

@[simp] theorem room_channel (s : Sys Addr) (t : Nat) :
    s.room.channel t = (s.agents t).map fun Q => Q.inbox ++ s.owed Q.side t := rfl

@[simp] theorem room_side (s : Sys Addr) (t : Nat) : s.room.side t = (s.agents t).map (·.side) :=
  rfl

@[simp] theorem room_name (s : Sys Addr) (t : Nat) :
    s.room.name t = (s.agents t).bind Agent.joinedName := rfl

/-- A step of task `i`, after a change of the maps, keeps the room's record of the listeners. -/
theorem room_side_step {s u : Sys Addr} (hag : u.agents = s.agents) {i : Nat} {A : Agent Addr}
    (hA : s.agents i = some A) {f : Agent Addr → Agent Addr} (hside : (f A).side = A.side) :
    (u.modify i f).room.side = s.room.side := by
  funext t
  by_cases ht : t = i
  · subst ht; simp [hag, hA, hside]
  · simp [ht, hag]

/-- A step of task `i`, after a change of the maps, that keeps the name the task shows keeps the
room's record of names. -/
theorem room_name_step {s u : Sys Addr} (hag : u.agents = s.agents) {i : Nat} {A : Agent Addr}
    (hA : s.agents i = some A) {f : Agent Addr → Agent Addr}
    (hname : (f A).joinedName = A.joinedName) : (u.modify i f).room.name = s.room.name := by
  funext t
  by_cases ht : t = i
  · subst ht; simp [hag, hA, hname]
  · simp [ht, hag]

theorem owed_of_holder {s : Sys Addr} {side : Side} {i : Nat} (hh : (s.state side).holder = some i)
    {P : Agent Addr} (hP : s.agents i = some P) (t : Nat) : s.owed side t = P.owed i t := by
  simp [owed, hh, hP]

theorem owed_of_free {s : Sys Addr} {side : Side} (hh : (s.state side).holder = none) (t : Nat) :
    s.owed side t = [] := by
  simp [owed, hh]

/-- `owed` reads the lock and what the task holding it owes, nothing else. -/
theorem owed_congr {s s₀ : Sys Addr} {side : Side} {t : Nat}
    (hh : (s₀.state side).holder = (s.state side).holder)
    (hag : ∀ i, (s.state side).holder = some i →
      (s₀.agents i).map (·.owed i t) = (s.agents i).map (·.owed i t)) :
    s₀.owed side t = s.owed side t := by
  rcases hx : (s.state side).holder with _ | i
  · rw [owed_of_free (hh.trans hx), owed_of_free hx]
  · simp only [owed, hh, hx, hag i hx]

@[simp] theorem Agent.owed_push (B : Agent Addr) (msg : Msg) (j t : Nat) :
    (B.push msg).owed j t = B.owed j t := rfl

/-- A message sent on a channel changes what no broadcast owes. -/
@[simp] theorem owed_push (s : Sys Addr) (t' : Nat) (msg : Msg) (side : Side) (t : Nat) :
    (s.modify t' (·.push msg)).owed side t = s.owed side t :=
  owed_congr (by rw [modify_state]) fun j _ => by
    by_cases hj : j = t'
    · subst hj
      simp [Option.map_map, Function.comp_def]
    · simp [hj]

/-- A step of a task that does not hold `side`'s lock leaves what that broadcast owes. -/
theorem owed_modify_of_ne {s : Sys Addr} {side : Side} {i : Nat}
    (h : (s.state side).holder ≠ some i) (f : Agent Addr → Agent Addr) (t : Nat) :
    (s.modify i f).owed side t = s.owed side t :=
  owed_congr (by rw [modify_state]) fun j hj => by
    rw [modify_agents_of_ne _ _ fun hji => h (by rw [← hji]; exact hj)]

theorem owed_update_of_ne (s : Sys Addr) {side side' : Side} (g : Shared Addr → Shared Addr)
    (h : side' ≠ side) (t : Nat) : (s.update side g).owed side' t = s.owed side' t :=
  owed_congr (by rw [update_state_of_ne _ _ h]) fun _ _ => by rw [update_agents]

/-- A channel of the room stays as it is when its task keeps its channel and its listener and
every broadcast owes it what it owed. -/
theorem channel_eq_at {s s' : Sys Addr} {t : Nat}
    (hag : (s'.agents t).map (fun Q => (Q.inbox, Q.side)) =
      (s.agents t).map fun Q => (Q.inbox, Q.side))
    (howed : ∀ side, s'.owed side t = s.owed side t) : s'.room.channel t = s.room.channel t := by
  simp only [room_channel, howed]
  simpa only [Option.map_map, Function.comp_def] using
    congrArg (Option.map fun p : List Msg × Side => p.1 ++ s.owed p.2 t) hag

theorem channel_eq {s s' : Sys Addr}
    (hag : ∀ t, (s'.agents t).map (fun Q => (Q.inbox, Q.side)) =
      (s.agents t).map fun Q => (Q.inbox, Q.side))
    (howed : ∀ side t, s'.owed side t = s.owed side t) : s'.room.channel = s.room.channel :=
  funext fun t => channel_eq_at (hag t) fun side => howed side t

omit [DecidableEq Addr] in
theorem agents_modify_frame {s : Sys Addr} {i : Nat} {A : Agent Addr} (hA : s.agents i = some A)
    {f : Agent Addr → Agent Addr} (hin : (f A).inbox = A.inbox) (hside : (f A).side = A.side)
    (t : Nat) : ((s.modify i f).agents t).map (fun Q => (Q.inbox, Q.side)) =
      (s.agents t).map fun Q => (Q.inbox, Q.side) := by
  by_cases ht : t = i
  · subst ht
    simp [hA, hin, hside]
  · simp [ht]

section Holder

variable {s : Sys Addr} (hr : s.Registry) {i : Nat} {A : Agent Addr} (hA : s.agents i = some A)
include hr hA

/-- A task never holds the lock of its own listener's map. -/
theorem Registry.holder_ne_own : (s.state A.side).holder ≠ some i := fun h => by
  obtain ⟨B, hB, hside, -⟩ := (hr.holder _ i).1 h
  rw [hA] at hB
  cases hB
  exact Side.swap_ne _ hside

/-- A task outside a fan-out loop holds no lock. -/
theorem Registry.holder_ne (hp : ∀ m q, A.phase ≠ .active (.fanOut m q)) (side : Side) :
    (s.state side).holder ≠ some i := fun h => by
  obtain ⟨B, hB, -, m, q, hq⟩ := (hr.holder _ i).1 h
  rw [hA] at hB
  cases hB
  exact hp m q hq

end Holder

/-- A broadcast owes nothing to a task that does not exist. -/
theorem Registry.owed_fresh {s : Sys Addr} (hr : s.Registry) {t : Nat} (ht : s.agents t = none)
    (side : Side) : s.owed side t = [] := by
  rcases hx : (s.state side).holder with _ | i
  · exact owed_of_free hx t
  obtain ⟨P, hP, -, m, q, hp⟩ := (hr.holder side i).1 hx
  have hq : ∀ e ∈ q, e.2 ≠ t := fun e he het => by
    obtain ⟨B, hB, -⟩ := (hr.peers _ e.1 e.2).1
      (Shared.mem_entries.1 ((hr.pending hP hp).subset he))
    rw [het, ht] at hB
    cases hB
  have hno : (q.any fun e => e.2 == t && e.1 != P.addr) = false :=
    List.any_eq_false.2 fun e he => by simp [hq e he]
  simp [owed_of_holder hx hP, Agent.owed, hp, hno]

/-- No entry of `side`'s map is a task of the other listener. -/
theorem Registry.not_member {s : Sys Addr} (hr : s.Registry) {t : Nat} {Q : Agent Addr}
    (hQ : s.agents t = some Q) {side : Side} (hside : Q.side ≠ side) (addr : Addr) :
    s.room.receives side addr t = false := by
  simp only [Room.receives, room_members, List.any_eq_false, Bool.and_eq_true, beq_iff_eq,
    not_and]
  intro e he het _
  obtain ⟨B, hB, hB', -⟩ := (hr.peers side e.1 e.2).1 (AList.mem_lookup_iff.2 he)
  rw [het, hQ] at hB
  cases hB
  exact absurd hB' hside

/-- The maps of the room after a change of `side`'s map. -/
theorem members_update (s : Sys Addr) (side : Side) (g : Shared Addr → Shared Addr) (i : Nat)
    (f : Agent Addr → Agent Addr) :
    ((s.update side g).modify i f).room.members =
      Function.update s.room.members side (g (s.state side)).peers := by
  funext side'
  by_cases h : side' = side
  · subst h
    simp [room]
  · simp [room, h, update_state_of_ne]

/-- A connection accepted by the listener `side` opens the new task's channel. -/
theorem Registry.room_spawn {s : Sys Addr} (hr : s.Registry) (side : Side) (addr : Addr)
    (socket : TcpStream) :
    (spawn side s addr socket).room = s.room.connect side s.accepted := by
  have hfresh := hr.fresh _ le_rfl
  have howed : ∀ side' t, (spawn side s addr socket).owed side' t = s.owed side' t :=
    fun side' t => owed_congr (by rw [spawn_state]) fun j hj => by
      obtain ⟨P, hP, -⟩ := (hr.holder side' j).1 hj
      rw [spawn_agents_of_some _ _ _ _ hfresh hP, hP]
  refine Room.ext (funext fun side' => by simp [Room.connect]) (funext fun t => ?_)
    (funext fun t => ?_) (funext fun t => ?_) <;> by_cases ht : t = s.accepted
  · subst ht
    simp only [Room.connect, room_channel, howed, Function.update_same]
    simp [spawn, hr.owed_fresh hfresh]
  · simp only [Room.connect, room_channel, howed, Function.update_noteq ht]
    simp [spawn, ht]
  · subst ht; simp [Room.connect, spawn]
  · simp [Room.connect, spawn, ht]
  · subst ht; simp [Room.connect, spawn, hfresh, Agent.joinedName]
  · simp [Room.connect, spawn, ht]

/-- Taking the lock of the other listener's map is the broadcast of the line, all at once: the
line is owed, from then on, to every entry of the map but one under the task's own address. -/
theorem Registry.room_lock {s : Sys Addr} (hr : s.Registry) {i : Nat} {A : Agent Addr}
    (hA : s.agents i = some A) {m : Bytes} (hp : A.phase = .active (.lock m))
    (hh : (s.state A.side.swap).holder = none) :
    ((s.update A.side.swap fun st =>
        { st with holder := some i, fanned := st.fanned ++ [(i, A.said.length)] }).modify i
      (·.lockStep m (s.state A.side.swap).entries)).room =
      s.room.broadcast A.side.swap A.addr ⟨A.line m, (i, A.said.length)⟩ := by
  set s' := (s.update A.side.swap fun st =>
      { st with holder := some i, fanned := st.fanned ++ [(i, A.said.length)] }).modify i
    (·.lockStep m (s.state A.side.swap).entries)
  have hfree := hr.holder_ne hA (by simp [hp]) A.side
  -- the broadcast's own map: the line is owed to its entries
  have hswap : ∀ t, s'.owed A.side.swap t =
      if s.room.receives A.side.swap A.addr t then [⟨A.line m, (i, A.said.length)⟩] else [] :=
    fun t => by
      rw [owed_of_holder (i := i) (P := A.lockStep m (s.state A.side.swap).entries) (by simp [s'])
        (by simp [s', hA])]
      simp only [Agent.owed, Agent.lockStep, Agent.line, Room.receives, room_members,
        Shared.any_entries]
  -- the task's own map: nothing changes
  have hown : ∀ t, s'.owed A.side t = s.owed A.side t := fun t => by
    rw [owed_modify_of_ne (by rwa [update_state_of_ne _ _ (Side.ne_swap A.side)]),
      owed_update_of_ne _ _ (Side.ne_swap A.side)]
  refine Room.ext (by funext side; simp [s', Room.broadcast, room, update_peers_eq]) ?_
    (room_side_step (by simp) hA rfl)
    (room_name_step (by simp) hA (by simp [Agent.joinedName, Agent.lockStep, hp]))
  funext t
  rcases hQ : s.agents t with _ | Q
  · have hti : t ≠ i := fun h => by rw [h, hA] at hQ; cases hQ
    simp [s', Room.broadcast, room, hQ, hti]
  obtain ⟨Q', hQ', hin, hside⟩ : ∃ Q', s'.agents t = some Q' ∧ Q'.inbox = Q.inbox ∧
      Q'.side = Q.side := by
    by_cases hti : t = i
    · subst hti
      rw [hA] at hQ
      cases hQ
      exact ⟨A.lockStep m (s.state A.side.swap).entries, by simp [s', hA], rfl, rfl⟩
    · exact ⟨Q, by simp [s', hti, hQ], rfl, rfl⟩
  simp only [room_channel, Room.broadcast, hQ', hQ, Option.map_some', hin, hside,
    List.append_assoc]
  rcases Side.eq_or_eq_swap A.side Q.side with hs | hs
  · rw [hs, hown, hr.not_member hQ (by rw [hs]; exact Side.ne_swap _) A.addr]
    simp [room]
  · rw [hs, hswap, owed_of_free hh]
    rfl

section Broadcast

variable {s : Sys Addr} (hr : s.Registry) {i : Nat} {A : Agent Addr} (hA : s.agents i = some A)
  {m : Bytes}
include hr hA

/-- The entry under the task's own address is passed over: nothing was owed to it. -/
theorem Registry.room_skip {a : Addr} {t' : Nat} {rest : List (Addr × Nat)}
    (hp : A.phase = .active (.fanOut m ((a, t') :: rest))) (ha : a = A.addr) :
    (s.modify i (·.visit m rest)).room = s.room := by
  have hhold := (hr.holder _ i).2 ⟨A, hA, rfl, m, _, hp⟩
  refine Room.ext (funext fun _ => by simp) (channel_eq (agents_modify_frame hA rfl rfl) ?_)
    (room_side_step rfl hA rfl)
    (room_name_step rfl hA (by simp [Agent.joinedName, Agent.visit, hp]))
  intro side t
  rcases Side.eq_or_eq_swap A.side side with rfl | rfl
  · exact owed_modify_of_ne (hr.holder_ne_own hA) _ t
  · rw [owed_of_holder hhold hA, owed_of_holder (i := i) (P := A.visit m rest) (by simp [hhold])
      (by simp [hA])]
    simp only [Agent.owed, Agent.visit, Agent.line, hp, List.any_cons, ha, bne_self_eq_false,
      Bool.and_false, Bool.false_or]

/-- The line sent on an entry's channel is what the broadcast owed it. -/
theorem Registry.room_send {a : Addr} {t' : Nat} {rest : List (Addr × Nat)}
    (hp : A.phase = .active (.fanOut m ((a, t') :: rest))) (ha : a ≠ A.addr) {B : Agent Addr}
    (hB : s.agents t' = some B) :
    ((s.modify i (·.visit m rest)).modify t' (·.push ⟨A.line m, (i, A.said.length)⟩)).room =
      s.room := by
  have hhold := (hr.holder _ i).2 ⟨A, hA, rfl, m, _, hp⟩
  have hti : t' ≠ i := hr.pending_ne hA hp
  have hrest := hr.pending_snd hA hp
  obtain ⟨B', hB', hside, -⟩ := hr.pending_owner hA hp
  rw [hB] at hB'
  cases hB'
  -- the broadcast owes `t'` the line before the visit, and nothing after it
  have howed : ∀ side t, ((s.modify i (·.visit m rest)).modify t'
      (·.push ⟨A.line m, (i, A.said.length)⟩)).owed side t =
      if side = A.side.swap ∧ t = t' then [] else s.owed side t := fun side t => by
    rw [owed_push]
    rcases Side.eq_or_eq_swap A.side side with rfl | rfl
    · simp [owed_modify_of_ne (hr.holder_ne_own hA)]
    · rw [owed_of_holder hhold hA, owed_of_holder (i := i) (P := A.visit m rest) (by simp [hhold])
        (by simp [hA])]
      by_cases ht : t = t'
      · subst ht
        have hno : (rest.any fun e => e.2 == t && e.1 != A.addr) = false :=
          List.any_eq_false.2 fun e he => by simp [hrest e he]
        simp [Agent.owed, Agent.visit, hno]
      · have hne : (t' == t) = false := by simp [Ne.symm ht]
        simp only [Agent.owed, Agent.visit, Agent.line, hp, List.any_cons, hne, Bool.false_and,
          Bool.false_or, ht, and_false, if_false]
  have hB₁ : (s.modify i (·.visit m rest)).agents t' = some B := by simp [hti, hB]
  refine Room.ext (funext fun _ => by simp) (funext fun t => ?_)
    ((room_side_step rfl hB₁ rfl).trans (room_side_step rfl hA rfl))
    ((room_name_step rfl hB₁ rfl).trans
      (room_name_step rfl hA (by simp [Agent.joinedName, Agent.visit, hp])))
  by_cases ht : t = t'
  · subst ht
    simp [hti, hB, hside, howed, owed_of_holder hhold hA, Agent.owed, hp, ha]
  · refine channel_eq_at ?_ fun side => by rw [howed, if_neg fun h => ht h.2]
    rw [modify_agents_of_ne _ _ ht]
    exact agents_modify_frame hA rfl rfl t

/-- The loop is over and the lock released: the broadcast owed nothing more. -/
theorem Registry.room_release (hp : A.phase = .active (.fanOut m [])) :
    ((s.update A.side.swap fun st => { st with holder := none }).modify i (·.release m)).room =
      s.room := by
  have hhold := (hr.holder _ i).2 ⟨A, hA, rfl, m, _, hp⟩
  refine Room.ext (funext fun side => ?_) (channel_eq (fun t => ?_) fun side t => ?_)
    (room_side_step (by simp) hA rfl)
    (room_name_step (by simp) hA (by simp [Agent.joinedName, Agent.release, hp]))
  · simp [update_peers_eq _ (g := fun st => { st with holder := none }) (fun _ => rfl)]
  · rw [agents_modify_frame (by simpa using hA) rfl rfl, update_agents]
  · rcases Side.eq_or_eq_swap A.side side with rfl | rfl
    · rw [owed_modify_of_ne
        (by rw [update_state_of_ne _ _ (Side.ne_swap _)]; exact hr.holder_ne_own hA),
        owed_update_of_ne _ _ (Side.ne_swap _)]
    · rw [owed_of_free (by simp), owed_of_holder hhold hA]
      simp [Agent.owed, hp]

end Broadcast

section Own

variable {s : Sys Addr} (hr : s.Registry) {i : Nat} {A : Agent Addr} (hA : s.agents i = some A)
include hr hA

/-- A step of a task outside a fan-out loop, after a change of the maps that keeps the locks,
leaves every channel of the room: the task's own channel and listener stay, and it owes nothing. -/
theorem Registry.room_channel_own {u : Sys Addr} {f : Agent Addr → Agent Addr}
    (hag : u.agents = s.agents) (hh : ∀ side, (u.state side).holder = (s.state side).holder)
    (hf : Agent.Step A (f A)) (hp : ∀ m q, A.phase ≠ .active (.fanOut m q)) :
    (u.modify i f).room.channel = s.room.channel :=
  channel_eq (fun t => by rw [agents_modify_frame (hag ▸ hA) hf.frame.2.2 hf.frame.1, hag])
    fun side t => by
      rw [owed_modify_of_ne (by rw [hh]; exact hr.holder_ne hA hp side)]
      exact owed_congr (hh side) fun j _ => by rw [hag]

/-- A step of a task that neither joins nor broadcasts changes nothing the room shows. -/
theorem Registry.room_quiet {f : Agent Addr → Agent Addr} (hf : Agent.Step A (f A))
    (hn : A.phase = .naming → A.name = none) (hj : A.phase ≠ .joining)
    (hp : ∀ m q, A.phase ≠ .active (.fanOut m q)) : (s.modify i f).room = s.room :=
  Room.ext (funext fun _ => by simp) (hr.room_channel_own hA rfl (fun _ => rfl) hf hp)
    (room_side_step rfl hA hf.frame.1) (room_name_step rfl hA (hf.joinedName_eq hn hj))

/-- `CPeer::new` joins the task's side under its address, with its name. -/
theorem Registry.room_join (hp : A.phase = .joining) {n : Bytes} (hn : A.name = some n) :
    ((s.update A.side fun st => { st with peers := st.peers.insert A.addr i }).modify i
      Agent.join).room = s.room.join A.side A.addr i n := by
  refine Room.ext (members_update _ _ _ _ _)
    (hr.room_channel_own hA (by simp) (fun _ => update_holder _ (by intro; rfl) _) (.join hp)
      (by simp [hp]))
    (room_side_step (by simp) hA rfl) (funext fun t => ?_)
  by_cases ht : t = i
  · subst ht; simp [Room.join, hA, Agent.joinedName, Agent.join, hn]
  · simp [Room.join, ht]

/-- `Drop` removes the task's own entry. -/
theorem Registry.room_drop {x : Exit} (hp : A.phase = .finished x) :
    ((s.update A.side fun st => { st with peers := st.peers.erase A.addr }).modify i
      Agent.dropped).room = s.room.leave A.side A.addr :=
  Room.ext (members_update _ _ _ _ _)
    (hr.room_channel_own hA (by simp) (fun _ => update_holder _ (by intro; rfl) _) (.dropped hp)
      (by simp [hp]))
    (room_side_step (by simp) hA rfl)
    (room_name_step (by simp) hA (by simp [Agent.joinedName, Agent.dropped, hp]))

/-- A task that is not broadcasting into the map of its own listener has no entry there. -/
theorem Registry.lookup_joining (hp : A.phase = .joining) :
    (s.state A.side).peers.lookup A.addr = none := by
  rcases hl : (s.state A.side).peers.lookup A.addr with _ | t
  · rfl
  obtain ⟨B, hB, hside, haddr, hreg⟩ := (hr.peers _ _ _).1 hl
  obtain rfl := hr.distinct hB hA hside hreg.live (by simp [hp, Phase.Live]) haddr
  rw [hA] at hB
  cases hB
  simp [hp, Phase.Registered] at hreg

end Own

/-- Every step of the server is one step of the room or none: an accept opens a channel,
`CPeer::new` joins the task's side under its name, `Drop` removes its own entry, the lock taken
for a broadcast is the broadcast, and all else (the visits and the release of the lock included)
changes nothing the room shows. -/
theorem Reachable.room_step {s s' : Sys Addr} (hs : s.Reachable) {a : Action Addr}
    (h : s.step a = some s') : s'.room = s.room ∨ Room.Step s.room s'.room := by
  have hr := hs.registry
  cases a with
  | accept side addr ins outs =>
    rw [step_accept] at h
    cases h
    rw [hr.room_spawn]
    exact .inr (.connect side (by simp [hr.fresh _ le_rfl]))
  | run i =>
    obtain ⟨A, hA, hm⟩ := step_run_move h
    have hin := hs.inbound hA
    -- a task past its name has one, and it holds no terminator
    have named : A.phase ≠ .naming → A.phase ≠ .gone → ∃ n, A.name = some n ∧ ¬ HasCrlf n :=
      fun h₁ h₂ => by
        obtain ⟨n, hn⟩ := Option.ne_none_iff_exists'.1 fun hn => (hin.unnamed hn).2.elim h₁ h₂
        exact ⟨n, hn, hin.not_hasCrlf_heard (by simp [Agent.heard, hn])⟩
    have quiet : ∀ {f : Agent Addr → Agent Addr}, Agent.Step A (f A) → A.phase ≠ .joining →
        (∀ m q, A.phase ≠ .active (.fanOut m q)) → (s.modify i f).room = s.room :=
      fun hf => hr.room_quiet hA hf hin.naming
    -- a member's entry in its own listener's map
    have member : A.phase.Registered → (s.state A.side).peers.lookup A.addr = some i :=
      fun hreg => (hr.peers _ _ _).2 ⟨A, hA, rfl, rfl, hreg⟩
    cases hm with
    | intoFuture hp => exact .inl (quiet (.intoFuture hp) (by simp [hp]) (by simp [hp]))
    | begin hp => exact .inl (quiet (.begin hp) (by simp [hp]) (by simp [hp]))
    | drain hp => exact .inl (quiet (.drain _ hp) (by simp [hp]) (by simp [hp]))
    | flush hp => exact .inl (quiet (.flush hp) (by simp [hp]) (by simp [hp]))
    | read hp => exact .inl (quiet (.read hp) (by simp [hp]) (by simp [hp]))
    | free hp => exact .inl (quiet (.free hp) (by simp [hp]) (by simp [hp]))
    | new hp _ =>
      obtain ⟨n, hn, hx⟩ := named (by simp [hp]) (by simp [hp])
      rw [hr.room_join hA hp hn]
      exact .inr (.join (by simp [hA]) (hr.lookup_joining hA hp)
        (by simp [hA, Agent.joinedName, hp]) hx)
    | drop hp _ =>
      rw [hr.room_drop hA hp]
      exact .inr (.leave (member (by simp [hp])))
    | @lock m hp hh =>
      obtain ⟨n, hn, -⟩ := named (by simp [hp]) (by simp [hp])
      rw [hr.room_lock hA hp hh, show A.line m = relay n m by simp [Agent.line, hn]]
      exact .inr (.broadcast _ (member (by simp [hp])) (by simp [hA, Agent.joinedName, hp, hn])
        (hin.not_hasCrlf_heard (by simp [Agent.heard, Agent.inFlight, hp])))
    | skip hp ha => exact .inl (hr.room_skip hA hp ha)
    | send hp ha hB _ => exact .inl (hr.room_send hA hp ha hB)
    | abort hp _ hno =>
      obtain ⟨B, hB, hrx⟩ := hr.send_ok hA hp
      exact absurd hrx (hno B hB)
    | release hp => exact .inl (hr.room_release hA hp)

/-- The room of a reachable state is reached by the room's steps. -/
theorem Reachable.room_reachable {s : Sys Addr} (hs : s.Reachable) :
    Relation.ReflTransGen Room.Step Room.init s.room := by
  induction hs with
  | init =>
    rw [show (Sys.init : Sys Addr).room = Room.init from
      Room.ext (funext fun side => by cases side <;> rfl) rfl rfl rfl]
  | step hs _ h ih =>
    rcases hs.room_step h with heq | hstep
    · rwa [heq]
    · exact ih.tail hstep

/-- The room's guarantees hold of every reachable state of the server. -/
theorem Reachable.room_sound {s : Sys Addr} (hs : s.Reachable) : s.room.Sound :=
  Room.sound_of_reachable hs.room_reachable

end Sys

/-- The server refines the chat room: in every reachable state, the room the server shows is
reached from the empty room by the room's guarded steps, every broadcast among them made at once
by a member of the other side, and so it keeps the room's guarantees. -/
theorem server_refines_room {s : Sys Addr} (hs : s.Reachable) :
    Relation.ReflTransGen Room.Step Room.init s.room ∧ s.room.Sound :=
  ⟨hs.room_reachable, hs.room_sound⟩

/-- `relayed` shows a room reached by the room's steps. -/
theorem server_refines_room_relayed :
    relayed.Reachable ∧ Relation.ReflTransGen Room.Step Room.init relayed.room ∧
      relayed.room.Sound :=
  ⟨.relayed, server_refines_room .relayed⟩

end DoubleServer
