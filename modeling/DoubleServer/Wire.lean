import Mathlib.Data.List.Infix

/-!
# The wire format of the relay

`double_server.rs` speaks plain text over TCP.  A client sends lines, each ended by the two
bytes `\r\n`; the server reads the first as the client's name and relays every later line as
`name ++ ": " ++ line ++ "\r\n"`.

This file holds the byte-level part of the development.

* `findCrlf` is the scan of `Lines::poll`,
  `self.rd.windows(2).enumerate().find(|&(_, bytes)| bytes == b"\r\n")`.
* `relay` is the message that `CPeer::poll` and `GOPeer::poll` build for a line.
* `splitLines` is what the scan is *for*, and is ours: it cuts a byte string into the
  segments that precede each CR LF and the bytes after the last one, in one left-to-right
  pass that shares nothing with `findCrlf`.  `splitLines_spec` and `splitLines_lines_append`
  say that it is the only such decomposition, and `splitLines_line` is where the scan of the
  code meets it.
-/

namespace DoubleServer

/-- The contents of a `BytesMut` or `Bytes` buffer. -/
abbrev Bytes := List UInt8

/-- `b'\r'`. -/
def cr : UInt8 := 13

/-- `b'\n'`. -/
def lf : UInt8 := 10

/-- The line terminator `b"\r\n"`. -/
def crlf : Bytes := [cr, lf]

/-- The separator `b": "` that `CPeer::poll` puts between a name and a line. -/
def colonSpace : Bytes := [58, 32]

/-- The line `name: message\r\n` that `CPeer::poll` and `GOPeer::poll` send to the peers of
the other listener for a line `message` read from the client called `name`. -/
def relay (name message : Bytes) : Bytes := name ++ colonSpace ++ message ++ crlf

/-- `s` contains a line terminator. -/
def HasCrlf (s : Bytes) : Prop := crlf <:+: s

instance (s : Bytes) : Decidable (HasCrlf s) := inferInstanceAs (Decidable (crlf <:+: s))

/-! ## Where a terminator can sit -/

theorem not_hasCrlf_nil : ¬ HasCrlf [] := by simp [HasCrlf, crlf]

theorem hasCrlf_cons {a : UInt8} {s : Bytes} :
    HasCrlf (a :: s) ↔ (a = cr ∧ s.head? = some lf) ∨ HasCrlf s := by
  unfold HasCrlf
  rw [List.infix_cons_iff]
  cases s <;> simp [crlf, @eq_comm _ cr, @eq_comm _ lf]

/-- A terminator of `a ++ b` lies in `a`, in `b`, or across the join. -/
theorem hasCrlf_append {a b : Bytes} :
    HasCrlf (a ++ b) ↔ HasCrlf a ∨ HasCrlf b ∨ (a.getLast? = some cr ∧ b.head? = some lf) := by
  induction a with
  | nil => simp [not_hasCrlf_nil]
  | cons x a ih =>
    rw [List.cons_append, hasCrlf_cons, ih, hasCrlf_cons]
    cases a with
    | nil => simp [not_hasCrlf_nil, or_comm]
    | cons y a => simp only [List.cons_append, List.head?_cons, List.getLast?_cons_cons, or_assoc]

theorem HasCrlf.append_left {a : Bytes} (b : Bytes) (h : HasCrlf a) : HasCrlf (a ++ b) :=
  hasCrlf_append.2 (.inl h)

theorem HasCrlf.append_right (a : Bytes) {b : Bytes} (h : HasCrlf b) : HasCrlf (a ++ b) :=
  hasCrlf_append.2 (.inr (.inl h))

/-- A relayed line carries no terminator of its own when the name and the line carry none:
neither `:` nor ` ` can complete a CR LF across a join. -/
theorem not_hasCrlf_relayed {name message : Bytes} (hn : ¬ HasCrlf name)
    (hm : ¬ HasCrlf message) : ¬ HasCrlf (name ++ colonSpace ++ message) := by
  have hlast : (name ++ colonSpace).getLast? = some 32 := by simp [colonSpace]
  intro h
  rcases hasCrlf_append.1 h with h | h | ⟨h, -⟩
  · rcases hasCrlf_append.1 h with h | h | ⟨-, h⟩
    · exact hn h
    · exact absurd h (by decide)
    · exact absurd h (by decide)
  · exact hm h
  · exact absurd (hlast.symm.trans h) (by decide)

/-! ## The scan of `Lines::poll` -/

/-- The scan of `Lines::poll`: the index of the first window of two bytes equal to
`b"\r\n"`. -/
def findCrlf : Bytes → Option Nat
  | [] => none
  | a :: rest => if a = cr ∧ rest.head? = some lf then some 0 else (findCrlf rest).map (· + 1)

theorem findCrlf_eq_none_iff {s : Bytes} : findCrlf s = none ↔ ¬ HasCrlf s := by
  induction s with
  | nil => simp [findCrlf, not_hasCrlf_nil]
  | cons a rest ih =>
    rw [hasCrlf_cons]
    by_cases h : a = cr ∧ rest.head? = some lf <;> simp [findCrlf, h, ih]

/-- The scan finds the first terminator: the bytes before it hold none. -/
theorem findCrlf_eq_some {s : Bytes} {p : Nat} (h : findCrlf s = some p) :
    ∃ x t, s = x ++ crlf ++ t ∧ x.length = p ∧ ¬ HasCrlf x := by
  induction s generalizing p with
  | nil => simp [findCrlf] at h
  | cons a rest ih =>
    by_cases hc : a = cr ∧ rest.head? = some lf
    · simp only [findCrlf, hc, and_self, ite_true, Option.some.injEq] at h
      obtain ⟨rfl, hl⟩ := hc
      cases rest with
      | nil => simp at hl
      | cons b t =>
        simp only [List.head?_cons, Option.some.injEq] at hl
        exact ⟨[], t, by simp [crlf, hl], h, not_hasCrlf_nil⟩
    · simp only [findCrlf, hc, ite_false, Option.map_eq_some'] at h
      obtain ⟨q, hq, rfl⟩ := h
      obtain ⟨x, t, rfl, rfl, hx⟩ := ih hq
      refine ⟨a :: x, t, rfl, rfl, fun hax => ?_⟩
      rcases hasCrlf_cons.1 hax with ⟨ha, hl⟩ | hx'
      · cases x with
        | nil => simp at hl
        | cons y x => exact hc ⟨ha, by simpa using hl⟩
      · exact hx hx'

/-- Conversely, a terminator with none before it is the one the scan finds. -/
theorem findCrlf_line {x : Bytes} (t : Bytes) (hx : ¬ HasCrlf x) :
    findCrlf (x ++ crlf ++ t) = some x.length := by
  induction x with
  | nil => simp [findCrlf, crlf]
  | cons a x ih =>
    have hc : ¬ (a = cr ∧ (x ++ crlf ++ t).head? = some lf) := by
      cases x with
      | nil => simp [crlf, cr, lf]
      | cons y x => simpa [hasCrlf_cons] using fun h => hx (hasCrlf_cons.2 (.inl h))
    rw [List.cons_append, List.cons_append, findCrlf, if_neg hc,
      ih fun h => hx (hasCrlf_cons.2 (.inr h))]
    rfl

/-! ## Splitting a stream into lines -/

/-- One left-to-right pass over `s`, with `cur` the line read so far: a LF that follows a CR
ends the line, and the bytes after the last terminator are returned as they are. -/
def splitFrom (cur : Bytes) : Bytes → List Bytes × Bytes
  | [] => ([], cur)
  | b :: rest =>
    if b = lf ∧ cur.getLast? = some cr then
      ((cur.dropLast) :: (splitFrom [] rest).1, (splitFrom [] rest).2)
    else splitFrom (cur ++ [b]) rest

/-- The lines a byte stream carries, terminators stripped, and the unterminated rest. -/
def splitLines (s : Bytes) : List Bytes × Bytes := splitFrom [] s

/-- The bytes that `lines` occupy on the wire. -/
def framed (lines : List Bytes) : Bytes := (lines.map (· ++ crlf)).flatten

@[simp] theorem framed_nil : framed [] = [] := rfl

@[simp] theorem framed_cons (x : Bytes) (xs : List Bytes) :
    framed (x :: xs) = x ++ crlf ++ framed xs := by simp [framed]

@[simp] theorem framed_append (xs ys : List Bytes) :
    framed (xs ++ ys) = framed xs ++ framed ys := by simp [framed]

/-- Bytes that complete no terminator are taken into the current line. -/
theorem splitFrom_append {c d : Bytes} (t : Bytes) (h : ¬ HasCrlf (c ++ d)) :
    splitFrom c (d ++ t) = splitFrom (c ++ d) t := by
  induction d generalizing c with
  | nil => simp
  | cons b d ih =>
    have hb : ¬ (b = lf ∧ c.getLast? = some cr) := fun ⟨hb, hc⟩ =>
      h (hasCrlf_append.2 (.inr (.inr ⟨hc, by simp [hb]⟩)))
    rw [List.cons_append, splitFrom, if_neg hb, ih (by simpa using h)]
    simp

theorem splitFrom_crlf (c t : Bytes) :
    splitFrom c (crlf ++ t) = (c :: (splitLines t).1, (splitLines t).2) := by
  simp [splitFrom, crlf, cr, lf, splitLines]

/-- A line with no terminator of its own is cut off at the terminator that follows it. -/
theorem splitLines_line {x : Bytes} (t : Bytes) (hx : ¬ HasCrlf x) :
    splitLines (x ++ crlf ++ t) = (x :: (splitLines t).1, (splitLines t).2) := by
  rw [splitLines, List.append_assoc, splitFrom_append _ (by simpa using hx)]
  exact splitFrom_crlf x t

/-- Bytes with no terminator are all rest. -/
theorem splitLines_of_not_hasCrlf {s : Bytes} (h : ¬ HasCrlf s) : splitLines s = ([], s) := by
  simpa using splitFrom_append (c := []) (d := s) [] (by simpa using h)

/-- Framed lines that carry no terminator of their own come back as they were sent. -/
theorem splitLines_lines_append {xs : List Bytes} (t : Bytes) (h : ∀ x ∈ xs, ¬ HasCrlf x) :
    splitLines (framed xs ++ t) = (xs ++ (splitLines t).1, (splitLines t).2) := by
  induction xs with
  | nil => simp
  | cons x xs ih =>
    simp only [List.mem_cons, forall_eq_or_imp] at h
    rw [framed_cons, List.append_assoc, List.append_assoc, ← List.append_assoc x,
      splitLines_line _ h.1, ih h.2]
    simp

/-- The decomposition `splitLines` computes: the stream is its lines, each followed by a
terminator, and then the rest; no line and not the rest holds a terminator. -/
theorem splitFrom_spec {c : Bytes} (s : Bytes) (hc : ¬ HasCrlf c) :
    framed (splitFrom c s).1 ++ (splitFrom c s).2 = c ++ s ∧
      (∀ x ∈ (splitFrom c s).1, ¬ HasCrlf x) ∧ ¬ HasCrlf (splitFrom c s).2 := by
  induction s generalizing c with
  | nil => simpa [splitFrom] using hc
  | cons b s ih =>
    by_cases hb : b = lf ∧ c.getLast? = some cr
    · obtain ⟨c', rfl⟩ := List.getLast?_eq_some_iff.1 hb.2
      obtain ⟨h1, h2, h3⟩ := ih not_hasCrlf_nil (c := [])
      simp only [splitFrom, hb, and_self, ite_true, List.dropLast_concat, framed_cons,
        List.mem_cons, forall_eq_or_imp]
      refine ⟨by simp [h1, crlf, hb.1], ⟨fun h => hc (h.append_left _), h2⟩, h3⟩
    · simp only [splitFrom, hb, ite_false]
      refine (ih ?_).imp (by simp) id
      rw [hasCrlf_append]
      rintro (h | h | ⟨hc', hl⟩)
      · exact hc h
      · exact absurd h.length_le (by simp [crlf])
      · exact hb ⟨by simpa using hl, hc'⟩

theorem splitLines_spec (s : Bytes) :
    framed (splitLines s).1 ++ (splitLines s).2 = s ∧
      (∀ x ∈ (splitLines s).1, ¬ HasCrlf x) ∧ ¬ HasCrlf (splitLines s).2 := by
  simpa using splitFrom_spec (c := []) s not_hasCrlf_nil

/-! ## Part of a stream of lines -/

theorem HasCrlf.mono {s u : Bytes} (h : HasCrlf s) (hs : s <+: u) : HasCrlf u :=
  h.trans hs.isInfix

/-- A line with no terminator of its own, followed by the first byte of one, has none. -/
theorem not_hasCrlf_append_cr {t : Bytes} (ht : ¬ HasCrlf t) : ¬ HasCrlf (t ++ [cr]) := by
  rw [hasCrlf_append]
  rintro (h | h | ⟨-, h⟩)
  · exact ht h
  · exact absurd h.length_le (by simp [crlf])
  · exact absurd h (by decide)

/-- A prefix of framed lines, as the reader of a connection holds it at any moment, splits into
the lines it holds whole and a rest that is part of the next line, at most that line and its CR:
no line comes out cut short or merged with the next. -/
theorem splitLines_prefix_framed {ts : List Bytes} (h : ∀ t ∈ ts, ¬ HasCrlf t) {p : Bytes}
    (hp : p <+: framed ts) :
    ∃ k, (splitLines p).1 = ts.take k ∧
      (splitLines p).2 <+: ((ts.drop k).head?.map (· ++ [cr])).getD [] := by
  induction ts generalizing p with
  | nil =>
    obtain rfl := List.prefix_nil.1 hp
    exact ⟨0, rfl, List.prefix_refl _⟩
  | cons t ts ih =>
    simp only [List.mem_cons, forall_eq_or_imp] at h
    rw [framed_cons] at hp
    by_cases hlen : p.length ≤ t.length + 1
    · -- the terminator of `t` has not arrived whole: all of `p` is rest
      have hcr : t ++ [cr] <+: t ++ crlf ++ framed ts := ⟨lf :: framed ts, by simp [crlf]⟩
      have hp' := List.prefix_of_prefix_length_le hp hcr (by simpa using hlen)
      have hsplit := splitLines_of_not_hasCrlf fun hc => not_hasCrlf_append_cr h.1 (hc.mono hp')
      exact ⟨0, by rw [hsplit]; rfl, by rw [hsplit]; exact hp'⟩
    · -- `t` and its terminator have arrived: the rest comes from the lines after it
      obtain ⟨p', rfl⟩ := List.prefix_of_prefix_length_le (List.prefix_append _ _) hp
        (by simp [crlf]; omega)
      obtain ⟨k, hk, hr⟩ := ih h.2 ((List.prefix_append_right_inj _).1 hp)
      refine ⟨k + 1, ?_, ?_⟩
      · rw [splitLines_line _ h.1, hk]; rfl
      · rwa [splitLines_line _ h.1]

end DoubleServer
