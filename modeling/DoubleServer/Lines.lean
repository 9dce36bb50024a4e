import DoubleServer.Wire

/-!
# The `Lines` codec

`Lines` wraps a client's `TcpStream` with a read buffer `rd` and a write buffer `wr`.  The
socket is the environment: a `TcpStream` here is the list of results its reads will return,
the list of results its writes will return, and what it has delivered and accepted so far.
Every behaviour of a real socket over a finite run is such a pair of lists, so a statement
over every `TcpStream` covers every socket, every split of the input into reads included.

`buffer`, `poll_flush`, `fill_read_buf` and `Stream::poll` are transcribed from
`double_server.rs`; their loops run over the socket's results, so they are structurally
recursive and evaluate.  The results:

* `pollFlush_sent_wr`: `poll_flush` moves a prefix of `wr` onto the socket and nothing else,
  and `pollFlush_ready` returns `Ready` only with `wr` empty;
* `poll_splitLines`: one `Lines::poll` yields the next line of the bytes not yet yielded and
  nothing else, however those bytes arrived;
* `collect_eq_splitLines`: polling until the end of the stream yields exactly the lines of
  the stream, whatever the reads and the would-blocks between them.
-/

namespace DoubleServer

/-- `Poll<T, io::Error>` of futures 0.1: a value, not ready yet, or an I/O error. -/
inductive Poll (α : Type) where
  | ready (a : α)
  | notReady
  | err
deriving DecidableEq, Repr

/-- The item a result of `Lines::poll` carries, if any. -/
def Poll.item : Poll (Option Bytes) → Option Bytes
  | .ready x => x
  | _ => none

/-- One `read_buf` on the socket: `Ready(n)` with the `n ≥ 1` bytes it read, `NotReady`, or
an error.  `Ready(0)`, the end of input, is what every read returns once the results in a
`TcpStream` are used up. -/
inductive Incoming where
  | data (b : UInt8) (bs : Bytes)
  | wouldBlock
  | error
deriving DecidableEq, Repr

/-- The bytes that a list of read results delivers. -/
def Incoming.bytes : List Incoming → Bytes
  | [] => []
  | .data b bs :: ins => b :: bs ++ bytes ins
  | .wouldBlock :: ins => bytes ins
  | .error :: ins => bytes ins

/-- One `poll_write` on the socket: `Ready(n)`, `NotReady`, or an error. -/
inductive Outgoing where
  | written (n : Nat)
  | wouldBlock
  | error
deriving DecidableEq, Repr

/-- A connected `TcpStream`, as the code sees it through its reads and writes. -/
structure TcpStream where
  /-- Results of the reads still to come; after them every read returns `Ready(0)`. -/
  incoming : List Incoming
  /-- Results of the writes still to come; after them every write would block. -/
  outgoing : List Outgoing
  /-- The bytes the reads have returned so far. -/
  received : Bytes := []
  /-- The bytes the writes have accepted so far. -/
  sent : Bytes := []
deriving DecidableEq, Repr

/-- `Lines`: the socket, the read buffer `rd` and the write buffer `wr`. -/
structure Lines where
  socket : TcpStream
  rd : Bytes := []
  wr : Bytes := []
deriving DecidableEq, Repr

namespace Lines

/-- `Lines::new`. -/
def new (socket : TcpStream) : Lines := { socket }

/-- `Lines::buffer`: push `line` onto the end of the write buffer; `reserve` only grows the
capacity. -/
def buffer (l : Lines) (line : Bytes) : Lines := { l with wr := l.wr ++ line }

/-- The `while !self.wr.is_empty()` loop of `poll_flush`, over the results of the socket's
writes.  It returns the outcome (`none` when `assert!(n > 0)` or `split_to(n)` panics), the
write buffer, the bytes the socket has accepted, and the results still to come. -/
def flushLoop : Bytes → Bytes → List Outgoing →
    Option (Poll Unit) × Bytes × Bytes × List Outgoing
  | [], sent, outs => (some (.ready ()), [], sent, outs)
  | wr@(_ :: _), sent, [] => (some .notReady, wr, sent, [])
  | wr@(_ :: _), sent, .wouldBlock :: outs => (some .notReady, wr, sent, outs)
  | wr@(_ :: _), sent, .error :: outs => (some .err, wr, sent, outs)
  | wr@(_ :: _), sent, .written n :: outs =>
    if n = 0 ∨ wr.length < n then (none, wr, sent, outs)
    else flushLoop (wr.drop n) (sent ++ wr.take n) outs

/-- `Lines::poll_flush`; an outcome `none` is a panic. -/
def pollFlush (l : Lines) : Option (Poll Unit) × Lines :=
  let r := flushLoop l.wr l.socket.sent l.socket.outgoing
  (r.1, { l with wr := r.2.1, socket := { l.socket with sent := r.2.2.1, outgoing := r.2.2.2 } })

/-- The `loop` of `fill_read_buf`, over the results of the socket's reads: how it ends, the
bytes it reads into `rd`, and the results still to come. -/
def readLoop : List Incoming → Poll Unit × Bytes × List Incoming
  | [] => (.ready (), [], [])
  | .data b bs :: ins => ((readLoop ins).1, b :: bs ++ (readLoop ins).2.1, (readLoop ins).2.2)
  | .wouldBlock :: ins => (.notReady, [], ins)
  | .error :: ins => (.err, [], ins)

/-- `Lines::fill_read_buf`: read until the socket would block (`NotReady`) or reaches the end
of input (`Ready`). -/
def fillReadBuf (l : Lines) : Poll Unit × Lines :=
  let r := readLoop l.socket.incoming
  (r.1, { l with
    rd := l.rd ++ r.2.1
    socket := { l.socket with incoming := r.2.2, received := l.socket.received ++ r.2.1 } })

/-- `Stream::poll` for `Lines`: fill the read buffer, then split off its first line; with no
line in the buffer the stream ends if the socket has closed. -/
def poll (l : Lines) : Poll (Option Bytes) × Lines :=
  let f := l.fillReadBuf
  if f.1 = .err then (.err, f.2) else
  match findCrlf f.2.rd with
  | some pos => (.ready (some (f.2.rd.take pos)), { f.2 with rd := f.2.rd.drop (pos + 2) })
  | none => (if f.1 = .ready () then .ready none else .notReady, f.2)

/-- Everything the client sends on the connection: what the reads have returned so far and
what they will return. -/
def stream (l : Lines) : Bytes := l.socket.received ++ Incoming.bytes l.socket.incoming

/-- The bytes the codec has not yielded as lines yet: the read buffer and what the reads will
return. -/
def pending (l : Lines) : Bytes := l.rd ++ Incoming.bytes l.socket.incoming

/-- What is left to poll: bounds the number of `Lines::poll` calls before the end. -/
def measure (l : Lines) : Nat := l.pending.length + l.socket.incoming.length

/-! ## Writing -/

@[simp] theorem buffer_wr (l : Lines) (line : Bytes) : (l.buffer line).wr = l.wr ++ line := rfl
@[simp] theorem buffer_rd (l : Lines) (line : Bytes) : (l.buffer line).rd = l.rd := rfl
@[simp] theorem buffer_socket (l : Lines) (line : Bytes) : (l.buffer line).socket = l.socket :=
  rfl

theorem flushLoop_sent_wr (wr sent : Bytes) (outs : List Outgoing) :
    (flushLoop wr sent outs).2.2.1 ++ (flushLoop wr sent outs).2.1 = sent ++ wr := by
  induction outs generalizing wr sent with
  | nil => cases wr <;> simp [flushLoop]
  | cons o outs ih =>
    cases wr with
    | nil => simp [flushLoop]
    | cons b bs =>
      cases o with
      | written n =>
        simp only [flushLoop]
        split
        · rfl
        · rw [ih, List.append_assoc, List.take_append_drop]
      | wouldBlock | error => rfl

theorem flushLoop_ready {wr sent : Bytes} {outs : List Outgoing}
    (h : (flushLoop wr sent outs).1 = some (.ready ())) : (flushLoop wr sent outs).2.1 = [] := by
  induction outs generalizing wr sent with
  | nil => cases wr <;> simp_all [flushLoop]
  | cons o outs ih =>
    cases wr with
    | nil => rfl
    | cons b bs =>
      cases o with
      | written n =>
        simp only [flushLoop] at h ⊢
        split at h
        · simp at h
        · rwa [if_neg ‹_›, ih]
      | wouldBlock | error => simp [flushLoop] at h

/-- The bytes the socket has accepted are never taken back. -/
theorem flushLoop_sent_prefix (wr sent : Bytes) (outs : List Outgoing) :
    sent <+: (flushLoop wr sent outs).2.2.1 := by
  induction outs generalizing wr sent with
  | nil => cases wr <;> exact List.prefix_refl _
  | cons o outs ih =>
    cases wr with
    | nil => exact List.prefix_refl _
    | cons b bs =>
      cases o with
      | written n =>
        simp only [flushLoop]
        split
        · exact List.prefix_refl _
        · exact (List.prefix_append _ _).trans (ih _ _)
      | wouldBlock | error => exact List.prefix_refl _

theorem pollFlush_sent_prefix (l : Lines) : l.socket.sent <+: (l.pollFlush).2.socket.sent :=
  flushLoop_sent_prefix _ _ _

/-- `poll_flush` only moves bytes from the front of `wr` onto the socket. -/
theorem pollFlush_sent_wr (l : Lines) :
    (l.pollFlush).2.socket.sent ++ (l.pollFlush).2.wr = l.socket.sent ++ l.wr :=
  flushLoop_sent_wr _ _ _

/-- `poll_flush` returns `Ready` only once the write buffer is empty. -/
theorem pollFlush_ready {l : Lines} (h : (l.pollFlush).1 = some (.ready ())) :
    (l.pollFlush).2.wr = [] :=
  flushLoop_ready h

@[simp] theorem pollFlush_rd (l : Lines) : (l.pollFlush).2.rd = l.rd := rfl
@[simp] theorem pollFlush_incoming (l : Lines) :
    (l.pollFlush).2.socket.incoming = l.socket.incoming := rfl
@[simp] theorem pollFlush_received (l : Lines) :
    (l.pollFlush).2.socket.received = l.socket.received := rfl

/-! ## Reading -/

theorem readLoop_bytes (ins : List Incoming) :
    (readLoop ins).2.1 ++ Incoming.bytes (readLoop ins).2.2 = Incoming.bytes ins := by
  induction ins with
  | nil => rfl
  | cons i ins ih => cases i <;> simp [readLoop, Incoming.bytes, ih]

theorem readLoop_ready {ins : List Incoming} (h : (readLoop ins).1 = .ready ()) :
    (readLoop ins).2.2 = [] := by
  induction ins with
  | nil => rfl
  | cons i ins ih => cases i <;> simp_all [readLoop]

/-- `fill_read_buf` returns `NotReady` only after its reads returned data and then would
block. -/
theorem readLoop_notReady {ins : List Incoming} (h : (readLoop ins).1 = .notReady) :
    ∃ pre, ins = pre ++ .wouldBlock :: (readLoop ins).2.2 ∧ ∀ i ∈ pre, i ≠ .wouldBlock ∧ i ≠ .error := by
  induction ins with
  | nil => simp [readLoop] at h
  | cons i ins ih =>
    cases i with
    | data b bs =>
      obtain ⟨pre, hpre, hp⟩ := ih h
      exact ⟨.data b bs :: pre, by simp [readLoop, ← hpre], by simpa using hp⟩
    | wouldBlock => exact ⟨[], rfl, by simp⟩
    | error => simp [readLoop] at h

theorem readLoop_suffix (ins : List Incoming) : (readLoop ins).2.2 <:+ ins := by
  induction ins with
  | nil => exact List.suffix_refl _
  | cons i ins ih =>
    cases i with
    | data b bs => exact ih.trans (List.suffix_cons _ _)
    | wouldBlock | error => exact List.suffix_cons _ _

theorem readLoop_ne_err {ins : List Incoming} (h : .error ∉ ins) : (readLoop ins).1 ≠ .err := by
  induction ins with
  | nil => simp [readLoop]
  | cons i ins ih => cases i <;> simp_all [readLoop]

/-- A read loop that does not reach the end of input uses up at least one result. -/
theorem readLoop_length {ins : List Incoming} (h : (readLoop ins).1 ≠ .ready ()) :
    (readLoop ins).2.2.length < ins.length := by
  induction ins with
  | nil => simp [readLoop] at h
  | cons i ins ih =>
    cases i with
    | data b bs => exact (ih h).trans (Nat.lt_succ_self _)
    | wouldBlock | error => simp [readLoop]

@[simp] theorem fillReadBuf_wr (l : Lines) : (l.fillReadBuf).2.wr = l.wr := rfl
@[simp] theorem fillReadBuf_sent (l : Lines) : (l.fillReadBuf).2.socket.sent = l.socket.sent :=
  rfl
@[simp] theorem fillReadBuf_outgoing (l : Lines) :
    (l.fillReadBuf).2.socket.outgoing = l.socket.outgoing := rfl

theorem fillReadBuf_stream (l : Lines) : (l.fillReadBuf).2.stream = l.stream := by
  simp [fillReadBuf, stream, readLoop_bytes]

theorem fillReadBuf_pending (l : Lines) : (l.fillReadBuf).2.pending = l.pending := by
  simp [fillReadBuf, pending, readLoop_bytes]

theorem fillReadBuf_ready {l : Lines} (h : (l.fillReadBuf).1 = .ready ()) :
    (l.fillReadBuf).2.socket.incoming = [] :=
  readLoop_ready h

/-- What one `Lines::poll` can do: fail in `fill_read_buf`, split off the first line of the
filled buffer, or find no line and report the end of the stream or `NotReady`. -/
theorem poll_cases (l : Lines) :
    ((l.fillReadBuf).1 = .err ∧ l.poll = (.err, (l.fillReadBuf).2)) ∨
    (∃ x t, ¬ HasCrlf x ∧ (l.fillReadBuf).1 ≠ .err ∧ (l.fillReadBuf).2.rd = x ++ crlf ++ t ∧
      l.poll = (.ready (some x), { (l.fillReadBuf).2 with rd := t })) ∨
    ((l.fillReadBuf).1 ≠ .err ∧ ¬ HasCrlf (l.fillReadBuf).2.rd ∧
      l.poll = (if (l.fillReadBuf).1 = .ready () then .ready none else .notReady,
        (l.fillReadBuf).2)) := by
  simp only [poll]
  split
  · exact .inl ⟨‹_›, rfl⟩
  · rename_i hne
    split
    · rename_i pos hpos
      obtain ⟨x, t, hrd, rfl, hx⟩ := findCrlf_eq_some hpos
      refine .inr (.inl ⟨x, t, hx, hne, hrd, ?_⟩)
      simp [hrd, crlf, List.drop_append_eq_append_drop]
    · exact .inr (.inr ⟨hne, findCrlf_eq_none_iff.1 ‹_›, rfl⟩)

@[simp] theorem poll_wr (l : Lines) : (l.poll).2.wr = l.wr := by
  rcases poll_cases l with ⟨-, h⟩ | ⟨x, t, -, -, -, h⟩ | ⟨-, -, h⟩ <;> simp [h]

@[simp] theorem poll_sent (l : Lines) : (l.poll).2.socket.sent = l.socket.sent := by
  rcases poll_cases l with ⟨-, h⟩ | ⟨x, t, -, -, -, h⟩ | ⟨-, -, h⟩ <;> simp [h]

@[simp] theorem poll_outgoing (l : Lines) :
    (l.poll).2.socket.outgoing = l.socket.outgoing := by
  rcases poll_cases l with ⟨-, h⟩ | ⟨x, t, -, -, -, h⟩ | ⟨-, -, h⟩ <;> simp [h]

theorem poll_incoming (l : Lines) :
    (l.poll).2.socket.incoming = (l.fillReadBuf).2.socket.incoming := by
  rcases poll_cases l with ⟨-, h⟩ | ⟨x, t, -, -, -, h⟩ | ⟨-, -, h⟩ <;> simp [h]

/-- The bytes the reads have returned are never taken back. -/
theorem poll_received_prefix (l : Lines) : l.socket.received <+: (l.poll).2.socket.received := by
  rcases poll_cases l with ⟨-, h⟩ | ⟨x, t, -, -, -, h⟩ | ⟨-, -, h⟩ <;> rw [h] <;>
    exact List.prefix_append _ _

theorem poll_stream (l : Lines) : (l.poll).2.stream = l.stream := by
  rw [← fillReadBuf_stream l]
  rcases poll_cases l with ⟨-, h⟩ | ⟨x, t, -, -, -, h⟩ | ⟨-, -, h⟩ <;> simp [h, stream]

/-- One `Lines::poll` yields the first line of the bytes not yet yielded, or nothing, and
keeps the rest: the lines still to come are the same however the bytes were read. -/
theorem poll_splitLines (l : Lines) :
    splitLines l.pending = ((l.poll).1.item.toList ++ (splitLines (l.poll).2.pending).1,
      (splitLines (l.poll).2.pending).2) := by
  rw [← fillReadBuf_pending l]
  rcases poll_cases l with ⟨-, h⟩ | ⟨x, t, hx, -, hrd, h⟩ | ⟨-, -, h⟩
  · simp [h, Poll.item]
  · simp only [h, pending, hrd, Poll.item, Option.toList_some, List.singleton_append,
      List.append_assoc, ← splitLines_line _ hx]
  · rw [h]; split <;> simp [Poll.item]

/-- When the stream ends, no line is left. -/
theorem poll_ready_none {l : Lines} (h : (l.poll).1 = .ready none) :
    (splitLines (l.poll).2.pending).1 = [] := by
  rcases poll_cases l with ⟨-, hp⟩ | ⟨x, t, -, -, -, hp⟩ | ⟨-, hno, hp⟩
  · simp [hp] at h
  · simp [hp] at h
  · rw [hp] at h ⊢
    split at h
    · rename_i hr
      rw [pending, fillReadBuf_ready hr, Incoming.bytes, List.append_nil,
        splitLines_of_not_hasCrlf hno]
    · simp at h

/-- `Lines::poll` returns `NotReady` only when `fill_read_buf`'s read would block. -/
theorem poll_notReady {l : Lines} (h : (l.poll).1 = .notReady) :
    (l.fillReadBuf).1 = .notReady := by
  rcases poll_cases l with ⟨-, hp⟩ | ⟨x, t, -, -, -, hp⟩ | ⟨hne, -, hp⟩
  · simp [hp] at h
  · simp [hp] at h
  · rw [hp] at h
    split at h
    · simp at h
    · rcases hf : (l.fillReadBuf).1 with ⟨⟩ | _ | _ <;> simp_all

theorem poll_ne_err {l : Lines} (h : .error ∉ l.socket.incoming) : (l.poll).1 ≠ .err := by
  rcases poll_cases l with ⟨he, -⟩ | ⟨x, t, -, -, -, hp⟩ | ⟨-, -, hp⟩
  · exact absurd he (readLoop_ne_err h)
  · simp [hp]
  · rw [hp]; split <;> simp

/-- A read buffer that starts with a complete line yields that line, whatever the reads add
behind it, when the reads do not fail. -/
theorem poll_line {l : Lines} {x r : Bytes} (hx : ¬ HasCrlf x) (hrd : l.rd = x ++ crlf ++ r)
    (he : .error ∉ l.socket.incoming) :
    (l.poll).1 = .ready (some x) ∧ ∃ u, (l.poll).2.rd = r ++ u := by
  have hfill : (l.fillReadBuf).2.rd = x ++ crlf ++ (r ++ (readLoop l.socket.incoming).2.1) := by
    simp [fillReadBuf, hrd]
  rcases poll_cases l with ⟨hf, -⟩ | ⟨x', t, hx', -, hrd', hp⟩ | ⟨-, hno, -⟩
  · exact absurd hf (readLoop_ne_err he)
  · have hsplit := (splitLines_line _ hx').symm.trans (hrd' ▸ hfill ▸ splitLines_line _ hx)
    obtain ⟨rfl, -⟩ := List.cons.inj (Prod.mk.inj hsplit).1
    rw [hfill, List.append_cancel_left_eq] at hrd'
    exact ⟨by rw [hp], _, by rw [hp, ← hrd']⟩
  · exact absurd (hfill ▸ (HasCrlf.append_right x (HasCrlf.append_left _ (List.infix_refl _))).append_left _) hno

theorem poll_incoming_suffix (l : Lines) :
    (l.poll).2.socket.incoming <:+ l.socket.incoming := by
  rw [poll_incoming]; exact readLoop_suffix _

/-- Every poll that does not end the stream makes progress. -/
theorem poll_measure {l : Lines} (hn : (l.poll).1 ≠ .ready none) (he : (l.poll).1 ≠ .err) :
    (l.poll).2.measure < l.measure := by
  have h1 := congrArg List.length (fillReadBuf_pending l)
  have h2 : (l.fillReadBuf).2.socket.incoming.length ≤ l.socket.incoming.length :=
    (readLoop_suffix l.socket.incoming).length_le
  rcases poll_cases l with ⟨-, hp⟩ | ⟨x, t, -, -, hrd, hp⟩ | ⟨-, -, hp⟩
  · simp [hp] at he
  · have : (l.fillReadBuf).2.pending.length = x.length + 2 + (l.poll).2.pending.length := by
      simp [hp, pending, hrd, crlf]; omega
    simp only [measure]; rw [poll_incoming]; omega
  · rw [hp] at hn ⊢
    split at hn
    · simp at hn
    · have h3 : (l.fillReadBuf).2.socket.incoming.length < l.socket.incoming.length :=
        readLoop_length ‹_›
      simp only [measure]; omega

/-! ## Reading a whole stream -/

/-- Poll `l` until the stream ends, at most `fuel` times, and collect the lines it yields;
`none` when the fuel runs out first or the socket fails. -/
def collect : Nat → Lines → Option (List Bytes)
  | 0, _ => none
  | n + 1, l =>
    match l.poll with
    | (.ready (some x), l') => (collect n l').map (x :: ·)
    | (.ready none, _) => some []
    | (.notReady, l') => collect n l'
    | (.err, _) => none

/-- Polling a socket that does not fail until the stream ends yields exactly the lines of
the bytes not yet yielded, terminators stripped, and then the end of the stream; the bytes
after the last terminator are never yielded, and how the bytes were split into reads, with
would-blocks between them, does not matter. -/
theorem collect_eq_splitLines {l : Lines} {n : Nat} (h : .error ∉ l.socket.incoming)
    (hn : l.measure < n) : l.collect n = some (splitLines l.pending).1 := by
  induction n generalizing l with
  | zero => exact absurd hn (Nat.not_lt_zero _)
  | succ n ih =>
    have hs := poll_splitLines l
    have he := poll_ne_err h
    have h' : .error ∉ (l.poll).2.socket.incoming := fun hm =>
      h ((poll_incoming_suffix l).subset hm)
    rcases hp : l.poll with ⟨r, l'⟩
    rw [hp] at hs he h'
    cases r with
    | ready x =>
      cases x with
      | none =>
        have := poll_ready_none (l := l) (by rw [hp])
        rw [hp] at this
        simp [collect, hp, hs, this, Poll.item]
      | some x =>
        have hm := poll_measure (l := l) (by rw [hp]; simp) (by rw [hp]; simp)
        rw [hp] at hm
        simp [collect, hp, hs, ih h' (by omega), Poll.item]
    | notReady =>
      have hm := poll_measure (l := l) (by rw [hp]; simp) (by rw [hp]; simp)
      rw [hp] at hm
      simp [collect, hp, hs, ih h' (by omega), Poll.item]
    | err => exact absurd rfl he

/-- The relayed messages go through `Lines::poll` unchanged: a client whose connection
carries the messages `relay nᵢ mᵢ`, over any reads that do not fail, decodes each as one line
`nᵢ: mᵢ` and then the end of the stream, when no name and no message holds a terminator. -/
theorem collect_relay (msgs : List (Bytes × Bytes))
    (hm : ∀ p ∈ msgs, ¬ HasCrlf p.1 ∧ ¬ HasCrlf p.2) (ins : List Incoming)
    (outs : List Outgoing) (he : .error ∉ ins)
    (hb : Incoming.bytes ins = (msgs.map fun p => relay p.1 p.2).flatten) {n : Nat}
    (hn : (new { incoming := ins, outgoing := outs }).measure < n) :
    (new { incoming := ins, outgoing := outs }).collect n =
      some (msgs.map fun p => p.1 ++ colonSpace ++ p.2) := by
  have hpending : (new { incoming := ins, outgoing := outs }).pending =
      framed (msgs.map fun p => p.1 ++ colonSpace ++ p.2) ++ [] := by
    simp [pending, new, hb, framed, relay, Function.comp_def]
  have hlines : ∀ x ∈ msgs.map (fun p => p.1 ++ colonSpace ++ p.2), ¬ HasCrlf x := by
    simp only [List.mem_map]
    rintro _ ⟨p, hp, rfl⟩
    exact not_hasCrlf_relayed (hm p hp).1 (hm p hp).2
  rw [collect_eq_splitLines he hn, hpending, splitLines_lines_append _ hlines]
  simp [splitLines, splitFrom]

/-- Two relayed messages, a lone CR ending the first and an LF opening the second, arriving
in four reads with a would-block between them and the first terminator split across two. -/
theorem collect_relay_split :
    (∀ p ∈ [(([97] : Bytes), ([13] : Bytes)), ([98], [10, 99])],
      ¬ HasCrlf p.1 ∧ ¬ HasCrlf p.2) ∧
    (new { incoming := [.data 97 [58, 32, 13], .wouldBlock, .data 13 [10, 98, 58],
        .data 32 [10, 99, 13, 10]], outgoing := [] }).collect 18 =
      some [[97, 58, 32, 13], [98, 58, 32, 10, 99]] :=
  ⟨by decide, collect_relay [([97], [13]), ([98], [10, 99])] (by decide) _ [] (by decide)
    (by decide) (by decide)⟩

end Lines

end DoubleServer
