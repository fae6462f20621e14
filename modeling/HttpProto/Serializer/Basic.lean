import HttpProto.Buffers.CircularBuffer
import HttpProto.Buffers.BufferArray
import HttpProto.Chunk

/-!
# The serializer's state and the start of a message

A `Serializer` holds what `serializer` holds between calls: the workspace, the descriptor array
`out_` the caller's view is read from, the caller's body buffers `buf_`, the two circular
buffers, the style and the flags. The header producer's bytes and the caller's buffers are part
of `Memory`, since the serializer only points into them.

The source and the compression filter are the environment: a `Source` is what `read` returns
at one `prepare`, for every destination size, and a `Filter` what the `k`-th `on_process` of
one `prepare` returns. Quantifying over them, `prepare` after `prepare`, covers every stateful
source and filter.

The workspace is taken as the region the circular buffers and the literals of a message are
carved from: `wsSize` is what `ws_.size()` reads once the descriptor arrays and the filter have
taken their share, and `front` is `ws_.data()`, which `reserve_front` moves.

## Main definitions

* `Message`: the header's bytes and the metadata the serializer reads
* `startInit`, `startEmpty`, `startBuffers`, `startSource`, `startStream`: the `start_*`
  functions
-/

namespace HttpProto

/-- `http_proto::encoding`, the content-coding of the body. -/
inductive Encoding where
  | identity
  | deflate
  | gzip
  deriving DecidableEq, Repr

/-- What the serializer reads of a message: the header's bytes, `transfer_encoding.is_chunked`,
`transfer_encoding.encoding` and `expect.is_100_continue`. A header always has a start line,
so its bytes are never empty. -/
structure Message where
  header : List Byte
  header_ne : header ≠ []
  isChunked : Bool
  encoding : Encoding
  expect100 : Bool

/-- `*hp_ = { m.ph_->cbuf, m.ph_->size }`: the descriptor of the whole header. -/
def Message.headerBuffer (m : Message) : ConstBuffer := ⟨.header, 0, m.header.length⟩

/-- `serializer::style`, with `none` before any `start_*`. -/
inductive Style where
  | none
  | empty
  | buffers
  | source
  | stream
  deriving DecidableEq, Repr

/-- What `prepare` reports through its error channel: the two sentinels, and a failed read's
error code. -/
inductive Error where
  | expect100Continue
  | needData
  | source (ec : Nat)
  deriving DecidableEq, Repr

/-- What one `read(dest)` reports: the bytes it wrote at the front of `dest`, whether the body
is finished, and its error code (`0` when it did not fail). -/
structure ReadResult where
  bytes : List Byte
  finished : Bool
  ec : Nat
  deriving DecidableEq, Repr

/-- Whether a read ends the body: it did not fail and reported the end. -/
def ReadResult.ends (r : ReadResult) : Bool := r.ec == 0 && r.finished

theorem ReadResult.ends_of_failed {r : ReadResult} (h : r.ec ≠ 0) : r.ends = false := by
  simp [ReadResult.ends, h]

theorem ReadResult.ends_of_ok {r : ReadResult} (h : r.ec = 0) : r.ends = r.finished := by
  simp [ReadResult.ends, h]

/-- The source at one `prepare`: what `read` returns for a destination of each size; it never
writes more than the destination holds. -/
structure Source where
  read : Nat → ReadResult
  read_le : ∀ n, (read n).bytes.length ≤ n

/-- What one `on_process(out, in, more)` reports: input taken, the output it wrote at the front
of `out`, and whether the coded stream is finished. -/
structure FilterResult where
  inBytes : Nat
  out : List Byte
  finished : Bool
  deriving DecidableEq, Repr

/-- The filter at one `prepare`: what its `k`-th `on_process` returns for an output buffer of
each size, an input and a `more` flag; it takes no more than it is offered and writes no more
than fits. -/
structure Filter where
  process : Nat → Nat → List Byte → Bool → FilterResult
  in_le : ∀ k o i m, (process k o i m).inBytes ≤ i.length
  out_le : ∀ k o i m, (process k o i m).out.length ≤ o

/-- A source that writes the front of `d`, as much as fits, and reports `finished` and the
error code `ec`. -/
def Source.ofList (d : List Byte) (finished : Bool) (ec : Nat) : Source :=
  ⟨fun n => ⟨d.take n, finished, ec⟩, fun n => by simp⟩

/-- A filter whose `k`-th call reports the `k`-th of `rs`, cut to what it is offered, and
takes and writes nothing after them. -/
def Filter.ofList (rs : List FilterResult) : Filter :=
  ⟨fun k o i _ => let r := rs.getD k ⟨0, [], false⟩; ⟨min r.inBytes i.length, r.out.take o, r.finished⟩,
   fun _ _ _ _ => by simp, fun _ _ _ _ => by simp⟩

/-- A call of the source or of the filter. -/
inductive Event where
  | read (size : Nat) (r : ReadResult)
  | process (outSize : Nat) (input : List Byte) (more : Bool) (r : FilterResult)
  deriving DecidableEq, Repr

/-- What a read returned, for a call of the source. -/
def Event.readResult : Event → Option ReadResult
  | .read _ r => some r
  | .process .. => none

/-- What a call wrote into `tmp0_`: a filter call its output, a read nothing. -/
def Event.output : Event → List Byte
  | .read .. => []
  | .process _ _ _ r => r.out

/-- The state of a `serializer` between calls. -/
structure Serializer where
  wsSize : Nat
  front : Nat
  mem : Memory
  out : BufferArray
  buf : BufferArray
  tmp0 : CircularBuffer
  tmp1 : CircularBuffer
  st : Style
  more : Bool
  isDone : Bool
  isChunked : Bool
  isExpectContinue : Bool
  isCompressed : Bool
  filterDone : Bool

namespace Serializer

/-- `serializer(ctx, buffer_size)`, before any message. -/
def new (wsSize : Nat) : Serializer where
  wsSize := wsSize
  front := 0
  mem := ⟨[], [], fun _ => 0⟩
  out := ⟨[], 0⟩
  buf := ⟨[], 0⟩
  tmp0 := .ofSlice 0 0
  tmp1 := .ofSlice 0 0
  st := .none
  more := false
  isDone := false
  isChunked := false
  isExpectContinue := false
  isCompressed := false
  filterDone := false

/-- `*hp_`, the header slot: the first slot of the array `start_*` made. -/
def hp (s : Serializer) : ConstBuffer := s.out.slots.headD .empty

/-- `ws_.size()`. -/
def wsFree (s : Serializer) : Nat := s.wsSize - s.front

/-- `reset()`: clear the workspace and the flags. -/
def reset (s : Serializer) : Serializer :=
  { s with front := 0, more := false, isDone := false, isChunked := false,
           isExpectContinue := false, isCompressed := false, filterDone := false }

/-- `start_init(m)`: reset, then read the message's metadata; a content-coding other than
identity also makes the filter, which lives outside the modelled workspace. -/
def startInit (s : Serializer) (m : Message) : Serializer :=
  { s.reset with isDone := false, isExpectContinue := m.expect100, isChunked := m.isChunked,
                 isCompressed := m.encoding != .identity }

/-- `start_empty(m)`: the view is the header, then the last-chunk when chunked. -/
def startEmpty (s : Serializer) (m : Message) : Except Fault Serializer :=
  let s := { s.startInit m with st := .empty, mem := { s.mem with header := m.header } }
  if !s.isChunked then .ok { s with out := ⟨[m.headerBuffer], 0⟩ }
  else if s.wsFree < 5 then .error .lengthError
  else .ok { s with out := ⟨[m.headerBuffer, ⟨.ws, s.front, 5⟩], 0⟩,
                    mem := s.mem.store (List.range' s.front 5) lastChunk }

/-- `start_buffers(m)`, once `buf_` holds the caller's buffers: compressed, they are the
filter's input and `tmp0_` its output; otherwise the view is the header then the buffers, and
when chunked one size line before them and CRLF and the last-chunk after them. -/
def startBuffers (s : Serializer) (m : Message) : Except Fault Serializer :=
  let s := { s with st := .buffers, mem := { s.mem with header := m.header } }
  if s.isCompressed then
    .ok { s with out := ⟨[m.headerBuffer, .empty, .empty], 0⟩,
                 tmp0 := .ofSlice s.front s.wsFree, more := true }
  else if !s.isChunked then .ok { s with out := ⟨m.headerBuffer :: s.buf.data, 0⟩ }
  else if s.wsFree < 18 + 7 then .error .lengthError
  else
    (writeChunkHeader s.mem (List.range' s.front 18) (bufferSize s.buf.data)).map fun mem =>
      { s with out := ⟨m.headerBuffer :: ⟨.ws, s.front, 18⟩ :: s.buf.data ++
                         [⟨.ws, s.front + 18, 7⟩], 0⟩,
               mem := mem.store (List.range' (s.front + 18) 7) (crlf ++ lastChunk) }

/-- The descriptors of the caller's buffers. -/
def userBuffers (bufs : List (List Byte)) : List ConstBuffer :=
  (List.range bufs.length).map fun i => ⟨.user i, 0, (bufs.getD i []).length⟩

/-- Modelled from the spec: `start_buffers(msg, bufs)` of §6, whose template in serializer.hpp
(absent from src/) calls `start_init`, points `buf_` at the caller's buffers and calls
`start_buffers(m)`. -/
def startWithBuffers (s : Serializer) (m : Message) (bufs : List (List Byte)) :
    Except Fault Serializer :=
  let s := s.startInit m
  startBuffers { s with buf := ⟨userBuffers bufs, 0⟩, mem := { s.mem with user := bufs } } m

/-- The common part of `start_source` and `start_stream`: three slots, `tmp1_` from the front
half of the workspace when compressed, `tmp0_` from the rest, which must hold a chunk of one
byte. -/
def startTmp (s : Serializer) (m : Message) (st : Style) : Except Fault Serializer :=
  let s := { s with st, out := ⟨[m.headerBuffer, .empty, .empty], 0⟩,
                    mem := { s.mem with header := m.header } }
  let s := if s.isCompressed then
      { s with tmp1 := .ofSlice s.front (s.wsFree / 2), front := s.front + s.wsFree / 2 }
    else s
  let s := { s with tmp0 := .ofSlice s.front s.wsFree }
  if s.tmp0.capacity < 18 + 1 + 2 + 5 then .error .lengthError
  else .ok { s with more := true }

/-- `start_source(m, src)`. -/
def startSource (s : Serializer) (m : Message) : Except Fault Serializer :=
  s.startTmp m .source

/-- Modelled from the spec: `start_source(msg, source)` of §6, whose template in
serializer.hpp (absent from src/) calls `start_init`, makes the source and calls
`start_source(m, src)`. -/
def startWithSource (s : Serializer) (m : Message) : Except Fault Serializer :=
  (s.startInit m).startSource m

/-- `start_stream(m)`. -/
def startStream (s : Serializer) (m : Message) : Except Fault Serializer :=
  (s.startInit m).startTmp m .stream

/-! ## What the body's machinery leaves alone -/

/-- The part of the state only `start_*`, `consume` and the `Expect: 100-continue` branch of
`prepare` change: the style, the flags, and the header's and the caller's bytes. -/
def frame (s : Serializer) : Style × Bool × Bool × Bool × Bool × List Byte × List (List Byte) :=
  (s.st, s.isDone, s.isChunked, s.isExpectContinue, s.isCompressed, s.mem.header, s.mem.user)

/-- `s'` has the frame of `s`. -/
def Keeps (s s' : Serializer) : Prop := s'.frame = s.frame

namespace Keeps

variable {s s' s'' : Serializer}

theorem trans (h : Keeps s s') (h' : Keeps s' s'') : Keeps s s'' := Eq.trans h' h

theorem st (h : Keeps s s') : s'.st = s.st := congrArg (·.1) h
theorem isDone (h : Keeps s s') : s'.isDone = s.isDone := congrArg (·.2.1) h
theorem isChunked (h : Keeps s s') : s'.isChunked = s.isChunked := congrArg (·.2.2.1) h
theorem isExpectContinue (h : Keeps s s') : s'.isExpectContinue = s.isExpectContinue :=
  congrArg (·.2.2.2.1) h
theorem isCompressed (h : Keeps s s') : s'.isCompressed = s.isCompressed :=
  congrArg (·.2.2.2.2.1) h
theorem header (h : Keeps s s') : s'.mem.header = s.mem.header := congrArg (·.2.2.2.2.2.1) h
theorem user (h : Keeps s s') : s'.mem.user = s.mem.user := congrArg (·.2.2.2.2.2.2) h

end Keeps

/-! ## What each `start_*` returns -/

section Start

variable {s s₀ : Serializer} {m : Message}

/-- What `start_empty` returns: the message's flags on a reset serializer, in empty style, with
the header slot alone, or chunked the header slot and the last-chunk copied to the front of the
workspace, once its room is checked. -/
theorem startEmpty_eq_ok (h : s.startEmpty m = .ok s₀) :
    (m.isChunked = false ∧ s₀ = { (s.startInit m) with
      st := .empty, out := ⟨[m.headerBuffer], 0⟩, mem := { s.mem with header := m.header } }) ∨
    (m.isChunked = true ∧ 5 ≤ s.wsSize ∧ s₀ = { (s.startInit m) with
      st := .empty, out := ⟨[m.headerBuffer, ⟨.ws, 0, 5⟩], 0⟩
      mem := { s.mem with header := m.header }.store (List.range' 0 5) lastChunk }) := by
  simp only [startEmpty] at h
  split_ifs at h with hch hroom
  · cases h; exact .inl ⟨by simpa [startInit] using hch, rfl⟩
  · cases h
    refine .inr ⟨by simpa [startInit] using hch, ?_, rfl⟩
    simp only [startInit, reset, wsFree] at hroom; omega

/-- What `start_buffers` returns, in buffers style on the caller's buffers: under content-coding
three slots and all of the workspace for `tmp0_`; otherwise the header slot then the buffers,
and chunked a size line before them and CRLF and the last-chunk after them, copied to the front
of the workspace once its room is checked. -/
theorem startWithBuffers_eq_ok {bufs : List (List Byte)} (h : s.startWithBuffers m bufs = .ok s₀) :
    (m.encoding ≠ .identity ∧ s₀ = { (s.startInit m) with
      buf := ⟨userBuffers bufs, 0⟩, st := .buffers
      mem := { s.mem with user := bufs, header := m.header }
      out := ⟨[m.headerBuffer, .empty, .empty], 0⟩, tmp0 := .ofSlice 0 s.wsSize, more := true }) ∨
    (m.encoding = .identity ∧ m.isChunked = false ∧ s₀ = { (s.startInit m) with
      buf := ⟨userBuffers bufs, 0⟩, st := .buffers
      mem := { s.mem with user := bufs, header := m.header }
      out := ⟨m.headerBuffer :: userBuffers bufs, 0⟩ }) ∨
    (m.encoding = .identity ∧ m.isChunked = true ∧ 25 ≤ s.wsSize ∧ s₀ = { (s.startInit m) with
      buf := ⟨userBuffers bufs, 0⟩, st := .buffers
      out := ⟨m.headerBuffer :: ⟨.ws, 0, 18⟩ :: userBuffers bufs ++ [⟨.ws, 18, 7⟩], 0⟩
      mem := ({ s.mem with user := bufs, header := m.header }.store (List.range' 0 18)
        (chunkHeaderBytes (bufferSize (userBuffers bufs)))).store (List.range' 18 7)
        (crlf ++ lastChunk) }) := by
  simp only [startWithBuffers, startBuffers] at h
  split_ifs at h with hc hch hroom
  · cases h; exact .inl ⟨by simpa [startInit] using hc, by simp [startInit, reset, wsFree]⟩
  · cases h; exact .inr (.inl ⟨by simpa [startInit] using hc, by simpa [startInit] using hch, rfl⟩)
  · obtain ⟨mem, hmem, rfl⟩ := map_eq_ok.mp h
    obtain ⟨-, rfl⟩ := writeChunkHeader_eq_ok.mp hmem
    simp only [startInit, reset, wsFree] at hroom
    exact .inr (.inr ⟨by simpa [startInit] using hc, by simpa [startInit] using hch, by omega, rfl⟩)

/-- What the common part of `start_source` and `start_stream` returns: three slots, under
content-coding `tmp1_` on the front half of the free workspace, `tmp0_` on the rest, which holds
a chunk of one byte, and the body open. -/
theorem startTmp_eq_ok {st : Style} (h : s.startTmp m st = .ok s₀) :
    (s.isCompressed = true ∧ 26 ≤ s.wsSize - (s.front + s.wsFree / 2) ∧ s₀ = { s with
      st, out := ⟨[m.headerBuffer, .empty, .empty], 0⟩, mem := { s.mem with header := m.header }
      tmp1 := .ofSlice s.front (s.wsFree / 2), front := s.front + s.wsFree / 2
      tmp0 := .ofSlice (s.front + s.wsFree / 2) (s.wsSize - (s.front + s.wsFree / 2))
      more := true }) ∨
    (s.isCompressed = false ∧ 26 ≤ s.wsFree ∧ s₀ = { s with
      st, out := ⟨[m.headerBuffer, .empty, .empty], 0⟩, mem := { s.mem with header := m.header }
      tmp0 := .ofSlice s.front s.wsFree, more := true }) := by
  simp only [startTmp] at h
  split_ifs at h with hc hlt hlt
  · cases h
    exact .inl ⟨hc, by simpa [CircularBuffer.capacity, CircularBuffer.ofSlice, wsFree] using hlt, rfl⟩
  · cases h
    exact .inr ⟨by simpa using hc, by simpa [CircularBuffer.capacity, CircularBuffer.ofSlice] using hlt,
      rfl⟩

end Start

/-! ## What every `start_*` leaves -/

/-- `s` is what one of the `start_*` functions returned for `m`, from any serializer. -/
inductive Started (m : Message) : Serializer → Prop
  | empty {s s₀ : Serializer} : s.startEmpty m = .ok s₀ → Started m s₀
  | buffers {s s₀ : Serializer} {bufs : List (List Byte)} :
      s.startWithBuffers m bufs = .ok s₀ → Started m s₀
  | source {s s₀ : Serializer} : s.startWithSource m = .ok s₀ → Started m s₀
  | stream {s s₀ : Serializer} : s.startStream m = .ok s₀ → Started m s₀

/-- The flags `start_init` takes from the message, and the header alone before the body in
`out_`. -/
structure Fresh (m : Message) (s : Serializer) : Prop where
  isDone : s.isDone = false
  isExpectContinue : s.isExpectContinue = m.expect100
  isChunked : s.isChunked = m.isChunked
  isCompressed : s.isCompressed = (m.encoding != .identity)
  pos : s.out.pos = 0
  hp : s.hp = m.headerBuffer
  header : s.mem.header = m.header

theorem startEmpty_fresh {s s₀ : Serializer} {m : Message} (h : s.startEmpty m = .ok s₀) :
    Fresh m s₀ := by
  rcases startEmpty_eq_ok h with ⟨-, rfl⟩ | ⟨-, -, rfl⟩ <;> exact ⟨rfl, rfl, rfl, rfl, rfl, rfl, rfl⟩

theorem startWithBuffers_fresh {s s₀ : Serializer} {m : Message} {bufs : List (List Byte)}
    (h : s.startWithBuffers m bufs = .ok s₀) : Fresh m s₀ := by
  rcases startWithBuffers_eq_ok h with ⟨-, rfl⟩ | ⟨-, -, rfl⟩ | ⟨-, -, -, rfl⟩ <;>
    exact ⟨rfl, rfl, rfl, rfl, rfl, rfl, rfl⟩

theorem startTmp_fresh {s s₀ : Serializer} {m : Message} {st : Style}
    (h : s.startTmp m st = .ok s₀) :
    s₀.isDone = s.isDone ∧ s₀.isExpectContinue = s.isExpectContinue ∧
      s₀.isChunked = s.isChunked ∧ s₀.isCompressed = s.isCompressed ∧ s₀.out.pos = 0 ∧
      s₀.hp = m.headerBuffer ∧ s₀.mem.header = m.header := by
  rcases startTmp_eq_ok h with ⟨-, -, rfl⟩ | ⟨-, -, rfl⟩ <;> exact ⟨rfl, rfl, rfl, rfl, rfl, rfl, rfl⟩

theorem startWithSource_fresh {s s₀ : Serializer} {m : Message}
    (h : s.startWithSource m = .ok s₀) : Fresh m s₀ := by
  obtain ⟨h1, h2, h3, h4, h5, h6, h7⟩ := startTmp_fresh h
  exact ⟨h1, h2, h3, h4, h5, h6, h7⟩

theorem startStream_fresh {s s₀ : Serializer} {m : Message} (h : s.startStream m = .ok s₀) :
    Fresh m s₀ := by
  obtain ⟨h1, h2, h3, h4, h5, h6, h7⟩ := startTmp_fresh h
  exact ⟨h1, h2, h3, h4, h5, h6, h7⟩

theorem Started.fresh {m : Message} {s : Serializer} (h : Started m s) : Fresh m s := by
  cases h with
  | empty h => exact startEmpty_fresh h
  | buffers h => exact startWithBuffers_fresh h
  | source h => exact startWithSource_fresh h
  | stream h => exact startStream_fresh h

end Serializer

end HttpProto
