import Mathlib.Data.List.Infix
import HttpProto.StreamHandle

/-!
# Stream style: the bytes sent are the framed batches

Without content-coding a stream-style message is sent from the header slot while it is first,
then from `tmp0_`, which each `stream.commit` feeds with the batch the caller wrote, as one chunk
when chunked, and `stream.close` ends with the last-chunk when chunked. As in source style a
session keeps one equation: what the caller sent, followed by what the serializer holds unsent,
is the header followed by the committed batches, framed.

The equation needs the batch to be committed where it was written. A commit makes readable the
bytes at the write position as it stands at the commit, and a `consume` that drains `tmp0_` in
between rewinds it; so the caller's discipline here is to commit each batch by the call right
after the `stream.prepare` it was written into, and none after `stream.close`.

## Main definitions

* `Session.StreamInv`: what holds along a stream-style session without content-coding
* `Session.commitsInPlace`: the caller's discipline with the stream handle

## Main results

* `Session.Run.streamInv`: every run that keeps the discipline keeps the invariant
* `Session.stream_sends_framed_batches`: what the caller has sent is a prefix of the header
  followed by the framed batches, and all of it once the message is done
-/

namespace HttpProto

namespace Serializer

open CircularBuffer

variable {s s' : Serializer}

/-! ## What the stream calls leave unsent -/

/-- A call that keeps the frame and the header slot keeps it pointing at the header. -/
theorem HeaderSlot.of_keeps (hh : HeaderSlot s) (hk : Keeps s s') (hhp : s'.hp = s.hp) :
    HeaderSlot s' :=
  ⟨hhp ▸ hh.region, by rw [hhp, read_of_header hh.region hk.header]; exact hh.fits⟩

/-- A call that keeps the frame and the slots leaves the header part of what is unsent. -/
theorem unsent_of_keeps (hk : Keeps s s') (ho : s'.out = s.out)
    (hh : s.out.pos = 0 → s.hp.region = .header) :
    s'.unsent = (if s.out.pos = 0 then s.mem.read s.hp else []) ++ s'.tmp0.contents s'.mem.ws := by
  have hhp : s'.hp = s.hp := by simp only [hp, ho]
  simp only [unsent, ho, hhp]
  split
  · rw [read_of_header (hh ‹_›) hk.header]
  · rfl

/-- The stream branch of `prepare`: `need_data`, or the view of what is unsent. -/
theorem prepareStream_unsent {p : Prepared} (hv : s.tmp0.Valid) (hslots : s.out.slots.length = 3)
    (h : s.prepareStream = .ok p) :
    p.events = [] ∧ p.next = { s with out := p.next.out } ∧ p.next.out.slots.length = 3 ∧
      p.next.out.pos = s.out.pos ∧ p.next.hp = s.hp ∧ p.next.unsent = s.unsent ∧
      (p.result.map p.next.mem.readAll = .ok p.next.unsent ∨ p.result = .error .needData) := by
  unfold prepareStream at h
  split_ifs at h
  · cases h
    exact ⟨rfl, rfl, hslots, rfl, rfl, rfl, .inr rfl⟩
  · obtain ⟨s₁, h₁, rfl⟩ := map_eq_ok.mp h
    obtain ⟨hnext, hsl, hpos, hhp, hu, hview⟩ := fillSlots_unsent hv hslots h₁
    exact ⟨rfl, hnext, hsl, hpos, hhp, hu, .inl (by simp only [Except.map, hview, hu])⟩

namespace Stream

/-- `stream.prepare` looks at `tmp0_` only through what the last `prepare` offered not at all. -/
theorem prepare_outSize (hc : s.isCompressed = false) (k : Nat) :
    prepare { s with tmp0 := { s.tmp0 with outSize := k } } = prepare s := by
  simp only [prepare, Stream.capacity, CircularBuffer.capacity, CircularBuffer.prepare, hc,
    Bool.false_eq_true, if_false]

/-- `stream.prepare` again right after it offers the same buffer and changes nothing. -/
theorem prepare_again {ps : List Nat} {s₁ : Serializer} (hc : s.isCompressed = false)
    (hv : s.tmp0.Valid) (h : prepare s = .ok (ps, s₁)) :
    prepare s₁ = .ok (ps, s₁) ∧ Keeps s s₁ ∧ s₁.out = s.out ∧ s₁.mem = s.mem ∧
      s₁.more = s.more ∧ s₁.tmp0.Valid ∧ s₁.tmp0.contents s₁.mem.ws = s.tmp0.contents s.mem.ws := by
  obtain ⟨k, rfl, hk⟩ : ∃ k, s₁ = { s with tmp0 := { s.tmp0 with outSize := k } } ∧
      k ≤ s.tmp0.capacity := by
    rcases Bool.eq_false_or_eq_true s.isChunked with hch | hch
    · obtain ⟨hlt, -, rfl⟩ := prepare_eq_ok_chunked hc hch hv h
      exact ⟨chunkHeaderLen + (s.tmp0.capacity - chunkedOverhead), rfl, by
        simp only [chunkHeaderLen, chunkedOverhead] at hlt ⊢; omega⟩
    · obtain ⟨-, rfl⟩ := prepare_eq_ok_identity hc hch hv h
      exact ⟨_, rfl, le_rfl⟩
  refine ⟨(prepare_outSize hc k).trans h, rfl, rfl, rfl, rfl, ⟨hv.inPos_lt, hv.inLen_le, ?_⟩, rfl⟩
  simpa [CircularBuffer.capacity] using hk

theorem commit_more {n : Nat} (h : commit s n = .ok s') : s'.more = s.more := by
  unfold commit at h
  split_ifs at h
  · cases h; rfl
  · cases h; rfl
  · obtain ⟨⟨dest, tmp0⟩, -, h⟩ := bind_eq_ok.mp h
    obtain ⟨mem, -, h⟩ := bind_eq_ok.mp h
    obtain ⟨_, -, rfl⟩ := map_eq_ok.mp h
    rfl

/-- `stream.close()` of an open stream: `tmp0_` gains the last-chunk when chunked, and `more_`
falls. -/
theorem close_contents (hc : s.isCompressed = false) (hv : s.tmp0.Valid) (h : close s = .ok s') :
    s.more = true ∧ s'.more = false ∧ s'.tmp0.Valid ∧
      s'.tmp0.contents s'.mem.ws =
        s.tmp0.contents s.mem.ws ++ if s.isChunked then lastChunk else [] := by
  obtain ⟨hm, ⟨hch, -, s₁, h₁, rfl⟩ | ⟨hch, rfl⟩⟩ := close_eq_ok h
  · obtain ⟨-, hv₁, hc₁⟩ := appendTmp0_contents hv h₁
    exact ⟨hm, rfl, hv₁, by simpa [hch] using hc₁⟩
  · have hch' : s.isChunked = false := by simpa [hc] using hch
    exact ⟨hm, rfl, hv, by simp [hch']⟩

end Stream

end Serializer

namespace Session

open Serializer

variable {m : Message} {t t' : Session}

/-! ## The invariant -/

/-- A committed batch on the wire: as it is, or as one chunk. -/
def batchWire (isChunked : Bool) (d : List Byte) : List Byte := if isChunked then chunk d else d

@[simp] theorem batchWire_false : batchWire false = id := rfl

@[simp] theorem batchWire_true : batchWire true = chunk := rfl

/-- What holds along a stream-style session without content-coding. -/
structure StreamInv (m : Message) (t : Session) : Prop where
  st : t.sr.st = .stream
  isCompressed : t.sr.isCompressed = false
  isChunked : t.sr.isChunked = m.isChunked
  valid : t.sr.tmp0.Valid
  slots : t.sr.out.slots.length = 3
  header : t.sr.out.pos = 0 → HeaderSlot t.sr
  /-- while the flag is up the caller holds at most the rest of the header -/
  expect : t.sr.isExpectContinue = true →
    if t.sr.out.pos = 0 then t.pending <+: t.sr.mem.read t.sr.hp else t.pending = []
  /-- what was sent, then what is unsent, is the header, then the batches, then the last-chunk
  once the stream is closed, when chunked -/
  wire : t.sent ++ t.sr.unsent = m.header ++ (batches t.log).flatMap (batchWire m.isChunked) ++
    if m.isChunked && !t.sr.more then lastChunk else []
  pending : t.pending <+: t.sr.unsent
  /-- chunked, no batch is empty: a commit of none is refused -/
  nonempty : m.isChunked = true → ∀ d ∈ batches t.log, d ≠ []
  done : t.sr.isDone = true → t.sr.unsent = [] ∧ t.sr.more = false

theorem streamInv_init {s s₀ : Serializer} (hm : m.encoding = .identity)
    (h : s.startStream m = .ok s₀) : StreamInv m (init s₀) ∧ s₀.more = true := by
  have hc : (s.startInit m).isCompressed = false := by simp [startInit, hm]
  rcases startTmp_eq_ok h with ⟨hc', -⟩ | ⟨-, -, rfl⟩
  · exact absurd hc' (by simp [hc])
  refine ⟨⟨rfl, hc, rfl, CircularBuffer.valid_ofSlice _ _, rfl, fun _ => ⟨rfl, ?_⟩, ?_, ?_,
    List.nil_prefix, by simp [init, batches], by simp [init, startInit, reset]⟩, rfl⟩
  · simp [init, hp, Message.headerBuffer]
  · simp [init, hp]
  · simp [init, unsent, hp, Message.headerBuffer, batches, CircularBuffer.contents,
      CircularBuffer.dataAddrs, CircularBuffer.ofSlice]

@[simp] theorem batches_prepared (c : Call) : batches [.prepared c] = [] := rfl

@[simp] theorem batches_committed (d : List Byte) : batches [.committed d] = [d] := rfl

/-- A call of the stream handle keeps the invariant when it keeps the frame and the slots,
`tmp0_` gains `x`, and the message on the right of the equation gains `x` too. -/
theorem StreamInv.of_stream {x : List Byte} (hi : StreamInv m t) (hk : Keeps t.sr t'.sr)
    (ho : t'.sr.out = t.sr.out) (hv : t'.sr.tmp0.Valid)
    (hc : t'.sr.tmp0.contents t'.sr.mem.ws = t.sr.tmp0.contents t.sr.mem.ws ++ x)
    (hs : t'.sent = t.sent) (hpend : t'.pending = t.pending)
    (hw : (batches t'.log).flatMap (batchWire m.isChunked) ++
        (if m.isChunked && !t'.sr.more then lastChunk else []) =
      (batches t.log).flatMap (batchWire m.isChunked) ++
        (if m.isChunked && !t.sr.more then lastChunk else []) ++ x)
    (hne : m.isChunked = true → ∀ d ∈ batches t'.log, d ≠ [])
    (hd : t.sr.isDone = true → x = [] ∧ t'.sr.more = t.sr.more) : StreamInv m t' := by
  have hhp : t'.sr.hp = t.sr.hp := by simp only [hp, ho]
  have hu : t'.sr.unsent = t.sr.unsent ++ x := by
    rw [unsent_of_keeps hk ho (fun h0 => (hi.header h0).region), hc, unsent, List.append_assoc]
  refine ⟨hk.st.trans hi.st, hk.isCompressed.trans hi.isCompressed,
    hk.isChunked.trans hi.isChunked, hv, ho ▸ hi.slots,
    fun h0 => (hi.header (ho ▸ h0)).of_keeps hk hhp, fun hx => ?_, ?_, ?_, hne, fun hdn => ?_⟩
  · have he := hi.expect (hk.isExpectContinue ▸ hx)
    rw [ho, hpend]
    split
    · rw [hhp, read_of_header (hi.header ‹_›).region hk.header]
      simpa [*] using he
    · simpa [*] using he
  · rw [hs, hu, ← List.append_assoc, hi.wire]
    simp only [List.append_assoc] at hw ⊢
    rw [hw]
  · rw [hpend, hu]
    exact hi.pending.trans (List.prefix_append _ _)
  · obtain ⟨hu₀, hm₀⟩ := hi.done (hk.isDone ▸ hdn)
    obtain ⟨rfl, hm⟩ := hd (hk.isDone ▸ hdn)
    exact ⟨by rw [hu, hu₀, List.append_nil], hm.trans hm₀⟩

/-- `stream.prepare` changes nothing the invariant reads, and leaves the offered buffer
fresh. -/
theorem streamInv_streamPrepare (hi : StreamInv m t) (h : t.step .streamPrepare = .ok t') :
    StreamInv m t' ∧ t'.sr.more = t.sr.more ∧ Stream.prepare t'.sr = .ok (t'.streamBuf, t'.sr) := by
  obtain ⟨⟨ps, sr⟩, hp, rfl⟩ := map_eq_ok.mp h
  obtain ⟨hagain, hk, ho, hmem, hmore, hv, hc⟩ := Stream.prepare_again hi.isCompressed hi.valid hp
  refine ⟨hi.of_stream (x := []) hk ho hv (by rw [hc, List.append_nil]) rfl rfl
    (by simp only [hmore, List.append_nil]) hi.nonempty (fun _ => ⟨rfl, hmore⟩), hmore, hagain⟩

/-- A batch committed into the buffer the last call offered, before `stream.close`: it is
appended, framed. -/
theorem streamInv_streamCommit {d : List Byte} (hi : StreamInv m t) (hmore : t.sr.more = true)
    (hf : Stream.prepare t.sr = .ok (t.streamBuf, t.sr)) (ha : t.Allowed (.streamCommit d))
    (h : t.step (.streamCommit d) = .ok t') : StreamInv m t' ∧ t'.sr.more = t.sr.more := by
  obtain ⟨sr, hc, rfl⟩ := map_eq_ok.mp h
  obtain ⟨hv, hcont⟩ := Stream.prepare_commit hi.isCompressed hi.valid hf ha.2 hc
  obtain ⟨hk, ho⟩ := Stream.commit_keeps hc
  have hm : sr.more = t.sr.more := by
    have := Stream.commit_more hc
    exact this
  refine ⟨hi.of_stream hk ho hv (by rw [hcont, hi.isChunked]) rfl rfl ?_ ?_ ?_, hm⟩
  · simp [hm, hmore, batchWire]
  · intro hch e he
    simp only [batches_append, batches_committed, List.mem_append, List.mem_singleton] at he
    rcases he with he | rfl
    · exact hi.nonempty hch e he
    · have := (Stream.commit_eq_ok_chunked (by exact hi.isCompressed)
        (by exact hi.isChunked.trans hch) (by exact hi.valid) hc).1
      simpa [← List.length_pos] using this
  · intro hd
    simp [(hi.done hd).2] at hmore

/-- `stream.close()`: the last-chunk when chunked, and `more_` falls. -/
theorem streamInv_streamClose (hi : StreamInv m t) (h : t.step .streamClose = .ok t') :
    StreamInv m t' ∧ t'.sr.more = false := by
  obtain ⟨sr, hc, rfl⟩ := map_eq_ok.mp h
  obtain ⟨hmore, hm, hv, hcont⟩ := Stream.close_contents hi.isCompressed hi.valid hc
  obtain ⟨hk, ho⟩ := Stream.close_keeps hc
  refine ⟨hi.of_stream hk ho hv hcont rfl rfl ?_ hi.nonempty ?_, hm⟩
  · simp [hm, hmore, hi.isChunked]
  · intro hd
    simp [(hi.done hd).2] at hmore

/-- A serializer `prepare`: the header slot alone while the flag is up and the slot is first,
the sentinel once it is passed, or `need_data` or the view of what is unsent. -/
theorem streamInv_prepare {src : Source} {flt : Filter} (hi : StreamInv m t)
    (h : t.step (.prepare src flt) = .ok t') : StreamInv m t' ∧ t'.sr.more = t.sr.more := by
  obtain ⟨p, hp, rfl⟩ := map_eq_ok.mp h
  have hd := prepare_isDone hp
  cases hx : t.sr.isExpectContinue
  case true =>
    by_cases h0 : t.sr.out.pos = 0
    · -- the header slot alone
      rw [prepare_expect_header hd hx h0] at hp
      cases hp
      dsimp only
      have hview : t.sr.mem.readAll [t.sr.hp] = t.sr.mem.read t.sr.hp := by simp
      refine ⟨{ hi with expect := fun _ => ?_, pending := ?_, wire := by simpa using hi.wire
                        nonempty := by simpa using hi.nonempty }, rfl⟩
      · simp only [if_pos h0]
        exact hview ▸ List.prefix_refl _
      · show t.sr.mem.readAll [t.sr.hp] <+: _
        simp [unsent, h0]
    · -- the sentinel: the flag falls, nothing else moves
      rw [prepare_expect_sentinel hd hx h0] at hp
      cases hp
      dsimp only
      exact ⟨⟨hi.st, hi.isCompressed, hi.isChunked, hi.valid, hi.slots,
        fun h0 => ⟨(hi.header h0).region, (hi.header h0).fits⟩, fun h => by simp at h,
        by simpa [unsent] using hi.wire, List.nil_prefix, by simpa using hi.nonempty, hi.done⟩, rfl⟩
  case false =>
    have hs : t.sr.prepare src flt = t.sr.prepareStream := by
      simp [prepare, hd, hx, hi.isCompressed, hi.st]
    rw [hs] at hp
    obtain ⟨-, hnext, hsl, hpos, hhp, hu, hres⟩ := prepareStream_unsent hi.valid hi.slots hp
    obtain ⟨res, nxt, evs⟩ := p
    dsimp only at hnext hsl hpos hhp hu hres ⊢
    obtain ⟨o, rfl⟩ : ∃ o, nxt = { t.sr with out := o } := ⟨_, hnext⟩
    refine ⟨⟨hi.st, hi.isCompressed, hi.isChunked, hi.valid, hsl,
      fun h0 => (hi.header (hpos ▸ h0)).of_keeps rfl hhp, fun h => by simp [hx] at h,
      by simpa [hu] using hi.wire, ?_, by simpa using hi.nonempty, fun h => by simp [hd] at h⟩, rfl⟩
    rcases hres with hres | hres
    · rw [hres]
      exact List.prefix_refl _
    · simp [hres, Except.toOption, Except.map]

/-- A `consume` drops what it sends from the front of what is unsent. -/
theorem streamInv_consume {n : Nat} (hi : StreamInv m t) (ha : t.Allowed (.consume n))
    (h : t.step (.consume n) = .ok t') : StreamInv m t' ∧ t'.sr.more = t.sr.more := by
  obtain ⟨sr, hc, rfl⟩ := map_eq_ok.mp h
  have ha' : n ≤ t.pending.length := ha
  have hn : n ≤ t.sr.unsent.length := ha'.trans hi.pending.length_le
  have hx : t.sr.isExpectContinue = true → t.sr.out.pos ≠ 0 → n = 0 := fun hx h0 => by
    have he := hi.expect hx
    rw [if_neg h0] at he
    rw [he] at ha'
    exact Nat.le_zero.mp ha'
  obtain ⟨hu, hv, hsl, hhs, hdone⟩ := consume_unsent (.inr (.inl hi.st)) hi.valid hi.slots hi.header
    hx hn hc
  obtain ⟨out, tmp0, isDone, rfl⟩ := consume_shape hc
  refine ⟨{ hi with valid := hv, slots := hsl, header := hhs, expect := fun hx' => ?_
                    wire := ?_, pending := ?_
                    done := fun h => ⟨(hdone h).1, ?_⟩ }, ?_⟩
  · -- under the flag only the header slot moves
    have he := hi.expect hx'
    obtain ⟨hle, o, hco, heq⟩ := @consume_of_expect t.sr _ n (by exact hx') hc
    have hout : out = o := congrArg Serializer.out heq
    have htmp : tmp0 = t.sr.tmp0 := congrArg Serializer.tmp0 heq
    subst hout htmp
    by_cases h0 : t.sr.out.pos = 0
    · rw [if_pos h0] at he
      have hfit : n ≤ (t.sr.mem.read t.sr.hp).length := (hi.header h0).fits ▸ hle
      simp only [unsent, h0, if_true, List.drop_append_of_le_length hfit] at hu
      split
      · -- still in the header slot: it designates the rest of the header
        rw [if_pos ‹_›] at hu
        rw [List.append_cancel_right hu]
        exact he.drop n
      · -- past it: `n` covered the header
        rw [if_neg ‹_›, List.nil_append] at hu
        have hlen := congrArg List.length hu
        simp only [List.length_append, List.length_drop] at hlen
        exact List.drop_eq_nil_of_le (by have := he.length_le; omega)
    · rw [if_neg h0] at he
      have hpos : out.pos ≠ 0 := fun h1 => h0 (Nat.eq_zero_of_le_zero
        (h1 ▸ (BufferArray.consume_slots hco).2))
      rw [if_neg hpos, he]
      exact List.drop_nil
  · simpa only [hu, List.append_assoc, take_of_prefix hi.pending ha', List.take_append_drop]
      using hi.wire
  · rw [hu]
    exact hi.pending.drop n
  · exact (hdone h).2 hi.isCompressed
  · rfl

/-! ## Runs -/

/-- The order the stream handle asks for: each `commit` right after the `stream.prepare` that
offered its buffer (`p`), and none once the stream is closed (`c`). -/
def commitsInPlace : Bool → Bool → List Action → Bool
  | _, _, [] => true
  | _, c, .prepare _ _ :: as => commitsInPlace false c as
  | _, c, .consume _ :: as => commitsInPlace false c as
  | _, c, .streamPrepare :: as => commitsInPlace true c as
  | p, c, .streamCommit _ :: as => p && !c && commitsInPlace false c as
  | _, _, .streamClose :: as => commitsInPlace false true as

/-- Along a run in that order the invariant holds at every step. -/
theorem Run.streamInv {as : List Action} {p c : Bool} (hr : Run t as t')
    (hd : commitsInPlace p c as = true) (hi : StreamInv m t)
    (hf : p = true → Stream.prepare t.sr = .ok (t.streamBuf, t.sr)) (hc : c = !t.sr.more) :
    StreamInv m t' := by
  induction hr generalizing p c with
  | nil => exact hi
  | @cons t₀ t₁ _ a _ ha he _ ih =>
    cases a with
    | prepare =>
      obtain ⟨hi', hm⟩ := streamInv_prepare hi he
      exact ih hd hi' (fun h => by cases h) (hm ▸ hc)
    | consume =>
      obtain ⟨hi', hm⟩ := streamInv_consume hi ha he
      exact ih hd hi' (fun h => by cases h) (hm ▸ hc)
    | streamPrepare =>
      obtain ⟨hi', hm, hf'⟩ := streamInv_streamPrepare hi he
      exact ih hd hi' (fun _ => hf') (hm ▸ hc)
    | streamCommit =>
      simp only [commitsInPlace, Bool.and_eq_true, Bool.not_eq_true'] at hd
      obtain ⟨⟨hp, rfl⟩, hd⟩ := hd
      have hmore : t₀.sr.more = true := by simpa using hc.symm
      obtain ⟨hi', hm⟩ := streamInv_streamCommit hi hmore (hf hp) ha he
      exact ih hd hi' (fun h => by cases h) (by rw [hm, hmore]; rfl)
    | streamClose =>
      obtain ⟨hi', hm⟩ := streamInv_streamClose hi he
      exact ih hd hi' (fun h => by cases h) (by rw [hm]; rfl)

/-- A stream-style message without content-coding, its batches committed in the order the
handle asks for: chunked, no batch is empty; what is sent is always a prefix of the header, then
each batch, as one chunk when chunked, then the last-chunk when chunked; and all of it once the
serializer is done. -/
theorem stream_sends_framed_batches {s s₀ : Serializer} {as : List Action}
    (hs : s.startStream m = .ok s₀) (hm : m.encoding = .identity)
    (hd : commitsInPlace false false as = true) (hrun : Run (init s₀) as t) :
    (m.isChunked = true → ∀ d ∈ batches t.log, d ≠ []) ∧
      t.sent <+: m.header ++ (batches t.log).flatMap (batchWire m.isChunked) ++
        (if m.isChunked then lastChunk else []) ∧
      (t.sr.isDone = true → t.sent = m.header ++ (batches t.log).flatMap (batchWire m.isChunked) ++
        if m.isChunked then lastChunk else []) := by
  obtain ⟨hi₀, hmore⟩ := streamInv_init hm hs
  have hi := hrun.streamInv hd hi₀ (fun h => by cases h) (by simp [init, hmore])
  refine ⟨hi.nonempty, (List.prefix_append _ t.sr.unsent).trans (hi.wire ▸ ?_), fun hdn => ?_⟩
  · cases t.sr.more <;> cases m.isChunked <;> simp
  · obtain ⟨hu, hm'⟩ := hi.done hdn
    simpa [hu, hm'] using hi.wire

/-- Two batches, chunked, then `close()`: the header, a chunk of each, the last-chunk. -/
theorem stream_sends_two_chunks :
    ∃ s₀ t, (new 64).startStream (sampleMessage true .identity false) = .ok s₀ ∧
      Run (init s₀)
        [.streamPrepare, .streamCommit [97, 98], .prepare (.ofList [] true 0) (.ofList []),
         .consume 25, .streamPrepare, .streamCommit [99], .streamClose,
         .prepare (.ofList [] true 0) (.ofList []), .consume 26] t ∧
      (batches t.log, t.sr.isDone) = ([[97, 98], [99]], true) ∧
      t.sent = [72, 13, 10] ++ chunk [97, 98] ++ chunk [99] ++ lastChunk :=
  exists_run_of_exec_of (by decide) fun _ t hs₀ hrun hv => by
    obtain ⟨hb, hdone⟩ := Prod.mk.inj hv
    simpa [hb] using (stream_sends_framed_batches hs₀ rfl (by decide) hrun).2.2 hdone

end Session

end HttpProto
