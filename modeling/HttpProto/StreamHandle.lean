import HttpProto.Serializer.Ring
import HttpProto.Session

/-!
# The stream handle: what a commit appends

`stream.prepare` hands the caller the free space of `tmp0_` from its write position, after the
room of a size line when chunked, and `stream.commit(n)` makes readable the next `n` bytes from
the write position as it stands at the commit, framed as one chunk when chunked. The two agree
as long as nothing moves the write position between them: then the batch the caller wrote is
what the commit appends.

A `consume` of the serializer may come in between, and one that drains `tmp0_` rewinds the ring
to the start of its slice. The commit then makes readable bytes at the front of the slice,
which still hold what was sent before, and the caller's batch is never sent.

## Main results

* `Stream.prepare_commit`: a batch committed right after the `stream.prepare` it was written
  into is appended to `tmp0_`, as one chunk when chunked
* `Session.stream_view_overwritten`: a batch written into a buffer offered before a drain
  overwrites the view of the last `prepare`
-/

namespace HttpProto

namespace Serializer

namespace Stream

open CircularBuffer

variable {s s₁ s₂ : Serializer} {ps : List Nat} {d : List Byte}

/-! ## The two calls, each on its own -/

/-- Identity framing: `stream.prepare` offers all the free space of `tmp0_`. -/
theorem prepare_eq_ok_identity (hc : s.isCompressed = false) (hch : s.isChunked = false)
    (hv : s.tmp0.Valid) (h : prepare s = .ok (ps, s₁)) :
    ps = s.tmp0.freeAddrs s.tmp0.capacity ∧
      s₁ = { s with tmp0 := { s.tmp0 with outSize := s.tmp0.capacity } } := by
  simp only [prepare, Stream.capacity, hc, hch, Bool.false_eq_true, if_false] at h
  obtain ⟨⟨bs, tmp0⟩, hp, he⟩ := map_eq_ok.mp h
  obtain ⟨-, -, rfl⟩ := prepare_eq_ok hp
  simp only [Prod.mk.injEq] at he
  obtain ⟨rfl, rfl⟩ := he
  exact ⟨addrs_prepare hv hp, by simp [hc, hch]⟩

/-- Chunked framing: `stream.prepare` keeps the room of a size line before what it offers, and
the room of CRLF and the last-chunk after it. -/
theorem prepare_eq_ok_chunked (hc : s.isCompressed = false) (hch : s.isChunked = true)
    (hv : s.tmp0.Valid) (h : prepare s = .ok (ps, s₁)) :
    chunkedOverhead < s.tmp0.capacity ∧
      ps = (s.tmp0.freeAddrs (chunkHeaderLen + (s.tmp0.capacity - chunkedOverhead))).drop
        chunkHeaderLen ∧
      s₁ = { s with tmp0 := { s.tmp0 with
                                outSize := chunkHeaderLen + (s.tmp0.capacity - chunkedOverhead) } } := by
  simp only [prepare, Stream.capacity, hc, hch, Bool.false_eq_true, if_false, if_true] at h
  split_ifs at h with hlt
  obtain ⟨⟨bs, tmp0⟩, hp, he⟩ := map_eq_ok.mp h
  obtain ⟨-, -, rfl⟩ := prepare_eq_ok hp
  simp only [Prod.mk.injEq] at he
  obtain ⟨rfl, rfl⟩ := he
  exact ⟨by omega, by rw [addrs_prepare hv hp], by simp [hc, hch]⟩

/-- Chunked framing: `stream.commit(n)` writes the size line of `n` at the write position,
makes it and the `n` bytes after it readable, and appends CRLF. -/
theorem commit_eq_ok_chunked {n : Nat} (hc : s.isCompressed = false) (hch : s.isChunked = true)
    (hv : s.tmp0.Valid) (h : commit s n = .ok s₂) :
    0 < n ∧ n + chunkHeaderLen ≤ s.tmp0.capacity ∧
      appendTmp0 { s with
          tmp0 := { s.tmp0 with outSize := n + chunkHeaderLen }.commit (n + chunkHeaderLen),
          mem := s.mem.store ((s.tmp0.freeAddrs (n + chunkHeaderLen)).take chunkHeaderLen)
            (chunkHeaderBytes n) } crlf = .ok s₂ := by
  simp only [commit, hc, hch, Bool.false_eq_true, Bool.not_true, if_false] at h
  split_ifs at h with h0
  obtain ⟨⟨dest, tmp0⟩, hp, h⟩ := bind_eq_ok.mp h
  obtain ⟨hn, -, rfl⟩ := prepare_eq_ok hp
  obtain ⟨mem, hmem, h⟩ := bind_eq_ok.mp h
  obtain ⟨-, rfl⟩ := writeChunkHeader_eq_ok.mp hmem
  rw [addrs_prepare hv hp] at h
  refine ⟨Nat.pos_of_ne_zero h0, hn, ?_⟩
  simp only [hc, hch]
  exact h

/-! ## A batch, from `stream.prepare` to `stream.commit` -/

/-- Identity framing: the batch goes after the readable bytes. -/
theorem prepare_commit_identity (hc : s.isCompressed = false) (hch : s.isChunked = false)
    (hv : s.tmp0.Valid) (h₁ : prepare s = .ok (ps, s₁)) (hd : d.length ≤ ps.length)
    (h₂ : commit { s₁ with mem := s₁.mem.store ps d } d.length = .ok s₂) :
    s₂.tmp0.Valid ∧ s₂.tmp0.contents s₂.mem.ws = s.tmp0.contents s.mem.ws ++ d := by
  obtain ⟨rfl, rfl⟩ := prepare_eq_ok_identity hc hch hv h₁
  simp only [commit, hc, hch, Bool.false_eq_true, Bool.not_false, if_false, if_true] at h₂
  cases h₂
  simp only [length_freeAddrs] at hd
  have hv' : Valid { s.tmp0 with outSize := s.tmp0.capacity } :=
    ⟨hv.inPos_lt, hv.inLen_le, le_rfl⟩
  have := hv.inLen_le
  exact ⟨hv'.commit _,
    contents_store_commit _ _ _ (by simp only [CircularBuffer.capacity]; omega) hd⟩

/-- Chunked framing: the batch goes after the readable bytes as one chunk, its size line in
the room `stream.prepare` kept before it. -/
theorem prepare_commit_chunked (hc : s.isCompressed = false) (hch : s.isChunked = true)
    (hv : s.tmp0.Valid) (h₁ : prepare s = .ok (ps, s₁)) (hd : d.length ≤ ps.length)
    (h₂ : commit { s₁ with mem := s₁.mem.store ps d } d.length = .ok s₂) :
    s₂.tmp0.Valid ∧ s₂.tmp0.contents s₂.mem.ws = s.tmp0.contents s.mem.ws ++ chunk d := by
  obtain ⟨hlt, rfl, rfl⟩ := prepare_eq_ok_chunked hc hch hv h₁
  set k := s.tmp0.capacity - chunkedOverhead
  have hN : s.tmp0.inLen + (chunkHeaderLen + k) ≤ s.tmp0.cap := by
    have := hv.inLen_le
    simp only [CircularBuffer.capacity, chunkedOverhead, chunkHeaderLen, k] at hlt ⊢
    omega
  have hv' : Valid { s.tmp0 with outSize := chunkHeaderLen + k } :=
    ⟨hv.inPos_lt, hv.inLen_le, by dsimp only; omega⟩
  obtain ⟨-, hroom, h₂⟩ := commit_eq_ok_chunked (by exact hc) (by exact hch) (by exact hv') h₂
  simp only [List.length_drop, length_freeAddrs, Nat.add_sub_cancel_left] at hd
  dsimp only at hroom h₂
  simp only [freeAddrs_outSize, CircularBuffer.capacity] at h₂ hroom
  -- the size line goes into the room `stream.prepare` kept before the batch
  have htake : (s.tmp0.freeAddrs (d.length + chunkHeaderLen)).take chunkHeaderLen =
      (s.tmp0.freeAddrs (chunkHeaderLen + k)).take chunkHeaderLen := by
    rw [take_freeAddrs s.tmp0 (show chunkHeaderLen ≤ d.length + chunkHeaderLen by omega),
      take_freeAddrs s.tmp0 (show chunkHeaderLen ≤ chunkHeaderLen + k by omega)]
  have hv₁ : Valid { s.tmp0 with outSize := d.length + chunkHeaderLen } :=
    ⟨hv.inPos_lt, hv.inLen_le, hroom⟩
  obtain ⟨-, hv₂, hc₂⟩ := appendTmp0_contents (hv₁.commit _) h₂
  refine ⟨hv₂, ?_⟩
  rw [hc₂]
  simp only [Memory.store_ws]
  rw [htake, commit_outSize s.tmp0 le_rfl (show _ ≤ chunkHeaderLen + k by omega),
    contents_chunk_commit _ _ _ hN (by omega), chunkHeaderBytes_eq_sizeLine, chunk]
  simp only [List.append_assoc]

/-- A batch written into the buffer `stream.prepare` offered and committed before anything else
moves the write position is appended to `tmp0_`: as it is, or as one chunk when chunked. -/
theorem prepare_commit (hc : s.isCompressed = false) (hv : s.tmp0.Valid)
    (h₁ : prepare s = .ok (ps, s₁)) (hd : d.length ≤ ps.length)
    (h₂ : commit { s₁ with mem := s₁.mem.store ps d } d.length = .ok s₂) :
    s₂.tmp0.Valid ∧
      s₂.tmp0.contents s₂.mem.ws = s.tmp0.contents s.mem.ws ++ if s.isChunked then chunk d else d := by
  cases hch : s.isChunked
  · simpa using prepare_commit_identity hc hch hv h₁ hd h₂
  · simpa using prepare_commit_chunked hc hch hv h₁ hd h₂

end Stream

end Serializer

namespace Session

open Serializer

/-- A `consume` that drains `tmp0_` between a `stream.prepare` and its commit: the commit makes
readable the two bytes the first batch left at the front of the slice, and the caller's second
batch is never sent. -/
theorem stream_commit_after_drain :
    ∃ s₀ t, (new 64).startStream (sampleMessage false .identity false) = .ok s₀ ∧
      Run (init s₀)
        [.streamPrepare, .streamCommit [97, 98], .prepare (.ofList [] true 0) (.ofList []),
         .streamPrepare, .consume 5, .streamCommit [99, 100], .streamClose,
         .prepare (.ofList [] true 0) (.ofList []), .consume 2] t ∧
      batches t.log = [[97, 98], [99, 100]] ∧ t.sent = [72, 13, 10, 97, 98, 97, 98] ∧
      t.sr.isDone = true :=
  exists_run_of_check (by decide)

/-- A buffer from a `stream.prepare` made before a drain, written and committed after `close`:
the view `prepare` returned was the last-chunk, at the front of the rewound ring, and the
caller's batch overwrites it before the next `prepare`, whose view does not begin with it. -/
theorem stream_view_overwritten :
    ∃ s₀ t t', (new 64).startStream (sampleMessage true .identity false) = .ok s₀ ∧
      Run (init s₀)
        [.streamPrepare, .streamCommit (List.replicate 20 97),
         .prepare (.ofList [] true 0) (.ofList []), .consume 23, .streamPrepare, .consume 20,
         .streamClose, .prepare (.ofList [] true 0) (.ofList [])] t ∧
      Run t [.streamCommit (List.replicate 19 98), .prepare (.ofList [] true 0) (.ofList [])] t' ∧
      t.pending = lastChunk ∧ ¬ t.pending <+: t'.pending :=
  ⟨_, _, _, rfl, run_of_exec rfl, run_of_exec rfl, rfl, by decide⟩

/-- Under content-coding `is_full` reads `tmp0_` while `stream.prepare` offers the free space of
`tmp1_`. With `tmp1_` full the stream is not full and is offered no byte; with `tmp0_` filled by
the filter it is full and is offered 32 bytes. -/
theorem stream_isFull_disagrees :
    (∃ s₀ t, (new 64).startStream (sampleMessage false .deflate false) = .ok s₀ ∧
      Run (init s₀) [.streamPrepare, .streamCommit (List.replicate 32 97), .streamPrepare] t ∧
      (Stream.isFull t.sr, t.streamBuf.length) = (false, 0)) ∧
    ∃ s₀ t, (new 64).startStream (sampleMessage false .deflate false) = .ok s₀ ∧
      Run (init s₀)
        [.streamPrepare, .streamCommit [97],
         .prepare (.ofList [] true 0) (.ofList [⟨1, List.replicate 32 120, false⟩]),
         .streamPrepare] t ∧
      (Stream.isFull t.sr, t.streamBuf.length) = (true, 32) :=
  ⟨exists_run_of_check (by decide), exists_run_of_check (by decide)⟩

end Session

end HttpProto
