import HttpProto.Serializer.Ring
import HttpProto.Session

/-!
# Content-coding: what a `prepare` sends, and what the filter is told

Under content-coding every `prepare` starts on an empty `tmp0_`. It reads the source once in
source style, reserves a zeroed size line when chunked, runs the filter into `tmp0_`, and when
chunked fills in the size line with the count of bytes the filter wrote, then CRLF, then the
last-chunk once the filter has reported finished. Nothing checks that the filter wrote anything:
a `prepare` in which it wrote no byte sends a chunk of size zero, which a chunked decoder takes
for the last-chunk.

The filter is fed from `tmp1_` one piece at a time: when the ring wraps it is offered the bytes
up to the end of the slice, with `more_` as the last read left it, while more bytes wait after
the wrap. The read at the start of each `prepare` is not guarded by `more_`: a source that
reported the end of the body is read again, and what it reports then sets `more_` anew.

## Main definitions

* `Prepared.output`: what the filter wrote during a `prepare`

## Main results

* `prepareCompressed_contents`: what a compressed `prepare` leaves in `tmp0_`: the filter's
  output, framed as one chunk of whatever size when chunked
* `getInput_of_tmp1`: the filter's input is the first piece of `tmp1_`
-/

namespace HttpProto

namespace Serializer

open CircularBuffer

variable {s : Serializer} {src : Source} {flt : Filter} {p : Prepared}

/-- What the filter wrote during a `prepare`: the output of its calls, in order. -/
def Prepared.output (p : Prepared) : List Byte := p.events.flatMap Event.output

/-! ## What a compressed `prepare` writes -/

/-- The read leaves `tmp0_`, the slots and the framing alone, and writes nothing to `tmp0_`. -/
theorem readCompressed_stage {s₁ : Serializer} {evs : List Event}
    (h : (if s.st = .source then s.readCompressed src else .ok (s, [])) = .ok (s₁, evs)) :
    s₁.tmp0 = s.tmp0 ∧ s₁.out = s.out ∧ s₁.isChunked = s.isChunked ∧
      evs.flatMap Event.output = [] := by
  split at h
  · obtain ⟨n, rfl, -, ht, ho, hc, -⟩ := readCompressed_eq_ok h
    exact ⟨ht, ho, hc, rfl⟩
  · cases h; exact ⟨rfl, rfl, rfl, rfl⟩

/-- On an empty `tmp0_`, the size line, when chunked, is all `tmp0_` holds. -/
theorem reserve_stage {s₁ s₂ : Serializer} {hdr : List Nat} (hv : s₁.tmp0.Valid)
    (h0 : s₁.tmp0.size = 0) (hroom : chunkHeaderLen ≤ s₁.tmp0.capacity)
    (h : (if s₁.isChunked then s₁.reserveChunkHeader else .ok (s₁, [])) = .ok (s₂, hdr)) :
    s₂.tmp0.Valid ∧ s₂.out = s₁.out ∧ s₂.isChunked = s₁.isChunked ∧
      s₂.tmp0.dataAddrs = hdr ∧ hdr.length = if s₁.isChunked then chunkHeaderLen else 0 := by
  have hnil : s₁.tmp0.dataAddrs = [] := List.eq_nil_of_length_eq_zero (by simpa using h0)
  split at h
  · obtain ⟨rfl, rfl⟩ := reserveChunkHeader_eq_ok h
    have hv' : Valid { s₁.tmp0 with outSize := chunkHeaderLen } :=
      ⟨hv.inPos_lt, hv.inLen_le, hroom⟩
    refine ⟨hv'.commit _, rfl, rfl, ?_, by simp [*]⟩
    rw [(grows_commit s₁.tmp0 le_rfl).dataAddrs, hnil, List.nil_append]
  · cases h; exact ⟨hv, rfl, rfl, hnil, by simp [*]⟩

/-- What a compressed `prepare` leaves in `tmp0_` before it fills the slots: the filter's
output, framed as one chunk when chunked, whatever its size. -/
theorem prepareCompressed_contents (hv : s.tmp0.Valid) (h : s.prepareCompressed src flt = .ok p) :
    ∃ s₄, fillSlots s₄ = .ok p.next ∧ p.result = .ok p.next.out.data ∧ s₄.out = s.out ∧
      s₄.tmp0.Valid ∧
      s₄.tmp0.contents s₄.mem.ws =
        if s.isChunked then
          sizeLine p.output.length ++ p.output ++ crlf ++
            (if s₄.filterDone then lastChunk else [])
        else p.output := by
  obtain ⟨h0, hroom, s₁, evs, s₂, hdr, nw, s₃, evs', s₄, h₁, h₂, h₃, -, h₄, h₅⟩ :=
    prepareCompressed_eq_ok h
  obtain ⟨hfill, hres, hevs⟩ := onEnd_eq_ok h₅
  obtain ⟨ht₁, ho₁, hc₁, he₁⟩ := readCompressed_stage h₁
  obtain ⟨hv₂, ho₂, hc₂, hd₂, hl₂⟩ := reserve_stage (ht₁ ▸ hv) (ht₁ ▸ h0)
    (by rw [ht₁]; simp only [chunkedOverhead, chunkHeaderLen] at hroom ⊢; omega) h₂
  obtain ⟨new, hevs', hnw, hg, hv₃, hc₃, ho₃⟩ := filterLoop_spec hv₂ h₃
  dsimp only at hevs' hnw hg hv₃ hc₃ ho₃
  have hch : s₃.isChunked = s₁.isChunked := (filterLoop_keeps h₃).isChunked.trans hc₂
  have hout : p.output = new.flatMap Event.output := by
    simp [Prepared.output, hevs, hevs', he₁]
  -- the filter's bytes follow the size line's addresses
  have hd₃ : s₃.tmp0.dataAddrs = hdr ++ s₂.tmp0.freeAddrs (new.flatMap Event.output).length := by
    rw [hg.dataAddrs, hd₂]
  have hrest : (s₂.tmp0.freeAddrs (new.flatMap Event.output).length).map s₃.mem.ws =
      new.flatMap Event.output := by
    rw [contents, hd₃, List.map_append] at hc₃
    exact (List.append_inj hc₃ (by simp [contents, hd₂])).2
  refine ⟨s₄, hfill, hres, ?_⟩
  rw [hout, ← hc₁, ← hch]
  split at h₄
  · rename_i hyes
    rw [← hch, if_pos hyes] at hl₂
    obtain ⟨hv₄, ho₄, hf₄, hc₄⟩ := finishChunk_contents hv₃ hd₃ hl₂ h₄
    rw [hnw, Nat.zero_add, hrest, ← hf₄] at hc₄
    exact ⟨ho₄.trans (ho₃.trans (ho₂.trans ho₁)), hv₄, by rw [if_pos hyes, hc₄]⟩
  · rename_i hno
    cases h₄
    rw [← hch, if_neg hno] at hl₂
    refine ⟨ho₃.trans (ho₂.trans ho₁), hv₃, ?_⟩
    rw [if_neg hno, contents, hd₃, List.eq_nil_of_length_eq_zero hl₂, List.nil_append, hrest]

/-- A filter that writes nothing at the first `prepare` and one byte at the second: the first
chunk sent has size zero, and the body goes on after it. -/
theorem prepare_sends_zero_size_chunk :
    ∃ s₀ t, (new 128).startWithSource (sampleMessage true .deflate false) = .ok s₀ ∧
      Session.Run (.init s₀)
        [.prepare (.ofList [97, 98, 99] true 0) (.ofList [⟨0, [], false⟩]), .consume 23,
         .prepare (.ofList [] true 0) (.ofList [⟨3, [120], true⟩]), .consume 26] t ∧
      (Session.calls t.log).map (fun c => c.events.flatMap Event.output) = [[], [120]] ∧
      t.sent = [72, 13, 10] ++ sizeLine 0 ++ crlf ++ chunk [120] ++ lastChunk ∧
      t.sr.isDone = true :=
  Session.exists_run_of_check (by decide)

/-! ## What the filter is told -/

/-- Outside the buffers style the filter's input is the first piece of `tmp1_`: its readable
bytes up to the end of the slice, however many wait after the wrap. -/
theorem getInput_of_tmp1 {inb : ConstBuffer} (hst : s.st ≠ .buffers) (hv : s.tmp1.Valid)
    (h : s.getInput = .ok inb) :
    s.mem.read inb = (s.tmp1.contents s.mem.ws).take (s.tmp1.cap - s.tmp1.inPos) := by
  unfold getInput at h
  rw [if_neg hst] at h
  rw [← readAll_data _ hv]
  have hle := hv.inLen_le
  have hpc : s.tmp1.inPos ≤ s.tmp1.cap := by rcases hv.inPos_lt with h | h <;> omega
  simp only [CircularBuffer.size] at h
  split_ifs at h with h0 hpos
  · cases h
    simp [ConstBuffer.empty, data, h0, hpc]
  · cases h
    simp only [data] at hpos ⊢
    split
    · simp_all [firstPiece]; omega
    · have hlt : s.tmp1.inPos < s.tmp1.cap := by rcases hv.inPos_lt with h | h <;> omega
      simp_all [firstPiece, show s.tmp1.cap - s.tmp1.inPos ≠ 0 by omega]

/-- A source whose second read wraps `tmp1_`: the filter is told that the body has ended while
it is offered 16 bytes and 8 more wait in `tmp1_`. -/
theorem filter_told_end_with_bytes_left :
    ∃ s₀ t, (new 64).startWithSource (sampleMessage false .deflate false) = .ok s₀ ∧
      Session.Run (.init s₀)
        [.prepare (.ofList (List.replicate 20 97) false 0) (.ofList [⟨16, [120], false⟩]),
         .consume 4,
         .prepare (.ofList (List.replicate 20 98) true 0) (.ofList [⟨16, [121], false⟩])] t ∧
      Session.events t.log =
        [.read 32 ⟨List.replicate 20 97, false, 0⟩,
         .process 32 (List.replicate 20 97) true ⟨16, [120], false⟩,
         .process 31 (List.replicate 4 97) true ⟨0, [], false⟩,
         .read 28 ⟨List.replicate 20 98, true, 0⟩,
         .process 32 (List.replicate 4 97 ++ List.replicate 12 98) false ⟨16, [121], false⟩,
         .process 31 (List.replicate 8 98) false ⟨0, [], false⟩] :=
  Session.exists_run_of_check (by decide)

/-! ## The assertions of the compressed branch -/

/-- Two assertions of the compressed `prepare` that a caller can make fail. In buffers style,
a first buffer of no bytes before the body's bytes fails the one of `get_input`; identity-framed,
a filter that writes nothing on its first call leaves `tmp0_` empty after the loop. -/
theorem prepare_assertions_fail :
    (∃ s₀, (new 64).startWithBuffers (sampleMessage false .deflate false) [[], [97]] = .ok s₀ ∧
      s₀.getInput = .error .assertion ∧
      s₀.prepare (.ofList [] true 0) (.ofList [⟨1, [120], false⟩]) = .error .assertion) ∧
    ∃ s₀, (new 64).startWithSource (sampleMessage false .deflate false) = .ok s₀ ∧
      s₀.prepare (.ofList [97] false 0) (.ofList [⟨0, [], false⟩]) = .error .assertion :=
  ⟨⟨_, rfl, rfl, rfl⟩, ⟨_, rfl, rfl⟩⟩

/-! ## The read of each `prepare` -/

/-- A source that reported the end of the body at the first `prepare` and no end at the second:
it is read again, and `more_` is true again. -/
theorem prepare_reads_finished_source :
    ∃ s₀ t, (new 64).startWithSource (sampleMessage false .deflate false) = .ok s₀ ∧
      Session.Run (.init s₀)
        [.prepare (.ofList (List.replicate 4 97) true 0) (.ofList [⟨4, [120], false⟩]),
         .consume 4,
         .prepare (.ofList [] false 0) (.ofList [⟨0, [121], false⟩])] t ∧
      Session.reads t.log = [⟨List.replicate 4 97, true, 0⟩, ⟨[], false, 0⟩] ∧
      t.sr.more = true :=
  Session.exists_run_of_check (by decide)

/-- The read under content-coding is not looked at either for its error code: a read that
fails, identity-framed or chunked, and the `prepare` that made it returns the view of what the
filter wrote. -/
theorem prepare_ignores_failed_read :
    (∃ s₀ t, (new 64).startWithSource (sampleMessage false .deflate false) = .ok s₀ ∧
      Session.Run (.init s₀) [.prepare (.ofList [97] false 5) (.ofList [⟨1, [120], false⟩])] t ∧
      Session.reads t.log = [⟨[97], false, 5⟩] ∧
      (Session.calls t.log).map (fun c => c.result.toOption) = [some [72, 13, 10, 120]]) ∧
    (∃ s₀ t, (new 64).startWithSource (sampleMessage true .deflate false) = .ok s₀ ∧
      Session.Run (.init s₀) [.prepare (.ofList [97] false 5) (.ofList [⟨1, [120], false⟩])] t ∧
      Session.reads t.log = [⟨[97], false, 5⟩] ∧
      (Session.calls t.log).map (fun c => c.result.toOption) =
        [some ([72, 13, 10] ++ chunk [120])]) :=
  ⟨Session.exists_run_of_check (by decide), Session.exists_run_of_check (by decide)⟩

end Serializer

end HttpProto
