import HttpProto.CompressedFraming
import HttpProto.Rfc.Chunked

/-!
# The end of a compressed message

Under content-coding `consume` sets the done flag once `tmp0_` is drained after the filter has
reported finished, and `prepare` refuses to run while `tmp0_` holds bytes; each `prepare` leaves
bytes in it (`BOOST_ASSERT(tmp0_.size() > 0)`). Along every run the serializer is therefore
done exactly when the filter has finished and all it wrote has been sent, and the `prepare` in
which the filter finished is the last one: its frame is the only one with the last-chunk after
it.

Chunked, a done serializer has thus sent the header and then the chunked framing of the
filter's outputs, one chunk per `prepare`, and the chunked decoder built on `crlf_rule` reads
them back, provided no `prepare` found the filter with nothing to write: a chunk of size zero
reads as the last-chunk (`decodeChunked_empty_chunk`).

## Main definitions

* `Session.outputs`: what the filter wrote at each `prepare` of a log
* `Session.FinishInv`: what holds along a compressed session about its end

## Main results

* `Session.Run.finishInv`: every run keeps the invariant
* `Session.compressed_done_iff`: done exactly when the filter has finished and all is sent
* `Session.compressedWire_chunked`: the frames of calls of which only the last saw the filter
  finish are the chunked framing of their outputs
* `Session.compressed_chunked_decodes`: a done chunked message decodes to the filter's outputs
-/

namespace HttpProto

namespace Serializer

open CircularBuffer

variable {s s' : Serializer} {src : Source} {flt : Filter} {p : Prepared}

/-- Closing a chunk only appends to `tmp0_`. -/
theorem finishChunk_size {hdr : List Nat} {nw : Nat} (h : s.finishChunk hdr nw = .ok s') :
    s.tmp0.size ≤ s'.tmp0.size := by
  obtain ⟨mem, -, h⟩ := bind_eq_ok.mp h
  obtain ⟨s₁, h₁, h⟩ := bind_eq_ok.mp h
  have g₁ := (appendTmp0_grows h₁).inLen
  dsimp only at g₁
  split at h
  · have g₂ := (appendTmp0_grows h).inLen
    simp only [size]
    omega
  · cases h
    simp only [size]
    omega

/-- A compressed `prepare` leaves bytes in `tmp0_`: the assertion after the filter loop. -/
theorem prepareCompressed_size (h : s.prepareCompressed src flt = .ok p) : 0 < p.next.tmp0.size := by
  obtain ⟨-, -, s₁, evs, s₂, hdr, nw, s₃, evs', s₄, -, -, -, hpos, h₄, h₅⟩ :=
    prepareCompressed_eq_ok h
  have ht : p.next.tmp0 = s₄.tmp0 := by rw [fillSlots_eq (onEnd_eq_ok h₅).1]
  rw [ht]
  split at h₄
  · exact hpos.trans_le (finishChunk_size h₄)
  · cases h₄
    exact hpos

/-- What the filter wrote during a compressed `prepare` fits in `tmp0_`, whose slice the call
does not move. -/
theorem prepareCompressed_output_le (hv : s.tmp0.Valid) (h : s.prepareCompressed src flt = .ok p) :
    p.output.length ≤ p.next.tmp0.cap ∧ p.next.tmp0.cap = s.tmp0.cap := by
  obtain ⟨s₄, hfill, -, -, hv₄, hc⟩ := prepareCompressed_contents hv h
  obtain ⟨-, k, hg⟩ := prepareCompressed_ring hv h
  have ht : p.next.tmp0 = s₄.tmp0 := by rw [fillSlots_eq hfill]
  have hlen : p.output.length ≤ s₄.tmp0.size := by
    rw [← length_contents _ s₄.mem.ws, hc]
    split <;> simp; omega
  exact ⟨ht ▸ hlen.trans hv₄.inLen_le, hg.cap⟩

end Serializer

namespace Session

open Serializer CircularBuffer

variable {t t' : Session} {m : Message}

/-- What the filter wrote at each `prepare` of a log. -/
def outputs (l : List Entry) : List (List Byte) := (calls l).map fun c => c.events.flatMap Event.output

/-- Under content-coding the stream handle touches the bytes, `tmp1_` and `more_` only, and adds
no `prepare` to the log. -/
theorem step_stream_compressed {a : Action} (hc : t.sr.isCompressed = true)
    (ha : a = .streamPrepare ∨ a = .streamClose ∨ ∃ d, a = .streamCommit d)
    (h : t.step a = .ok t') :
    (∃ mem tmp1 more, t'.sr = { t.sr with mem, tmp1, more }) ∧ calls t'.log = calls t.log := by
  rcases ha with rfl | rfl | ⟨d, rfl⟩
  · obtain ⟨⟨ps, sr⟩, hp, rfl⟩ := map_eq_ok.mp h
    unfold Stream.prepare at hp
    rw [if_pos hc] at hp
    obtain ⟨⟨bs, tmp1⟩, -, he⟩ := map_eq_ok.mp hp
    cases he
    exact ⟨⟨_, _, _, rfl⟩, rfl⟩
  · obtain ⟨sr, hcl, rfl⟩ := map_eq_ok.mp h
    obtain ⟨-, rfl⟩ := Stream.close_compressed hc hcl
    exact ⟨⟨_, _, _, rfl⟩, rfl⟩
  · obtain ⟨sr, hcm, rfl⟩ := map_eq_ok.mp h
    unfold Stream.commit at hcm
    rw [if_pos hc] at hcm
    cases hcm
    exact ⟨⟨_, _, _, rfl⟩, by simp [calls]⟩

/-- The frames of calls of which only the last saw the filter finish: the chunked framing of
their outputs, the last-chunk once, at the end. -/
theorem compressedWire_chunked {cs : List Call}
    (hl : ∀ c ∈ cs.dropLast, c.events.any Event.finished = false)
    (hf : (cs.flatMap Call.events).any Event.finished = true) :
    compressedWire true false cs = chunked (cs.map fun c => c.events.flatMap Event.output) := by
  induction cs with
  | nil => simp at hf
  | cons c cs ih =>
    cases cs with
    | nil =>
      -- the call that saw the filter finish
      have hc : c.events.any Event.finished = true := by simpa using hf
      simp [compressedWire, outputWire, hc, chunked, chunk]
    | cons c' cs =>
      have hc : c.events.any Event.finished = false := hl c (by simp)
      have ih' := ih (fun x hx => hl x (by rw [List.dropLast_cons₂]; exact List.mem_cons_of_mem _ hx))
        (by simpa [hc] using hf)
      rw [compressedWire, hc, Bool.false_or, ih']
      simp [outputWire, chunk, chunked_cons]

/-- What holds along a compressed session about its end, `tmp0_`'s slice being `c` bytes. -/
structure FinishInv (c : Nat) (t : Session) : Prop where
  /-- done exactly when the filter has finished and `tmp0_` is drained -/
  done : t.sr.isDone = true ↔ t.sr.filterDone = true ∧ t.sr.tmp0.size = 0
  /-- only the last `prepare` can have seen the filter finish -/
  last : ∀ c ∈ (calls t.log).dropLast, c.events.any Event.finished = false
  cap : t.sr.tmp0.cap = c
  /-- no `prepare` had the filter write more than `tmp0_`'s slice -/
  outputLe : ∀ o ∈ outputs t.log, o.length ≤ c

theorem finishInv_init {s s₀ : Serializer} (hs : Starts s s₀) (hf : Fresh m s₀)
    (hst : s₀.st = .buffers ∨ s₀.st = .source ∨ s₀.st = .stream) (hm : m.encoding ≠ .identity) :
    FinishInv s₀.tmp0.cap (init s₀) := by
  have hc : s₀.isCompressed = true := by rw [hf.isCompressed]; simpa using hm
  obtain ⟨-, -, hfd⟩ := hs.compressed hc hst
  exact ⟨by simp [init, hf.isDone, hfd], by simp [init, calls], rfl, by simp [init, outputs, calls]⟩

/-- A compressed `prepare` runs only on a drained `tmp0_` of a message not done, so with the
filter not yet finished; it leaves bytes in `tmp0_`. -/
theorem finishInv_prepare {c : Nat} {src : Source} {flt : Filter} (hi : CompressedInv m t)
    (hF : FinishInv c t) (h : t.step (.prepare src flt) = .ok t') : FinishInv c t' := by
  obtain ⟨p, hp, rfl⟩ := map_eq_ok.mp h
  have hd := prepare_isDone hp
  rw [prepare_of_compressed hd hi.isExpectContinue hi.isCompressed] at hp
  have h0 := (prepareCompressed_eq_ok hp).1
  have hk := (prepareCompressed_spec hp).1
  obtain ⟨hle, hcap⟩ := prepareCompressed_output_le hi.valid hp
  have hpos := prepareCompressed_size hp
  -- the filter had not finished before this call
  have hfd : t.sr.filterDone = false := by
    cases hfd : t.sr.filterDone
    · rfl
    · exact absurd (hF.done.mpr ⟨hfd, h0⟩) (by simp [hd])
  have hnone : ∀ c ∈ calls t.log, c.events.any Event.finished = false := by
    have := hi.filterDone.symm.trans hfd
    simp only [events, List.any_flatMap, List.any_eq_false] at this
    simpa using this
  refine ⟨⟨fun h' => absurd (h'.symm.trans (hk.isDone.trans hd)) (by decide),
    fun h' => absurd h'.2 (Nat.pos_iff_ne_zero.mp hpos)⟩, ?_, hcap.trans hF.cap, ?_⟩
  · simpa [calls] using hnone
  · intro o ho
    simp only [outputs, calls_append, calls, List.map_append, List.map_cons, List.map_nil,
      List.mem_append, List.mem_singleton] at ho
    rcases ho with ho | rfl
    · exact hF.outputLe o ho
    · exact hle.trans_eq (hcap.trans hF.cap)

/-- `consume` sets the done flag exactly when it drains `tmp0_` after the filter finished. -/
theorem finishInv_consume {c n : Nat} (hi : CompressedInv m t) (hF : FinishInv c t)
    (h : t.step (.consume n) = .ok t') : FinishInv c t' := by
  obtain ⟨sr, hc, rfl⟩ := map_eq_ok.mp h
  have hd := consume_isDone hc
  have hst : t.sr.st = .source ∨ t.sr.st = .stream ∨
      t.sr.st = .buffers ∧ t.sr.isCompressed = true := by
    rcases hi.style with h | h | h
    exacts [.inr (.inr ⟨h, hi.isCompressed⟩), .inl h, .inr (.inl h)]
  have hcap : sr.tmp0.cap = t.sr.tmp0.cap := by
    rcases consume_tmp0 hc with h0 | ⟨k, h0⟩ <;> rw [h0]
    exact cap_consume _ _
  refine ⟨?_, hF.last, hcap.trans hF.cap, hF.outputLe⟩
  rcases consume_cases hc with ⟨out, -, rfl⟩ | ⟨-, -, out, -, hb⟩ | hb
  · exact hF.done
  · rw [consumeBody_eq_tmp0 (s := { t.sr with out }) hst] at hb
    cases hb
    simp [hi.isCompressed, hd, and_comm]
  · rw [consumeBody_eq_tmp0 hst] at hb
    cases hb
    simp [hi.isCompressed, hd, and_comm]

/-- The stream handle touches nothing the end of the message depends on. -/
theorem finishInv_stream {c : Nat} {a : Action} (hi : CompressedInv m t) (hF : FinishInv c t)
    (ha : a = .streamPrepare ∨ a = .streamClose ∨ ∃ d, a = .streamCommit d)
    (h : t.step a = .ok t') : FinishInv c t' := by
  obtain ⟨⟨mem, tmp1, more, hsr⟩, hcalls⟩ := step_stream_compressed hi.isCompressed ha h
  refine ⟨by rw [hsr]; exact hF.done, hcalls ▸ hF.last, by rw [hsr]; exact hF.cap, ?_⟩
  rw [outputs, hcalls]
  exact hF.outputLe

theorem finishInv_step {c : Nat} {a : Action} (hi : CompressedInv m t) (hF : FinishInv c t)
    (h : t.step a = .ok t') : FinishInv c t' := by
  cases a with
  | prepare => exact finishInv_prepare hi hF h
  | consume => exact finishInv_consume hi hF h
  | streamPrepare => exact finishInv_stream hi hF (.inl rfl) h
  | streamCommit d => exact finishInv_stream hi hF (.inr (.inr ⟨d, rfl⟩)) h
  | streamClose => exact finishInv_stream hi hF (.inr (.inl rfl)) h

theorem Run.finishInv {c : Nat} {as : List Action} (hr : Run t as t') (hi : CompressedInv m t)
    (hF : FinishInv c t) : FinishInv c t' :=
  (hr.invariant (fun t => CompressedInv m t ∧ FinishInv c t)
    (fun _ _ _ h ha he => ⟨compressedInv_step h.1 ha he, finishInv_step h.1 h.2 he⟩) ⟨hi, hF⟩).2

/-- A message with a content-coding and without `Expect: 100-continue`, started in buffers,
source or stream style, along every run of calls: the serializer is done exactly when the filter
has reported finished and the caller has sent the header and every frame. -/
theorem compressed_done_iff {s s₀ : Serializer} {as : List Action}
    (hs : Starts s s₀) (hf : Fresh m s₀)
    (hst : s₀.st = .buffers ∨ s₀.st = .source ∨ s₀.st = .stream)
    (hm : m.encoding ≠ .identity) (hx : m.expect100 = false) (hrun : Run (init s₀) as t) :
    t.sr.isDone = true ↔ (events t.log).any Event.finished = true ∧
      t.sent = m.header ++ compressedWire m.isChunked false (calls t.log) := by
  have hi₀ := compressedInv_init hs hf hst hm hx
  have hi := hrun.compressedInv hi₀
  have hF := hrun.finishInv hi₀ (finishInv_init hs hf hst hm)
  constructor
  · intro hd
    exact ⟨hi.filterDone ▸ (hF.done.mp hd).1, by rw [← hi.wire, hi.done hd, List.append_nil]⟩
  · rintro ⟨hfin, hsent⟩
    -- nothing is left unsent, so `tmp0_` is drained
    have hu : t.sr.unsent = [] :=
      List.append_cancel_left ((hi.wire.trans hsent.symm).trans (List.append_nil _).symm)
    have h0 : t.sr.tmp0.size = 0 := by
      rw [unsent] at hu
      rw [← length_contents _ t.sr.mem.ws, (List.append_eq_nil.mp hu).2, List.length_nil]
    exact hF.done.mpr ⟨hi.filterDone.trans hfin, h0⟩

theorem compressed_done_iff_two_calls :
    ∃ s₀ t, (new 128).startWithSource (sampleMessage true .deflate false) = .ok s₀ ∧
      Run (init s₀) [.prepare (.ofList [97, 98, 99] false 0) (.ofList [⟨2, [120], false⟩]),
        .consume 24, .prepare (.ofList [100] true 0) (.ofList [⟨2, [121, 122], true⟩]),
        .consume 20] t ∧
      t.sr.isDone = false ∧
      (t.sr.isDone = true ↔ (events t.log).any Event.finished = true ∧
        t.sent = (sampleMessage true .deflate false).header ++
          compressedWire (sampleMessage true .deflate false).isChunked false (calls t.log)) :=
  exists_run_of_exec_of (by decide) fun _ _ hs₀ hrun _ =>
    compressed_done_iff (.source hs₀) (startWithSource_fresh hs₀) (.inr (.inl (by cases hs₀; rfl)))
      (by decide) rfl hrun

/-- A chunked message with a content-coding and without `Expect: 100-continue`, started in
buffers, source or stream style, once the serializer is done after any run of calls: what was
sent is the header, then a body that the chunked decoder reads back as the filter's output of
each `prepare`, one chunk each, with nothing left over. This holds when no `prepare` found the
filter with nothing to write, and the slice `start_*` gave `tmp0_` is shorter than a size line
can count. -/
theorem compressed_chunked_decodes {s s₀ : Serializer} {as : List Action}
    (hs : Starts s s₀) (hf : Fresh m s₀)
    (hst : s₀.st = .buffers ∨ s₀.st = .source ∨ s₀.st = .stream)
    (hm : m.encoding ≠ .identity) (hx : m.expect100 = false) (hch : m.isChunked = true)
    (hcap : s₀.tmp0.cap < 16 ^ 16) (hrun : Run (init s₀) as t) (hd : t.sr.isDone = true)
    (hne : ∀ o ∈ outputs t.log, o ≠ []) :
    ∃ body, t.sent = m.header ++ body ∧ decodeChunked body.length body = some (outputs t.log, []) := by
  have hi₀ := compressedInv_init hs hf hst hm hx
  have hi := hrun.compressedInv hi₀
  have hF := hrun.finishInv hi₀ (finishInv_init hs hf hst hm)
  have hfin : (events t.log).any Event.finished = true :=
    hi.filterDone.symm.trans (hF.done.mp hd).1
  refine ⟨chunked (outputs t.log), ?_, ?_⟩
  · rw [← List.append_nil t.sent, ← hi.done hd, hi.wire, hch, compressedWire_chunked hF.last hfin,
      outputs]
  · simpa using decodeChunked_chunked hne (fun o ho => (hF.outputLe o ho).trans_lt hcap)
      (length_lt_chunked _) []

theorem compressed_chunked_decodes_two_calls :
    ∃ s₀ t, (new 128).startWithSource (sampleMessage true .deflate false) = .ok s₀ ∧
      Run (init s₀) [.prepare (.ofList [97, 98, 99] false 0) (.ofList [⟨2, [120], false⟩]),
        .consume 24, .prepare (.ofList [100] true 0) (.ofList [⟨2, [121, 122], true⟩]),
        .consume 27] t ∧
      (t.sr.isDone, outputs t.log) = (true, [[120], [121, 122]]) ∧
      ∃ body, t.sent = (sampleMessage true .deflate false).header ++ body ∧
        decodeChunked body.length body = some (outputs t.log, []) :=
  exists_run_of_exec_of (by decide) fun _ _ hs₀ hrun hv =>
    compressed_chunked_decodes (.source hs₀) (startWithSource_fresh hs₀)
      (.inr (.inl (by cases hs₀; rfl))) (by decide) rfl rfl (by cases hs₀; decide) hrun
      (Prod.mk.inj hv).1 (by rw [(Prod.mk.inj hv).2]; decide)

end Session

end HttpProto
