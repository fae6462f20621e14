import HttpProto.FilterInput

/-!
# Content-coding on the wire: each `prepare` one frame of the filter's output

Under content-coding the body reaches the wire only through the filter. Each `prepare` starts on
an empty `tmp0_` and runs the filter into it; when chunked it frames what the filter wrote as
one chunk, whatever its size, with the last-chunk after it once the filter has reported
finished. `consume` sends the view from the front. Along every run of a message without
`Expect: 100-continue`, what the caller has sent is therefore a prefix of the header followed
by one frame per `prepare`, and all of it once the serializer is done.

The frames are read off the session's log: the output of each call's filter calls, and whether
the filter had reported finished by the end of the call. A `prepare` in which the filter wrote
nothing sends, chunked, a chunk of size zero (`prepare_sends_zero_size_chunk`); the wire has
that frame too.

The batches the caller commits through the stream handle go into `tmp1_`, whose slice lies
below `tmp0_`'s. They reach the wire only through the filter, in whatever order the caller
calls the handle.

## Main definitions

* `outputWire`: the frame of one `prepare`'s output
* `Session.compressedWire`: the frames of the calls of a log
* `Session.CompressedInv`: what holds along a compressed session

## Main results

* `Serializer.prepareCompressed_unsent`: a compressed `prepare` appends its frame to what is
  unsent, and returns what is unsent as its view
* `Session.Run.compressedInv`: every run keeps the invariant
* `Session.compressed_sends_framed_outputs`: what is sent is a prefix of the header and the
  frames, and all of it once the serializer is done
-/

namespace HttpProto

/-- Whether a call of the filter reported the coded stream finished. -/
def Event.finished : Event → Bool
  | .read .. => false
  | .process _ _ _ r => r.finished

/-- What a compressed `prepare` puts on the wire after the header: the filter's output `o`, as
one chunk when chunked, with the last-chunk after it once the filter is `done`. -/
def outputWire (isChunked done : Bool) (o : List Byte) : List Byte :=
  if isChunked then sizeLine o.length ++ o ++ crlf ++ (if done then lastChunk else []) else o

namespace Serializer

open CircularBuffer

variable {s s' : Serializer} {src : Source} {flt : Filter} {p : Prepared}

/-! ## `filter_done_` -/

theorem consumeInput_filterDone {n : Nat} (h : s.consumeInput n = .ok s') :
    s'.filterDone = s.filterDone := by
  unfold consumeInput at h
  split at h
  · obtain ⟨_, -, rfl⟩ := map_eq_ok.mp h; rfl
  · cases h; rfl

theorem finishChunk_filterDone {hdr : List Nat} {nw : Nat} (h : s.finishChunk hdr nw = .ok s') :
    s'.filterDone = s.filterDone := by
  obtain ⟨mem, -, h⟩ := bind_eq_ok.mp h
  obtain ⟨s₁, h₁, h⟩ := bind_eq_ok.mp h
  obtain ⟨_, -, rfl⟩ := map_eq_ok.mp h₁
  split at h
  · obtain ⟨_, -, rfl⟩ := map_eq_ok.mp h; rfl
  · cases h; rfl

/-- The filter loop raises `filter_done_` exactly when one of its calls reports finished. -/
theorem filterLoop_filterDone {fuel k nw : Nat} {evs : List Event}
    {r : Nat × Serializer × List Event} (h : filterLoop flt fuel k nw s evs = .ok r) :
    ∃ new, r.2.2 = evs ++ new ∧ r.2.1.filterDone = (s.filterDone || new.any Event.finished) := by
  induction fuel generalizing k nw s evs with
  | zero => cases h; exact ⟨[], by simp, by simp⟩
  | succ fuel ih =>
    obtain ⟨inb, -, h⟩ := bind_eq_ok.mp h
    obtain ⟨⟨out, s₁⟩, h₁, h⟩ := bind_eq_ok.mp h
    obtain ⟨-, hs₁, -⟩ := getOutput_eq_ok h₁
    have hf₁ : s₁.filterDone = s.filterDone := by rw [hs₁]
    dsimp only at h
    split at h
    · split at h
      · cases h
      · cases h; exact ⟨[], by simp, by simp [hf₁]⟩
    · obtain ⟨s₂, h₂, h⟩ := bind_eq_ok.mp h
      set R := flt.process k out.size (s₁.mem.read inb) s₁.more
      have hf₂ : s₂.filterDone = (s.filterDone || R.finished) := by
        rw [consumeInput_filterDone h₂]
        split <;> simp [*]
      split at h
      · cases h
        exact ⟨[.process out.size (s₁.mem.read inb) s₁.more R], rfl, by simp [Event.finished, hf₂]⟩
      · obtain ⟨new, hevs, hf⟩ := ih h
        refine ⟨.process out.size (s₁.mem.read inb) s₁.more R :: new, by simpa using hevs, ?_⟩
        rw [hf]
        simp [Event.finished, hf₂, Bool.or_assoc]

/-- A compressed `prepare` raises `filter_done_` exactly when one of its filter calls reports
finished. -/
theorem prepareCompressed_filterDone (h : s.prepareCompressed src flt = .ok p) :
    p.next.filterDone = (s.filterDone || p.events.any Event.finished) := by
  obtain ⟨-, -, s₁, evs, s₂, hdr, nw, s₃, evs', s₄, h₁, h₂, h₃, -, h₄, h₅⟩ :=
    prepareCompressed_eq_ok h
  obtain ⟨hfill, -, hevs⟩ := onEnd_eq_ok h₅
  have r₁ : s₁.filterDone = s.filterDone ∧ evs.any Event.finished = false := by
    split at h₁
    · obtain ⟨n, rfl, -, -, -, -, hf⟩ := readCompressed_eq_ok h₁
      exact ⟨hf, rfl⟩
    · cases h₁; exact ⟨rfl, rfl⟩
  have r₂ : s₂.filterDone = s₁.filterDone := by
    split at h₂
    · obtain ⟨-, rfl⟩ := reserveChunkHeader_eq_ok h₂; rfl
    · cases h₂; rfl
  have r₄ : s₄.filterDone = s₃.filterDone := by
    split at h₄
    · exact finishChunk_filterDone h₄
    · cases h₄; rfl
  obtain ⟨new, hnew, hf₃⟩ := filterLoop_filterDone h₃
  dsimp only at hnew hf₃
  rw [fillSlots_eq hfill, hevs, hnew]
  simp [r₄, hf₃, r₂, r₁.1, r₁.2]

/-! ## The view of a compressed `prepare` -/

/-- A compressed `prepare`, on three slots whose header slot, while first, designates the
header: the view it returns is what is unsent, and that is what was unsent, then the frame of
the filter's output. -/
theorem prepareCompressed_unsent (hv : s.tmp0.Valid) (hslots : s.out.slots.length = 3)
    (hhs : s.out.pos = 0 → HeaderSlot s) (h : s.prepareCompressed src flt = .ok p) :
    p.result.map p.next.mem.readAll = .ok p.next.unsent ∧
      p.next.unsent = s.unsent ++ outputWire s.isChunked p.next.filterDone p.output ∧
      p.next.out.slots.length = 3 ∧ (p.next.out.pos = 0 → HeaderSlot p.next) := by
  obtain ⟨h0, -⟩ := prepareCompressed_eq_ok h
  obtain ⟨s₄, hfill, hres, ho, hv₄, hc⟩ := prepareCompressed_contents hv h
  obtain ⟨hnext, hsl, hpos, hhp, hu, hview⟩ := fillSlots_unsent hv₄ (ho ▸ hslots) hfill
  have hk := (prepareCompressed_spec h).1
  have hm : p.next.mem = s₄.mem := by rw [hnext]
  have hf : p.next.filterDone = s₄.filterDone := by rw [hnext]
  have hhp₄ : s₄.hp = s.hp := by simp only [Serializer.hp, ho]
  have hpos₄ : s₄.out.pos = s.out.pos := by rw [ho]
  -- the header slot reads the same header
  have hhdr : s.out.pos = 0 → p.next.mem.read s.hp = s.mem.read s.hp := fun h0' =>
    read_of_header (hhs h0').region hk.header
  have hempty : s.tmp0.contents s.mem.ws = [] :=
    List.eq_nil_of_length_eq_zero (by rw [length_contents]; exact h0)
  refine ⟨by rw [hres, hu]; exact congrArg Except.ok hview, ?_, hsl, fun h0' => ?_⟩
  · rw [hu, unsent, unsent, hpos₄, hhp₄, hc, hempty, List.append_nil, hf, ← hm]
    by_cases h0' : s.out.pos = 0
    · rw [if_pos h0', if_pos h0', hhdr h0']; rfl
    · rw [if_neg h0', if_neg h0']; rfl
  · have h0'' : s.out.pos = 0 := by rw [← hpos₄, ← hpos]; exact h0'
    exact ⟨by rw [hhp, hhp₄]; exact (hhs h0'').region,
      by rw [hhp, hhp₄, hhdr h0'']; exact (hhs h0'').fits⟩

/-- What a compressed `start_*` in buffers, source or stream style leaves: three slots, an empty
`tmp0_`, and the filter not done. -/
theorem Starts.compressed {s s₀ : Serializer} (hs : Starts s s₀) (hc : s₀.isCompressed = true)
    (hst : s₀.st = .buffers ∨ s₀.st = .source ∨ s₀.st = .stream) :
    s₀.out.slots.length = 3 ∧ s₀.tmp0.size = 0 ∧ s₀.filterDone = false := by
  cases hs with
  | empty h => rcases startEmpty_eq_ok h with ⟨-, rfl⟩ | ⟨-, -, rfl⟩ <;> simp at hst
  | buffers h =>
    rcases startWithBuffers_eq_ok h with ⟨-, rfl⟩ | ⟨hm, -, rfl⟩ | ⟨hm, -, -, rfl⟩
    · exact ⟨rfl, rfl, rfl⟩
    all_goals simp [startInit, hm] at hc
  | source h | stream h =>
    rcases startTmp_eq_ok h with ⟨-, -, rfl⟩ | ⟨hcz, -, rfl⟩
    · exact ⟨rfl, rfl, rfl⟩
    · simp [hcz] at hc

end Serializer

namespace Session

open Serializer CircularBuffer

variable {t t' : Session} {m : Message}

/-! ## The wire along a session -/

/-- The frames of the calls `cs`, each with the last-chunk once the filter had reported finished
by the end of it; `done` says whether it had before them. -/
def compressedWire (isChunked : Bool) : Bool → List Call → List Byte
  | _, [] => []
  | done, c :: cs =>
    outputWire isChunked (done || c.events.any Event.finished) (c.events.flatMap Event.output) ++
      compressedWire isChunked (done || c.events.any Event.finished) cs

theorem compressedWire_snoc (isChunked done : Bool) (cs : List Call) (c : Call) :
    compressedWire isChunked done (cs ++ [c]) = compressedWire isChunked done cs ++
      outputWire isChunked (done || ((cs ++ [c]).flatMap Call.events).any Event.finished)
        (c.events.flatMap Event.output) := by
  induction cs generalizing done with
  | nil => simp [compressedWire]
  | cons c' cs ih => simp [compressedWire, ih, Bool.or_assoc]

/-- What holds between calls along a compressed session without `Expect: 100-continue`. -/
structure CompressedInv (m : Message) (t : Session) : Prop where
  style : t.sr.st = .buffers ∨ t.sr.st = .source ∨ t.sr.st = .stream
  isCompressed : t.sr.isCompressed = true
  isChunked : t.sr.isChunked = m.isChunked
  isExpectContinue : t.sr.isExpectContinue = false
  valid : t.sr.tmp0.Valid
  slots : t.sr.out.slots.length = 3
  header : t.sr.out.pos = 0 → HeaderSlot t.sr
  input : t.sr.InputOK
  /-- the buffer the stream handle offered lies below `tmp0_` -/
  streamBuf : ∀ q ∈ t.streamBuf, q < t.sr.tmp0.base
  filterDone : t.sr.filterDone = (events t.log).any Event.finished
  /-- what was sent, then what is unsent, is the header, then one frame per `prepare` -/
  wire : t.sent ++ t.sr.unsent = m.header ++ compressedWire m.isChunked false (calls t.log)
  pending : t.pending <+: t.sr.unsent
  done : t.sr.isDone = true → t.sr.unsent = []

theorem compressedInv_init {s s₀ : Serializer} (hs : Starts s s₀) (hf : Fresh m s₀)
    (hst : s₀.st = .buffers ∨ s₀.st = .source ∨ s₀.st = .stream)
    (hm : m.encoding ≠ .identity) (hx : m.expect100 = false) : CompressedInv m (init s₀) := by
  have hc : s₀.isCompressed = true := by rw [hf.isCompressed]; simpa using hm
  have hii := inputInv_init hs hc hst
  obtain ⟨hsl, h0, hfd⟩ := hs.compressed hc hst
  have hhs : HeaderSlot s₀ := ⟨by rw [hf.hp]; rfl, by rw [hf.hp]; exact fits_headerBuffer hf.header⟩
  refine ⟨hst, hc, hf.isChunked, hf.isExpectContinue.trans hx, hii.valid, hsl, fun _ => hhs,
    hii.input, (fun q hq => by cases hq), by simp [init, hfd], ?_, List.nil_prefix,
    fun h => by simp [init, hf.isDone] at h⟩
  have hempty : s₀.tmp0.contents s₀.mem.ws = [] :=
    List.eq_nil_of_length_eq_zero (by rw [length_contents]; exact h0)
  simp [init, unsent, hf.pos, hf.hp, read_headerBuffer hf.header, hempty, compressedWire]

/-- A compressed `prepare`: the frame of the filter's output joins the wire, and the view is
what is unsent. -/
theorem compressedInv_prepare {src : Source} {flt : Filter} (hi : CompressedInv m t)
    (h : t.step (.prepare src flt) = .ok t') : CompressedInv m t' := by
  obtain ⟨p, hp, rfl⟩ := map_eq_ok.mp h
  have hd := prepare_isDone hp
  rw [prepare_of_compressed hd hi.isExpectContinue hi.isCompressed] at hp
  have hk := (prepareCompressed_spec hp).1
  obtain ⟨hres, hu, hsl, hhs⟩ := prepareCompressed_unsent hi.valid hi.slots hi.header hp
  obtain ⟨hv, k, hg⟩ := prepareCompressed_ring hi.valid hp
  have hfd := prepareCompressed_filterDone hp
  refine ⟨hk.st ▸ hi.style, hk.isCompressed ▸ hi.isCompressed, hk.isChunked ▸ hi.isChunked,
    hk.isExpectContinue ▸ hi.isExpectContinue, hv, hsl, hhs,
    (prepareCompressed_input hi.input hi.valid hp).1, fun q hq => hg.base ▸ hi.streamBuf q hq,
    by simp [hfd, hi.filterDone, events, calls], ?_, ?_, fun hd' => ?_⟩
  · -- the frame joins the wire
    show t.sent ++ p.next.unsent = _
    rw [hu, ← List.append_assoc, hi.wire, calls_append, List.append_assoc]
    simp [calls, compressedWire_snoc, hi.isChunked, hfd, hi.filterDone, Prepared.output, events]
  · -- the view is what is unsent
    show ((p.result.map p.next.mem.readAll).toOption.getD []) <+: _
    rw [hres]
    exact List.prefix_refl _
  · rw [hk.isDone, hd] at hd'
    cases hd'

/-- `consume` sends the front of the view: what it drops from what is unsent. -/
theorem compressedInv_consume {n : Nat} (hi : CompressedInv m t) (ha : t.Allowed (.consume n))
    (h : t.step (.consume n) = .ok t') : CompressedInv m t' := by
  obtain ⟨sr, hc, rfl⟩ := map_eq_ok.mp h
  have ha' : n ≤ t.pending.length := ha
  have hst : t.sr.st = .source ∨ t.sr.st = .stream ∨
      t.sr.st = .buffers ∧ t.sr.isCompressed = true := by
    rcases hi.style with h | h | h
    exacts [.inr (.inr ⟨h, hi.isCompressed⟩), .inl h, .inr (.inl h)]
  obtain ⟨hu, hv, hsl, hhs, hdone⟩ := consume_unsent hst hi.valid hi.slots hi.header
    (fun hx => absurd hx (by simp [hi.isExpectContinue])) (ha'.trans hi.pending.length_le) hc
  have hb : sr.tmp0.base = t.sr.tmp0.base := by
    rcases consume_tmp0 hc with h0 | ⟨k, h0⟩ <;> rw [h0]
    exact base_consume _ _
  obtain ⟨out, tmp0, isDone, rfl⟩ := consume_shape hc
  obtain ⟨hin, -⟩ := hi.input.of_writes
    (⟨rfl, rfl, rfl, rfl, hb, .refl _ _⟩ : WritesTmp0 t.sr { t.sr with out, tmp0, isDone })
  refine ⟨hi.style, hi.isCompressed, hi.isChunked, hi.isExpectContinue, hv, hsl, hhs, hin,
    fun q hq => hb ▸ hi.streamBuf q hq, hi.filterDone, ?_, ?_, fun hd => (hdone hd).1⟩
  · simpa only [hu, List.append_assoc, take_of_prefix hi.pending ha', List.take_append_drop]
      using hi.wire
  · rw [hu]
    exact hi.pending.drop n

/-- `stream.prepare()` offers the free space of `tmp1_`, below `tmp0_`, and moves nothing the
wire reads. -/
theorem compressedInv_streamPrepare (hi : CompressedInv m t) (ha : t.Allowed .streamPrepare)
    (h : t.step .streamPrepare = .ok t') : CompressedInv m t' := by
  have hst : t.sr.st = .stream := ha
  obtain ⟨⟨ps, sr⟩, hp, rfl⟩ := map_eq_ok.mp h
  obtain ⟨hv, hsep⟩ := hi.input.tmp1 (by rw [hst]; decide)
  obtain ⟨rfl, rfl, -⟩ := Stream.prepare_compressed hi.isCompressed hv hp
  exact ⟨hi.style, hi.isCompressed, hi.isChunked, hi.isExpectContinue, hi.valid, hi.slots,
    fun h0 => ⟨(hi.header h0).region, (hi.header h0).fits⟩,
    ⟨fun h => absurd (hst ▸ h) (by decide),
      fun _ => ⟨⟨hv.inPos_lt, hv.inLen_le, by simp [capacity]⟩, hsep⟩⟩,
    fun q hq => (lt_of_mem_freeAddrs_capacity hq).trans_le hsep, hi.filterDone, hi.wire,
    hi.pending, hi.done⟩

/-- `stream.commit(n)` writes the batch into the buffer `stream.prepare()` offered, below
`tmp0_`, and commits it to `tmp1_`: nothing the wire reads moves. -/
theorem compressedInv_streamCommit {d : List Byte} (hi : CompressedInv m t)
    (ha : t.Allowed (.streamCommit d)) (h : t.step (.streamCommit d) = .ok t') :
    CompressedInv m t' := by
  obtain ⟨hst, -⟩ := ha
  have hne : t.sr.st ≠ .buffers := by rw [hst]; decide
  obtain ⟨hv, hsep⟩ := hi.input.tmp1 hne
  obtain ⟨sr, hc, rfl⟩ := map_eq_ok.mp h
  unfold Stream.commit at hc
  rw [if_pos hi.isCompressed] at hc
  cases hc
  have hws : ∀ q, t.sr.tmp0.base ≤ q → (t.sr.mem.store t.streamBuf d).ws q = t.sr.mem.ws q :=
    fun q hq => storeAt_of_not_mem fun hm => absurd (hi.streamBuf q hm) (by omega)
  have hread : t.sr.out.pos = 0 → (t.sr.mem.store t.streamBuf d).read t.sr.hp =
      t.sr.mem.read t.sr.hp := fun h0 =>
    read_of_header (hi.header h0).region (Memory.store_header _ _ _)
  have hun : ({ t.sr with mem := t.sr.mem.store t.streamBuf d,
                          tmp1 := t.sr.tmp1.commit d.length } : Serializer).unsent =
      t.sr.unsent := by
    show (if t.sr.out.pos = 0 then (t.sr.mem.store t.streamBuf d).read t.sr.hp else []) ++
      t.sr.tmp0.contents (t.sr.mem.store t.streamBuf d).ws = _
    rw [contents_congr hi.valid fun q hq _ => hws q hq, unsent]
    split
    · rw [hread ‹_›]
    · rfl
  refine ⟨hi.style, hi.isCompressed, hi.isChunked, hi.isExpectContinue, hi.valid, hi.slots,
    fun h0 => ⟨(hi.header h0).region, (congrArg List.length (hread h0)).trans (hi.header h0).fits⟩,
    ⟨fun h => absurd h hne, fun _ => ⟨hv.commit _, by simpa [CircularBuffer.commit] using hsep⟩⟩,
    (fun q hq => by cases hq), by simpa [events, calls] using hi.filterDone, ?_, hun ▸ hi.pending,
    fun hd => hun ▸ hi.done hd⟩
  rw [hun]
  simpa [calls] using hi.wire

/-- `stream.close()` under content-coding lowers `more_` only. -/
theorem compressedInv_streamClose (hi : CompressedInv m t) (h : t.step .streamClose = .ok t') :
    CompressedInv m t' := by
  obtain ⟨sr, hc, rfl⟩ := map_eq_ok.mp h
  obtain ⟨-, rfl⟩ := Stream.close_compressed hi.isCompressed hc
  exact ⟨hi.style, hi.isCompressed, hi.isChunked, hi.isExpectContinue, hi.valid, hi.slots,
    fun h0 => ⟨(hi.header h0).region, (hi.header h0).fits⟩, ⟨hi.input.user, hi.input.tmp1⟩,
    hi.streamBuf, hi.filterDone, hi.wire, hi.pending, hi.done⟩

theorem compressedInv_step {a : Action} (hi : CompressedInv m t) (ha : t.Allowed a)
    (h : t.step a = .ok t') : CompressedInv m t' := by
  cases a with
  | prepare => exact compressedInv_prepare hi h
  | consume => exact compressedInv_consume hi ha h
  | streamPrepare => exact compressedInv_streamPrepare hi ha h
  | streamCommit => exact compressedInv_streamCommit hi ha h
  | streamClose => exact compressedInv_streamClose hi h

theorem Run.compressedInv {as : List Action} (hr : Run t as t') (hi : CompressedInv m t) :
    CompressedInv m t' :=
  hr.invariant (CompressedInv m) (fun _ _ _ hi ha he => compressedInv_step hi ha he) hi

/-- A message with a content-coding and without `Expect: 100-continue`, started in buffers,
source or stream style, and driven by any run of calls: what the caller has sent is always a
prefix of the header followed by one frame per `prepare`, the filter's output of that call as one
chunk of whatever size when chunked, with the last-chunk once the filter has reported finished;
and all of it once the serializer is done. -/
theorem compressed_sends_framed_outputs {s s₀ : Serializer} {as : List Action}
    (hs : Starts s s₀) (hf : Fresh m s₀)
    (hst : s₀.st = .buffers ∨ s₀.st = .source ∨ s₀.st = .stream)
    (hm : m.encoding ≠ .identity) (hx : m.expect100 = false) (hrun : Run (init s₀) as t) :
    t.sent <+: m.header ++ compressedWire m.isChunked false (calls t.log) ∧
      (t.sr.isDone = true → t.sent = m.header ++ compressedWire m.isChunked false (calls t.log)) := by
  have hi := hrun.compressedInv (compressedInv_init hs hf hst hm hx)
  refine ⟨hi.wire ▸ List.prefix_append _ _, fun hd => ?_⟩
  rw [← hi.wire, hi.done hd, List.append_nil]

theorem compressed_sends_one_chunk :
    ∃ s₀ t, (new 64).startWithBuffers (sampleMessage true .deflate false) [[97, 98]] = .ok s₀ ∧
      Run (init s₀) [.prepare (.ofList [] true 0) (.ofList [⟨2, [120], true⟩]), .consume 29] t ∧
      (t.sent, t.sr.isDone) = ([72, 13, 10] ++ sizeLine 1 ++ [120] ++ crlf ++ lastChunk, true) ∧
      (t.sent <+: (sampleMessage true .deflate false).header ++
          compressedWire (sampleMessage true .deflate false).isChunked false (calls t.log) ∧
        (t.sr.isDone = true → t.sent = (sampleMessage true .deflate false).header ++
          compressedWire (sampleMessage true .deflate false).isChunked false (calls t.log))) :=
  exists_run_of_exec_of (by decide) fun _ _ hs₀ hrun _ =>
    compressed_sends_framed_outputs (.buffers hs₀) (startWithBuffers_fresh hs₀)
      (.inl (startWithBuffers_st hs₀).1) (by decide) rfl hrun

end Session

end HttpProto
