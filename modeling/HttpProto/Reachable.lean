import HttpProto.StreamFraming
import HttpProto.Serializer.Source
import HttpProto.Compression

/-!
# Every reachable state: the room of the framing, and the slots

A serializer goes from message to message: each `start_*` begins a session on a new serializer
or on whatever state the last session left, at any point of it, and the caller then makes the
calls of the session. `Session.Reachable` is the set of sessions so reached.

The framing writes a fixed number of bytes into `tmp0_`: the 18-byte size line, the 2-byte CRLF
that closes a chunk and the 5-byte last-chunk. Each is written where the code has kept room for
it. The chunked source read asks for the free space less CRLF and the last-chunk, and puts the
body after the size line. Under content-coding the size line is reserved in a `tmp0_` the caller
drained, which the drain rewound to the start of its slice, and `get_output` keeps seven bytes
back from the filter. In stream style `stream.prepare` offers the free space less all three, so
that a commit of what it offered, and the `close` after it, fit. `Room` says what of this holds
between calls, and `Reachable.room` that it holds in every reachable session.

The view of the source and stream styles is read from three slots, the header's and two for the
pieces of `tmp0_`, and the slot loop of `prepare` writes both pieces after the first slot left.
While `Expect: 100-continue` holds, `consume` hands its count to the slots directly, and a
`consume(0)` once the header is sent discards the first slot of `tmp0_` when that is empty: the
next slot loop then writes past the array.

## Main definitions

* `Serializer.Starts`, `Session.Reachable`: the sessions of a serializer from its construction
* `Session.Room`: the room left for the framing
* `Session.FramingFits`: the framing writes of the next calls fit

## Main results

* `Session.Reachable.room`: every reachable session keeps the room
* `Session.framing_fits`: no framing write of `prepare`, `stream.commit` or `stream.close`
  runs out of room
* `Session.prepare_writes_past_slots`, `Session.driver_faults_after_close`: runs that get there
-/

namespace HttpProto

namespace Serializer

open CircularBuffer

variable {s s' : Serializer} {m : Message}

/-! ## How the calls move `tmp0_` -/

theorem fillSlots_eq (h : fillSlots s = .ok s') : s' = { s with out := s'.out } := by
  obtain ⟨_, -, rfl⟩ := map_eq_ok.mp h; rfl

/-- A literal grows `tmp0_` by its length, whatever the ring. -/
theorem appendTmp0_grows {lit : List Byte} (h : s.appendTmp0 lit = .ok s') :
    Grows s.tmp0 s'.tmp0 lit.length := by
  obtain ⟨⟨dest, tmp0⟩, hp, rfl⟩ := map_eq_ok.mp h
  obtain ⟨-, -, rfl⟩ := prepare_eq_ok hp
  simpa only [length_addrs_prepare hp, Nat.min_self] using
    grows_commit_min s.tmp0 lit.length lit.length

theorem appendTmp0_ok (lit : List Byte) (hroom : lit.length ≤ s.tmp0.capacity)
    (hcap : 0 < s.tmp0.cap) : ∃ s', s.appendTmp0 lit = .ok s' := by
  obtain ⟨bs, hp⟩ := prepare_ok hroom hcap
  exact ⟨_, by simp only [appendTmp0, hp]; rfl⟩

/-- Framing a chunked read grows `tmp0_`: the chunk, then the last-chunk. -/
theorem frameRead_grows {hdr : List Nat} {rv : ReadResult} (h : s.frameRead hdr rv = .ok s') :
    ∃ k, Grows s.tmp0 s'.tmp0 k := by
  obtain ⟨s₁, h₁, h⟩ := bind_eq_ok.mp h
  obtain ⟨k₁, g₁⟩ : ∃ k, Grows s.tmp0 s₁.tmp0 k := by
    split at h₁
    · obtain ⟨mem, -, h₁⟩ := bind_eq_ok.mp h₁
      exact ⟨_, (grows_commit_min _ _ _).trans (appendTmp0_grows h₁)⟩
    · cases h₁; exact ⟨0, Grows.refl _ _⟩
  split at h
  · obtain ⟨s₂, h₂, rfl⟩ := map_eq_ok.mp h
    exact ⟨_, g₁.trans (appendTmp0_grows h₂ : Grows s₁.tmp0 s₂.tmp0 _)⟩
  · cases h; exact ⟨_, g₁⟩

/-- The read of the source branch only grows `tmp0_`. -/
theorem sourceRead_grows {src : Source} {s₁ : Serializer} {err : Option Nat} {evs : List Event}
    (h : (if s.more then (if s.isChunked then s.readChunked src else s.readIdentity src)
          else .ok (s, none, [])) = .ok (s₁, err, evs)) :
    ∃ k, Grows s.tmp0 s₁.tmp0 k := by
  split at h
  · split at h
    · unfold readChunked at h
      split_ifs at h
      · cases h; exact ⟨0, Grows.self _⟩
      obtain ⟨⟨dest, tmp0⟩, hp, h⟩ := bind_eq_ok.mp h
      obtain ⟨-, -, rfl⟩ := prepare_eq_ok hp
      dsimp only at h
      split_ifs at h
      · cases h; exact ⟨0, Grows.refl _ _⟩
      obtain ⟨s₂, h₂, h⟩ := map_eq_ok.mp h
      cases h
      obtain ⟨_, g⟩ := frameRead_grows h₂
      exact ⟨_, (Grows.refl _ _).trans g⟩
    · obtain ⟨⟨dest, tmp0⟩, hp, h⟩ := map_eq_ok.mp h
      obtain ⟨-, -, rfl⟩ := prepare_eq_ok hp
      dsimp only at h
      split_ifs at h <;> cases h <;> exact ⟨_, grows_commit_min _ _ _⟩
  · cases h; exact ⟨0, Grows.self _⟩

/-- Closing a chunk grows `tmp0_`. -/
theorem finishChunk_ring {hdr : List Nat} {nw : Nat} (hv : s.tmp0.Valid)
    (h : s.finishChunk hdr nw = .ok s') : s'.tmp0.Valid ∧ ∃ k, Grows s.tmp0 s'.tmp0 k := by
  obtain ⟨mem, hmem, h⟩ := bind_eq_ok.mp h
  obtain ⟨-, rfl⟩ := writeChunkHeader_eq_ok.mp hmem
  obtain ⟨s₁, h₁, h⟩ := bind_eq_ok.mp h
  obtain ⟨g₁, hv₁, -⟩ := appendTmp0_contents (by exact hv) h₁
  split at h
  · obtain ⟨g₂, hv₂, -⟩ := appendTmp0_contents hv₁ h
    exact ⟨hv₂, _, g₁.trans g₂⟩
  · cases h; exact ⟨hv₁, _, g₁⟩

/-- A compressed `prepare` grows `tmp0_`: the size line, the filter's output, CRLF and the
last-chunk all go after what it holds. -/
theorem prepareCompressed_ring {src : Source} {flt : Filter} {p : Prepared} (hv : s.tmp0.Valid)
    (h : s.prepareCompressed src flt = .ok p) :
    p.next.tmp0.Valid ∧ ∃ k, Grows s.tmp0 p.next.tmp0 k := by
  obtain ⟨h0, hroom, s₁, evs, s₂, hdr, nw, s₃, evs', s₄, h₁, h₂, h₃, -, h₄, h₅⟩ :=
    prepareCompressed_eq_ok h
  obtain ⟨ht₁, -, -, -⟩ := readCompressed_stage h₁
  obtain ⟨hv₂, -⟩ := reserve_stage (ht₁ ▸ hv) (ht₁ ▸ h0)
    (by rw [ht₁]; simp only [chunkedOverhead, chunkHeaderLen] at hroom ⊢; omega) h₂
  have g₂ : ∃ k, Grows s₁.tmp0 s₂.tmp0 k := by
    split at h₂
    · obtain ⟨-, rfl⟩ := reserveChunkHeader_eq_ok h₂
      exact ⟨_, grows_commit_min _ _ _⟩
    · cases h₂; exact ⟨0, Grows.self _⟩
  obtain ⟨_, -, -, g₃, hv₃, -, -⟩ := filterLoop_spec hv₂ h₃
  have g₄ : s₄.tmp0.Valid ∧ ∃ k, Grows s₃.tmp0 s₄.tmp0 k := by
    split at h₄
    · exact finishChunk_ring hv₃ h₄
    · cases h₄; exact ⟨hv₃, 0, Grows.self _⟩
  obtain ⟨k₂, g₂⟩ := g₂
  obtain ⟨hv₄, k₄, g₄⟩ := g₄
  rw [fillSlots_eq (onEnd_eq_ok h₅).1]
  exact ⟨hv₄, _, ((ht₁ ▸ g₂).trans g₃).trans g₄⟩

/-- `prepare` only grows `tmp0_`, and keeps it well formed. -/
theorem prepare_ring {src : Source} {flt : Filter} {p : Prepared} (hv : s.tmp0.Valid)
    (h : s.prepare src flt = .ok p) : p.next.tmp0.Valid ∧ ∃ k, Grows s.tmp0 p.next.tmp0 k := by
  unfold prepare at h
  split at h; · cases h
  split at h
  · split at h <;> cases h <;> exact ⟨hv, 0, Grows.self _⟩
  split at h
  · exact prepareCompressed_ring hv h
  split at h
  · cases h; exact ⟨hv, 0, Grows.self _⟩
  · cases h; exact ⟨hv, 0, Grows.self _⟩
  · -- the source branch: the read, then the slots
    obtain ⟨⟨s₁, err, evs⟩, h₁, h⟩ := bind_eq_ok.mp h
    obtain ⟨-, hv₁, -⟩ := sourceRead_spec hv h₁
    obtain ⟨k, g⟩ := sourceRead_grows h₁
    cases err with
    | some ec => cases h; exact ⟨hv₁, k, g⟩
    | none =>
      obtain ⟨s₂, h₂, rfl⟩ := map_eq_ok.mp h
      rw [fillSlots_eq h₂]
      exact ⟨hv₁, k, g⟩
  · unfold prepareStream at h
    split_ifs at h
    · cases h; exact ⟨hv, 0, Grows.self _⟩
    · obtain ⟨s₁, h₁, rfl⟩ := map_eq_ok.mp h
      rw [fillSlots_eq h₁]
      exact ⟨hv, 0, Grows.self _⟩
  · cases h

/-- `prepare` keeps the style and the framing flags. -/
theorem prepare_flags {src : Source} {flt : Filter} {p : Prepared}
    (h : s.prepare src flt = .ok p) :
    p.next.st = s.st ∧ p.next.isChunked = s.isChunked ∧ p.next.isCompressed = s.isCompressed := by
  cases hx : s.isExpectContinue
  · obtain ⟨k, -⟩ := prepare_of_not_expect hx h
    exact ⟨k.st, k.isChunked, k.isCompressed⟩
  · have hd := prepare_isDone h
    by_cases h0 : s.out.pos = 0
    · rw [prepare_expect_header hd hx h0] at h
      cases h; exact ⟨rfl, rfl, rfl⟩
    · rw [prepare_expect_sentinel hd hx h0] at h
      cases h; exact ⟨rfl, rfl, rfl⟩

/-- In stream style without content-coding, `prepare` moves neither `tmp0_` nor `more_`. -/
theorem prepare_stream_tmp0 {src : Source} {flt : Filter} {p : Prepared} (hst : s.st = .stream)
    (hc : s.isCompressed = false) (h : s.prepare src flt = .ok p) :
    p.next.tmp0 = s.tmp0 ∧ p.next.more = s.more := by
  unfold prepare at h
  split at h; · cases h
  split at h
  · split at h <;> cases h <;> exact ⟨rfl, rfl⟩
  rw [if_neg (by simp [hc]), hst] at h
  unfold prepareStream at h
  split_ifs at h
  · cases h; exact ⟨rfl, rfl⟩
  · obtain ⟨s₁, h₁, rfl⟩ := map_eq_ok.mp h
    rw [fillSlots_eq h₁]
    exact ⟨rfl, rfl⟩

/-- `consume` leaves `tmp0_` alone or consumes from it. -/
theorem consume_tmp0 {n : Nat} (h : s.consume n = .ok s') :
    s'.tmp0 = s.tmp0 ∨ ∃ k, s'.tmp0 = s.tmp0.consume k := by
  have body : ∀ {s₁ : Serializer} {k : Nat}, s₁.consumeBody k = .ok s' →
      s'.tmp0 = s₁.tmp0 ∨ ∃ k, s'.tmp0 = s₁.tmp0.consume k := fun hb => by
    obtain ⟨_, ⟨_, -, rfl⟩ | rfl⟩ := consumeBody_cases hb
    exacts [.inl rfl, .inr ⟨_, rfl⟩]
  rcases consume_cases h with ⟨_, -, rfl⟩ | ⟨-, -, _, -, h⟩ | h
  · exact .inl rfl
  · exact (body h :)
  · exact body h

/-! ## The framing writes, each on its own -/

/-- After a chunked read into the free space less the framing, the chunk and the last-chunk
fit: the size line and the bytes were prepared, and the room of CRLF and the last-chunk is
left. -/
theorem frameRead_ok (hdr : List Nat) (rv : ReadResult) (hhdr : hdr.length = chunkHeaderLen)
    (hcap : 0 < s.tmp0.cap) (hout : rv.bytes.length + chunkHeaderLen ≤ s.tmp0.outSize)
    (hroom : rv.bytes.length + chunkedOverhead ≤ s.tmp0.capacity) :
    ∃ s', s.frameRead hdr rv = .ok s' := by
  simp only [chunkHeaderLen, chunkedOverhead] at hhdr hout hroom
  -- after the chunk, if any, the room of the last-chunk is left
  obtain ⟨s₁, h₁, hr₁, hc₁⟩ : ∃ s₁, (if rv.bytes.length ≠ 0 then
      s.commitChunk hdr rv.bytes.length else .ok s) = .ok s₁ ∧
      lastChunk.length ≤ s₁.tmp0.capacity ∧ 0 < s₁.tmp0.cap := by
    split
    · have hc := capacity_commit_of_le (b := s.tmp0) hout
      obtain ⟨s₂, h₂⟩ := appendTmp0_ok (s := { s with
        mem := s.mem.store hdr (chunkHeaderBytes rv.bytes.length),
        tmp0 := s.tmp0.commit (rv.bytes.length + 18) }) crlf
        (by dsimp only; rw [hc]; simp only [crlf, List.length_cons, List.length_nil]; omega) hcap
      have g := appendTmp0_grows h₂
      refine ⟨s₂, by simpa [commitChunk, writeChunkHeader, hhdr, chunkHeaderLen,
        writeChunkClose] using h₂, ?_, g.cap ▸ hcap⟩
      rw [g.capacity]
      dsimp only
      rw [hc]
      simp only [lastChunk, crlf, List.length_cons, List.length_nil]
      omega
    · exact ⟨s, rfl, by simp only [lastChunk, List.length_cons, List.length_nil]; omega, hcap⟩
  simp only [frameRead, h₁, bind, Except.bind]
  split
  · obtain ⟨s₃, h₃⟩ := appendTmp0_ok _ hr₁ hc₁
    exact ⟨_, by rw [writeLastChunk, h₃]; rfl⟩
  · exact ⟨_, rfl⟩

/-- The chunked read of the source branch never runs out of room: it reads only when `tmp0_`
has more free space than the framing takes, and into that space less the framing. -/
theorem readChunked_ok (s : Serializer) (src : Source) : ∃ r, s.readChunked src = .ok r := by
  unfold readChunked
  split_ifs with hc
  · exact ⟨_, rfl⟩
  simp only [chunkedOverhead, not_le] at hc
  have hcap : 0 < s.tmp0.cap := by simp only [capacity] at hc; omega
  obtain ⟨bs, hp⟩ := prepare_ok (Nat.sub_le _ 5 |>.trans (Nat.sub_le _ 2)) hcap
  have hlen := length_addrs_prepare hp
  have hle := src.read_le ((addrs bs).drop 18).length
  simp only [List.length_drop, hlen] at hle
  simp only [hp, bind, Except.bind]
  split_ifs
  · exact ⟨_, rfl⟩
  · obtain ⟨s', h'⟩ := frameRead_ok
      (s := { s with tmp0 := { s.tmp0 with outSize := s.tmp0.capacity - 2 - 5 },
                     mem := s.mem.store ((addrs bs).drop 18) (src.read _).bytes })
      ((addrs bs).take 18) (src.read ((addrs bs).drop 18).length)
      (by simp only [List.length_take, hlen, chunkHeaderLen]; omega) hcap
      (by simp only [chunkHeaderLen, List.length_drop, hlen]; omega)
      (by simp only [chunkedOverhead, List.length_drop, hlen, capacity_outSize]; omega)
    exact ⟨_, by rw [h']; rfl⟩

/-- `stream.commit(n)` never runs out of room when the chunk of `n` bytes and its CRLF fit. -/
theorem Stream.commit_ok {n : Nat}
    (hroom : s.isChunked = true → s.isCompressed = false →
      0 < n ∧ n + chunkHeaderLen + crlfLen ≤ s.tmp0.capacity) :
    ∃ s', Stream.commit s n = .ok s' := by
  unfold Stream.commit
  split_ifs with hc hch hn
  · exact ⟨_, rfl⟩
  · exact ⟨_, rfl⟩
  all_goals obtain ⟨hn0, hr⟩ := hroom (by simpa using hch) (by simpa using hc)
  · omega
  simp only [chunkHeaderLen, crlfLen] at hr ⊢
  have hcap : 0 < s.tmp0.cap := by simp only [CircularBuffer.capacity] at hr; omega
  obtain ⟨bs, hp⟩ := prepare_ok (n := n + 18) (by omega) hcap
  have hlen := length_addrs_prepare hp
  have hc₁ := capacity_commit_of_le (b := { s.tmp0 with outSize := n + 18 }) (n := n + 18) le_rfl
  obtain ⟨s', h'⟩ := appendTmp0_ok (s := { s with
    tmp0 := { s.tmp0 with outSize := n + 18 }.commit (n + 18),
    mem := s.mem.store ((addrs bs).take 18) (chunkHeaderBytes n) }) crlf
    (by dsimp only; rw [hc₁, capacity_outSize]; simp only [crlf, List.length_cons, List.length_nil]; omega)
    hcap
  refine ⟨s', ?_⟩
  simp only [hp, bind, Except.bind, writeChunkHeader, List.length_take, hlen, chunkHeaderLen,
    show min 18 (n + 18) = 18 by omega, if_true]
  exact h'

/-- `stream.close()` of an open stream never runs out of room when the last-chunk fits. -/
theorem Stream.close_ok (hm : s.more = true)
    (hroom : s.isChunked = true → s.isCompressed = false → lastChunkLen ≤ s.tmp0.capacity) :
    ∃ s', Stream.close s = .ok s' := by
  unfold Stream.close
  split_ifs with h₁ h₂
  · simp [hm] at h₁
  · have hr := hroom h₂.1 (by simpa using h₂.2)
    obtain ⟨s₁, h₁⟩ := appendTmp0_ok lastChunk hr
      (by simp only [CircularBuffer.capacity, lastChunkLen] at hr; omega)
    exact ⟨_, by rw [writeLastChunk, h₁]; rfl⟩
  · exact ⟨_, rfl⟩

/-- On an empty `tmp0_` rewound to the start of its slice, the size line is reserved there,
in one piece. -/
theorem reserveChunkHeader_ok (h0 : s.tmp0.size = 0) (hr : s.tmp0.inPos = 0)
    (hroom : chunkHeaderLen ≤ s.tmp0.capacity) : ∃ s' hdr, s.reserveChunkHeader = .ok (s', hdr) := by
  simp only [size, capacity, chunkHeaderLen] at h0 hroom
  obtain ⟨bs, hp⟩ := prepare_ok (b := s.tmp0) (n := chunkHeaderLen)
    (by simp only [capacity, chunkHeaderLen]; omega) (by omega)
  obtain ⟨hsize, -⟩ := firstPiece_prepare hp
  have hw : s.tmp0.wpos = 0 := by simp [wpos, hr, h0]
  simp only [reserveChunkHeader, hp, bind, Except.bind]
  rw [if_neg (by rw [hsize, hw]; simp only [chunkHeaderLen]; omega)]
  exact ⟨_, _, rfl⟩

/-- Chunked, `get_output` offers nothing, or keeps the room of CRLF and the last-chunk back. -/
theorem getOutput_room {out : MutableBuffer} (hch : s.isChunked = true)
    (h : s.getOutput = .ok (out, s')) :
    out.size = 0 ∨ out.size + crlfLen + lastChunkLen ≤ s.tmp0.capacity := by
  obtain ⟨⟨mbs, tmp0⟩, hp, h⟩ := map_eq_ok.mp h
  obtain ⟨hsize, -⟩ := firstPiece_prepare hp
  simp only [hch, if_true, Prod.mk.injEq] at h
  obtain ⟨rfl, -⟩ := h
  split_ifs with hlt
  · exact .inl rfl
  · exact .inr (by simp only [crlfLen, lastChunkLen] at hlt ⊢; omega)

/-- Chunked, the filter loop keeps the room of CRLF and the last-chunk in `tmp0_`: each round
commits no more than `get_output` offered. -/
theorem filterLoop_room {flt : Filter} {fuel k nw : Nat} {evs : List Event}
    {r : Nat × Serializer × List Event} (hch : s.isChunked = true)
    (hroom : crlfLen + lastChunkLen ≤ s.tmp0.capacity) (h : filterLoop flt fuel k nw s evs = .ok r) :
    crlfLen + lastChunkLen ≤ r.2.1.tmp0.capacity := by
  induction fuel generalizing k nw s evs with
  | zero => cases h; exact hroom
  | succ fuel ih =>
    obtain ⟨inb, -, h⟩ := bind_eq_ok.mp h
    obtain ⟨⟨out, s₁⟩, h₁, h⟩ := bind_eq_ok.mp h
    have hout := getOutput_room hch h₁
    obtain ⟨-, rfl, -⟩ := getOutput_eq_ok h₁
    dsimp only at h
    split at h
    · split at h
      · cases h
      · cases h; exact hroom
    · rename_i hne
      obtain ⟨s₂, h₂, h⟩ := bind_eq_ok.mp h
      obtain ⟨ht₂, -, -⟩ := consumeInput_tmp0 h₂
      have ht₂' : s₂.tmp0 = { s.tmp0 with outSize := s.tmp0.capacity } := by
        split at ht₂ <;> exact ht₂
      have hc₂ : s₂.isChunked = s.isChunked := by
        have := (consumeInput_keeps h₂).isChunked
        split at this <;> exact this
      set R := flt.process k out.size (s.mem.read inb) s.more
      have hR : R.out.length ≤ out.size := flt.out_le _ _ _ _
      split at h
      · cases h; rw [ht₂']; exact hroom
      · refine ih (by exact hc₂.trans hch) ?_ h
        have hle : R.out.length + crlfLen + lastChunkLen ≤ s.tmp0.capacity := by omega
        dsimp only
        rw [ht₂', capacity_commit_of_le (by dsimp only; omega), capacity_outSize]
        omega

/-- Closing a chunk never runs out of room when CRLF and the last-chunk fit. -/
theorem finishChunk_ok {hdr : List Nat} (nw : Nat) (hhdr : hdr.length = chunkHeaderLen)
    (hroom : crlfLen + lastChunkLen ≤ s.tmp0.capacity) : ∃ s', s.finishChunk hdr nw = .ok s' := by
  simp only [crlfLen, lastChunkLen] at hroom
  have hcap : 0 < s.tmp0.cap := by simp only [capacity] at hroom; omega
  obtain ⟨s₁, h₁⟩ := appendTmp0_ok (s := { s with mem := s.mem.store hdr (chunkHeaderBytes nw) })
    crlf (by simp [crlf]; omega) hcap
  have g := appendTmp0_grows h₁
  simp only [finishChunk, writeChunkHeader, hhdr, if_true, bind, Except.bind, h₁]
  split
  · obtain ⟨s₂, h₂⟩ := appendTmp0_ok (s := s₁) lastChunk
      (by rw [g.capacity]; simp [crlf, lastChunk]; omega) (g.cap ▸ hcap)
    exact ⟨s₂, h₂⟩
  · exact ⟨_, rfl⟩

/-- Under content-coding, on an empty `tmp0_` rewound to the start of its slice that passed the
entry checks of `prepare`: the size line is reserved, and whatever the filter then writes, the
chunk is closed. Neither runs out of room. -/
theorem compressedFraming_ok (h0 : s.tmp0.size = 0) (hr : s.tmp0.inPos = 0)
    (hroom : chunkedOverhead + 6 + 1 ≤ s.tmp0.capacity) (hch : s.isChunked = true) :
    ∃ s₂ hdr, s.reserveChunkHeader = .ok (s₂, hdr) ∧
      ∀ {flt : Filter} {fuel k nw : Nat} {evs : List Event} {r : Nat × Serializer × List Event},
        filterLoop flt fuel k nw s₂ evs = .ok r → ∃ s₄, r.2.1.finishChunk hdr r.1 = .ok s₄ := by
  simp only [chunkedOverhead] at hroom
  obtain ⟨s₂, hdr, h₂⟩ := reserveChunkHeader_ok h0 hr (by simp only [chunkHeaderLen]; omega)
  obtain ⟨rfl, rfl⟩ := reserveChunkHeader_eq_ok h₂
  refine ⟨_, _, h₂, fun h₃ => finishChunk_ok _ (by simp) (filterLoop_room (by exact hch) ?_ h₃)⟩
  rw [capacity_commit_of_le le_rfl, capacity_outSize]
  simp only [crlfLen, lastChunkLen, chunkHeaderLen]
  omega

/-! ## The calls of the stream handle -/

/-- `stream.commit(n)` grows `tmp0_`; chunked without content-coding, by the chunk and its
CRLF. -/
theorem Stream.commit_ring {n : Nat} (hv : s.tmp0.Valid) (h : Stream.commit s n = .ok s') :
    s'.tmp0.Valid ∧ ∃ k, Grows s.tmp0 s'.tmp0 k ∧
      (s.isChunked = true → s.isCompressed = false → 0 < n ∧ k = n + chunkHeaderLen + crlfLen) := by
  rcases Bool.eq_false_or_eq_true s.isCompressed with hc | hc
  · simp only [Stream.commit, hc, if_true] at h
    cases h
    exact ⟨hv, 0, Grows.self _, fun _ h => by simp [h] at hc⟩
  rcases Bool.eq_false_or_eq_true s.isChunked with hch | hch
  · obtain ⟨hn, hroom, h⟩ := Stream.commit_eq_ok_chunked hc hch hv h
    have hv₁ : Valid { s.tmp0 with outSize := n + chunkHeaderLen } :=
      ⟨hv.inPos_lt, hv.inLen_le, by simpa [CircularBuffer.capacity] using hroom⟩
    obtain ⟨g, hv', -⟩ := appendTmp0_contents (hv₁.commit _) h
    exact ⟨hv', _, (grows_commit _ le_rfl).trans g, fun _ _ => ⟨hn, rfl⟩⟩
  · simp only [Stream.commit, hc, hch, Bool.not_false, if_true, Bool.false_eq_true, if_false] at h
    cases h
    exact ⟨hv.commit n, _, grows_commit_min s.tmp0 s.tmp0.outSize n, fun h => by simp [h] at hch⟩

/-- `stream.close()` closes an open stream and grows `tmp0_`; chunked without content-coding,
by the last-chunk. -/
theorem Stream.close_ring (hv : s.tmp0.Valid) (h : Stream.close s = .ok s') :
    s.more = true ∧ s'.more = false ∧ s'.tmp0.Valid ∧ ∃ k, Grows s.tmp0 s'.tmp0 k ∧
      (s.isChunked = true → s.isCompressed = false → k = lastChunkLen) := by
  obtain ⟨hm, ⟨-, -, s₁, h₁, rfl⟩ | ⟨hch, rfl⟩⟩ := Stream.close_eq_ok h
  · obtain ⟨g, hv₁, -⟩ := appendTmp0_contents hv h₁
    exact ⟨hm, rfl, hv₁, _, g, fun _ _ => rfl⟩
  · refine ⟨hm, rfl, hv, 0, Grows.self _, fun h₁ h₂ => ?_⟩
    rcases hch with h | h <;> simp_all

/-! ## Where a message starts -/

/-- `s₀` is what one of the `start_*` functions returned, called on `s`. -/
inductive Starts (s : Serializer) : Serializer → Prop
  | empty {m : Message} {s₀ : Serializer} : s.startEmpty m = .ok s₀ → Starts s s₀
  | buffers {m : Message} {bufs : List (List Byte)} {s₀ : Serializer} :
      s.startWithBuffers m bufs = .ok s₀ → Starts s s₀
  | source {m : Message} {s₀ : Serializer} : s.startWithSource m = .ok s₀ → Starts s s₀
  | stream {m : Message} {s₀ : Serializer} : s.startStream m = .ok s₀ → Starts s s₀

theorem startTmp_tmp0 {st : Style} (h : s.startTmp m st = .ok s') :
    (∃ base cap, s'.tmp0 = .ofSlice base cap) ∧ s'.st = st ∧ s'.more = true ∧
      chunkedOverhead + 1 ≤ s'.tmp0.capacity := by
  rcases startTmp_eq_ok h with ⟨-, hroom, rfl⟩ | ⟨-, hroom, rfl⟩ <;>
    exact ⟨⟨_, _, rfl⟩, rfl, rfl, by simpa [chunkedOverhead] using hroom⟩

/-- Every `start_*` makes `tmp0_` anew or leaves it as it was; in stream style it makes it with
room for a chunk of one byte, and opens the body. -/
theorem Starts.tmp0 (h : Starts s s') :
    (s'.tmp0 = s.tmp0 ∨ ∃ base cap, s'.tmp0 = .ofSlice base cap) ∧
      (s'.st = .stream → s'.more = true ∧ chunkedOverhead + 1 ≤ s'.tmp0.capacity) := by
  cases h with
  | empty h =>
    rcases startEmpty_eq_ok h with ⟨-, rfl⟩ | ⟨-, -, rfl⟩ <;> exact ⟨.inl rfl, fun h => by cases h⟩
  | buffers h =>
    rcases startWithBuffers_eq_ok h with ⟨-, rfl⟩ | ⟨-, -, rfl⟩ | ⟨-, -, -, rfl⟩
    · exact ⟨.inr ⟨_, _, rfl⟩, fun h => by cases h⟩
    all_goals exact ⟨.inl rfl, fun h => by cases h⟩
  | source h =>
    obtain ⟨hs, hst, -⟩ := startTmp_tmp0 h
    exact ⟨.inr hs, fun h => by rw [hst] at h; cases h⟩
  | stream h =>
    obtain ⟨hs, -, hm, hc⟩ := startTmp_tmp0 h
    exact ⟨.inr hs, fun _ => ⟨hm, hc⟩⟩

end Serializer

namespace Session

open Serializer CircularBuffer

variable {t t' : Session}

/-! ## Reachable sessions -/

/-- The sessions a serializer goes through from its construction: a message started on a new
serializer, or on the serializer of a reachable session at any point of it, then each call the
caller may make. -/
inductive Reachable : Session → Prop
  | new {w : Nat} {s₀ : Serializer} : Starts (.new w) s₀ → Reachable (init s₀)
  | start {t : Session} {s₀ : Serializer} : Reachable t → Starts t.sr s₀ → Reachable (init s₀)
  | step {t t' : Session} {a : Action} : Reachable t → t.Allowed a → t.step a = .ok t' →
      Reachable t'

theorem Reachable.run {as : List Action} (ht : Reachable t) (h : Run t as t') : Reachable t' :=
  h.invariant Reachable (fun _ _ _ hr ha he => .step hr ha he) ht

/-- The room the last-chunk needs: five bytes until `close`, none after. -/
def lastRoom (more : Bool) : Nat := if more then lastChunkLen else 0

theorem lastRoom_le (more : Bool) : lastRoom more ≤ lastChunkLen := by
  cases more <;> simp [lastRoom]

/-- What holds between calls of the room the framing needs. `tmp0_` is well formed, and rewound
to the start of its slice whenever it is empty. In chunked stream style without
content-coding, the last-chunk fits until `close`, and so does the buffer the last
`stream.prepare` offered, with its size line, CRLF and the last-chunk. -/
structure Room (t : Session) : Prop where
  valid : t.sr.tmp0.Valid
  rewound : t.sr.tmp0.size = 0 → t.sr.tmp0.inPos = 0
  stream : t.sr.st = .stream → t.sr.isChunked = true → t.sr.isCompressed = false →
    lastRoom t.sr.more ≤ t.sr.tmp0.capacity ∧
      (t.streamBuf ≠ [] →
        t.streamBuf.length + chunkHeaderLen + crlfLen + lastRoom t.sr.more ≤ t.sr.tmp0.capacity)

theorem room_init {s s₀ : Serializer} (h : Starts s s₀) (hv : s.tmp0.Valid)
    (hr : s.tmp0.size = 0 → s.tmp0.inPos = 0) : Room (init s₀) := by
  obtain ⟨ht, hst⟩ := h.tmp0
  have hring : s₀.tmp0.Valid ∧ (s₀.tmp0.size = 0 → s₀.tmp0.inPos = 0) := by
    rcases ht with ht | ⟨b, c, ht⟩ <;> rw [ht]
    · exact ⟨hv, hr⟩
    · exact ⟨valid_ofSlice b c, fun _ => rfl⟩
  refine ⟨hring.1, hring.2, fun hs _ _ => ⟨?_, fun h => absurd rfl h⟩⟩
  obtain ⟨hm, hcap⟩ := hst hs
  simp only [init, hm, lastRoom, if_true, lastChunkLen, chunkedOverhead] at hcap ⊢
  omega

theorem room_prepare {src : Source} {flt : Filter} (hr : Room t)
    (h : t.step (.prepare src flt) = .ok t') : Room t' := by
  obtain ⟨p, hp, rfl⟩ := map_eq_ok.mp h
  obtain ⟨hv, k, g⟩ := prepare_ring hr.valid hp
  obtain ⟨hst, hch, hc⟩ := prepare_flags hp
  refine ⟨hv, g.rewound hr.rewound, fun hs hk hcz => ?_⟩
  -- in stream style without content-coding `prepare` moves nothing the room reads
  obtain ⟨ht, hm⟩ := prepare_stream_tmp0 (hst.symm.trans hs) (hc.symm.trans hcz) hp
  have := hr.stream (hst.symm.trans hs) (hch.symm.trans hk) (hc.symm.trans hcz)
  dsimp only
  rw [ht, hm]
  exact this

theorem room_consume {n : Nat} (hr : Room t) (h : t.step (.consume n) = .ok t') : Room t' := by
  obtain ⟨sr, hc, rfl⟩ := map_eq_ok.mp h
  have ht := consume_tmp0 hc
  obtain ⟨out, tmp0, isDone, rfl⟩ := consume_shape hc
  rcases ht with ht | ⟨k, ht⟩ <;> dsimp only at ht <;> subst ht
  · exact ⟨hr.valid, hr.rewound, hr.stream⟩
  · -- a consume only frees room
    have hle := capacity_consume_ge t.sr.tmp0 k
    refine ⟨hr.valid.consume k, consume_rewound _ _, fun hs hk hcz => ?_⟩
    obtain ⟨h₁, h₂⟩ := hr.stream hs hk hcz
    exact ⟨h₁.trans hle, fun hne => (h₂ hne).trans hle⟩

theorem room_streamPrepare (hr : Room t) (h : t.step .streamPrepare = .ok t') : Room t' := by
  obtain ⟨⟨ps, sr⟩, hp, rfl⟩ := map_eq_ok.mp h
  rcases Bool.eq_false_or_eq_true t.sr.isCompressed with hc | hc
  · -- under content-coding the buffer is in `tmp1_`
    simp only [Stream.prepare, hc, if_true] at hp
    obtain ⟨_, -, he⟩ := map_eq_ok.mp hp
    cases he
    exact ⟨hr.valid, hr.rewound, fun _ _ h => by simp [hc] at h⟩
  have hv := hr.valid
  rcases Bool.eq_false_or_eq_true t.sr.isChunked with hch | hch
  · -- the buffer is the free space less the framing
    obtain ⟨hlt, rfl, rfl⟩ := Stream.prepare_eq_ok_chunked hc hch hv hp
    have := lastRoom_le t.sr.more
    simp only [chunkedOverhead, chunkHeaderLen, crlfLen, lastChunkLen] at hlt this ⊢
    refine ⟨⟨hv.inPos_lt, hv.inLen_le, ?_⟩, hr.rewound, fun _ _ _ => ⟨?_, fun _ => ?_⟩⟩
    · simp only [CircularBuffer.capacity] at hlt ⊢; omega
    · simp only [capacity_outSize]; omega
    · simp only [capacity_outSize, List.length_drop, length_freeAddrs, chunkHeaderLen, crlfLen]
      omega
  · obtain ⟨rfl, rfl⟩ := Stream.prepare_eq_ok_identity hc hch hv hp
    exact ⟨⟨hv.inPos_lt, hv.inLen_le, le_rfl⟩, hr.rewound, fun _ h => by simp [hch] at h⟩

theorem room_streamCommit {d : List Byte} (hr : Room t) (ha : t.Allowed (.streamCommit d))
    (h : t.step (.streamCommit d) = .ok t') : Room t' := by
  obtain ⟨sr, hc, rfl⟩ := map_eq_ok.mp h
  obtain ⟨hv, k, g, hk⟩ := Stream.commit_ring (by exact hr.valid) hc
  obtain ⟨hkeep, -⟩ := Stream.commit_keeps hc
  have hm := Stream.commit_more hc
  refine ⟨hv, g.rewound hr.rewound, fun hs hch hcz => ⟨?_, fun h => absurd rfl h⟩⟩
  -- the chunk takes the room the last `stream.prepare` kept, and the last-chunk's is left
  have hst : t.sr.st = .stream := hkeep.st.symm.trans hs
  have hch' : t.sr.isChunked = true := hkeep.isChunked.symm.trans hch
  have hcz' : t.sr.isCompressed = false := hkeep.isCompressed.symm.trans hcz
  obtain ⟨hn, rfl⟩ := hk hch' hcz'
  have hne : t.streamBuf ≠ [] := fun h => by
    have := ha.2
    simp only [h, List.length_nil] at this
    omega
  have := (hr.stream hst hch' hcz').2 hne
  have hlen := ha.2
  dsimp only
  rw [hm, g.capacity]
  simp only [chunkHeaderLen, crlfLen] at this ⊢
  omega

theorem room_streamClose (hr : Room t) (h : t.step .streamClose = .ok t') : Room t' := by
  obtain ⟨sr, hc, rfl⟩ := map_eq_ok.mp h
  obtain ⟨hm, hm', hv, k, g, hk⟩ := Stream.close_ring hr.valid hc
  obtain ⟨hkeep, -⟩ := Stream.close_keeps hc
  refine ⟨hv, g.rewound hr.rewound, fun hs hch hcz => ?_⟩
  -- the last-chunk takes the room kept for it
  have hch' : t.sr.isChunked = true := hkeep.isChunked.symm.trans hch
  have hcz' : t.sr.isCompressed = false := hkeep.isCompressed.symm.trans hcz
  have h₂ := (hr.stream (hkeep.st.symm.trans hs) hch' hcz').2
  dsimp only
  rw [hm', g.capacity, hk hch' hcz']
  rw [hm] at h₂
  simp only [lastRoom, if_true, lastChunkLen, Bool.false_eq_true, if_false] at h₂ ⊢
  exact ⟨Nat.zero_le _, fun hne => by have := h₂ hne; omega⟩

theorem room_step {a : Action} (hr : Room t) (ha : t.Allowed a) (h : t.step a = .ok t') :
    Room t' := by
  cases a with
  | prepare => exact room_prepare hr h
  | consume => exact room_consume hr h
  | streamPrepare => exact room_streamPrepare hr h
  | streamCommit => exact room_streamCommit hr ha h
  | streamClose => exact room_streamClose hr h

/-- Every reachable session keeps the room the framing needs. -/
theorem Reachable.room (ht : Reachable t) : Room t := by
  induction ht with
  | new h => exact room_init h (valid_ofSlice 0 0) fun _ => rfl
  | start _ h ih => exact room_init h ih.valid ih.rewound
  | step _ ha he ih => exact room_step ih ha he

/-! ## The framing writes fit -/

/-- The framing writes of the calls the caller may make next all fit in `tmp0_`. -/
structure FramingFits (t : Session) : Prop where
  /-- chunked stream style without content-coding: the last-chunk fits until `close` -/
  lastChunk : t.sr.st = .stream → t.sr.isChunked = true → t.sr.isCompressed = false →
    t.sr.more = true → lastChunkLen ≤ t.sr.tmp0.capacity
  /-- `stream.commit` of no more than the last `stream.prepare` offered, of at least one byte
  when chunked -/
  commit : ∀ d, t.Allowed (.streamCommit d) → (t.sr.isChunked = true → d ≠ []) →
    ∃ t', t.step (.streamCommit d) = .ok t'
  /-- the first `stream.close` -/
  close : t.Allowed .streamClose → t.sr.more = true → ∃ t', t.step .streamClose = .ok t'
  /-- the chunked read of the source branch of `prepare` -/
  readChunked : ∀ src, ∃ r, t.sr.readChunked src = .ok r
  /-- under content-coding, once `prepare` found `tmp0_` empty and roomy and read the source:
  the size line, then the close of the chunk after whatever the filter wrote -/
  compressed : ∀ src s₁ evs, t.sr.isChunked = true → t.sr.tmp0.size = 0 →
    chunkedOverhead + 6 + 1 ≤ t.sr.tmp0.capacity →
    (if t.sr.st = .source then t.sr.readCompressed src else .ok (t.sr, [])) = .ok (s₁, evs) →
    ∃ s₂ hdr, s₁.reserveChunkHeader = .ok (s₂, hdr) ∧
      ∀ flt nw s₃ evs', filterLoop flt (s₂.tmp0.capacity + 1) 0 0 s₂ [] = .ok (nw, s₃, evs') →
        ∃ s₄, s₃.finishChunk hdr nw = .ok s₄

theorem framing_fits (ht : Reachable t) : FramingFits t := by
  have hr := ht.room
  refine ⟨fun hs hch hc hm => ?_, fun d ha hd => ?_, fun ha hm => ?_,
    fun src => readChunked_ok _ src, fun src s₁ evs hch h0 hroom h₁ => ?_⟩
  · simpa [lastRoom, hm] using (hr.stream hs hch hc).1
  · -- the chunk and its CRLF take no more than the last `stream.prepare` kept
    obtain ⟨s', h'⟩ := Stream.commit_ok (s := { t.sr with mem := t.sr.mem.store t.streamBuf d })
      (n := d.length) fun hch hc => by
        have hpos : 0 < d.length := List.length_pos.mpr (hd hch)
        have hne : t.streamBuf ≠ [] := fun h => by
          have := ha.2
          simp only [h, List.length_nil] at this
          omega
        have := (hr.stream ha.1 hch hc).2 hne
        have := ha.2
        exact ⟨hpos, by simp only [chunkHeaderLen, crlfLen] at *; omega⟩
    exact ⟨_, by simp only [step, h']; rfl⟩
  · obtain ⟨s', h'⟩ := Stream.close_ok hm fun hch hc => by
      simpa [lastRoom, hm] using (hr.stream ha hch hc).1
    exact ⟨_, by simp only [step, h']; rfl⟩
  · obtain ⟨ht₁, -, hc₁, -⟩ := readCompressed_stage h₁
    obtain ⟨s₂, hdr, h₂, hfin⟩ := compressedFraming_ok (s := s₁) (by rw [ht₁]; exact h0)
      (by rw [ht₁]; exact hr.rewound h0) (by rw [ht₁]; exact hroom) (hc₁.trans hch)
    exact ⟨s₂, hdr, h₂, fun flt nw s₃ evs' h₃ => hfin h₃⟩

/-- A chunked stream on a workspace of 64 bytes, after its first `stream.prepare`: the caller
is offered the 39 bytes between the room of a size line and the room of CRLF and the
last-chunk. -/
theorem framing_fits_new_stream :
    ∃ s₀ t, (new 64).startStream (sampleMessage true .identity false) = .ok s₀ ∧
      Run (init s₀) [.streamPrepare] t ∧ t.streamBuf.length = 39 ∧ FramingFits t :=
  exists_run_of_exec_of (by decide) fun _ _ hs₀ hrun _ =>
    framing_fits ((Reachable.new (w := 64) (.stream hs₀)).run hrun)

/-! ## Where the slots run out, in a run -/

/-- A `consume(0)` after the header while `Expect: 100-continue` holds, with `tmp0_` empty,
passes the first slot of `tmp0_`; the next view then writes past the slots. And `start_empty`
under content-coding, on a serializer a message has used, leaves the one slot of the header for
the compressed branch, whose `on_end` writes past it. -/
theorem prepare_writes_past_slots :
    (∃ s₀ t, (new 64).startWithSource (sampleMessage false .identity true) = .ok s₀ ∧
      Run (init s₀) [.prepare (.ofList [] true 0) (.ofList []), .consume 3, .consume 0,
        .prepare (.ofList [] true 0) (.ofList [])] t ∧
      (t.sr.out.slots.length, t.sr.out.pos) = (3, 2) ∧
      t.sr.prepare (.ofList [97] true 0) (.ofList []) = .error .undefined) ∧
    ∃ s₀ t, (new 64).startStream (sampleMessage false .identity false) = .ok s₀ ∧
      Run (init s₀) [.streamPrepare, .streamCommit [97], .streamClose,
        .prepare (.ofList [] true 0) (.ofList []), .consume 4] t ∧ t.sr.isDone = true ∧
      ∃ s₁, t.sr.startEmpty (sampleMessage false .deflate false) = .ok s₁ ∧
        s₁.out.slots.length = 1 ∧
        s₁.prepare (.ofList [] true 0) (.ofList [⟨0, [120], true⟩]) = .error .undefined :=
  ⟨⟨_, _, rfl, run_of_exec rfl, rfl, rfl⟩, ⟨_, _, rfl, run_of_exec rfl, rfl, _, rfl, rfl, rfl⟩⟩

/-- The same `consume(0)` in stream style, then `close`: the header is sent and nothing is left
of the body, but the driver's `prepare` returns `expect_100_continue`, and the `prepare` it then
calls writes past the slots, for every source and filter. The message is never done. -/
theorem driver_faults_after_close :
    ∃ s₀ t t', (new 64).startStream (sampleMessage false .identity true) = .ok s₀ ∧
      Run (init s₀) [.prepare (.ofList [] true 0) (.ofList []), .consume 3, .consume 0,
        .streamClose] t ∧
      t.sr.more = false ∧ t.sr.isDone = false ∧ t.sr.unsent = [] ∧
      Run t [.prepare (.ofList [] true 0) (.ofList [])] t' ∧
      (calls t'.log).getLast?.map Call.result = some (.error .expect100Continue) ∧
      ∀ src flt, t'.step (.prepare src flt) = .error .undefined :=
  ⟨_, _, _, rfl, run_of_exec rfl, rfl, rfl, rfl, run_of_exec rfl, rfl, fun _ _ => rfl⟩

end Session

end HttpProto
