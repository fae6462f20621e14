import HttpProto.Reachable

/-!
# The workspace: no byte stored past its end

The serializer's bytes live in one workspace of `ws_.size()` bytes. `start_*` cuts it into the
slice of `tmp1_`, under content-coding, and the slice of `tmp0_`, and `start_empty` and
`start_buffers` write the framing they need at its front, once they checked there is room. Every
other byte the serializer stores goes to an address the ring of one of the slices prepared: the
reads of the source, the filter's output where `get_output` offered it, the size lines, CRLF and
the last-chunk, and the batches the caller commits to the buffer `stream.prepare()` offered.

Along every reachable session, from the serializer's construction and across messages, the
slices therefore stay inside the workspace, and no byte at or past its end is ever stored. The
slots of `out_` are not bytes of this workspace: the slot loop past them is another matter
(`prepare_writes_past_slots`).

## Main definitions

* `Serializer.SlicesWithin`: the slices of `tmp0_` and `tmp1_` lie in the workspace
* `Serializer.StoresWithin`: a change that stores inside the workspace only
* `Session.InBounds`: what holds of every reachable session

## Main results

* `Serializer.prepare_within`, `Serializer.consume_within`, `Serializer.Stream.commit_within`:
  each call stores inside the workspace only
* `Serializer.Starts.within`: `start_*` keeps the slices in the workspace
* `Session.Reachable.inBounds`: every reachable session is in bounds
-/

namespace HttpProto

namespace CircularBuffer

/-- Every address a ring prepares lies in its slice. -/
theorem lt_of_mem_addrs_prepare {b b' : CircularBuffer} {n q : Nat} {bs : List MutableBuffer}
    (h : b.prepare n = .ok (bs, b')) (hq : q ∈ addrs bs) : q < b.base + b.cap := by
  unfold prepare at h
  split_ifs at h with hn hcap
  have hpos := Nat.mod_lt (b.inPos + b.inLen) (Nat.pos_of_ne_zero hcap)
  cases h
  split at hq <;> simp [addrs, List.mem_range'_1] at hq <;> omega

/-- The writable addresses of a ring of some room lie in its slice. -/
theorem lt_of_mem_freeAddrs {b : CircularBuffer} {n q : Nat} (hcap : 0 < b.cap)
    (h : q ∈ b.freeAddrs n) : q < b.base + b.cap := by
  obtain ⟨j, -, rfl⟩ := List.mem_map.mp h
  exact Nat.add_lt_add_left (Nat.mod_lt _ hcap) _

end CircularBuffer

namespace Serializer

open CircularBuffer

variable {s s' : Serializer} {src : Source} {flt : Filter}

/-- The slices of `tmp0_` and `tmp1_` lie in the workspace. -/
structure SlicesWithin (s : Serializer) : Prop where
  tmp0 : s.tmp0.base + s.tmp0.cap ≤ s.wsSize
  tmp1 : s.tmp1.base + s.tmp1.cap ≤ s.wsSize

/-- `s'` is `s` after stores inside the workspace only: the same workspace, the rings on the
same slices, and the same bytes from the end of the workspace on. -/
structure StoresWithin (s s' : Serializer) : Prop where
  wsSize : s'.wsSize = s.wsSize
  tmp0 : s'.tmp0.base = s.tmp0.base ∧ s'.tmp0.cap = s.tmp0.cap
  tmp1 : s'.tmp1.base = s.tmp1.base ∧ s'.tmp1.cap = s.tmp1.cap
  past : ∀ q, s.wsSize ≤ q → s'.mem.ws q = s.mem.ws q

theorem StoresWithin.refl (s : Serializer) : StoresWithin s s :=
  ⟨rfl, ⟨rfl, rfl⟩, ⟨rfl, rfl⟩, fun _ _ => rfl⟩

theorem StoresWithin.trans {s'' : Serializer} (h : StoresWithin s s') (h' : StoresWithin s' s'') :
    StoresWithin s s'' :=
  ⟨h'.wsSize.trans h.wsSize, ⟨h'.tmp0.1.trans h.tmp0.1, h'.tmp0.2.trans h.tmp0.2⟩,
    ⟨h'.tmp1.1.trans h.tmp1.1, h'.tmp1.2.trans h.tmp1.2⟩,
    fun q hq => (h'.past q (h.wsSize ▸ hq)).trans (h.past q hq)⟩

theorem StoresWithin.slices (h : StoresWithin s s') (hw : s.SlicesWithin) : s'.SlicesWithin :=
  ⟨by rw [h.tmp0.1, h.tmp0.2, h.wsSize]; exact hw.tmp0,
    by rw [h.tmp1.1, h.tmp1.2, h.wsSize]; exact hw.tmp1⟩

/-- A copy to addresses below `w` leaves the bytes from `w` on. -/
theorem store_past {m : Memory} {ps : List Nat} (bs : List Byte) {w : Nat} (hps : ∀ q ∈ ps, q < w) :
    ∀ q, w ≤ q → (m.store ps bs).ws q = m.ws q :=
  fun q hq => storeAt_of_not_mem fun hm => absurd (hps q hm) (by omega)

/-- The addresses the ring of `tmp0_` prepares lie in the workspace. -/
theorem tmp0_addrs_lt (hw : s.SlicesWithin) {n : Nat} {bs : List MutableBuffer} {b : CircularBuffer}
    (h : s.tmp0.prepare n = .ok (bs, b)) : ∀ q ∈ addrs bs, q < s.wsSize :=
  fun _ hq => (lt_of_mem_addrs_prepare h hq).trans_le hw.tmp0

theorem appendTmp0_within {lit : List Byte} (hw : s.SlicesWithin) (h : s.appendTmp0 lit = .ok s') :
    StoresWithin s s' := by
  obtain ⟨⟨dest, tmp0⟩, hp, rfl⟩ := map_eq_ok.mp h
  obtain ⟨-, -, rfl⟩ := prepare_eq_ok hp
  exact ⟨rfl, ⟨rfl, rfl⟩, ⟨rfl, rfl⟩, store_past _ (tmp0_addrs_lt hw hp)⟩

theorem fillSlots_within (h : fillSlots s = .ok s') : StoresWithin s s' := by
  rw [fillSlots_eq h]
  exact ⟨rfl, ⟨rfl, rfl⟩, ⟨rfl, rfl⟩, fun _ _ => rfl⟩

theorem readIdentity_within (hw : s.SlicesWithin) {r : Serializer × Option Nat × List Event}
    (h : s.readIdentity src = .ok r) : StoresWithin s r.1 := by
  obtain ⟨⟨dest, tmp0⟩, hp, rfl⟩ := map_eq_ok.mp h
  obtain ⟨-, -, rfl⟩ := prepare_eq_ok hp
  dsimp only
  split <;> exact ⟨rfl, ⟨rfl, rfl⟩, ⟨rfl, rfl⟩, store_past _ (tmp0_addrs_lt hw hp)⟩

theorem commitChunk_within {hdr : List Nat} {n : Nat} (hw : s.SlicesWithin)
    (hhdr : ∀ q ∈ hdr, q < s.wsSize) (h : s.commitChunk hdr n = .ok s') : StoresWithin s s' := by
  obtain ⟨mem, hmem, h⟩ := bind_eq_ok.mp h
  obtain ⟨-, rfl⟩ := writeChunkHeader_eq_ok.mp hmem
  refine StoresWithin.trans ?_ (appendTmp0_within (by exact ⟨hw.tmp0, hw.tmp1⟩) h)
  exact ⟨rfl, ⟨rfl, rfl⟩, ⟨rfl, rfl⟩, store_past _ hhdr⟩

theorem frameRead_within {hdr : List Nat} {rv : ReadResult} (hw : s.SlicesWithin)
    (hhdr : ∀ q ∈ hdr, q < s.wsSize) (h : s.frameRead hdr rv = .ok s') : StoresWithin s s' := by
  obtain ⟨s₁, h₁, h⟩ := bind_eq_ok.mp h
  have w₁ : StoresWithin s s₁ := by
    split at h₁
    · exact commitChunk_within hw hhdr h₁
    · cases h₁; exact .refl _
  split at h
  · obtain ⟨s₂, h₂, rfl⟩ := map_eq_ok.mp h
    exact (w₁.trans (appendTmp0_within (w₁.slices hw) h₂)).trans
      ⟨rfl, ⟨rfl, rfl⟩, ⟨rfl, rfl⟩, fun _ _ => rfl⟩
  · cases h; exact w₁

theorem readChunked_within (hw : s.SlicesWithin) {r : Serializer × Option Nat × List Event}
    (h : s.readChunked src = .ok r) : StoresWithin s r.1 := by
  unfold readChunked at h
  split at h
  · cases h; exact .refl _
  obtain ⟨⟨dest, tmp0⟩, hp, h⟩ := bind_eq_ok.mp h
  obtain ⟨-, -, rfl⟩ := prepare_eq_ok hp
  have hlt := tmp0_addrs_lt hw hp
  dsimp only at h
  split at h
  · cases h
    exact ⟨rfl, ⟨rfl, rfl⟩, ⟨rfl, rfl⟩, store_past _ fun q hq => hlt q (List.mem_of_mem_drop hq)⟩
  · obtain ⟨s₂, h₂, rfl⟩ := map_eq_ok.mp h
    refine StoresWithin.trans ?_ (frameRead_within (by exact ⟨hw.tmp0, hw.tmp1⟩)
      (by exact fun q hq => hlt q (List.mem_of_mem_take hq)) h₂)
    exact ⟨rfl, ⟨rfl, rfl⟩, ⟨rfl, rfl⟩, store_past _ fun q hq => hlt q (List.mem_of_mem_drop hq)⟩

theorem prepareSource_within {p : Prepared} (hw : s.SlicesWithin) (h : s.prepareSource src = .ok p) :
    StoresWithin s p.next := by
  unfold prepareSource at h
  obtain ⟨⟨s₁, err, evs⟩, h₁, h⟩ := bind_eq_ok.mp h
  have w₁ : StoresWithin s s₁ := by
    split_ifs at h₁
    · exact readChunked_within hw h₁
    · exact readIdentity_within hw h₁
    · cases h₁; exact .refl _
  cases err with
  | some ec => cases h; exact w₁
  | none =>
    obtain ⟨s₂, h₂, rfl⟩ := map_eq_ok.mp h
    exact w₁.trans (fillSlots_within h₂)

theorem prepareStream_within {p : Prepared} (h : s.prepareStream = .ok p) : StoresWithin s p.next := by
  unfold prepareStream at h
  split at h
  · cases h; exact .refl _
  · obtain ⟨s₂, h₂, rfl⟩ := map_eq_ok.mp h
    exact fillSlots_within h₂

theorem consumeInput_within {n : Nat} (h : s.consumeInput n = .ok s') : StoresWithin s s' := by
  unfold consumeInput at h
  split at h
  · obtain ⟨_, -, rfl⟩ := map_eq_ok.mp h
    exact ⟨rfl, ⟨rfl, rfl⟩, ⟨rfl, rfl⟩, fun _ _ => rfl⟩
  · cases h
    exact ⟨rfl, ⟨rfl, rfl⟩, ⟨base_consume _ _, cap_consume _ _⟩, fun _ _ => rfl⟩

/-- Each round of the filter loop stores the filter's output where `get_output` offered it. -/
theorem filterLoop_within {fuel k nw : Nat} {evs : List Event} {r : Nat × Serializer × List Event}
    (hw : s.SlicesWithin) (h : filterLoop flt fuel k nw s evs = .ok r) : StoresWithin s r.2.1 := by
  induction fuel generalizing k nw s evs with
  | zero => cases h; exact .refl _
  | succ fuel ih =>
    obtain ⟨inb, -, h⟩ := bind_eq_ok.mp h
    obtain ⟨⟨out, s₁⟩, h₁, h⟩ := bind_eq_ok.mp h
    obtain ⟨-, rfl, hout⟩ := getOutput_eq_ok h₁
    dsimp only at h
    split at h
    · split at h
      · cases h
      · cases h; exact ⟨rfl, ⟨rfl, rfl⟩, ⟨rfl, rfl⟩, fun _ _ => rfl⟩
    rename_i hne
    obtain ⟨s₂, h₂, h⟩ := bind_eq_ok.mp h
    have w₂ : StoresWithin s s₂ := by
      refine StoresWithin.trans ?_ (consumeInput_within h₂)
      split <;> exact ⟨rfl, ⟨rfl, rfl⟩, ⟨rfl, rfl⟩, fun _ _ => rfl⟩
    split at h
    · cases h; exact w₂
    -- the output goes to the write position of `tmp0_`, within its slice
    obtain ⟨hpos, hroom, -⟩ := hout (Nat.pos_of_ne_zero hne)
    have hlt : ∀ q ∈ List.range' out.pos out.size, q < s₂.wsSize := fun q hq => by
      rw [List.mem_range'_1] at hq
      have := hw.tmp0
      rw [w₂.wsSize]
      omega
    have hw₂ := w₂.slices hw
    refine (w₂.trans ?_).trans (ih (by exact ⟨hw₂.tmp0, hw₂.tmp1⟩) h)
    exact ⟨rfl, ⟨rfl, rfl⟩, ⟨rfl, rfl⟩, store_past _ hlt⟩

theorem readCompressed_within {s₁ : Serializer} {evs : List Event} (hw : s.SlicesWithin)
    (h : s.readCompressed src = .ok (s₁, evs)) : StoresWithin s s₁ := by
  obtain ⟨⟨dest, tmp1⟩, hp, h⟩ := map_eq_ok.mp h
  obtain ⟨-, -, rfl⟩ := prepare_eq_ok hp
  cases h
  exact ⟨rfl, ⟨rfl, rfl⟩, ⟨rfl, rfl⟩,
    store_past _ fun _ hq => (lt_of_mem_addrs_prepare hp hq).trans_le hw.tmp1⟩

/-- The size line is reserved inside `tmp0_`'s slice. -/
theorem reserveChunkHeader_within {hdr : List Nat} (hw : s.SlicesWithin)
    (h : s.reserveChunkHeader = .ok (s', hdr)) :
    StoresWithin s s' ∧ ∀ q ∈ hdr, q < s.wsSize := by
  obtain ⟨⟨mbs, tmp0⟩, hp, -⟩ := bind_eq_ok.mp h
  obtain ⟨-, hcap, -⟩ := prepare_eq_ok hp
  obtain ⟨rfl, rfl⟩ := reserveChunkHeader_eq_ok h
  have hlt : ∀ q ∈ s.tmp0.freeAddrs chunkHeaderLen, q < s.wsSize :=
    fun _ hq => (lt_of_mem_freeAddrs hcap hq).trans_le hw.tmp0
  exact ⟨⟨rfl, ⟨rfl, rfl⟩, ⟨rfl, rfl⟩, store_past _ hlt⟩, hlt⟩

theorem finishChunk_within {hdr : List Nat} {nw : Nat} (hw : s.SlicesWithin)
    (hhdr : ∀ q ∈ hdr, q < s.wsSize) (h : s.finishChunk hdr nw = .ok s') : StoresWithin s s' := by
  obtain ⟨mem, hmem, h⟩ := bind_eq_ok.mp h
  obtain ⟨-, rfl⟩ := writeChunkHeader_eq_ok.mp hmem
  obtain ⟨s₁, h₁, h⟩ := bind_eq_ok.mp h
  have w₁ : StoresWithin s s₁ := by
    refine StoresWithin.trans ?_ (appendTmp0_within (by exact ⟨hw.tmp0, hw.tmp1⟩) h₁)
    exact ⟨rfl, ⟨rfl, rfl⟩, ⟨rfl, rfl⟩, store_past _ hhdr⟩
  split at h
  · exact w₁.trans (appendTmp0_within (w₁.slices hw) h)
  · cases h; exact w₁

theorem prepareCompressed_within {p : Prepared} (hw : s.SlicesWithin)
    (h : s.prepareCompressed src flt = .ok p) : StoresWithin s p.next := by
  obtain ⟨-, -, s₁, evs, s₂, hdr, nw, s₃, evs', s₄, h₁, h₂, h₃, -, h₄, h₅⟩ :=
    prepareCompressed_eq_ok h
  have w₁ : StoresWithin s s₁ := by
    split at h₁
    · exact readCompressed_within hw h₁
    · cases h₁; exact .refl _
  have w₂ : StoresWithin s₁ s₂ ∧ ∀ q ∈ hdr, q < s₁.wsSize := by
    split at h₂
    · exact reserveChunkHeader_within (w₁.slices hw) h₂
    · cases h₂; exact ⟨.refl _, fun _ hq => by cases hq⟩
  have w₃ := (w₁.trans w₂.1).trans (filterLoop_within ((w₁.trans w₂.1).slices hw) h₃)
  have w₄ : StoresWithin s₃ s₄ := by
    split at h₄
    · refine finishChunk_within (w₃.slices hw) (fun q hq => ?_) h₄
      rw [w₃.wsSize, ← w₁.wsSize]
      exact w₂.2 q hq
    · cases h₄; exact .refl _
  exact (w₃.trans w₄).trans (fillSlots_within (onEnd_eq_ok h₅).1)

/-- `prepare` stores inside the workspace only. -/
theorem prepare_within {p : Prepared} (hw : s.SlicesWithin) (h : s.prepare src flt = .ok p) :
    StoresWithin s p.next := by
  unfold prepare at h
  split at h
  · cases h
  split at h
  · split at h <;> cases h <;> exact ⟨rfl, ⟨rfl, rfl⟩, ⟨rfl, rfl⟩, fun _ _ => rfl⟩
  split at h
  · exact prepareCompressed_within hw h
  split at h
  · cases h; exact .refl _
  · cases h; exact .refl _
  · exact prepareSource_within hw h
  · exact prepareStream_within h
  · cases h

/-- `consume` stores nothing, and keeps the rings on their slices. -/
theorem consume_within {n : Nat} (h : s.consume n = .ok s') : StoresWithin s s' := by
  have ht := consume_tmp0 h
  obtain ⟨out, tmp0, isDone, rfl⟩ := consume_shape h
  refine ⟨rfl, ?_, ⟨rfl, rfl⟩, fun _ _ => rfl⟩
  rcases ht with ht | ⟨k, ht⟩ <;> rw [ht]
  · exact ⟨rfl, rfl⟩
  · exact ⟨base_consume _ _, cap_consume _ _⟩

/-- `stream.prepare()` stores nothing, and offers addresses of the workspace. -/
theorem Stream.prepare_within {ps : List Nat} (hw : s.SlicesWithin)
    (h : Stream.prepare s = .ok (ps, s')) : StoresWithin s s' ∧ ∀ q ∈ ps, q < s.wsSize := by
  unfold Stream.prepare at h
  split_ifs at h
  · obtain ⟨⟨bs, tmp1⟩, hp, he⟩ := map_eq_ok.mp h
    obtain ⟨-, -, rfl⟩ := prepare_eq_ok hp
    cases he
    exact ⟨⟨rfl, ⟨rfl, rfl⟩, ⟨rfl, rfl⟩, fun _ _ => rfl⟩,
      fun _ hq => (lt_of_mem_addrs_prepare hp hq).trans_le hw.tmp1⟩
  · obtain ⟨⟨bs, tmp0⟩, hp, he⟩ := map_eq_ok.mp h
    obtain ⟨-, -, rfl⟩ := prepare_eq_ok hp
    cases he
    exact ⟨⟨rfl, ⟨rfl, rfl⟩, ⟨rfl, rfl⟩, fun _ _ => rfl⟩,
      fun q hq => tmp0_addrs_lt hw hp q (List.mem_of_mem_drop hq)⟩
  · obtain ⟨⟨bs, tmp0⟩, hp, he⟩ := map_eq_ok.mp h
    obtain ⟨-, -, rfl⟩ := prepare_eq_ok hp
    cases he
    exact ⟨⟨rfl, ⟨rfl, rfl⟩, ⟨rfl, rfl⟩, fun _ _ => rfl⟩, tmp0_addrs_lt hw hp⟩

/-- `stream.commit(n)` stores the size line and CRLF of a chunk inside `tmp0_`'s slice. -/
theorem Stream.commit_within {n : Nat} (hw : s.SlicesWithin) (h : Stream.commit s n = .ok s') :
    StoresWithin s s' := by
  unfold Stream.commit at h
  split at h
  · cases h; exact ⟨rfl, ⟨rfl, rfl⟩, ⟨rfl, rfl⟩, fun _ _ => rfl⟩
  split at h
  · cases h; exact ⟨rfl, ⟨rfl, rfl⟩, ⟨rfl, rfl⟩, fun _ _ => rfl⟩
  split at h
  · cases h
  obtain ⟨⟨dest, tmp0⟩, hp, h⟩ := bind_eq_ok.mp h
  obtain ⟨-, -, rfl⟩ := prepare_eq_ok hp
  obtain ⟨mem, hmem, h⟩ := bind_eq_ok.mp h
  obtain ⟨-, rfl⟩ := writeChunkHeader_eq_ok.mp hmem
  refine StoresWithin.trans ?_ (appendTmp0_within (by exact ⟨hw.tmp0, hw.tmp1⟩) h)
  exact ⟨rfl, ⟨rfl, rfl⟩, ⟨rfl, rfl⟩,
    store_past _ fun q hq => tmp0_addrs_lt hw hp q (List.mem_of_mem_take hq)⟩

/-- `stream.close()` stores the last-chunk inside `tmp0_`'s slice. -/
theorem Stream.close_within (hw : s.SlicesWithin) (h : Stream.close s = .ok s') :
    StoresWithin s s' := by
  obtain ⟨-, ⟨-, -, s₁, h₁, rfl⟩ | ⟨-, rfl⟩⟩ := Stream.close_eq_ok h
  · exact (appendTmp0_within hw h₁).trans ⟨rfl, ⟨rfl, rfl⟩, ⟨rfl, rfl⟩, fun _ _ => rfl⟩
  · exact ⟨rfl, ⟨rfl, rfl⟩, ⟨rfl, rfl⟩, fun _ _ => rfl⟩

/-- `start_*` cuts the slices of the rings out of the workspace, and stores only at its front,
after checking for room. -/
theorem Starts.within {s₀ : Serializer} (h : Starts s s₀) (hw : s.SlicesWithin) :
    s₀.SlicesWithin ∧ s₀.wsSize = s.wsSize ∧ ∀ q, s.wsSize ≤ q → s₀.mem.ws q = s.mem.ws q := by
  cases h with
  | empty h =>
    rcases startEmpty_eq_ok h with ⟨-, rfl⟩ | ⟨-, hroom, rfl⟩
    · exact ⟨⟨hw.tmp0, hw.tmp1⟩, rfl, fun _ _ => rfl⟩
    · refine ⟨⟨hw.tmp0, hw.tmp1⟩, rfl, store_past _ fun q hq => ?_⟩
      simp only [List.mem_range'_1] at hq
      omega
  | buffers h =>
    rcases startWithBuffers_eq_ok h with ⟨-, rfl⟩ | ⟨-, -, rfl⟩ | ⟨-, -, hroom, rfl⟩
    · exact ⟨⟨by simp [ofSlice, startInit, reset], hw.tmp1⟩, rfl, fun _ _ => rfl⟩
    · exact ⟨⟨hw.tmp0, hw.tmp1⟩, rfl, fun _ _ => rfl⟩
    · refine ⟨⟨hw.tmp0, hw.tmp1⟩, rfl, fun q hq =>
        (store_past _ (fun p hp => ?_) q hq).trans (store_past _ (fun p hp => ?_) q hq)⟩
      all_goals
        simp only [List.mem_range'_1] at hp
        omega
  | source h | stream h =>
    rcases startTmp_eq_ok h with ⟨-, -, rfl⟩ | ⟨-, -, rfl⟩
    all_goals refine ⟨⟨?_, ?_⟩, rfl, fun _ _ => rfl⟩
    all_goals simp [ofSlice, startInit, reset, wsFree, hw.tmp1]; try omega

end Serializer

namespace Session

open Serializer

variable {t t' : Session}

/-- What holds of every reachable session: the rings' slices lie in the workspace, so does the
buffer `stream.prepare()` last offered, and no byte from the end of the workspace on was ever
stored. -/
structure InBounds (t : Session) : Prop where
  slices : t.sr.SlicesWithin
  streamBuf : ∀ q ∈ t.streamBuf, q < t.sr.wsSize
  past : ∀ q, t.sr.wsSize ≤ q → t.sr.mem.ws q = 0

theorem inBounds_init {s s₀ : Serializer} (h : Starts s s₀) (hw : s.SlicesWithin)
    (hp : ∀ q, s.wsSize ≤ q → s.mem.ws q = 0) : InBounds (init s₀) := by
  obtain ⟨hw₀, hws, hpast⟩ := h.within hw
  exact ⟨hw₀, (fun _ hq => by cases hq), fun q hq => (hpast q (hws ▸ hq)).trans (hp q (hws ▸ hq))⟩

/-- A call that stores inside the workspace, and leaves the handle's buffer in it. -/
theorem InBounds.of_within (hi : InBounds t) (w : StoresWithin t.sr t'.sr)
    (hb : ∀ q ∈ t'.streamBuf, q < t.sr.wsSize) : InBounds t' :=
  ⟨w.slices hi.slices, fun q hq => w.wsSize ▸ hb q hq,
    fun q hq => (w.past q (w.wsSize ▸ hq)).trans (hi.past q (w.wsSize ▸ hq))⟩

theorem inBounds_step {a : Action} (hi : InBounds t) (h : t.step a = .ok t') : InBounds t' := by
  cases a with
  | prepare src flt =>
    obtain ⟨p, hp, rfl⟩ := map_eq_ok.mp h
    exact hi.of_within (prepare_within hi.slices hp) hi.streamBuf
  | consume n =>
    obtain ⟨sr, hc, rfl⟩ := map_eq_ok.mp h
    exact hi.of_within (consume_within hc) hi.streamBuf
  | streamPrepare =>
    obtain ⟨⟨ps, sr⟩, hp, rfl⟩ := map_eq_ok.mp h
    obtain ⟨w, hps⟩ := Stream.prepare_within hi.slices hp
    exact hi.of_within w hps
  | streamCommit d =>
    -- the batch goes to the buffer the handle offered, then `commit` frames it
    obtain ⟨sr, hc, rfl⟩ := map_eq_ok.mp h
    refine hi.of_within (StoresWithin.trans ?_
      (Stream.commit_within (by exact ⟨hi.slices.tmp0, hi.slices.tmp1⟩) hc)) fun _ hq => by cases hq
    exact ⟨rfl, ⟨rfl, rfl⟩, ⟨rfl, rfl⟩, store_past _ hi.streamBuf⟩
  | streamClose =>
    obtain ⟨sr, hc, rfl⟩ := map_eq_ok.mp h
    exact hi.of_within (Stream.close_within hi.slices hc) hi.streamBuf

theorem Reachable.inBounds (ht : Reachable t) : InBounds t := by
  induction ht with
  | new h => exact inBounds_init h ⟨Nat.zero_le _, Nat.zero_le _⟩ fun _ _ => rfl
  | start _ h ih => exact inBounds_init h ih.slices ih.past
  | step _ _ h ih => exact inBounds_step ih h

/-- In every reachable session, from construction across messages: the slices of `tmp0_` and
`tmp1_` lie in the workspace, the buffer `stream.prepare()` offered lies in it, and no byte at or
past the workspace's end has ever been stored. -/
theorem writes_within_workspace (ht : Reachable t) :
    t.sr.tmp0.base + t.sr.tmp0.cap ≤ t.sr.wsSize ∧ t.sr.tmp1.base + t.sr.tmp1.cap ≤ t.sr.wsSize ∧
      (∀ q ∈ t.streamBuf, q < t.sr.wsSize) ∧ ∀ q, t.sr.wsSize ≤ q → t.sr.mem.ws q = 0 := by
  obtain ⟨⟨h0, h1⟩, hb, hp⟩ := ht.inBounds
  exact ⟨h0, h1, hb, hp⟩

theorem writes_within_workspace_stream :
    ∃ s₀ t, (new 64).startStream (sampleMessage true .deflate false) = .ok s₀ ∧
      Run (init s₀) [.streamPrepare, .streamCommit [97, 98], .prepare (.ofList [] true 0)
        (.ofList [⟨2, [120], false⟩]), .streamPrepare] t ∧
      (t.sr.tmp0.base + t.sr.tmp0.cap, t.sr.tmp1.base + t.sr.tmp1.cap, t.streamBuf.length) =
        (64, 32, 32) ∧
      (t.sr.tmp0.base + t.sr.tmp0.cap ≤ t.sr.wsSize ∧ t.sr.tmp1.base + t.sr.tmp1.cap ≤ t.sr.wsSize ∧
        (∀ q ∈ t.streamBuf, q < t.sr.wsSize) ∧ ∀ q, t.sr.wsSize ≤ q → t.sr.mem.ws q = 0) :=
  exists_run_of_exec_of (by decide) fun _ _ hs₀ hrun _ =>
    writes_within_workspace ((Reachable.new (.stream hs₀)).run hrun)

end Session

end HttpProto
