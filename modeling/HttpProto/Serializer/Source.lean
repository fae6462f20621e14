import HttpProto.Serializer.Ring

/-!
# What the source branch of `prepare` writes

Without content-coding, a `prepare` in source style reads the source once while `more_` holds
and frames what it got into `tmp0_`. Identity-framed, the read goes into all the free space of
`tmp0_` and is committed before its error code is looked at, so the bytes a failed read reports
are sent. Chunked, the read goes after the room of a size line; a failed read returns before
anything is committed, and otherwise the bytes, if any, are framed as one chunk and the
last-chunk follows once the source reports the end of the body.

## Main definitions

* `readWire`: what a read appends to `tmp0_`

## Main results

* `readIdentity_contents`, `readChunked_contents`: the two reads
* `prepareSource_wire`: the source branch, with the view it returns
* `prepareSource_failed_read`: a failed read's error code is what `prepare` returns
-/

namespace HttpProto

namespace Serializer

open CircularBuffer

variable {s s' : Serializer} {src : Source} {p : Prepared}

/-- What a read appends to `tmp0_` without content-coding. Identity-framed, what the source
wrote, a failed read's bytes included; chunked, nothing for a failed read, otherwise its bytes
as one chunk if there are any, then the last-chunk if the body is finished. -/
def readWire (isChunked : Bool) (r : ReadResult) : List Byte :=
  if !isChunked then r.bytes
  else if r.ec ≠ 0 then []
  else (if r.bytes = [] then [] else chunk r.bytes) ++ (if r.finished then lastChunk else [])

/-! ## The identity-framed read -/

/-- The identity-framed read appends what the source wrote, failed or not; a read that did not
fail sets `more_` from what it reported. -/
theorem readIdentity_contents {err : Option Nat} {evs : List Event} (hv : s.tmp0.Valid)
    (h : s.readIdentity src = .ok (s', err, evs)) :
    ∃ n, evs = [.read n (src.read n)] ∧ s'.tmp0.Valid ∧ s'.out = s.out ∧
      s'.tmp0.contents s'.mem.ws = s.tmp0.contents s.mem.ws ++ (src.read n).bytes ∧
      err = (if (src.read n).ec ≠ 0 then some (src.read n).ec else none) ∧
      s'.more = (if (src.read n).ec ≠ 0 then s.more else !(src.read n).finished) := by
  obtain ⟨⟨dest, tmp0⟩, hp, h⟩ := map_eq_ok.mp h
  obtain ⟨hn, -, rfl⟩ := prepare_eq_ok hp
  dsimp only at h
  rw [addrs_prepare hv hp] at h
  have hle : (src.read (s.tmp0.freeAddrs s.tmp0.capacity).length).bytes.length ≤
      s.tmp0.capacity := (src.read_le _).trans_eq (length_freeAddrs _ _)
  have hv' := hv.prepare hp
  have hc := contents_store_commit s.tmp0 s.mem.ws _
    (by have := hv.inLen_le; simp only [CircularBuffer.capacity]; omega) hle
  split_ifs at h with hec <;> cases h
  · exact ⟨_, rfl, hv'.commit _, rfl, hc, (if_pos hec).symm, (if_pos hec).symm⟩
  · exact ⟨_, rfl, hv'.commit _, rfl, hc, (if_neg hec).symm, (if_neg hec).symm⟩

/-! ## The chunked read -/

/-- After a chunked read that did not fail: its bytes, written after the first eighteen of `N`
free bytes of `tmp0_`, are framed as one chunk if there are any, then the last-chunk follows
if the body is finished. -/
theorem frameRead_contents {b : CircularBuffer} {f : Nat → Byte} {N : Nat} {rv : ReadResult}
    (hv : b.Valid) (hN : b.inLen + N ≤ b.cap) (hbytes : chunkHeaderLen + rv.bytes.length ≤ N)
    (hec : rv.ec = 0)
    (htmp : s.tmp0 = { b with outSize := N })
    (hws : s.mem.ws = fun q => storeAt f q ((b.freeAddrs N).drop chunkHeaderLen) rv.bytes)
    (h : s.frameRead ((b.freeAddrs N).take chunkHeaderLen) rv = .ok s') :
    s'.tmp0.Valid ∧ s'.out = s.out ∧
      s'.tmp0.contents s'.mem.ws = b.contents f ++ readWire true rv ∧
      s'.more = (if rv.finished then false else s.more) := by
  have hvN : Valid { b with outSize := N } := ⟨hv.inPos_lt, hv.inLen_le, by dsimp only; omega⟩
  unfold frameRead at h
  obtain ⟨s₁, h₁, h⟩ := bind_eq_ok.mp h
  -- the chunk, if the read wrote anything
  have e₁ : s₁.tmp0.Valid ∧ s₁.out = s.out ∧ s₁.more = s.more ∧
      s₁.tmp0.contents s₁.mem.ws = b.contents f ++ (if rv.bytes = [] then [] else chunk rv.bytes) := by
    split at h₁
    · rename_i hne
      obtain ⟨mem, hmem, h₁⟩ := bind_eq_ok.mp h₁
      obtain ⟨-, rfl⟩ := writeChunkHeader_eq_ok.mp hmem
      have hv₀ : Valid (s.tmp0.commit (rv.bytes.length + 18)) := htmp ▸ hvN.commit _
      obtain ⟨-, hv₁, hc₁⟩ := appendTmp0_contents (by exact hv₀) h₁
      obtain ⟨-, rfl⟩ := appendTmp0_eq_ok (by exact hv₀) h₁
      refine ⟨hv₁, rfl, rfl, ?_⟩
      rw [hc₁, if_neg (by simpa using hne)]
      simp only [Memory.store_ws, hws, htmp]
      rw [show rv.bytes.length + 18 = rv.bytes.length + chunkHeaderLen from rfl,
        contents_chunk_commit b f rv.bytes hN hbytes, chunkHeaderBytes_eq_sizeLine, chunk]
      simp only [List.append_assoc]
    · rename_i hz
      cases h₁
      have hnil : rv.bytes = [] := List.eq_nil_of_length_eq_zero (by simpa using hz)
      refine ⟨htmp ▸ hvN, rfl, rfl, ?_⟩
      rw [if_pos hnil, htmp, hws, hnil]
      simp [contents]
  obtain ⟨hv₁, ho₁, hm₁, hc₁⟩ := e₁
  have hw : readWire true rv = (if rv.bytes = [] then [] else chunk rv.bytes) ++
      (if rv.finished then lastChunk else []) := by
    simp [readWire, hec]
  split at h
  · rename_i hfin
    obtain ⟨s₂, h₂, rfl⟩ := map_eq_ok.mp h
    obtain ⟨-, hv₂, hc₂⟩ := appendTmp0_contents hv₁ h₂
    obtain ⟨-, rfl⟩ := appendTmp0_eq_ok hv₁ h₂
    exact ⟨hv₂, ho₁, by rw [hc₂, hc₁, hw, if_pos hfin, List.append_assoc], by simp [hfin]⟩
  · rename_i hfin
    cases h
    exact ⟨hv₁, ho₁, by rw [hc₁, hw, if_neg hfin, List.append_nil], by simp [hfin, hm₁]⟩

/-- The chunked read: nothing when `tmp0_` has no room beyond a chunk's framing; otherwise one
read, after which `tmp0_` holds what `readWire` appends, and the body is over when the read
ends it. -/
theorem readChunked_contents {err : Option Nat} {evs : List Event} (hv : s.tmp0.Valid)
    (h : s.readChunked src = .ok (s', err, evs)) :
    s'.tmp0.Valid ∧ s'.out = s.out ∧
      ((evs = [] ∧ err = none ∧ s' = s) ∨
       ∃ n, evs = [.read n (src.read n)] ∧
         s'.tmp0.contents s'.mem.ws = s.tmp0.contents s.mem.ws ++ readWire true (src.read n) ∧
         err = (if (src.read n).ec ≠ 0 then some (src.read n).ec else none) ∧
         s'.more = (if (src.read n).ends then false else s.more)) := by
  unfold readChunked at h
  split_ifs at h with hcap
  · cases h; exact ⟨hv, rfl, .inl ⟨rfl, rfl, rfl⟩⟩
  obtain ⟨⟨dest, tmp0⟩, hp, h⟩ := bind_eq_ok.mp h
  obtain ⟨hn, -, rfl⟩ := prepare_eq_ok hp
  dsimp only at h
  rw [addrs_prepare hv hp] at h
  have hN : s.tmp0.inLen + (s.tmp0.capacity - 2 - 5) ≤ s.tmp0.cap := by
    have := hv.inLen_le; simp only [CircularBuffer.capacity]; omega
  have hbytes : chunkHeaderLen +
      (src.read ((s.tmp0.freeAddrs (s.tmp0.capacity - 2 - 5)).drop 18).length).bytes.length ≤
        s.tmp0.capacity - 2 - 5 := by
    have := src.read_le ((s.tmp0.freeAddrs (s.tmp0.capacity - 2 - 5)).drop 18).length
    simp only [List.length_drop, length_freeAddrs, chunkedOverhead, chunkHeaderLen] at this hcap ⊢
    omega
  split_ifs at h with hec
  · cases h
    refine ⟨hv.prepare hp, rfl, .inr ⟨_, rfl, ?_, (if_pos hec).symm, ?_⟩⟩
    swap
    · rw [ReadResult.ends_of_failed hec, if_neg Bool.false_ne_true]
    simp only [Memory.store_ws, contents_outSize, readWire, Bool.not_true, Bool.false_eq_true,
      if_false, if_pos hec, List.append_nil]
    exact contents_of_store _ _ _ hN fun _ hq => List.mem_of_mem_drop hq
  · obtain ⟨s₁, h₁, h⟩ := map_eq_ok.mp h
    cases h
    have hec' : (src.read ((s.tmp0.freeAddrs (s.tmp0.capacity - 2 - 5)).drop 18).length).ec = 0 :=
      not_not.mp hec
    obtain ⟨hv₁, ho₁, hc₁, hm₁⟩ := frameRead_contents hv hN hbytes hec' rfl rfl h₁
    exact ⟨hv₁, ho₁, .inr ⟨_, rfl, hc₁, (if_neg hec).symm, by rw [hm₁, ReadResult.ends_of_ok hec']⟩⟩

/-! ## The source branch -/

/-- The read stage of the source branch: one read at most, and none once `more_` is false. -/
theorem sourceRead_spec {s₁ : Serializer} {err : Option Nat} {evs : List Event}
    (hv : s.tmp0.Valid)
    (h : (if s.more then (if s.isChunked then s.readChunked src else s.readIdentity src)
          else .ok (s, none, [])) = .ok (s₁, err, evs)) :
    Keeps s s₁ ∧ s₁.tmp0.Valid ∧ s₁.out = s.out ∧
      s₁.tmp0.contents s₁.mem.ws =
        s.tmp0.contents s.mem.ws ++ (evs.filterMap Event.readResult).flatMap (readWire s.isChunked) ∧
      s₁.more = (if (evs.filterMap Event.readResult).any ReadResult.ends then false else s.more) ∧
      (s.more = false → evs = []) ∧ evs.length ≤ 1 := by
  split at h
  · rename_i hmore
    split at h
    · rename_i hch
      have k := readChunked_keeps h
      obtain ⟨hv₁, ho₁, ⟨rfl, -, rfl⟩ | ⟨n, rfl, hc₁, -, hm₁⟩⟩ := readChunked_contents hv h
      · exact ⟨k, hv₁, ho₁, by simp, by simp, by simp [hmore], by simp⟩
      · exact ⟨k, hv₁, ho₁, by simp [hc₁, Event.readResult, hch], by simp [hm₁, Event.readResult],
          by simp [hmore], by simp⟩
    · rename_i hch
      have k := readIdentity_keeps h
      obtain ⟨n, rfl, hv₁, ho₁, hc₁, -, hm₁⟩ := readIdentity_contents hv h
      refine ⟨k, hv₁, ho₁, by simp [hc₁, Event.readResult, readWire, hch], ?_, by simp [hmore],
        by simp⟩
      rw [hm₁, hmore]
      by_cases hec : (src.read n).ec = 0
      · simp [Event.readResult, hec, ReadResult.ends_of_ok hec]
      · simp [Event.readResult, hec, ReadResult.ends_of_failed hec]
  · cases h
    exact ⟨rfl, hv, rfl, by simp, by simp, fun _ => rfl, by simp⟩

/-- The source branch: `tmp0_` gains what the read appends, `more_` falls when the read ends the
body, and the view, unless the read failed, is what the serializer holds unsent. -/
theorem prepareSource_wire (hv : s.tmp0.Valid) (hslots : s.out.slots.length = 3)
    (hhp : s.out.pos = 0 → s.hp.region = .header) (h : s.prepareSource src = .ok p) :
    Keeps s p.next ∧ p.next.tmp0.Valid ∧ p.next.out.slots.length = 3 ∧
      p.next.out.pos = s.out.pos ∧ p.next.hp = s.hp ∧
      p.next.unsent =
        s.unsent ++ (p.events.filterMap Event.readResult).flatMap (readWire s.isChunked) ∧
      p.next.more =
        (if (p.events.filterMap Event.readResult).any ReadResult.ends then false else s.more) ∧
      (s.more = false → p.events = []) ∧ (p.events.filterMap Event.readResult).length ≤ 1 ∧
      (p.result.map p.next.mem.readAll = .ok p.next.unsent ∨
        ∃ ec, p.result = .error (.source ec)) := by
  unfold prepareSource at h
  obtain ⟨⟨s₁, err, evs⟩, h₁, h⟩ := bind_eq_ok.mp h
  obtain ⟨k₁, hv₁, ho₁, hc₁, hm₁, hn₁, hl₁⟩ := sourceRead_spec hv h₁
  have hhp₁ : s₁.hp = s.hp := by simp only [hp, ho₁]
  have hu₁ : s₁.unsent = s.unsent ++ (evs.filterMap Event.readResult).flatMap (readWire s.isChunked) := by
    simp only [unsent, ho₁, hhp₁, hc₁, List.append_assoc]
    split
    · rw [read_of_header (hhp ‹_›) k₁.header]
    · rfl
  cases err with
  | some ec =>
    cases h
    exact ⟨k₁, hv₁, ho₁ ▸ hslots, by rw [ho₁], hhp₁, hu₁, hm₁, hn₁,
      (List.length_filterMap_le _ _).trans hl₁, .inr ⟨ec, rfl⟩⟩
  | none =>
    obtain ⟨s₂, h₂, rfl⟩ := map_eq_ok.mp h
    obtain ⟨hnext, hsl, hpos, hhp₂, hu₂, hview⟩ := fillSlots_unsent hv₁ (ho₁ ▸ hslots) h₂
    refine ⟨k₁.trans (fillSlots_keeps h₂), by rw [hnext]; exact hv₁, hsl, hpos.trans (by rw [ho₁]),
      hhp₂.trans hhp₁, hu₂.trans hu₁, by rw [← hm₁, hnext], hn₁,
      (List.length_filterMap_le _ _).trans hl₁, .inl ?_⟩
    simp only [Except.map, hview, hu₂]

end Serializer

end HttpProto
