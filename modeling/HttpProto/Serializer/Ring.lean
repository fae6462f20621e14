import HttpProto.Serializer.Prepare

/-!
# What `prepare` writes into `tmp0_`

The frame lemmas of `Prepare` say what the branches leave alone; these say what they write.
Each helper is taken once, as the circular buffer sees it: the bytes it appends to the readable
ones of `tmp0_`, and where. The loop that drives the filter appends, in order, what each call
of the filter wrote; the literals go after them.

## Main results

* `appendTmp0_eq_ok`, `appendTmp0_contents`: a literal goes at the end of `tmp0_`
* `filterLoop_spec`: the loop appends the filter's output and counts it
* `filterLoop_fuel_le`: the loop's fuel is never used up
* `reserveChunkHeader_eq_ok`, `finishChunk_contents`: the size line is reserved at the write
  position, and filled in when the chunk is closed
* `fillSlots_data`: the view is the header slot, while first, then the pieces of `tmp0_`
-/

namespace HttpProto

namespace Serializer

open CircularBuffer

variable {s s' : Serializer} {src : Source} {flt : Filter}

/-! ## Literals -/

theorem appendTmp0_eq_ok {lit : List Byte} (hv : s.tmp0.Valid) (h : s.appendTmp0 lit = .ok s') :
    lit.length ≤ s.tmp0.capacity ∧
      s' = { s with tmp0 := { s.tmp0 with outSize := lit.length }.commit lit.length,
                    mem := s.mem.store (s.tmp0.freeAddrs lit.length) lit } := by
  obtain ⟨⟨dest, tmp0⟩, hp, rfl⟩ := map_eq_ok.mp h
  obtain ⟨hn, -, rfl⟩ := prepare_eq_ok hp
  dsimp only
  rw [addrs_prepare hv hp]
  simp [hn]

/-- A literal is appended to the readable bytes of `tmp0_`. -/
theorem appendTmp0_contents {lit : List Byte} (hv : s.tmp0.Valid)
    (h : s.appendTmp0 lit = .ok s') :
    Grows s.tmp0 s'.tmp0 lit.length ∧ s'.tmp0.Valid ∧
      s'.tmp0.contents s'.mem.ws = s.tmp0.contents s.mem.ws ++ lit := by
  obtain ⟨hn, rfl⟩ := appendTmp0_eq_ok hv h
  simp only [capacity] at hn
  have hv' : Valid { s.tmp0 with outSize := lit.length } := ⟨hv.inPos_lt, hv.inLen_le, hn⟩
  have := hv.inLen_le
  exact ⟨grows_commit _ le_rfl, hv'.commit _, contents_store_commit _ _ _ (by omega) le_rfl⟩

/-! ## The filter loop -/

theorem getOutput_eq_ok {out : MutableBuffer} (h : s.getOutput = .ok (out, s')) :
    0 < s.tmp0.cap ∧ s' = { s with tmp0 := { s.tmp0 with outSize := s.tmp0.capacity } } ∧
      (0 < out.size → out.pos = s.tmp0.base + s.tmp0.wpos ∧
        out.size ≤ s.tmp0.cap - s.tmp0.wpos ∧ out.size ≤ s.tmp0.capacity) := by
  obtain ⟨⟨mbs, tmp0⟩, hp, h⟩ := map_eq_ok.mp h
  obtain ⟨-, hcap, rfl⟩ := prepare_eq_ok hp
  obtain ⟨hsize, hpos⟩ := firstPiece_prepare hp
  simp only [Prod.mk.injEq] at h
  obtain ⟨rfl, rfl⟩ := h
  refine ⟨hcap, rfl, fun h0 => ?_⟩
  set f := firstPiece MutableBuffer.size .empty mbs
  have hf : 0 < f.size → f.pos = s.tmp0.base + s.tmp0.wpos := fun h => hpos (by omega)
  -- the buffer offered is the first free piece, shortened when chunked
  split_ifs at h0 ⊢
  · exact absurd h0 (lt_irrefl 0)
  · dsimp only [crlfLen, lastChunkLen] at h0 ⊢
    exact ⟨hf (by omega), by omega, by omega⟩
  · exact ⟨hf h0, by omega, by omega⟩

theorem consumeInput_tmp0 {n : Nat} (h : s.consumeInput n = .ok s') :
    s'.tmp0 = s.tmp0 ∧ s'.mem = s.mem ∧ s'.out = s.out := by
  unfold consumeInput at h
  split_ifs at h
  · obtain ⟨_, -, rfl⟩ := map_eq_ok.mp h; exact ⟨rfl, rfl, rfl⟩
  · cases h; exact ⟨rfl, rfl, rfl⟩

/-- What the loop does to `tmp0_`: it appends, in order, what each call of the filter wrote,
and `nw` counts it. -/
theorem filterLoop_spec {fuel k nw : Nat} {evs : List Event} {r : Nat × Serializer × List Event}
    (hv : s.tmp0.Valid) (h : filterLoop flt fuel k nw s evs = .ok r) :
    ∃ new, r.2.2 = evs ++ new ∧ r.1 = nw + (new.flatMap Event.output).length ∧
      Grows s.tmp0 r.2.1.tmp0 (new.flatMap Event.output).length ∧ r.2.1.tmp0.Valid ∧
      r.2.1.tmp0.contents r.2.1.mem.ws = s.tmp0.contents s.mem.ws ++ new.flatMap Event.output ∧
      r.2.1.out = s.out := by
  induction fuel generalizing k nw s evs with
  | zero =>
    cases h
    exact ⟨[], by simp, by simp, by simpa using Grows.refl s.tmp0 s.tmp0.outSize, hv, by simp, rfl⟩
  | succ fuel ih =>
    obtain ⟨inb, -, h⟩ := bind_eq_ok.mp h
    obtain ⟨⟨out, s₁⟩, h₁, h⟩ := bind_eq_ok.mp h
    obtain ⟨hcap, rfl, hout⟩ := getOutput_eq_ok h₁
    have hv₁ : ({ s.tmp0 with outSize := s.tmp0.capacity } : CircularBuffer).Valid :=
      ⟨hv.inPos_lt, hv.inLen_le, by simp [capacity]⟩
    dsimp only at h
    split at h
    · -- no room left: the loop stops
      split at h
      · cases h
      · cases h
        exact ⟨[], by simp, by simp, Grows.refl _ _, hv₁, by simp, rfl⟩
    · -- one call of the filter, whose output is written at the write position
      rename_i hne
      obtain ⟨s₂, h₂, h⟩ := bind_eq_ok.mp h
      obtain ⟨ht₂, hm₂, ho₂⟩ := consumeInput_tmp0 h₂
      have ht₂' : s₂.tmp0 = { s.tmp0 with outSize := s.tmp0.capacity } := by
        split at ht₂ <;> exact ht₂
      have hm₂' : s₂.mem = s.mem := by split at hm₂ <;> exact hm₂
      have ho₂' : s₂.out = s.out := by split at ho₂ <;> exact ho₂
      obtain ⟨hpos, hroom, hcapy⟩ := hout (Nat.pos_of_ne_zero hne)
      set R := flt.process k out.size (s.mem.read inb) s.more
      have hR : R.out.length ≤ out.size := flt.out_le _ _ _ _
      split at h
      · -- the filter wrote nothing: the loop stops
        rename_i h0
        cases h
        have hnil : R.out = [] := List.eq_nil_of_length_eq_zero h0
        refine ⟨[.process out.size (s.mem.read inb) s.more R], rfl, by simp [Event.output, hnil], ?_,
          ht₂' ▸ hv₁, by simp [Event.output, hnil, ht₂', hm₂'], ho₂'⟩
        simpa [Event.output, hnil, ht₂'] using Grows.refl s.tmp0 s.tmp0.capacity
      · have hv₃ : (s₂.tmp0.commit R.out.length).Valid := ht₂' ▸ hv₁.commit _
        obtain ⟨new, hevs, hnw, hg, hv', hc, ho⟩ := ih hv₃ h
        refine ⟨.process out.size (s.mem.read inb) s.more R :: new, by simpa using hevs,
          by simp [hnw, Event.output]; omega, ?_, hv', ?_, ho.trans ho₂'⟩
        · have hg' : Grows ({ s.tmp0 with outSize := s.tmp0.capacity }.commit R.out.length)
              r.2.1.tmp0 (new.flatMap Event.output).length := by
            simpa only [ht₂'] using hg
          simpa [Event.output] using (grows_commit s.tmp0 (hR.trans hcapy)).trans hg'
        · have hfree : List.range' out.pos out.size = s.tmp0.freeAddrs out.size := by
            rw [hpos, freeAddrs_eq_range' _ hcap hroom]
          have h₃ : (s₂.tmp0.commit R.out.length).contents
              (fun q => storeAt s₂.mem.ws q (List.range' out.pos out.size) R.out) =
              s.tmp0.contents s.mem.ws ++ R.out := by
            have := hv.inLen_le
            simp only [capacity] at hcapy
            rw [ht₂', hm₂', hfree, commit_outSize s.tmp0 (hR.trans (by simpa [capacity])) hR]
            exact contents_store_commit _ _ _ (by omega) hR
          simp [hc, h₃, Event.output]

/-- The loop's fuel is never used up: a round that goes on commits at least one byte of the
free space of `tmp0_`, so past `tmp0_.capacity()` rounds one more changes nothing. -/
theorem filterLoop_fuel {fuel k nw : Nat} {evs : List Event} (h : s.tmp0.capacity < fuel) :
    filterLoop flt (fuel + 1) k nw s evs = filterLoop flt fuel k nw s evs := by
  induction fuel generalizing k nw s evs with
  | zero => omega
  | succ fuel ih =>
    rw [filterLoop, filterLoop]
    cases s.getInput with
    | error => rfl
    | ok inb =>
      cases hout : s.getOutput with
      | error => rfl
      | ok r =>
        obtain ⟨out, s₁⟩ := r
        obtain ⟨-, rfl, hsize⟩ := getOutput_eq_ok hout
        dsimp only [bind, Except.bind]
        split
        · rfl
        rename_i hne
        split
        · rfl
        rename_i s₂ h₂
        split
        · rfl
        -- the filter wrote a byte or more, within what `get_output` offered
        rename_i hpos
        apply ih
        obtain ⟨ht₂, -, -⟩ := consumeInput_tmp0 h₂
        have ht₂' : s₂.tmp0 = { s.tmp0 with outSize := s.tmp0.capacity } := by
          split at ht₂ <;> exact ht₂
        have hR := flt.out_le k out.size (s.mem.read inb) s.more
        show (s₂.tmp0.commit _).capacity < fuel
        rw [ht₂', capacity_commit_of_le (hR.trans (hsize (Nat.pos_of_ne_zero hne)).2.2),
          capacity_outSize]
        omega

/-- The `capacity() + 1` rounds `prepare` gives the loop compute what any more would. -/
theorem filterLoop_fuel_le {fuel fuel' k nw : Nat} {evs : List Event} (h : s.tmp0.capacity < fuel)
    (hle : fuel ≤ fuel') : filterLoop flt fuel' k nw s evs = filterLoop flt fuel k nw s evs := by
  induction fuel', hle using Nat.le_induction with
  | base => rfl
  | succ n hn ih => rw [filterLoop_fuel (h.trans_le hn), ih]

/-! ## The chunk's size line -/

/-- The size line is reserved, zeroed, at the write position; it must not wrap. -/
theorem reserveChunkHeader_eq_ok {hdr : List Nat} (h : s.reserveChunkHeader = .ok (s', hdr)) :
    hdr = s.tmp0.freeAddrs chunkHeaderLen ∧
      s' = { s with tmp0 := { s.tmp0 with outSize := chunkHeaderLen }.commit chunkHeaderLen,
                    mem := s.mem.store hdr (List.replicate chunkHeaderLen 0) } := by
  obtain ⟨⟨mbs, tmp0⟩, hp, h⟩ := bind_eq_ok.mp h
  obtain ⟨-, hcap, rfl⟩ := prepare_eq_ok hp
  obtain ⟨hsize, hpos⟩ := firstPiece_prepare hp
  dsimp only at h
  split_ifs at h with hlt
  cases h
  have hroom : chunkHeaderLen ≤ s.tmp0.cap - s.tmp0.wpos := by
    rw [hsize] at hlt; simp only [chunkHeaderLen] at hlt ⊢; omega
  rw [hpos (by decide), freeAddrs_eq_range' _ hcap hroom]
  exact ⟨rfl, rfl⟩

/-- A chunk's bytes written after the first eighteen of `N` free bytes, its size line into
those eighteen, and both committed: the size line and the bytes are appended. -/
theorem contents_chunk_commit (b : CircularBuffer) (f : Nat → Byte) (d : List Byte) {N : Nat}
    (hN : b.inLen + N ≤ b.cap) (hd : chunkHeaderLen + d.length ≤ N) :
    ({ b with outSize := N }.commit (d.length + chunkHeaderLen)).contents
        (fun q => storeAt (fun q => storeAt f q ((b.freeAddrs N).drop chunkHeaderLen) d) q
          ((b.freeAddrs N).take chunkHeaderLen) (chunkHeaderBytes d.length)) =
      b.contents f ++ (chunkHeaderBytes d.length ++ d) := by
  have hlen : ((b.freeAddrs N).take chunkHeaderLen).length = (chunkHeaderBytes d.length).length := by
    simp only [List.length_take, length_freeAddrs, length_chunkHeaderBytes, chunkHeaderLen] at hd ⊢
    omega
  simp only [← storeAt_append _ _ _ _ hlen, List.take_append_drop]
  rw [show d.length + chunkHeaderLen = (chunkHeaderBytes d.length ++ d).length by
    simp [chunkHeaderLen, Nat.add_comm]]
  exact contents_store_commit _ _ _ hN (by simp only [chunkHeaderLen] at hd; simp; omega)

/-- Closing a chunk whose zeroed size line stands first in `tmp0_`: the size line of `nw` over
it, CRLF after the bytes, and the last-chunk once the filter is done. -/
theorem finishChunk_contents {hdr rest : List Nat} {nw : Nat} (hv : s.tmp0.Valid)
    (hd : s.tmp0.dataAddrs = hdr ++ rest) (hlen : hdr.length = chunkHeaderLen)
    (h : s.finishChunk hdr nw = .ok s') :
    s'.tmp0.Valid ∧ s'.out = s.out ∧ s'.filterDone = s.filterDone ∧
      s'.tmp0.contents s'.mem.ws =
        sizeLine nw ++ rest.map s.mem.ws ++ crlf ++ (if s.filterDone then lastChunk else []) := by
  obtain ⟨mem, hmem, h⟩ := bind_eq_ok.mp h
  obtain ⟨-, rfl⟩ := writeChunkHeader_eq_ok.mp hmem
  obtain ⟨s₁, h₁, h⟩ := bind_eq_ok.mp h
  have hc : s.tmp0.contents (fun q => storeAt s.mem.ws q hdr (chunkHeaderBytes nw)) =
      sizeLine nw ++ rest.map s.mem.ws := by
    rw [contents, hd, map_storeAt_append (hd ▸ hv.nodup_dataAddrs) (by simp [hlen, chunkHeaderLen]),
      chunkHeaderBytes_eq_sizeLine]
  obtain ⟨-, hv₁, hc₁⟩ := appendTmp0_contents (by exact hv) h₁
  obtain ⟨-, rfl⟩ := appendTmp0_eq_ok (by exact hv) h₁
  split at h
  · obtain ⟨-, hv₂, hc₂⟩ := appendTmp0_contents hv₁ h
    obtain ⟨-, rfl⟩ := appendTmp0_eq_ok hv₁ h
    exact ⟨hv₂, rfl, rfl, by simp_all⟩
  · cases h
    exact ⟨hv₁, rfl, rfl, by simp_all⟩

/-! ## The compressed read -/

/-- The compressed read calls the source once, takes `more_` from what it reported, and leaves
`tmp0_` and the slots alone. -/
theorem readCompressed_eq_ok {s₁ : Serializer} {evs : List Event}
    (h : s.readCompressed src = .ok (s₁, evs)) :
    ∃ n, evs = [.read n (src.read n)] ∧ s₁.more = !(src.read n).finished ∧
      s₁.tmp0 = s.tmp0 ∧ s₁.out = s.out ∧ s₁.isChunked = s.isChunked ∧
      s₁.filterDone = s.filterDone := by
  obtain ⟨⟨dest, tmp1⟩, -, h⟩ := map_eq_ok.mp h
  cases h
  exact ⟨_, rfl, rfl, rfl, rfl, rfl, rfl⟩

/-! ## The view -/

/-- What the serializer holds that the caller has not been handed past: the header while its
slot is first, then the readable bytes of `tmp0_`. -/
def unsent (s : Serializer) : List Byte :=
  (if s.out.pos = 0 then s.mem.read s.hp else []) ++ s.tmp0.contents s.mem.ws

theorem read_of_header {m m' : Memory} {b : ConstBuffer} (hb : b.region = .header)
    (h : m'.header = m.header) : m'.read b = m.read b := by
  simp [Memory.read, hb, h]

/-- The slot loop, on the three slots of the source and stream styles and of content-coding:
the view is the header slot while it is first, then the two pieces of `tmp0_`. -/
theorem fillSlots_data (hslots : s.out.slots.length = 3) (h : fillSlots s = .ok s') :
    s'.out.data = (if s.out.pos = 0 then [s.hp] else []) ++ s.tmp0.data ∧
      s' = { s with out := s'.out } ∧ s'.out.slots.length = 3 ∧ s'.out.pos = s.out.pos ∧
      s'.hp = s.hp := by
  obtain ⟨out, hout, rfl⟩ := map_eq_ok.mp h
  obtain ⟨a, b, c, hs⟩ : ∃ a b c, s.out.slots = [a, b, c] := by
    match s.out.slots, hslots with
    | [a, b, c], _ => exact ⟨a, b, c, rfl⟩
  obtain ⟨d₁, d₂, hd⟩ : ∃ d₁ d₂, s.tmp0.data = [d₁, d₂] := by
    unfold CircularBuffer.data; split <;> exact ⟨_, _, rfl⟩
  rw [hd] at hout ⊢
  simp only [hp]
  generalize s.out = o at hs hout ⊢
  obtain ⟨slots, pos⟩ := o
  dsimp only at hs hout ⊢
  subst hs
  have h3 : ∀ n : Nat, ¬n + 3 < 3 := fun _ => by omega
  rcases pos with _ | _ | _ | pos <;>
    simp [BufferArray.setFrom, BufferArray.set, bind, Except.bind, h3] at hout <;>
    (subst hout; simp [BufferArray.data])

/-- After the slot loop the view is what the serializer holds unsent. -/
theorem fillSlots_unsent (hv : s.tmp0.Valid) (hslots : s.out.slots.length = 3)
    (h : fillSlots s = .ok s') :
    s' = { s with out := s'.out } ∧ s'.out.slots.length = 3 ∧ s'.out.pos = s.out.pos ∧
      s'.hp = s.hp ∧ s'.unsent = s.unsent ∧ s'.mem.readAll s'.out.data = s.unsent := by
  obtain ⟨hdata, hnext, hsl, hpos, hhp⟩ := fillSlots_data hslots h
  have hm : s'.mem = s.mem := by rw [hnext]
  have ht : s'.tmp0 = s.tmp0 := by rw [hnext]
  refine ⟨hnext, hsl, hpos, hhp, by simp only [unsent, hpos, hhp, hm, ht], ?_⟩
  simp only [hdata, Memory.readAll_append, hm, readAll_data _ hv, unsent]
  split <;> simp

end Serializer

end HttpProto
