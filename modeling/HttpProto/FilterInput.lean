import HttpProto.BuffersFraming
import HttpProto.Reachable

/-!
# What the filter is given: the body, in order, each byte once

Under content-coding the body reaches the filter through a queue: the caller's buffers in
buffers style, and `tmp1_`, a ring below `tmp0_` in the workspace, in source and stream style.
`get_input` offers the filter the front of the queue, and the `consume` lambda drops what the
filter reports it took. Every other write of a compressed `prepare` lands in `tmp0_`'s slice,
and so leaves the queue alone.

Along every run of a compressed message, what the filter has taken, then what waits in the
queue, is the body the caller has supplied so far: the caller's buffers, what the reads
returned, or the batches committed into the buffer the last `stream.prepare` offered. No byte
is skipped, repeated or reordered. In buffers style the filter is moreover told that the body
has ended only once it has taken all of it, and it is then offered nothing; in source style it
is not (`filter_told_end_with_bytes_left`).

## Main definitions

* `Event.taken`: what one call of the filter took
* `Serializer.pendingIn`: the body bytes waiting for the filter
* `Session.InputInv`: the invariant of a compressed session

## Main results

* `Serializer.filterLoop_input`: the loop hands the filter the front of the queue
* `Serializer.prepareCompressed_input`: a compressed `prepare` appends what it read to the
  queue, and the filter takes from its front
* `Session.filter_takes_body`: along every run, what the filter took, then what waits, is the
  body
* `Session.buffers_filter_told_end`: in buffers style the filter is told of the end only once it
  has taken the whole body
-/

namespace HttpProto

/-- What a call of the filter took: the first `in_bytes` bytes of the input it was offered. -/
def Event.taken : Event → List Byte
  | .read .. => []
  | .process _ input _ r => input.take r.inBytes

/-- In `evs`, each call of the filter told that the body has ended is offered nothing, and the
calls before it took `B`. -/
def ToldEndAfter (B : List Byte) (evs : List Event) : Prop :=
  ∀ pre o i r post, evs = pre ++ .process o i false r :: post →
    pre.flatMap Event.taken = B ∧ i = []

theorem toldEndAfter_nil (B : List Byte) : ToldEndAfter B [] := fun _ _ _ _ _ h => by simp at h

theorem ToldEndAfter.cons {B B' : List Byte} {e : Event} {evs : List Event}
    (he : ∀ o i r, e = .process o i false r → B = [] ∧ i = []) (hB : B = e.taken ++ B')
    (hs : ToldEndAfter B' evs) : ToldEndAfter B (e :: evs) := by
  intro pre o i r post h
  cases pre with
  | nil =>
    obtain ⟨hB0, hi⟩ := he o i r (List.cons.inj h).1
    exact ⟨hB0.symm, hi⟩
  | cons e' pre =>
    obtain ⟨rfl, htl⟩ := List.cons.inj h
    obtain ⟨h₁, h₂⟩ := hs pre o i r post htl
    exact ⟨by rw [List.flatMap_cons, h₁, hB], h₂⟩

/-- Calls whose told-end property holds after `B`'s prefix `E`-taken, then calls after the rest. -/
theorem ToldEndAfter.append {B P : List Byte} {E N : List Event} (hE : ToldEndAfter B E)
    (hN : ToldEndAfter P N) (hB : E.flatMap Event.taken ++ P = B) : ToldEndAfter B (E ++ N) := by
  intro pre o i r post h
  rcases List.append_eq_append_iff.mp h with ⟨a, rfl, hN'⟩ | ⟨c, rfl, hc⟩
  · obtain ⟨h₁, h₂⟩ := hN a o i r post hN'
    exact ⟨by rw [List.flatMap_append, h₁, hB], h₂⟩
  · cases c with
    | nil =>
      obtain ⟨h₁, h₂⟩ := hN [] o i r post (by simpa using hc.symm)
      exact ⟨by simpa [← h₁] using hB, h₂⟩
    | cons x c =>
      obtain ⟨rfl, rfl⟩ := List.cons.inj hc
      exact hE pre o i r c rfl

namespace Serializer

open CircularBuffer

variable {s s' : Serializer} {src : Source} {flt : Filter}

/-! ## The queue in front of the filter -/

/-- The body bytes waiting for the filter: in buffers style what is left of the caller's
buffers, otherwise what `tmp1_` holds. -/
def pendingIn (s : Serializer) : List Byte :=
  if s.st = .buffers then s.mem.readAll s.buf.data else s.tmp1.contents s.mem.ws

/-- Where that queue lives: in the caller's buffers, outside the workspace, or in a
well-formed `tmp1_` whose slice ends where `tmp0_`'s begins. -/
structure InputOK (s : Serializer) : Prop where
  user : s.st = .buffers → BufferArray.Fits s.mem s.buf.data ∧ ∀ b ∈ s.buf.data, b.region ≠ .ws
  tmp1 : s.st ≠ .buffers → s.tmp1.Valid ∧ s.tmp1.base + s.tmp1.cap ≤ s.tmp0.base

/-- `s'` is `s` after writes into `tmp0_`'s slice only: the same style, caller's buffers,
`tmp1_`, `more_` and start of `tmp0_`'s slice, and the same bytes below that start. -/
structure WritesTmp0 (s s' : Serializer) : Prop where
  st : s'.st = s.st
  buf : s'.buf = s.buf
  tmp1 : s'.tmp1 = s.tmp1
  more : s'.more = s.more
  base : s'.tmp0.base = s.tmp0.base
  mem : s.mem.AgreeBelow s.tmp0.base s'.mem

theorem WritesTmp0.refl (s : Serializer) : WritesTmp0 s s :=
  ⟨rfl, rfl, rfl, rfl, rfl, .refl _ _⟩

theorem WritesTmp0.trans {s'' : Serializer} (h : WritesTmp0 s s') (h' : WritesTmp0 s' s'') :
    WritesTmp0 s s'' :=
  ⟨h'.st.trans h.st, h'.buf.trans h.buf, h'.tmp1.trans h.tmp1, h'.more.trans h.more,
    h'.base.trans h.base,
    h.mem.trans (h.base ▸ h'.mem)⟩

/-- A copy into `tmp0_`'s slice, and any change of `tmp0_` on the same slice. -/
theorem writesTmp0_store {ps : List Nat} (bs : List Byte) (tmp0 : CircularBuffer)
    (hps : ∀ q ∈ ps, s.tmp0.base ≤ q) (hb : tmp0.base = s.tmp0.base) :
    WritesTmp0 s { s with tmp0, mem := s.mem.store ps bs } :=
  ⟨rfl, rfl, rfl, rfl, hb, Memory.agreeBelow_store _ _ hps⟩

/-- Writes into `tmp0_` leave the queue, and where it lives, alone. -/
theorem InputOK.of_writes (hi : InputOK s) (hw : WritesTmp0 s s') :
    InputOK s' ∧ s'.pendingIn = s.pendingIn := by
  by_cases hb : s.st = .buffers
  · -- the caller's buffers are outside the workspace
    obtain ⟨hf, hr⟩ := hi.user hb
    have e : ∀ b ∈ s.buf.data, s'.mem.read b = s.mem.read b :=
      fun b hb' => Memory.read_of_agreeBelow hw.mem (hr b hb')
    refine ⟨⟨fun _ => ⟨fun b hb' => ?_, hw.buf ▸ hr⟩, fun h => absurd (hw.st.trans hb) h⟩, ?_⟩
    · rw [hw.buf] at hb'
      rw [e b hb']
      exact hf b hb'
    · simp only [pendingIn, hw.st, hb, if_true, hw.buf, Memory.readAll]
      exact List.flatMap_congr e
  · -- `tmp1_` lies below what was written
    obtain ⟨hv, hsep⟩ := hi.tmp1 hb
    refine ⟨⟨fun h => absurd (hw.st ▸ h) hb, fun _ => ⟨hw.tmp1 ▸ hv, by rw [hw.tmp1, hw.base]; exact hsep⟩⟩, ?_⟩
    simp only [pendingIn, hw.st, hb, if_false, hw.tmp1]
    exact contents_congr hv fun q _ hq => hw.mem.2.2 q (by omega)

/-! ## The calls of one round -/

/-- `get_input` offers the front of the queue. -/
theorem getInput_prefix (hi : InputOK s) {inb : ConstBuffer} (h : s.getInput = .ok inb) :
    s.mem.read inb <+: s.pendingIn := by
  by_cases hb : s.st = .buffers
  · simp only [getInput, hb, if_true] at h
    simp only [pendingIn, hb, if_true]
    split_ifs at h with h0 hpos
    · cases h
      simp [ConstBuffer.empty, Memory.read]
    · cases h
      cases hd : s.buf.data with
      | nil => simp [hd] at h0
      | cons b bs => simp [Memory.readAll]
  · rw [getInput_of_tmp1 hb (hi.tmp1 hb).1 h, pendingIn, if_neg hb]
    exact List.take_prefix _ _

/-- The `consume` lambda drops from the front of the queue what the filter took. -/
theorem consumeInput_input (hi : InputOK s) {n : Nat} (h : s.consumeInput n = .ok s') :
    InputOK s' ∧ s'.pendingIn = s.pendingIn.drop n ∧ s'.st = s.st ∧
      s'.tmp0 = s.tmp0 ∧ s'.mem = s.mem ∧ (s'.more = false → s.more = false ∨ s'.pendingIn = []) := by
  unfold consumeInput at h
  split_ifs at h with hb
  · obtain ⟨buf, hc, rfl⟩ := map_eq_ok.mp h
    obtain ⟨hf, hr⟩ := hi.user hb
    obtain ⟨hra, hf'⟩ := BufferArray.readAll_consume hf hc
    have hr' := BufferArray.consume_forall (P := fun b => b.region ≠ .ws) (fun _ _ h => h) hc hr
    refine ⟨⟨fun _ => ⟨hf', hr'⟩, fun h => absurd hb h⟩, by simp [pendingIn, hb, hra], rfl, rfl,
      rfl, fun hm => ?_⟩
    -- `more_` falls only once the caller's buffers are used up
    dsimp only at hm ⊢
    split_ifs at hm with h0
    · refine .inr ?_
      simp only [pendingIn, hb, if_true]
      exact List.eq_nil_of_length_eq_zero (by rw [← bufferSize_eq_length hf']; exact h0)
    · exact .inl hm
  · cases h
    obtain ⟨hv, hsep⟩ := hi.tmp1 hb
    refine ⟨⟨fun h => absurd h hb, fun _ => ⟨hv.consume n, by simpa using hsep⟩⟩,
      by simp [pendingIn, hb, contents_consume _ hv], rfl, rfl, rfl, fun hm => .inl hm⟩

/-! ## Writes into `tmp0_` -/

theorem getOutput_writes {out : MutableBuffer} (h : s.getOutput = .ok (out, s')) :
    WritesTmp0 s s' := by
  obtain ⟨-, rfl, -⟩ := getOutput_eq_ok h
  exact ⟨rfl, rfl, rfl, rfl, rfl, .refl _ _⟩

theorem appendTmp0_writes {lit : List Byte} (hv : s.tmp0.Valid) (h : s.appendTmp0 lit = .ok s') :
    WritesTmp0 s s' := by
  obtain ⟨-, rfl⟩ := appendTmp0_eq_ok hv h
  exact writesTmp0_store _ _ (fun _ => base_le_of_mem_freeAddrs) rfl

theorem reserveChunkHeader_writes {hdr : List Nat} (h : s.reserveChunkHeader = .ok (s', hdr)) :
    WritesTmp0 s s' ∧ ∀ q ∈ hdr, s.tmp0.base ≤ q := by
  obtain ⟨rfl, rfl⟩ := reserveChunkHeader_eq_ok h
  exact ⟨writesTmp0_store _ _ (fun _ => base_le_of_mem_freeAddrs) rfl,
    fun _ => base_le_of_mem_freeAddrs⟩

/-- Closing a chunk writes its size line over the addresses reserved for it, then CRLF and the
last-chunk, all in `tmp0_`'s slice. -/
theorem finishChunk_writes {hdr : List Nat} {nw : Nat} (hv : s.tmp0.Valid)
    (hhdr : ∀ q ∈ hdr, s.tmp0.base ≤ q) (h : s.finishChunk hdr nw = .ok s') : WritesTmp0 s s' := by
  obtain ⟨mem, hmem, h⟩ := bind_eq_ok.mp h
  obtain ⟨-, rfl⟩ := writeChunkHeader_eq_ok.mp hmem
  obtain ⟨s₁, h₁, h⟩ := bind_eq_ok.mp h
  have w₀ : WritesTmp0 s { s with mem := s.mem.store hdr (chunkHeaderBytes nw) } :=
    writesTmp0_store _ s.tmp0 hhdr rfl
  have w₁ := w₀.trans (appendTmp0_writes (by exact hv) h₁)
  have hv₁ := (appendTmp0_contents (by exact hv) h₁).2.1
  split at h
  · exact w₁.trans (appendTmp0_writes hv₁ h)
  · cases h; exact w₁

theorem fillSlots_writes (h : fillSlots s = .ok s') : WritesTmp0 s s' := by
  obtain ⟨_, -, rfl⟩ := map_eq_ok.mp h
  exact ⟨rfl, rfl, rfl, rfl, rfl, .refl _ _⟩

/-! ## The filter loop -/

/-- Each round of the loop offers the filter the front of the queue and drops what it took; the
filter's output goes into `tmp0_`. Whether `more_` is false only once the queue is empty is kept,
and then every call told the body has ended is offered nothing, with the whole queue taken
before it. -/
theorem filterLoop_input {fuel k nw : Nat} {evs : List Event} {r : Nat × Serializer × List Event}
    (hi : InputOK s) (h : filterLoop flt fuel k nw s evs = .ok r) :
    ∃ new, r.2.2 = evs ++ new ∧ new.filterMap Event.readResult = [] ∧ InputOK r.2.1 ∧
      s.pendingIn = new.flatMap Event.taken ++ r.2.1.pendingIn ∧
      ((s.more = false → s.pendingIn = []) →
        (r.2.1.more = false → r.2.1.pendingIn = []) ∧ ToldEndAfter s.pendingIn new) := by
  induction fuel generalizing k nw s evs with
  | zero => cases h; exact ⟨[], by simp, rfl, hi, by simp, fun hk => ⟨hk, toldEndAfter_nil _⟩⟩
  | succ fuel ih =>
    obtain ⟨inb, hin, h⟩ := bind_eq_ok.mp h
    obtain ⟨⟨out, s₁⟩, h₁, h⟩ := bind_eq_ok.mp h
    obtain ⟨hi₁, hp₁⟩ := hi.of_writes (getOutput_writes h₁)
    obtain ⟨-, hs₁, hout⟩ := getOutput_eq_ok h₁
    have hm₁ : s₁.mem = s.mem := by rw [hs₁]
    have hmore₁ : s₁.more = s.more := by rw [hs₁]
    dsimp only at h
    split at h
    · -- no room left: the loop stops
      split at h
      · cases h
      · cases h
        exact ⟨[], by simp, rfl, hi₁, by simp [hp₁], fun hk => ⟨by simpa [hp₁, hmore₁] using hk,
          toldEndAfter_nil _⟩⟩
    · -- one call of the filter, on the front of the queue
      rename_i hne
      obtain ⟨s₂, h₂, h⟩ := bind_eq_ok.mp h
      set input := s₁.mem.read inb
      set R := flt.process k out.size input s₁.more
      have hpre : input <+: s.pendingIn := by
        simpa only [input, hm₁] using getInput_prefix hi hin
      have hR : R.inBytes ≤ input.length := flt.in_le _ _ _ _
      -- the flag the filter reported is not part of the queue
      have w : WritesTmp0 s₁ (if R.finished then { s₁ with filterDone := true } else s₁) := by
        split <;> exact ⟨rfl, rfl, rfl, rfl, rfl, .refl _ _⟩
      obtain ⟨hiw, hpw⟩ := hi₁.of_writes w
      have hmw : (if R.finished then { s₁ with filterDone := true } else s₁).more = s.more := by
        split <;> exact hmore₁
      obtain ⟨hi₂, hp₂, -, ht₂, -, hm₂⟩ := consumeInput_input hiw h₂
      rw [hpw, hp₁] at hp₂
      have hsplit : s.pendingIn = input.take R.inBytes ++ s₂.pendingIn := by
        rw [hp₂, Session.take_of_prefix hpre hR, List.take_append_drop]
      -- once `more_` is false the queue is empty, so stays empty, and the call is offered nothing
      have hend : (s.more = false → s.pendingIn = []) → s₂.more = false → s₂.pendingIn = [] :=
        fun hk hm => (hm₂ hm).elim (fun hm' => by rw [hp₂, hk (hmw ▸ hm'), List.drop_nil]) id
      have hev : (s.more = false → s.pendingIn = []) → ∀ o i r,
          Event.process out.size input s₁.more R = .process o i false r →
            s.pendingIn = [] ∧ i = [] := fun hk o i r he => by
        simp only [Event.process.injEq] at he
        obtain ⟨-, rfl, hm, -⟩ := he
        have h0 := hk (hmore₁ ▸ hm)
        exact ⟨h0, List.prefix_nil.mp (h0 ▸ hpre)⟩
      split at h
      · -- the filter wrote nothing: the loop stops
        cases h
        exact ⟨[.process out.size input s₁.more R], rfl, rfl, hi₂,
          by simpa [Event.taken] using hsplit,
          fun hk => ⟨hend hk, .cons (hev hk) hsplit (toldEndAfter_nil _)⟩⟩
      · -- its output is written at the write position of `tmp0_`, and the loop goes on
        have hbase : ∀ q ∈ List.range' out.pos out.size, s₂.tmp0.base ≤ q := fun q hq => by
          obtain ⟨hpos, -⟩ := hout (Nat.pos_of_ne_zero hne)
          rw [List.mem_range'_1] at hq
          have : s₂.tmp0.base = s.tmp0.base := by rw [ht₂, hs₁]; split <;> rfl
          omega
        obtain ⟨hi₃, hp₃⟩ := hi₂.of_writes (writesTmp0_store R.out
          (s₂.tmp0.commit R.out.length) hbase rfl)
        obtain ⟨new, hevs, hreads, hi', hacc, hend'⟩ := ih hi₃ h
        refine ⟨.process out.size input s₁.more R :: new, by simpa using hevs,
          by simpa [Event.readResult] using hreads, hi', ?_, fun hk => ?_⟩
        · rw [hsplit, ← hp₃, hacc]
          simp [Event.taken]
        · obtain ⟨he₁, he₂⟩ := hend' fun hm => hp₃ ▸ hend hk hm
          exact ⟨he₁, .cons (hev hk) (by rw [hsplit, hp₃]; rfl) he₂⟩

/-! ## A compressed `prepare` -/

/-- The compressed read appends what it returned to `tmp1_`. -/
theorem readCompressed_input (hi : InputOK s) (hst : s.st ≠ .buffers) {s₁ : Serializer}
    {evs : List Event} (h : s.readCompressed src = .ok (s₁, evs)) :
    InputOK s₁ ∧ s₁.pendingIn = s.pendingIn ++ (evs.filterMap Event.readResult).flatMap
      ReadResult.bytes ∧ evs.flatMap Event.taken = [] := by
  obtain ⟨hv, hsep⟩ := hi.tmp1 hst
  obtain ⟨⟨dest, tmp1⟩, hp, h⟩ := map_eq_ok.mp h
  cases h
  obtain ⟨hn, -, rfl⟩ := prepare_eq_ok hp
  have hd := addrs_prepare hv hp
  have hle : (src.read (s.tmp1.freeAddrs s.tmp1.capacity).length).bytes.length ≤ s.tmp1.capacity := by
    simpa using src.read_le _
  refine ⟨⟨fun h => absurd h hst, fun _ => ⟨(hv.prepare hp).commit _, hsep⟩⟩, ?_,
    by simp [Event.taken]⟩
  have := hv.inLen_le
  simp only [pendingIn, hst, if_false, Memory.store_ws, hd, Event.readResult, List.filterMap_cons,
    List.filterMap_nil, List.flatMap_cons, List.flatMap_nil, List.append_nil]
  exact contents_store_commit _ _ _ (by simp only [capacity]; omega) hle

/-- A compressed `prepare` appends to the queue what its read returned, in source style, and the
filter takes from the queue's front. Outside source style it reads nothing, and whether `more_`
is false only once the queue is empty is kept, with the told-end property of its calls. -/
theorem prepareCompressed_input (hi : InputOK s) (hv : s.tmp0.Valid) {p : Prepared}
    (h : s.prepareCompressed src flt = .ok p) :
    InputOK p.next ∧
      s.pendingIn ++ (p.events.filterMap Event.readResult).flatMap ReadResult.bytes =
        p.events.flatMap Event.taken ++ p.next.pendingIn ∧
      (s.st ≠ .source → p.events.filterMap Event.readResult = [] ∧
        ((s.more = false → s.pendingIn = []) →
          (p.next.more = false → p.next.pendingIn = []) ∧ ToldEndAfter s.pendingIn p.events)) := by
  obtain ⟨h0, hroom, s₁, evs, s₂, hdr, nw, s₃, evs', s₄, h₁, h₂, h₃, -, h₄, h₅⟩ :=
    prepareCompressed_eq_ok h
  obtain ⟨hfill, -, hevs⟩ := onEnd_eq_ok h₅
  obtain ⟨ht₁, -, -, -⟩ := readCompressed_stage h₁
  -- the read, in source style only
  have r₁ : InputOK s₁ ∧ s₁.pendingIn = s.pendingIn ++ (evs.filterMap Event.readResult).flatMap
      ReadResult.bytes ∧ evs.flatMap Event.taken = [] ∧ (s.st ≠ .source → s₁ = s ∧ evs = []) := by
    split at h₁
    · rename_i hsrc
      obtain ⟨hi₁, hp₁, ht⟩ := readCompressed_input hi (by rw [hsrc]; decide) h₁
      exact ⟨hi₁, hp₁, ht, fun h => absurd hsrc h⟩
    · cases h₁
      exact ⟨hi, by simp, rfl, fun _ => ⟨rfl, rfl⟩⟩
  obtain ⟨hi₁, hp₁, ht₁', hns⟩ := r₁
  -- the size line, when chunked, goes into `tmp0_`
  have r₂ : WritesTmp0 s₁ s₂ ∧ ∀ q ∈ hdr, s₁.tmp0.base ≤ q := by
    split at h₂
    · exact reserveChunkHeader_writes h₂
    · cases h₂; exact ⟨.refl _, by simp⟩
  obtain ⟨w₂, hhdr⟩ := r₂
  obtain ⟨hv₂, -⟩ := reserve_stage (ht₁ ▸ hv) (ht₁ ▸ h0)
    (by rw [ht₁]; simp only [chunkedOverhead, chunkHeaderLen] at hroom ⊢; omega) h₂
  -- the filter takes from the front of the queue
  obtain ⟨hi₂, hp₂⟩ := hi₁.of_writes w₂
  obtain ⟨new, hnew, hreads, hi₃, hacc, hend⟩ := filterLoop_input hi₂ h₃
  obtain ⟨_, -, -, hg, hv₃, -⟩ := filterLoop_spec hv₂ h₃
  dsimp only at hnew hi₃ hacc hend hg hv₃
  -- the framing of the chunk, then the slots, write into `tmp0_` only
  have w₄ : WritesTmp0 s₃ s₄ := by
    split at h₄
    · exact finishChunk_writes hv₃ (fun q hq => by rw [hg.base, w₂.base]; exact hhdr q hq) h₄
    · cases h₄; exact .refl _
  obtain ⟨hi₄, hp₄⟩ := hi₃.of_writes (w₄.trans (fillSlots_writes hfill))
  have w₄' := w₄.trans (fillSlots_writes hfill)
  rw [List.nil_append] at hnew
  subst hnew
  refine ⟨hi₄, ?_, fun hns' => ?_⟩
  · rw [hevs, List.filterMap_append, hreads, List.append_nil, ← hp₁, ← hp₂, hacc, hp₄,
      List.flatMap_append, ht₁', List.nil_append]
  · obtain ⟨rfl, rfl⟩ := hns hns'
    refine ⟨by simpa [hevs] using hreads, fun hk => ?_⟩
    have hk₂ : s₂.more = false → s₂.pendingIn = [] := fun hm => by
      rw [hp₂]; exact hk (w₂.more ▸ hm)
    obtain ⟨he₁, he₂⟩ := hend hk₂
    rw [hp₂] at he₂
    refine ⟨fun hm => ?_, by simpa [hevs] using he₂⟩
    rw [hp₄]
    exact he₁ (w₄'.more ▸ hm)

/-- Under content-coding and past the `Expect: 100-continue` phase, `prepare` is the
compressed branch. -/
theorem prepare_of_compressed (hd : s.isDone = false) (hx : s.isExpectContinue = false)
    (hc : s.isCompressed = true) : s.prepare src flt = s.prepareCompressed src flt := by
  simp [prepare, hd, hx, hc]

/-- `start_buffers` leaves the serializer in buffers style, on the caller's buffers. -/
theorem startWithBuffers_st {m : Message} {bufs : List (List Byte)}
    (h : s.startWithBuffers m bufs = .ok s') : s'.st = .buffers ∧ s'.mem.user = bufs := by
  rcases startWithBuffers_eq_ok h with ⟨-, rfl⟩ | ⟨-, -, rfl⟩ | ⟨-, -, -, rfl⟩ <;> exact ⟨rfl, rfl⟩

/-- Compressed, `stream.prepare` offers the free space of `tmp1_`, and offers it again when
called again. -/
theorem Stream.prepare_compressed {ps : List Nat} (hc : s.isCompressed = true) (hv : s.tmp1.Valid)
    (h : Stream.prepare s = .ok (ps, s')) :
    s' = { s with tmp1 := { s.tmp1 with outSize := s.tmp1.capacity } } ∧
      ps = s.tmp1.freeAddrs s.tmp1.capacity ∧ Stream.prepare s' = .ok (ps, s') := by
  unfold Stream.prepare at h
  rw [if_pos hc] at h
  obtain ⟨⟨bs, tmp1⟩, hp, he⟩ := map_eq_ok.mp h
  obtain ⟨-, -, rfl⟩ := prepare_eq_ok hp
  cases he
  refine ⟨rfl, addrs_prepare hv hp, ?_⟩
  simp only [Stream.prepare, hc, if_true, capacity_outSize]
  rw [show ({ s.tmp1 with outSize := s.tmp1.capacity } : CircularBuffer).prepare s.tmp1.capacity =
      s.tmp1.prepare s.tmp1.capacity by simp [CircularBuffer.prepare], hp]
  rfl

end Serializer

namespace Session

open Serializer CircularBuffer

variable {t t' : Session}

/-! ## Along a session -/

/-- The body the caller has supplied so far: its buffers in buffers style, what the reads
returned in source style, the committed batches in stream style. -/
def body (t : Session) : List Byte :=
  match t.sr.st with
  | .buffers => t.sr.mem.user.flatten
  | .source => (reads t.log).flatMap ReadResult.bytes
  | .stream => (batches t.log).flatten
  | .none | .empty => []

/-- What the filter has taken so far, in order. -/
def taken (l : List Entry) : List Byte := (events l).flatMap Event.taken

@[simp] theorem events_prepared (c : Call) : events [.prepared c] = c.events := by
  simp [events, calls]

@[simp] theorem events_committed (d : List Byte) : events [.committed d] = [] := rfl

/-- What holds along a compressed session in buffers, source or stream style. -/
structure InputInv (t : Session) : Prop where
  compressed : t.sr.isCompressed = true
  style : t.sr.st = .buffers ∨ t.sr.st = .source ∨ t.sr.st = .stream
  valid : t.sr.tmp0.Valid
  input : t.sr.InputOK
  /-- what the filter took, then what waits for it, is the body -/
  taken : taken t.log ++ t.sr.pendingIn = t.body
  /-- in buffers style `more_` falls only once nothing waits, and every call of the filter told
  so came after the whole body was taken -/
  told : t.sr.st = .buffers →
    (t.sr.more = false → t.sr.pendingIn = []) ∧ ToldEndAfter t.body (events t.log)

@[simp] theorem taken_nil : taken [] = [] := rfl

@[simp] theorem events_nil : events [] = [] := rfl

/-- `start_source` and `start_stream` under content-coding: the queue is an empty `tmp1_` on the
front half of the workspace. -/
theorem inputInv_startTmp {s s₀ : Serializer} {m : Message} {st : Style}
    (h : s.startTmp m st = .ok s₀) (hc : s₀.isCompressed = true) (hst : st = .source ∨ st = .stream) :
    InputInv (init s₀) := by
  rcases startTmp_eq_ok h with ⟨-, -, rfl⟩ | ⟨hcz, -, rfl⟩
  · have hnb : st ≠ .buffers := by rcases hst with rfl | rfl <;> decide
    refine ⟨hc, .inr hst, valid_ofSlice _ _, ⟨fun h' => absurd h' hnb, fun _ =>
      ⟨valid_ofSlice _ _, by simp [init, CircularBuffer.ofSlice, wsFree]⟩⟩, ?_, fun h' => absurd h' hnb⟩
    rcases hst with rfl | rfl <;> simp [init, pendingIn, body, reads, batches,
      CircularBuffer.contents, CircularBuffer.dataAddrs, CircularBuffer.ofSlice]
  · simp [hcz] at hc

/-- `start_*` under content-coding, in buffers, source or stream style: the queue is the
caller's buffers, or an empty `tmp1_` on the front half of the workspace. -/
theorem inputInv_init {s s₀ : Serializer} (hs : Starts s s₀) (hc : s₀.isCompressed = true)
    (hst : s₀.st = .buffers ∨ s₀.st = .source ∨ s₀.st = .stream) : InputInv (init s₀) := by
  cases hs with
  | empty h => rcases startEmpty_eq_ok h with ⟨-, rfl⟩ | ⟨-, -, rfl⟩ <;> simp at hst
  | @buffers m bufs _ h =>
    rcases startWithBuffers_eq_ok h with ⟨-, rfl⟩ | ⟨hm, -, rfl⟩ | ⟨hm, -, -, rfl⟩
    · obtain ⟨hu, hf⟩ := readAll_userBuffers ({ s.mem with user := bufs, header := m.header } : Memory) rfl
      refine ⟨hc, .inl rfl, valid_ofSlice _ _, ⟨fun _ => ⟨hf, ?_⟩, fun h => absurd rfl h⟩, ?_,
        fun _ => ⟨(fun hm => by cases hm), toldEndAfter_nil _⟩⟩
      · simp [init, BufferArray.data, userBuffers]
      · simpa [init, pendingIn, body] using hu
    all_goals simp [startInit, hm] at hc
  | source h => exact inputInv_startTmp h hc (.inl rfl)
  | stream h => exact inputInv_startTmp h hc (.inr rfl)

/-- The body, read off the style, the caller's buffers and the log. -/
theorem body_congr (hst : t'.sr.st = t.sr.st) (hu : t'.sr.mem.user = t.sr.mem.user)
    (hl : t'.log = t.log) : t'.body = t.body := by
  simp only [body, hst, hu, hl]

@[simp] theorem taken_append (l l' : List Entry) : taken (l ++ l') = taken l ++ taken l' := by
  simp [taken]

/-- A call that leaves the log, the style, the caller's buffers and the queue alone keeps the
invariant, if it keeps `tmp0_` well formed and, in buffers style, `more_`. -/
theorem InputInv.of_queue (hi : InputInv t) (hc : t'.sr.isCompressed = true)
    (hst : t'.sr.st = t.sr.st) (hu : t'.sr.mem.user = t.sr.mem.user) (hl : t'.log = t.log)
    (hv : t'.sr.tmp0.Valid) (hin : t'.sr.InputOK) (hp : t'.sr.pendingIn = t.sr.pendingIn)
    (hm : t.sr.st = .buffers → t'.sr.more = t.sr.more) : InputInv t' := by
  have hb := body_congr hst hu hl
  refine ⟨hc, hst ▸ hi.style, hv, hin, by rw [hl, hp, hb]; exact hi.taken, fun hbuf => ?_⟩
  rw [hst] at hbuf
  rw [hm hbuf, hp, hb, hl]
  exact hi.told hbuf

/-- A `prepare` whose calls took from the front of the queue what they did not append to it:
the body grows by what its reads returned. -/
theorem InputInv.prepared {p : Prepared} {n : Nat} {r : Except Error (List Byte)} {pd : List Byte}
    (hi : InputInv t) (hst : p.next.st = t.sr.st) (hu : p.next.mem.user = t.sr.mem.user)
    (hc : p.next.isCompressed = true) (hv : p.next.tmp0.Valid) (hin : p.next.InputOK)
    (hacc : t.sr.pendingIn ++ (p.events.filterMap Event.readResult).flatMap ReadResult.bytes =
      p.events.flatMap Event.taken ++ p.next.pendingIn)
    (hns : t.sr.st ≠ .source → p.events.filterMap Event.readResult = [] ∧
      ((t.sr.more = false → t.sr.pendingIn = []) →
        (p.next.more = false → p.next.pendingIn = []) ∧ ToldEndAfter t.sr.pendingIn p.events)) :
    InputInv { t with sr := p.next, pending := pd, log := t.log ++ [.prepared ⟨n, r, p.events⟩] } := by
  have hb : body { t with sr := p.next, pending := pd, log := t.log ++ [.prepared ⟨n, r, p.events⟩] } =
      t.body ++ (p.events.filterMap Event.readResult).flatMap ReadResult.bytes := by
    unfold body
    rw [hst, hu]
    cases h : t.sr.st
    case source => simp [reads]
    all_goals simp [(hns (by rw [h]; decide)).1]
  refine ⟨hc, hst ▸ hi.style, hv, hin, ?_, fun hbuf => ?_⟩
  · calc Session.taken (t.log ++ [.prepared ⟨n, r, p.events⟩]) ++ p.next.pendingIn
        = Session.taken t.log ++ (p.events.flatMap Event.taken ++ p.next.pendingIn) := by
          simp [Session.taken]
      _ = (Session.taken t.log ++ t.sr.pendingIn) ++
            (p.events.filterMap Event.readResult).flatMap ReadResult.bytes := by
          rw [← hacc, List.append_assoc]
      _ = _ := by rw [hi.taken, hb]
  · rw [hst] at hbuf
    obtain ⟨hR, hk⟩ := hns (by rw [hbuf]; decide)
    obtain ⟨hm, hE⟩ := hi.told hbuf
    obtain ⟨hm', hN⟩ := hk hm
    refine ⟨hm', ?_⟩
    rw [hb, hR, List.flatMap_nil, List.append_nil, events_append, events_prepared]
    exact hE.append hN hi.taken

/-- `prepare`: under `Expect: 100-continue` nothing moves; otherwise the compressed branch. -/
theorem inputInv_prepare {src : Source} {flt : Filter} (hi : InputInv t)
    (h : t.step (.prepare src flt) = .ok t') : InputInv t' := by
  obtain ⟨p, hp, rfl⟩ := map_eq_ok.mp h
  cases hx : t.sr.isExpectContinue
  case false =>
    rw [prepare_of_compressed (prepare_isDone hp) hx hi.compressed] at hp
    have hk := (prepareCompressed_spec hp).1
    obtain ⟨hin, hacc, hns⟩ := prepareCompressed_input hi.input hi.valid hp
    exact hi.prepared hk.st hk.user (hk.isCompressed ▸ hi.compressed)
      (prepareCompressed_ring hi.valid hp).1 hin hacc hns
  case true =>
    obtain ⟨he, x, hn⟩ := prepare_of_expect hx hp
    obtain ⟨res, nxt, evs⟩ := p
    dsimp only at he hn ⊢
    subst he hn
    exact hi.prepared (p := ⟨res, _, []⟩) rfl rfl hi.compressed hi.valid
      ⟨hi.input.user, hi.input.tmp1⟩ (List.append_nil _) fun _ => ⟨rfl, fun hk => ⟨hk, toldEndAfter_nil _⟩⟩

/-- `consume` moves only `out_`, `tmp0_`'s read position and `is_done_`. -/
theorem inputInv_consume {n : Nat} (hi : InputInv t) (h : t.step (.consume n) = .ok t') :
    InputInv t' := by
  obtain ⟨sr, hc, rfl⟩ := map_eq_ok.mp h
  have ht : sr.tmp0.Valid ∧ sr.tmp0.base = t.sr.tmp0.base := by
    rcases consume_tmp0 hc with h0 | ⟨k, h0⟩ <;> rw [h0]
    exacts [⟨hi.valid, rfl⟩, ⟨hi.valid.consume k, base_consume _ _⟩]
  obtain ⟨out, tmp0, isDone, rfl⟩ := consume_shape hc
  obtain ⟨hin, hp⟩ := hi.input.of_writes
    (⟨rfl, rfl, rfl, rfl, ht.2, .refl _ _⟩ : WritesTmp0 t.sr { t.sr with out, tmp0, isDone })
  exact hi.of_queue hi.compressed rfl rfl rfl ht.1 hin hp fun _ => rfl

/-- `stream.prepare()` offers all of `tmp1_`'s free space; the queue does not move, and the
offer is fresh. -/
theorem inputInv_streamPrepare (hi : InputInv t) (ha : t.Allowed .streamPrepare)
    (h : t.step .streamPrepare = .ok t') :
    InputInv t' ∧ Stream.prepare t'.sr = .ok (t'.streamBuf, t'.sr) := by
  have hst : t.sr.st = .stream := ha
  obtain ⟨⟨ps, sr⟩, hp, rfl⟩ := map_eq_ok.mp h
  obtain ⟨hv, hsep⟩ := hi.input.tmp1 (by rw [hst]; decide)
  obtain ⟨rfl, -, hagain⟩ := Stream.prepare_compressed hi.compressed hv hp
  refine ⟨hi.of_queue hi.compressed rfl rfl rfl hi.valid
    ⟨fun h => absurd (hst ▸ h) (by decide), fun _ => ⟨?_, hsep⟩⟩ rfl
    (fun h => absurd (hst ▸ h) (by decide)), hagain⟩
  exact ⟨hv.inPos_lt, hv.inLen_le, by simp [capacity]⟩

/-- A batch committed into the buffer the last `stream.prepare()` offered joins the back of the
queue. -/
theorem inputInv_streamCommit {d : List Byte} (hi : InputInv t)
    (hf : Stream.prepare t.sr = .ok (t.streamBuf, t.sr)) (ha : t.Allowed (.streamCommit d))
    (h : t.step (.streamCommit d) = .ok t') : InputInv t' := by
  obtain ⟨hst, hd⟩ := ha
  have hne : t.sr.st ≠ .buffers := by rw [hst]; decide
  obtain ⟨hv, hsep⟩ := hi.input.tmp1 hne
  obtain ⟨he, hps, -⟩ := Stream.prepare_compressed hi.compressed hv hf
  obtain ⟨sr, hc, rfl⟩ := map_eq_ok.mp h
  unfold Stream.commit at hc
  rw [if_pos hi.compressed] at hc
  cases hc
  rw [hps, length_freeAddrs] at hd
  have h1 : t.sr.tmp1 = { t.sr.tmp1 with outSize := t.sr.tmp1.capacity } :=
    congrArg Serializer.tmp1 he
  have hq := contents_store_commit t.sr.tmp1 t.sr.mem.ws d
    (by have := hv.inLen_le; simp only [capacity]; omega) hd
  rw [← h1, ← hps] at hq
  refine ⟨hi.compressed, hi.style, hi.valid,
    ⟨fun h => absurd h hne, fun _ => ⟨hv.commit _, by simpa [CircularBuffer.commit] using hsep⟩⟩,
    ?_, fun h => absurd h hne⟩
  have htk := hi.taken
  simp only [body, hst] at htk
  simp only [body, hst, pendingIn, Memory.store_ws, hq, taken_append, batches_append,
    List.flatten_append, ← htk]
  simp [taken, batches]

/-- `stream.close()` of a compressed stream lowers `more_` only. -/
theorem inputInv_streamClose (hi : InputInv t) (ha : t.Allowed .streamClose)
    (h : t.step .streamClose = .ok t') : InputInv t' := by
  have hst : t.sr.st = .stream := ha
  obtain ⟨sr, hc, rfl⟩ := map_eq_ok.mp h
  obtain ⟨-, rfl⟩ := Stream.close_compressed hi.compressed hc
  exact hi.of_queue hi.compressed rfl rfl rfl hi.valid ⟨hi.input.user, hi.input.tmp1⟩ rfl
    fun h => absurd (hst ▸ h) (by decide)

/-- The order the stream handle asks for under content-coding: each `commit` right after the
`stream.prepare` that offered its buffer (`p`). -/
def commitsAfterPrepare : Bool → List Action → Bool
  | _, [] => true
  | _, .prepare _ _ :: as => commitsAfterPrepare false as
  | _, .consume _ :: as => commitsAfterPrepare false as
  | _, .streamPrepare :: as => commitsAfterPrepare true as
  | p, .streamCommit _ :: as => p && commitsAfterPrepare false as
  | _, .streamClose :: as => commitsAfterPrepare false as

/-- Along a run that commits each batch right after the `stream.prepare()` that offered its
buffer, the invariant holds at every step. -/
theorem Run.inputInv {as : List Action} {p : Bool} (hr : Run t as t')
    (hd : commitsAfterPrepare p as = true) (hi : InputInv t)
    (hf : p = true → Stream.prepare t.sr = .ok (t.streamBuf, t.sr)) : InputInv t' := by
  induction hr generalizing p with
  | nil => exact hi
  | @cons t₀ t₁ _ a _ ha he _ ih =>
    cases a with
    | prepare => exact ih hd (inputInv_prepare hi he) fun h => by cases h
    | consume => exact ih hd (inputInv_consume hi he) fun h => by cases h
    | streamPrepare =>
      obtain ⟨hi', hf'⟩ := inputInv_streamPrepare hi ha he
      exact ih hd hi' fun _ => hf'
    | streamCommit =>
      simp only [commitsAfterPrepare, Bool.and_eq_true] at hd
      exact ih hd.2 (inputInv_streamCommit hi (hf hd.1) ha he) fun h => by cases h
    | streamClose => exact ih hd (inputInv_streamClose hi ha he) fun h => by cases h

/-- No call changes the style or the caller's buffers. -/
theorem step_frame {a : Action} (h : t.step a = .ok t') :
    t'.sr.st = t.sr.st ∧ t'.sr.mem.user = t.sr.mem.user := by
  cases a with
  | prepare src flt =>
    obtain ⟨p, hp, rfl⟩ := map_eq_ok.mp h
    cases hx : t.sr.isExpectContinue
    · have k := (prepare_of_not_expect hx hp).1
      exact ⟨k.st, k.user⟩
    · obtain ⟨-, x, hn⟩ := prepare_of_expect hx hp
      simp only [hn, and_self]
  | consume n =>
    obtain ⟨sr, hc, rfl⟩ := map_eq_ok.mp h
    obtain ⟨out, tmp0, isDone, rfl⟩ := consume_shape hc
    exact ⟨rfl, rfl⟩
  | streamPrepare =>
    obtain ⟨⟨ps, sr⟩, hp, rfl⟩ := map_eq_ok.mp h
    have k := (Stream.prepare_keeps hp).1
    exact ⟨k.st, k.user⟩
  | streamCommit d =>
    obtain ⟨sr, hc, rfl⟩ := map_eq_ok.mp h
    have k := (Stream.commit_keeps hc).1
    exact ⟨k.st, k.user⟩
  | streamClose =>
    obtain ⟨sr, hc, rfl⟩ := map_eq_ok.mp h
    have k := (Stream.close_keeps hc).1
    exact ⟨k.st, k.user⟩

theorem Run.frame {as : List Action} (h : Run t as t') :
    t'.sr.st = t.sr.st ∧ t'.sr.mem.user = t.sr.mem.user := by
  induction h with
  | nil => exact ⟨rfl, rfl⟩
  | cons _ he _ ih => exact ⟨ih.1.trans (step_frame he).1, ih.2.trans (step_frame he).2⟩

/-- Outside stream style the caller cannot use the stream handle, so every run keeps the order
it asks for. -/
theorem Run.commitsAfterPrepare_of_ne {as : List Action} {p : Bool} (h : Run t as t')
    (hst : t.sr.st ≠ .stream) : commitsAfterPrepare p as = true := by
  induction h generalizing p with
  | nil => rfl
  | @cons t₀ t₁ _ a _ ha he _ ih =>
    have hst₁ : t₁.sr.st ≠ .stream := (step_frame he).1 ▸ hst
    cases a with
    | prepare => exact ih hst₁
    | consume => exact ih hst₁
    | streamPrepare => exact absurd ha hst
    | streamCommit => exact absurd ha.1 hst
    | streamClose => exact absurd ha hst

/-- A compressed message in buffers, source or stream style, its batches committed in the order
the stream handle asks for: along every run, what the filter has taken, then what waits for it,
is the body supplied so far. No byte of the body is skipped, repeated or reordered on its way to
the filter. -/
theorem filter_takes_body {s s₀ : Serializer} {as : List Action} (hs : Starts s s₀)
    (hc : s₀.isCompressed = true) (hst : s₀.st = .buffers ∨ s₀.st = .source ∨ s₀.st = .stream)
    (hd : commitsAfterPrepare false as = true) (hrun : Run (init s₀) as t) :
    taken t.log ++ t.sr.pendingIn = t.body :=
  (hrun.inputInv hd (inputInv_init hs hc hst) fun h => by cases h).taken

/-- A batch of two bytes committed, then a `prepare` whose filter takes one: the filter has
taken the first byte, and the second waits in `tmp1_`. -/
theorem filter_takes_stream_front :
    ∃ s₀ t, (new 64).startStream (sampleMessage false .deflate false) = .ok s₀ ∧
      Run (init s₀) [.streamPrepare, .streamCommit [97, 98],
        .prepare (.ofList [] true 0) (.ofList [⟨1, [120], false⟩])] t ∧
      (taken t.log, t.sr.pendingIn) = ([97], [98]) ∧ taken t.log ++ t.sr.pendingIn = t.body :=
  exists_run_of_exec_of (by decide) fun _ _ hs₀ hrun _ =>
    filter_takes_body (.stream hs₀) (by cases hs₀; rfl) (.inr (.inr (by cases hs₀; rfl)))
      (by decide) hrun

/-- In buffers style, under content-coding: along every run, each call of the filter told that
the body has ended is offered nothing, and the calls before it took the caller's buffers, whole
and in order. -/
theorem buffers_filter_told_end {m : Message} {bufs : List (List Byte)} {s s₀ : Serializer}
    {as : List Action} (hs : s.startWithBuffers m bufs = .ok s₀) (hm : m.encoding ≠ .identity)
    (hrun : Run (init s₀) as t) {pre post : List Event} {o : Nat} {i : List Byte}
    {r : FilterResult} (he : events t.log = pre ++ .process o i false r :: post) :
    pre.flatMap Event.taken = bufs.flatten ∧ i = [] := by
  obtain ⟨hst, hu⟩ := startWithBuffers_st hs
  have hc : s₀.isCompressed = true := by
    rw [(startWithBuffers_fresh hs).isCompressed]
    simpa using hm
  have hi := hrun.inputInv (hrun.commitsAfterPrepare_of_ne (p := false) (by simp [init, hst])) (inputInv_init (.buffers hs) hc (.inl hst)) fun h => by cases h
  obtain ⟨hst', hu'⟩ := hrun.frame
  have hbuf : t.sr.st = .buffers := hst'.trans hst
  have hb : t.body = bufs.flatten := by simp only [body, hbuf, hu', init, hu]
  exact hb ▸ (hi.told hbuf).2 pre o i r post he

/-- Two buffers of one byte, and a filter that takes a byte a call: it is told of the end on
its third call, offered nothing, once it has taken both. -/
theorem buffers_filter_told_end_after_both :
    ∃ s₀ t, (new 64).startWithBuffers (sampleMessage false .deflate false) [[97], [98]] = .ok s₀ ∧
      Run (init s₀) [.prepare (.ofList [] true 0)
        (.ofList [⟨1, [120], false⟩, ⟨1, [121], false⟩, ⟨0, [], true⟩])] t ∧
      events t.log = [.process 64 [97] true ⟨1, [120], false⟩,
        .process 63 [98] true ⟨1, [121], false⟩, .process 62 [] false ⟨0, [], true⟩] ∧
      ([Event.process 64 [97] true ⟨1, [120], false⟩,
        .process 63 [98] true ⟨1, [121], false⟩].flatMap Event.taken = [[97], [98]].flatten ∧
        ([] : List Byte) = []) :=
  exists_run_of_exec_of (by decide) fun _ _ hs₀ hrun hv =>
    buffers_filter_told_end hs₀ (by decide) hrun (hv.trans rfl)

end Session

end HttpProto
