import Mathlib.Data.List.Infix
import HttpProto.Serializer.Source
import HttpProto.Session

/-!
# Source style: the bytes sent are the framed body

Without content-coding a source-style message is sent from two places: the header slot while it
is first, then `tmp0_`, which each `prepare` feeds with what one read of the source appends. A
session keeps one equation: what the caller sent, followed by what the serializer holds unsent,
is the header followed by what the reads appended. Each `consume` moves bytes from the second
part to the first, each `prepare` grows the second. Once the message is done nothing is unsent,
and a read has ended the body.

What a read appends differs between the framings when the read fails. Identity-framed, the
bytes it reports are committed before the error is returned, and are sent; chunked, the read
returns before anything is committed, and its bytes are never sent.

## Main definitions

* `Session.SourceInv`: what holds along a source-style session without content-coding

## Main results

* `Session.sourceInv_step`: every call keeps it
* `Session.source_sends_framed_body`: with a source that never fails, the bytes sent are at
  every point a prefix of the framed body, and all of it once the message is done
-/

namespace HttpProto

namespace Session

open Serializer

variable {m : Message}

/-! ## The invariant -/

/-- What holds along a source-style session without content-coding. -/
structure SourceInv (m : Message) (t : Session) : Prop where
  st : t.sr.st = .source
  isCompressed : t.sr.isCompressed = false
  isChunked : t.sr.isChunked = m.isChunked
  valid : t.sr.tmp0.Valid
  slots : t.sr.out.slots.length = 3
  header : t.sr.out.pos = 0 → HeaderSlot t.sr
  expect : t.sr.isExpectContinue = true → t.sr.tmp0.size = 0
  /-- what was sent, then what is unsent, is the header, then what the reads appended -/
  wire : t.sent ++ t.sr.unsent = m.header ++ (reads t.log).flatMap (readWire m.isChunked)
  pending : t.pending <+: t.sr.unsent
  /-- `more_` falls exactly when a read ends the body -/
  more : t.sr.more = !(reads t.log).any ReadResult.ends
  /-- only the last read can have ended the body -/
  last : ∀ r ∈ (reads t.log).dropLast, r.ends = false
  done : t.sr.isDone = true → t.sr.unsent = [] ∧ t.sr.more = false

theorem startWithSource_identity {s s₀ : Serializer} (hm : m.encoding = .identity)
    (h : s.startWithSource m = .ok s₀) :
    s₀.st = .source ∧ s₀.isCompressed = false ∧ s₀.tmp0.Valid ∧ s₀.tmp0.size = 0 ∧
      s₀.out.slots.length = 3 ∧ s₀.more = true := by
  have hc : (s.startInit m).isCompressed = false := by simp [startInit, hm]
  rcases startTmp_eq_ok h with ⟨hc', -⟩ | ⟨-, -, rfl⟩
  · exact absurd hc' (by simp [hc])
  exact ⟨rfl, hc, CircularBuffer.valid_ofSlice _ _, rfl, rfl, rfl⟩

theorem sourceInv_init {s s₀ : Serializer} (hm : m.encoding = .identity)
    (h : s.startWithSource m = .ok s₀) : SourceInv m (init s₀) := by
  obtain ⟨hst, hc, hv, h0, hsl, hmore⟩ := startWithSource_identity hm h
  have hf := startWithSource_fresh h
  have hread : s₀.mem.read s₀.hp = m.header := by simp [hf.hp, Message.headerBuffer, hf.header]
  have hnil : s₀.tmp0.contents s₀.mem.ws = [] := List.eq_nil_of_length_eq_zero (by simpa using h0)
  exact { st := hst, isCompressed := hc, isChunked := hf.isChunked, valid := hv, slots := hsl
          header := fun _ => ⟨by simp only [init, hf.hp]; rfl, by simp only [init]; rw [hread, hf.hp]; rfl⟩
          expect := fun _ => h0
          wire := by simp [init, unsent, hf.pos, hread, hnil, reads, events, calls]
          pending := List.nil_prefix
          more := by simp [init, hmore, reads, events, calls]
          last := by simp [init, reads, events, calls]
          done := by simp [init, hf.isDone] }

/-! ## One call -/

@[simp] theorem reads_prepared (c : Call) : reads [.prepared c] = c.events.filterMap Event.readResult := by
  simp only [reads, events, calls, List.flatMap_cons, List.flatMap_nil, List.append_nil]

/-- The frame of a source-style serializer stays as the invariant has it. -/
theorem SourceInv.keeps {t : Session} {sr : Serializer} (hi : SourceInv m t) (hk : Keeps t.sr sr) :
    sr.st = .source ∧ sr.isCompressed = false ∧ sr.isChunked = m.isChunked :=
  ⟨hk.st.trans hi.st, hk.isCompressed.trans hi.isCompressed, hk.isChunked.trans hi.isChunked⟩

/-- After a source-style `prepare` that read `rs`, the reads that ended the body. -/
theorem more_after_reads {rs rs' : List ReadResult} {more : Bool}
    (hm : more = !rs.any ReadResult.ends) :
    (if rs'.any ReadResult.ends then false else more) = !(rs ++ rs').any ReadResult.ends := by
  cases h : rs'.any ReadResult.ends <;> simp [hm, h]

/-- A read after a read that ended the body never happens, so only the last can have. -/
theorem last_after_reads {rs rs' : List ReadResult} (hl : ∀ r ∈ rs.dropLast, r.ends = false)
    (hm : rs'.length ≤ 1) (hnil : rs.any ReadResult.ends = true → rs' = []) :
    ∀ r ∈ (rs ++ rs').dropLast, r.ends = false := by
  match rs', hm with
  | [], _ => simpa using hl
  | [r'], _ =>
    have hn : rs.any ReadResult.ends = false := by
      cases h : rs.any ReadResult.ends
      · rfl
      · exact absurd (hnil h) (List.cons_ne_nil _ _)
    intro r hr
    rw [List.dropLast_concat] at hr
    simpa using List.any_eq_false.mp hn r hr

theorem sourceInv_prepare {t t' : Session} {src : Source} {flt : Filter} (hi : SourceInv m t)
    (h : t.step (.prepare src flt) = .ok t') : SourceInv m t' := by
  obtain ⟨p, hp, rfl⟩ := map_eq_ok.mp h
  have hd := prepare_isDone hp
  cases hx : t.sr.isExpectContinue
  case true =>
    by_cases h0 : t.sr.out.pos = 0
    · -- the header slot alone, nothing read
      rw [prepare_expect_header hd hx h0] at hp
      cases hp
      dsimp only
      refine { hi with pending := ?_, wire := by simpa using hi.wire, more := by simpa using hi.more,
                       last := by simpa using hi.last }
      show t.sr.mem.readAll [t.sr.hp] <+: _
      simp [unsent, h0, Memory.readAll]
    · -- the sentinel: the flag falls, nothing else moves
      rw [prepare_expect_sentinel hd hx h0] at hp
      cases hp
      dsimp only
      exact { hi with expect := fun h => by simp at h, pending := List.nil_prefix
                      wire := by simpa [unsent] using hi.wire, more := by simpa using hi.more
                      last := by simpa using hi.last, done := hi.done
                      header := fun h0 => ⟨(hi.header h0).region, (hi.header h0).fits⟩ }
  case false =>
    have hsrc : t.sr.prepare src flt = t.sr.prepareSource src := by
      simp [prepare, hd, hx, hi.isCompressed, hi.st]
    rw [hsrc] at hp
    obtain ⟨hk, hv, hsl, hpos, hhp, hu, hmore, hnil, hlen, hres⟩ :=
      prepareSource_wire hi.valid hi.slots (fun h0 => (hi.header h0).region) hp
    obtain ⟨hst, hc, hch⟩ := hi.keeps hk
    rw [hi.isChunked] at hu
    have hnil' : (reads t.log).any ReadResult.ends = true →
        p.events.filterMap Event.readResult = [] := fun h => by
      rw [hnil (by simp [hi.more, h])]; rfl
    refine ⟨hst, hc, hch, hv, hsl, fun h0 => ⟨?_, ?_⟩, fun h => by simp [hk.isExpectContinue, hx] at h,
      ?_, ?_, ?_, ?_, fun h => by simp [hk.isDone, hd] at h⟩
    · rw [hhp]; exact (hi.header (hpos ▸ h0)).region
    · rw [hhp, read_of_header (hi.header (hpos ▸ h0)).region hk.header]
      exact (hi.header (hpos ▸ h0)).fits
    · simp only [reads_append, reads_prepared, List.flatMap_append, hu]
      rw [← List.append_assoc, hi.wire, List.append_assoc]
    · show (p.result.map p.next.mem.readAll).toOption.getD [] <+: p.next.unsent
      rcases hres with hres | ⟨ec, hres⟩
      · rw [hres]; exact List.prefix_refl _
      · simp [hres, Except.toOption, Except.map]
    · simp only [reads_append, reads_prepared, hmore]
      exact more_after_reads hi.more
    · simpa using last_after_reads hi.last hlen hnil'

theorem sourceInv_consume {t t' : Session} {n : Nat} (hi : SourceInv m t)
    (ha : t.Allowed (.consume n)) (h : t.step (.consume n) = .ok t') : SourceInv m t' := by
  obtain ⟨sr, hc, rfl⟩ := map_eq_ok.mp h
  have hn : n ≤ t.sr.unsent.length := ha.trans hi.pending.length_le
  have hx : t.sr.isExpectContinue = true → t.sr.out.pos ≠ 0 → n = 0 := fun hx h0 => by
    have hnil : t.sr.tmp0.contents t.sr.mem.ws = [] :=
      List.eq_nil_of_length_eq_zero (by simpa using hi.expect hx)
    simpa [unsent, h0, hnil] using hn
  obtain ⟨hu, hv, hsl, hhs, hdone⟩ := consume_unsent (.inl hi.st) hi.valid hi.slots hi.header
    hx hn hc
  obtain ⟨out, tmp0, isDone, rfl⟩ := consume_shape hc
  refine { hi with valid := hv, slots := hsl, header := hhs, expect := fun hx => ?_
                   wire := ?_, pending := ?_, done := fun h => ⟨(hdone h).1, (hdone h).2 hi.isCompressed⟩ }
  · obtain ⟨-, out', -, he⟩ := @consume_of_expect t.sr _ n (by exact hx) hc
    have ht : tmp0 = t.sr.tmp0 := congrArg Serializer.tmp0 he
    rw [ht]
    exact hi.expect hx
  · simp only [hu, List.append_assoc, take_of_prefix hi.pending ha, List.take_append_drop]
    exact hi.wire
  · rw [hu]
    exact hi.pending.drop n

/-- Every allowed call keeps the invariant. -/
theorem sourceInv_step {t t' : Session} {a : Action} (hi : SourceInv m t) (ha : t.Allowed a)
    (h : t.step a = .ok t') : SourceInv m t' := by
  cases a with
  | prepare src flt => exact sourceInv_prepare hi h
  | consume n => exact sourceInv_consume hi ha h
  | streamPrepare => exact absurd (hi.st.symm.trans ha) (by decide)
  | streamCommit d => exact absurd (hi.st.symm.trans ha.1) (by decide)
  | streamClose => exact absurd (hi.st.symm.trans ha) (by decide)

theorem Run.sourceInv {t t' : Session} {as : List Action} (h : Run t as t') (hi : SourceInv m t) :
    SourceInv m t' :=
  h.invariant (SourceInv m) (fun _ _ _ => sourceInv_step) hi

/-! ## The framed body -/

/-- The bytes of the reads, each non-empty one a chunk of its own. -/
def bodyChunks (rs : List ReadResult) : List (List Byte) :=
  (rs.map ReadResult.bytes).filter fun d => !d.isEmpty

theorem ne_nil_of_mem_bodyChunks {rs : List ReadResult} {d : List Byte} (h : d ∈ bodyChunks rs) :
    d ≠ [] := by
  simpa [bodyChunks] using (List.mem_filter.mp h).2

theorem flatten_bodyChunks (rs : List ReadResult) :
    (bodyChunks rs).flatten = rs.flatMap ReadResult.bytes := by
  rw [bodyChunks, List.flatten_filter_not_isEmpty, List.flatMap]

theorem readWire_false : readWire false = ReadResult.bytes := rfl

/-- Chunked, reads that did not fail append their non-empty bytes as one chunk each, then the
last-chunk once one of them ends the body, which only the last can. -/
theorem flatMap_readWire_chunked : ∀ {rs : List ReadResult}, (∀ r ∈ rs, r.ec = 0) →
    (∀ r ∈ rs.dropLast, r.ends = false) →
    rs.flatMap (readWire true) =
      (bodyChunks rs).flatMap chunk ++ if rs.any ReadResult.ends then lastChunk else []
  | [], _, _ => rfl
  | [r], hok, _ => by
    have h0 := hok r (List.mem_singleton_self r)
    by_cases hb : r.bytes = [] <;> simp [readWire, bodyChunks, h0, hb, ReadResult.ends]
  | r :: r' :: rs, hok, hl => by
    have h0 := hok r (List.mem_cons_self _ _)
    have hf : r.finished = false := by
      simpa [ReadResult.ends_of_ok h0] using hl r (by simp)
    rw [List.flatMap_cons, flatMap_readWire_chunked (fun x hx => hok x (List.mem_cons_of_mem _ hx))
      (fun x hx => hl x (by rw [List.dropLast_cons₂]; exact List.mem_cons_of_mem _ hx))]
    by_cases hb : r.bytes = [] <;> simp [readWire, bodyChunks, h0, hb, hf, ReadResult.ends]

/-- With a source that never fails, what a source-style session without content-coding has sent
at any point is a prefix of the header followed by the framed body of all the reads of the
session, and all of it once the message is done. -/
theorem source_sends_framed_body {s s₀ : Serializer} {as₁ as₂ : List Action} {t₁ t : Session}
    (hs : s.startWithSource m = .ok s₀) (hm : m.encoding = .identity)
    (h₁ : Run (init s₀) as₁ t₁) (h₂ : Run t₁ as₂ t) (hok : ∀ r ∈ reads t.log, r.ec = 0) :
    ∃ w, Framed m.header ((reads t.log).flatMap ReadResult.bytes) m.isChunked w ∧
      t₁.sent <+: w ∧ (t.sr.isDone = true → t.sent = w) := by
  have hi := (h₁.append h₂).sourceInv (sourceInv_init hm hs)
  have hpre : t₁.sent <+: t.sent ++ t.sr.unsent := h₂.sent_prefix.trans (List.prefix_append _ _)
  have hw := hi.wire
  cases hc : m.isChunked
  case false =>
    rw [hc, readWire_false] at hw
    refine ⟨_, framed_false.mpr rfl, hw ▸ hpre, fun hd => ?_⟩
    rw [← hw, (hi.done hd).1, List.append_nil]
  case true =>
    rw [hc, flatMap_readWire_chunked hok hi.last] at hw
    refine ⟨m.header ++ chunked (bodyChunks (reads t.log)),
      framed_true.mpr ⟨_, fun _ => ne_nil_of_mem_bodyChunks, flatten_bodyChunks _, rfl⟩, ?_, fun hd => ?_⟩
    · refine (hw ▸ hpre).trans ?_
      rw [chunked]
      split
      · exact List.prefix_refl _
      · simp
    · have hend : (reads t.log).any ReadResult.ends = true := by
        simpa [(hi.done hd).2] using hi.more.symm
      rw [← List.append_nil t.sent, ← (hi.done hd).1, hw, hend, if_pos rfl, chunked]

/-- Two reads, `ab` then `c` and the end, sent as two chunks and the last-chunk. -/
theorem source_sends_two_chunks :
    ∃ s₀ t, (new 64).startWithSource (sampleMessage true .identity false) = .ok s₀ ∧
      Run (init s₀) [.prepare (.ofList [97, 98] false 0) (.ofList []), .consume 25,
        .prepare (.ofList [99] true 0) (.ofList []), .consume 26] t ∧
      (decide (∀ r ∈ reads t.log, r.ec = 0), t.sent) =
        (true, [72, 13, 10] ++ chunked [[97, 98], [99]]) ∧
      ∃ w, Framed [72, 13, 10] ((reads t.log).flatMap ReadResult.bytes) true w ∧
        t.sent <+: w ∧ (t.sr.isDone = true → t.sent = w) :=
  exists_run_of_exec_of (by decide) fun _ t hs₀ hrun hv =>
    source_sends_framed_body hs₀ rfl hrun (.nil t) (of_decide_eq_true (congrArg Prod.fst hv))

/-! ## A read that fails -/

/-- Once a source-style message without content-coding is done, the caller has sent the header
and what every read appended, and a read ended the body. -/
theorem source_sent_of_done {s s₀ : Serializer} {as : List Action} {t : Session}
    (hs : s.startWithSource m = .ok s₀) (hm : m.encoding = .identity)
    (hrun : Run (init s₀) as t) (hd : t.sr.isDone = true) :
    t.sent = m.header ++ (reads t.log).flatMap (readWire m.isChunked) ∧
      (reads t.log).any ReadResult.ends = true := by
  have hi := hrun.sourceInv (sourceInv_init hm hs)
  refine ⟨?_, by simpa [(hi.done hd).2] using hi.more.symm⟩
  rw [← hi.wire, (hi.done hd).1, List.append_nil]

/-- A read that fails after writing `a`, then one that ends the body: identity-framed the `a`
is sent, chunked it is not. -/
theorem failed_read_bytes_framing :
    (∃ s₀ t, (new 64).startWithSource (sampleMessage false .identity false) = .ok s₀ ∧
      Run (init s₀) [.prepare (.ofList [97] false 5) (.ofList []),
        .prepare (.ofList [] true 0) (.ofList []), .consume 4] t ∧
      (reads t.log, t.sent, t.sr.isDone) =
        ([⟨[97], false, 5⟩, ⟨[], true, 0⟩], [72, 13, 10] ++ [97], true)) ∧
    (∃ s₀ t, (new 64).startWithSource (sampleMessage true .identity false) = .ok s₀ ∧
      Run (init s₀) [.prepare (.ofList [97] false 5) (.ofList []),
        .prepare (.ofList [] true 0) (.ofList []), .consume 8] t ∧
      (reads t.log, t.sent, t.sr.isDone) =
        ([⟨[97], false, 5⟩, ⟨[], true, 0⟩], [72, 13, 10] ++ chunked [], true)) :=
  ⟨exists_run_of_check (by decide), exists_run_of_check (by decide)⟩

end Session

end HttpProto
