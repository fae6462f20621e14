import Mathlib.Data.List.Infix
import HttpProto.Session

/-!
# Empty and buffers styles: the bytes sent are the layout

Without content-coding, `start_empty` and `start_buffers` lay the whole message out in `out_`
at once: the header, then the body, and when chunked one size line before the body and CRLF and
the last-chunk after it; `start_empty` has no body, and chunked only the last-chunk. `prepare`
returns what is left of the layout and `consume` drops from its front, so what the caller sends
is a prefix of the layout, all of it once the message is done.

The layout of `start_buffers` is a framed message except in one case: chunked, with buffers
that hold no byte. Its one chunk then has size zero, which a decoder reads as the last-chunk,
and CRLF and a second last-chunk follow it.

## Main definitions

* `Session.OutInv`: what holds along a session of these styles

## Main results

* `Session.outInv_step`: every call keeps it
* `Session.startEmpty_sends_layout`, `Session.startWithBuffers_sends_layout`: what the caller
  sends is a prefix of the layout, and all of it once the message is done
* `framed_layout_iff`: the layout of `start_buffers` is a framed message exactly when the body
  is identity-framed or not empty
-/

namespace HttpProto

open Serializer BufferArray

/-! ## The layout -/

/-- `out_` after the header as `start_buffers` lays it out: the body, or when chunked the body
as one chunk then the last-chunk. -/
def bodyLayout (isChunked : Bool) (b : List Byte) : List Byte := if isChunked then chunked [b] else b

/-- Chunked, a layout of one chunk is framed exactly when that chunk is not empty: a chunk of
size zero is read as the last-chunk. -/
theorem framed_layout_iff {h b : List Byte} {isChunked : Bool} :
    Framed h b isChunked (h ++ bodyLayout isChunked b) ↔ isChunked = false ∨ b ≠ [] := by
  cases isChunked
  case false => simp [bodyLayout]
  case true =>
    simp only [framed_true, bodyLayout, if_true, List.append_cancel_left_eq, true_or,
      Bool.true_eq_false, false_or]
    constructor
    · rintro ⟨ds, hne, hflat, heq⟩ rfl
      have hds : ds = [] := by
        cases ds with
        | nil => rfl
        | cons d ds => exact absurd (List.flatten_eq_nil_iff.mp hflat d (by simp)) (hne d (by simp))
      subst hds
      exact absurd heq (by decide)
    · intro hb
      exact ⟨[b], by simpa using hb, by simp, rfl⟩

/-! ## The descriptors `start_*` makes -/

theorem map_getD_range (l : List (List Byte)) : (List.range l.length).map (fun i => l.getD i []) = l :=
  List.ext_getElem (by simp) fun i _ hi => by simp [List.getElem?_eq_getElem hi]

/-- The descriptors of the caller's buffers designate their bytes, in order. -/
theorem readAll_userBuffers (mem : Memory) {bufs : List (List Byte)} (h : mem.user = bufs) :
    mem.readAll (userBuffers bufs) = bufs.flatten ∧ Fits mem (userBuffers bufs) := by
  refine ⟨?_, ?_⟩
  · simp only [Memory.readAll, userBuffers, List.flatMap_map, Function.comp_def, Memory.read_user,
      h, List.drop_zero, List.take_length]
    rw [List.flatMap_def, map_getD_range]
  · simp [Fits, userBuffers, h]

theorem bufferSize_eq_length {mem : Memory} : ∀ {bs : List ConstBuffer}, Fits mem bs →
    bufferSize bs = (mem.readAll bs).length
  | [], _ => rfl
  | b :: bs, hf => by
    rw [Fits.cons] at hf
    simp [bufferSize_eq_length hf.2, hf.1, Nat.add_comm]

/-- A run of workspace addresses after a copy of as many bytes into it. -/
theorem read_store_range' (mem : Memory) (p : Nat) (bs : List Byte) :
    (mem.store (List.range' p bs.length) bs).read ⟨.ws, p, bs.length⟩ = bs := by
  simp only [Memory.read_ws, Memory.store_ws]
  exact map_storeAt_self (List.nodup_range' _ _) (by simp)

theorem read_headerBuffer {mem : Memory} {m : Message} (h : mem.header = m.header) :
    mem.read m.headerBuffer = m.header := by
  simp [Message.headerBuffer, h]

theorem fits_headerBuffer {mem : Memory} {m : Message} (h : mem.header = m.header) :
    (mem.read m.headerBuffer).length = m.headerBuffer.size := by
  rw [read_headerBuffer h]
  rfl

theorem fits_append {mem : Memory} {bs cs : List ConstBuffer} :
    Fits mem (bs ++ cs) ↔ Fits mem bs ∧ Fits mem cs := by
  simp only [Fits, List.mem_append, or_imp, forall_and]

/-- A copy into the workspace leaves a run of addresses before it. -/
theorem read_store_ws_of_le (mem : Memory) {p n q : Nat} (hq : p + n ≤ q) (k : Nat) (bs : List Byte) :
    (mem.store (List.range' q k) bs).read ⟨.ws, p, n⟩ = mem.read ⟨.ws, p, n⟩ := by
  simp only [Memory.read_ws, Memory.store_ws]
  exact map_storeAt_of_not_mem fun x hx hx' => by
    simp only [List.mem_range'_1] at hx hx'
    omega

namespace Serializer

variable {s s₀ : Serializer} {m : Message}

/-- Without content-coding, `start_empty` lays out the header, then the last-chunk when
chunked. -/
theorem startEmpty_layout (hm : m.encoding = .identity) (h : s.startEmpty m = .ok s₀) :
    s₀.st = .empty ∧ s₀.isCompressed = false ∧ Fits s₀.mem s₀.out.data ∧
      s₀.mem.readAll s₀.out.data = m.header ++ if m.isChunked then lastChunk else [] := by
  have hc : (s.startInit m).isCompressed = false := by simp [startInit, hm]
  rcases startEmpty_eq_ok h with ⟨hch, rfl⟩ | ⟨hch, -, rfl⟩
  · exact ⟨rfl, hc, by simp [Fits, data, Message.headerBuffer], by simp [data, hch, read_headerBuffer]⟩
  · refine ⟨rfl, hc, by simp [Fits, data, Message.headerBuffer], ?_⟩
    simp only [data, List.drop_zero, Memory.readAll_cons, Memory.readAll_nil, List.append_nil, hch,
      if_true]
    exact congrArg₂ (· ++ ·) (read_headerBuffer rfl) (read_store_range' _ 0 lastChunk)

/-- Without content-coding, `start_buffers` lays out the header, then the body: as it is, or
chunked as one chunk then the last-chunk. -/
theorem startWithBuffers_layout {bufs : List (List Byte)} (hm : m.encoding = .identity)
    (h : s.startWithBuffers m bufs = .ok s₀) :
    s₀.st = .buffers ∧ s₀.isCompressed = false ∧ Fits s₀.mem s₀.out.data ∧
      s₀.mem.readAll s₀.out.data = m.header ++ bodyLayout m.isChunked bufs.flatten := by
  have hc : (s.startInit m).isCompressed = false := by simp [startInit, hm]
  rcases startWithBuffers_eq_ok h with ⟨hne, -⟩ | ⟨-, hch, rfl⟩ | ⟨-, hch, -, rfl⟩
  · exact absurd hm hne
  · set base : Memory := { s.mem with user := bufs, header := m.header }
    obtain ⟨hu, hf⟩ : base.readAll (userBuffers bufs) = bufs.flatten ∧ Fits base (userBuffers bufs) :=
      readAll_userBuffers _ rfl
    refine ⟨rfl, hc, Fits.cons.mpr ⟨fits_headerBuffer rfl, hf⟩, ?_⟩
    simp only [data, List.drop_zero, Memory.readAll_cons, hu, hch, bodyLayout, Bool.false_eq_true,
      if_false]
    rw [read_headerBuffer rfl]
  · refine ⟨rfl, hc, ?_, ?_⟩ <;> simp only [data, List.drop_zero]
    all_goals
      set base : Memory := { s.mem with user := bufs, header := m.header }
      set mem₁ := base.store (List.range' 0 18) (chunkHeaderBytes (bufferSize (userBuffers bufs)))
      set mem₂ := mem₁.store (List.range' 18 7) (crlf ++ lastChunk)
      obtain ⟨hu, hf⟩ : mem₂.readAll (userBuffers bufs) = bufs.flatten ∧ Fits mem₂ (userBuffers bufs) :=
        readAll_userBuffers _ rfl
    · exact Fits.cons.mpr ⟨fits_headerBuffer rfl, Fits.cons.mpr ⟨by simp,
        fits_append.mpr ⟨hf, Fits.cons.mpr ⟨by simp, fun _ h => absurd h (List.not_mem_nil _)⟩⟩⟩⟩
    · have hsize : bufferSize (userBuffers bufs) = bufs.flatten.length := by
        rw [bufferSize_eq_length hf, hu]
      have hline : mem₂.read ⟨.ws, 0, 18⟩ = sizeLine bufs.flatten.length := by
        rw [read_store_ws_of_le _ (show 0 + 18 ≤ 18 from le_rfl), ← chunkHeaderBytes_eq_sizeLine,
          ← hsize]
        have := read_store_range' base 0 (chunkHeaderBytes (bufferSize (userBuffers bufs)))
        rwa [length_chunkHeaderBytes] at this
      have htail : mem₂.read ⟨.ws, 18, 7⟩ = crlf ++ lastChunk := read_store_range' mem₁ 18 (crlf ++ lastChunk)
      simp only [Memory.readAll_cons, Memory.readAll_append, hline, hu, htail, Memory.readAll_nil,
        List.append_nil, hch, bodyLayout, if_true, chunked, chunk, List.flatMap_cons, List.flatMap_nil,
        List.append_assoc]
      rw [read_headerBuffer rfl]

/-- While the header slot is first, what it designates is the front of the view. -/
theorem read_hp_prefix (h0 : s.out.pos = 0) : s.mem.read s.hp <+: s.mem.readAll s.out.data := by
  simp only [hp, data, h0, List.drop_zero]
  cases s.out.slots with
  | nil => simp [ConstBuffer.empty]
  | cons b bs => exact List.prefix_append _ _

end Serializer

namespace Session

variable {w : List Byte} {t t' : Session}

/-- What holds along a session of the empty or the uncompressed buffers style, `w` being the
message `start_*` laid out. -/
structure OutInv (w : List Byte) (t : Session) : Prop where
  st : t.sr.st = .empty ∨ t.sr.st = .buffers
  isCompressed : t.sr.isCompressed = false
  fits : Fits t.sr.mem t.sr.out.data
  /-- what was sent, then what `out_` still designates, is the message -/
  wire : t.sent ++ t.sr.mem.readAll t.sr.out.data = w
  pending : t.pending <+: t.sr.mem.readAll t.sr.out.data
  done : t.sr.isDone = true → t.sr.out.data = []

theorem outInv_init {s₀ : Serializer} (hst : s₀.st = .empty ∨ s₀.st = .buffers)
    (hc : s₀.isCompressed = false) (hf : Fits s₀.mem s₀.out.data) (hd : s₀.isDone = false) :
    OutInv (s₀.mem.readAll s₀.out.data) (init s₀) :=
  ⟨hst, hc, hf, rfl, List.nil_prefix, fun h => absurd (h.symm.trans hd) (by decide)⟩

theorem outInv_prepare {src : Source} {flt : Filter} (hi : OutInv w t)
    (h : t.step (.prepare src flt) = .ok t') : OutInv w t' := by
  obtain ⟨p, hp, rfl⟩ := map_eq_ok.mp h
  have hd := prepare_isDone hp
  cases hx : t.sr.isExpectContinue
  case true =>
    by_cases h0 : t.sr.out.pos = 0
    · -- the header slot alone
      rw [prepare_expect_header hd hx h0] at hp
      cases hp
      dsimp only
      refine { hi with pending := ?_ }
      show t.sr.mem.readAll [t.sr.hp] <+: _
      simpa using read_hp_prefix h0
    · -- the sentinel: the flag falls, nothing else moves
      rw [prepare_expect_sentinel hd hx h0] at hp
      cases hp
      exact ⟨hi.st, hi.isCompressed, hi.fits, hi.wire, List.nil_prefix, hi.done⟩
  case false =>
    have hview : t.sr.prepare src flt = .ok ⟨.ok t.sr.out.data, t.sr, []⟩ := by
      rcases hi.st with hst | hst <;> simp [prepare, hd, hx, hi.isCompressed, hst]
    rw [hview] at hp
    cases hp
    exact { hi with pending := List.prefix_refl _ }

theorem outInv_consume {n : Nat} (hi : OutInv w t) (ha : t.Allowed (.consume n))
    (h : t.step (.consume n) = .ok t') : OutInv w t' := by
  obtain ⟨sr, hc, rfl⟩ := map_eq_ok.mp h
  obtain ⟨hr, hf, hdone⟩ := consume_readAll hi.st hi.isCompressed hi.fits hc
  obtain ⟨out, tmp0, isDone, rfl⟩ := consume_shape hc
  refine ⟨hi.st, hi.isCompressed, hf, ?_, ?_, hdone⟩
  · rw [hr, List.append_assoc, take_of_prefix hi.pending ha, List.take_append_drop]
    exact hi.wire
  · rw [hr]
    exact hi.pending.drop n

/-- Every allowed call keeps the invariant. -/
theorem outInv_step {a : Action} (hi : OutInv w t) (ha : t.Allowed a) (h : t.step a = .ok t') :
    OutInv w t' := by
  have hns : t.sr.st ≠ .stream := by rcases hi.st with h | h <;> rw [h] <;> decide
  cases a with
  | prepare src flt => exact outInv_prepare hi h
  | consume n => exact outInv_consume hi ha h
  | streamPrepare => exact absurd ha hns
  | streamCommit d => exact absurd ha.1 hns
  | streamClose => exact absurd ha hns

/-- What the caller has sent is a prefix of the message, and all of it once it is done. -/
theorem OutInv.sent (hi : OutInv w t) : t.sent <+: w ∧ (t.sr.isDone = true → t.sent = w) :=
  ⟨hi.wire ▸ List.prefix_append _ _, fun hd => by rw [← hi.wire, hi.done hd]; simp⟩

/-- Without content-coding, what a `start_empty` session has sent is a prefix of the header
followed, when chunked, by the last-chunk, and all of it once the message is done. -/
theorem startEmpty_sends_layout {s s₀ : Serializer} {m : Message} {as : List Action}
    (hs : s.startEmpty m = .ok s₀) (hm : m.encoding = .identity) (hrun : Run (init s₀) as t) :
    t.sent <+: m.header ++ (if m.isChunked then lastChunk else []) ∧
      (t.sr.isDone = true → t.sent = m.header ++ if m.isChunked then lastChunk else []) := by
  obtain ⟨hst, hc, hf, hw⟩ := startEmpty_layout hm hs
  have hi := hrun.invariant (OutInv _) (fun _ _ _ => outInv_step)
    (outInv_init (.inl hst) hc hf (startEmpty_fresh hs).isDone)
  rw [hw] at hi
  exact hi.sent

/-- Without content-coding, what a `start_buffers` session has sent is a prefix of the header
followed by the layout of the body, and all of it once the message is done. -/
theorem startWithBuffers_sends_layout {s s₀ : Serializer} {m : Message} {bufs : List (List Byte)}
    {as : List Action} (hs : s.startWithBuffers m bufs = .ok s₀) (hm : m.encoding = .identity)
    (hrun : Run (init s₀) as t) :
    t.sent <+: m.header ++ bodyLayout m.isChunked bufs.flatten ∧
      (t.sr.isDone = true → t.sent = m.header ++ bodyLayout m.isChunked bufs.flatten) := by
  obtain ⟨hst, hc, hf, hw⟩ := startWithBuffers_layout hm hs
  have hi := hrun.invariant (OutInv _) (fun _ _ _ => outInv_step)
    (outInv_init (.inr hst) hc hf (startWithBuffers_fresh hs).isDone)
  rw [hw] at hi
  exact hi.sent

/-- A chunked `start_buffers` whose buffers hold no byte: the caller sends the header, a size
line of zero, CRLF and the last-chunk, which is not the empty body framed. -/
theorem buffers_empty_body_chunked :
    ∃ s₀ t, (new 64).startWithBuffers (sampleMessage true .identity false) [] = .ok s₀ ∧
      Run (init s₀) [.prepare (.ofList [] true 0) (.ofList []), .consume 28] t ∧
      (t.sent, t.sr.isDone) = ([72, 13, 10] ++ sizeLine 0 ++ crlf ++ lastChunk, true) ∧
      ¬ Framed [72, 13, 10] [] true t.sent :=
  exists_run_of_exec_of (by decide) fun _ t _ _ hv => by
    have hsent : t.sent = [72, 13, 10] ++ bodyLayout true [] :=
      (congrArg Prod.fst hv).trans (by decide)
    rw [hsent, framed_layout_iff]
    simp

end Session

end HttpProto
