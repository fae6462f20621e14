import HttpProto.Serializer.Basic

/-!
# `serializer::prepare`

`prepare` returns the caller's next view: the header alone while `Expect: 100-continue` holds,
the array `out_` in the empty and buffers styles, and otherwise the header slot (while the
header is unsent) followed by the two pieces of `tmp0_`. In source style it first pulls from
the source into `tmp0_`, framing what it gets as one chunk when chunked; under content-coding
it drives the filter from the body into `tmp0_`, one chunk per call when chunked.

Each branch is its own definition, and `prepare` dispatches on the flags and the style as the
source does, so that a lemma about one branch never unfolds another.

## Main definitions

* `prepareSource`, `prepareStream`, `prepareCompressed`: the branches
* `filterLoop`: the `for(;;)` loop that drives the filter
* `prepare`
-/

namespace HttpProto

namespace Serializer

/-- What a `prepare` that returned leaves: its result (the view's descriptors or an error
code), the serializer after it, and its calls of the source and the filter, in order. -/
structure Prepared where
  result : Except Error (List ConstBuffer)
  next : Serializer
  events : List Event

/-- The slot loop that ends the source and stream branches and `on_end`: the pieces of
`tmp0_.data()` go into the slots after the header slot, if that is still first. -/
def fillSlots (s : Serializer) : Except Fault Serializer :=
  (s.out.setFrom (if s.out.pos = 0 then 1 else 0) s.tmp0.data).map fun out => { s with out }

/-- `tmp0_.commit(buffer_copy(tmp0_.prepare(k), lit))` for a literal of `k` bytes. -/
def appendTmp0 (s : Serializer) (lit : List Byte) : Except Fault Serializer :=
  (s.tmp0.prepare lit.length).map fun (dest, tmp0) =>
    { s with tmp0 := tmp0.commit (min (addrs dest).length lit.length),
             mem := s.mem.store (addrs dest) lit }

/-- `write_chunk_close(tmp0_)`. -/
def writeChunkClose (s : Serializer) : Except Fault Serializer := s.appendTmp0 crlf

/-- `write_last_chunk(tmp0_)`. -/
def writeLastChunk (s : Serializer) : Except Fault Serializer := s.appendTmp0 lastChunk

/-! ## Source style -/

/-- The identity-framed read: `read(tmp0_.prepare(tmp0_.capacity()))`, commit what was
written, then stop with a failed read's error code, or take `more_` from `finished`. -/
def readIdentity (s : Serializer) (src : Source) :
    Except Fault (Serializer × Option Nat × List Event) :=
  (s.tmp0.prepare s.tmp0.capacity).map fun (dest, tmp0) =>
    let rv := src.read (addrs dest).length
    let s := { s with tmp0 := tmp0.commit rv.bytes.length,
                      mem := s.mem.store (addrs dest) rv.bytes }
    if rv.ec ≠ 0 then (s, some rv.ec, [.read (addrs dest).length rv])
    else ({ s with more := !rv.finished }, none, [.read (addrs dest).length rv])

/-- Frame the `n` bytes a read left after the reserved size line as one chunk. -/
def commitChunk (s : Serializer) (hdr : List Nat) (n : Nat) : Except Fault Serializer := do
  let mem ← writeChunkHeader s.mem hdr n
  writeChunkClose { s with mem, tmp0 := s.tmp0.commit (n + 18) }

/-- After a chunked read that did not fail: frame its bytes, if any, then the last-chunk if
the body is finished. -/
def frameRead (s : Serializer) (hdr : List Nat) (rv : ReadResult) : Except Fault Serializer :=
  (if rv.bytes.length ≠ 0 then s.commitChunk hdr rv.bytes.length else .ok s) >>= fun s =>
  if rv.finished then (writeLastChunk s).map fun s => { s with more := false } else .ok s

/-- The chunked read: when `tmp0_` has room for more than a chunk's framing, read into the
space after an 18-byte size line and before the reserve for CRLF and the last-chunk; a failed
read returns before anything is committed. -/
def readChunked (s : Serializer) (src : Source) :
    Except Fault (Serializer × Option Nat × List Event) :=
  if s.tmp0.capacity ≤ chunkedOverhead then .ok (s, none, [])
  else do
    let (dest, tmp0) ← s.tmp0.prepare (s.tmp0.capacity - 2 - 5)
    let ps := addrs dest
    let rv := src.read (ps.drop 18).length
    let s := { s with tmp0, mem := s.mem.store (ps.drop 18) rv.bytes }
    let ev := Event.read (ps.drop 18).length rv
    if rv.ec ≠ 0 then .ok (s, some rv.ec, [ev])
    else (s.frameRead (ps.take 18) rv).map fun s => (s, none, [ev])

/-- The source branch without content-coding. -/
def prepareSource (s : Serializer) (src : Source) : Except Fault Prepared :=
  (if s.more then (if s.isChunked then s.readChunked src else s.readIdentity src)
   else .ok (s, none, [])) >>= fun (s, err, evs) =>
  match err with
  | some ec => .ok ⟨.error (.source ec), s, evs⟩
  | none => (fillSlots s).map fun s => ⟨.ok s.out.data, s, evs⟩

/-! ## Stream style -/

/-- The stream branch without content-coding: `need_data` while nothing is committed and the
stream is open. -/
def prepareStream (s : Serializer) : Except Fault Prepared :=
  if s.tmp0.size = 0 ∧ s.more then .ok ⟨.error .needData, s, []⟩
  else (fillSlots s).map fun s => ⟨.ok s.out.data, s, []⟩

/-! ## Content-coding -/

/-- `get_input`: in buffers style the first caller buffer left, otherwise the first non-empty
piece of `tmp1_`; nothing when the input is used up. -/
def getInput (s : Serializer) : Except Fault ConstBuffer :=
  if s.st = .buffers then
    if bufferSize s.buf.data = 0 then .ok .empty
    else
      let b := s.buf.data.headD .empty
      if 0 < b.size then .ok b else .error .assertion
  else if s.tmp1.size = 0 then .ok .empty
  else
    let b := firstPiece ConstBuffer.size .empty s.tmp1.data
    if 0 < b.size then .ok b else .error .assertion

/-- `get_output`: the first non-empty piece of `tmp0_`'s free space; when chunked, less the
reserve for CRLF and the last-chunk, and nothing unless a byte is left besides. -/
def getOutput (s : Serializer) : Except Fault (MutableBuffer × Serializer) :=
  (s.tmp0.prepare s.tmp0.capacity).map fun (mbs, tmp0) =>
    let buf := firstPiece MutableBuffer.size .empty mbs
    let buf := if s.isChunked then
        (if buf.size < crlfLen + lastChunkLen + 1 then .empty
         else ⟨buf.pos, buf.size - crlfLen - lastChunkLen⟩)
      else buf
    (buf, { s with tmp0 })

/-- The `consume` lambda: the filter took `n` bytes of input. -/
def consumeInput (s : Serializer) (n : Nat) : Except Fault Serializer :=
  if s.st = .buffers then
    (s.buf.consume n).map fun buf =>
      { s with buf, more := if bufferSize buf.data = 0 then false else s.more }
  else .ok { s with tmp1 := s.tmp1.consume n }

/-- The `for(;;)` loop driving the filter, for at most `fuel` rounds; `k` counts the calls of
`on_process` made and `nw` the bytes they wrote. Each round that goes on commits at least one
byte to `tmp0_`, so `tmp0_.capacity() + 1` rounds are never used up (`filterLoop_fuel`). -/
def filterLoop (flt : Filter) :
    Nat → Nat → Nat → Serializer → List Event → Except Fault (Nat × Serializer × List Event)
  | 0, _, nw, s, evs => .ok (nw, s, evs)
  | fuel + 1, k, nw, s, evs => do
    let inb ← s.getInput
    let (out, s) ← s.getOutput
    if out.size = 0 then
      if s.tmp0.size = 0 then .error .logicError else .ok (nw, s, evs)
    else
      let input := s.mem.read inb
      let r := flt.process k out.size input s.more
      let ev := Event.process out.size input s.more r
      let s := if r.finished then { s with filterDone := true } else s
      let s ← s.consumeInput r.inBytes
      if r.out.length = 0 then .ok (nw, s, evs ++ [ev])
      else
        let s := { s with mem := s.mem.store (List.range' out.pos out.size) r.out,
                          tmp0 := s.tmp0.commit r.out.length }
        filterLoop flt fuel (k + 1) (nw + r.out.length) s (evs ++ [ev])

/-- The compressed read: `read(tmp1_.prepare(tmp1_.capacity()))`, with `more_` from
`finished` and the error code ignored. -/
def readCompressed (s : Serializer) (src : Source) : Except Fault (Serializer × List Event) :=
  (s.tmp1.prepare s.tmp1.capacity).map fun (dest, tmp1) =>
    let rv := src.read (addrs dest).length
    ({ s with tmp1 := tmp1.commit rv.bytes.length, more := !rv.finished,
              mem := s.mem.store (addrs dest) rv.bytes }, [.read (addrs dest).length rv])

/-- Reserve the chunk's size line at the front of `tmp0_`, zeroed; it must be contiguous. -/
def reserveChunkHeader (s : Serializer) : Except Fault (Serializer × List Nat) := do
  let (mbs, tmp0) ← s.tmp0.prepare chunkHeaderLen
  let buf := firstPiece MutableBuffer.size .empty mbs
  if buf.size < chunkHeaderLen then .error .logicError
  else
    let ps := List.range' buf.pos chunkHeaderLen
    .ok ({ s with tmp0 := tmp0.commit chunkHeaderLen,
                  mem := s.mem.store ps (List.replicate chunkHeaderLen 0) }, ps)

/-- Close the chunk of `nw` filter bytes: its size line, CRLF, and the last-chunk once the
filter is done. -/
def finishChunk (s : Serializer) (hdr : List Nat) (nw : Nat) : Except Fault Serializer := do
  let mem ← writeChunkHeader s.mem hdr nw
  let s ← appendTmp0 { s with mem } crlf
  if s.filterDone then appendTmp0 s lastChunk else .ok s

/-- `on_end`: fill the slots; the view must not be empty. -/
def onEnd (s : Serializer) (evs : List Event) : Except Fault Prepared := do
  let s ← fillSlots s
  if bufferSize s.out.data = 0 then .error .assertion else .ok ⟨.ok s.out.data, s, evs⟩

/-- The branch under content-coding, in every style. -/
def prepareCompressed (s : Serializer) (src : Source) (flt : Filter) : Except Fault Prepared :=
  if 0 < s.tmp0.size then .error .logicError
  else if s.tmp0.capacity < chunkedOverhead + 6 + 1 then .error .lengthError
  else
    (if s.st = .source then s.readCompressed src else .ok (s, [])) >>= fun (s, evs) =>
    (if s.isChunked then s.reserveChunkHeader else .ok (s, [])) >>= fun (s, hdr) =>
    filterLoop flt (s.tmp0.capacity + 1) 0 0 s [] >>= fun (nw, s, evs') =>
    if s.tmp0.size = 0 then .error .assertion
    else (if s.isChunked then s.finishChunk hdr nw else .ok s) >>= fun s => s.onEnd (evs ++ evs')

/-- `prepare()`. -/
def prepare (s : Serializer) (src : Source) (flt : Filter) : Except Fault Prepared :=
  if s.isDone then .error .logicError
  else if s.isExpectContinue then
    if s.out.pos = 0 then .ok ⟨.ok [s.hp], s, []⟩
    else .ok ⟨.error .expect100Continue, { s with isExpectContinue := false }, []⟩
  else if s.isCompressed then s.prepareCompressed src flt
  else match s.st with
    | .empty | .buffers => .ok ⟨.ok s.out.data, s, []⟩
    | .source => s.prepareSource src
    | .stream => s.prepareStream
    | .none => .error .logicError

/-! ## What the branches leave alone -/

section Keeps

variable {s s' : Serializer} {src : Source} {flt : Filter}

theorem fillSlots_keeps (h : fillSlots s = .ok s') : Keeps s s' := by
  obtain ⟨_, -, rfl⟩ := map_eq_ok.mp h; rfl

theorem appendTmp0_keeps {lit : List Byte} (h : s.appendTmp0 lit = .ok s') : Keeps s s' := by
  obtain ⟨_, -, rfl⟩ := map_eq_ok.mp h; rfl

theorem appendTmp0_out {lit : List Byte} (h : s.appendTmp0 lit = .ok s') : s'.out = s.out := by
  obtain ⟨_, -, rfl⟩ := map_eq_ok.mp h; rfl

theorem readIdentity_keeps {r} (h : s.readIdentity src = .ok r) : Keeps s r.1 := by
  obtain ⟨⟨dest, tmp0⟩, -, rfl⟩ := map_eq_ok.mp h
  dsimp only
  split_ifs <;> rfl

theorem commitChunk_keeps {hdr : List Nat} {n : Nat} (h : s.commitChunk hdr n = .ok s') :
    Keeps s s' := by
  obtain ⟨mem, hmem, h⟩ := bind_eq_ok.mp h
  obtain ⟨-, rfl⟩ := writeChunkHeader_eq_ok.mp hmem
  have := appendTmp0_keeps h
  exact this

theorem frameRead_keeps {hdr : List Nat} {rv : ReadResult} (h : s.frameRead hdr rv = .ok s') :
    Keeps s s' := by
  unfold frameRead at h
  obtain ⟨s₁, h₁, h⟩ := bind_eq_ok.mp h
  have k₁ : Keeps s s₁ := by
    split_ifs at h₁
    · exact commitChunk_keeps h₁
    · cases h₁; rfl
  split_ifs at h
  · obtain ⟨s₂, h₂, rfl⟩ := map_eq_ok.mp h
    exact k₁.trans (Keeps.trans (appendTmp0_keeps h₂) rfl)
  · cases h; exact k₁

theorem readChunked_keeps {r} (h : s.readChunked src = .ok r) : Keeps s r.1 := by
  unfold readChunked at h
  split_ifs at h
  · cases h; rfl
  · obtain ⟨⟨dest, tmp0⟩, -, h⟩ := bind_eq_ok.mp h
    dsimp only at h
    split_ifs at h
    · cases h; rfl
    · obtain ⟨s₁, h₁, rfl⟩ := map_eq_ok.mp h
      have := frameRead_keeps h₁
      exact this

theorem prepareSource_spec {p : Prepared} (h : s.prepareSource src = .ok p) :
    Keeps s p.next ∧ (p.result = .ok p.next.out.data ∨ ∃ ec, p.result = .error (.source ec)) := by
  unfold prepareSource at h
  obtain ⟨⟨s₁, err, evs⟩, h₁, h⟩ := bind_eq_ok.mp h
  have k₁ : Keeps s s₁ := by
    split_ifs at h₁
    · exact readChunked_keeps h₁
    · exact readIdentity_keeps h₁
    · cases h₁; rfl
  cases err with
  | some ec => cases h; exact ⟨k₁, .inr ⟨ec, rfl⟩⟩
  | none =>
    obtain ⟨s₂, h₂, rfl⟩ := map_eq_ok.mp h
    exact ⟨k₁.trans (fillSlots_keeps h₂), .inl rfl⟩

theorem prepareStream_spec {p : Prepared} (h : s.prepareStream = .ok p) :
    Keeps s p.next ∧ (p.result = .ok p.next.out.data ∨ p.result = .error .needData) := by
  unfold prepareStream at h
  split_ifs at h
  · cases h; exact ⟨rfl, .inr rfl⟩
  · obtain ⟨s₁, h₁, rfl⟩ := map_eq_ok.mp h
    exact ⟨fillSlots_keeps h₁, .inl rfl⟩

theorem getOutput_keeps {r} (h : s.getOutput = .ok r) : Keeps s r.2 := by
  obtain ⟨⟨_, _⟩, -, rfl⟩ := map_eq_ok.mp h; rfl

theorem consumeInput_keeps {n : Nat} (h : s.consumeInput n = .ok s') : Keeps s s' := by
  unfold consumeInput at h
  split_ifs at h
  · obtain ⟨_, -, rfl⟩ := map_eq_ok.mp h; rfl
  · cases h; rfl

theorem filterLoop_keeps {fuel k nw : Nat} {evs : List Event} {r}
    (h : filterLoop flt fuel k nw s evs = .ok r) : Keeps s r.2.1 := by
  induction fuel generalizing k nw s evs with
  | zero => cases h; rfl
  | succ fuel ih =>
    obtain ⟨inb, -, h⟩ := bind_eq_ok.mp h
    obtain ⟨⟨out, s₁⟩, h₁, h⟩ := bind_eq_ok.mp h
    have k₁ : Keeps s s₁ := getOutput_keeps h₁
    dsimp only at h
    split at h
    · split at h
      · cases h
      · cases h; exact k₁
    · obtain ⟨s₂, h₂, h⟩ := bind_eq_ok.mp h
      have k₂ : Keeps s₁ s₂ := Keeps.trans (by split <;> rfl) (consumeInput_keeps h₂)
      split at h
      · cases h; exact k₁.trans k₂
      · have k₃ := ih h
        exact k₁.trans (k₂.trans k₃)

theorem readCompressed_keeps {r} (h : s.readCompressed src = .ok r) : Keeps s r.1 := by
  obtain ⟨⟨_, _⟩, -, rfl⟩ := map_eq_ok.mp h; rfl

theorem reserveChunkHeader_keeps {r} (h : s.reserveChunkHeader = .ok r) : Keeps s r.1 := by
  obtain ⟨⟨_, _⟩, -, h⟩ := bind_eq_ok.mp h
  dsimp only at h
  split_ifs at h
  cases h; rfl

theorem finishChunk_keeps {hdr : List Nat} {nw : Nat} (h : s.finishChunk hdr nw = .ok s') :
    Keeps s s' := by
  obtain ⟨mem, hmem, h⟩ := bind_eq_ok.mp h
  obtain ⟨-, rfl⟩ := writeChunkHeader_eq_ok.mp hmem
  obtain ⟨s₁, h₁, h⟩ := bind_eq_ok.mp h
  have k₁ := appendTmp0_keeps h₁
  split at h
  · exact k₁.trans (appendTmp0_keeps h)
  · cases h; exact k₁

theorem onEnd_eq_ok {evs : List Event} {p : Prepared} (h : s.onEnd evs = .ok p) :
    fillSlots s = .ok p.next ∧ p.result = .ok p.next.out.data ∧ p.events = evs := by
  obtain ⟨s₁, h₁, h⟩ := bind_eq_ok.mp h
  split_ifs at h
  cases h; exact ⟨h₁, rfl, rfl⟩

/-- A compressed `prepare` that returned, call by call: it found `tmp0_` empty and roomy, read
the source in source style, reserved the size line when chunked, ran the filter, framed its
output when chunked, and filled the slots. -/
theorem prepareCompressed_eq_ok {p : Prepared} (h : s.prepareCompressed src flt = .ok p) :
    s.tmp0.size = 0 ∧ chunkedOverhead + 6 + 1 ≤ s.tmp0.capacity ∧
      ∃ s₁ evs s₂ hdr nw s₃ evs' s₄,
        (if s.st = .source then s.readCompressed src else .ok (s, [])) = .ok (s₁, evs) ∧
        (if s₁.isChunked then s₁.reserveChunkHeader else .ok (s₁, [])) = .ok (s₂, hdr) ∧
        filterLoop flt (s₂.tmp0.capacity + 1) 0 0 s₂ [] = .ok (nw, s₃, evs') ∧
        0 < s₃.tmp0.size ∧
        (if s₃.isChunked then s₃.finishChunk hdr nw else .ok s₃) = .ok s₄ ∧
        s₄.onEnd (evs ++ evs') = .ok p := by
  unfold prepareCompressed at h
  split at h; · cases h
  split at h; · cases h
  obtain ⟨⟨s₁, evs⟩, h₁, h⟩ := bind_eq_ok.mp h
  obtain ⟨⟨s₂, hdr⟩, h₂, h⟩ := bind_eq_ok.mp h
  obtain ⟨⟨nw, s₃, evs'⟩, h₃, h⟩ := bind_eq_ok.mp h
  dsimp only at h
  split at h; · cases h
  obtain ⟨s₄, h₄, h⟩ := bind_eq_ok.mp h
  exact ⟨by omega, by omega, s₁, evs, s₂, hdr, nw, s₃, evs', s₄, h₁, h₂, h₃, by omega, h₄, h⟩

theorem prepareCompressed_spec {p : Prepared} (h : s.prepareCompressed src flt = .ok p) :
    Keeps s p.next ∧ p.result = .ok p.next.out.data := by
  obtain ⟨-, -, s₁, evs, s₂, hdr, nw, s₃, evs', s₄, h₁, h₂, h₃, -, h₄, h₅⟩ :=
    prepareCompressed_eq_ok h
  have k₁ : Keeps s s₁ := by
    split at h₁
    · exact readCompressed_keeps h₁
    · cases h₁; rfl
  have k₂ : Keeps s₁ s₂ := by
    split at h₂
    · exact reserveChunkHeader_keeps h₂
    · cases h₂; rfl
  have k₄ : Keeps s₃ s₄ := by
    split at h₄
    · exact finishChunk_keeps h₄
    · cases h₄; rfl
  obtain ⟨h₅, hr, -⟩ := onEnd_eq_ok h₅
  exact ⟨k₁.trans <| k₂.trans <| (filterLoop_keeps h₃).trans <| k₄.trans (fillSlots_keeps h₅), hr⟩

end Keeps

/-! ## `prepare` -/

section Prepare

variable {s : Serializer} {src : Source} {flt : Filter} {p : Prepared}

theorem prepare_isDone (h : s.prepare src flt = .ok p) : s.isDone = false := by
  cases hd : s.isDone
  · rfl
  · simp [prepare, hd] at h

/-- While `Expect: 100-continue` holds and the header slot is first, the view is the header
slot alone, and nothing else is done. -/
theorem prepare_expect_header (hd : s.isDone = false) (hx : s.isExpectContinue = true)
    (h0 : s.out.pos = 0) : s.prepare src flt = .ok ⟨.ok [s.hp], s, []⟩ := by
  simp [prepare, hd, hx, h0]

/-- Once the header slot is passed, the sentinel, and the flag is cleared. -/
theorem prepare_expect_sentinel (hd : s.isDone = false) (hx : s.isExpectContinue = true)
    (h0 : s.out.pos ≠ 0) :
    s.prepare src flt =
      .ok ⟨.error .expect100Continue, { s with isExpectContinue := false }, []⟩ := by
  simp [prepare, hd, hx, h0]

/-- Under `Expect: 100-continue`, `prepare` calls neither the source nor the filter, and moves
at most the flag. -/
theorem prepare_of_expect (hx : s.isExpectContinue = true)
    (h : s.prepare src flt = .ok p) :
    p.events = [] ∧ ∃ x, p.next = { s with isExpectContinue := x } := by
  have hd := prepare_isDone h
  by_cases h0 : s.out.pos = 0
  · rw [prepare_expect_header hd hx h0] at h
    cases h
    exact ⟨rfl, true, by rw [← hx]⟩
  · rw [prepare_expect_sentinel hd hx h0] at h
    cases h
    exact ⟨rfl, false, rfl⟩

/-- Without the flag of `Expect: 100-continue`, `prepare` is the branch of the style. -/
theorem prepare_of_style (hd : s.isDone = false) (hx : s.isExpectContinue = false)
    (hc : s.isCompressed = false) :
    s.prepare src flt = match s.st with
      | .empty | .buffers => .ok ⟨.ok s.out.data, s, []⟩
      | .source => s.prepareSource src
      | .stream => s.prepareStream
      | .none => .error .logicError := by
  cases hst : s.st <;> simp [prepare, hd, hx, hc, hst]

/-- Without the flag, `prepare` keeps the frame and never returns `expect_100_continue`. -/
theorem prepare_of_not_expect (hx : s.isExpectContinue = false)
    (h : s.prepare src flt = .ok p) : Keeps s p.next ∧ p.result ≠ .error .expect100Continue := by
  unfold prepare at h
  simp only [hx, Bool.false_eq_true, ite_false] at h
  split at h
  · cases h
  split at h
  · obtain ⟨k, hr⟩ := prepareCompressed_spec h
    exact ⟨k, by simp [hr]⟩
  · split at h
    · cases h; exact ⟨rfl, by simp⟩
    · cases h; exact ⟨rfl, by simp⟩
    · obtain ⟨k, hr | ⟨ec, hr⟩⟩ := prepareSource_spec h <;> exact ⟨k, by simp [hr]⟩
    · obtain ⟨k, hr | hr⟩ := prepareStream_spec h <;> exact ⟨k, by simp [hr]⟩
    · cases h

end Prepare

end Serializer

end HttpProto
