import HttpProto.Serializer.Ring

/-!
# `serializer::consume` and the stream handle

`consume(n)` tells the serializer that the first `n` bytes of the view were sent. While the
header slot is first it is consumed from there; the rest goes to `out_` in the empty and
uncompressed buffers styles, and to `tmp0_` otherwise. The message is done when nothing is
left to send and nothing more will come.

The stream handle `start_stream` returns pushes body bytes into the serializer: `prepare`
offers writable space, `commit(n)` takes `n` bytes the caller wrote there, framed as one chunk
when chunked, and `close` ends the body.
-/

namespace HttpProto

namespace Serializer

/-- `out_.consume(n); if(out_.empty()) is_done_ = true;` -/
def consumeOut (s : Serializer) (n : Nat) : Except Fault Serializer :=
  (s.out.consume n).map fun out => { s with out, isDone := if out.empty then true else s.isDone }

/-- The `switch(st_)` of `consume`, after the header slot. -/
def consumeBody (s : Serializer) (n : Nat) : Except Fault Serializer :=
  match s.st with
  | .buffers =>
    if s.isCompressed then
      let tmp0 := s.tmp0.consume n
      .ok { s with tmp0, isDone := if tmp0.size = 0 ∧ s.filterDone then true else s.isDone }
    else s.consumeOut n
  | .source | .stream =>
    let tmp0 := s.tmp0.consume n
    let isDone := if !s.isCompressed ∧ tmp0.size = 0 ∧ !s.more then true else s.isDone
    let isDone := if s.isCompressed ∧ tmp0.size = 0 ∧ s.filterDone then true else isDone
    .ok { s with tmp0, isDone }
  | .none | .empty => s.consumeOut n

/-- `consume(n)`. -/
def consume (s : Serializer) (n : Nat) : Except Fault Serializer :=
  if s.isDone then .error .logicError
  else if s.isExpectContinue then
    if s.hp.size < n then .error .invalidArgument
    else (s.out.consume n).map fun out => { s with out }
  else if s.out.pos = 0 then
    if n < s.hp.size then (s.out.consume n).map fun out => { s with out }
    else do
      let out ← s.out.consume s.hp.size
      consumeBody { s with out } (n - s.hp.size)
  else consumeBody s n

section Consume

variable {s s' : Serializer} {n : Nat}

theorem consume_isDone (h : s.consume n = .ok s') : s.isDone = false := by
  cases hd : s.isDone
  · rfl
  · simp [consume, hd] at h

/-- After the header slot, `consume` takes from `out_`, or from `tmp0_`, and may set the done
flag. -/
theorem consumeBody_cases (h : s.consumeBody n = .ok s') :
    ∃ isDone, (∃ out, s.out.consume n = .ok out ∧ s' = { s with out, isDone }) ∨
      s' = { s with tmp0 := s.tmp0.consume n, isDone } := by
  unfold consumeBody consumeOut at h
  split at h
  · split_ifs at h
    · cases h; exact ⟨_, .inr rfl⟩
    · obtain ⟨_, ho, rfl⟩ := map_eq_ok.mp h; exact ⟨_, .inl ⟨_, ho, rfl⟩⟩
  -- source and stream style consume `tmp0_`
  · cases h; exact ⟨_, .inr rfl⟩
  · cases h; exact ⟨_, .inr rfl⟩
  · obtain ⟨_, ho, rfl⟩ := map_eq_ok.mp h; exact ⟨_, .inl ⟨_, ho, rfl⟩⟩
  · obtain ⟨_, ho, rfl⟩ := map_eq_ok.mp h; exact ⟨_, .inl ⟨_, ho, rfl⟩⟩

/-- What `consume` does: within the header slot, or while `Expect: 100-continue` holds, it
consumes `out_`; from the header slot on, that slot, then the body; after it, the body. -/
theorem consume_cases (h : s.consume n = .ok s') :
    (∃ out, s.out.consume n = .ok out ∧ s' = { s with out }) ∨
      (s.out.pos = 0 ∧ s.hp.size ≤ n ∧ ∃ out, s.out.consume s.hp.size = .ok out ∧
        ({ s with out } : Serializer).consumeBody (n - s.hp.size) = .ok s') ∨
      s.consumeBody n = .ok s' := by
  unfold consume at h
  split_ifs at h
  · obtain ⟨_, ho, rfl⟩ := map_eq_ok.mp h; exact .inl ⟨_, ho, rfl⟩
  · obtain ⟨_, ho, rfl⟩ := map_eq_ok.mp h; exact .inl ⟨_, ho, rfl⟩
  · obtain ⟨_, ho, h⟩ := bind_eq_ok.mp h; exact .inr (.inl ⟨‹_›, Nat.le_of_not_lt ‹_›, _, ho, h⟩)
  · exact .inr (.inr h)

/-- `consume` changes the slots, `tmp0_` and the done flag, and nothing else. -/
theorem consume_shape (h : s.consume n = .ok s') :
    ∃ out tmp0 isDone, s' = { s with out, tmp0, isDone } := by
  rcases consume_cases h with ⟨_, -, rfl⟩ | ⟨-, -, _, -, h⟩ | h
  · exact ⟨_, _, _, rfl⟩
  all_goals obtain ⟨_, ⟨_, -, rfl⟩ | rfl⟩ := consumeBody_cases h <;> exact ⟨_, _, _, rfl⟩

/-- `consume` never touches the flag of `Expect: 100-continue` or the bytes. -/
theorem consume_frame (h : s.consume n = .ok s') :
    s'.isExpectContinue = s.isExpectContinue ∧ s'.mem = s.mem := by
  obtain ⟨_, _, _, rfl⟩ := consume_shape h
  exact ⟨rfl, rfl⟩

/-- While `Expect: 100-continue` holds, `consume` takes its bytes from the header slot. -/
theorem consume_of_expect (hx : s.isExpectContinue = true) (h : s.consume n = .ok s') :
    n ≤ s.hp.size ∧ ∃ out, s.out.consume n = .ok out ∧ s' = { s with out } := by
  have hd := consume_isDone h
  unfold consume at h
  rw [if_neg (by simp [hd]), if_pos hx] at h
  split_ifs at h with hn
  obtain ⟨out, hout, rfl⟩ := map_eq_ok.mp h
  exact ⟨Nat.le_of_not_lt hn, out, hout, rfl⟩

end Consume

/-! ## What `consume` drops -/

section Unsent

open CircularBuffer

variable {s s' : Serializer} {n : Nat}

/-- The header slot, while first: it points into the header's bytes and designates as many of
them as its size says. -/
structure HeaderSlot (s : Serializer) : Prop where
  region : s.hp.region = .header
  fits : (s.mem.read s.hp).length = s.hp.size

theorem data_of_pos_zero (hslots : s.out.slots ≠ []) (h0 : s.out.pos = 0) :
    s.out.data = s.hp :: s.out.slots.tail := by
  simp only [BufferArray.data, h0, List.drop_zero, hp]
  cases h : s.out.slots with
  | nil => exact absurd h hslots
  | cons b bs => rfl

/-- Consuming part of the header shortens its slot in place. -/
theorem unsent_consume_header (hhs : HeaderSlot s) (hslots : s.out.slots ≠ [])
    (h0 : s.out.pos = 0) (hn : n < s.hp.size) :
    s.out.consume n = .ok ⟨s.out.slots.set 0 (s.hp.advance n), 0⟩ ∧
      ({ s with out := ⟨s.out.slots.set 0 (s.hp.advance n), 0⟩ } : Serializer).unsent =
        s.unsent.drop n ∧
      HeaderSlot { s with out := ⟨s.out.slots.set 0 (s.hp.advance n), 0⟩ } := by
  have hc := BufferArray.consume_of_lt (data_of_pos_zero hslots h0) hn
  rw [h0] at hc
  have hhp : ({ s with out := ⟨s.out.slots.set 0 (s.hp.advance n), 0⟩ } : Serializer).hp =
      s.hp.advance n := by
    simp only [hp]
    cases h : s.out.slots with
    | nil => exact absurd h hslots
    | cons b bs => simp [h]
  have hadv := BufferArray.read_advance s.mem s.hp hn.le
  refine ⟨hc, ?_, ⟨?_, ?_⟩⟩
  · simp only [unsent, hhp, h0, if_true, hadv]
    rw [List.drop_append_of_le_length (by rw [hhs.fits]; exact hn.le)]
  · rw [hhp]; exact hhs.region
  · rw [hhp, hadv, List.length_drop, hhs.fits]; rfl

/-- In source and stream style, and in buffers style under content-coding, the body is consumed
from `tmp0_`, and the done flag is set once it is empty: under content-coding when the filter is
done, without it when `more_` is false. -/
theorem consumeBody_eq_tmp0
    (hst : s.st = .source ∨ s.st = .stream ∨ s.st = .buffers ∧ s.isCompressed = true) :
    s.consumeBody n = .ok { s with tmp0 := s.tmp0.consume n, isDone :=
      if s.isCompressed ∧ (s.tmp0.consume n).size = 0 ∧ s.filterDone then true
      else if !s.isCompressed ∧ (s.tmp0.consume n).size = 0 ∧ !s.more then true else s.isDone } := by
  rcases hst with hst | hst | ⟨hst, hc⟩
  · simp only [consumeBody, hst]
  · simp only [consumeBody, hst]
  · simp [consumeBody, hst, hc]

/-- The same, read from a `consume` that returned: the message is done once `tmp0_` is empty
and, without content-coding, `more_` is false. -/
theorem consumeBody_tmp0
    (hst : s.st = .source ∨ s.st = .stream ∨ s.st = .buffers ∧ s.isCompressed = true)
    (hd : s.isDone = false)
    (h : s.consumeBody n = .ok s') :
    s' = { s with tmp0 := s.tmp0.consume n, isDone := s'.isDone } ∧
      (s'.isDone = true → (s.tmp0.consume n).size = 0 ∧ (s.isCompressed = false → s.more = false)) := by
  rw [consumeBody_eq_tmp0 hst] at h
  cases h
  refine ⟨rfl, fun hdone => ?_⟩
  split_ifs at hdone with h₂ h₁
  · exact ⟨h₂.2.1, fun hc => absurd h₂.1 (by simp [hc])⟩
  · exact ⟨h₁.2.1, fun _ => by simpa using h₁.2.2⟩
  · exact absurd (hdone.symm.trans hd) (by decide)

/-- In source and stream style, and in buffers style under content-coding, `consume(n)` of no
more than the serializer holds unsent drops the first `n` of those bytes: from the header while
its slot is first, then from `tmp0_`. The message is done only once nothing is left, and
without content-coding only once `more_` is false. -/
theorem consume_unsent
    (hst : s.st = .source ∨ s.st = .stream ∨ s.st = .buffers ∧ s.isCompressed = true)
    (hv : s.tmp0.Valid)
    (hslots : s.out.slots.length = 3) (hhs : s.out.pos = 0 → HeaderSlot s)
    (hx : s.isExpectContinue = true → s.out.pos ≠ 0 → n = 0) (hn : n ≤ s.unsent.length)
    (h : s.consume n = .ok s') :
    s'.unsent = s.unsent.drop n ∧ s'.tmp0.Valid ∧ s'.out.slots.length = 3 ∧
      (s'.out.pos = 0 → HeaderSlot s') ∧
      (s'.isDone = true → s'.unsent = [] ∧ (s.isCompressed = false → s.more = false)) := by
  have hd := consume_isDone h
  have hne : s.out.slots ≠ [] := by intro h'; simp [h'] at hslots
  unfold consume at h
  rw [if_neg (by simp [hd])] at h
  have hsl : ∀ {o : BufferArray}, s.out.consume n = .ok o → o.slots.length = 3 := fun hc =>
    (BufferArray.consume_slots hc).1.trans hslots
  -- the first `n` bytes of the header slot, while it is first
  have header : s.out.pos = 0 → n < s.hp.size → ∀ {o : BufferArray}, s.out.consume n = .ok o →
      ({ s with out := o } : Serializer).unsent = s.unsent.drop n ∧
        HeaderSlot ({ s with out := o } : Serializer) := by
    intro h0 hlt o hc
    obtain ⟨hc', hu, hhs'⟩ := unsent_consume_header (hhs h0) hne h0 hlt
    rw [hc'] at hc
    cases hc
    exact ⟨hu, hhs'⟩
  -- the whole header slot: it is passed
  have passed : s.out.pos = 0 → s.out.consume s.hp.size = .ok { s.out with pos := 1 } := by
    intro h0
    have := BufferArray.consume_of_eq (data_of_pos_zero hne h0)
    rwa [h0] at this
  -- the body, once the header slot is passed
  have body : ∀ {o : BufferArray} {k : Nat}, o.pos ≠ 0 → o.slots.length = 3 →
      ({ s with out := o } : Serializer).consumeBody k = .ok s' →
      s'.unsent = (s.tmp0.contents s.mem.ws).drop k ∧ s'.tmp0.Valid ∧ s'.out.slots.length = 3 ∧
        (s'.out.pos = 0 → HeaderSlot s') ∧
        (s'.isDone = true → s'.unsent = [] ∧ (s.isCompressed = false → s.more = false)) := by
    intro o k ho hol hb
    obtain ⟨hs', hdone⟩ := consumeBody_tmp0 (by exact hst) (by exact hd) hb
    rw [hs']
    refine ⟨by simp [unsent, ho, contents_consume _ hv], hv.consume k, hol, fun h0 => absurd h0 ho,
      fun hdn => ?_⟩
    obtain ⟨hz, hm⟩ := hdone hdn
    have hnil : (s.tmp0.consume k).contents s.mem.ws = [] :=
      List.eq_nil_of_length_eq_zero (by rw [length_contents]; exact hz)
    exact ⟨by simp [unsent, ho, hnil], hm⟩
  have hnd : ∀ {o : BufferArray}, ({ s with out := o } : Serializer).isDone = true →
      s'.unsent = [] ∧ (s.isCompressed = false → s.more = false) := fun hdn => by simp [hd] at hdn
  split_ifs at h with hx' hlt h0 hlt'
  · -- `Expect: 100-continue`: the header slot only
    obtain ⟨o, hc, rfl⟩ := map_eq_ok.mp h
    by_cases h0 : s.out.pos = 0
    · rcases Nat.lt_or_ge n s.hp.size with hlt' | hge
      · obtain ⟨hu, hhs'⟩ := header h0 hlt' hc
        exact ⟨hu, hv, hsl hc, fun _ => hhs', hnd⟩
      · rw [le_antisymm (Nat.le_of_not_lt hlt) hge, passed h0] at hc
        cases hc
        refine ⟨?_, hv, by simpa using hslots, fun h1 => absurd h1 (by simp), hnd⟩
        rw [le_antisymm (Nat.le_of_not_lt hlt) hge, ← (hhs h0).fits]
        simp [unsent, h0]
    · -- past the header slot the caller was offered nothing to consume
      obtain rfl := hx hx' h0
      have hpos : o.pos ≠ 0 := fun h1 => h0 (Nat.eq_zero_of_le_zero
        (h1 ▸ (BufferArray.consume_slots hc).2))
      exact ⟨by simp [unsent, h0, hpos], hv, hsl hc, fun h1 => absurd h1 hpos, hnd⟩
  · -- part of the header
    obtain ⟨o, hc, rfl⟩ := map_eq_ok.mp h
    obtain ⟨hu, hhs'⟩ := header h0 hlt' hc
    exact ⟨hu, hv, hsl hc, fun _ => hhs', hnd⟩
  · -- the rest of the header, then the body
    obtain ⟨o, hc, h⟩ := bind_eq_ok.mp h
    rw [passed h0] at hc
    cases hc
    obtain ⟨hu, rest⟩ := body (by simp) (by simpa using hslots) h
    refine ⟨?_, rest⟩
    rw [hu, unsent, if_pos h0, List.drop_append_eq_append_drop,
      List.drop_eq_nil_of_le (show (s.mem.read s.hp).length ≤ n by rw [(hhs h0).fits]; omega),
      (hhs h0).fits, List.nil_append]
  · -- the body
    obtain ⟨hu, rest⟩ := body h0 hslots (by exact h)
    exact ⟨by rw [hu, unsent, if_neg h0, List.nil_append], rest⟩

end Unsent

/-! ## What `consume` drops from `out_` -/

section Out

open BufferArray

variable {s s' : Serializer} {n : Nat}

/-- In the empty and uncompressed buffers styles the body is consumed from `out_` too. -/
theorem consumeBody_of_out (hst : s.st = .empty ∨ s.st = .buffers) (hc : s.isCompressed = false) :
    s.consumeBody n = s.consumeOut n := by
  rcases hst with hst | hst <;> simp [consumeBody, hst, hc]

theorem consumeOut_readAll (hf : Fits s.mem s.out.data) (h : s.consumeOut n = .ok s') :
    s'.mem.readAll s'.out.data = (s.mem.readAll s.out.data).drop n ∧ Fits s'.mem s'.out.data ∧
      (s'.isDone = true → s.isDone = true ∨ s'.out.data = []) := by
  obtain ⟨out, hout, rfl⟩ := map_eq_ok.mp h
  obtain ⟨hr, hf'⟩ := readAll_consume hf hout
  refine ⟨hr, hf', fun hd => ?_⟩
  by_cases he : out.empty
  · exact .inr (List.isEmpty_iff.mp he)
  · simp only [he, if_false] at hd
    exact .inl hd

/-- In the empty and uncompressed buffers styles, `consume(n)` drops the first `n` bytes `out_`
designates, the header slot first; the message is done only once nothing is left. -/
theorem consume_readAll (hst : s.st = .empty ∨ s.st = .buffers) (hc : s.isCompressed = false)
    (hf : Fits s.mem s.out.data) (h : s.consume n = .ok s') :
    s'.mem.readAll s'.out.data = (s.mem.readAll s.out.data).drop n ∧ Fits s'.mem s'.out.data ∧
      (s'.isDone = true → s'.out.data = []) := by
  have hd := consume_isDone h
  rcases consume_cases h with ⟨o, ho, rfl⟩ | ⟨-, hle, o, ho, h⟩ | h
  · -- `out_` alone, the flag left as it is
    obtain ⟨r, f⟩ := readAll_consume hf ho
    exact ⟨r, f, fun h' => by simp [hd] at h'⟩
  · -- the header slot, then the rest from `out_`
    rw [consumeBody_of_out (by exact hst) (by exact hc)] at h
    obtain ⟨r₁, f₁⟩ := readAll_consume hf ho
    obtain ⟨r₂, f₂, d₂⟩ := consumeOut_readAll (by exact f₁) h
    refine ⟨?_, f₂, fun h' => (d₂ h').resolve_left (by simp [hd])⟩
    rw [r₂]
    simp only [r₁, List.drop_drop]
    congr 1
    omega
  · rw [consumeBody_of_out hst hc] at h
    obtain ⟨r, f, d⟩ := consumeOut_readAll hf h
    exact ⟨r, f, fun h' => (d h').resolve_left (by simp [hd])⟩

end Out

/-! ## The stream handle -/

namespace Stream

/-- `stream::capacity()`. -/
def capacity (s : Serializer) : Nat := s.tmp0.capacity

/-- `stream::size()`. -/
def size (s : Serializer) : Nat := s.tmp0.size

/-- `stream::is_full()`. -/
def isFull (s : Serializer) : Bool :=
  if s.isChunked then capacity s < chunkedOverhead + 1 else capacity s = 0

/-- `stream::prepare()`: the addresses the caller may write. Compressed, all of `tmp1_`'s free
space; chunked, the free space of `tmp0_` after an 18-byte size line and before the reserve for
CRLF and the last-chunk; otherwise all of `tmp0_`'s free space. -/
def prepare (s : Serializer) : Except Fault (List Nat × Serializer) :=
  if s.isCompressed then
    (s.tmp1.prepare s.tmp1.capacity).map fun (bs, tmp1) => (addrs bs, { s with tmp1 })
  else if s.isChunked then
    if capacity s < chunkedOverhead + 1 then .error .lengthError
    else (s.tmp0.prepare (chunkHeaderLen + (capacity s - chunkedOverhead))).map
      fun (bs, tmp0) => ((addrs bs).drop chunkHeaderLen, { s with tmp0 })
  else (s.tmp0.prepare (capacity s)).map fun (bs, tmp0) => (addrs bs, { s with tmp0 })

/-- `stream::commit(n)`: make the `n` bytes written readable; chunked, as one chunk whose size
line fills the 18 bytes before them, and never as a chunk of no bytes. -/
def commit (s : Serializer) (n : Nat) : Except Fault Serializer :=
  if s.isCompressed then .ok { s with tmp1 := s.tmp1.commit n }
  else if !s.isChunked then .ok { s with tmp0 := s.tmp0.commit n }
  else if n = 0 then .error .logicError
  else do
    let m := n + chunkHeaderLen
    let (dest, tmp0) ← s.tmp0.prepare m
    let mem ← writeChunkHeader s.mem ((addrs dest).take chunkHeaderLen) n
    writeChunkClose { s with tmp0 := tmp0.commit m, mem }

/-- `stream::close()`: end the body; chunked without content-coding, write the last-chunk. -/
def close (s : Serializer) : Except Fault Serializer :=
  if !s.more then .error .logicError
  else if s.isChunked ∧ !s.isCompressed then
    (writeLastChunk s).map fun s => { s with more := false }
  else .ok { s with more := false }

variable {s s' : Serializer}

theorem prepare_keeps {r} (h : prepare s = .ok r) : Keeps s r.2 ∧ r.2.out = s.out := by
  unfold prepare at h
  split_ifs at h
  all_goals first
    | cases h
    | (obtain ⟨⟨_, _⟩, -, rfl⟩ := map_eq_ok.mp h; exact ⟨rfl, rfl⟩)

theorem commit_keeps {n : Nat} (h : commit s n = .ok s') : Keeps s s' ∧ s'.out = s.out := by
  unfold commit at h
  split at h
  · cases h; exact ⟨rfl, rfl⟩
  split at h
  · cases h; exact ⟨rfl, rfl⟩
  split at h
  · cases h
  · obtain ⟨⟨dest, tmp0⟩, -, h⟩ := bind_eq_ok.mp h
    obtain ⟨mem, hmem, h⟩ := bind_eq_ok.mp h
    obtain ⟨-, rfl⟩ := writeChunkHeader_eq_ok.mp hmem
    have k := appendTmp0_keeps h
    have o := appendTmp0_out h
    exact ⟨k, o⟩

/-- What `stream.close()` does: it refuses a closed stream; chunked without content-coding it
appends the last-chunk; and it lowers `more_`. -/
theorem close_eq_ok (h : close s = .ok s') :
    s.more = true ∧ ((s.isChunked = true ∧ s.isCompressed = false ∧
        ∃ s₁, writeLastChunk s = .ok s₁ ∧ s' = { s₁ with more := false }) ∨
      ((s.isChunked = false ∨ s.isCompressed = true) ∧ s' = { s with more := false })) := by
  unfold close at h
  split_ifs at h with hm hch
  · obtain ⟨s₁, h₁, rfl⟩ := map_eq_ok.mp h
    exact ⟨by simpa using hm, .inl ⟨hch.1, by simpa using hch.2, s₁, h₁, rfl⟩⟩
  · cases h
    refine ⟨by simpa using hm, .inr ⟨?_, rfl⟩⟩
    cases hc : s.isChunked <;> simp_all

/-- Under content-coding `stream.close()` of an open stream lowers `more_` and does nothing
else. -/
theorem close_compressed (hc : s.isCompressed = true) (h : close s = .ok s') :
    s.more = true ∧ s' = { s with more := false } := by
  obtain ⟨hm, ⟨-, hc', -⟩ | ⟨-, rfl⟩⟩ := close_eq_ok h
  · simp [hc] at hc'
  · exact ⟨hm, rfl⟩

theorem close_keeps (h : close s = .ok s') : Keeps s s' ∧ s'.out = s.out := by
  obtain ⟨-, ⟨-, -, s₁, h₁, rfl⟩ | ⟨-, rfl⟩⟩ := close_eq_ok h
  · exact ⟨(appendTmp0_keeps h₁ :), (appendTmp0_out h₁ :)⟩
  · exact ⟨rfl, rfl⟩

end Stream

end Serializer

end HttpProto
