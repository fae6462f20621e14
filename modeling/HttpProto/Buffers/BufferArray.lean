import HttpProto.Buffers.Basic

/-!
# Arrays of descriptors

`out_` and `buf_` are `detail::array_of_const_buffers`: a pointer `p_` into an array carved
from the workspace, and a count `n_` of the descriptors from `p_` on. The type is declared in a
header that is not under src/; the array is kept whole here, with `pos` the distance of `p_`
from its first slot, because the serializer tells whether the header slot is still first by
comparing `out_.data()` with `hp_`, and reads the header slot's size after it was passed over.

Its `consume` is modelled from the spec (§4.2: advance past the first `n` bytes across
descriptors, discarding fully-consumed ones). `consume_buffers`, which src/ defines over the
same pointer and count, is modelled beside it; the two differ in where they stop: the array's
walk stops as soon as the `n` bytes are used up, while `consume_buffers` goes on to discard
the empty descriptors that follow.

## Main results

* `readAll_consume`: consuming `n` bytes drops the first `n` bytes of what the array
  designates
* `consume_eq_error`, `consume_ok`: it faults exactly when `n` exceeds them
* `consume_length_lt`: a `consume` that covers the first descriptor discards it
* `consumeBuffers_spec`: `consume_buffers` faults exactly when asked for more bytes than the
  buffers hold, and otherwise leaves a suffix of them designating the bytes after the first
  `bytes`, the first of them not empty
-/

namespace HttpProto

/-- `detail::array_of_const_buffers`: the array as allocated, and how far `p_` has moved. -/
structure BufferArray where
  slots : List ConstBuffer
  pos : Nat
  deriving DecidableEq, Repr

namespace BufferArray

/-- `make_array(n)`: `n` empty descriptors. -/
def make (n : Nat) : BufferArray := ⟨List.replicate n ConstBuffer.empty, 0⟩

/-- The descriptors from `data()` on, `const_buffers_type(data(), size())`. -/
def data (a : BufferArray) : List ConstBuffer := a.slots.drop a.pos

/-- `empty()`. -/
def empty (a : BufferArray) : Bool := a.data.isEmpty

/-- `a[i] = b`; an index past the end is undefined behaviour. -/
def set (a : BufferArray) (i : Nat) (b : ConstBuffer) : Except Fault BufferArray :=
  if a.pos + i < a.slots.length then .ok { a with slots := a.slots.set (a.pos + i) b }
  else .error .undefined

/-- `for(b : bs) a[i++] = b;` -/
def setFrom (a : BufferArray) : Nat → List ConstBuffer → Except Fault BufferArray
  | _, [] => .ok a
  | i, b :: bs => do
    let a ← a.set i b
    a.setFrom (i + 1) bs

/-- The walk of `consume(n)` over the descriptors from `p_` on: how many it discards, and the
shortened descriptor it stops at, if any. -/
def consumeWalk : List ConstBuffer → Nat → Except Fault (Nat × Option ConstBuffer)
  | [], n => if 0 < n then .error .invalidArgument else .ok (0, none)
  | b :: bs, n =>
    if n < b.size then .ok (0, some (b.advance n))
    else if n - b.size = 0 then .ok (1, none)
    else (consumeWalk bs (n - b.size)).map fun r => (r.1 + 1, r.2)

/-- Modelled from the spec: `array_of_buffers::consume(n)`, absent from src/. The walk
shortens the first descriptor longer than what remains of `n`, discards each one that the
remainder covers, and stops as soon as the remainder reaches zero after a discard; a remainder
left when the descriptors run out is a precondition violation. -/
def consume (a : BufferArray) (n : Nat) : Except Fault BufferArray :=
  (consumeWalk a.data n).map fun
    | (k, none) => { a with pos := a.pos + k }
    | (k, some b) => ⟨a.slots.set (a.pos + k) b, a.pos + k⟩

@[simp] theorem data_make (n : Nat) : (make n).data = List.replicate n ConstBuffer.empty := rfl

/-- The descriptors left by a walk that discarded `k` and stopped at `t`. -/
def rest (bs : List ConstBuffer) : Nat × Option ConstBuffer → List ConstBuffer
  | (k, none) => bs.drop k
  | (k, some b) => b :: bs.drop (k + 1)

theorem consumeWalk_lt {bs : List ConstBuffer} {n k : Nat} {b : ConstBuffer}
    (h : consumeWalk bs n = .ok (k, some b)) : k < bs.length := by
  induction bs, n using consumeWalk.induct generalizing k with
  | case1 n hn => simp [consumeWalk, hn] at h
  | case2 n hn => simp [consumeWalk, hn] at h
  | case3 c cs n hn =>
    simp only [consumeWalk, hn, if_true, Except.ok.injEq, Prod.mk.injEq] at h
    simp [← h.1]
  | case4 c cs n h₁ h₂ => simp [consumeWalk, h₁, h₂] at h
  | case5 c cs n h₁ h₂ ih =>
    simp only [consumeWalk, h₁, h₂, if_false, map_eq_ok] at h
    obtain ⟨⟨k', t⟩, hw, he⟩ := h
    simp only [Prod.mk.injEq] at he
    obtain ⟨rfl, rfl⟩ := he
    simpa using ih hw

theorem data_consume {a a' : BufferArray} {n : Nat} (h : a.consume n = .ok a') :
    ∃ r, consumeWalk a.data n = .ok r ∧ a'.data = rest a.data r := by
  simp only [consume, map_eq_ok] at h
  obtain ⟨⟨k, t⟩, hw, rfl⟩ := h
  refine ⟨_, hw, ?_⟩
  cases t with
  | none => simp [data, rest, List.drop_drop, Nat.add_comm]
  | some b =>
    have hk := consumeWalk_lt hw
    simp only [data, rest, List.length_drop] at hk ⊢
    rw [List.drop_set, if_neg (by omega), Nat.sub_self, ← List.drop_drop,
      List.drop_eq_getElem_cons (by simpa using hk), List.set_cons_zero, List.drop_drop,
      Nat.add_comm]

/-- The walk stops on a shortened descriptor of the sequence. -/
theorem consumeWalk_some {bs : List ConstBuffer} {n k : Nat} {b : ConstBuffer}
    (h : consumeWalk bs n = .ok (k, some b)) : ∃ c ∈ bs, ∃ j, b = c.advance j := by
  induction bs, n using consumeWalk.induct generalizing k with
  | case1 n hn => simp [consumeWalk, hn] at h
  | case2 n hn => simp [consumeWalk, hn] at h
  | case3 c cs n hn =>
    simp only [consumeWalk, hn, if_true, Except.ok.injEq, Prod.mk.injEq, Option.some.injEq] at h
    exact ⟨c, List.mem_cons_self _ _, n, h.2.symm⟩
  | case4 c cs n h₁ h₂ => simp [consumeWalk, h₁, h₂] at h
  | case5 c cs n h₁ h₂ ih =>
    simp only [consumeWalk, h₁, h₂, if_false, map_eq_ok] at h
    obtain ⟨⟨k', t⟩, hw, he⟩ := h
    simp only [Prod.mk.injEq] at he
    obtain ⟨rfl, rfl⟩ := he
    obtain ⟨c', hc', j, rfl⟩ := ih hw
    exact ⟨c', List.mem_cons_of_mem _ hc', j, rfl⟩

/-- What every descriptor has, and keeps when shortened, every descriptor left by a `consume`
has. -/
theorem consume_forall {P : ConstBuffer → Prop} (hP : ∀ c j, P c → P (c.advance j))
    {a a' : BufferArray} {n : Nat} (h : a.consume n = .ok a') (ha : ∀ b ∈ a.data, P b) :
    ∀ b ∈ a'.data, P b := by
  obtain ⟨⟨k, t⟩, hw, he⟩ := data_consume h
  rw [he]
  cases t with
  | none => exact fun b hb => ha b (List.mem_of_mem_drop hb)
  | some b =>
    obtain ⟨c, hc, j, rfl⟩ := consumeWalk_some hw
    intro b' hb'
    rcases List.mem_cons.mp hb' with rfl | hb'
    · exact hP c j (ha c hc)
    · exact ha b' (List.mem_of_mem_drop hb')

/-- Each descriptor designates as many bytes as its size says. -/
def Fits (m : Memory) (bs : List ConstBuffer) : Prop := ∀ b ∈ bs, (m.read b).length = b.size

theorem Fits.cons {m : Memory} {b : ConstBuffer} {bs : List ConstBuffer} :
    Fits m (b :: bs) ↔ (m.read b).length = b.size ∧ Fits m bs := by
  simp [Fits]

theorem read_advance (m : Memory) (b : ConstBuffer) {n : Nat} (hn : n ≤ b.size) :
    m.read (b.advance n) = (m.read b).drop n := by
  obtain ⟨r, p, s⟩ := b
  simp only [ConstBuffer.advance, Memory.read, Nat.min_eq_left hn]
  cases r with
  | header => simp [List.drop_take, List.drop_drop, Nat.add_comm]
  | user i => simp [List.drop_take, List.drop_drop, Nat.add_comm]
  | ws => simp [← List.map_drop, drop_range' _ _ _ hn]

/-- What a walk leaves designates the bytes after the first `n`, and still fits. -/
theorem readAll_rest {m : Memory} {bs : List ConstBuffer} {n : Nat} {r}
    (hf : Fits m bs) (h : consumeWalk bs n = .ok r) :
    m.readAll (rest bs r) = (m.readAll bs).drop n ∧ Fits m (rest bs r) := by
  induction bs, n using consumeWalk.induct generalizing r with
  | case1 n hn => simp [consumeWalk, hn] at h
  | case2 n hn =>
    simp only [consumeWalk, hn, if_false, Except.ok.injEq] at h
    subst h
    simp [rest, Fits]
  | case3 c cs n hn =>
    simp only [consumeWalk, hn, if_true, Except.ok.injEq] at h
    subst h
    rw [Fits.cons] at hf
    have hadv := read_advance m c (Nat.le_of_lt hn)
    refine ⟨by simp [rest, hadv, List.drop_append_of_le_length, hf.1, Nat.le_of_lt hn],
      Fits.cons.mpr ⟨?_, by simpa [rest] using hf.2⟩⟩
    rw [hadv, List.length_drop, hf.1]
    rfl
  | case4 c cs n h₁ h₂ =>
    simp only [consumeWalk, h₁, h₂, if_false, if_true, Except.ok.injEq] at h
    subst h
    rw [Fits.cons] at hf
    exact ⟨by simp [rest, List.drop_append_eq_append_drop, hf.1, show n = c.size by omega],
      by simpa [rest] using hf.2⟩
  | case5 c cs n h₁ h₂ ih =>
    simp only [consumeWalk, h₁, h₂, if_false, map_eq_ok] at h
    obtain ⟨⟨k, t⟩, hw, rfl⟩ := h
    rw [Fits.cons] at hf
    obtain ⟨ih₁, ih₂⟩ := ih hf.2 hw
    have hle : (m.read c).length ≤ n := by rw [hf.1]; omega
    cases t <;> simp_all [rest, List.drop_append_eq_append_drop, hle]

/-- Consuming `n` bytes drops the first `n` bytes the array designates. -/
theorem readAll_consume {m : Memory} {a a' : BufferArray} {n : Nat} (hf : Fits m a.data)
    (h : a.consume n = .ok a') :
    m.readAll a'.data = (m.readAll a.data).drop n ∧ Fits m a'.data := by
  obtain ⟨r, hr, he⟩ := data_consume h
  rw [he]
  exact readAll_rest hf hr

/-- Consuming less than the first descriptor shortens it in place. -/
theorem consume_of_lt {a : BufferArray} {b : ConstBuffer} {bs : List ConstBuffer} {n : Nat}
    (ha : a.data = b :: bs) (hn : n < b.size) :
    a.consume n = .ok ⟨a.slots.set a.pos (b.advance n), a.pos⟩ := by
  simp [consume, ha, consumeWalk, hn]

/-- Consuming exactly the first descriptor discards it and nothing else. -/
theorem consume_of_eq {a : BufferArray} {b : ConstBuffer} {bs : List ConstBuffer}
    (ha : a.data = b :: bs) : a.consume b.size = .ok { a with pos := a.pos + 1 } := by
  simp [consume, ha, consumeWalk]

theorem consume_slots {a a' : BufferArray} {n : Nat} (h : a.consume n = .ok a') :
    a'.slots.length = a.slots.length ∧ a.pos ≤ a'.pos := by
  simp only [consume, map_eq_ok] at h
  obtain ⟨⟨k, _ | b⟩, -, rfl⟩ := h <;> simp

/-- Writing from slot `i` on leaves the length of the array, `p_`, and the slots before. -/
theorem setFrom_frame {a a' : BufferArray} {i : Nat} {bs : List ConstBuffer}
    (h : a.setFrom i bs = .ok a') :
    a'.slots.length = a.slots.length ∧ a'.pos = a.pos ∧
      ∀ k < a.pos + i, a'.slots[k]? = a.slots[k]? := by
  induction bs generalizing a i with
  | nil => cases h; exact ⟨rfl, rfl, fun _ _ => rfl⟩
  | cons b bs ih =>
    obtain ⟨a₁, h₁, h⟩ := bind_eq_ok.mp h
    unfold set at h₁
    split_ifs at h₁ with hlt
    cases h₁
    obtain ⟨hl, hp, hk⟩ := ih h
    refine ⟨by simpa using hl, hp, fun k hk' => ?_⟩
    rw [hk k (by simp only at hp ⊢; omega), List.getElem?_set_ne (by omega)]

/-- A walk that discards nothing stops at the first descriptor, shortened. -/
theorem consumeWalk_zero {bs : List ConstBuffer} {n : Nat} {b : ConstBuffer}
    (h : consumeWalk bs n = .ok (0, some b)) : ∃ c cs, bs = c :: cs ∧ b = c.advance n := by
  match bs with
  | [] => simp only [consumeWalk] at h; split_ifs at h; cases h
  | c :: cs =>
    simp only [consumeWalk] at h
    split_ifs at h
    · cases h; exact ⟨c, cs, rfl, rfl⟩
    · cases h
    · obtain ⟨_, -, h⟩ := map_eq_ok.mp h
      simp at h

/-- While `p_` stays on the first slot, `consume` only shortens that slot from the front. -/
theorem consume_first {a a' : BufferArray} {n : Nat} (h : a.consume n = .ok a') (h0 : a'.pos = 0) :
    a.pos = 0 ∧ (a'.slots.headD .empty).region = (a.slots.headD .empty).region := by
  simp only [consume, map_eq_ok] at h
  obtain ⟨⟨k, _ | b⟩, hw, rfl⟩ := h
  · simp only [Nat.add_eq_zero] at h0
    exact ⟨h0.1, rfl⟩
  · simp only [Nat.add_eq_zero] at h0
    obtain ⟨hp, rfl⟩ := h0
    obtain ⟨c, cs, hd, rfl⟩ := consumeWalk_zero hw
    simp only [data, hp, List.drop_zero] at hd
    simp [hp, hd, ConstBuffer.advance]

/-- A `consume` keeps the number of slots, and the first slot, while `p_` stays on it, keeps
pointing where it did. -/
theorem consume_layout {a a' : BufferArray} {n : Nat} (h : a.consume n = .ok a') :
    a'.slots.length = a.slots.length ∧
      (a'.pos = 0 → a.pos = 0 ∧ (a'.slots.headD .empty).region = (a.slots.headD .empty).region) :=
  ⟨(consume_slots h).1, consume_first h⟩

theorem consumeWalk_eq_error {bs : List ConstBuffer} {n : Nat} {e : Fault}
    (h : consumeWalk bs n = .error e) : bufferSize bs < n := by
  induction bs, n using consumeWalk.induct generalizing e with
  | case1 n hn => simpa using hn
  | case2 n hn => simp [consumeWalk, hn] at h
  | case3 c cs n hn => simp [consumeWalk, hn] at h
  | case4 c cs n h₁ h₂ => simp [consumeWalk, h₁, h₂] at h
  | case5 c cs n h₁ h₂ ih =>
    simp only [consumeWalk, h₁, h₂, if_false] at h
    cases hw : consumeWalk cs (n - c.size) with
    | error e' => have := ih hw; simp; omega
    | ok r => simp [hw, Except.map] at h

/-- The array faults only when asked for more bytes than it designates. -/
theorem consume_eq_error {a : BufferArray} {n : Nat} {e : Fault} (h : a.consume n = .error e) :
    bufferSize a.data < n := by
  unfold consume at h
  cases hw : consumeWalk a.data n with
  | error e' => exact consumeWalk_eq_error hw
  | ok r => simp [hw, Except.map] at h

/-- The array returns whenever asked for no more bytes than it designates. -/
theorem consume_ok {a : BufferArray} {n : Nat} (hn : n ≤ bufferSize a.data) :
    ∃ a', a.consume n = .ok a' := by
  cases h : a.consume n with
  | error e => exact absurd (consume_eq_error h) (Nat.not_lt.mpr hn)
  | ok a' => exact ⟨a', rfl⟩

/-- A `consume` brings no descriptor back. -/
theorem consume_length_le {a a' : BufferArray} {n : Nat} (h : a.consume n = .ok a') :
    a'.data.length ≤ a.data.length := by
  obtain ⟨⟨k, t⟩, hw, he⟩ := data_consume h
  rw [he]
  cases t with
  | none => simp [rest]
  | some b =>
    have := consumeWalk_lt hw
    simp only [rest, List.length_cons, List.length_drop]
    omega

/-- A `consume` that covers the first descriptor discards it. -/
theorem consume_length_lt {a a' : BufferArray} {b : ConstBuffer} {bs : List ConstBuffer} {n : Nat}
    (hdata : a.data = b :: bs) (hn : b.size ≤ n) (h : a.consume n = .ok a') :
    a'.data.length < a.data.length := by
  obtain ⟨r, hw, he⟩ := data_consume h
  rw [he, hdata]
  rw [hdata] at hw
  simp only [consumeWalk, Nat.not_lt.mpr hn, if_false] at hw
  split at hw
  · cases hw
    simp [rest]
  · obtain ⟨⟨k, t⟩, hw', rfl⟩ := map_eq_ok.mp hw
    cases t with
    | none => simp only [rest, List.drop_succ_cons, List.length_drop, List.length_cons]; omega
    | some c =>
      have := consumeWalk_lt hw'
      simp only [rest, List.drop_succ_cons, List.length_drop, List.length_cons]
      omega

end BufferArray

/-- `consume_buffers(p, n, bytes)`: pass over the first `bytes` bytes of the descriptors from
`p`, shortening the first one that is longer than what remains, and discarding the others; a
remainder left when they run out is an invalid argument. -/
def consumeBuffers : List ConstBuffer → Nat → Except Fault (List ConstBuffer)
  | [], bytes => if 0 < bytes then .error .invalidArgument else .ok []
  | b :: bs, bytes => if bytes < b.size then .ok (b.advance bytes :: bs)
    else consumeBuffers bs (bytes - b.size)

/-- `consume_buffers(p, n, bytes)` raises `invalid_argument` exactly when `bytes` exceeds the
buffers' total size. Otherwise what remains is a suffix of the buffers whose first one may be
shortened from the front, and is then not empty; and, when each buffer designates as many bytes
as its size says, the remaining buffers designate the bytes after the first `bytes`. -/
theorem consumeBuffers_spec (bs : List ConstBuffer) (bytes : Nat) :
    if bufferSize bs < bytes then consumeBuffers bs bytes = .error .invalidArgument
    else ∃ r, consumeBuffers bs bytes = .ok r ∧
      (r = [] ∨ ∃ b rest k, b :: rest <:+ bs ∧ k < b.size ∧ r = b.advance k :: rest) ∧
      (∀ b ∈ r.head?, 0 < b.size) ∧
      ∀ m : Memory, BufferArray.Fits m bs → m.readAll r = (m.readAll bs).drop bytes := by
  induction bs, bytes using consumeBuffers.induct with
  | case1 bytes h => simp [consumeBuffers, h]
  | case2 bytes h =>
    obtain rfl : bytes = 0 := by omega
    simp [consumeBuffers]
  | case3 b bs bytes hlt =>
    -- the first buffer is shortened in place
    have hadv : 0 < (b.advance bytes).size := by simp [ConstBuffer.advance]; omega
    rw [if_neg (by simp; omega)]
    refine ⟨_, if_pos hlt, .inr ⟨b, bs, bytes, List.suffix_refl _, hlt, rfl⟩, by simpa using hadv,
      fun m hf => ?_⟩
    rw [BufferArray.Fits.cons] at hf
    rw [Memory.readAll_cons, Memory.readAll_cons, BufferArray.read_advance m b hlt.le,
      List.drop_append_of_le_length (by omega)]
  | case4 b bs bytes hlt ih =>
    -- the first buffer is passed over
    rw [consumeBuffers, if_neg hlt, bufferSize_cons]
    split_ifs at ih ⊢ with h₁ h₂ h₂
    · exact ih
    · omega
    · omega
    · obtain ⟨r, hr, hshape, hhead, hread⟩ := ih
      refine ⟨r, hr, hshape.imp_right fun ⟨c, rest, k, hsuf, hk, he⟩ =>
        ⟨c, rest, k, hsuf.trans (List.suffix_cons _ _), hk, he⟩, hhead, fun m hf => ?_⟩
      rw [BufferArray.Fits.cons] at hf
      have hle : (m.read b).length ≤ bytes := by rw [hf.1]; omega
      rw [hread m hf.2, Memory.readAll_cons, List.drop_append_eq_append_drop,
        List.drop_eq_nil_of_le hle, List.nil_append, hf.1]

end HttpProto
