import HttpProto.Buffers.Basic

/-!
# The circular buffer

`tmp0_` and `tmp1_` are `buffers::circular_buffer`s over slices of the workspace. The type
belongs to Boost.Buffers and is not under src/; it is modelled from the spec (§9: circular
buffers over arena slices, with head, tail and capacity) as that library implements it, down to
the behaviour the serializer relies on: a `consume` that empties the buffer rewinds the read
position to the start of the slice, so that the next `prepare` returns one contiguous piece.

The ring is related to a queue of bytes: its readable bytes are those at `dataAddrs`, and the
next `n` writable ones are at `freeAddrs n`. Every operation is then a list operation on these
addresses, and a write to free addresses never disturbs the readable bytes.

## Main results

* `readAll_data`: the two pieces `data()` returns designate exactly the readable bytes
* `addrs_prepare`: the two pieces `prepare(n)` returns designate the next `n` free bytes
* `dataAddrs_commit`, `dataAddrs_consume`: commit appends free addresses, consume drops
* `contents_store_commit`: writing bytes into prepared space and committing them appends them
-/

namespace HttpProto

/-- Modelled from the spec: `buffers::circular_buffer` (Boost.Buffers), a ring of `cap`
workspace bytes from address `base` holding `inLen` readable bytes from offset `inPos`;
`outSize` is the size the last `prepare` offered. -/
structure CircularBuffer where
  base : Nat
  cap : Nat
  inPos : Nat
  inLen : Nat
  outSize : Nat
  deriving DecidableEq, Repr

namespace CircularBuffer

/-- Modelled from the spec: `circular_buffer(base, capacity)`, empty; `circular_buffer()` is
`ofSlice 0 0`. -/
def ofSlice (base cap : Nat) : CircularBuffer := ⟨base, cap, 0, 0, 0⟩

/-- Modelled from the spec: `size()`, the readable bytes. -/
def size (b : CircularBuffer) : Nat := b.inLen

/-- Modelled from the spec: `capacity()`, the writable bytes. -/
def capacity (b : CircularBuffer) : Nat := b.cap - b.inLen

/-- Modelled from the spec: `data()`, the readable bytes as two pieces, the second empty
unless they wrap past the end of the slice. -/
def data (b : CircularBuffer) : List ConstBuffer :=
  if b.inPos + b.inLen ≤ b.cap then [⟨.ws, b.base + b.inPos, b.inLen⟩, ⟨.ws, b.base, 0⟩]
  else [⟨.ws, b.base + b.inPos, b.cap - b.inPos⟩, ⟨.ws, b.base, b.inLen - (b.cap - b.inPos)⟩]

/-- Modelled from the spec: `prepare(n)`, the next `n` writable bytes as two pieces; a length
error when fewer are free, and a remainder by zero on a buffer of no capacity. -/
def prepare (b : CircularBuffer) (n : Nat) : Except Fault (List MutableBuffer × CircularBuffer) :=
  if b.cap - b.inLen < n then .error .lengthError
  else if b.cap = 0 then .error .undefined
  else
    let pos := (b.inPos + b.inLen) % b.cap
    .ok (if pos + n ≤ b.cap then [⟨b.base + pos, n⟩, ⟨b.base, 0⟩]
      else [⟨b.base + pos, b.cap - pos⟩, ⟨b.base, n - (b.cap - pos)⟩],
      { b with outSize := n })

/-- Modelled from the spec: `commit(n)`, making at most the prepared bytes readable. -/
def commit (b : CircularBuffer) (n : Nat) : CircularBuffer :=
  { b with inLen := b.inLen + (if n < b.outSize then n else b.outSize), outSize := 0 }

/-- Modelled from the spec: `consume(n)`; consuming everything rewinds to the start of the
slice. -/
def consume (b : CircularBuffer) (n : Nat) : CircularBuffer :=
  if n < b.inLen then { b with inPos := (b.inPos + n) % b.cap, inLen := b.inLen - n }
  else { b with inPos := 0, inLen := 0 }

@[simp] theorem size_ofSlice (base cap : Nat) : (ofSlice base cap).size = 0 := rfl

@[simp] theorem capacity_ofSlice (base cap : Nat) : (ofSlice base cap).capacity = cap := by
  simp [ofSlice, capacity]

@[simp] theorem size_commit (b : CircularBuffer) (n : Nat) :
    (b.commit n).size = b.size + min n b.outSize := by
  simp only [commit, size]
  split <;> omega

@[simp] theorem capacity_commit (b : CircularBuffer) (n : Nat) :
    (b.commit n).capacity = b.cap - (b.inLen + min n b.outSize) := by
  simp only [commit, capacity]
  split <;> omega

@[simp] theorem capacity_outSize (b : CircularBuffer) (n : Nat) :
    ({ b with outSize := n } : CircularBuffer).capacity = b.capacity := rfl

theorem capacity_commit_of_le {b : CircularBuffer} {n : Nat} (h : n ≤ b.outSize) :
    (b.commit n).capacity = b.capacity - n := by
  rw [capacity_commit]
  simp only [capacity]
  omega

@[simp] theorem base_consume (b : CircularBuffer) (n : Nat) : (b.consume n).base = b.base := by
  unfold consume; split <;> rfl

@[simp] theorem cap_consume (b : CircularBuffer) (n : Nat) : (b.consume n).cap = b.cap := by
  unfold consume; split <;> rfl

@[simp] theorem size_consume (b : CircularBuffer) (n : Nat) :
    (b.consume n).size = b.size - n := by
  simp only [consume, size]
  split
  · rfl
  · show 0 = _
    omega

theorem prepare_eq_ok {b : CircularBuffer} {n : Nat} {bs : List MutableBuffer}
    {b' : CircularBuffer} (h : b.prepare n = .ok (bs, b')) :
    n ≤ b.capacity ∧ 0 < b.cap ∧ b' = { b with outSize := n } := by
  unfold prepare at h
  split at h
  · cases h
  · split at h
    · cases h
    · cases h
      exact ⟨by simp only [capacity]; omega, by omega, rfl⟩

theorem prepare_ok {b : CircularBuffer} {n : Nat} (hn : n ≤ b.capacity) (hcap : 0 < b.cap) :
    ∃ bs, b.prepare n = .ok (bs, { b with outSize := n }) := by
  simp only [capacity] at hn
  simp only [prepare, show ¬ b.cap - b.inLen < n by omega, if_false, Nat.pos_iff_ne_zero.mp hcap]
  exact ⟨_, rfl⟩

/-! ## Addresses -/

/-- The workspace address of ring offset `j`. -/
def addr (b : CircularBuffer) (j : Nat) : Nat := b.base + j % b.cap

/-- The addresses of the readable bytes, oldest first. -/
def dataAddrs (b : CircularBuffer) : List Nat := (List.range' b.inPos b.inLen).map b.addr

/-- The addresses of the next `n` writable bytes. -/
def freeAddrs (b : CircularBuffer) (n : Nat) : List Nat :=
  (List.range' (b.inPos + b.inLen) n).map b.addr

/-- The readable bytes. -/
def contents (b : CircularBuffer) (f : Nat → Byte) : List Byte := b.dataAddrs.map f

/-- A well-formed ring: the read position lies in the slice, the readable bytes fit, and the
last `prepare` offered no more than was free. -/
structure Valid (b : CircularBuffer) : Prop where
  inPos_lt : b.inPos < b.cap ∨ b.inPos = 0
  inLen_le : b.inLen ≤ b.cap
  outSize_le : b.outSize ≤ b.cap - b.inLen

@[simp] theorem dataAddrs_outSize (b : CircularBuffer) (n : Nat) :
    ({ b with outSize := n } : CircularBuffer).dataAddrs = b.dataAddrs := rfl

@[simp] theorem contents_outSize (b : CircularBuffer) (n : Nat) (f : Nat → Byte) :
    ({ b with outSize := n } : CircularBuffer).contents f = b.contents f := rfl

@[simp] theorem freeAddrs_outSize (b : CircularBuffer) (n k : Nat) :
    ({ b with outSize := n } : CircularBuffer).freeAddrs k = b.freeAddrs k := rfl

theorem valid_ofSlice (base cap : Nat) : (ofSlice base cap).Valid :=
  ⟨by simp [ofSlice], by simp [ofSlice], by simp [ofSlice]⟩

@[simp] theorem length_dataAddrs (b : CircularBuffer) : b.dataAddrs.length = b.inLen := by
  simp [dataAddrs]

@[simp] theorem length_freeAddrs (b : CircularBuffer) (n : Nat) : (b.freeAddrs n).length = n := by
  simp [freeAddrs]

/-- Offsets can be taken modulo the capacity. -/
theorem map_addr_range'_mod (b : CircularBuffer) (x n : Nat) :
    (List.range' (x % b.cap) n).map b.addr = (List.range' x n).map b.addr := by
  simp only [List.range'_eq_map_range, List.map_map]
  exact List.map_congr_left fun i _ => by simp [addr, Function.comp, Nat.mod_add_mod]

/-- Offsets below the capacity are addresses in place. -/
theorem map_addr_range'_of_le (b : CircularBuffer) {s n : Nat} (h : s + n ≤ b.cap) :
    (List.range' s n).map b.addr = List.range' (b.base + s) n := by
  rw [← List.map_add_range']
  exact List.map_congr_left fun j hj => by
    rw [List.mem_range'_1] at hj
    simp [addr, Nat.mod_eq_of_lt (show j < b.cap by omega)]

/-- A window of at most `cap` offsets from `s < cap` is at most two runs of addresses. -/
theorem map_addr_range' (b : CircularBuffer) {s n : Nat} (hs : s < b.cap) (hn : n ≤ b.cap) :
    (List.range' s n).map b.addr =
      if s + n ≤ b.cap then List.range' (b.base + s) n
      else List.range' (b.base + s) (b.cap - s) ++ List.range' b.base (n - (b.cap - s)) := by
  split
  · exact map_addr_range'_of_le b ‹_›
  · have hsplit := range'_split s n (b.cap - s) (by omega)
    rw [Nat.add_sub_cancel' hs.le] at hsplit
    have hwrap : (List.range' b.cap (n - (b.cap - s))).map b.addr =
        List.range' b.base (n - (b.cap - s)) := by
      rw [← map_addr_range'_mod, Nat.mod_self, map_addr_range'_of_le b (by omega), Nat.add_zero]
    rw [hsplit, List.map_append, map_addr_range'_of_le b (by omega), hwrap]

/-! ### The slice -/

theorem base_le_of_mem_freeAddrs {b : CircularBuffer} {n q : Nat} (h : q ∈ b.freeAddrs n) :
    b.base ≤ q := by
  obtain ⟨j, -, rfl⟩ := List.mem_map.mp h
  exact Nat.le_add_right _ _

/-- The readable bytes of a well-formed ring lie below the end of its slice. -/
theorem lt_of_mem_dataAddrs {b : CircularBuffer} (hb : b.Valid) {q : Nat} (h : q ∈ b.dataAddrs) :
    q < b.base + b.cap := by
  obtain ⟨j, hj, rfl⟩ := List.mem_map.mp h
  have hcap : 0 < b.cap := by
    have := hb.inLen_le
    rw [List.mem_range'_1] at hj
    omega
  exact Nat.add_lt_add_left (Nat.mod_lt _ hcap) _

theorem base_le_of_mem_dataAddrs {b : CircularBuffer} {q : Nat} (h : q ∈ b.dataAddrs) :
    b.base ≤ q := by
  obtain ⟨j, -, rfl⟩ := List.mem_map.mp h
  exact Nat.le_add_right _ _

/-- The free space a ring offers lies in its slice. -/
theorem lt_of_mem_freeAddrs_capacity {b : CircularBuffer} {q : Nat}
    (h : q ∈ b.freeAddrs b.capacity) : q < b.base + b.cap := by
  obtain ⟨j, hj, rfl⟩ := List.mem_map.mp h
  have hcap : 0 < b.cap := by
    rw [List.mem_range'_1, capacity] at hj
    omega
  exact Nat.add_lt_add_left (Nat.mod_lt _ hcap) _

/-- The readable bytes of a well-formed ring read only the bytes of its slice. -/
theorem contents_congr {b : CircularBuffer} (hb : b.Valid) {f g : Nat → Byte}
    (h : ∀ q, b.base ≤ q → q < b.base + b.cap → g q = f q) : b.contents g = b.contents f :=
  List.map_congr_left fun _ hq => h _ (base_le_of_mem_dataAddrs hq) (lt_of_mem_dataAddrs hb hq)

theorem readAll_data (b : CircularBuffer) (hb : b.Valid) (m : Memory) :
    m.readAll b.data = b.contents m.ws := by
  have hpos : b.inPos + b.inLen ≤ b.cap ∨ b.inPos < b.cap := by
    rcases hb.inPos_lt with h | h
    · exact .inr h
    · exact .inl (by have := hb.inLen_le; omega)
  simp only [contents, dataAddrs, data]
  split
  · rw [map_addr_range'_of_le b ‹_›]
    simp [Memory.read]
  · rw [map_addr_range' b (hpos.resolve_left ‹_›) hb.inLen_le, if_neg ‹_›]
    simp [Memory.read]

theorem addrs_prepare {b : CircularBuffer} {n : Nat} {bs : List MutableBuffer}
    {b' : CircularBuffer} (hb : b.Valid) (h : b.prepare n = .ok (bs, b')) :
    addrs bs = b.freeAddrs n := by
  obtain ⟨hn, hcap, -⟩ := prepare_eq_ok h
  simp only [capacity] at hn
  unfold prepare at h
  simp only [show ¬ b.cap - b.inLen < n by omega, Nat.pos_iff_ne_zero.mp hcap, if_false] at h
  cases h
  rw [freeAddrs, ← map_addr_range'_mod,
    map_addr_range' b (Nat.mod_lt _ hcap) (by have := hb.inLen_le; omega)]
  split <;> simp [addrs]

/-! ## Operations on addresses -/

theorem dataAddrs_commit (b : CircularBuffer) (n : Nat) :
    (b.commit n).dataAddrs = b.dataAddrs ++ b.freeAddrs (min n b.outSize) := by
  simp only [dataAddrs, freeAddrs, commit, addr, ← List.map_append, List.range'_append_1]
  congr 2
  split <;> omega

theorem dataAddrs_consume (b : CircularBuffer) (hb : b.Valid) (n : Nat) :
    (b.consume n).dataAddrs = b.dataAddrs.drop n := by
  unfold consume
  split
  · have hcap : 0 < b.cap := by have := hb.inLen_le; omega
    simp only [dataAddrs]
    rw [← List.map_drop, drop_range' _ _ _ (by omega)]
    exact map_addr_range'_mod { b with inPos := (b.inPos + n) % b.cap, inLen := b.inLen - n } _ _
  · rw [List.drop_eq_nil_of_le (by simp; omega)]
    simp [dataAddrs]

theorem contents_consume (b : CircularBuffer) (hb : b.Valid) (n : Nat) (f : Nat → Byte) :
    (b.consume n).contents f = (b.contents f).drop n := by
  rw [contents, dataAddrs_consume b hb, List.map_drop, contents]

@[simp] theorem length_contents (b : CircularBuffer) (f : Nat → Byte) :
    (b.contents f).length = b.size := by
  simp [contents, size]

theorem take_freeAddrs (b : CircularBuffer) {k n : Nat} (hk : k ≤ n) :
    (b.freeAddrs n).take k = b.freeAddrs k := by
  simp [freeAddrs, ← List.map_take, take_range' _ _ _ hk]

/-- Offsets in a window of `cap` have distinct addresses. -/
theorem addr_injOn (b : CircularBuffer) {s j k : Nat} (hj : s ≤ j) (hk : s ≤ k)
    (hj' : j < s + b.cap) (hk' : k < s + b.cap) (h : b.addr j = b.addr k) : j = k := by
  have hmod : j % b.cap = k % b.cap := by simpa [addr] using h
  rcases Nat.lt_trichotomy j k with hlt | heq | hgt
  · have := Nat.eq_zero_of_dvd_of_lt
      (Nat.dvd_of_mod_eq_zero (Nat.sub_mod_eq_zero_of_mod_eq hmod.symm)) (show k - j < b.cap by omega)
    omega
  · exact heq
  · have := Nat.eq_zero_of_dvd_of_lt
      (Nat.dvd_of_mod_eq_zero (Nat.sub_mod_eq_zero_of_mod_eq hmod)) (show j - k < b.cap by omega)
    omega

/-- The readable bytes and the next `n ≤ capacity` free ones are all distinct. -/
theorem nodup_dataAddrs_append_freeAddrs (b : CircularBuffer) {n : Nat}
    (hn : b.inLen + n ≤ b.cap) : (b.dataAddrs ++ b.freeAddrs n).Nodup := by
  rw [dataAddrs, freeAddrs, ← List.map_append, List.range'_append_1]
  refine (List.nodup_range' _ _).map_on fun j hj k hk => ?_
  rw [List.mem_range'_1] at hj hk
  exact b.addr_injOn hj.1 hk.1 (by omega) (by omega)

theorem Valid.nodup_dataAddrs {b : CircularBuffer} (hb : b.Valid) : b.dataAddrs.Nodup := by
  simpa [freeAddrs] using @nodup_dataAddrs_append_freeAddrs b 0 (by simpa using hb.inLen_le)

/-- A copy into free bytes leaves the readable ones alone. -/
theorem contents_of_store (b : CircularBuffer) (f : Nat → Byte) (bs : List Byte) {n : Nat}
    {ps : List Nat} (hn : b.inLen + n ≤ b.cap) (hps : ∀ q ∈ ps, q ∈ b.freeAddrs n) :
    b.contents (fun q => storeAt f q ps bs) = b.contents f := by
  have hnd := b.nodup_dataAddrs_append_freeAddrs hn
  rw [List.nodup_append] at hnd
  exact map_storeAt_of_not_mem fun q hq hq' => hnd.2.2 hq (hps q hq')

/-- Writing `bs` into the prepared space and committing it appends `bs` to the readable
bytes. -/
theorem contents_store_commit (b : CircularBuffer) (f : Nat → Byte) (bs : List Byte) {n : Nat}
    (hn : b.inLen + n ≤ b.cap) (hbs : bs.length ≤ n) :
    ({ b with outSize := n }.commit bs.length).contents (fun q => storeAt f q (b.freeAddrs n) bs) =
      b.contents f ++ bs := by
  have hnd := b.nodup_dataAddrs_append_freeAddrs hn
  have hdata : ({ b with outSize := n }.commit bs.length).dataAddrs =
      b.dataAddrs ++ (b.freeAddrs n).take bs.length := by
    rw [dataAddrs_commit, take_freeAddrs b hbs, Nat.min_eq_left hbs]
    rfl
  rw [contents, hdata, List.map_append, map_storeAt_take (hnd.sublist (List.sublist_append_right _ _))
    (by simpa using hbs)]
  rw [← contents_of_store b f bs hn fun _ h => h]
  rfl

/-- A commit makes readable the same bytes whatever the last `prepare` offered beyond them. -/
theorem commit_outSize (b : CircularBuffer) {k n n' : Nat} (hn : k ≤ n) (hn' : k ≤ n') :
    { b with outSize := n }.commit k = { b with outSize := n' }.commit k := by
  simp only [commit, CircularBuffer.mk.injEq, and_true, true_and]
  split <;> split <;> omega

/-- The write position, as an offset in the slice. -/
def wpos (b : CircularBuffer) : Nat := (b.inPos + b.inLen) % b.cap

/-- The first piece `prepare(n)` offers runs from the write position to the end of the slice
at most; it is empty only for `n = 0`. -/
theorem firstPiece_prepare {b b' : CircularBuffer} {n : Nat} {bs : List MutableBuffer}
    (h : b.prepare n = .ok (bs, b')) :
    (firstPiece MutableBuffer.size .empty bs).size = min n (b.cap - b.wpos) ∧
      (0 < n → (firstPiece MutableBuffer.size .empty bs).pos = b.base + b.wpos) := by
  obtain ⟨hle, hcap, -⟩ := prepare_eq_ok h
  have hlt : b.wpos < b.cap := Nat.mod_lt _ hcap
  simp only [capacity] at hle
  have hw : (b.inPos + b.inLen) % b.cap = b.wpos := rfl
  simp only [prepare, show ¬b.cap - b.inLen < n by omega, Nat.pos_iff_ne_zero.mp hcap,
    if_false, hw] at h
  split at h <;> cases h
  · -- one piece, empty only when nothing is asked for
    by_cases hn : n = 0
    · simp [firstPiece, hn]
    · simp only [firstPiece, hn, if_false, implies_true, and_true]
      omega
  · -- two pieces, the first up to the end of the slice
    simp only [firstPiece, show b.cap - b.wpos ≠ 0 by omega, if_false, implies_true, and_true]
    omega

/-- Within the first run, the next free bytes are the addresses from the write position. -/
theorem freeAddrs_eq_range' (b : CircularBuffer) {k : Nat} (hcap : 0 < b.cap)
    (hk : k ≤ b.cap - b.wpos) : b.freeAddrs k = List.range' (b.base + b.wpos) k := by
  have : b.wpos < b.cap := Nat.mod_lt _ hcap
  rw [freeAddrs, ← map_addr_range'_mod, map_addr_range'_of_le b (by rw [← wpos]; omega), wpos]

/-- `b'` is `b` with `k` more readable bytes: the same slice and read position. -/
structure Grows (b b' : CircularBuffer) (k : Nat) : Prop where
  base : b'.base = b.base
  cap : b'.cap = b.cap
  inPos : b'.inPos = b.inPos
  inLen : b'.inLen = b.inLen + k

theorem Grows.refl (b : CircularBuffer) (n : Nat) : Grows b { b with outSize := n } 0 :=
  ⟨rfl, rfl, rfl, rfl⟩

theorem Grows.trans {b b' b'' : CircularBuffer} {k k' : Nat} (h : Grows b b' k)
    (h' : Grows b' b'' k') : Grows b b'' (k + k') :=
  ⟨h'.base.trans h.base, h'.cap.trans h.cap, h'.inPos.trans h.inPos, by
    rw [h'.inLen, h.inLen, Nat.add_assoc]⟩

theorem grows_commit (b : CircularBuffer) {k n : Nat} (hk : k ≤ n) :
    Grows b ({ b with outSize := n }.commit k) k :=
  ⟨rfl, rfl, rfl, by simp only [commit]; split <;> omega⟩

/-- The readable bytes of a grown ring: the old ones, then the next `k` free ones. -/
theorem Grows.dataAddrs {b b' : CircularBuffer} {k : Nat} (h : Grows b b' k) :
    b'.dataAddrs = b.dataAddrs ++ b.freeAddrs k := by
  have haddr : b'.addr = b.addr := funext fun j => by simp only [addr, h.base, h.cap]
  rw [CircularBuffer.dataAddrs, CircularBuffer.dataAddrs, freeAddrs, haddr, h.inPos, h.inLen,
    ← List.map_append, List.range'_append_1, Nat.add_comm k]

/-! ## Validity is kept -/

theorem Valid.commit {b : CircularBuffer} (hb : b.Valid) (n : Nat) : (b.commit n).Valid := by
  obtain ⟨h1, h2, h3⟩ := hb
  refine ⟨h1, ?_, by simp [CircularBuffer.commit]⟩
  simp only [CircularBuffer.commit]
  split <;> omega

theorem Valid.consume {b : CircularBuffer} (hb : b.Valid) (n : Nat) : (b.consume n).Valid := by
  obtain ⟨h1, h2, h3⟩ := hb
  unfold CircularBuffer.consume
  split
  · exact ⟨.inl (Nat.mod_lt _ (by omega)), by simp; omega, by simp; omega⟩
  · exact ⟨.inr rfl, by simp, by simp; omega⟩

theorem Valid.prepare {b b' : CircularBuffer} {n : Nat} {bs : List MutableBuffer} (hb : b.Valid)
    (h : b.prepare n = .ok (bs, b')) : b'.Valid := by
  obtain ⟨hn, -, rfl⟩ := prepare_eq_ok h
  exact ⟨hb.inPos_lt, hb.inLen_le, hn⟩

/-! ## Growth and rewinding -/

/-- A commit of at most `k` bytes after a `prepare(n)` grows the ring by what it commits. -/
theorem grows_commit_min (b : CircularBuffer) (n k : Nat) :
    Grows b ({ b with outSize := n }.commit k) (min k n) :=
  ⟨rfl, rfl, rfl, by simp only [commit]; split <;> omega⟩

theorem Grows.self (b : CircularBuffer) : Grows b b 0 := ⟨rfl, rfl, rfl, rfl⟩

/-- A ring that only grows keeps its read position at the start of the slice while empty. -/
theorem Grows.rewound {b b' : CircularBuffer} {k : Nat} (h : Grows b b' k)
    (hr : b.size = 0 → b.inPos = 0) : b'.size = 0 → b'.inPos = 0 := fun h0 => by
  simp only [size, h.inLen] at h0 hr
  rw [h.inPos]
  exact hr (by omega)

theorem Grows.capacity {b b' : CircularBuffer} {k : Nat} (h : Grows b b' k) :
    b'.capacity = b.capacity - k := by
  simp only [CircularBuffer.capacity, h.cap, h.inLen]
  omega

/-- A drain rewinds the ring; a partial consume leaves bytes in it. -/
theorem consume_rewound (b : CircularBuffer) (n : Nat) :
    (b.consume n).size = 0 → (b.consume n).inPos = 0 := by
  unfold CircularBuffer.consume
  split
  · simp only [size]; omega
  · intro; rfl

/-- The two pieces `prepare(n)` offers hold `n` addresses, whatever the ring. -/
theorem length_addrs_prepare {b b' : CircularBuffer} {n : Nat} {bs : List MutableBuffer}
    (h : b.prepare n = .ok (bs, b')) : (addrs bs).length = n := by
  unfold prepare at h
  split_ifs at h
  cases h
  split
  · simp [addrs]
  · simp [addrs]; omega

theorem capacity_consume_ge (b : CircularBuffer) (n : Nat) : b.capacity ≤ (b.consume n).capacity := by
  unfold CircularBuffer.consume
  split <;> simp only [CircularBuffer.capacity] <;> omega

end CircularBuffer

end HttpProto
