import Mathlib.Data.List.Nodup

/-!
# Bytes, buffers and the memory they designate

The serializer never copies body bytes: it hands out descriptors that point into the header
producer's storage, into the caller's own body buffers, or into its workspace. A descriptor is
a region, an offset and a length; a mutable buffer sequence is used only to write into the
workspace, so it is taken as the workspace addresses it designates, in order.

## Main definitions

* `ConstBuffer`, `MutableBuffer`: `buffers::const_buffer` and `buffers::mutable_buffer`
* `Memory.read`, `Memory.store`: the bytes a descriptor designates, and `buffer_copy` into the
  workspace
* `Fault`: what a call can end in besides returning

## Main results

* `map_storeAt_of_not_mem`: a copy leaves the bytes at other addresses alone
* `map_storeAt_take`: after a copy, its destination holds what was copied
-/

namespace HttpProto

/-! ## Inverting fallible calls -/

@[simp] theorem map_eq_ok {ε α β : Type} {e : Except ε α} {f : α → β} {b : β} :
    e.map f = .ok b ↔ ∃ a, e = .ok a ∧ f a = b := by
  cases e <;> simp [Except.map]

@[simp] theorem bind_eq_ok {ε α β : Type} {e : Except ε α} {f : α → Except ε β} {b : β} :
    e >>= f = .ok b ↔ ∃ a, e = .ok a ∧ f a = .ok b := by
  cases e <;> simp [bind, Except.bind]

@[simp] theorem map_eq_error {ε α β : Type} {e : Except ε α} {f : α → β} {x : ε} :
    e.map f = .error x ↔ e = .error x := by
  cases e <;> simp [Except.map]

@[simp] theorem toOption_eq_some {ε α : Type} {e : Except ε α} {a : α} :
    e.toOption = some a ↔ e = .ok a := by
  cases e <;> simp [Except.toOption]

/-- An octet of the wire. -/
abbrev Byte := UInt8

/-- `\r\n`. -/
def crlf : List Byte := [13, 10]

/-- The last-chunk `0\r\n\r\n`. -/
def lastChunk : List Byte := [48, 13, 10, 13, 10]

/-- What a C++ call can end in besides returning: the exceptions `detail::throw_logic_error`,
`throw_invalid_argument` and `throw_length_error` raise, a failed `BOOST_ASSERT`, and behaviour
the language leaves undefined (an index past an array's end, a remainder by zero). -/
inductive Fault where
  | logicError
  | invalidArgument
  | lengthError
  | assertion
  | undefined
  deriving DecidableEq, Repr

/-- The storage a descriptor points into. -/
inductive Region where
  /-- the header producer's bytes, `m.ph_->cbuf` -/
  | header
  /-- the `i`-th of the caller's body buffers -/
  | user (i : Nat)
  /-- the serializer's workspace -/
  | ws
  deriving DecidableEq, Repr

/-- `buffers::const_buffer`: `size` bytes of `region` from offset `pos`. -/
structure ConstBuffer where
  region : Region
  pos : Nat
  size : Nat
  deriving DecidableEq, Repr

/-- `buffers::const_buffer{}`: a null pointer and no bytes. -/
def ConstBuffer.empty : ConstBuffer := ⟨.ws, 0, 0⟩

/-- `const_buffer::operator+=`: skip the first `n` bytes, all of them when `n` is larger. -/
def ConstBuffer.advance (b : ConstBuffer) (n : Nat) : ConstBuffer :=
  ⟨b.region, b.pos + min n b.size, b.size - n⟩

/-- `buffers::mutable_buffer` into the workspace: `size` bytes from address `pos`. -/
structure MutableBuffer where
  pos : Nat
  size : Nat
  deriving DecidableEq, Repr

/-- `buffers::mutable_buffer{}`. -/
def MutableBuffer.empty : MutableBuffer := ⟨0, 0⟩

/-- The workspace addresses of a mutable buffer sequence, in order. -/
def addrs (bs : List MutableBuffer) : List Nat :=
  bs.flatMap fun b => List.range' b.pos b.size

/-- `*mbs.begin()`, or the second buffer of the pair when the first is empty: how the
serializer takes one contiguous buffer out of a buffer pair. -/
def firstPiece {α : Type} (size : α → Nat) (dflt : α) : List α → α
  | b :: rest => if size b = 0 then rest.headD dflt else b
  | [] => dflt

/-- `buffers::buffer_size` of a const buffer sequence. -/
def bufferSize : List ConstBuffer → Nat
  | [] => 0
  | b :: bs => b.size + bufferSize bs

@[simp] theorem bufferSize_nil : bufferSize [] = 0 := rfl

@[simp] theorem bufferSize_cons (b : ConstBuffer) (bs : List ConstBuffer) :
    bufferSize (b :: bs) = b.size + bufferSize bs := rfl

@[simp] theorem bufferSize_append (bs cs : List ConstBuffer) :
    bufferSize (bs ++ cs) = bufferSize bs + bufferSize cs := by
  induction bs with
  | nil => simp
  | cons b bs ih => simp [ih, Nat.add_assoc]

theorem range'_split (s n k : Nat) (hk : k ≤ n) :
    List.range' s n = List.range' s k ++ List.range' (s + k) (n - k) := by
  rw [List.range'_append_1, Nat.sub_add_cancel hk]

theorem take_range' (s n k : Nat) (hk : k ≤ n) :
    (List.range' s n).take k = List.range' s k := by
  rw [range'_split s n k hk, List.take_left' (by simp)]

theorem drop_range' (s n k : Nat) (hk : k ≤ n) :
    (List.range' s n).drop k = List.range' (s + k) (n - k) := by
  rw [range'_split s n k hk, List.drop_left' (by simp)]

/-- The byte at address `q` after `buffer_copy` of `src` into the workspace bytes `f` at the
addresses `ps`: as many bytes as both have, in order. -/
def storeAt (f : Nat → Byte) (q : Nat) : List Nat → List Byte → Byte
  | p :: ps, b :: bs => if q = p then b else storeAt f q ps bs
  | _, _ => f q

@[simp] theorem storeAt_nil (f : Nat → Byte) (q : Nat) (ps : List Nat) : storeAt f q ps [] = f q := by
  cases ps <;> rfl

theorem storeAt_of_not_mem {f : Nat → Byte} {q : Nat} :
    ∀ {ps : List Nat} {bs : List Byte}, q ∉ ps → storeAt f q ps bs = f q
  | [], _, _ => rfl
  | _ :: _, [], _ => rfl
  | _ :: _, _ :: _, h => by
    simp only [List.mem_cons, not_or] at h
    simp only [storeAt, if_neg h.1, storeAt_of_not_mem h.2]

theorem map_storeAt_of_not_mem {f : Nat → Byte} {ps qs : List Nat} {bs : List Byte}
    (h : ∀ q ∈ qs, q ∉ ps) : qs.map (fun q => storeAt f q ps bs) = qs.map f :=
  List.map_congr_left fun q hq => storeAt_of_not_mem (h q hq)

/-- A copy writes no further than the shorter of destination and source. -/
theorem storeAt_take (f : Nat → Byte) (q : Nat) :
    ∀ (ps : List Nat) (bs : List Byte), storeAt f q (ps.take bs.length) bs = storeAt f q ps bs
  | [], _ => by simp
  | _ :: _, [] => rfl
  | p :: ps, _ :: bs => by
    simp only [List.length_cons, List.take_succ_cons, storeAt, storeAt_take f q ps bs]

theorem map_storeAt_self {f : Nat → Byte} :
    ∀ {ps : List Nat} {bs : List Byte}, ps.Nodup → bs.length = ps.length →
      ps.map (fun q => storeAt f q ps bs) = bs
  | [], [], _, _ => rfl
  | p :: ps, b :: bs, hnd, hlen => by
    rw [List.nodup_cons] at hnd
    have hrest : ps.map (fun q => storeAt f q (p :: ps) (b :: bs)) = bs :=
      calc ps.map (fun q => storeAt f q (p :: ps) (b :: bs))
          = ps.map (fun q => storeAt f q ps bs) :=
            List.map_congr_left fun q hq => if_neg fun h : q = p => hnd.1 (h ▸ hq)
        _ = bs := map_storeAt_self hnd.2 (by simpa using hlen)
    simp only [List.map_cons, hrest]
    simp [storeAt]

/-- After a copy, the first bytes of the destination hold the source. -/
theorem map_storeAt_take {f : Nat → Byte} {ps : List Nat} {bs : List Byte}
    (hnd : ps.Nodup) (hle : bs.length ≤ ps.length) :
    (ps.take bs.length).map (fun q => storeAt f q ps bs) = bs := by
  simp only [← storeAt_take f _ ps bs]
  exact map_storeAt_self (hnd.sublist (List.take_sublist _ _)) (by simp [hle])

/-- Overwriting the front of a run of distinct addresses. -/
theorem map_storeAt_append {f : Nat → Byte} {ps ys : List Nat} {bs : List Byte}
    (hnd : (ps ++ ys).Nodup) (hlen : bs.length = ps.length) :
    (ps ++ ys).map (fun q => storeAt f q ps bs) = bs ++ ys.map f := by
  rw [List.map_append, map_storeAt_self (hnd.sublist (List.sublist_append_left _ _)) hlen,
    map_storeAt_of_not_mem fun q hq hq' => (List.nodup_append.mp hnd).2.2 hq' hq]

/-- Two copies, the later one to the front addresses, are one copy of both sources. -/
theorem storeAt_append (f : Nat → Byte) (q : Nat) {ps : List Nat} {bs : List Byte}
    (ps' : List Nat) (bs' : List Byte) (hlen : ps.length = bs.length) :
    storeAt f q (ps ++ ps') (bs ++ bs') = storeAt (fun q => storeAt f q ps' bs') q ps bs := by
  induction ps generalizing bs with
  | nil =>
    obtain rfl := List.eq_nil_of_length_eq_zero hlen.symm
    rfl
  | cons p ps ih =>
    cases bs with
    | nil => simp at hlen
    | cons b bs => simp only [List.cons_append, storeAt, List.append_eq, ih (Nat.succ.inj hlen)]

/-- The bytes the serializer's descriptors can point to. -/
structure Memory where
  header : List Byte
  user : List (List Byte)
  ws : Nat → Byte

namespace Memory

/-- The bytes a descriptor designates. -/
def read (m : Memory) (b : ConstBuffer) : List Byte :=
  match b.region with
  | .header => (m.header.drop b.pos).take b.size
  | .user i => ((m.user.getD i []).drop b.pos).take b.size
  | .ws => (List.range' b.pos b.size).map m.ws

/-- The bytes of a const buffer sequence, concatenated. -/
def readAll (m : Memory) (bs : List ConstBuffer) : List Byte := bs.flatMap m.read

/-- `buffer_copy` of `src` into the workspace at the addresses `ps`. -/
def store (m : Memory) (ps : List Nat) (src : List Byte) : Memory :=
  { m with ws := fun q => storeAt m.ws q ps src }

@[simp] theorem readAll_nil (m : Memory) : m.readAll [] = [] := rfl

@[simp] theorem readAll_cons (m : Memory) (b : ConstBuffer) (bs : List ConstBuffer) :
    m.readAll (b :: bs) = m.read b ++ m.readAll bs := rfl

@[simp] theorem readAll_append (m : Memory) (bs cs : List ConstBuffer) :
    m.readAll (bs ++ cs) = m.readAll bs ++ m.readAll cs := by
  simp [readAll]

@[simp] theorem store_header (m : Memory) (ps : List Nat) (src : List Byte) :
    (m.store ps src).header = m.header := rfl

@[simp] theorem store_user (m : Memory) (ps : List Nat) (src : List Byte) :
    (m.store ps src).user = m.user := rfl

@[simp] theorem store_ws (m : Memory) (ps : List Nat) (src : List Byte) :
    (m.store ps src).ws = fun q => storeAt m.ws q ps src := rfl

@[simp] theorem read_header (m : Memory) (p n : Nat) :
    m.read ⟨.header, p, n⟩ = (m.header.drop p).take n := by
  simp [read]

@[simp] theorem read_user (m : Memory) (i p n : Nat) :
    m.read ⟨.user i, p, n⟩ = ((m.user.getD i []).drop p).take n := by
  simp [read]

@[simp] theorem read_ws (m : Memory) (p n : Nat) :
    m.read ⟨.ws, p, n⟩ = (List.range' p n).map m.ws := by
  simp [read]

/-- `m'` is `m` with, at most, other workspace bytes from address `lo` on. -/
def AgreeBelow (lo : Nat) (m m' : Memory) : Prop :=
  m'.header = m.header ∧ m'.user = m.user ∧ ∀ q < lo, m'.ws q = m.ws q

theorem AgreeBelow.refl (lo : Nat) (m : Memory) : m.AgreeBelow lo m :=
  ⟨rfl, rfl, fun _ _ => rfl⟩

theorem AgreeBelow.trans {lo : Nat} {m m' m'' : Memory} (h : m.AgreeBelow lo m')
    (h' : m'.AgreeBelow lo m'') : m.AgreeBelow lo m'' :=
  ⟨h'.1.trans h.1, h'.2.1.trans h.2.1, fun q hq => (h'.2.2 q hq).trans (h.2.2 q hq)⟩

/-- A copy to addresses from `lo` on. -/
theorem agreeBelow_store {lo : Nat} (m : Memory) {ps : List Nat} (bs : List Byte)
    (hps : ∀ q ∈ ps, lo ≤ q) : m.AgreeBelow lo (m.store ps bs) :=
  ⟨rfl, rfl, fun _ hq => storeAt_of_not_mem fun hmem => by have := hps _ hmem; omega⟩

/-- Outside the workspace a descriptor reads the same bytes. -/
theorem read_of_agreeBelow {lo : Nat} {m m' : Memory} (h : m.AgreeBelow lo m') {b : ConstBuffer}
    (hb : b.region ≠ .ws) : m'.read b = m.read b := by
  obtain ⟨r, p, n⟩ := b
  cases r with
  | header => simp [read, h.1]
  | user i => simp [read, h.2.1]
  | ws => exact absurd rfl hb

end Memory

end HttpProto
