import Mathlib.Algebra.Group.Nat.Basic
import HttpProto.Buffers.Basic

/-!
# Chunk framing

The serializer frames a chunked body as §6 of the spec gives it: each chunk is a size line of
sixteen uppercase hexadecimal digits and CRLF, the chunk's bytes, and CRLF; the body ends with
the last-chunk `0\r\n\r\n`. The fixed width lets the serializer reserve a chunk's size line
before it knows the size, and write it afterwards.

## Main definitions

* `writeChunkHeader`: `write_chunk_header`, the sixteen-step nibble loop
* `sizeLine`, `chunked`: the wire format of §6, from the spec's words
* `hexValue`: how a decoder reads the digits of a size line, from the spec's words
* `Framed`: a message with its body, identity-framed or chunked

## Main results

* `chunkHeaderBytes_eq_sizeLine`: the loop renders the size line of §6
* `writeChunkHeader_size_line`: for every 64-bit size, eighteen bytes written, whose digits
  read back as the size
-/

namespace HttpProto

/-- Modelled from the spec: `chunk_header_len_` (declared in serializer.hpp, absent from
src/), §4.3. -/
def chunkHeaderLen : Nat := 18

/-- Modelled from the spec: `crlf_len_`, §4.3. -/
def crlfLen : Nat := 2

/-- Modelled from the spec: `last_chunk_len_`, §4.3. -/
def lastChunkLen : Nat := 5

/-- Modelled from the spec: `chunked_overhead_`, §4.3: a size line, a CRLF and the
last-chunk. -/
def chunkedOverhead : Nat := 25

/-- `hexdig`, the characters of `"0123456789ABCDEF"`. -/
def hexdig : List Byte := [48, 49, 50, 51, 52, 53, 54, 55, 56, 57, 65, 66, 67, 68, 69, 70]

/-- The digits `k` rounds of `*--p = hexdig[size & 0xf]; size >>= 4;` leave: the first round
writes the last digit. -/
def hexDigits : Nat → Nat → List Byte
  | 0, _ => []
  | k + 1, size => hexDigits k (size >>> 4) ++ [hexdig.getD (size &&& 0xf) 0]

/-- The eighteen bytes `write_chunk_header` renders: sixteen digits, then `\r\n`. -/
def chunkHeaderBytes (size : Nat) : List Byte := hexDigits 16 size ++ crlf

/-- `write_chunk_header(dest0, size)`: copy the rendered size line into the bytes at `dest0`;
both assertions ask for exactly eighteen of them. -/
def writeChunkHeader (mem : Memory) (dest0 : List Nat) (size : Nat) : Except Fault Memory :=
  if dest0.length = chunkHeaderLen then .ok (mem.store dest0 (chunkHeaderBytes size))
  else .error .assertion

theorem writeChunkHeader_eq_ok {mem mem' : Memory} {dest0 : List Nat} {size : Nat} :
    writeChunkHeader mem dest0 size = .ok mem' ↔
      dest0.length = chunkHeaderLen ∧ mem' = mem.store dest0 (chunkHeaderBytes size) := by
  unfold writeChunkHeader
  split_ifs with h <;> simp [h, eq_comm]

/-! ## The wire format of §6 -/

/-- A chunk-size line: `x` as sixteen uppercase hexadecimal digits, zero-padded, most
significant first, then CRLF. -/
def sizeLine (x : Nat) : List Byte :=
  ((List.range 16).reverse.map fun i => hexdig.getD (x / 16 ^ i % 16) 0) ++ crlf

/-- One chunk: its size line, its bytes, CRLF. -/
def chunk (d : List Byte) : List Byte := sizeLine d.length ++ d ++ crlf

/-- Chunked framing of a body carried in the chunks `ds`, each sent as one chunk, then the
last-chunk. -/
def chunked (ds : List (List Byte)) : List Byte := ds.flatMap chunk ++ lastChunk

@[simp] theorem length_chunkHeaderBytes (size : Nat) : (chunkHeaderBytes size).length = 18 := by
  suffices ∀ k n, (hexDigits k n).length = k by simp [chunkHeaderBytes, this, crlf]
  intro k
  induction k with
  | zero => simp [hexDigits]
  | succ k ih => simp [hexDigits, ih]

theorem shiftRight_four (n : Nat) : n >>> 4 = n / 16 := by simp [Nat.shiftRight_eq_div_pow]

theorem and_fifteen (n : Nat) : n &&& 0xf = n % 16 := Nat.and_pow_two_sub_one_eq_mod n 4

theorem hexDigits_eq (k n : Nat) :
    hexDigits k n = (List.range k).reverse.map fun i => hexdig.getD (n / 16 ^ i % 16) 0 := by
  induction k generalizing n with
  | zero => rfl
  | succ k ih =>
    rw [hexDigits, ih, shiftRight_four, and_fifteen, List.range_succ_eq_map, List.reverse_cons,
      List.map_append, ← List.map_reverse, List.map_map, List.map_reverse]
    simp [Function.comp_def, Nat.div_div_eq_div_mul, Nat.pow_succ, Nat.mul_comm]

/-- `write_chunk_header`'s loop renders the size line of §6. -/
theorem chunkHeaderBytes_eq_sizeLine (size : Nat) : chunkHeaderBytes size = sizeLine size := by
  rw [chunkHeaderBytes, hexDigits_eq, sizeLine]

/-! ## Reading the digits back -/

/-- Modelled from the spec: the value of hexadecimal digits, most significant first, as a
chunked decoder reads a chunk size (§6); a digit is worth its place in `hexdig`. -/
def hexValue (ds : List Byte) : Nat := ds.foldl (fun v d => 16 * v + hexdig.indexOf d) 0

theorem hexValue_append (ds : List Byte) (d : Byte) :
    hexValue (ds ++ [d]) = 16 * hexValue ds + hexdig.indexOf d := by
  simp [hexValue]

theorem indexOf_hexdig {v : Nat} (hv : v < 16) : hexdig.indexOf (hexdig.getD v 0) = v :=
  (by decide : ∀ v : Fin 16, hexdig.indexOf (hexdig.getD v 0) = v) ⟨v, hv⟩

/-- The digits the loop renders read back as the size, up to the range of `k` digits. -/
theorem hexValue_hexDigits (k n : Nat) : hexValue (hexDigits k n) = n % 16 ^ k := by
  induction k generalizing n with
  | zero => simp [hexDigits, hexValue, Nat.mod_one]
  | succ k ih =>
    rw [hexDigits, hexValue_append, ih, shiftRight_four, and_fifteen,
      indexOf_hexdig (Nat.mod_lt n (by decide)), Nat.pow_succ', Nat.mod_mul]
    omega

theorem hexDigits_zero (k : Nat) : hexDigits k 0 = List.replicate k 48 := by
  induction k with
  | zero => rfl
  | succ k ih => rw [hexDigits, List.replicate_succ', Nat.zero_shiftRight, ih]; rfl

/-- Below `16 ^ k` the digits are all `'0'` exactly for the size zero. -/
theorem hexDigits_eq_zeros_iff {k n : Nat} (hn : n < 16 ^ k) :
    hexDigits k n = List.replicate k 48 ↔ n = 0 := by
  refine ⟨fun h => ?_, fun h => h ▸ hexDigits_zero k⟩
  have hv := hexValue_hexDigits k n
  rw [h, ← hexDigits_zero, hexValue_hexDigits, Nat.zero_mod, Nat.mod_eq_of_lt hn] at hv
  exact hv.symm

/-- For every size a 64-bit `std::size_t` holds and every destination of eighteen distinct
bytes, `write_chunk_header` writes exactly those bytes: sixteen uppercase hexadecimal digits,
most significant first and zero-padded, then CRLF. The digits read back as the size, and they
are all `'0'` exactly when the size is zero. -/
theorem writeChunkHeader_size_line (mem : Memory) (dest0 : List Nat) (size : Nat)
    (hsize : size < 2 ^ 64) (hlen : dest0.length = chunkHeaderLen) (hnd : dest0.Nodup) :
    ∃ mem' ds, writeChunkHeader mem dest0 size = .ok mem' ∧ dest0.map mem'.ws = ds ++ crlf ∧
      ds = ((List.range 16).reverse.map fun i => hexdig.getD (size / 16 ^ i % 16) 0) ∧
      hexValue ds = size ∧ (ds = List.replicate 16 48 ↔ size = 0) ∧
      (∀ q ∉ dest0, mem'.ws q = mem.ws q) ∧ mem'.header = mem.header ∧ mem'.user = mem.user := by
  have h16 : size < 16 ^ 16 := hsize.trans_eq (by decide)
  refine ⟨_, hexDigits 16 size, if_pos hlen, map_storeAt_self hnd (by simp [hlen, chunkHeaderLen]),
    hexDigits_eq 16 size, by rw [hexValue_hexDigits, Nat.mod_eq_of_lt h16],
    hexDigits_eq_zeros_iff h16, fun q hq => storeAt_of_not_mem hq, rfl, rfl⟩

/-- The size `0x1A`: the size line `000000000000001A\r\n`. -/
theorem writeChunkHeader_size_line_26 :
    ∃ mem', writeChunkHeader ⟨[], [], fun _ => 0⟩ (List.range' 0 18) 26 = .ok mem' ∧
      (List.range' 0 18).map mem'.ws =
        [48, 48, 48, 48, 48, 48, 48, 48, 48, 48, 48, 48, 48, 48, 49, 65, 13, 10] :=
  let ⟨mem', _, h, hw, hds, _⟩ :=
    writeChunkHeader_size_line ⟨[], [], fun _ => 0⟩ (List.range' 0 18) 26 (by decide) rfl
      (List.nodup_range' 0 18)
  ⟨mem', h, hw.trans (by rw [hds]; decide)⟩

@[simp] theorem chunked_nil : chunked [] = lastChunk := rfl

theorem chunked_cons (d : List Byte) (ds : List (List Byte)) :
    chunked (d :: ds) = chunk d ++ chunked ds := by
  simp [chunked]

/-- `w` is a message with header `h` and body `b` as the spec frames it: the body as it is, or
chunked, in chunks none of which is empty, then the last-chunk. -/
def Framed (h b : List Byte) (isChunked : Bool) (w : List Byte) : Prop :=
  if isChunked then ∃ ds : List (List Byte), (∀ d ∈ ds, d ≠ []) ∧ ds.flatten = b ∧ w = h ++ chunked ds
  else w = h ++ b

@[simp] theorem framed_false {h b w : List Byte} : Framed h b false w ↔ w = h ++ b := by
  simp [Framed]

@[simp] theorem framed_true {h b w : List Byte} :
    Framed h b true w ↔
      ∃ ds : List (List Byte), (∀ d ∈ ds, d ≠ []) ∧ ds.flatten = b ∧ w = h ++ chunked ds := by
  simp [Framed]

end HttpProto
