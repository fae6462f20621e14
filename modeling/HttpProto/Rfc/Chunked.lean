import HttpProto.Chunk

/-!
# The grammar side: `crlf_rule`, and a chunked decoder on it

`crlf_rule` is the grammar rule `CRLF = CR LF`. Its `parse` moves the iterator past a CR LF;
otherwise it leaves the iterator where it was and sets the error code, `incomplete` when the
input ends before a byte that differs from CR LF, `syntax` at the first byte that does. On
success it leaves the error code alone.

§8 of the spec asks that chunked output decode, through a chunked-transfer decoder, back to the
body. `decodeChunked` is such a decoder for what the serializer writes, without chunk extensions
or trailer fields: a chunk-size in hexadecimal digits and CRLF, then as many bytes and CRLF; the
chunk of size zero is the last-chunk, and a CRLF ends the message. Every CRLF is read by
`crlf_rule`. The framing the serializer writes decodes to its chunks when none of them is empty.
An empty chunk reads as the last-chunk: the decoder stops there, and the rest of the body is
left over after the message.

## Main definitions

* `GrammarError`, `parseCrlf`: the codes of `grammar::error` the rule sets, and its `parse`
* `decodeChunked`: a chunked-transfer decoder, from the spec's words

## Main results

* `decodeChunked_chunked`: the chunked framing decodes to its chunks when none is empty
* `decodeChunked_empty_chunk`: an empty chunk ends the decoded body
* `framed_decodes`: a message framed as the spec asks decodes, after its header, to its body
-/

namespace HttpProto

/-! ## `crlf_rule` -/

/-- The codes of `grammar::error` that `crlf_rule` sets: `incomplete`, and `syntax`. -/
inductive GrammarError where
  | incomplete
  | syntaxError
  deriving DecidableEq, Repr

/-- `parse(it, end, ec, crlf_rule)`, on the bytes `b` of the input up to `end` and the offset
`it` into them: whether it matched, where it leaves `it`, and `ec`. -/
def parseCrlf (b : List Byte) (it : Nat) (ec : Option GrammarError) :
    Bool × Nat × Option GrammarError :=
  if it = b.length then (false, it, some .incomplete)
  else if b.getD it 0 ≠ 13 then (false, it, some .syntaxError)
  else if it + 1 = b.length then (false, it, some .incomplete)
  else if b.getD (it + 1) 0 ≠ 10 then (false, it, some .syntaxError)
  else (true, it + 2, ec)

/-- `parse` at a CR LF moves past it and leaves `ec` alone. -/
theorem parseCrlf_crlf (t : List Byte) (ec : Option GrammarError) :
    parseCrlf (crlf ++ t) 0 ec = (true, 2, ec) := by
  simp [parseCrlf, crlf]

/-! ## A chunked decoder -/

/-- Whether a byte is one of the digits of `hexdig`. -/
def isHexdig (c : Byte) : Bool := hexdig.contains c

/-- Modelled from the spec (§8: chunked output "decodes via a chunked-transfer decoder"): read at
most `fuel` chunks of `b`. A chunk is a chunk-size in hexadecimal digits and CRLF; the chunk of
size zero is the last-chunk, and CRLF follows it; any other chunk goes on with that many bytes
and CRLF. It returns the chunks before the last-chunk, and what follows the message. -/
def decodeChunked : Nat → List Byte → Option (List (List Byte) × List Byte)
  | 0, _ => none
  | fuel + 1, b =>
    let ds := b.takeWhile isHexdig
    if ds = [] then none else
    match parseCrlf (b.dropWhile isHexdig) 0 none with
    | (false, _, _) => none
    | (true, i, _) =>
      let r := (b.dropWhile isHexdig).drop i
      if hexValue ds = 0 then
        match parseCrlf r 0 none with
        | (true, j, _) => some ([], r.drop j)
        | (false, _, _) => none
      else
        match parseCrlf (r.drop (hexValue ds)) 0 none with
        | (true, j, _) => (decodeChunked fuel ((r.drop (hexValue ds)).drop j)).map
            fun (cs, rest) => (r.take (hexValue ds) :: cs, rest)
        | (false, _, _) => none

@[simp] theorem length_hexDigits (k n : Nat) : (hexDigits k n).length = k := by
  induction k generalizing n with
  | zero => rfl
  | succ k ih => simp [hexDigits, ih]

theorem isHexdig_hexDigits (k n : Nat) : ∀ c ∈ hexDigits k n, isHexdig c = true := by
  induction k generalizing n with
  | zero => simp [hexDigits]
  | succ k ih =>
    simp only [hexDigits, List.mem_append, List.mem_singleton]
    rintro c (hc | rfl)
    · exact ih _ c hc
    · have : ∀ v : Fin 16, isHexdig (hexdig.getD v 0) = true := by decide
      exact this ⟨_, (and_fifteen n).symm ▸ Nat.mod_lt n (by decide)⟩

/-- The decoder at a chunk-size line: digits, CRLF, and what follows. -/
theorem decodeChunked_sizeLine {fuel : Nat} {ds : List Byte} (hne : ds ≠ [])
    (hhex : ∀ c ∈ ds, isHexdig c = true) (t : List Byte) :
    decodeChunked (fuel + 1) (ds ++ crlf ++ t) =
      if hexValue ds = 0 then
        match parseCrlf t 0 none with
        | (true, j, _) => some ([], t.drop j)
        | (false, _, _) => none
      else
        match parseCrlf (t.drop (hexValue ds)) 0 none with
        | (true, j, _) => (decodeChunked fuel ((t.drop (hexValue ds)).drop j)).map
            fun (cs, rest) => (t.take (hexValue ds) :: cs, rest)
        | (false, _, _) => none := by
  have hcr : isHexdig 13 = false := by decide
  have htw : (ds ++ crlf ++ t).takeWhile isHexdig = ds := by
    simp [List.takeWhile_append_of_pos hhex, crlf, hcr]
  have hdw : (ds ++ crlf ++ t).dropWhile isHexdig = crlf ++ t := by
    simp [List.dropWhile_append_of_pos hhex, crlf, hcr]
  rw [decodeChunked]
  simp only [htw, hdw, if_neg hne, parseCrlf_crlf]
  rfl

/-- The digits of a chunk-size that reads as zero, CRLF, and CRLF: the last-chunk. -/
theorem decodeChunked_last {fuel : Nat} (ds : List Byte) (hne : ds ≠ [])
    (hhex : ∀ c ∈ ds, isHexdig c = true) (h0 : hexValue ds = 0) (t : List Byte) :
    decodeChunked (fuel + 1) (ds ++ crlf ++ crlf ++ t) = some ([], t) := by
  rw [List.append_assoc _ crlf, decodeChunked_sizeLine hne hhex, if_pos h0, parseCrlf_crlf]
  rfl

/-- One chunk of bytes, then anything: its bytes, then what the rest decodes to. -/
theorem decodeChunked_chunk {fuel : Nat} {d : List Byte} (hne : d ≠ []) (hlt : d.length < 16 ^ 16)
    (t : List Byte) :
    decodeChunked (fuel + 1) (chunk d ++ t) =
      (decodeChunked fuel t).map fun (cs, rest) => (d :: cs, rest) := by
  have hv : hexValue (hexDigits 16 d.length) = d.length := by
    rw [hexValue_hexDigits, Nat.mod_eq_of_lt hlt]
  have hdn : hexDigits 16 d.length ≠ [] := by
    rw [← List.length_pos, length_hexDigits]
    decide
  rw [chunk, ← chunkHeaderBytes_eq_sizeLine, chunkHeaderBytes, List.append_assoc,
    List.append_assoc, decodeChunked_sizeLine hdn (isHexdig_hexDigits 16 d.length), hv,
    if_neg (by simpa using hne), List.drop_left, parseCrlf_crlf, List.take_left]
  rfl

/-- The serializer's chunked framing, then anything: when no chunk is empty, a decoder with
fuel for every chunk reads back the chunks, and leaves what follows. -/
theorem decodeChunked_chunked {ds : List (List Byte)} (hne : ∀ d ∈ ds, d ≠ [])
    (hlt : ∀ d ∈ ds, d.length < 16 ^ 16) {fuel : Nat} (hfuel : ds.length < fuel)
    (rest : List Byte) : decodeChunked fuel (chunked ds ++ rest) = some (ds, rest) := by
  obtain _ | fuel := fuel
  · exact absurd hfuel (Nat.not_lt_zero _)
  induction ds generalizing fuel with
  | nil => exact decodeChunked_last [48] (by decide) (by decide) (by decide) rest
  | cons d ds ih =>
    simp only [List.mem_cons, forall_eq_or_imp, List.length_cons] at hne hlt hfuel
    obtain _ | fuel := fuel
    · omega
    rw [chunked_cons, List.append_assoc, decodeChunked_chunk hne.1 hlt.1,
      ih hne.2 hlt.2 fuel (by omega)]
    rfl

/-- An empty chunk in the framing, the chunks before it not empty: a decoder reads the chunks
before it as the whole body, and leaves the chunks after it over. -/
theorem decodeChunked_empty_chunk {pre : List (List Byte)} (hne : ∀ d ∈ pre, d ≠ [])
    (hlt : ∀ d ∈ pre, d.length < 16 ^ 16) {fuel : Nat} (hfuel : pre.length < fuel)
    (post : List (List Byte)) (rest : List Byte) :
    decodeChunked fuel (chunked (pre ++ [] :: post) ++ rest) =
      some (pre, chunked post ++ rest) := by
  obtain _ | fuel := fuel
  · exact absurd hfuel (Nat.not_lt_zero _)
  induction pre generalizing fuel with
  | nil =>
    rw [List.nil_append, chunked_cons, chunk, List.length_nil, ← chunkHeaderBytes_eq_sizeLine,
      chunkHeaderBytes, List.append_nil, List.append_assoc, List.append_assoc]
    refine decodeChunked_last _ (by simp [hexDigits_zero]) (isHexdig_hexDigits 16 0) ?_ _
    rw [hexValue_hexDigits, Nat.zero_mod]
  | cons d pre ih =>
    simp only [List.mem_cons, forall_eq_or_imp, List.length_cons] at hne hlt hfuel
    obtain _ | fuel := fuel
    · omega
    rw [List.cons_append, chunked_cons, List.append_assoc, decodeChunked_chunk hne.1 hlt.1,
      ih hne.2 hlt.2 fuel (by omega)]
    rfl

/-- The chunks `a`, empty, `b`: the decoder reads `a` as the whole body, and leaves the chunk of
`b` and the last-chunk over. -/
theorem decodeChunked_stops_at_empty :
    decodeChunked 2 (chunked ([[97]] ++ [] :: [[98]]) ++ []) = some ([[97]], chunked [[98]] ++ []) :=
  decodeChunked_empty_chunk (by decide) (by decide) (by decide) _ _

theorem length_lt_chunked (ds : List (List Byte)) : ds.length < (chunked ds).length := by
  induction ds with
  | nil => decide
  | cons d ds ih =>
    have : 1 ≤ (chunk d).length := by
      rw [chunk, List.length_append]
      exact (by decide : 1 ≤ crlf.length).trans (Nat.le_add_left _ _)
    simp only [chunked_cons, List.length_append, List.length_cons]
    omega

/-- A chunked message framed as the spec asks, whose body has fewer than `16 ^ 16` bytes,
decodes after its header to its body, with nothing left over. -/
theorem framed_decodes {h b w : List Byte} (hf : Framed h b true w) (hb : b.length < 16 ^ 16) :
    ∃ ds, decodeChunked w.length (w.drop h.length) = some (ds, []) ∧ ds.flatten = b := by
  obtain ⟨ds, hne, rfl, rfl⟩ := framed_true.mp hf
  have hlt : ∀ d ∈ ds, d.length < 16 ^ 16 := fun d hd =>
    lt_of_le_of_lt (List.sublist_flatten_of_mem hd).length_le hb
  refine ⟨ds, ?_, rfl⟩
  rw [List.drop_left]
  simpa using decodeChunked_chunked hne hlt
    ((length_lt_chunked ds).trans_le (by simp)) []

/-- The header `H\r\n` and the body `ab` as one chunk: it decodes to `ab`. -/
theorem framed_decodes_one_chunk :
    ∃ ds, decodeChunked ([72, 13, 10] ++ chunked [[97, 98]]).length
        (([72, 13, 10] ++ chunked [[97, 98]]).drop [72, 13, 10].length) = some (ds, []) ∧
      ds.flatten = [97, 98] :=
  framed_decodes (framed_true.mpr ⟨[[97, 98]], by decide, rfl, rfl⟩ :
    Framed [72, 13, 10] [97, 98] true ([72, 13, 10] ++ chunked [[97, 98]])) (by decide)

end HttpProto
