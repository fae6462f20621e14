import HttpProto.Loop

/-!
# Empty and buffers styles: the caller's loop ends the message

Without content-coding, `start_empty` and `start_buffers` lay the whole message out in `out_`,
and the caller's loop only walks it: each `prepare` returns what is left of the layout, and the
`consume` of all of it drops the bytes and at least one descriptor, the header slot first. Under
`Expect: 100-continue` the first round sends the header slot alone, and the next one is the
sentinel, which lowers the flag. So the loop ends the message within as many rounds as `out_`
has descriptors, and one more under the flag, whatever the source and the filter; it has then
sent the header followed by the layout.

## Main definitions

* `Session.OutLive`: what holds between the rounds
* `Session.outMeasure`: what is left of `out_`, and the flag

## Main results

* `Serializer.consume_out_all`: `consume` of all that `out_` designates ends the message or
  discards a descriptor
* `Session.out_round`: one round
* `Session.buffers_drive_finishes`, `Session.empty_drive_finishes`: the loop ends the message,
  having sent the layout
-/

namespace HttpProto

namespace Serializer

open BufferArray

variable {s : Serializer} {n : Nat}

/-- `out_.consume(n)` of no more than `out_` designates returns and brings no descriptor back;
of all of it, it ends the message or discards a descriptor. -/
theorem consumeOut_spec (hn : n ≤ bufferSize s.out.data) :
    ∃ s', s.consumeOut n = .ok s' ∧ s'.isExpectContinue = s.isExpectContinue ∧
      s'.out.data.length ≤ s.out.data.length ∧
      (bufferSize s.out.data ≤ n → s'.isDone = true ∨ s'.out.data.length < s.out.data.length) := by
  obtain ⟨o, ho⟩ := consume_ok hn
  have hle := consume_length_le ho
  refine ⟨{ s with out := o, isDone := if o.empty then true else s.isDone },
    by rw [consumeOut, ho]; rfl, rfl, hle, fun hall => ?_⟩
  cases hdata : s.out.data with
  | nil =>
    -- nothing was left: `out_` is empty, and the message done
    rw [hdata] at hle
    have : o.data = [] := List.eq_nil_of_length_eq_zero (Nat.le_zero.mp hle)
    exact .inl (by simp [BufferArray.empty, this])
  | cons b bs =>
    rw [hdata, bufferSize_cons] at hall
    exact .inr (hdata ▸ consume_length_lt hdata (by omega) ho)

/-- Without `Expect: 100-continue`, in the empty and uncompressed buffers styles, `consume` of
all that `out_` designates returns, and ends the message or discards a descriptor: the header
slot, while first, then what the body has left. -/
theorem consume_out_all (hst : s.st = .empty ∨ s.st = .buffers) (hc : s.isCompressed = false)
    (hd : s.isDone = false) (hx : s.isExpectContinue = false) (hslots : s.out.slots ≠ []) :
    ∃ s', s.consume (bufferSize s.out.data) = .ok s' ∧ s'.isExpectContinue = false ∧
      (s'.isDone = true ∨ s'.out.data.length < s.out.data.length) := by
  unfold consume
  rw [if_neg (by simp [hd]), if_neg (by simp [hx])]
  split_ifs with h0 hlt
  · -- all of the view covers the header slot, which is first
    rw [data_of_pos_zero hslots h0, bufferSize_cons] at hlt
    omega
  · -- the header slot is passed, then the rest of the layout
    have hdata := data_of_pos_zero hslots h0
    have hpass : s.out.consume s.hp.size = .ok ⟨s.out.slots, 1⟩ := by
      rw [consume_of_eq hdata, h0]
    have hrest : (⟨s.out.slots, 1⟩ : BufferArray).data = s.out.slots.tail := by
      simp [BufferArray.data, List.drop_one]
    have hsize : bufferSize s.out.data = s.hp.size + bufferSize s.out.slots.tail := by
      rw [hdata, bufferSize_cons]
    obtain ⟨s', hs', hx', -, hdone⟩ := consumeOut_spec (s := { s with out := ⟨s.out.slots, 1⟩ })
      (n := bufferSize s.out.data - s.hp.size) (by dsimp only; rw [hrest]; omega)
    refine ⟨s', ?_, hx'.trans hx, ?_⟩
    · simp only [hpass, bind, Except.bind]
      exact (consumeBody_of_out (s := { s with out := ⟨s.out.slots, 1⟩ }) hst hc).trans hs'
    · dsimp only at hdone
      rw [hrest] at hdone
      rcases hdone (by omega) with h | h
      · exact .inl h
      · exact .inr (by rw [hdata, List.length_cons]; omega)
  · -- past the header slot
    rw [consumeBody_of_out hst hc]
    obtain ⟨s', hs', hx', -, hdone⟩ := consumeOut_spec (s := s) le_rfl
    exact ⟨s', hs', hx'.trans hx, hdone le_rfl⟩

/-- Past the header slot, in the empty and uncompressed buffers styles, `consume(0)` without the
flag returns and brings no descriptor back. -/
theorem consume_out_zero (hst : s.st = .empty ∨ s.st = .buffers) (hc : s.isCompressed = false)
    (hd : s.isDone = false) (hx : s.isExpectContinue = false) (h0 : s.out.pos ≠ 0) :
    ∃ s', s.consume 0 = .ok s' ∧ s'.isExpectContinue = false ∧
      s'.out.data.length ≤ s.out.data.length := by
  obtain ⟨s', hs', hx', hle, -⟩ := consumeOut_spec (s := s) (Nat.zero_le _)
  refine ⟨s', ?_, hx'.trans hx, hle⟩
  rw [consume, if_neg (by simp [hd]), if_neg (by simp [hx]), if_neg h0, consumeBody_of_out hst hc]
  exact hs'

/-- While `Expect: 100-continue` holds, `consume` of the header slot, first, passes it. -/
theorem consume_header_of_expect (hd : s.isDone = false) (hx : s.isExpectContinue = true)
    (h0 : s.out.pos = 0) (hslots : s.out.slots ≠ []) :
    s.consume s.hp.size = .ok { s with out := { s.out with pos := 1 } } := by
  have hpass := consume_of_eq (data_of_pos_zero hslots h0)
  rw [h0] at hpass
  simp [consume, hd, hx, hpass]

/-- The view of the empty and uncompressed buffers styles: what is left of `out_`, the header
slot alone while the flag holds and it is first, or the sentinel. -/
theorem prepare_out {src : Source} {flt : Filter} {p : Prepared}
    (hst : s.st = .empty ∨ s.st = .buffers) (hc : s.isCompressed = false)
    (h : s.prepare src flt = .ok p) : p.next.out = s.out := by
  cases hx : s.isExpectContinue
  · rw [prepare_of_style (prepare_isDone h) hx hc] at h
    rcases hst with hst | hst <;> (rw [hst] at h; cases h; rfl)
  · obtain ⟨-, x, hn⟩ := prepare_of_expect hx h
    rw [hn]

end Serializer

namespace Session

open Serializer BufferArray

variable {w : List Byte} {t t' : Session} {src : Source} {flt : Filter}

/-! ## One round -/

/-- What holds between the rounds in the empty and uncompressed buffers styles: the run
invariant, and the slots `start_*` made, which no call removes. -/
structure OutLive (w : List Byte) (t : Session) : Prop where
  out : OutInv w t
  slots : t.sr.out.slots ≠ []

/-- What the rounds have left: the descriptors of `out_`, and the flag of
`Expect: 100-continue`, which one round lowers. -/
def outMeasure (t : Session) : Nat := t.sr.out.data.length + t.sr.isExpectContinue.toNat

theorem outLive_step {a : Action} (hl : OutLive w t) (ha : t.Allowed a) (h : t.step a = .ok t') :
    OutLive w t' := by
  refine ⟨outInv_step hl.out ha h, ?_⟩
  have hns : t.sr.st ≠ .stream := by rcases hl.out.st with h | h <;> rw [h] <;> decide
  cases a with
  | prepare src flt =>
    obtain ⟨p, hp, rfl⟩ := map_eq_ok.mp h
    show p.next.out.slots ≠ []
    rw [prepare_out hl.out.st hl.out.isCompressed hp]
    exact hl.slots
  | consume n =>
    obtain ⟨sr, hc, rfl⟩ := map_eq_ok.mp h
    exact List.ne_nil_of_length_pos ((consume_layout hc).1 ▸ List.length_pos.mpr hl.slots)
  | streamPrepare => exact absurd ha hns
  | streamCommit d => exact absurd ha.1 hns
  | streamClose => exact absurd ha hns

/-- One round in the empty and uncompressed buffers styles, whatever the source and the filter:
it ends the message or lowers the measure. Without the flag the view is all that is left and is
all consumed; under it, the header slot is sent alone, then the sentinel lowers the flag. -/
theorem out_round (src : Source) (flt : Filter) (hl : OutLive w t) (hd : t.sr.isDone = false) :
    ∃ t₂, t.round src flt = .ok t₂ ∧ OutLive w t₂ ∧
      (t₂.sr.isDone = true ∨ outMeasure t₂ < outMeasure t) := by
  have hst := hl.out.st
  have hc := hl.out.isCompressed
  -- the two calls are allowed, so the round keeps `OutLive`
  suffices h : ∃ t₁ t₂, t.step (.prepare src flt) = .ok t₁ ∧
      t₁.step (.consume t₁.pending.length) = .ok t₂ ∧
      (t₂.sr.isDone = true ∨ outMeasure t₂ < outMeasure t) by
    obtain ⟨t₁, t₂, h₁, h₂, hm⟩ := h
    exact ⟨t₂, by rw [round, h₁]; exact h₂,
      outLive_step (outLive_step hl (by trivial) h₁) (by exact le_rfl) h₂, hm⟩
  cases hx : t.sr.isExpectContinue
  case false =>
    -- the view is what is left of the layout, and all of it is consumed
    have h₁ : t.step (.prepare src flt) = .ok { t with
        pending := t.sr.mem.readAll t.sr.out.data
        log := t.log ++ [.prepared ⟨t.sent.length, .ok (t.sr.mem.readAll t.sr.out.data), []⟩] } := by
      rw [step, prepare_of_style hd hx hc]
      rcases hst with h | h <;> (rw [h]; rfl)
    obtain ⟨s₂, h₂, hx₂, hdone⟩ := consume_out_all hst hc hd hx hl.slots
    rw [bufferSize_eq_length hl.out.fits] at h₂
    refine ⟨_, _, h₁, step_consume_ok h₂, ?_⟩
    simp only [outMeasure, hx, hx₂, Bool.toNat_false, Nat.add_zero]
    exact hdone
  case true =>
    by_cases h0 : t.sr.out.pos = 0
    · -- the header slot alone, and it is passed
      have hdata := data_of_pos_zero hl.slots h0
      have h₁ : t.step (.prepare src flt) = .ok { t with
          pending := t.sr.mem.read t.sr.hp
          log := t.log ++ [.prepared ⟨t.sent.length, .ok (t.sr.mem.read t.sr.hp), []⟩] } := by
        rw [step, prepare_expect_header hd hx h0]
        simp [Except.map, Except.toOption]
      have hfit : (t.sr.mem.read t.sr.hp).length = t.sr.hp.size :=
        hl.out.fits _ (by rw [hdata]; exact List.mem_cons_self _ _)
      have h₂ := consume_header_of_expect hd hx h0 hl.slots
      rw [← hfit] at h₂
      refine ⟨_, _, h₁, step_consume_ok h₂, .inr ?_⟩
      have := List.length_pos.mpr hl.slots
      simp only [outMeasure, BufferArray.data, h0, hx, List.drop_zero, List.length_drop]
      omega
    · -- the sentinel lowers the flag, and `consume(0)` brings no descriptor back
      have h₁ : t.step (.prepare src flt) = .ok { t with
          sr := { t.sr with isExpectContinue := false }, pending := []
          log := t.log ++ [.prepared ⟨t.sent.length, .error .expect100Continue, []⟩] } := by
        rw [step, prepare_expect_sentinel hd hx h0]
        rfl
      obtain ⟨s₂, h₂, hx₂, hle⟩ := consume_out_zero (s := { t.sr with isExpectContinue := false })
        hst hc hd rfl h0
      refine ⟨_, _, h₁, step_consume_ok h₂, .inr ?_⟩
      simp only [outMeasure, hx, hx₂, Bool.toNat_false, Bool.toNat_true]
      exact Nat.lt_succ_of_le hle

/-! ## The loop -/

/-- From the state `start_empty` or `start_buffers` left without content-coding, the loop ends
the message, along a run of calls, within two rounds more than `out_` has descriptors. -/
theorem out_drive_done (next : Session → Source) (flt : Filter) (k : Nat) {s₀ : Serializer}
    (hl : OutLive w (init s₀)) (hk : s₀.out.data.length + 2 ≤ k) :
    ∃ t, drive next flt k (init s₀) = .ok t ∧ t.sr.isDone = true ∧ ∃ as, Run (init s₀) as t := by
  have := Bool.toNat_le s₀.isExpectContinue
  obtain ⟨t, hdrive, hd, -⟩ := drive_done_of_round (k := k) (OutLive w) outMeasure
    (fun t hl hd => out_round (next t) flt hl hd) hl (by simp only [outMeasure, init]; omega)
  exact ⟨t, hdrive, hd, drive_run hdrive⟩

/-- In buffers style without content-coding, with or without `Expect: 100-continue`, the caller's
loop with a writer that takes all of each view ends the message within `|bufs| + 5` rounds,
whatever the source and the filter, having sent the header and then the body: as it is, or
chunked as one chunk then the last-chunk. -/
theorem buffers_drive_finishes {s s₀ : Serializer} {m : Message} {bufs : List (List Byte)}
    (hs : s.startWithBuffers m bufs = .ok s₀) (hm : m.encoding = .identity)
    (next : Session → Source) (flt : Filter) :
    ∃ t, drive next flt (bufs.length + 5) (init s₀) = .ok t ∧ t.sr.isDone = true ∧
      t.sent = m.header ++ bodyLayout m.isChunked bufs.flatten := by
  obtain ⟨hst, hc, hf, -⟩ := startWithBuffers_layout hm hs
  -- `out_` holds the header slot, the buffers, and chunked two slots of framing
  obtain ⟨hslots, hlen⟩ : s₀.out.slots ≠ [] ∧ s₀.out.data.length ≤ bufs.length + 3 := by
    rcases startWithBuffers_eq_ok hs with ⟨hne, -⟩ | ⟨-, -, rfl⟩ | ⟨-, -, -, rfl⟩
    · exact absurd hm hne
    all_goals exact ⟨List.cons_ne_nil _ _, by simp [BufferArray.data, userBuffers]⟩
  obtain ⟨t, hdrive, hd, as, hrun⟩ := out_drive_done next flt (bufs.length + 5)
    ⟨outInv_init (.inr hst) hc hf (startWithBuffers_fresh hs).isDone, hslots⟩ (by omega)
  exact ⟨t, hdrive, hd, (startWithBuffers_sends_layout hs hm hrun).2 hd⟩

/-- Two buffers, chunked, under `Expect: 100-continue`: the header slot, the sentinel, then the
rest of the layout. -/
theorem buffers_drive_finishes_expect :
    ∃ s₀, (new 64).startWithBuffers (sampleMessage true .identity true) [[97], [98, 99]] = .ok s₀ ∧
      ∃ t, drive (fun _ => .ofList [] true 0) (.ofList []) 7 (init s₀) = .ok t ∧
        t.sr.isDone = true ∧ t.sent = [72, 13, 10] ++ bodyLayout true [[97], [98, 99]].flatten :=
  let ⟨s₀, hs₀⟩ : ∃ s₀, (new 64).startWithBuffers (sampleMessage true .identity true)
      [[97], [98, 99]] = .ok s₀ := ⟨_, rfl⟩
  ⟨s₀, hs₀, buffers_drive_finishes hs₀ rfl _ _⟩

/-- `start_empty` without content-coding, with or without `Expect: 100-continue`: the caller's
loop ends the message within four rounds, whatever the source and the filter, having sent the
header and, when chunked, the last-chunk. -/
theorem empty_drive_finishes {s s₀ : Serializer} {m : Message} (hs : s.startEmpty m = .ok s₀)
    (hm : m.encoding = .identity) (next : Session → Source) (flt : Filter) :
    ∃ t, drive next flt 4 (init s₀) = .ok t ∧ t.sr.isDone = true ∧
      t.sent = m.header ++ if m.isChunked then lastChunk else [] := by
  obtain ⟨hst, hc, hf, -⟩ := startEmpty_layout hm hs
  -- `out_` holds the header slot, and chunked the last-chunk
  obtain ⟨hslots, hlen⟩ : s₀.out.slots ≠ [] ∧ s₀.out.data.length ≤ 2 := by
    rcases startEmpty_eq_ok hs with ⟨-, rfl⟩ | ⟨-, -, rfl⟩ <;>
      exact ⟨List.cons_ne_nil _ _, by simp [BufferArray.data]⟩
  obtain ⟨t, hdrive, hd, as, hrun⟩ := out_drive_done next flt 4
    ⟨outInv_init (.inl hst) hc hf (startEmpty_fresh hs).isDone, hslots⟩ (by omega)
  exact ⟨t, hdrive, hd, (startEmpty_sends_layout hs hm hrun).2 hd⟩

/-- Chunked, under `Expect: 100-continue`: the header, then the last-chunk, in three rounds. -/
theorem empty_drive_finishes_expect :
    ∃ s₀, (new 64).startEmpty (sampleMessage true .identity true) = .ok s₀ ∧
      ∃ t, drive (fun _ => .ofList [] true 0) (.ofList []) 4 (init s₀) = .ok t ∧
        t.sr.isDone = true ∧ t.sent = [72, 13, 10] ++ lastChunk :=
  let ⟨s₀, hs₀⟩ : ∃ s₀, (new 64).startEmpty (sampleMessage true .identity true) = .ok s₀ :=
    ⟨_, rfl⟩
  ⟨s₀, hs₀, empty_drive_finishes hs₀ rfl _ _⟩

end Session

end HttpProto
