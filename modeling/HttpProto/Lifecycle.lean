import HttpProto.Session

/-!
# Reuse of a serializer, and the room a message needs

`start_init` resets the flags of the previous message but not the circular buffers: those are
made anew by `start_buffers` under content-coding, by `start_source` and by `start_stream`,
and `start_empty` never touches them. Under content-coding `start_empty` sends the message
through the compressed branch of `prepare`, which then works on whatever the previous message
left in `tmp0_` and `tmp1_`: what happens depends on the serializer's history.

The compressed branch also asks for more room than the start functions check for: `tmp0_`
must offer 32 bytes, while `start_source` and `start_stream` accept 26, `start_buffers` checks
nothing under content-coding, and `start_empty` never sizes `tmp0_` at all.

## Main results

* `startEmpty_prepare_of_stale`, `startEmpty_new_prepare`: after `start_empty` under
  content-coding, a logic error when the previous message left bytes in `tmp0_`, a length
  error on a new serializer
* `startWithSource_prepare_lengthError`: the workspace sizes `start_source` accepts and the first
  `prepare` refuses
-/

namespace HttpProto

namespace Serializer

variable {s s' : Serializer} {m : Message} (src : Source) (flt : Filter)

/-! ## `start_empty` and the circular buffers -/

/-- `start_empty` leaves both circular buffers as the previous message left them. -/
theorem startEmpty_tmp (h : s.startEmpty m = .ok s') : s'.tmp0 = s.tmp0 ∧ s'.tmp1 = s.tmp1 := by
  rcases startEmpty_eq_ok h with ⟨-, rfl⟩ | ⟨-, -, rfl⟩ <;> exact ⟨rfl, rfl⟩

/-- Under content-coding, when the previous message left bytes in `tmp0_`, the first `prepare`
after `start_empty` throws a logic error. -/
theorem startEmpty_prepare_of_stale (hc : m.encoding ≠ .identity) (hx : m.expect100 = false)
    (hs : 0 < s.tmp0.size) (h : s.startEmpty m = .ok s') :
    s'.prepare src flt = .error .logicError := by
  have hf := startEmpty_fresh h
  simp [prepare, prepareCompressed, hf.isDone, hf.isExpectContinue, hx, hf.isCompressed, hc,
    (startEmpty_tmp h).1, hs]

/-- Under content-coding, on a new serializer of any workspace size, the first `prepare`
after `start_empty` throws a length error: `tmp0_` was never given room. -/
theorem startEmpty_new_prepare {w : Nat} (hc : m.encoding ≠ .identity)
    (hx : m.expect100 = false) (h : (new w).startEmpty m = .ok s') :
    s'.prepare src flt = .error .lengthError := by
  have hf := startEmpty_fresh h
  simp [prepare, prepareCompressed, hf.isDone, hf.isExpectContinue, hx, hf.isCompressed, hc,
    (startEmpty_tmp h).1, new, chunkedOverhead]

/-- The same message after a stream left two bytes in `tmp0_`, and on a new serializer: a
logic error in one case, a length error in the other. -/
theorem startEmpty_after_stream :
    ∃ s₀ t, (new 64).startStream (sampleMessage false .identity false) = .ok s₀ ∧
      Session.Run (.init s₀) [.streamPrepare, .streamCommit [97, 98]] t ∧
      t.sr.tmp0.size = 2 ∧
      (∃ s₁, t.sr.startEmpty (sampleMessage false .deflate false) = .ok s₁ ∧
        s₁.prepare (.ofList [] true 0) (.ofList []) = .error .logicError) ∧
      ∃ s₂, (new 64).startEmpty (sampleMessage false .deflate false) = .ok s₂ ∧
        s₂.prepare (.ofList [] true 0) (.ofList []) = .error .lengthError :=
  Session.exists_run_of_exec_of (by decide) fun _ t _ _ hsize =>
    ⟨⟨_, rfl, @startEmpty_prepare_of_stale t.sr _ (sampleMessage false .deflate false) _ _
        (by decide) rfl (by simp [hsize]) rfl⟩,
      ⟨_, rfl, @startEmpty_new_prepare _ (sampleMessage false .deflate false) _ _ 64
        (by decide) rfl rfl⟩⟩

/-! ## The room `prepare` asks for under content-coding -/

/-- `start_source` splits the workspace between `tmp1_` and `tmp0_` and asks 26 bytes of
`tmp0_`; under content-coding the first `prepare` asks 32, and throws a length error for every
workspace between. -/
theorem startWithSource_prepare_lengthError {w : Nat} (hc : m.encoding ≠ .identity)
    (hx : m.expect100 = false) (hlo : 26 ≤ w - w / 2) (hhi : w - w / 2 < 32) :
    ∃ s₀, (new w).startWithSource m = .ok s₀ ∧ s₀.prepare src flt = .error .lengthError := by
  have hlo' : ¬w - w / 2 < 18 + 1 + 2 + 5 := by omega
  refine ⟨_, (by
      simp [startWithSource, startSource, startTmp, startInit, reset, new, wsFree, hc, hlo']
      rfl), ?_⟩
  simp [prepare, prepareCompressed, hx, hc, hhi, chunkedOverhead]

/-- A workspace of 60 bytes: `start_source` accepts the deflate-coded message, the first
`prepare` throws a length error. -/
theorem startWithSource_prepare_lengthError_60 :
    ∃ s₀, (new 60).startWithSource (sampleMessage false .deflate false) = .ok s₀ ∧
      s₀.prepare (.ofList [] true 0) (.ofList []) = .error .lengthError :=
  startWithSource_prepare_lengthError _ _ (by decide) rfl (by decide) (by decide)

end Serializer

end HttpProto
