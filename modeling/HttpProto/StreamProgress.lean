import HttpProto.Loop

/-!
# Stream style: after `close`, one round ends the message

In stream style without content-coding or `Expect: 100-continue`, `close` ends the body and one
round of the caller's loop then ends the message, from any point of any run in the order the
stream handle asks for. `close` fits, as the room of the last-chunk is kept until then. `more_`
is false from `close` on, so `prepare` no longer waits for data: it returns all that is unsent.
The `consume` of all of it drains `tmp0_`, which ends the message. The caller has then sent the
header, each committed batch framed, and the last-chunk when chunked.

`more_` falls at `close` and at no other call, so whether the stream is open is whether the
caller has called `close`.

## Main results

* `Session.Run.more_stream`: `more_` is false exactly after a `close`
* `Session.stream_round`: one round once the stream is closed
* `Session.stream_close_finishes`: `close` if the stream is open, then one round, ends the
  message, having sent the framed batches
-/

namespace HttpProto

namespace Serializer

variable {s s' : Serializer}

/-- `stream.close()` ends the body. -/
theorem Stream.close_more (h : Stream.close s = .ok s') : s'.more = false := by
  obtain ⟨-, ⟨-, -, _, -, rfl⟩ | ⟨-, rfl⟩⟩ := close_eq_ok h <;> rfl

end Serializer

namespace Session

open Serializer

variable {m : Message} {t t' : Session} {c : Nat} {src : Source} {flt : Filter}

/-! ## `more_` -/

/-- In stream style without content-coding every call keeps the style and the coding, and
`more_` falls at `close` and at no other call. -/
theorem step_more_stream {a : Action} (hst : t.sr.st = .stream) (hc : t.sr.isCompressed = false)
    (h : t.step a = .ok t') :
    t'.sr.st = .stream ∧ t'.sr.isCompressed = false ∧ (a = .streamClose → t'.sr.more = false) ∧
      (a ≠ .streamClose → t'.sr.more = t.sr.more) := by
  cases a with
  | prepare src flt =>
    obtain ⟨p, hp, rfl⟩ := map_eq_ok.mp h
    obtain ⟨hst', -, hc'⟩ := prepare_flags hp
    exact ⟨hst'.trans hst, hc'.trans hc, nofun, fun _ => (prepare_stream_tmp0 hst hc hp).2⟩
  | consume n =>
    obtain ⟨sr, hcn, rfl⟩ := map_eq_ok.mp h
    obtain ⟨out, tmp0, isDone, rfl⟩ := consume_shape hcn
    exact ⟨hst, hc, nofun, fun _ => rfl⟩
  | streamPrepare =>
    obtain ⟨⟨ps, sr⟩, hp, rfl⟩ := map_eq_ok.mp h
    have hk := (Stream.prepare_keeps hp).1
    exact ⟨hk.st.trans hst, hk.isCompressed.trans hc, nofun, fun _ => (Stream.prepare_frame hp).2⟩
  | streamCommit d =>
    obtain ⟨sr, hcm, rfl⟩ := map_eq_ok.mp h
    have hk := (Stream.commit_keeps hcm).1
    exact ⟨hk.st.trans hst, hk.isCompressed.trans hc, nofun, fun _ => (Stream.commit_more hcm :)⟩
  | streamClose =>
    obtain ⟨sr, hcl, rfl⟩ := map_eq_ok.mp h
    have hk := (Stream.close_keeps hcl).1
    exact ⟨hk.st.trans hst, hk.isCompressed.trans hc, fun _ => Stream.close_more hcl,
      fun h => absurd rfl h⟩

/-- Along a run in stream style without content-coding, `more_` is false after a `close`, and
unchanged without one. -/
theorem Run.more_stream {as : List Action} (h : Run t as t') (hst : t.sr.st = .stream)
    (hc : t.sr.isCompressed = false) :
    (.streamClose ∈ as → t'.sr.more = false) ∧ (.streamClose ∉ as → t'.sr.more = t.sr.more) := by
  induction h with
  | nil => exact ⟨nofun, fun _ => rfl⟩
  | @cons t₀ t₁ _ a as _ he _ ih =>
    obtain ⟨hst₁, hc₁, hclose, hother⟩ := step_more_stream hst hc he
    obtain ⟨ih₁, ih₂⟩ := ih hst₁ hc₁
    refine ⟨fun hmem => ?_, fun hmem => ?_⟩
    · by_cases has : .streamClose ∈ as
      · exact ih₁ has
      · rw [ih₂ has]
        exact hclose ((List.mem_cons.mp hmem).resolve_right has).symm
    · rw [ih₂ fun h => hmem (List.mem_cons_of_mem _ h)]
      exact hother fun h => hmem (h ▸ List.mem_cons_self _ _)

/-! ## The round after `close` -/

/-- Once the stream is closed, one round ends the message. -/
theorem stream_round (flt : Filter) (hi : StreamInv m t) (hl : Live c t)
    (hmore : t.sr.more = false) (hd : t.sr.isDone = false) :
    ∃ t₂, t.round src flt = .ok t₂ ∧ t₂.sr.isDone = true ∧ StreamInv m t₂ := by
  obtain ⟨s₂, h₂⟩ := fillSlots_ok hi.slots hl.pos
  have hp : t.sr.prepare src flt = .ok ⟨.ok s₂.out.data, s₂, []⟩ := by
    rw [prepare_of_style hd hl.expect hi.isCompressed, hi.st, prepareStream,
      if_neg (by simp [hmore]), h₂]
    rfl
  obtain ⟨-, -, -, -, -, -, hres⟩ := prepareStream_unsent hi.valid hi.slots
    (by rw [prepareStream, if_neg (by simp [hmore]), h₂]; rfl)
  have hview : Except.map s₂.mem.readAll (.ok s₂.out.data) = .ok s₂.unsent :=
    hres.resolve_right (by simp)
  have h₁ : t.step (.prepare src flt) = .ok
      { t with sr := s₂, pending := s₂.unsent
               log := t.log ++ [.prepared ⟨t.sent.length, .ok s₂.unsent, []⟩] } := by
    rw [step, hp]
    show Except.ok _ = _
    simp only [hview]
    rfl
  obtain ⟨hi₁, hm₁⟩ := streamInv_prepare hi h₁
  have hl₁ := live_step hi.valid (.inr hi.st) hi.slots hl h₁
  have hd₁ : s₂.isDone = false := (fillSlots_keeps h₂).isDone.trans hd
  obtain ⟨s₃, h₃, -, hdone⟩ := consume_drains (.inr hi₁.st) hi₁.isCompressed hd₁ hl₁.expect
    hi₁.slots hi₁.header
  have h₃' := step_consume_ok h₃
  refine ⟨_, by rw [round, h₁]; exact h₃', by rw [hdone, hm₁, hmore]; rfl,
    (streamInv_consume hi₁ (by exact le_rfl) h₃').1⟩

/-- `start_stream` makes `tmp0_` with the room of the last-chunk. -/
theorem room_startStream {s s₀ : Serializer} (h : s.startStream m = .ok s₀) : Room (init s₀) := by
  obtain ⟨⟨b, k, ht⟩, -, hm, hcap⟩ := startTmp_tmp0 h
  refine ⟨ht ▸ CircularBuffer.valid_ofSlice b k, fun _ => by show s₀.tmp0.inPos = 0; rw [ht]; rfl,
    fun _ _ _ => ⟨?_, fun h => absurd rfl h⟩⟩
  simp only [init, hm, lastRoom, if_true, lastChunkLen, chunkedOverhead] at hcap ⊢
  omega

/-- In stream style without content-coding or `Expect: 100-continue`, from any point of any run
in the order the stream handle asks for: the caller closes the stream if it has not yet, and one
round of its loop then ends the message, having sent the header, each committed batch framed,
and the last-chunk when chunked. -/
theorem stream_close_finishes {s s₀ : Serializer} {as : List Action}
    (hs : s.startStream m = .ok s₀) (hm : m.encoding = .identity) (hx : m.expect100 = false)
    (hd : commitsInPlace false false as = true) (hrun : Run (init s₀) as t)
    (hdone : t.sr.isDone = false) (src : Source) (flt : Filter) :
    ∃ t₁ t₂, (.streamClose ∈ as → t₁ = t) ∧ (.streamClose ∉ as → t.step .streamClose = .ok t₁) ∧
      t₁.round src flt = .ok t₂ ∧ t₂.sr.isDone = true ∧
      t₂.sent = m.header ++ (batches t₂.log).flatMap (batchWire m.isChunked) ++
        if m.isChunked then lastChunk else [] := by
  obtain ⟨hi₀, hmore₀⟩ := streamInv_init hm hs
  have hi := hrun.streamInv hd hi₀ (fun h => by cases h) (by simp [init, hmore₀])
  -- the run keeps the three facts, as it keeps the room of the framing and the slots
  obtain ⟨⟨hR, -, -⟩, hl⟩ := hrun.live (c := s₀.tmp0.cap)
    (fun t => Room t ∧ Layout t ∧ t.sr.st = .stream)
    (fun _ _ _ hq ha he => ⟨room_step hq.1 ha he, layout_step hq.1.valid hq.2.1 he,
      (step_frame he).1.trans hq.2.2⟩)
    (fun _ hq => ⟨hq.1.valid, .inr hq.2.2, hq.2.1.slots (.inr hq.2.2)⟩)
    ⟨room_startStream hs, ⟨(Starts.stream hs).layout.1, (Starts.stream hs).layout.2⟩, hi₀.st⟩
    (live_init (startStream_fresh hs) hx)
  obtain ⟨hmc, hmo⟩ := hrun.more_stream hi₀.st hi₀.isCompressed
  -- the stream is closed, by the caller before or now: the last-chunk has its room
  obtain ⟨t₁, hc₁, ho₁, hi₁, hl₁, hm₁, hd₁⟩ : ∃ t₁, (.streamClose ∈ as → t₁ = t) ∧
      (.streamClose ∉ as → t.step .streamClose = .ok t₁) ∧ StreamInv m t₁ ∧
      Live s₀.tmp0.cap t₁ ∧ t₁.sr.more = false ∧ t₁.sr.isDone = false := by
    by_cases hcl : .streamClose ∈ as
    · exact ⟨t, fun _ => rfl, fun h => absurd hcl h, hi, hl, hmc hcl, hdone⟩
    · have hopen : t.sr.more = true := (hmo hcl).trans hmore₀
      obtain ⟨sr, hsr⟩ := Stream.close_ok hopen fun hch hc => by
        simpa [lastRoom, hopen] using (hR.stream hi.st hch hc).1
      have hstep : t.step .streamClose = .ok { t with sr } := by simp only [step, hsr]; rfl
      obtain ⟨hi₁, hm₁⟩ := streamInv_streamClose hi hstep
      exact ⟨_, fun h => absurd h hcl, fun _ => hstep, hi₁,
        live_step hi.valid (.inr hi.st) hi.slots hl hstep, hm₁,
        (Stream.close_keeps hsr).1.isDone.trans hdone⟩
  obtain ⟨t₂, hr, hd₂, hi₂⟩ := stream_round flt hi₁ hl₁ hm₁ hd₁
  refine ⟨t₁, t₂, hc₁, ho₁, hr, hd₂, ?_⟩
  obtain ⟨hnil, hm₂⟩ := hi₂.done hd₂
  have hw := hi₂.wire
  rw [hnil, List.append_nil, hm₂] at hw
  simpa using hw

/-- A chunked stream with one batch committed and still open: `close`, then one round. -/
theorem stream_close_finishes_open :
    ∃ s₀ t, (new 64).startStream (sampleMessage true .identity false) = .ok s₀ ∧
      Run (init s₀) [.streamPrepare, .streamCommit [97, 98]] t ∧ t.sr.isDone = false ∧
      ∃ t₁ t₂, (Action.streamClose ∈ [Action.streamPrepare, .streamCommit [97, 98]] → t₁ = t) ∧
        (Action.streamClose ∉ [Action.streamPrepare, .streamCommit [97, 98]] →
          t.step .streamClose = .ok t₁) ∧
        t₁.round (.ofList [] true 0) (.ofList []) = .ok t₂ ∧ t₂.sr.isDone = true ∧
        t₂.sent = [72, 13, 10] ++ (batches t₂.log).flatMap (batchWire true) ++ lastChunk :=
  exists_run_of_exec_of (by decide) fun _ _ hs₀ hrun hv =>
    stream_close_finishes hs₀ rfl rfl (by decide) hrun hv _ _

end Session

end HttpProto
