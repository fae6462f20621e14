import HttpProto.Reachable

/-!
# The views of two `prepare` calls in a row

Without content-coding a `prepare` returns the serializer's view of what it holds unsent, and
changes nothing the next `prepare` reads, except in source style, where each call reads the
source again and appends what it read. Two calls in a row therefore return the same bytes, or,
in source style after the header phase, bytes that begin with the first call's.

This rests on the slots of `out_`: in source and stream style the view is read from three
slots, and the header slot, while first, designates header bytes. `Layout` says so, and
`Reachable.layout` that it holds in every reachable session. Calls of the stream handle between
the two are left aside: a batch written into a buffer that a drain made stale overwrites the
first view (`stream_view_overwritten`).

## Main definitions

* `Session.Layout`: the slots between calls

## Main results

* `Serializer.prepare_prepare`: two calls in a row, on a serializer with that layout
* `Session.Reachable.layout`: every reachable session has it
* `Session.prepare_twice`: two calls in a row in every reachable session
-/

namespace HttpProto

namespace Serializer

variable {s s' : Serializer} {src src' : Source} {flt flt' : Filter} {p p' : Prepared}

/-! ## The slots `prepare` and `consume` leave -/

/-- The slot loop keeps the number of slots, `p_`, and the header slot while it is first. -/
theorem fillSlots_frame (h : fillSlots s = .ok s') :
    s'.out.slots.length = s.out.slots.length ∧ s'.out.pos = s.out.pos ∧
      (s.out.pos = 0 → s'.hp = s.hp) := by
  obtain ⟨out, hout, rfl⟩ := map_eq_ok.mp h
  obtain ⟨hl, hp, hk⟩ := BufferArray.setFrom_frame hout
  refine ⟨hl, hp, fun h0 => ?_⟩
  have h₀ := hk 0 (by simp [h0])
  simp only [Serializer.hp, List.headD_eq_head?_getD, List.head?_eq_getElem?, h₀]

/-- `prepare` keeps the number of slots, `p_`, and the header slot while it is first. -/
theorem prepare_layout (hv : s.tmp0.Valid) (h : s.prepare src flt = .ok p) :
    p.next.out.slots.length = s.out.slots.length ∧ p.next.out.pos = s.out.pos ∧
      (s.out.pos = 0 → p.next.hp = s.hp) := by
  -- the branches that end in the slot loop run it on the slots `prepare` found
  have filled : ∀ {s₁ : Serializer}, s₁.out = s.out → fillSlots s₁ = .ok p.next →
      p.next.out.slots.length = s.out.slots.length ∧ p.next.out.pos = s.out.pos ∧
        (s.out.pos = 0 → p.next.hp = s.hp) := fun ho hf => by
    obtain ⟨h₁, h₂, h₃⟩ := fillSlots_frame hf
    rw [ho] at h₁ h₂
    exact ⟨h₁, h₂, fun h0 => (h₃ (ho ▸ h0)).trans (by simp only [Serializer.hp, ho])⟩
  unfold prepare at h
  split at h; · cases h
  split at h
  · split at h <;> cases h <;> exact ⟨rfl, rfl, fun _ => rfl⟩
  split at h
  · obtain ⟨s₄, hf, -, ho, -⟩ := prepareCompressed_contents hv h
    exact filled ho hf
  split at h
  · cases h; exact ⟨rfl, rfl, fun _ => rfl⟩
  · cases h; exact ⟨rfl, rfl, fun _ => rfl⟩
  · obtain ⟨⟨s₁, err, evs⟩, h₁, h⟩ := bind_eq_ok.mp h
    obtain ⟨-, -, ho, -⟩ := sourceRead_spec hv h₁
    cases err with
    | some ec => cases h; exact ⟨by rw [ho], by rw [ho], fun _ => by simp only [Serializer.hp, ho]⟩
    | none =>
      obtain ⟨s₂, h₂, rfl⟩ := map_eq_ok.mp h
      exact filled ho h₂
  · unfold prepareStream at h
    split_ifs at h
    · cases h; exact ⟨rfl, rfl, fun _ => rfl⟩
    · obtain ⟨s₁, h₁, rfl⟩ := map_eq_ok.mp h
      exact filled rfl h₁
  · cases h

theorem consumeBody_layout {n : Nat} (h : s.consumeBody n = .ok s') :
    s'.out.slots.length = s.out.slots.length ∧
      (s'.out.pos = 0 → s.out.pos = 0 ∧ s'.hp.region = s.hp.region) := by
  obtain ⟨_, ⟨_, ho, rfl⟩ | rfl⟩ := consumeBody_cases h
  · exact BufferArray.consume_layout ho
  · exact ⟨rfl, fun h0 => ⟨h0, rfl⟩⟩

/-- `consume` keeps the number of slots, and the header slot, while it stays first, keeps
pointing into the header. -/
theorem consume_layout {n : Nat} (h : s.consume n = .ok s') :
    s'.out.slots.length = s.out.slots.length ∧
      (s'.out.pos = 0 → s.out.pos = 0 ∧ s'.hp.region = s.hp.region) := by
  rcases consume_cases h with ⟨_, ho, rfl⟩ | ⟨-, -, _, ho, h⟩ | h
  · exact BufferArray.consume_layout ho
  · -- the header slot, then the body
    obtain ⟨hl₁, hp₁⟩ := BufferArray.consume_layout ho
    obtain ⟨hl₂, hp₂⟩ := consumeBody_layout h
    refine ⟨hl₂.trans hl₁, fun h0 => ?_⟩
    obtain ⟨h0₂, hr₂⟩ := hp₂ h0
    obtain ⟨h0₁, hr₁⟩ := hp₁ h0₂
    exact ⟨h0₁, hr₂.trans hr₁⟩
  · exact consumeBody_layout h

/-! ## Two calls in a row -/

/-- A view that is returned is what is unsent, when the call returns that or an error. -/
theorem view_eq_unsent {V : List Byte}
    (hV : p.result.map p.next.mem.readAll = .ok V)
    (hr : p.result.map p.next.mem.readAll = .ok p.next.unsent ∨ ∃ e, p.result = .error e) :
    V = p.next.unsent := by
  rcases hr with hr | ⟨e, hr⟩
  · exact Except.ok.inj (hV.symm.trans hr)
  · simp [hr, Except.map] at hV

/-- Without content-coding, on three slots in source and stream style with the header slot,
while first, in the header: when two `prepare` calls in a row both return a view, the bytes of
the first begin those of the second, and are all of them outside source style and while
`Expect: 100-continue` holds. -/
theorem prepare_prepare (hc : s.isCompressed = false) (hv : s.tmp0.Valid)
    (hslots : s.st = .source ∨ s.st = .stream → s.out.slots.length = 3)
    (hhp : s.out.pos = 0 → s.hp.region = .header)
    (h₁ : s.prepare src flt = .ok p) (h₂ : p.next.prepare src' flt' = .ok p')
    {V W : List Byte} (hV : p.result.map p.next.mem.readAll = .ok V)
    (hW : p'.result.map p'.next.mem.readAll = .ok W) :
    V <+: W ∧ (s.st ≠ .source ∨ s.isExpectContinue = true → W = V) := by
  have hd := prepare_isDone h₁
  -- where the second call returns what the first did
  have same : p' = p → W = V := fun e => by
    subst e
    exact Except.ok.inj (hW.symm.trans hV)
  cases hx : s.isExpectContinue
  case true =>
    by_cases h0 : s.out.pos = 0
    · -- the header slot alone, and nothing moves
      rw [prepare_expect_header hd hx h0] at h₁
      cases h₁
      rw [prepare_expect_header hd hx h0] at h₂
      have e := same (Except.ok.inj h₂.symm)
      exact ⟨e ▸ List.prefix_refl _, fun _ => e⟩
    · rw [prepare_expect_sentinel hd hx h0] at h₁
      cases h₁
      simp [Except.map] at hV
  case false =>
    obtain ⟨k, -⟩ := prepare_of_not_expect hx h₁
    rw [prepare_of_style hd hx hc] at h₁
    rw [prepare_of_style (k.isDone.trans hd) (k.isExpectContinue.trans hx)
      (k.isCompressed.trans hc), k.st] at h₂
    cases hst : s.st <;> simp only [hst] at h₁ h₂
    case source =>
      -- each call appends what its read got to what is unsent
      obtain ⟨-, hv₁, hsl₁, hpos₁, hhp₁, -, -, -, -, hr₁⟩ :=
        prepareSource_wire hv (hslots (.inl hst)) hhp h₁
      obtain ⟨-, -, -, -, -, hu₂, -, -, -, hr₂⟩ := prepareSource_wire hv₁ hsl₁
        (fun h0 => by rw [hhp₁]; exact hhp (hpos₁ ▸ h0)) h₂
      rw [view_eq_unsent hV (hr₁.imp_right fun ⟨_, h⟩ => ⟨_, h⟩),
        view_eq_unsent hW (hr₂.imp_right fun ⟨_, h⟩ => ⟨_, h⟩), hu₂]
      exact ⟨List.prefix_append _ _, fun h => by simp at h⟩
    case stream =>
      -- the view is what is unsent, and the first call leaves that alone
      obtain ⟨-, hn₁, hsl₁, -, -, -, hr₁⟩ := prepareStream_unsent hv (hslots (.inr hst)) h₁
      obtain ⟨-, -, -, -, -, hu₂, hr₂⟩ :=
        prepareStream_unsent (by rw [hn₁]; exact hv) hsl₁ h₂
      have e : W = V := by
        rw [view_eq_unsent hV (hr₁.imp_right fun h => ⟨_, h⟩),
          view_eq_unsent hW (hr₂.imp_right fun h => ⟨_, h⟩), hu₂]
      exact ⟨e ▸ List.prefix_refl _, fun _ => e⟩
    case none => cases h₁
    case empty | buffers =>
      -- the caller's buffers, and nothing moves
      cases h₁
      have e := same (Except.ok.inj h₂.symm)
      exact ⟨e ▸ List.prefix_refl _, fun _ => e⟩

theorem startTmp_slots {m : Message} {st : Style} (h : s.startTmp m st = .ok s') :
    s'.out.slots.length = 3 := by
  rcases startTmp_eq_ok h with ⟨-, -, rfl⟩ | ⟨-, -, rfl⟩ <;> rfl

/-- What every `start_*` leaves: three slots in source and stream style, and the header slot
first, in the header. -/
theorem Starts.layout {s₀ : Serializer} (h : Starts s s₀) :
    (s₀.st = .source ∨ s₀.st = .stream → s₀.out.slots.length = 3) ∧
      (s₀.out.pos = 0 → s₀.hp.region = .header) := by
  have hp : ∀ {m : Message}, Fresh m s₀ → s₀.out.pos = 0 → s₀.hp.region = .header :=
    fun hf _ => by rw [hf.hp]; rfl
  cases h with
  | empty h =>
    refine ⟨fun hs => ?_, hp (startEmpty_fresh h)⟩
    rcases startEmpty_eq_ok h with ⟨-, rfl⟩ | ⟨-, -, rfl⟩ <;> simp at hs
  | buffers h =>
    refine ⟨fun hs => ?_, hp (startWithBuffers_fresh h)⟩
    rcases startWithBuffers_eq_ok h with ⟨-, rfl⟩ | ⟨-, -, rfl⟩ | ⟨-, -, -, rfl⟩ <;> simp at hs
  | source h => exact ⟨fun _ => startTmp_slots h, hp (startWithSource_fresh h)⟩
  | stream h => exact ⟨fun _ => startTmp_slots h, hp (startStream_fresh h)⟩

end Serializer

namespace Session

open Serializer

variable {t t' : Session}

/-! ## The slots in every reachable session -/

/-- What holds between calls of the slots of `out_`: three of them in source and stream style,
and the header slot, while it is first, in the header. -/
structure Layout (t : Session) : Prop where
  slots : t.sr.st = .source ∨ t.sr.st = .stream → t.sr.out.slots.length = 3
  header : t.sr.out.pos = 0 → t.sr.hp.region = .header

/-- A call that keeps the style and `out_` keeps the layout. -/
theorem Layout.of_out (hl : Layout t) (hst : t'.sr.st = t.sr.st) (ho : t'.sr.out = t.sr.out) :
    Layout t' :=
  ⟨fun hs => by rw [ho]; exact hl.slots (hst ▸ hs),
   fun h0 => by simp only [Serializer.hp, ho] at h0 ⊢; exact hl.header h0⟩

theorem layout_step {a : Action} (hv : t.sr.tmp0.Valid) (hl : Layout t) (h : t.step a = .ok t') :
    Layout t' := by
  cases a with
  | prepare src flt =>
    obtain ⟨p, hp, rfl⟩ := map_eq_ok.mp h
    obtain ⟨hl₁, hpos, hhp⟩ := prepare_layout hv hp
    obtain ⟨hst, -, -⟩ := prepare_flags hp
    refine ⟨fun hs => hl₁.trans (hl.slots (hst ▸ hs)), fun h0 => ?_⟩
    dsimp only at h0 ⊢
    rw [hpos] at h0
    rw [hhp h0]
    exact hl.header h0
  | consume n =>
    obtain ⟨sr, hc, rfl⟩ := map_eq_ok.mp h
    obtain ⟨hl₁, hhd⟩ := consume_layout hc
    obtain ⟨out, tmp0, isDone, rfl⟩ := consume_shape hc
    refine ⟨fun hs => hl₁.trans (hl.slots hs), fun h0 => ?_⟩
    obtain ⟨h0', hr⟩ := hhd h0
    exact hr.trans (hl.header h0')
  | streamPrepare =>
    obtain ⟨⟨ps, sr⟩, hp, rfl⟩ := map_eq_ok.mp h
    obtain ⟨k, ho⟩ := Stream.prepare_keeps hp
    exact hl.of_out k.st ho
  | streamCommit d =>
    obtain ⟨sr, hc, rfl⟩ := map_eq_ok.mp h
    obtain ⟨k, ho⟩ := Stream.commit_keeps hc
    exact hl.of_out k.st ho
  | streamClose =>
    obtain ⟨sr, hc, rfl⟩ := map_eq_ok.mp h
    obtain ⟨k, ho⟩ := Stream.close_keeps hc
    exact hl.of_out k.st ho

/-- Every reachable session has the layout. -/
theorem Reachable.layout (ht : Reachable t) : Layout t := by
  induction ht with
  | new h => exact ⟨h.layout.1, h.layout.2⟩
  | start _ h _ => exact ⟨h.layout.1, h.layout.2⟩
  | step hr _ he ih => exact layout_step hr.room.valid ih he

/-! ## Two calls in a row -/

/-- In every reachable session without content-coding, when two `prepare` calls in a row both
return a view, the bytes of the first begin those of the second, and are all of them outside
source style and while `Expect: 100-continue` holds. -/
theorem prepare_twice {src src' : Source} {flt flt' : Filter} {p p' : Prepared}
    {V W : List Byte} (ht : Reachable t) (hc : t.sr.isCompressed = false)
    (h₁ : t.sr.prepare src flt = .ok p) (h₂ : p.next.prepare src' flt' = .ok p')
    (hV : p.result.map p.next.mem.readAll = .ok V)
    (hW : p'.result.map p'.next.mem.readAll = .ok W) :
    V <+: W ∧ (t.sr.st ≠ .source ∨ t.sr.isExpectContinue = true → W = V) :=
  prepare_prepare hc ht.room.valid ht.layout.slots ht.layout.header h₁ h₂ hV hW

theorem prepare_twice_source_reads :
    ∃ s₀ p p', (new 64).startWithSource (sampleMessage false .identity false) = .ok s₀ ∧
      s₀.prepare (.ofList [97] false 0) (.ofList []) = .ok p ∧
      p.next.prepare (.ofList [98] false 0) (.ofList []) = .ok p' ∧
      p.result.map p.next.mem.readAll = .ok [72, 13, 10, 97] ∧
      p'.result.map p'.next.mem.readAll = .ok [72, 13, 10, 97, 98] ∧
      ([72, 13, 10, 97] : List Byte) <+: [72, 13, 10, 97, 98] :=
  ⟨_, _, _, rfl, rfl, rfl, rfl, rfl, (prepare_twice (t := init _) (V := [72, 13, 10, 97])
    (W := [72, 13, 10, 97, 98])
    (.new (w := 64) (.source (m := sampleMessage false .identity false) rfl)) rfl
    (rfl : Serializer.prepare _ (.ofList [97] false 0) (.ofList []) = _)
    (rfl : Serializer.prepare _ (.ofList [98] false 0) (.ofList []) = _) rfl rfl).1⟩

end Session

end HttpProto
