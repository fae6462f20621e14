import HttpProto.FilterInput
import HttpProto.Views

/-!
# The caller's loop: rounds of `prepare` and `consume`

The caller of a serializer loops: `prepare`, write the view, `consume` what was written, until
the message is done. With a writer that takes all of each view, a round is `prepare` then
`consume` of all of it, and `drive` runs rounds until the message is done, taking each round's
source from the session so far. When every round from a state of some invariant keeps it and
either ends the message or lowers a measure, the loop ends within one round more than the
measure: `drive_done_of_round` does that induction once for every style.

In source and stream style without content-coding a round needs three facts besides the
framing invariants. The flag of `Expect: 100-continue` stays down; no slot but the header's is
passed, since past it the slot loop writes outside the array; and `tmp0_`
keeps the slice `start_*` gave it. `Live` gathers them, and every call keeps them.

What the loop returns is reached by a run of its calls (`drive_run`), so every result about runs
holds of it.

## Main definitions

* `Session.round`, `Session.drive`: the caller's loop
* `Session.Live`: the three facts

## Main results

* `Serializer.fillSlots_ok`: the slot loop fits while no slot but the header's is passed
* `Serializer.consume_drains`: `consume` of all that is unsent
* `Session.Run.live`: every run keeps `Live`
* `Session.drive_done_of_round`: a measure that every round lowers bounds the rounds
* `Session.drive_run`: the loop's calls form a run
-/

namespace HttpProto

namespace Serializer

open CircularBuffer

variable {s s' : Serializer} {n : Nat}

/-- On the three slots of the source and stream styles, the slot loop stays within the array
while no slot but the header's is passed. -/
theorem fillSlots_ok (hslots : s.out.slots.length = 3) (hpos : s.out.pos ≤ 1) :
    ∃ s', fillSlots s = .ok s' := by
  obtain ⟨d₁, d₂, hd⟩ : ∃ d₁ d₂, s.tmp0.data = [d₁, d₂] := by
    unfold CircularBuffer.data; split <;> exact ⟨_, _, rfl⟩
  rcases Nat.le_one_iff_eq_zero_or_eq_one.mp hpos with h | h <;>
    simp [fillSlots, hd, h, BufferArray.setFrom, BufferArray.set, hslots, bind, Except.bind,
      Except.map]

/-- Without content-coding or `Expect: 100-continue`, in source and stream style, consuming all
that is unsent empties `tmp0_`, and ends the message exactly when `more_` is false. -/
theorem consume_drains (hst : s.st = .source ∨ s.st = .stream) (hc : s.isCompressed = false)
    (hd : s.isDone = false) (hx : s.isExpectContinue = false) (hslots : s.out.slots.length = 3)
    (hhs : s.out.pos = 0 → HeaderSlot s) :
    ∃ s', s.consume s.unsent.length = .ok s' ∧ s'.tmp0.size = 0 ∧ s'.isDone = !s.more := by
  have drain : ∀ o : BufferArray, ({ s with out := o } : Serializer).consumeBody s.tmp0.size =
      .ok { s with out := o, tmp0 := s.tmp0.consume s.tmp0.size, isDone := !s.more } := fun o => by
    rw [consumeBody_eq_tmp0 (by rcases hst with h | h <;> simp [h])]
    cases s.more <;> simp [hc, hd]
  have hne : s.out.slots ≠ [] := by intro h; simp [h] at hslots
  have hlen : s.unsent.length = (if s.out.pos = 0 then s.hp.size else 0) + s.tmp0.size := by
    unfold unsent
    split_ifs with h0
    · simp [(hhs h0).fits]
    · simp
  unfold consume
  rw [if_neg (by simp [hd]), if_neg (by simp [hx])]
  split_ifs at hlen ⊢ with h0 hlt
  · omega
  · -- the header slot is passed, then the body drained
    have hpass := BufferArray.consume_of_eq (data_of_pos_zero hne h0)
    rw [h0] at hpass
    simp only [hpass, hlen, Nat.add_sub_cancel_left, bind, Except.bind]
    exact ⟨_, drain _, by simp, rfl⟩
  · -- past the header slot, only the body is unsent
    rw [hlen, Nat.zero_add]
    exact ⟨_, drain s.out, by simp, rfl⟩

/-- Without `Expect: 100-continue`, in source and stream style, `consume` passes no slot but the
header's. -/
theorem consume_pos_le_one (hst : s.st = .source ∨ s.st = .stream)
    (hx : s.isExpectContinue = false) (hslots : s.out.slots.length = 3) (hpos : s.out.pos ≤ 1)
    (h : s.consume n = .ok s') :
    s'.out.pos ≤ 1 := by
  have hbody : ∀ {s₁ : Serializer} {k : Nat}, s₁.consumeBody k = .ok s' → s₁.st = s.st →
      s'.out = s₁.out := fun hb he => by
    rw [consumeBody_eq_tmp0 (by rw [he]; rcases hst with h | h <;> simp [h])] at hb
    cases hb; rfl
  have hne : s.out.slots ≠ [] := by intro h; simp [h] at hslots
  have hd := consume_isDone h
  unfold consume at h
  rw [if_neg (by simp [hd]), if_neg (by simp [hx])] at h
  split_ifs at h with h0 hlt
  · -- within the header slot
    obtain ⟨o, ho, rfl⟩ := map_eq_ok.mp h
    rw [BufferArray.consume_of_lt (data_of_pos_zero hne h0) hlt] at ho
    cases ho
    exact hpos
  · -- past the header slot, into the body
    obtain ⟨o, ho, h⟩ := bind_eq_ok.mp h
    rw [BufferArray.consume_of_eq (data_of_pos_zero hne h0)] at ho
    cases ho
    rw [hbody h rfl]
    dsimp only
    omega
  · rw [hbody h rfl]
    exact hpos

/-- `stream.prepare()` keeps the slice of `tmp0_` and `more_`. -/
theorem Stream.prepare_frame {r : List Nat × Serializer} (h : Stream.prepare s = .ok r) :
    r.2.tmp0.cap = s.tmp0.cap ∧ r.2.more = s.more := by
  unfold Stream.prepare at h
  split_ifs at h
  all_goals first
    | cases h
    | (obtain ⟨⟨_, _⟩, hp, rfl⟩ := map_eq_ok.mp h
       first | exact ⟨rfl, rfl⟩ | (obtain ⟨-, -, rfl⟩ := prepare_eq_ok hp; exact ⟨rfl, rfl⟩))

end Serializer

namespace Session

open Serializer

variable {t t' : Session} {c : Nat} {src : Source} {flt : Filter}

/-! ## What a run keeps -/

/-- What a session without `Expect: 100-continue` keeps in source and stream style: the flag
stays down, no slot but the header's is passed, and `tmp0_` keeps the slice of `c` bytes it was
given. -/
structure Live (c : Nat) (t : Session) : Prop where
  expect : t.sr.isExpectContinue = false
  pos : t.sr.out.pos ≤ 1
  cap : t.sr.tmp0.cap = c

theorem live_init {m : Message} {s₀ : Serializer} (hf : Fresh m s₀) (hx : m.expect100 = false) :
    Live s₀.tmp0.cap (init s₀) :=
  ⟨hf.isExpectContinue.trans hx, hf.pos.trans_le (Nat.zero_le 1), rfl⟩

/-- Every call keeps the three facts, on a well-formed `tmp0_` and three slots. -/
theorem live_step {a : Action} (hv : t.sr.tmp0.Valid)
    (hst : t.sr.st = .source ∨ t.sr.st = .stream) (hslots : t.sr.out.slots.length = 3)
    (hl : Live c t) (h : t.step a = .ok t') : Live c t' := by
  -- the stream handle keeps the flag and the slots, and grows `tmp0_` in its slice
  have handle : ∀ {sr : Serializer}, Keeps t.sr sr → sr.out = t.sr.out → sr.tmp0.cap = c →
      Live c { t' with sr } := fun hk ho hc =>
    ⟨hk.isExpectContinue.trans hl.expect, ho ▸ hl.pos, hc⟩
  cases a with
  | prepare src flt =>
    obtain ⟨p, hp, rfl⟩ := map_eq_ok.mp h
    obtain ⟨-, _, g⟩ := prepare_ring hv hp
    exact ⟨(prepare_of_not_expect hl.expect hp).1.isExpectContinue.trans hl.expect,
      (prepare_layout hv hp).2.1 ▸ hl.pos, g.cap.trans hl.cap⟩
  | consume n =>
    obtain ⟨sr, hc, rfl⟩ := map_eq_ok.mp h
    refine ⟨(consume_frame hc).1.trans hl.expect,
      consume_pos_le_one hst hl.expect hslots hl.pos hc, ?_⟩
    rcases consume_tmp0 hc with e | ⟨k, e⟩ <;> simp [e, hl.cap]
  | streamPrepare =>
    obtain ⟨⟨ps, sr⟩, hp, rfl⟩ := map_eq_ok.mp h
    obtain ⟨hk, ho⟩ := Stream.prepare_keeps hp
    exact handle hk ho ((Stream.prepare_frame hp).1.trans hl.cap)
  | streamCommit d =>
    obtain ⟨sr, hc, rfl⟩ := map_eq_ok.mp h
    obtain ⟨hk, ho⟩ := Stream.commit_keeps hc
    obtain ⟨-, _, g, -⟩ := Stream.commit_ring (by exact hv) hc
    exact handle hk ho (g.cap.trans hl.cap)
  | streamClose =>
    obtain ⟨sr, hc, rfl⟩ := map_eq_ok.mp h
    obtain ⟨hk, ho⟩ := Stream.close_keeps hc
    obtain ⟨-, -, -, _, g, -⟩ := Stream.close_ring hv hc
    exact handle hk ho (g.cap.trans hl.cap)

/-- Along every run of an invariant that gives a well-formed `tmp0_` and three slots in source or
stream style, the three facts hold. -/
theorem Run.live {as : List Action} (P : Session → Prop)
    (hP : ∀ t a t', P t → t.Allowed a → t.step a = .ok t' → P t')
    (hfit : ∀ t, P t →
      t.sr.tmp0.Valid ∧ (t.sr.st = .source ∨ t.sr.st = .stream) ∧ t.sr.out.slots.length = 3)
    (h : Run t as t') (hp : P t) (hl : Live c t) : P t' ∧ Live c t' :=
  h.invariant (fun t => P t ∧ Live c t) (fun _ _ _ hq ha he =>
    ⟨hP _ _ _ hq.1 ha he,
     let ⟨hv, hst, hsl⟩ := hfit _ hq.1; live_step hv hst hsl hq.2 he⟩) ⟨hp, hl⟩

/-! ## The loop -/

/-- A `consume` that returned, as a call of the session. -/
theorem step_consume_ok {n : Nat} {sr : Serializer} (h : t.sr.consume n = .ok sr) :
    t.step (.consume n) =
      .ok { t with sr, sent := t.sent ++ t.pending.take n, pending := t.pending.drop n } := by
  simp only [step, h]; rfl

/-- One round of the caller's loop, with a writer that takes all of the view: `prepare`, then
`consume` of all of it. -/
def round (t : Session) (src : Source) (flt : Filter) : Except Fault Session :=
  (t.step (.prepare src flt)).bind fun t₁ => t₁.step (.consume t₁.pending.length)

/-- The caller's loop, `k` rounds at most: it stops once the message is done, and otherwise
runs a round with the source `next` gives for the session so far. -/
def drive (next : Session → Source) (flt : Filter) : Nat → Session → Except Fault Session
  | 0, t => .ok t
  | k + 1, t => if t.sr.isDone then .ok t else (t.round (next t) flt).bind (drive next flt k)

theorem drive_of_done {next : Session → Source} (hd : t.sr.isDone = true) (k : Nat) :
    drive next flt k t = .ok t := by
  cases k <;> simp [drive, hd]

/-- When every round from a state of `P` that is not done keeps `P` and ends the message or
lowers `μ`, the loop ends the message within one round more than `μ`. -/
theorem drive_done_of_round {next : Session → Source} (P : Session → Prop) (μ : Session → Nat)
    (hround : ∀ t, P t → t.sr.isDone = false → ∃ t₂, t.round (next t) flt = .ok t₂ ∧ P t₂ ∧
      (t₂.sr.isDone = true ∨ μ t₂ < μ t))
    {k : Nat} (hP : P t) (hk : μ t < k) :
    ∃ t', drive next flt k t = .ok t' ∧ t'.sr.isDone = true ∧ P t' := by
  induction k generalizing t with
  | zero => omega
  | succ k ih =>
    cases hd : t.sr.isDone
    · obtain ⟨t₂, hr, hP₂, hp⟩ := hround t hP hd
      rw [drive, if_neg (by simp [hd]), hr]
      rcases hp with hd₂ | hlt
      · exact ⟨t₂, drive_of_done hd₂ k, hd₂, hP₂⟩
      · exact ih hP₂ (by omega)
    · exact ⟨t, by rw [drive, if_pos hd], hd, hP⟩

/-- A round is a run of its two calls, each allowed. -/
theorem round_run {src : Source} (h : t.round src flt = .ok t') : ∃ as, Run t as t' := by
  obtain ⟨t₁, h₁, h₂⟩ := bind_eq_ok.mp h
  exact ⟨[.prepare src flt, .consume t₁.pending.length],
    .cons (by trivial) h₁ (.cons (by exact le_rfl) h₂ (.nil _))⟩

/-- What the loop returns, a run of its calls reaches. -/
theorem drive_run {next : Session → Source} {k : Nat} (h : drive next flt k t = .ok t') :
    ∃ as, Run t as t' := by
  induction k generalizing t with
  | zero => cases h; exact ⟨[], .nil _⟩
  | succ k ih =>
    rw [drive] at h
    split at h
    · cases h; exact ⟨[], .nil _⟩
    · obtain ⟨t₂, hr, h⟩ := bind_eq_ok.mp h
      obtain ⟨as, hrun⟩ := round_run hr
      obtain ⟨bs, hrun'⟩ := ih h
      exact ⟨as ++ bs, hrun.append hrun'⟩

end Session

end HttpProto
