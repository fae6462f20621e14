import Mathlib.Data.List.Infix
import HttpProto.Session

/-!
# `Expect: 100-continue`

A message whose header asks `Expect: 100-continue` is sent in two phases: the header alone,
then, once the caller has sent all of it, one `prepare` that returns `expect_100_continue`,
so that the caller waits for the peer's interim response before the body.

The flag `is_expect_continue_` is the whole mechanism: `start_init` sets it from the message,
the `prepare` that returns the sentinel clears it, and no other call touches it. While it is
set, `prepare` returns the header slot and `consume` takes from it alone. Over every run, in
every style and content-coding, this gives the law of the `prepare` calls the log records.

## Main definitions

* `Session.HeaderPhase`: what holds while the flag is set
* `Session.ExpectInv`: the invariant of every run

## Main results

* `Session.expectInv_step`: every allowed call keeps the invariant
* `Session.expect_continue_prepares`: the calls made before the header is sent return the
  rest of it and call neither the source nor the filter; the sentinel comes once, from the
  first call after the header is sent, and only when the message asks for it
-/

namespace HttpProto

namespace Session

open Serializer

variable (m : Message)

/-- While the flag is set, what was sent is the front of the header; the header slot is first
exactly while part of it is unsent, and then designates that part; what is left of the last
view lies within it. -/
structure HeaderPhase (s : Session) : Prop where
  header : s.sr.mem.header = m.header
  notDone : s.sr.isDone = false
  sent : s.sent <+: m.header
  pos : s.sr.out.pos = 0 ↔ s.sent.length < m.header.length
  hp : s.sr.out.pos = 0 →
    s.sr.hp = ⟨.header, s.sent.length, m.header.length - s.sent.length⟩
  pending : s.pending <+: m.header.drop s.sent.length

/-- The calls made while part of the header was unsent returned the rest of it, and called
neither the source nor the filter. -/
def HeaderCalls (cs : List Call) : Prop :=
  ∀ c ∈ cs, m.expect100 → c.sentBefore < m.header.length →
    c.result = .ok (m.header.drop c.sentBefore) ∧ c.events = []

/-- A call returned `expect_100_continue` exactly when the message asks for it, the header was
sent before it, and no call before it came after the header. -/
def SentinelCalls (cs : List Call) : Prop :=
  ∀ pre c post, cs = pre ++ c :: post →
    (c.result = .error .expect100Continue ↔
      m.expect100 ∧ m.header.length ≤ c.sentBefore ∧ ∀ q ∈ pre, q.sentBefore < m.header.length)

/-- The invariant of the runs from a `start_*` for `m`. -/
structure ExpectInv (s : Session) : Prop where
  flag : s.sr.isExpectContinue =
    (m.expect100 && (calls s.log).all fun c => c.sentBefore < m.header.length)
  phase : s.sr.isExpectContinue = true → HeaderPhase m s
  sentBefore_le : ∀ c ∈ calls s.log, c.sentBefore ≤ s.sent.length
  headerCalls : HeaderCalls m (calls s.log)
  sentinelCalls : SentinelCalls m (calls s.log)

variable {m}

theorem sentinelCalls_snoc {cs : List Call} {c : Call} (h : SentinelCalls m cs)
    (hc : c.result = .error .expect100Continue ↔
      m.expect100 ∧ m.header.length ≤ c.sentBefore ∧ ∀ q ∈ cs, q.sentBefore < m.header.length) :
    SentinelCalls m (cs ++ [c]) := by
  intro pre c' post heq
  rcases List.eq_nil_or_concat post with rfl | ⟨post', x, rfl⟩
  · obtain ⟨rfl, hc'⟩ := List.append_inj' heq rfl
    cases hc'
    exact hc
  · rw [List.concat_eq_append, ← List.cons_append, ← List.append_assoc] at heq
    exact h pre c' post' (List.append_inj' heq rfl).1

theorem sentBefore_le_snoc {cs : List Call} {n : Nat} {r : Except Error (List Byte)}
    {evs : List Event} (h : ∀ c ∈ cs, c.sentBefore ≤ n) :
    ∀ c ∈ cs ++ [⟨n, r, evs⟩], c.sentBefore ≤ n := by
  simp only [List.mem_append, List.mem_singleton]
  rintro c (hc | rfl)
  exacts [h c hc, le_rfl]

theorem expectInv_init {s₀ : Serializer} (hs : Started m s₀) : ExpectInv m (init s₀) := by
  have hf := hs.fresh
  refine ⟨by simp [init, calls, hf.isExpectContinue], fun _ => ?_, by simp [init, calls],
    by simp [init, calls, HeaderCalls], by simp [init, calls, SentinelCalls]⟩
  have hH : 0 < m.header.length := List.length_pos.mpr m.header_ne
  exact ⟨hf.header, hf.isDone, List.nil_prefix, by simp [init, hf.pos, hH],
    fun _ => by simp [init, hf.hp, Message.headerBuffer], List.nil_prefix⟩

/-! ## `prepare` -/

/-- The rest of the header, read through the header slot. -/
theorem readAll_headerSlot {s : Session} (ph : HeaderPhase m s) (h0 : s.sr.out.pos = 0) :
    s.sr.mem.readAll [s.sr.hp] = m.header.drop s.sent.length := by
  simp [ph.hp h0, ph.header, List.take_of_length_le]

theorem expectInv_prepare {s s' : Session} {src : Source} {flt : Filter} (hi : ExpectInv m s)
    (h : s.step (.prepare src flt) = .ok s') : ExpectInv m s' := by
  obtain ⟨p, hp, rfl⟩ := map_eq_ok.mp h
  have hd := prepare_isDone hp
  cases hx : s.sr.isExpectContinue
  · -- the flag is down: the call keeps the frame and cannot return the sentinel
    obtain ⟨k, hr⟩ := prepare_of_not_expect hx hp
    have hall : ¬(m.expect100 ∧ ∀ q ∈ calls s.log, q.sentBefore < m.header.length) := by
      simpa [hx] using hi.flag
    have hlate : m.expect100 → m.header.length ≤ s.sent.length := fun he => by
      obtain ⟨q, hq, hlt⟩ : ∃ q ∈ calls s.log, m.header.length ≤ q.sentBefore := by
        simpa [he] using hall
      exact hlt.trans (hi.sentBefore_le q hq)
    refine ⟨?_, fun h => absurd (k.isExpectContinue.symm.trans h) (by simp [hx]), ?_, ?_, ?_⟩
    · simp only [calls_append, calls, List.all_append, k.isExpectContinue, hx]
      cases he : m.expect100 <;> simp_all
    · simpa [calls] using sentBefore_le_snoc hi.sentBefore_le
    · simp only [HeaderCalls, calls_append, calls, List.mem_append, List.mem_singleton]
      rintro c (hc | rfl) he hlt
      · exact hi.headerCalls c hc he hlt
      · exact absurd hlt (Nat.not_lt.mpr (hlate he))
    · simp only [calls_append, calls]
      exact sentinelCalls_snoc hi.sentinelCalls
        (iff_of_false (by simpa using hr) fun hs => hall ⟨hs.1, hs.2.2⟩)
  · -- the flag is up
    have ph := hi.phase hx
    have hflag : m.expect100 = true ∧ ∀ q ∈ calls s.log, q.sentBefore < m.header.length := by
      simpa using hi.flag.symm.trans hx
    by_cases h0 : s.sr.out.pos = 0
    · rw [prepare_expect_header hd hx h0] at hp
      cases hp
      have hk := ph.pos.mp h0
      have hb : Except.map s.sr.mem.readAll (.ok [s.sr.hp] : Except Error _) =
          .ok (m.header.drop s.sent.length) := by
        simp [Except.map, readAll_headerSlot ph h0]
      simp only [hb, Except.toOption, Option.getD_some]
      refine ⟨?_, fun _ => { ph with pending := List.prefix_rfl }, ?_, ?_, ?_⟩
      · simpa [calls_append, calls, hx, hflag.1, hk] using hflag.2
      · simpa [calls] using sentBefore_le_snoc hi.sentBefore_le
      · simp only [HeaderCalls, calls_append, calls, List.mem_append, List.mem_singleton]
        rintro c (hc | rfl) he hlt
        · exact hi.headerCalls c hc he hlt
        · exact ⟨rfl, rfl⟩
      · simp only [calls_append, calls]
        exact sentinelCalls_snoc hi.sentinelCalls (by simp [hk])
    · rw [prepare_expect_sentinel hd hx h0] at hp
      cases hp
      have hk : m.header.length ≤ s.sent.length := Nat.not_lt.mp (mt ph.pos.mpr h0)
      refine ⟨?_, (fun h => by cases h), ?_, ?_, ?_⟩
      · simp [calls_append, calls, Nat.not_lt.mpr hk]
      · simpa [calls] using sentBefore_le_snoc hi.sentBefore_le
      · simp only [HeaderCalls, calls_append, calls, List.mem_append, List.mem_singleton]
        rintro c (hc | rfl) he hlt
        · exact hi.headerCalls c hc he hlt
        · exact absurd hlt (Nat.not_lt.mpr hk)
      · simp only [calls_append, calls]
        exact sentinelCalls_snoc hi.sentinelCalls (by simpa [hflag.1, hk] using hflag.2)

/-! ## `consume` -/

/-- While the flag is set, `consume(n)` moves the header slot `n` bytes on: the caller has
then sent `n` more bytes of the header. -/
theorem HeaderPhase.consume {s : Session} {n : Nat} {out : BufferArray} (ph : HeaderPhase m s)
    (hn : n ≤ s.pending.length) (hout : s.sr.out.consume n = .ok out) :
    HeaderPhase m { s with sr := { s.sr with out }, sent := s.sent ++ s.pending.take n,
                           pending := s.pending.drop n } := by
  have hsent := List.prefix_iff_eq_take.mp ph.sent
  have hpend := List.prefix_iff_eq_take.mp ph.pending
  have hlen : s.pending.length ≤ m.header.length - s.sent.length := by
    simpa using ph.pending.length_le
  by_cases h0 : s.sr.out.pos = 0
  · -- the header slot is first: it designates the unsent rest of the header
    have hk := ph.pos.mp h0
    obtain ⟨b, bs, hslots⟩ : ∃ b bs, s.sr.out.slots = b :: bs := by
      cases h : s.sr.out.slots with
      | nil => simpa [Serializer.hp, h, ConstBuffer.empty] using ph.hp h0
      | cons b bs => exact ⟨b, bs, rfl⟩
    have hb : b = ⟨.header, s.sent.length, m.header.length - s.sent.length⟩ := by
      simpa [Serializer.hp, hslots] using ph.hp h0
    have hdata : s.sr.out.data = b :: bs := by simp [BufferArray.data, h0, hslots]
    have hsent' : s.sent ++ s.pending.take n = m.header.take (s.sent.length + n) := by
      rw [List.take_add, ← hsent, hpend, List.take_take, Nat.min_eq_left hn]
    have hlen' : (s.sent ++ s.pending.take n).length = s.sent.length + n := by
      rw [hsent', List.length_take]; omega
    have hpend' : s.pending.drop n <+: m.header.drop (s.sent.length + n) := by
      simpa [Nat.add_comm] using ph.pending.drop n
    rcases Nat.lt_or_eq_of_le (hn.trans hlen) with hlt | heq
    · rw [BufferArray.consume_of_lt hdata (by rw [hb]; exact hlt)] at hout
      cases hout
      refine ⟨ph.header, ph.notDone, hsent' ▸ List.take_prefix _ _, ?_, fun _ => ?_, ?_⟩
      · simp only [h0, hlen', true_iff]; omega
      · simp only [Serializer.hp, h0, hslots, List.set_cons_zero, List.headD_cons, hb, hlen',
          ConstBuffer.advance, ConstBuffer.mk.injEq, true_and]
        omega
      · simpa [hlen'] using hpend'
    · have hn' : n = b.size := by rw [hb]; exact heq
      rw [hn', BufferArray.consume_of_eq hdata] at hout
      cases hout
      refine ⟨ph.header, ph.notDone, hsent' ▸ List.take_prefix _ _, ?_, fun h => by simp at h, ?_⟩
      · simp only [hlen']; omega
      · simp [List.drop_eq_nil_of_le (hlen.trans heq.ge)]
  · -- the header is sent: nothing is left of the view, and the slot stays passed over
    have hk : m.header.length ≤ s.sent.length := Nat.not_lt.mp (mt ph.pos.mpr h0)
    have hnil : s.pending = [] := by
      simpa [List.drop_eq_nil_of_le hk] using ph.pending
    obtain rfl : n = 0 := by simpa [hnil] using hn
    have hpos := (BufferArray.consume_slots hout).2
    refine ⟨ph.header, ph.notDone, by simpa using ph.sent, ?_, fun h => ?_, by simp [hnil]⟩
    · simp only [List.take_zero, List.append_nil]; omega
    · exact absurd (Nat.le_zero.mp (h ▸ hpos)) h0

theorem expectInv_consume {s s' : Session} {n : Nat} (hi : ExpectInv m s)
    (ha : s.Allowed (.consume n)) (h : s.step (.consume n) = .ok s') : ExpectInv m s' := by
  obtain ⟨sr, hc, rfl⟩ := map_eq_ok.mp h
  obtain ⟨hx, -⟩ := consume_frame hc
  refine ⟨hx.trans hi.flag, fun hx' => ?_, fun c hc => ?_, hi.headerCalls, hi.sentinelCalls⟩
  · have hx₀ := hx.symm.trans hx'
    obtain ⟨-, out, hout, rfl⟩ := consume_of_expect hx₀ hc
    exact (hi.phase hx₀).consume ha hout
  · have := hi.sentBefore_le c hc
    simp only [List.length_append]
    omega

/-! ## The stream handle -/

/-- A call that keeps the frame and `out_`, what was sent, what is left of the view, and the
`prepare` calls of the log, keeps the invariant. -/
theorem ExpectInv.of_keeps {s s' : Session} (hi : ExpectInv m s) (hk : Keeps s.sr s'.sr)
    (ho : s'.sr.out = s.sr.out) (hsent : s'.sent = s.sent) (hpend : s'.pending = s.pending)
    (hlog : calls s'.log = calls s.log) : ExpectInv m s' := by
  refine ⟨by rw [hk.isExpectContinue, hlog]; exact hi.flag, fun hx => ?_,
    by rw [hlog, hsent]; exact hi.sentBefore_le, hlog ▸ hi.headerCalls,
    hlog ▸ hi.sentinelCalls⟩
  have ph := hi.phase (hk.isExpectContinue ▸ hx)
  have hhp : s'.sr.hp = s.sr.hp := by simp only [Serializer.hp, ho]
  exact ⟨hk.header.trans ph.header, hk.isDone.trans ph.notDone, hsent ▸ ph.sent,
    by rw [ho, hsent]; exact ph.pos, by rw [ho, hhp, hsent]; exact ph.hp,
    by rw [hpend, hsent]; exact ph.pending⟩

/-- Every allowed call keeps the invariant. -/
theorem expectInv_step {s s' : Session} {a : Action} (hi : ExpectInv m s) (ha : s.Allowed a)
    (h : s.step a = .ok s') : ExpectInv m s' := by
  cases a with
  | prepare src flt => exact expectInv_prepare hi h
  | consume n => exact expectInv_consume hi ha h
  | streamPrepare =>
    obtain ⟨⟨ps, sr⟩, hsr, rfl⟩ := map_eq_ok.mp h
    obtain ⟨k, ho⟩ := Stream.prepare_keeps hsr
    exact hi.of_keeps k ho rfl rfl rfl
  | streamCommit d =>
    obtain ⟨sr, hsr, rfl⟩ := map_eq_ok.mp h
    obtain ⟨k, ho⟩ := Stream.commit_keeps hsr
    exact hi.of_keeps k ho rfl rfl (by simp [calls])
  | streamClose =>
    obtain ⟨sr, hsr, rfl⟩ := map_eq_ok.mp h
    obtain ⟨k, ho⟩ := Stream.close_keeps hsr
    exact hi.of_keeps k ho rfl rfl rfl

/-! ## Over every run -/

/-- In every style and content-coding, over every run from a `start_*` for `m`: each `prepare`
made while part of the header was unsent returned the rest of the header and called neither
the source nor the filter; and a `prepare` returned `expect_100_continue` exactly when the
message asks for it, the header was sent before it, and no earlier `prepare` came after the
header. -/
theorem expect_continue_prepares {s₀ : Serializer} {as : List Action} {t : Session}
    (hs : Started m s₀) (hrun : Run (init s₀) as t) :
    (∀ c ∈ calls t.log, m.expect100 → c.sentBefore < m.header.length →
      c.result = .ok (m.header.drop c.sentBefore) ∧ c.events = []) ∧
    (∀ pre c post, calls t.log = pre ++ c :: post →
      (c.result = .error .expect100Continue ↔
        m.expect100 ∧ m.header.length ≤ c.sentBefore ∧
          ∀ q ∈ pre, q.sentBefore < m.header.length)) :=
  have hi := hrun.invariant (ExpectInv m) (fun _ _ _ => expectInv_step) (expectInv_init hs)
  ⟨hi.headerCalls, hi.sentinelCalls⟩

/-- The header sent in two parts, the sentinel, then the body `ab`. -/
theorem expect_continue_prepares_source :
    ∃ s₀ t, (Serializer.new 64).startWithSource (sampleMessage false .identity true) = .ok s₀ ∧
      Run (init s₀) [.prepare (.ofList [97, 98] true 0) (.ofList []), .consume 2,
        .prepare (.ofList [97, 98] true 0) (.ofList []), .consume 1,
        .prepare (.ofList [97, 98] true 0) (.ofList []),
        .prepare (.ofList [97, 98] true 0) (.ofList []), .consume 2] t ∧
      ((calls t.log).map fun c => c.result.toOption) =
        [some [72, 13, 10], some [10], none, some [97, 98]] ∧
      HeaderCalls (sampleMessage false .identity true) (calls t.log) ∧
      SentinelCalls (sampleMessage false .identity true) (calls t.log) :=
  exists_run_of_exec_of (by decide) fun _ _ hs₀ hrun _ =>
    expect_continue_prepares (.source hs₀) hrun

end Session

end HttpProto
