import HttpProto.Loop
import HttpProto.SourceFraming

/-!
# Source style: the caller's loop ends the message

In source style without content-coding or `Expect: 100-continue`, with a writer that takes all
of each view and a source that serves a body `B` from its front, the caller's loop ends the
message within `|B| + 1` rounds, and has then sent the header and `B`, framed. A round starts
with `tmp0_` drained, so that all of its slice is free: its `prepare` reads once while `more_`
holds, into a buffer of at least one byte, as `start_source` made the slice larger than a
chunk's framing; its `consume` of all the view drains `tmp0_` again, which ends the message once
a read has ended the body. A round that does not end the message takes a byte or more of `B`.

## Main definitions

* `Source.ofBody`: the source that serves a body from its front
* `Session.DriveInv`: what holds between the rounds of the loop over `B`

## Main results

* `Serializer.prepareSource_reads`: the source branch, from a drained `tmp0_`
* `Session.source_round`: one round
* `Session.source_drive_finishes`: the loop ends within `|B| + 1` rounds, having sent the
  framed message
-/

namespace HttpProto

namespace Serializer

open CircularBuffer

variable {s s' : Serializer} {src : Source}

/-- The identity-framed read returns whenever `tmp0_` has a slice. -/
theorem readIdentity_ok (hcap : 0 < s.tmp0.cap) : ∃ r, s.readIdentity src = .ok r := by
  obtain ⟨bs, hp⟩ := prepare_ok le_rfl hcap
  exact ⟨_, by rw [readIdentity, hp]; rfl⟩

/-- The identity-framed read asks for all the free space of `tmp0_`. -/
theorem readIdentity_reads {err : Option Nat} {evs : List Event}
    (h : s.readIdentity src = .ok (s', err, evs)) :
    evs = [.read s.tmp0.capacity (src.read s.tmp0.capacity)] := by
  obtain ⟨⟨dest, tmp0⟩, hp, h⟩ := map_eq_ok.mp h
  have hlen := length_addrs_prepare hp
  dsimp only at h
  split_ifs at h <;> cases h <;> rw [hlen]

/-- With room for more than a chunk's framing, the chunked read asks for the free space of
`tmp0_` less the framing. -/
theorem readChunked_reads {err : Option Nat} {evs : List Event}
    (hroom : chunkedOverhead < s.tmp0.capacity) (h : s.readChunked src = .ok (s', err, evs)) :
    evs = [.read (s.tmp0.capacity - chunkedOverhead)
      (src.read (s.tmp0.capacity - chunkedOverhead))] := by
  unfold readChunked at h
  rw [if_neg (Nat.not_le.mpr hroom)] at h
  obtain ⟨⟨dest, tmp0⟩, hp, h⟩ := bind_eq_ok.mp h
  have hn : ((addrs dest).drop 18).length = s.tmp0.capacity - chunkedOverhead := by
    simp only [List.length_drop, length_addrs_prepare hp, chunkedOverhead]; omega
  dsimp only at h
  split_ifs at h
  · cases h; rw [hn]
  · obtain ⟨_, -, h⟩ := map_eq_ok.mp h
    cases h; rw [hn]

/-- Without content-coding, from a `tmp0_` with room for more than a chunk's framing, and with a
source that never fails: the source branch reads once while `more_` holds, into a buffer of at
least one byte, and returns a view of all that is unsent. -/
theorem prepareSource_reads (hv : s.tmp0.Valid) (hslots : s.out.slots.length = 3)
    (hpos : s.out.pos ≤ 1) (hhp : s.out.pos = 0 → s.hp.region = .header)
    (hroom : chunkedOverhead < s.tmp0.capacity) (hec : ∀ n, (src.read n).ec = 0) :
    ∃ p n, s.prepareSource src = .ok p ∧ p.result.map p.next.mem.readAll = .ok p.next.unsent ∧
      0 < n ∧ p.events = if s.more then [.read n (src.read n)] else [] := by
  have hcap : 0 < s.tmp0.cap := by simp only [CircularBuffer.capacity] at hroom; omega
  -- the read stage returns, without an error code
  obtain ⟨s₁, evs, n, h₁, hn, hevs⟩ : ∃ s₁ evs n,
      (if s.more then (if s.isChunked then s.readChunked src else s.readIdentity src)
        else .ok (s, none, [])) = .ok (s₁, none, evs) ∧ 0 < n ∧
      (s.more = true → evs = [.read n (src.read n)]) := by
    split
    · split
      · obtain ⟨⟨s₁, err, evs⟩, h⟩ := readChunked_ok s src
        have he := readChunked_reads hroom h
        obtain ⟨-, -, ⟨rfl, -⟩ | ⟨k, -, -, rfl, -⟩⟩ := readChunked_contents hv h
        · simp at he
        · exact ⟨s₁, evs, _, by rw [h, if_neg (by simp [hec])], Nat.sub_pos_of_lt hroom,
            fun _ => he⟩
      · obtain ⟨⟨s₁, err, evs⟩, h⟩ : ∃ r, s.readIdentity src = .ok r := readIdentity_ok hcap
        obtain ⟨k, -, -, -, -, rfl, -⟩ := readIdentity_contents hv h
        exact ⟨s₁, evs, _, by rw [h, if_neg (by simp [hec])], Nat.zero_lt_of_lt hroom,
          fun _ => readIdentity_reads h⟩
    · exact ⟨s, [], 1, rfl, Nat.one_pos, fun h => by simp_all⟩
  obtain ⟨-, -, ho₁, -, -, hn₁, -⟩ := sourceRead_spec hv h₁
  obtain ⟨s₂, h₂⟩ := fillSlots_ok (s := s₁) (ho₁ ▸ hslots) (ho₁ ▸ hpos)
  have hp : s.prepareSource src = .ok ⟨.ok s₂.out.data, s₂, evs⟩ := by
    rw [prepareSource, h₁]; simp only [bind, Except.bind, h₂]; rfl
  obtain ⟨-, -, -, -, -, -, -, -, -, hres⟩ := prepareSource_wire hv hslots hhp hp
  refine ⟨_, n, hp, hres.resolve_right (by simp), hn, ?_⟩
  cases hm : s.more
  · exact hn₁ hm
  · exact hevs hm

end Serializer

/-- A source that serves the body `d` from its front: each read takes as much of it as fits, and
reports the end once all of it fit. -/
def Source.ofBody (d : List Byte) : Source :=
  ⟨fun n => ⟨d.take n, decide (d.length ≤ n), 0⟩, fun n => by simp⟩

@[simp] theorem Source.ofBody_read (d : List Byte) (n : Nat) :
    (Source.ofBody d).read n = ⟨d.take n, decide (d.length ≤ n), 0⟩ := rfl

namespace Session

open Serializer

variable {m : Message} {t : Session} {c : Nat} {src : Source} {flt : Filter}

/-! ## One round -/

/-- One round from a drained `tmp0_`, with a source that never fails: the `prepare` reads once
while `more_` holds, into a buffer of at least one byte, and the `consume` of all the view drains
`tmp0_` again and ends the message exactly when the body has ended. -/
theorem source_round (flt : Filter) (hi : SourceInv m t) (hl : Live c t)
    (hc : chunkedOverhead < c) (hd : t.sr.isDone = false) (h0 : t.sr.tmp0.size = 0)
    (hec : ∀ n, (src.read n).ec = 0) :
    ∃ t₂ n, t.round src flt = .ok t₂ ∧ SourceInv m t₂ ∧ Live c t₂ ∧ 0 < n ∧
      t₂.sr.tmp0.size = 0 ∧ t₂.sr.isDone = !t₂.sr.more ∧
      reads t₂.log = reads t.log ++ (if t.sr.more then [src.read n] else []) ∧
      t₂.sr.more = (t.sr.more && !(src.read n).ends) := by
  have hroom : chunkedOverhead < t.sr.tmp0.capacity := by
    have := hl.cap
    simp only [CircularBuffer.size] at h0
    simp only [CircularBuffer.capacity]; omega
  have hprep : t.sr.prepare src flt = t.sr.prepareSource src := by
    rw [prepare_of_style hd hl.expect hi.isCompressed, hi.st]
  have hhp : t.sr.out.pos = 0 → t.sr.hp.region = .header := fun h0 => (hi.header h0).region
  obtain ⟨p, n, hp, hview, hn, hevs⟩ := prepareSource_reads hi.valid hi.slots hl.pos hhp hroom hec
  obtain ⟨-, -, -, -, -, -, hmore, -⟩ := prepareSource_wire hi.valid hi.slots hhp hp
  have h₁ : t.step (.prepare src flt) = .ok
      { t with sr := p.next, pending := p.next.unsent
               log := t.log ++ [.prepared ⟨t.sent.length, .ok p.next.unsent, p.events⟩] } := by
    rw [step, hprep, hp]
    show Except.ok _ = _
    simp only [hview]
    rfl
  have hi₁ := sourceInv_prepare hi h₁
  have hl₁ := live_step hi.valid (.inl hi.st) hi.slots hl h₁
  have hd₁ : p.next.isDone = false :=
    (prepare_of_not_expect hl.expect (hprep ▸ hp)).1.isDone.trans hd
  obtain ⟨s₂, h₂, h0₂, hdone⟩ := consume_drains (.inl hi₁.st) hi₁.isCompressed hd₁ hl₁.expect
    hi₁.slots hi₁.header
  obtain ⟨out, tmp0, isDone, rfl⟩ := consume_shape h₂
  have h₂' := step_consume_ok h₂
  have hrun : Run t [.prepare src flt, .consume p.next.unsent.length] _ :=
    .cons (by trivial) h₁ (.cons (by exact le_rfl) h₂' (.nil _))
  refine ⟨_, n, by rw [round, h₁]; exact h₂', hrun.sourceInv hi,
    (hrun.live (SourceInv m) (fun _ _ _ => sourceInv_step)
      (fun _ hi => ⟨hi.valid, .inl hi.st, hi.slots⟩) hi hl).2, hn, h0₂, hdone, ?_, ?_⟩
  · simp only [reads_append, reads_prepared, hevs]
    split <;> rfl
  · show p.next.more = _
    rw [hmore, hevs]
    cases t.sr.more <;> simp [Event.readResult]

/-! ## The loop -/

/-- What the reads of a session took from the source. -/
def readBytes (l : List Entry) : List Byte := (reads l).flatMap ReadResult.bytes

/-- The source of a round when the caller serves the body `B`: what the reads of the session
so far have left of it. -/
def bodySource (B : List Byte) (t : Session) : Source := .ofBody (B.drop (readBytes t.log).length)

/-- What holds between the rounds of the loop over the body `B`: the run invariants, `tmp0_`
drained, no read failed, the reads took a prefix of `B`, and all of it once the body ended. -/
structure DriveInv (m : Message) (c : Nat) (B : List Byte) (t : Session) : Prop where
  source : SourceInv m t
  live : Live c t
  drained : t.sr.tmp0.size = 0
  ok : ∀ r ∈ reads t.log, r.ec = 0
  taken : readBytes t.log <+: B
  ended : t.sr.more = false → readBytes t.log = B

theorem driveInv_init {s s₀ : Serializer} {B : List Byte} (hs : s.startWithSource m = .ok s₀)
    (hm : m.encoding = .identity) (hx : m.expect100 = false) :
    DriveInv m s₀.tmp0.cap B (init s₀) := by
  obtain ⟨-, -, -, h0, -, hmore⟩ := startWithSource_identity hm hs
  exact ⟨sourceInv_init hm hs, live_init (startWithSource_fresh hs) hx, h0,
    by simp [init, reads, events, calls],
    by simp [init, readBytes, reads, events, calls], fun h => absurd (hmore.symm.trans h) (by simp)⟩

/-- A round of the loop keeps the invariant, and ends the message or takes a byte or more of
the body. -/
theorem driveInv_round {B : List Byte} (flt : Filter) (hI : DriveInv m c B t)
    (hc : chunkedOverhead < c) (hd : t.sr.isDone = false) :
    ∃ t₂, t.round (bodySource B t) flt = .ok t₂ ∧ DriveInv m c B t₂ ∧
      (t₂.sr.isDone = true ∨
        B.length - (readBytes t₂.log).length < B.length - (readBytes t.log).length) := by
  obtain ⟨R, hB⟩ := hI.taken
  have hR : B.drop (readBytes t.log).length = R := by rw [← hB, List.drop_left]
  have hec : ∀ n, ((bodySource B t).read n).ec = 0 := fun _ => rfl
  obtain ⟨t₂, n, hr, hi₂, hl₂, hn, h0₂, hdone, hreads, hmore⟩ :=
    source_round flt hI.source hI.live hc hd hI.drained hec
  rw [bodySource, hR] at hr hreads hmore
  rw [bodySource, hR]
  have hbytes : readBytes t₂.log = readBytes t.log ++ if t.sr.more then R.take n else [] := by
    simp only [readBytes, hreads, List.flatMap_append]
    split <;> simp
  refine ⟨t₂, hr, ⟨hi₂, hl₂, h0₂, ?_, ?_, fun h => ?_⟩, ?_⟩
  · intro r hr
    rw [hreads, List.mem_append] at hr
    rcases hr with hr | hr
    · exact hI.ok r hr
    · split at hr <;> simp at hr
      rw [hr]
  · rw [hbytes, ← hB]
    split
    · exact (List.prefix_append_right_inj _).mpr (List.take_prefix _ _)
    · rw [List.append_nil]; exact List.prefix_append _ _
  · -- a round that ended the body read all that was left of it
    rw [hbytes]
    cases hm : t.sr.more
    · simpa using hI.ended hm
    · have hle : R.length ≤ n := by simpa [hm, h, ReadResult.ends] using hmore
      rw [if_pos rfl, List.take_of_length_le hle, hB]
  · by_cases hd₂ : t₂.sr.isDone = true
    · exact .inl hd₂
    -- the body goes on, so the read was of `n` bytes, all taken from it
    refine .inr ?_
    have hm₂ : t₂.sr.more = true := by simpa [hdone] using hd₂
    obtain ⟨hm, hlt⟩ : t.sr.more = true ∧ ¬R.length ≤ n := by
      simpa [hm₂, ReadResult.ends] using hmore.symm
    replace hlt := Nat.lt_of_not_le hlt
    have hlen := congrArg List.length hB
    simp only [hbytes, hm, if_true, List.length_append, List.length_take,
      Nat.min_eq_left hlt.le] at hlen ⊢
    omega

/-- In source style without content-coding or `Expect: 100-continue`, the caller's loop, with a
writer that takes all of each view and a source that serves the body `B`, ends the message
within `|B| + 1` rounds, having sent the header and `B`, framed: as it is identity-framed, in
chunks of at least one byte then the last-chunk when chunked. -/
theorem source_drive_finishes {s s₀ : Serializer} (hs : s.startWithSource m = .ok s₀)
    (hm : m.encoding = .identity) (hx : m.expect100 = false) (B : List Byte) (flt : Filter) :
    ∃ t, drive (bodySource B) flt (B.length + 1) (init s₀) = .ok t ∧ t.sr.isDone = true ∧
      Framed m.header B m.isChunked t.sent := by
  have hc : chunkedOverhead < s₀.tmp0.cap := by
    obtain ⟨-, -, -, hc⟩ := startTmp_tmp0 hs
    simp only [CircularBuffer.capacity] at hc; omega
  obtain ⟨t, hdrive, hd, hI⟩ : ∃ t, drive (bodySource B) flt (B.length + 1) (init s₀) = .ok t ∧
      t.sr.isDone = true ∧ DriveInv m s₀.tmp0.cap B t :=
    drive_done_of_round _ (fun t => B.length - (readBytes t.log).length)
      (fun _ hI hd => driveInv_round flt hI hc hd) (driveInv_init hs hm hx)
      (by simp [init, readBytes, reads, events, calls])
  refine ⟨t, hdrive, hd, ?_⟩
  -- the message is done: all of its framing was sent, and the reads took all of the body
  obtain ⟨as, hrun⟩ := drive_run hdrive
  obtain ⟨hsent, hend⟩ := source_sent_of_done hs hm hrun hd
  have hB : (reads t.log).flatMap ReadResult.bytes = B := hI.ended (hI.source.done hd).2
  cases hch : m.isChunked
  · rw [framed_false, hsent, hch, readWire_false, hB]
  · rw [framed_true]
    refine ⟨bodyChunks (reads t.log), fun _ => ne_nil_of_mem_bodyChunks,
      (flatten_bodyChunks _).trans hB, ?_⟩
    rw [hsent, hch, flatMap_readWire_chunked hI.ok hI.source.last, hend, if_pos rfl, chunked]

/-- Twenty bytes, chunked, on a workspace whose `tmp0_` fits chunks of fifteen: two rounds. -/
theorem source_drive_finishes_twenty :
    ∃ s₀, (new 40).startWithSource (sampleMessage true .identity false) = .ok s₀ ∧
      ∃ t, drive (bodySource (List.replicate 20 97)) (.ofList []) 21 (init s₀) = .ok t ∧
        t.sr.isDone = true ∧ Framed [72, 13, 10] (List.replicate 20 97) true t.sent :=
  let ⟨s₀, hs₀⟩ : ∃ s₀, (new 40).startWithSource (sampleMessage true .identity false) = .ok s₀ :=
    ⟨_, rfl⟩
  ⟨s₀, hs₀, source_drive_finishes hs₀ rfl rfl _ _⟩

end Session

end HttpProto
