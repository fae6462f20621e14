import HttpProto.Serializer.Consume

/-!
# Sessions: the serializer driven by its caller

A session is one message after its `start_*`: the caller calls `prepare`, sends a prefix of
the view, reports it with `consume`, and in stream style pushes the body through the stream
handle, in any order; the source and the filter answer each `prepare`. The session keeps what
the caller sent, what is left of the last view, the buffer the last `stream.prepare` offered,
and a log of every `prepare` (with the source's and the filter's calls) and every committed
batch.

A call that ends in a `Fault` ends the run: the caller does not go on past an exception, a
failed assertion or undefined behaviour.

## Main definitions

* `Action`, `Session.step`: the caller's calls and what they do
* `Session.Allowed`: the caller's discipline
* `Session.Run`: the runs of a session
-/

namespace HttpProto

/-- A call of the caller, with the source's and the filter's behaviour at a `prepare`. -/
inductive Action where
  | prepare (src : Source) (flt : Filter)
  | consume (n : Nat)
  | streamPrepare
  | streamCommit (d : List Byte)
  | streamClose

/-- A `prepare` as the caller saw it: how many bytes had been sent before it, the view's bytes
or the error it returned, and its calls of the source and the filter. -/
structure Call where
  sentBefore : Nat
  result : Except Error (List Byte)
  events : List Event

/-- An entry of a session's log: a `prepare`, or a batch the caller committed through the
stream handle. -/
inductive Entry where
  | prepared (c : Call)
  | committed (d : List Byte)

/-- A message in flight, with what its caller has done so far. -/
structure Session where
  sr : Serializer
  sent : List Byte
  pending : List Byte
  streamBuf : List Nat
  log : List Entry

namespace Session

/-- The session right after `start_*` returned `sr`. -/
def init (sr : Serializer) : Session := ⟨sr, [], [], [], []⟩

/-- The caller's discipline: consume no more than is left of the last view, and use the stream
handle only for a stream, writing no more than the last `stream.prepare` offered. -/
def Allowed (s : Session) : Action → Prop
  | .prepare _ _ => True
  | .consume n => n ≤ s.pending.length
  | .streamPrepare => s.sr.st = .stream
  | .streamCommit d => s.sr.st = .stream ∧ d.length ≤ s.streamBuf.length
  | .streamClose => s.sr.st = .stream

/-- One call. A view's bytes are what the caller sees at `prepare`; `consume(n)` sends the
first `n` of what is left of them. A committed batch is written into the buffer the last
`stream.prepare` offered, then committed. -/
def step (s : Session) : Action → Except Fault Session
  | .prepare src flt => (s.sr.prepare src flt).map fun p =>
    let bytes := p.result.map p.next.mem.readAll
    { s with sr := p.next, pending := (bytes.toOption).getD [],
             log := s.log ++ [.prepared ⟨s.sent.length, bytes, p.events⟩] }
  | .consume n => (s.sr.consume n).map fun sr =>
    { s with sr, sent := s.sent ++ s.pending.take n, pending := s.pending.drop n }
  | .streamPrepare => (Serializer.Stream.prepare s.sr).map fun (ps, sr) =>
    { s with sr, streamBuf := ps }
  | .streamCommit d =>
    (Serializer.Stream.commit { s.sr with mem := s.sr.mem.store s.streamBuf d } d.length).map
      fun sr => { s with sr, streamBuf := [], log := s.log ++ [.committed d] }
  | .streamClose => (Serializer.Stream.close s.sr).map fun sr => { s with sr }

/-- The runs of a session: each call allowed and returning. -/
inductive Run : Session → List Action → Session → Prop
  | nil (s : Session) : Run s [] s
  | cons {s s' t : Session} {a : Action} {as : List Action} :
      s.Allowed a → s.step a = .ok s' → Run s' as t → Run s (a :: as) t

/-- A property every allowed call keeps holds along every run. -/
theorem Run.invariant (P : Session → Prop)
    (hstep : ∀ s a s', P s → s.Allowed a → s.step a = .ok s' → P s')
    {s t : Session} {as : List Action} (h : Run s as t) (hs : P s) : P t := by
  induction h with
  | nil => exact hs
  | cons ha he _ ih => exact ih (hstep _ _ _ hs ha he)

theorem Run.append {s t u : Session} {as bs : List Action} (h₁ : Run s as t) (h₂ : Run t bs u) :
    Run s (as ++ bs) u := by
  induction h₁ with
  | nil => exact h₂
  | cons ha he _ ih => exact .cons ha he (ih h₂)

/-- No call takes back bytes the caller sent. -/
theorem step_sent {t t' : Session} {a : Action} (h : t.step a = .ok t') : t.sent <+: t'.sent := by
  cases a with
  | consume n =>
    obtain ⟨_, -, rfl⟩ := map_eq_ok.mp h
    exact List.prefix_append _ _
  | prepare => obtain ⟨_, -, rfl⟩ := map_eq_ok.mp h; exact List.prefix_refl _
  | streamPrepare => obtain ⟨_, -, rfl⟩ := map_eq_ok.mp h; exact List.prefix_refl _
  | streamCommit => obtain ⟨_, -, rfl⟩ := map_eq_ok.mp h; exact List.prefix_refl _
  | streamClose => obtain ⟨_, -, rfl⟩ := map_eq_ok.mp h; exact List.prefix_refl _

theorem Run.sent_prefix {s t : Session} {as : List Action} (h : Run s as t) : s.sent <+: t.sent := by
  induction h with
  | nil => exact List.prefix_refl _
  | cons _ he _ ih => exact (step_sent he).trans ih

/-- The first `n` bytes of a prefix at least `n` long are those of the whole: what a `consume`
sends of the view is the front of what the view was taken from. -/
theorem take_of_prefix {l l' : List Byte} {n : Nat} (h : l <+: l') (hn : n ≤ l.length) :
    l.take n = l'.take n := by
  obtain ⟨r, rfl⟩ := h
  exact (List.take_append_of_le_length hn).symm

/-! ## Runs computed -/

instance decAllowed (s : Session) : (a : Action) → Decidable (s.Allowed a)
  | .prepare _ _ => isTrue trivial
  | .consume n => inferInstanceAs (Decidable (n ≤ s.pending.length))
  | .streamPrepare => inferInstanceAs (Decidable (s.sr.st = .stream))
  | .streamCommit d =>
    inferInstanceAs (Decidable (s.sr.st = .stream ∧ d.length ≤ s.streamBuf.length))
  | .streamClose => inferInstanceAs (Decidable (s.sr.st = .stream))

/-- The run of the calls `as`, computed: `none` when a call is not allowed or faults. -/
def exec (s : Session) : List Action → Option Session
  | [] => some s
  | a :: as => if s.Allowed a then (s.step a).toOption.bind (exec · as) else none

theorem run_of_exec {s t : Session} {as : List Action} (h : exec s as = some t) : Run s as t := by
  induction as generalizing s with
  | nil => cases h; exact .nil _
  | cons a as ih =>
    simp only [exec] at h
    split at h
    · rename_i ha
      obtain ⟨s', hs', h⟩ := Option.bind_eq_some.mp h
      exact .cons ha (toOption_eq_some.mp hs') (ih h)
    · cases h

/-- A run from a message's start, read off its computation: what `f` observes of the last
session. -/
theorem exists_run_of_exec {α : Type} {e : Except Fault Serializer} {as : List Action}
    {f : Session → α} {v : α}
    (h : (e.toOption.bind fun s₀ => exec (init s₀) as).map f = some v) :
    ∃ s₀ t, e = .ok s₀ ∧ Run (init s₀) as t ∧ f t = v := by
  obtain ⟨t, ht, rfl⟩ := Option.map_eq_some'.mp h
  obtain ⟨s₀, hs₀, ht⟩ := Option.bind_eq_some.mp ht
  exact ⟨s₀, t, toOption_eq_some.mp hs₀, run_of_exec ht, rfl⟩

/-- A computed run, with what follows of it. -/
theorem exists_run_of_exec_of {α : Type} {e : Except Fault Serializer} {as : List Action}
    {f : Session → α} {v : α} {Q : Session → Prop}
    (h : (e.toOption.bind fun s₀ => exec (init s₀) as).map f = some v)
    (hq : ∀ s₀ t, e = .ok s₀ → Run (init s₀) as t → f t = v → Q t) :
    ∃ s₀ t, e = .ok s₀ ∧ Run (init s₀) as t ∧ f t = v ∧ Q t :=
  let ⟨s₀, t, hs₀, hrun, hv⟩ := exists_run_of_exec h
  ⟨s₀, t, hs₀, hrun, hv, hq s₀ t hs₀ hrun hv⟩

/-- A computed run, checked: what `P` says of the last session holds. -/
theorem exists_run_of_check {e : Except Fault Serializer} {as : List Action}
    {P : Session → Prop} [DecidablePred P]
    (h : (e.toOption.bind fun s₀ => exec (init s₀) as).map (fun t => decide (P t)) = some true) :
    ∃ s₀ t, e = .ok s₀ ∧ Run (init s₀) as t ∧ P t :=
  let ⟨s₀, t, hs₀, hrun, hv⟩ := exists_run_of_exec h
  ⟨s₀, t, hs₀, hrun, of_decide_eq_true hv⟩

/-! ## The log -/

/-- The `prepare` calls, in order. -/
def calls : List Entry → List Call
  | [] => []
  | .prepared c :: l => c :: calls l
  | .committed _ :: l => calls l

/-- The calls of the source and the filter, in order. -/
def events (l : List Entry) : List Event := (calls l).flatMap Call.events

/-- What the source's reads returned, in order. -/
def reads (l : List Entry) : List ReadResult := (events l).filterMap Event.readResult

/-- The batches committed through the stream handle. -/
def batches : List Entry → List (List Byte)
  | [] => []
  | .prepared _ :: l => batches l
  | .committed d :: l => d :: batches l

@[simp] theorem calls_append (l l' : List Entry) : calls (l ++ l') = calls l ++ calls l' := by
  induction l with
  | nil => rfl
  | cons e l ih => cases e <;> simp [calls, ih]

@[simp] theorem events_append (l l' : List Entry) : events (l ++ l') = events l ++ events l' := by
  simp [events]

@[simp] theorem reads_append (l l' : List Entry) : reads (l ++ l') = reads l ++ reads l' := by
  simp [reads]

@[simp] theorem batches_append (l l' : List Entry) :
    batches (l ++ l') = batches l ++ batches l' := by
  induction l with
  | nil => rfl
  | cons e l ih => cases e <;> simp [batches, ih]

end Session

/-- A message whose header is `H\r\n`, a start line alone, for the computed runs. -/
def sampleMessage (isChunked : Bool) (encoding : Encoding) (expect100 : Bool) : Message :=
  ⟨[72, 13, 10], by decide, isChunked, encoding, expect100⟩

end HttpProto
