import Mathlib.Tactic
import ScrapyExtension.Machine.Basic

/-!
# Batched storage

`BatchedStorageStrategy` accepts records into a buffer and writes them to their backends in batches.
A flush detaches the buffer, writes outside the buffer lock, and on a failure in the middle puts the
unwritten rest back in front of what was accepted meanwhile. Flushes are serialized by a lock of their
own; a threshold, age or explicit flush takes it for a while or gives up, and close waits for it.

## Steps

A label is a section under the buffer lock or the outcome of a call outside it. Any thread may begin a
flush whenever the flush lock is free, which covers the threshold flush of `store`, the explicit flush
and the age flusher.

## Conservation

Everything about order and loss follows from one equation: what was accepted is what was persisted,
then what the flush under way still holds, then the buffer.
-/

namespace ScrapyExtension

namespace Batched

/-- `_BufferedEntry` -/
structure Entry (β : Type) where
  /-- The backend of the `store` call. -/
  backend : β
  key : String
  value : List UInt8
  ttl : Option ℤ
deriving DecidableEq

/-- What the constructor has checked. -/
structure Config where
  threshold : ℕ
  /-- `max_pending` -/
  maxPending : ℕ
  threshold_pos : 1 ≤ threshold
  threshold_le : threshold ≤ maxPending

/-- How a call ends. -/
inductive Ending
  | returned
  /-- It raises an `Exception`. -/
  | failed
  /-- It raises process control. -/
  | interrupted
deriving DecidableEq, Repr

/-- Where `_flush_serialized` is. -/
inductive Phase (β : Type)
  /-- Before the snapshot. -/
  | snapshot
  /-- Before the write of the first of the rest. -/
  | writing (rest : List (Entry β))
  /-- A record was written, and its slot is not yet released. -/
  | releasing (rest : List (Entry β))
  /-- Before `on_store` of a written record. -/
  | notifying (rest : List (Entry β))
  /-- Before `_requeue_tail`. -/
  | requeueing (tail : List (Entry β)) (ending : Ending)
  /-- The flush lock is still held. -/
  | done (ending : Ending)
deriving DecidableEq

/-- A holder of the flush lock. -/
structure Flush (β : Type) where
  /-- The close attempt that flushes, if it is one. -/
  closing : Option ℕ
  phase : Phase β
deriving DecidableEq

/-- Where a close attempt is. `error` is whether `primary_error` is set. -/
inductive Stage
  /-- `_closed` is set. -/
  | joining
  /-- Before the flush lock is acquired. -/
  | locking (error : Bool)
  /-- The flush lock is held. -/
  | draining (error retried : Bool)
  /-- Before the final check. -/
  | checking (error : Bool)
  | returned
  | raised
deriving DecidableEq

/-- The strategy, with its close attempts and its history. -/
structure State (β : Type) where
  /-- `_buffer` -/
  buffer : List (Entry β)
  /-- `_in_flight_count` -/
  inFlightCount : ℕ
  /-- `_oldest_ts` -/
  oldest : Option ℚ
  /-- `_closed` -/
  closed : Bool
  /-- The holder of `_flush_lock` -/
  flush : Option (Flush β)
  /-- The calls of `close` -/
  attempts : List Stage
  /-- Accepted records, in order. -/
  accepted : List (Entry β)
  /-- Successful writes, in order. -/
  persisted : List (Entry β)
deriving DecidableEq

/-- What can happen. -/
inductive Label (β : Type)
  /-- The locked section of `store` -/
  | store (e : Entry β) (now : ℚ)
  /-- A flush acquires the flush lock. -/
  | flush
  /-- The flush under way takes its next step, where the call it makes ends as given. -/
  | step (ending : Ending) (now : ℚ)
  /-- The flush under way ends. -/
  | leave
  /-- `close` is called. -/
  | close
  /-- The join of the age flusher ends, or is interrupted. -/
  | join (i : ℕ) (interrupted : Bool)
  /-- The wait of close for the flush lock ends, and may have been interrupted. -/
  | lock (i : ℕ) (acquired interrupted : Bool)
  /-- The final check of close -/
  | check (i : ℕ) (flusherAlive : Bool)

variable {β : Type}

namespace State

/-- `__init__` -/
def new : State β := ⟨[], 0, none, false, none, [], [], []⟩

/-- `_pending_locked` -/
def pending (s : State β) : ℕ := s.buffer.length + s.inFlightCount

/-- The locked section of `store` -/
def store (c : Config) (s : State β) (e : Entry β) (now : ℚ) : State β :=
  if s.closed then s
  else if c.maxPending ≤ s.pending then s
  else
    { s with
      buffer := s.buffer ++ [e]
      oldest := some (s.oldest.getD now)
      accepted := s.accepted ++ [e] }

/-- The flush under way is now in the given phase. -/
def goto (s : State β) (f : Flush β) (phase : Phase β) : State β :=
  { s with flush := some { f with phase } }

/-- The snapshot of `_flush_serialized` -/
def snapshot (s : State β) (f : Flush β) : State β :=
  { s with
    buffer := []
    oldest := none
    inFlightCount := s.inFlightCount + s.buffer.length
    flush := some { f with phase := .writing s.buffer } }

/-- `storage_backend.store` of the next record; a write that raises was not applied -/
def write (s : State β) (f : Flush β) (e : Entry β) (rest : List (Entry β)) : Ending → State β
  | .returned => { s.goto f (.releasing rest) with persisted := s.persisted ++ [e] }
  | ending => s.goto f (.requeueing (e :: rest) ending)

/-- `_release_persisted_entry` -/
def releasePersistedEntry (s : State β) (f : Flush β) (rest : List (Entry β)) : State β :=
  if s.inFlightCount = 0 then s.goto f (.done .failed)
  else { s.goto f (.notifying rest) with inFlightCount := s.inFlightCount - 1 }

/-- `on_store`, whose ordinary failures do not matter -/
def notify (s : State β) (f : Flush β) (rest : List (Entry β)) : Ending → State β
  | .interrupted =>
    if rest = [] then s.goto f (.done .interrupted) else s.goto f (.requeueing rest .interrupted)
  | _ => s.goto f (.writing rest)

/-- `_requeue_tail` -/
def requeueTail (s : State β) (f : Flush β) (tail : List (Entry β)) (ending : Ending) (now : ℚ) :
    State β :=
  if s.inFlightCount < tail.length then s.goto f (.done .failed)
  else
    { s.goto f (.done ending) with
      buffer := tail ++ s.buffer
      inFlightCount := s.inFlightCount - tail.length
      oldest := if tail ++ s.buffer = [] then s.oldest else some now }

/-- The next step of `_flush_serialized` -/
def advance (s : State β) (f : Flush β) (ending : Ending) (now : ℚ) : Option (State β) :=
  match f.phase with
  | .snapshot => some (s.snapshot f)
  -- The depth of the buffer is emitted after the last write, where process control may interrupt.
  | .writing [] => some (s.goto f (.done (if ending = .interrupted then .interrupted else .returned)))
  | .writing (e :: rest) => some (s.write f e rest ending)
  | .releasing rest => some (s.releasePersistedEntry f rest)
  | .notifying rest => some (s.notify f rest ending)
  | .requeueing tail result => some (s.requeueTail f tail result now)
  | .done _ => none

/-- A close attempt goes on. -/
def moveTo (s : State β) (i : ℕ) (stage : Stage) : State β :=
  { s with attempts := s.attempts.set i stage }

/-- The end of a flush. Close flushes once more if the first one failed and left something. -/
def leave (s : State β) (f : Flush β) (ending : Ending) : State β :=
  match f.closing with
  | none => { s with flush := none }
  | some i =>
    match s.attempts[i]? with
    | some (.draining error retried) =>
      if ending = .returned then { s.moveTo i (.checking error) with flush := none }
      else if ending = .failed ∧ retried = false ∧ s.buffer ≠ [] then
        (s.moveTo i (.draining error true)).goto f .snapshot
      else { s.moveTo i (.checking true) with flush := none }
    | _ => { s with flush := none }

/-- The wait of close for the flush lock -/
def lock (s : State β) (i : ℕ) (error acquired interrupted : Bool) : Option (State β) :=
  if acquired then
    if s.flush = none then
      some { s.moveTo i (.draining (error || interrupted) false) with
        flush := some ⟨some i, .snapshot⟩ }
    else none
  else some (s.moveTo i (.checking true))

/-- The final check of close -/
def check (s : State β) (i : ℕ) (error flusherAlive : Bool) : State β :=
  if error = true ∨ s.pending ≠ 0 ∨ flusherAlive = true then s.moveTo i .raised
  else s.moveTo i .returned

/-- One step. -/
def step [DecidableEq β] (c : Config) (s : State β) : Label β → Option (State β)
  | .store e now => some (s.store c e now)
  | .flush => if s.flush = none then some { s with flush := some ⟨none, .snapshot⟩ } else none
  | .step ending now => s.flush.bind fun f ↦ s.advance f ending now
  | .leave =>
    match s.flush with
    | some ⟨closing, .done ending⟩ => some (s.leave ⟨closing, .done ending⟩ ending)
    | _ => none
  | .close => some { s with closed := true, attempts := s.attempts ++ [.joining] }
  | .join i interrupted =>
    if s.attempts[i]? = some .joining then some (s.moveTo i (.locking interrupted)) else none
  | .lock i acquired interrupted =>
    match s.attempts[i]? with
    | some (.locking error) => s.lock i error acquired interrupted
    | _ => none
  | .check i flusherAlive =>
    match s.attempts[i]? with
    | some (.checking error) => some (s.check i error flusherAlive)
    | _ => none

end State

/-- The strategy as a machine. -/
def machine [DecidableEq β] (c : Config) : Machine (State β) (Label β) where
  init := State.new
  step := State.step c

/-! ## Conservation -/

/-- The records that a flush holds. -/
def Phase.held : Phase β → List (Entry β)
  | .writing rest | .releasing rest | .notifying rest => rest
  | .requeueing tail _ => tail
  | .snapshot | .done _ => []

/-- The admission slots that a flush holds: one more than records after a write. -/
def Phase.slots : Phase β → ℕ
  | .releasing rest => rest.length + 1
  | phase => phase.held.length

theorem Phase.held_eq_nil (phase : Phase β) (h : phase.slots = 0) : phase.held = [] := by
  cases phase with
  | releasing rest => simp [Phase.slots] at h
  | snapshot => rfl
  | done ending => rfl
  | writing rest => exact List.eq_nil_of_length_eq_zero h
  | notifying rest => exact List.eq_nil_of_length_eq_zero h
  | requeueing tail ending => exact List.eq_nil_of_length_eq_zero h

/-- The records in flight. -/
def State.inFlight (s : State β) : List (Entry β) := (s.flush.map fun f ↦ f.phase.held).getD []

/-- The invariant. -/
structure State.Inv (c : Config) (s : State β) : Prop where
  /-- Every accepted record is persisted, in flight or buffered, and they come in that order. -/
  conserved : s.accepted = s.persisted ++ s.inFlight ++ s.buffer
  /-- The counter is the number of slots of the flush under way. -/
  counted : s.inFlightCount = (s.flush.map fun f ↦ f.phase.slots).getD 0
  bounded : s.pending ≤ c.maxPending
  aged : s.buffer ≠ [] → s.oldest ≠ none
  /-- A close attempt has stopped admission. -/
  closed : s.attempts ≠ [] → s.closed = true
  /-- A close that returned left nothing behind. -/
  drained : .returned ∈ s.attempts → s.persisted = s.accepted

namespace State

variable {c : Config} {s t : State β}

theorem Inv.new : (new : State β).Inv c :=
  ⟨rfl, rfl, Nat.zero_le _, fun h ↦ absurd rfl h, fun h ↦ absurd rfl h, nofun⟩

/-- Nothing is lost while a close has returned, since nothing is accepted any more. -/
theorem Inv.inFlight_of_drained (h : s.Inv c) (hr : .returned ∈ s.attempts) :
    s.inFlight = [] ∧ s.buffer = [] := by
  have heq := h.conserved
  rw [h.drained hr, List.append_assoc] at heq
  have := List.self_eq_append_right.1 heq
  simpa using this

theorem Inv.store (h : s.Inv c) (e : Entry β) (now : ℚ) : (s.store c e now).Inv c := by
  unfold State.store
  split
  · exact h
  · rename_i hclosed
    split
    · exact h
    · rename_i hfull
      refine ⟨?_, h.counted, ?_, fun _ ↦ by simp, fun ha ↦ absurd (h.closed ha) hclosed,
        fun hr ↦ absurd (h.closed (List.ne_nil_of_mem hr)) hclosed⟩
      · simp [h.conserved, inFlight]
      · simp only [pending, List.length_append, List.length_singleton] at hfull ⊢
        omega

/-- A step of the flush under way that touches neither the buffer nor the counter. -/
theorem Inv.goto (h : s.Inv c) {f : Flush β} (hf : s.flush = some f) {phase : Phase β}
    (hheld : phase.held = f.phase.held) (hslots : phase.slots = f.phase.slots) :
    (s.goto f phase).Inv c := by
  refine ⟨?_, ?_, h.bounded, h.aged, h.closed, h.drained⟩
  · have := h.conserved
    simp only [inFlight, hf, Option.map_some, Option.getD_some] at this
    simpa [State.goto, inFlight, hheld] using this
  · have := h.counted
    simp only [hf, Option.map_some, Option.getD_some] at this
    simpa [State.goto, hslots] using this

theorem Inv.snapshot (h : s.Inv c) {f : Flush β} (hf : s.flush = some f)
    (hphase : f.phase = .snapshot) : (s.snapshot f).Inv c := by
  have hcons := h.conserved
  have hcount := h.counted
  simp only [inFlight, hf, hphase, Phase.held, Phase.slots, Option.map_some, Option.getD_some,
    List.append_nil, List.length_nil] at hcons hcount
  refine ⟨?_, ?_, ?_, fun hn ↦ absurd rfl hn, h.closed, h.drained⟩
  · simpa [State.snapshot, inFlight, Phase.held] using hcons
  · simp [State.snapshot, Phase.slots, Phase.held, hcount]
  · have := h.bounded
    simp only [State.snapshot, pending, List.length_nil] at this ⊢
    omega

theorem Inv.write (h : s.Inv c) {f : Flush β} {e : Entry β} {rest : List (Entry β)}
    (hf : s.flush = some f) (hphase : f.phase = .writing (e :: rest)) (ending : Ending) :
    (s.write f e rest ending).Inv c := by
  have hcons := h.conserved
  have hcount := h.counted
  simp only [inFlight, hf, hphase, Phase.held, Phase.slots, Option.map_some, Option.getD_some]
    at hcons hcount
  cases ending with
  | returned =>
    refine ⟨?_, ?_, h.bounded, h.aged, h.closed, fun hr ↦ ?_⟩
    · simpa [State.write, State.goto, inFlight, Phase.held] using hcons
    · simpa [State.write, State.goto, Phase.slots] using hcount
    · -- A close that returned before would have left nothing to write.
      have := (h.inFlight_of_drained hr).1
      simp [inFlight, hf, hphase, Phase.held] at this
  | failed => exact h.goto hf (by simp [hphase, Phase.held]) (by simp [hphase, Phase.slots, Phase.held])
  | interrupted =>
    exact h.goto hf (by simp [hphase, Phase.held]) (by simp [hphase, Phase.slots, Phase.held])

theorem Inv.releasePersistedEntry (h : s.Inv c) {f : Flush β} {rest : List (Entry β)}
    (hf : s.flush = some f) (hphase : f.phase = .releasing rest) :
    (s.releasePersistedEntry f rest).Inv c := by
  have hcons := h.conserved
  have hcount := h.counted
  simp only [inFlight, hf, hphase, Phase.held, Phase.slots, Option.map_some, Option.getD_some]
    at hcons hcount
  unfold State.releasePersistedEntry
  rw [if_neg (by omega)]
  refine ⟨?_, ?_, ?_, h.aged, h.closed, h.drained⟩
  · simpa [State.goto, inFlight, Phase.held] using hcons
  · simp [State.goto, Phase.slots, Phase.held, hcount]
  · have := h.bounded
    simp only [State.goto, pending] at this ⊢
    omega

theorem Inv.notify (h : s.Inv c) {f : Flush β} {rest : List (Entry β)} (hf : s.flush = some f)
    (hphase : f.phase = .notifying rest) (ending : Ending) : (s.notify f rest ending).Inv c := by
  cases ending with
  | returned => exact h.goto hf (by simp [hphase, Phase.held]) (by simp [hphase, Phase.slots, Phase.held])
  | failed => exact h.goto hf (by simp [hphase, Phase.held]) (by simp [hphase, Phase.slots, Phase.held])
  | interrupted =>
    by_cases hrest : rest = []
    · rw [State.notify, if_pos hrest]
      exact h.goto hf (by simp [hphase, hrest, Phase.held])
        (by simp [hphase, hrest, Phase.slots, Phase.held])
    · rw [State.notify, if_neg hrest]
      exact h.goto hf (by simp [hphase, Phase.held]) (by simp [hphase, Phase.slots, Phase.held])

theorem Inv.requeueTail (h : s.Inv c) {f : Flush β} {tail : List (Entry β)} {result : Ending}
    (hf : s.flush = some f) (hphase : f.phase = .requeueing tail result) (now : ℚ) :
    (s.requeueTail f tail result now).Inv c := by
  have hcons := h.conserved
  have hcount := h.counted
  simp only [inFlight, hf, hphase, Phase.held, Phase.slots, Option.map_some, Option.getD_some]
    at hcons hcount
  unfold State.requeueTail
  rw [if_neg (by omega)]
  refine ⟨?_, ?_, ?_, fun hn ↦ ?_, h.closed, h.drained⟩
  · simpa [State.goto, inFlight, Phase.held] using hcons
  · simp [State.goto, Phase.slots, Phase.held, hcount]
  · have := h.bounded
    simp only [pending, List.length_append] at this ⊢
    omega
  · have hn : tail ++ s.buffer ≠ [] := hn
    simp [hn]

theorem Inv.advance (h : s.Inv c) {f : Flush β} (hf : s.flush = some f) {ending : Ending} {now : ℚ}
    (ht : s.advance f ending now = some t) : t.Inv c := by
  unfold State.advance at ht
  split at ht
  · obtain ⟨⟩ := ht
    exact h.snapshot hf ‹_›
  · obtain ⟨⟩ := ht
    exact h.goto hf (by simp [*, Phase.held]) (by simp [*, Phase.slots, Phase.held])
  · obtain ⟨⟩ := ht
    exact h.write hf ‹_› ending
  · obtain ⟨⟩ := ht
    exact h.releasePersistedEntry hf ‹_›
  · obtain ⟨⟩ := ht
    exact h.notify hf ‹_› ending
  · obtain ⟨⟩ := ht
    exact h.requeueTail hf ‹_› now
  · simp at ht

/-! ## Close -/

/-- A close attempt goes on without having returned. -/
theorem Inv.moveTo (h : s.Inv c) (i : ℕ) (stage : Stage) (hs : stage ≠ .returned) :
    (s.moveTo i stage).Inv c := by
  refine ⟨h.conserved, h.counted, h.bounded, h.aged, fun hn ↦ h.closed ?_, fun hr ↦ h.drained ?_⟩
  · simpa [State.moveTo] using hn
  · rcases List.mem_or_eq_of_mem_set hr with hr | hr
    · exact hr
    · exact absurd hr.symm hs

/-- The flush lock changes hands when nothing is in flight. -/
theorem Inv.setFlush (h : s.Inv c) (hf : s.inFlight = []) (hc : s.inFlightCount = 0)
    {flush : Option (Flush β)} (hheld : (flush.map fun f ↦ f.phase.held).getD [] = [])
    (hslots : (flush.map fun f ↦ f.phase.slots).getD 0 = 0) : Inv c { s with flush } := by
  refine ⟨?_, ?_, h.bounded, h.aged, h.closed, h.drained⟩
  · rw [h.conserved, hf]
    simp [inFlight, hheld]
  · exact hc.trans hslots.symm

theorem Inv.idle (h : s.Inv c) (hf : s.flush = none) : s.inFlight = [] ∧ s.inFlightCount = 0 := by
  have := h.counted
  exact ⟨by simp [inFlight, hf], by simpa [hf] using this⟩

theorem Inv.leave (h : s.Inv c) {closing : Option ℕ} {ending : Ending}
    (hf : s.flush = some ⟨closing, .done ending⟩) :
    (s.leave ⟨closing, .done ending⟩ ending).Inv c := by
  have hflight : s.inFlight = [] := by simp [inFlight, hf, Phase.held]
  have hcount : s.inFlightCount = 0 := by
    have := h.counted
    simpa [hf, Phase.slots, Phase.held] using this
  have hfree : ∀ {u : State β}, u.Inv c → u.inFlight = [] → u.inFlightCount = 0 →
      Inv c { u with flush := none } := fun hu h₁ h₂ ↦ hu.setFlush h₁ h₂ rfl rfl
  unfold State.leave
  split
  · exact hfree h hflight hcount
  · rename_i i hi
    split
    · split
      · exact hfree (h.moveTo i (.checking _) nofun) hflight hcount
      · split
        · exact (h.moveTo i (.draining _ true) nofun).setFlush hflight hcount rfl rfl
        · exact hfree (h.moveTo i (.checking _) nofun) hflight hcount
    · exact hfree h hflight hcount

theorem Inv.check (h : s.Inv c) (i : ℕ) (error flusherAlive : Bool) :
    (s.check i error flusherAlive).Inv c := by
  unfold State.check
  split
  · exact h.moveTo i _ nofun
  · rename_i hn
    have hpending : s.pending = 0 := by
      by_contra hp
      exact hn (.inr (.inl hp))
    refine ⟨h.conserved, h.counted, h.bounded, h.aged, fun hne ↦ h.closed ?_, fun _ ↦ ?_⟩
    · simpa [State.moveTo] using hne
    · -- Nothing is pending, so nothing is buffered and no slot is held.
      obtain ⟨hb, hz⟩ : s.buffer.length = 0 ∧ s.inFlightCount = 0 := Nat.add_eq_zero_iff.1 hpending
      have hbuffer : s.buffer = [] := List.eq_nil_of_length_eq_zero hb
      have hflight : s.inFlight = [] := by
        have hc := h.counted
        cases hf : s.flush with
        | none => simp [inFlight, hf]
        | some f =>
          simp only [hz, hf, Option.map_some, Option.getD_some] at hc
          simp only [inFlight, hf, Option.map_some, Option.getD_some]
          exact f.phase.held_eq_nil hc.symm
      have := h.conserved
      rw [hflight, hbuffer] at this
      simpa [State.moveTo] using this.symm

theorem Inv.step [DecidableEq β] (h : s.Inv c) {label : Label β}
    (ht : State.step c s label = some t) : t.Inv c := by
  cases label with
  | store e now =>
    obtain ⟨⟩ := ht
    exact h.store e now
  | flush =>
    obtain ⟨hf, ⟨⟩⟩ := Option.ite_none_right_eq_some.1 ht
    obtain ⟨hflight, hcount⟩ := h.idle hf
    exact h.setFlush hflight hcount rfl rfl
  | step ending now =>
    obtain ⟨f, hf, ht⟩ := Option.bind_eq_some_iff.1 ht
    exact h.advance hf ht
  | leave =>
    simp only [State.step] at ht
    split at ht
    · obtain ⟨⟩ := ht
      exact h.leave ‹_›
    · simp at ht
  | close =>
    obtain ⟨⟩ := ht
    refine ⟨h.conserved, h.counted, h.bounded, h.aged, fun _ ↦ rfl, fun hr ↦ h.drained ?_⟩
    simpa using hr
  | join i interrupted =>
    obtain ⟨-, ⟨⟩⟩ := Option.ite_none_right_eq_some.1 ht
    exact h.moveTo i _ nofun
  | lock i acquired interrupted =>
    simp only [State.step] at ht
    split at ht
    · unfold State.lock at ht
      split at ht
      · obtain ⟨hf, ⟨⟩⟩ := Option.ite_none_right_eq_some.1 ht
        obtain ⟨hflight, hcount⟩ := h.idle hf
        exact (h.moveTo i (.draining _ false) nofun).setFlush hflight hcount rfl rfl
      · obtain ⟨⟩ := ht
        exact h.moveTo i _ nofun
    · simp at ht
  | check i flusherAlive =>
    simp only [State.step] at ht
    split at ht
    · obtain ⟨⟩ := ht
      exact h.check i _ flusherAlive
    · simp at ht

end State

theorem inv_of_reachable [DecidableEq β] {c : Config} {s : State β} (h : (machine c).Reachable s) :
    s.Inv c :=
  h.invariant (I := fun s ↦ s.Inv c) .new fun _ _ _ hs ht ↦ hs.step ht

/-! ## What the callers rely on -/

/-- Every record is accounted for. -/
structure State.Conserved (c : Config) (s : State β) : Prop where
  /-- Every accepted record is exactly one of persisted, in flight and buffered. -/
  records : s.accepted = s.persisted ++ s.inFlight ++ s.buffer
  pending : s.pending ≤ c.maxPending
  /-- The guards against an underflow do not fire. -/
  noUnderflow : ∀ f, s.flush = some f →
    (∀ rest, f.phase = .releasing rest → 0 < s.inFlightCount) ∧
    ∀ tail ending, f.phase = .requeueing tail ending → tail.length ≤ s.inFlightCount
  /-- Without a flush nothing is in flight. -/
  idle : s.flush = none → s.inFlightCount = 0
  oldest : s.buffer ≠ [] → s.oldest ≠ none

/-- For any interleaving of stores, flushes, failures, interruptions and closes. -/
theorem conserved_of_reachable [DecidableEq β] (c : Config) (s : State β)
    (h : (machine c).Reachable s) : s.Conserved c := by
  have hinv := inv_of_reachable h
  refine ⟨hinv.conserved, hinv.bounded, fun f hf ↦ ?_, fun hf ↦ (hinv.idle hf).2, hinv.aged⟩
  have hcount := hinv.counted
  simp only [hf, Option.map_some, Option.getD_some] at hcount
  constructor
  · intro rest hp
    simp only [hp, Phase.slots] at hcount
    omega
  · intro tail ending hp
    simp only [hp, Phase.slots, Phase.held] at hcount
    omega

/-- A configuration for the runs below. -/
def smallConfig : Config := ⟨2, 4, Nat.zero_lt_two, by decide⟩

/-- A record for the runs below, of the backend with this number. -/
def record (backend : ℕ) : Entry ℕ := ⟨backend, "k", [], none⟩

/-- The second write of a batch fails while a third record is accepted. -/
theorem conserved_of_reachable_requeued :
    ∃ s : State ℕ, s.accepted = [record 0, record 1, record 2] ∧ s.persisted = [record 0] ∧
      s.buffer = [record 1, record 2] ∧ s.Conserved smallConfig := by
  refine ⟨⟨[record 1, record 2], 0, some 7, false, some ⟨none, .done .failed⟩, [],
    [record 0, record 1, record 2], [record 0]⟩, rfl, rfl, rfl,
    conserved_of_reachable _ _ ⟨[.store (record 0) 0, .store (record 1) 1, .flush, .step .returned 2,
      .step .returned 3, .step .returned 4, .step .returned 5, .store (record 2) 6, .step .failed 6,
      .step .returned 7], ?_⟩⟩
  decide +kernel

/-- Writes keep the order of acceptance, and close is a barrier. -/
structure State.Ordered (s : State β) : Prop where
  /-- The successful writes are the first accepted records, each once, in order and each to its own
  backend. -/
  writes : s.persisted = s.accepted.take s.persisted.length
  /-- A close that returned left nothing to write. -/
  barrier : .returned ∈ s.attempts → s.persisted = s.accepted

/-- For every run with any partial failures and any close attempts. -/
theorem ordered_of_reachable [DecidableEq β] (c : Config) (s : State β)
    (h : (machine c).Reachable s) : s.Ordered := by
  have hinv := inv_of_reachable h
  refine ⟨?_, hinv.drained⟩
  rw [hinv.conserved, List.append_assoc, List.take_left]

/-- Close flushes twice, since the first write of its drain fails. -/
theorem ordered_of_reachable_closed :
    ∃ s : State ℕ, s.persisted = [record 0] ∧ .returned ∈ s.attempts ∧ s.Ordered := by
  refine ⟨⟨[], 0, none, true, none, [.returned], [record 0], [record 0]⟩, rfl, by simp,
    ordered_of_reachable smallConfig _ ⟨[.store (record 0) 0, .close, .join 0 false, .lock 0 true false,
      .step .returned 1, .step .failed 2, .step .returned 3, .leave, .step .returned 4,
      .step .returned 5, .step .returned 6, .step .returned 7, .step .returned 8, .leave,
      .check 0 false], ?_⟩⟩
  decide +kernel

end Batched

end ScrapyExtension
