import Mathlib
import ScrapyExtension.Machine.Basic

/-!
# The circuit breaker

A breaker counts consecutive failures of the calls that it lets through. At the threshold it opens
and rejects; after a cool-down it lets a single call probe the backend, and the outcome of the probe
closes it or opens it again.

Calls run outside the lock of the breaker, so their outcomes come in any order and late. An admission
carries the epoch it was given in, and every transition starts a new epoch: an outcome of an earlier
epoch is dropped.

## The clock

Time is an exact rational and never goes back. `_allow_call` reads the clock a second time when it
gives up on a probe; the time that passes in between is part of the step (`drift`).
-/

namespace ScrapyExtension

namespace CircuitBreaker

/-- `BreakerState` -/
inductive BreakerState
  | closed
  | open
  | halfOpen
deriving DecidableEq, Repr

/-- What the constructor has checked. -/
structure Config where
  /-- `failure_threshold` -/
  failureThreshold : ℕ
  /-- `reset_timeout` -/
  resetTimeout : ℚ
  threshold_pos : 1 ≤ failureThreshold
  timeout_nonneg : 0 ≤ resetTimeout

/-- The fields of a `CircuitBreaker` that change. -/
structure Breaker where
  /-- `_state` -/
  state : BreakerState
  /-- `_failure_count` -/
  failureCount : ℕ
  /-- `_last_failure_time` -/
  lastFailureTime : Option ℚ
  /-- `_epoch` -/
  epoch : ℕ
  /-- `_probe_in_flight` -/
  probeInFlight : Bool
  /-- `_probe_started_at` -/
  probeStartedAt : Option ℚ
deriving DecidableEq

/-- `_CallAdmission` -/
structure Admission where
  state : BreakerState
  epoch : ℕ
deriving DecidableEq

/-- A call is rejected when its admission says `OPEN`. -/
def Admission.Rejected (a : Admission) : Prop := a.state = .open

instance (a : Admission) : Decidable a.Rejected := inferInstanceAs (Decidable (_ = _))

namespace Breaker

/-- `__init__` -/
def new : Breaker := ⟨.closed, 0, none, 0, false, none⟩

/-- `reset` -/
def reset (b : Breaker) : Breaker := ⟨.closed, 0, none, b.epoch + 1, false, none⟩

/-- The admission that a breaker in this state gives. -/
def admission (b : Breaker) : Admission := ⟨b.state, b.epoch⟩

/-- A rejection, whatever the state. -/
def rejection (b : Breaker) : Admission := ⟨.open, b.epoch⟩

/-- The cool-down is over: the call that finds this out is the probe. -/
def startProbe (b : Breaker) (now : ℚ) : Breaker :=
  { b with
    state := .halfOpen
    epoch := b.epoch + 1
    probeInFlight := true
    probeStartedAt := some now }

/-- The probe did not settle in time. -/
def abandonProbe (b : Breaker) (now : ℚ) : Breaker :=
  { b with
    state := .open
    epoch := b.epoch + 1
    failureCount := 0
    lastFailureTime := some now
    probeInFlight := false
    probeStartedAt := none }

/-- A probe whose slot was claimed at `startedAt` is overdue. -/
def Overdue (c : Config) (startedAt : Option ℚ) (now : ℚ) : Prop :=
  0 < c.resetTimeout ∧ ∃ t ∈ startedAt, c.resetTimeout ≤ now - t

instance (c : Config) (startedAt : Option ℚ) (now : ℚ) : Decidable (Overdue c startedAt now) :=
  inferInstanceAs (Decidable (_ ∧ _))

/-- The cool-down after the failure at `openedAt` is over. -/
def CooledDown (c : Config) (openedAt : Option ℚ) (now : ℚ) : Prop :=
  ∃ t ∈ openedAt, c.resetTimeout ≤ now - t

instance (c : Config) (openedAt : Option ℚ) (now : ℚ) : Decidable (CooledDown c openedAt now) :=
  inferInstanceAs (Decidable (∃ t ∈ openedAt, _))

/-- `_allow_call`; `again` is the second reading of the clock -/
def allowCall (c : Config) (b : Breaker) (now again : ℚ) : Admission × Breaker :=
  match b.state with
  | .open =>
    if CooledDown c b.lastFailureTime now then
      ((b.startProbe now).admission, b.startProbe now)
    else (b.rejection, b)
  | .halfOpen =>
    if b.probeInFlight then
      if Overdue c b.probeStartedAt now then
        ((b.abandonProbe again).rejection, b.abandonProbe again)
      else (b.rejection, b)
    else (b.admission, { b with probeInFlight := true, probeStartedAt := some now })
  | .closed => (b.admission, b)

/-- The outcome of a call admitted so still counts. -/
def Accepts (b : Breaker) (a : Admission) : Prop := a.epoch = b.epoch ∧ a.state = b.state

instance (b : Breaker) (a : Admission) : Decidable (b.Accepts a) :=
  inferInstanceAs (Decidable (_ ∧ _))

/-- `_record_success` -/
def recordSuccess (b : Breaker) (a : Admission) : Breaker :=
  if b.Accepts a then
    if a.state = .halfOpen then
      { b with
        failureCount := 0
        lastFailureTime := none
        state := .closed
        epoch := b.epoch + 1
        probeInFlight := false
        probeStartedAt := none }
    else { b with failureCount := 0, lastFailureTime := none }
  else b

/-- `_record_failure` -/
def recordFailure (c : Config) (b : Breaker) (a : Admission) (now : ℚ) : Breaker :=
  if b.Accepts a then
    if a.state = .halfOpen then b.abandonProbe now
    else if c.failureThreshold ≤ b.failureCount + 1 then
      { b with
        lastFailureTime := some now
        failureCount := b.failureCount + 1
        state := .open
        epoch := b.epoch + 1 }
    else { b with lastFailureTime := some now, failureCount := b.failureCount + 1 }
  else b

/-- `_release_probe` -/
def releaseProbe (b : Breaker) (a : Admission) : Breaker :=
  if a.state = .halfOpen ∧ a.epoch = b.epoch ∧ b.state = .halfOpen then
    { b with probeInFlight := false }
  else b

end Breaker

/-! ## Concurrent calls -/

/-- How `func` ends. -/
inductive Outcome
  | success
  /-- One of the `failure_exceptions`. -/
  | failure
  /-- Process control, or an exception that does not count. -/
  | uncounted
deriving DecidableEq, Repr

/-- A breaker with its calls under way. -/
structure System where
  /-- The breaker. -/
  breaker : Breaker
  /-- The clock. -/
  clock : ℚ
  /-- Admissions of the calls whose `func` has not ended. -/
  calls : List Admission
  /-- When failures were recorded. -/
  recorded : List ℚ
deriving DecidableEq

/-- What can happen. -/
inductive Label
  /-- Time passes. -/
  | advance (d : ℚ)
  /-- `_allow_call` of a new call -/
  | call (drift : ℚ)
  /-- The call with this index ends, and its outcome is recorded. -/
  | settle (i : ℕ) (outcome : Outcome)
  /-- `reset` -/
  | reset

namespace System

variable (c : Config)

/-- The admission part of `call` -/
def enter (s : System) (drift : ℚ) : System :=
  let (a, b) := s.breaker.allowCall c s.clock (s.clock + drift)
  { s with
    breaker := b
    clock := s.clock + drift
    calls := if a.Rejected then s.calls else a :: s.calls
    recorded :=
      if s.breaker.state = .halfOpen ∧ b.state = .open then (s.clock + drift) :: s.recorded
      else s.recorded }

/-- The recording part of `call` -/
def record (s : System) (a : Admission) : Outcome → System
  | .success => { s with breaker := s.breaker.recordSuccess a }
  | .failure =>
    { s with
      breaker := s.breaker.recordFailure c a s.clock
      recorded := if s.breaker.Accepts a then s.clock :: s.recorded else s.recorded }
  | .uncounted => { s with breaker := s.breaker.releaseProbe a }

/-- One step. -/
def step (s : System) : Label → Option System
  | .advance d => if 0 ≤ d then some { s with clock := s.clock + d } else none
  | .call drift => if 0 ≤ drift then some (s.enter c drift) else none
  | .settle i outcome =>
    match s.calls[i]? with
    | some a => some (record c { s with calls := s.calls.eraseIdx i } a outcome)
    | none => none
  | .reset => some { s with breaker := s.breaker.reset }

end System

/-- A breaker and its callers as a machine. -/
def machine (c : Config) (clock : ℚ) : Machine System Label where
  init := ⟨.new, clock, [], []⟩
  step := System.step c

/-! ## The invariant -/

/-- The number of calls under way that probe in the given epoch. -/
def probes (epoch : ℕ) (calls : List Admission) : ℕ :=
  calls.countP fun a ↦ a.state = .halfOpen ∧ a.epoch = epoch

/-- What holds of the breaker by itself. -/
structure Breaker.Coherent (c : Config) (b : Breaker) (clock : ℚ) (recorded : List ℚ) : Prop where
  /-- An open breaker knows when it last saw a failure. -/
  opened : b.state = .open → ∃ t, b.lastFailureTime = some t ∧ t ≤ clock ∧ ∀ u ∈ recorded, u ≤ t
  /-- A probe belongs to a half-open breaker that knows when it started. -/
  probing : b.probeInFlight = true → b.state = .halfOpen ∧ ∃ t, b.probeStartedAt = some t ∧ t ≤ clock
  /-- A closed breaker is below its threshold. -/
  closed : b.state = .closed → b.failureCount < c.failureThreshold

/-- What holds of the calls under way. -/
structure Tracked (b : Breaker) (calls : List Admission) : Prop where
  /-- A rejected call is not under way. -/
  admitted : ∀ a ∈ calls, ¬ a.Rejected
  /-- Admissions are of this epoch or of an earlier one. -/
  epoch : ∀ a ∈ calls, a.epoch ≤ b.epoch
  /-- In the current epoch the state has not changed since the admission. -/
  state : ∀ a ∈ calls, a.epoch = b.epoch → a.state = b.state
  /-- The slot of the probe is taken by exactly one call under way. -/
  probes : probes b.epoch calls = if b.probeInFlight then 1 else 0

/-- The invariant. -/
structure System.Inv (c : Config) (s : System) : Prop where
  coherent : s.breaker.Coherent c s.clock s.recorded
  tracked : Tracked s.breaker s.calls
  recorded : ∀ u ∈ s.recorded, u ≤ s.clock

variable {c : Config} {b : Breaker} {calls : List Admission} {clock : ℚ} {recorded : List ℚ}

theorem Breaker.Coherent.mono (h : b.Coherent c clock recorded) {clock' : ℚ}
    (hle : clock ≤ clock') : b.Coherent c clock' recorded := by
  refine ⟨fun ho ↦ ?_, fun hp ↦ ?_, h.closed⟩
  · obtain ⟨t, ht, htc, hr⟩ := h.opened ho
    exact ⟨t, ht, htc.trans hle, hr⟩
  · obtain ⟨hs, t, ht, htc⟩ := h.probing hp
    exact ⟨hs, t, ht, htc.trans hle⟩

theorem probes_cons (epoch : ℕ) (a : Admission) (calls : List Admission) :
    probes epoch (a :: calls) =
      probes epoch calls + if a.state = .halfOpen ∧ a.epoch = epoch then 1 else 0 := by
  simp [probes, List.countP_cons]

/-- No call under way is of an epoch to come. -/
theorem Tracked.probes_next (h : Tracked b calls) : CircuitBreaker.probes (b.epoch + 1) calls = 0 := by
  rw [CircuitBreaker.probes, List.countP_eq_zero]
  intro a ha
  have := h.epoch a ha
  simp only [decide_eq_true_eq, not_and]
  omega

/-- A transition: every call under way belongs to the past, and none of them probes. -/
theorem Tracked.transition (h : Tracked b calls) {b' : Breaker} (he : b'.epoch = b.epoch + 1)
    (hp : b'.probeInFlight = false) : Tracked b' calls := by
  refine ⟨h.admitted, fun a ha ↦ ?_, fun a ha hae ↦ ?_, ?_⟩
  · have := h.epoch a ha
    omega
  · have := h.epoch a ha
    omega
  · rw [he, h.probes_next, hp]
    rfl

/-- A call that settles leaves the others tracked, and takes its probe with it. -/
theorem Tracked.erase (h : Tracked b calls) {i : ℕ} {a : Admission} (hi : calls[i]? = some a) :
    (∀ a' ∈ calls.eraseIdx i, a' ∈ calls) ∧ a ∈ calls ∧
      CircuitBreaker.probes b.epoch (calls.eraseIdx i) +
        (if a.state = .halfOpen ∧ a.epoch = b.epoch then 1 else 0) =
      if b.probeInFlight then 1 else 0 := by
  obtain ⟨hlt, ha⟩ := List.getElem?_eq_some_iff.mp hi
  refine ⟨fun a' ha' ↦ List.mem_of_mem_eraseIdx ha', ha ▸ List.getElem_mem hlt, ?_⟩
  have hperm := List.getElem_cons_eraseIdx_perm hlt
  rw [ha] at hperm
  rw [← probes_cons, ← h.probes]
  exact hperm.countP_eq _

/-! ## Steps keep it -/

theorem Breaker.coherent_reset (c : Config) (b : Breaker) :
    b.reset.Coherent c clock recorded :=
  ⟨nofun, nofun, fun _ ↦ c.threshold_pos⟩

theorem Breaker.coherent_abandonProbe (b : Breaker) (hr : ∀ u ∈ recorded, u ≤ clock) :
    (b.abandonProbe clock).Coherent c clock (clock :: recorded) := by
  refine ⟨fun _ ↦ ⟨clock, rfl, le_rfl, ?_⟩, nofun, nofun⟩
  rintro u (_ | ⟨_, hu⟩)
  · exact le_rfl
  · exact hr u hu

/-- What `_allow_call` can do. -/
theorem Breaker.allowCall_cases (c : Config) (b : Breaker) (now again : ℚ) :
    (b.state = .open ∧ CooledDown c b.lastFailureTime now ∧
      b.allowCall c now again = ((b.startProbe now).admission, b.startProbe now)) ∨
    (b.state = .halfOpen ∧ b.probeInFlight = true ∧ Overdue c b.probeStartedAt now ∧
      b.allowCall c now again = ((b.abandonProbe again).rejection, b.abandonProbe again)) ∨
    (b.state = .halfOpen ∧ b.probeInFlight = false ∧
      b.allowCall c now again =
        (b.admission, { b with probeInFlight := true, probeStartedAt := some now })) ∨
    (b.state = .closed ∧ b.allowCall c now again = (b.admission, b)) ∨
    ((b.state = .open ∧ ¬ CooledDown c b.lastFailureTime now ∨
      b.state = .halfOpen ∧ b.probeInFlight = true ∧ ¬ Overdue c b.probeStartedAt now) ∧
      b.allowCall c now again = (b.rejection, b)) := by
  unfold allowCall
  cases hs : b.state with
  | closed => simp
  | «open» =>
    by_cases hc : CooledDown c b.lastFailureTime now
    · simp [hc]
    · simp [hc]
  | halfOpen =>
    cases hp : b.probeInFlight with
    | false => simp
    | true =>
      by_cases ho : Overdue c b.probeStartedAt now
      · simp [ho]
      · simp [ho]

variable {s t : System}

theorem System.Inv.advance (h : s.Inv c) {d : ℚ} (hd : 0 ≤ d) :
    Inv c { s with clock := s.clock + d } := by
  have hle : s.clock ≤ s.clock + d := le_add_of_nonneg_right hd
  exact ⟨h.coherent.mono hle, h.tracked, fun u hu ↦ (h.recorded u hu).trans hle⟩

theorem System.Inv.reset (h : s.Inv c) : Inv c { s with breaker := s.breaker.reset } :=
  ⟨s.breaker.coherent_reset c, h.tracked.transition rfl rfl, h.recorded⟩

theorem System.Inv.enter (h : s.Inv c) {drift : ℚ} (hd : 0 ≤ drift) : Inv c (s.enter c drift) := by
  have hle : s.clock ≤ s.clock + drift := le_add_of_nonneg_right hd
  have hrec : ∀ u ∈ s.recorded, u ≤ s.clock + drift := fun u hu ↦ (h.recorded u hu).trans hle
  have hcoh := h.coherent.mono hle
  unfold System.enter
  obtain ⟨hs, hc, heq⟩ | ⟨hs, hp, ho, heq⟩ | ⟨hs, hp, heq⟩ | ⟨hs, heq⟩ | ⟨hs, heq⟩ :=
    s.breaker.allowCall_cases c s.clock (s.clock + drift)
  · -- The cool-down is over, and the call probes in a new epoch.
    simp only [heq, Breaker.admission, Breaker.startProbe, Admission.Rejected, hs, reduceCtorEq,
      if_false, false_and]
    refine ⟨⟨nofun, fun _ ↦ ⟨rfl, s.clock, rfl, hle⟩, nofun⟩, ⟨?_, ?_, ?_, ?_⟩, hrec⟩
    · rintro a (_ | ⟨_, ha⟩)
      · exact nofun
      · exact h.tracked.admitted a ha
    · rintro a (_ | ⟨_, ha⟩)
      · exact le_rfl
      · exact (h.tracked.epoch a ha).trans (Nat.le_succ _)
    · rintro a (_ | ⟨_, ha⟩) hae
      · rfl
      · have hle := h.tracked.epoch a ha
        have hae : a.epoch = s.breaker.epoch + 1 := hae
        omega
    · rw [probes_cons]
      simp [h.tracked.probes_next]
  · -- The probe is overdue, and the breaker opens again.
    have hopen : (s.breaker.abandonProbe (s.clock + drift)).state = .open := rfl
    simp only [heq, Breaker.rejection, Admission.Rejected, hs, hopen, if_true, true_and]
    refine ⟨s.breaker.coherent_abandonProbe hrec, h.tracked.transition rfl rfl, ?_⟩
    rintro u (_ | ⟨_, hu⟩)
    · exact le_rfl
    · exact hrec u hu
  · -- The slot of the probe was free.
    simp only [heq, Breaker.admission, Admission.Rejected, hs, reduceCtorEq, if_false, and_false]
    refine ⟨⟨nofun, fun _ ↦ ⟨rfl, s.clock, rfl, hle⟩, nofun⟩, ⟨?_, ?_, ?_, ?_⟩, hrec⟩
    · rintro a (_ | ⟨_, ha⟩)
      · exact nofun
      · exact h.tracked.admitted a ha
    · rintro a (_ | ⟨_, ha⟩)
      · exact le_rfl
      · exact h.tracked.epoch a ha
    · rintro a (_ | ⟨_, ha⟩) hae
      · rfl
      · exact (h.tracked.state a ha hae).trans hs
    · rw [probes_cons]
      simp [h.tracked.probes, hp]
  · simp only [heq, Breaker.admission, Admission.Rejected, hs, reduceCtorEq, if_false, false_and]
    refine ⟨hcoh, ⟨?_, ?_, ?_, ?_⟩, hrec⟩
    · rintro a (_ | ⟨_, ha⟩)
      · exact nofun
      · exact h.tracked.admitted a ha
    · rintro a (_ | ⟨_, ha⟩)
      · exact le_rfl
      · exact h.tracked.epoch a ha
    · rintro a (_ | ⟨_, ha⟩) hae
      · exact hs.symm
      · exact h.tracked.state a ha hae
    · rw [probes_cons]
      simp [h.tracked.probes]
  · simp only [heq, Breaker.rejection, Admission.Rejected, if_true]
    rw [if_neg (fun hn ↦ absurd (hn.1.symm.trans hn.2) (by decide))]
    exact ⟨hcoh, h.tracked, hrec⟩

/-- A call that settles in its own epoch and does not change it. -/
theorem Tracked.settled (h : Tracked b calls) {i : ℕ} {a : Admission} (hi : calls[i]? = some a)
    {b' : Breaker} (he : b'.epoch = b.epoch) (hs : b'.state = b.state)
    (hp : b'.probeInFlight = if a.state = .halfOpen ∧ a.epoch = b.epoch then false
      else b.probeInFlight) : Tracked b' (calls.eraseIdx i) := by
  obtain ⟨hsub, -, hcount⟩ := h.erase hi
  refine ⟨fun a' ha' ↦ h.admitted a' (hsub a' ha'), fun a' ha' ↦ ?_, fun a' ha' hae ↦ ?_, ?_⟩
  · rw [he]
    exact h.epoch a' (hsub a' ha')
  · rw [hs]
    exact h.state a' (hsub a' ha') (hae.trans he)
  · rw [he, hp]
    by_cases ha : a.state = .halfOpen ∧ a.epoch = b.epoch
    · simp only [ha, and_self, if_true, Bool.false_eq_true, if_false] at hcount ⊢
      split at hcount <;> omega
    · simpa only [ha, if_false, Nat.add_zero] using hcount

/-- A call that settles and starts a new epoch. -/
theorem Tracked.settled_transition (h : Tracked b calls) {i : ℕ} {b' : Breaker}
    (he : b'.epoch = b.epoch + 1) (hp : b'.probeInFlight = false) :
    Tracked b' (calls.eraseIdx i) := by
  have ht := h.transition he hp
  refine ⟨fun a ha ↦ ht.admitted a (List.mem_of_mem_eraseIdx ha),
    fun a ha ↦ ht.epoch a (List.mem_of_mem_eraseIdx ha),
    fun a ha ↦ ht.state a (List.mem_of_mem_eraseIdx ha), ?_⟩
  have hle : CircuitBreaker.probes b'.epoch (calls.eraseIdx i) ≤ CircuitBreaker.probes b'.epoch calls :=
    (List.eraseIdx_sublist _ _).countP_le
  have := ht.probes
  rw [hp] at this ⊢
  simp only [Bool.false_eq_true, if_false] at this ⊢
  omega

/-- An outcome that the breaker does not accept. -/
theorem Tracked.stale (h : Tracked b calls) {i : ℕ} {a : Admission} (hi : calls[i]? = some a)
    (ha : ¬ b.Accepts a) : Tracked b (calls.eraseIdx i) := by
  have hmem := (h.erase hi).2.1
  refine h.settled hi rfl rfl ?_
  rw [if_neg]
  rintro ⟨-, hae⟩
  exact ha ⟨hae, h.state a hmem hae⟩

theorem System.Inv.recordSuccess (h : s.Inv c) {i : ℕ} {a : Admission}
    (hi : s.calls[i]? = some a) :
    Inv c (record c { s with calls := s.calls.eraseIdx i } a .success) := by
  simp only [record, Breaker.recordSuccess]
  by_cases ha : s.breaker.Accepts a
  · rw [if_pos ha]
    by_cases hp : a.state = .halfOpen
    · rw [if_pos hp]
      exact ⟨⟨nofun, nofun, fun _ ↦ c.threshold_pos⟩, h.tracked.settled_transition rfl rfl,
        h.recorded⟩
    · rw [if_neg hp]
      refine ⟨⟨fun ho ↦ ?_, fun hf ↦ ?_, fun _ ↦ c.threshold_pos⟩, ?_, h.recorded⟩
      · exact absurd (ha.2.trans ho) (h.tracked.admitted a (h.tracked.erase hi).2.1)
      · exact absurd (ha.2.trans (h.coherent.probing hf).1) hp
      · exact h.tracked.settled hi rfl rfl (by simp [hp])
  · rw [if_neg ha]
    exact ⟨h.coherent, h.tracked.stale hi ha, h.recorded⟩

theorem System.Inv.recordFailure (h : s.Inv c) {i : ℕ} {a : Admission}
    (hi : s.calls[i]? = some a) :
    Inv c (record c { s with calls := s.calls.eraseIdx i } a .failure) := by
  have hnow : ∀ u ∈ s.clock :: s.recorded, u ≤ s.clock := by
    rintro u (_ | ⟨_, hu⟩)
    · exact le_rfl
    · exact h.recorded u hu
  simp only [record, Breaker.recordFailure]
  by_cases ha : s.breaker.Accepts a
  · rw [if_pos ha, if_pos ha]
    by_cases hp : a.state = .halfOpen
    · rw [if_pos hp]
      exact ⟨s.breaker.coherent_abandonProbe h.recorded, h.tracked.settled_transition rfl rfl, hnow⟩
    · rw [if_neg hp]
      have hprobe : s.breaker.probeInFlight = false := by
        by_contra hf
        exact hp (ha.2.trans (h.coherent.probing (by simpa using hf)).1)
      by_cases hc : c.failureThreshold ≤ s.breaker.failureCount + 1
      · rw [if_pos hc]
        refine ⟨⟨fun _ ↦ ⟨s.clock, rfl, le_rfl, hnow⟩, fun hf ↦ ?_, nofun⟩,
          h.tracked.settled_transition rfl hprobe, hnow⟩
        exact absurd (hprobe.symm.trans hf) (by decide)
      · rw [if_neg hc]
        refine ⟨⟨fun _ ↦ ⟨s.clock, rfl, le_rfl, hnow⟩, fun hf ↦ ?_, fun _ ↦ not_le.1 hc⟩, ?_, hnow⟩
        · exact absurd (hprobe.symm.trans hf) (by decide)
        · exact h.tracked.settled hi rfl rfl (by simp [hp])
  · rw [if_neg ha, if_neg ha]
    exact ⟨h.coherent, h.tracked.stale hi ha, h.recorded⟩

theorem System.Inv.releaseProbe (h : s.Inv c) {i : ℕ} {a : Admission}
    (hi : s.calls[i]? = some a) :
    Inv c (record c { s with calls := s.calls.eraseIdx i } a .uncounted) := by
  have hmem := (h.tracked.erase hi).2.1
  simp only [record, Breaker.releaseProbe]
  by_cases ha : a.state = .halfOpen ∧ a.epoch = s.breaker.epoch ∧ s.breaker.state = .halfOpen
  · rw [if_pos ha]
    refine ⟨⟨h.coherent.opened, nofun, h.coherent.closed⟩, ?_, h.recorded⟩
    exact h.tracked.settled hi rfl rfl (by simp [ha])
  · rw [if_neg ha]
    refine ⟨h.coherent, h.tracked.settled hi rfl rfl ?_, h.recorded⟩
    rw [if_neg]
    rintro ⟨hs, hae⟩
    exact ha ⟨hs, hae, (h.tracked.state a hmem hae).symm.trans hs⟩

theorem System.Inv.step (h : s.Inv c) {label : Label} (ht : System.step c s label = some t) :
    t.Inv c := by
  cases label with
  | advance d =>
    obtain ⟨hd, ⟨⟩⟩ := Option.ite_none_right_eq_some.1 ht
    exact h.advance hd
  | call drift =>
    obtain ⟨hd, ⟨⟩⟩ := Option.ite_none_right_eq_some.1 ht
    exact h.enter hd
  | reset =>
    obtain ⟨⟩ := ht
    exact h.reset
  | settle i outcome =>
    simp only [System.step] at ht
    cases hi : s.calls[i]? with
    | none => simp [hi] at ht
    | some a =>
      simp only [hi, Option.some.injEq] at ht
      subst ht
      cases outcome with
      | success => exact h.recordSuccess hi
      | failure => exact h.recordFailure hi
      | uncounted => exact h.releaseProbe hi

/-- The invariant holds in every reachable state. -/
theorem inv_of_reachable {clock : ℚ} (h : (machine c clock).Reachable s) : s.Inv c := by
  refine h.invariant (I := fun s ↦ s.Inv c) ?_ fun _ _ _ hs ht ↦ hs.step ht
  exact ⟨⟨nofun, nofun, fun _ ↦ c.threshold_pos⟩, ⟨nofun, nofun, nofun, rfl⟩, nofun⟩

/-! ## What follows for the callers -/

/-- A call made now is let through. -/
def Breaker.Admits (c : Config) (b : Breaker) (now : ℚ) : Prop :=
  ∀ again, ¬ (b.allowCall c now again).1.Rejected

/-- A breaker that rejects does so until a time that is known, or because of a probe that is under
way; once the probe settles, or is overdue, the breaker is on its way again. -/
structure System.Live (c : Config) (s : System) : Prop where
  /-- An open breaker admits the first call after the cool-down. -/
  opened : s.breaker.state = .open → ∃ t, s.breaker.lastFailureTime = some t ∧
    ∀ now, t + c.resetTimeout ≤ now → s.breaker.Admits c now
  /-- A breaker that is not open and does not probe admits every call. -/
  idle : s.breaker.state ≠ .open → s.breaker.probeInFlight = false → ∀ now, s.breaker.Admits c now
  /-- A probe that is recorded is one of the calls under way, and its outcome frees the slot. -/
  probing : s.breaker.probeInFlight = true → ∃ (i : ℕ) (a : Admission), s.calls[i]? = some a ∧
    ∀ outcome, (System.record c s a outcome).breaker.probeInFlight = false
  /-- An overdue probe gives way to a new cool-down. -/
  overdue : s.breaker.probeInFlight = true → 0 < c.resetTimeout → ∃ t,
    s.breaker.probeStartedAt = some t ∧ ∀ now again, t + c.resetTimeout ≤ now →
      (s.breaker.allowCall c now again).2.state = .open

/-- What holds in every reachable state. -/
structure System.Sound (c : Config) (s : System) : Prop where
  /-- No call is admitted by an open breaker before the cool-down since every recorded failure. -/
  coolDown : s.breaker.state = .open → ∀ drift t, System.step c s (.call drift) = some t →
    t.calls ≠ s.calls → ∀ u ∈ s.recorded, u + c.resetTimeout ≤ s.clock
  /-- At most one call of the current epoch probes. -/
  singleProbe : probes s.breaker.epoch s.calls ≤ 1
  /-- An open breaker has a recorded failure time. -/
  opened : s.breaker.state = .open → s.breaker.lastFailureTime ≠ none
  /-- A probe in flight has a recorded start, and the breaker is half-open. -/
  probing : s.breaker.probeInFlight = true →
    s.breaker.state = .halfOpen ∧ s.breaker.probeStartedAt ≠ none
  /-- A closed breaker is below its threshold. -/
  closed : s.breaker.state = .closed → s.breaker.failureCount < c.failureThreshold
  /-- The breaker cannot get stuck. -/
  live : s.Live c

theorem System.Inv.coolDown (h : s.Inv c) (ho : s.breaker.state = .open) {drift : ℚ}
    (ht : System.step c s (.call drift) = some t) (hn : t.calls ≠ s.calls) :
    ∀ u ∈ s.recorded, u + c.resetTimeout ≤ s.clock := by
  obtain ⟨hd, ⟨⟩⟩ := Option.ite_none_right_eq_some.1 ht
  obtain ⟨t, hlast, -, hrec⟩ := h.coherent.opened ho
  obtain ⟨-, ⟨t', ht', hle⟩, -⟩ | ⟨hs, -⟩ | ⟨hs, -⟩ | ⟨hs, -⟩ | ⟨-, heq⟩ :=
    s.breaker.allowCall_cases c s.clock (s.clock + drift)
  · obtain rfl : t = t' := by simpa [hlast] using ht'
    intro u hu
    have := hrec u hu
    linarith
  · exact absurd (ho.symm.trans hs) (by decide)
  · exact absurd (ho.symm.trans hs) (by decide)
  · exact absurd (ho.symm.trans hs) (by decide)
  · simp [System.enter, heq, Breaker.rejection, Admission.Rejected] at hn

/-- The call that holds the slot of the probe. -/
theorem Tracked.exists_probe (h : Tracked b calls) (hp : b.probeInFlight = true) :
    ∃ (i : ℕ) (a : Admission), calls[i]? = some a ∧ a.state = .halfOpen ∧ a.epoch = b.epoch := by
  have hpos : 0 < CircuitBreaker.probes b.epoch calls := by simp [h.probes, hp]
  obtain ⟨a, ha, hap⟩ := List.countP_pos_iff.1 hpos
  obtain ⟨i, hi⟩ := List.mem_iff_getElem?.1 ha
  exact ⟨i, a, hi, by simpa using hap⟩

theorem System.Inv.live (h : s.Inv c) : s.Live c := by
  refine ⟨fun ho ↦ ?_, fun hn hp now again ↦ ?_, fun hp ↦ ?_, fun hp hc ↦ ?_⟩
  · obtain ⟨t, ht, -, -⟩ := h.coherent.opened ho
    refine ⟨t, ht, fun now hle again ↦ ?_⟩
    have hcool : Breaker.CooledDown c s.breaker.lastFailureTime now := ⟨t, ht, by linarith⟩
    simp [Breaker.allowCall, ho, hcool, Breaker.admission, Breaker.startProbe, Admission.Rejected]
  · cases hs : s.breaker.state with
    | closed => simp [Breaker.allowCall, hs, Breaker.admission, Admission.Rejected]
    | «open» => exact absurd hs hn
    | halfOpen => simp [Breaker.allowCall, hs, hp, Breaker.admission, Admission.Rejected]
  · obtain ⟨i, a, hi, hs, hae⟩ := h.tracked.exists_probe hp
    have hstate : s.breaker.state = .halfOpen := (h.coherent.probing hp).1
    have hacc : s.breaker.Accepts a := ⟨hae, hs.trans hstate.symm⟩
    refine ⟨i, a, hi, fun outcome ↦ ?_⟩
    cases outcome with
    | success => simp [record, Breaker.recordSuccess, hacc, hs]
    | failure => simp [record, Breaker.recordFailure, hacc, hs, Breaker.abandonProbe]
    | uncounted => simp [record, Breaker.releaseProbe, hae, hs, hstate]
  · obtain ⟨hs, t, ht, -⟩ := h.coherent.probing hp
    refine ⟨t, ht, fun now again hle ↦ ?_⟩
    have hover : Breaker.Overdue c s.breaker.probeStartedAt now := ⟨hc, t, ht, by linarith⟩
    simp [Breaker.allowCall, hs, hp, hover, Breaker.abandonProbe]

/-- For any interleaving of calls, their outcomes in any order, resets and passing time. -/
theorem sound_of_reachable (c : Config) (clock : ℚ) (s : System)
    (h : (machine c clock).Reachable s) : s.Sound c := by
  have hinv := inv_of_reachable h
  refine ⟨fun ho drift t ↦ hinv.coolDown ho, ?_, fun ho ↦ ?_, fun hp ↦ ?_, hinv.coherent.closed,
    hinv.live⟩
  · rw [hinv.tracked.probes]
    split <;> omega
  · obtain ⟨t, ht, -⟩ := hinv.coherent.opened ho
    simp [ht]
  · obtain ⟨hs, t, ht, -⟩ := hinv.coherent.probing hp
    exact ⟨hs, by simp [ht]⟩

/-- A breaker that opened at its first failure and probes after the cool-down, while a call of the
first epoch is still under way. -/
theorem sound_of_reachable_probe :
    ∃ s : System, s.breaker.probeInFlight = true ∧ s.calls = [⟨.halfOpen, 2⟩, ⟨.closed, 0⟩] ∧
      s.Sound ⟨1, 30, le_rfl, by norm_num⟩ := by
  refine ⟨⟨⟨.halfOpen, 1, some 0, 2, true, some 30⟩, 30, [⟨.halfOpen, 2⟩, ⟨.closed, 0⟩], [0]⟩, rfl,
    rfl, sound_of_reachable _ 0 _ ⟨[.call 0, .call 0, .settle 0 .failure, .advance 30, .call 0], ?_⟩⟩
  decide +kernel

end CircuitBreaker

end ScrapyExtension
