import ScrapyExtension.Backends.CircuitBreaker
import ScrapyExtension.Machine.Threads

/-!
# What the observer of a circuit breaker is told

A section of the breaker that changes its state appends the new state to a list, under the lock. The
thread that ran the section then takes whatever the list holds, and calls the observer for each entry
without the lock. Another thread may be faster: it takes the entries of both, and the first one finds
the list empty.

## Transitions

The list of the code has the new states only. In the model each entry also carries the epoch that the
transition began, by which it can be told from the others, and `transitions` keeps what happened to
the state of the breaker, whatever the code has appended.

## Outcomes

`outcomes` keeps, for every call that ended in the epoch that admitted it, how it ended. Whether the
breaker has counted it is another matter, and the subject of `State.Inv.counted`.
-/

namespace ScrapyExtension

namespace CircuitBreaker

namespace Breaker

/-! ## What each section appends -/

/-- `_allow_call` -/
def allowCallAppends (c : Config) (b : Breaker) (now : ℚ) : List BreakerState :=
  match b.state with
  | .open => if CooledDown c b.lastFailureTime now then [.halfOpen] else []
  | .halfOpen => if b.probeInFlight ∧ Overdue c b.probeStartedAt now then [.open] else []
  | .closed => []

/-- `_record_success` -/
def recordSuccessAppends (b : Breaker) (a : Admission) : List BreakerState :=
  if b.Accepts a ∧ a.state = .halfOpen then [.closed] else []

/-- `_record_failure` -/
def recordFailureAppends (c : Config) (b : Breaker) (a : Admission) : List BreakerState :=
  if b.Accepts a then
    if a.state = .halfOpen then [.open]
    else if c.failureThreshold ≤ b.failureCount + 1 then [.open]
    else []
  else []

/-- `reset` -/
def resetAppends (b : Breaker) : List BreakerState := if b.state ≠ .closed then [.closed] else []

end Breaker

namespace Reports

/-- A change of the state. -/
structure Transition where
  /-- The state that the observer is told. -/
  state : BreakerState
  /-- The epoch that began. -/
  epoch : ℕ
deriving DecidableEq, Repr

/-- Where an invocation of `call` or `reset` is. -/
inductive Phase
  /-- `func` is running. -/
  | running (a : Admission)
  /-- `_notify_pending` has not taken the list yet; then the call goes on with `func`, if it has any. -/
  | notifying (next : Option Admission)
  /-- `_notify_pending` has these left. -/
  | emitting (rest : List Transition) (next : Option Admission)
  /-- Returned, or raised. -/
  | returned
deriving DecidableEq

/-- After `_notify_pending`. -/
def Phase.resume : Option Admission → Phase
  | some a => .running a
  | none => .returned

/-- The admission that the invocation holds. -/
def Phase.admission : Phase → Option Admission
  | .running a => some a
  | .notifying next => next
  | .emitting _ next => next
  | .returned => none

/-- What the invocation has taken and not emitted. -/
def Phase.rest : Phase → List Transition
  | .emitting rest _ => rest
  | _ => []

/-- A breaker, its invocations and its observer. -/
structure State where
  breaker : Breaker
  clock : ℚ
  /-- `_pending_state_changes` -/
  pending : List Transition
  invocations : List Phase
  /-- What has happened to the state of the breaker. -/
  transitions : List Transition
  /-- The calls of the observer. -/
  reported : List Transition
  /-- How the calls ended that the current epoch had admitted then, the last one first. -/
  outcomes : List (ℕ × Outcome)
deriving DecidableEq

/-- What can happen. -/
inductive Label
  /-- Time passes. -/
  | advance (d : ℚ)
  /-- `_allow_call` of a new call -/
  | call (drift : ℚ)
  /-- `reset` -/
  | reset
  /-- `func` ends, and its outcome is recorded. -/
  | settle (i : ℕ) (outcome : Outcome)
  /-- `_notify_pending` takes the list. -/
  | take (i : ℕ)
  /-- The observer is called once, or there is nothing left to emit. -/
  | emit (i : ℕ) (raised : Bool)

namespace State

/-- A section of the breaker has run. -/
def move (s : State) (b : Breaker) (appended : List BreakerState) : State :=
  { s with
    breaker := b
    pending := s.pending ++ appended.map (⟨·, b.epoch⟩)
    transitions :=
      if b.state = s.breaker.state then s.transitions else s.transitions ++ [⟨b.state, b.epoch⟩] }

/-- How a call that admission `a` let through has ended. -/
def noted (s : State) (a : Admission) (outcome : Outcome) : List (ℕ × Outcome) :=
  if a.epoch = s.breaker.epoch then (a.epoch, outcome) :: s.outcomes else s.outcomes

/-- The outcomes of the calls that an epoch admitted and saw end, the last one first. -/
def outcomesOf (s : State) (epoch : ℕ) : List Outcome :=
  (s.outcomes.filter fun o ↦ o.1 = epoch).map Prod.snd

/-- How `call` goes on after its admission. -/
def afterAdmission (a : Admission) : Phase :=
  if a.Rejected then .notifying none
  else if a.state = .halfOpen then .notifying (some a)
  else .running a

variable (c : Config)

/-- The admission part of `call` -/
def enter (s : State) (drift : ℚ) : State :=
  let (a, b) := s.breaker.allowCall c s.clock (s.clock + drift)
  { s.move b (s.breaker.allowCallAppends c s.clock) with
    clock := s.clock + drift
    invocations := s.invocations ++ [afterAdmission a] }

/-- `reset`, up to its `_notify_pending` -/
def reset (s : State) : State :=
  { s.move s.breaker.reset s.breaker.resetAppends with
    invocations := s.invocations ++ [.notifying none] }

/-- The recording part of `call` -/
def record (s : State) (i : ℕ) (a : Admission) : Outcome → State
  | .success =>
    { s.move (s.breaker.recordSuccess a) (s.breaker.recordSuccessAppends a) with
      invocations := s.invocations.set i (.notifying none)
      outcomes := s.noted a .success }
  | .failure =>
    { s.move (s.breaker.recordFailure c a s.clock) (s.breaker.recordFailureAppends c a) with
      invocations := s.invocations.set i (.notifying none)
      outcomes := s.noted a .failure }
  | .uncounted =>
    { s with
      breaker := s.breaker.releaseProbe a
      invocations := s.invocations.set i .returned }

/-- `_notify_pending` takes the list; without an observer that is all. -/
def take (observed : Bool) (s : State) (i : ℕ) (next : Option Admission) : State :=
  { s with
    pending := []
    invocations := s.invocations.set i (if observed then .emitting s.pending next else .resume next) }

/-- One round of the loop of `_notify_pending`; what the observer raises is swallowed. -/
def emit (s : State) (i : ℕ) (next : Option Admission) : List Transition → State
  | [] => { s with invocations := s.invocations.set i (.resume next) }
  | t :: rest =>
    { s with
      reported := s.reported ++ [t]
      invocations := s.invocations.set i (.emitting rest next) }

/-- One step. -/
def step (observed : Bool) (s : State) : Label → Option State
  | .advance d => if 0 ≤ d then some { s with clock := s.clock + d } else none
  | .call drift => if 0 ≤ drift then some (s.enter c drift) else none
  | .reset => some s.reset
  | .settle i outcome =>
    match s.invocations[i]? with
    | some (.running a) => some (s.record c i a outcome)
    | _ => none
  | .take i =>
    match s.invocations[i]? with
    | some (.notifying next) => some (s.take observed i next)
    | _ => none
  | .emit i _ =>
    match s.invocations[i]? with
    | some (.emitting rest next) => some (s.emit i next rest)
    | _ => none

end State

/-- A breaker with its callers; `observed` when there is an `_on_state_change`. -/
def machine (c : Config) (observed : Bool) (clock : ℚ) : Machine State Label where
  init := ⟨.new, clock, [], [], [], [], []⟩
  step := State.step c observed

/-! ## What a section does to the state -/

/-- The state changes together with the epoch, and what is appended is the change. -/
structure Moves (b b' : Breaker) (appended : List BreakerState) : Prop where
  le : b.epoch ≤ b'.epoch
  lt : b'.state ≠ b.state → b.epoch < b'.epoch
  appended : appended = if b'.state = b.state then [] else [b'.state]

variable {c : Config} {b : Breaker} {a : Admission}

theorem Moves.stay {b' : Breaker} (hepoch : b.epoch ≤ b'.epoch) (hstate : b'.state = b.state) :
    Moves b b' [] :=
  ⟨hepoch, fun h ↦ absurd hstate h, (if_pos hstate).symm⟩

theorem Moves.turn {b' : Breaker} (hepoch : b.epoch < b'.epoch) (hstate : b'.state ≠ b.state) :
    Moves b b' [b'.state] :=
  ⟨hepoch.le, fun _ ↦ hepoch, (if_neg hstate).symm⟩

theorem moves_allowCall (c : Config) (b : Breaker) (now again : ℚ) :
    Moves b (b.allowCall c now again).2 (b.allowCallAppends c now) := by
  rcases b.allowCall_cases c now again with
    ⟨hs, hc, heq⟩ | ⟨hs, hp, ho, heq⟩ | ⟨hs, hp, heq⟩ | ⟨hs, heq⟩ | ⟨hs, heq⟩ <;> rw [heq]
  · have happ : b.allowCallAppends c now = [.halfOpen] := by simp [Breaker.allowCallAppends, hs, hc]
    rw [happ]
    exact Moves.turn (Nat.lt_succ_self _) (by simp [Breaker.startProbe, hs])
  · have happ : b.allowCallAppends c now = [.open] := by simp [Breaker.allowCallAppends, hs, hp, ho]
    rw [happ]
    exact Moves.turn (Nat.lt_succ_self _) (by simp [Breaker.abandonProbe, hs])
  · have happ : b.allowCallAppends c now = [] := by simp [Breaker.allowCallAppends, hs, hp]
    rw [happ]
    exact Moves.stay le_rfl rfl
  · have happ : b.allowCallAppends c now = [] := by simp [Breaker.allowCallAppends, hs]
    rw [happ]
    exact Moves.stay le_rfl rfl
  · have happ : b.allowCallAppends c now = [] := by
      rcases hs with ⟨hs, hc⟩ | ⟨hs, hp, ho⟩
      · simp [Breaker.allowCallAppends, hs, hc]
      · simp [Breaker.allowCallAppends, hs, ho]
    rw [happ]
    exact Moves.stay le_rfl rfl

theorem moves_reset (b : Breaker) : Moves b b.reset b.resetAppends := by
  by_cases hs : b.state = .closed
  · rw [Breaker.resetAppends, if_neg (not_not_intro hs)]
    exact Moves.stay (Nat.le_succ _) hs.symm
  · rw [Breaker.resetAppends, if_pos hs]
    exact Moves.turn (Nat.lt_succ_self _) (Ne.symm hs)

theorem moves_recordSuccess (b : Breaker) (a : Admission) :
    Moves b (b.recordSuccess a) (b.recordSuccessAppends a) := by
  unfold Breaker.recordSuccess Breaker.recordSuccessAppends
  by_cases ha : b.Accepts a
  · by_cases hp : a.state = .halfOpen
    · rw [if_pos ha, if_pos hp, if_pos ⟨ha, hp⟩]
      refine Moves.turn (Nat.lt_succ_self _) ?_
      simp [← ha.2, hp]
    · rw [if_pos ha, if_neg hp, if_neg fun h ↦ hp h.2]
      exact Moves.stay le_rfl rfl
  · rw [if_neg ha, if_neg fun h ↦ ha h.1]
    exact Moves.stay le_rfl rfl

theorem moves_recordFailure (c : Config) {b : Breaker} {a : Admission} (ha : ¬ a.Rejected) (now : ℚ) :
    Moves b (b.recordFailure c a now) (b.recordFailureAppends c a) := by
  unfold Breaker.recordFailure Breaker.recordFailureAppends
  by_cases hacc : b.Accepts a
  · have hopen : BreakerState.open ≠ b.state := by
      rw [← hacc.2]
      exact Ne.symm ha
    rw [if_pos hacc, if_pos hacc]
    by_cases hp : a.state = .halfOpen
    · rw [if_pos hp, if_pos hp]
      exact Moves.turn (Nat.lt_succ_self _) hopen
    · rw [if_neg hp, if_neg hp]
      by_cases hc : c.failureThreshold ≤ b.failureCount + 1
      · rw [if_pos hc, if_pos hc]
        exact Moves.turn (Nat.lt_succ_self _) hopen
      · rw [if_neg hc, if_neg hc]
        exact Moves.stay le_rfl rfl
  · rw [if_neg hacc, if_neg hacc]
    exact Moves.stay le_rfl rfl

/-! ## The invariant -/

/-- How many of the last outcomes in a row are failures. -/
def failureRun (outcomes : List Outcome) : ℕ := (outcomes.takeWhile (· = .failure)).length

/-- The `n` last outcomes are failures. -/
def AllFailures (n : ℕ) (outcomes : List Outcome) : Prop :=
  n ≤ outcomes.length ∧ ∀ o ∈ outcomes.take n, o = .failure

theorem allFailures_iff {n : ℕ} {outcomes : List Outcome} :
    AllFailures n outcomes ↔ n ≤ failureRun outcomes := by
  induction outcomes generalizing n with
  | nil => simp [AllFailures, failureRun]
  | cons o outcomes ih =>
    rcases n with - | n
    · simp [AllFailures]
    by_cases ho : o = .failure
    · subst ho
      have hrun : failureRun (.failure :: outcomes) = failureRun outcomes + 1 := by simp [failureRun]
      rw [hrun, Nat.add_le_add_iff_right, ← ih]
      simp [AllFailures]
    · have hrun : failureRun (o :: outcomes) = 0 := by simp [failureRun, ho]
      rw [hrun]
      simp [AllFailures, ho]

/-- What holds in every reachable state. -/
structure State.Inv (c : Config) (observed : Bool) (s : State) : Prop where
  /-- Admissions are of this epoch, and then of the present state, or of an earlier one. -/
  admitted : ∀ p ∈ s.invocations, ∀ a ∈ p.admission, ¬ a.Rejected ∧ a.epoch ≤ s.breaker.epoch ∧
    (a.epoch = s.breaker.epoch → a.state = s.breaker.state)
  /-- Nothing is known of epochs to come. -/
  past : ∀ o ∈ s.outcomes, o.1 ≤ s.breaker.epoch
  /-- A closed breaker counts the failures since the last success, and has not reached the threshold. -/
  counted : s.breaker.state = .closed →
    s.breaker.failureCount = failureRun (s.outcomesOf s.breaker.epoch) ∧
      s.breaker.failureCount < c.failureThreshold
  /-- Each transition is on the list, taken, or reported. -/
  balance : observed = true → ∀ t, s.pending.count t +
    (s.invocations.map fun p ↦ p.rest.count t).sum + s.reported.count t = s.transitions.count t
  /-- Whoever has appended has not taken the list yet. -/
  owed : s.pending ≠ [] → ∃ next, .notifying next ∈ s.invocations
  /-- Transitions are told apart by their epochs. -/
  ordered : s.transitions.Pairwise fun t u ↦ t.epoch < u.epoch
  begun : ∀ t ∈ s.transitions, t.epoch ≤ s.breaker.epoch

variable {observed : Bool} {s t : State}

/-! ## Steps keep it -/

/-- An entry stays where another one is replaced. -/
theorem mem_set_of_ne {ps : List Phase} {i : ℕ} {p q r : Phase} (hi : ps[i]? = some p) (hq : q ∈ ps)
    (hne : q ≠ p) : q ∈ ps.set i r := by
  obtain ⟨j, hj⟩ := List.mem_iff_getElem?.1 hq
  refine List.mem_iff_getElem?.2 ⟨j, ?_⟩
  rw [List.getElem?_set_ne, hj]
  rintro rfl
  exact hne (Option.some.inj (hj.symm.trans hi))

/-- A replaced entry changes what is taken by what it holds. -/
theorem sum_rest_set {ps : List Phase} {i : ℕ} {p q : Phase} (hi : ps[i]? = some p) (t : Transition) :
    ((ps.set i q).map fun p ↦ p.rest.count t).sum + p.rest.count t =
      (ps.map fun p ↦ p.rest.count t).sum + q.rest.count t :=
  List.sum_map_set_add (fun p : Phase ↦ p.rest.count t) hi

/-- A section of the breaker has run, and the invocations have gone on; `ps` are the new ones. -/
theorem State.Inv.moved (h : s.Inv c observed) {b : Breaker} {appended : List BreakerState}
    (hm : Moves s.breaker b appended) (clock : ℚ) {ps : List Phase} {os : List (ℕ × Outcome)}
    (hadmitted : ∀ p ∈ ps, p ∈ s.invocations ∨
      ∀ a ∈ p.admission, ¬ a.Rejected ∧ a.epoch = b.epoch ∧ a.state = b.state)
    (hrest : ∀ t, (ps.map fun p ↦ p.rest.count t).sum = (s.invocations.map fun p ↦ p.rest.count t).sum)
    (hnew : appended ≠ [] → ∃ next, .notifying next ∈ ps)
    (hold : ∀ next, .notifying next ∈ s.invocations → .notifying next ∈ ps)
    (hpast : ∀ o ∈ os, o.1 ≤ b.epoch)
    (hcounted : b.state = .closed →
      b.failureCount = failureRun ((os.filter fun o ↦ o.1 = b.epoch).map Prod.snd) ∧
        b.failureCount < c.failureThreshold) :
    State.Inv c observed { s.move b appended with clock := clock, invocations := ps, outcomes := os } := by
  have hstate : b.epoch ≤ s.breaker.epoch → b.state = s.breaker.state := by
    intro hle
    by_contra hne
    exact absurd (hm.lt hne) (by omega)
  refine ⟨?_, hpast, hcounted, ?_, ?_, ?_, ?_⟩
  · intro p hp a ha
    rcases hadmitted p hp with hmem | hnew
    · obtain ⟨hr, hle, hs⟩ := h.admitted p hmem a ha
      refine ⟨hr, hle.trans hm.le, fun he ↦ ?_⟩
      have heq : a.epoch = s.breaker.epoch := le_antisymm hle (he ▸ hm.le)
      exact (hs heq).trans (hstate (he ▸ hle)).symm
    · obtain ⟨hr, he, hs⟩ := hnew a ha
      exact ⟨hr, he.le, fun _ ↦ hs⟩
  · intro ho t
    have hb := h.balance ho t
    change (s.pending ++ appended.map fun x ↦ Transition.mk x b.epoch).count t + (ps.map fun p ↦ p.rest.count t).sum +
      s.reported.count t = (if b.state = s.breaker.state then s.transitions
        else s.transitions ++ [⟨b.state, b.epoch⟩]).count t
    rw [hrest, List.count_append, hm.appended]
    by_cases hs : b.state = s.breaker.state
    · rw [if_pos hs, if_pos hs, List.map_nil, List.count_nil]
      exact hb
    · rw [if_neg hs, if_neg hs, List.map_cons, List.map_nil, List.count_append]
      omega
  · intro hne
    by_cases happ : appended = []
    · have hpending : s.pending ≠ [] := by simpa [State.move, happ] using hne
      obtain ⟨next, hnext⟩ := h.owed hpending
      exact ⟨next, hold next hnext⟩
    · exact hnew happ
  · change (if b.state = s.breaker.state then s.transitions
      else s.transitions ++ [⟨b.state, b.epoch⟩]).Pairwise fun t u ↦ t.epoch < u.epoch
    by_cases hs : b.state = s.breaker.state
    · rw [if_pos hs]
      exact h.ordered
    · rw [if_neg hs, List.pairwise_append]
      refine ⟨h.ordered, List.pairwise_singleton _ _, fun t ht u hu ↦ ?_⟩
      rw [List.mem_singleton.1 hu]
      exact (h.begun t ht).trans_lt (hm.lt hs)
  · change ∀ t ∈ (if b.state = s.breaker.state then s.transitions
      else s.transitions ++ [⟨b.state, b.epoch⟩]), t.epoch ≤ b.epoch
    intro t ht
    by_cases hs : b.state = s.breaker.state
    · rw [if_pos hs] at ht
      exact (h.begun t ht).trans hm.le
    · rw [if_neg hs, List.mem_append, List.mem_singleton] at ht
      rcases ht with ht | rfl
      · exact (h.begun t ht).trans hm.le
      · exact le_rfl

/-- Of an epoch that has just begun nothing is known. -/
theorem outcomes_of_next {os : List (ℕ × Outcome)} {epoch : ℕ} (h : ∀ o ∈ os, o.1 < epoch) :
    (os.filter fun o ↦ o.1 = epoch).map Prod.snd = [] := by
  rw [List.map_eq_nil_iff, List.filter_eq_nil_iff]
  intro o ho
  have := h o ho
  simp only [decide_eq_true_eq]
  omega

/-- A closed breaker is as it was before the admission. -/
theorem allowCall_eq_of_closed {now again : ℚ} (h : (b.allowCall c now again).2.state = .closed) :
    (b.allowCall c now again).2 = b := by
  rcases b.allowCall_cases c now again with
    ⟨hs, hc, heq⟩ | ⟨hs, hp, ho, heq⟩ | ⟨hs, hp, heq⟩ | ⟨hs, heq⟩ | ⟨hs, heq⟩ <;> rw [heq] at h ⊢
  · exact absurd h (by simp [Breaker.startProbe])
  · exact absurd h (by simp [Breaker.abandonProbe])
  · exact absurd (hs.symm.trans h) (by decide)

/-- The admission of `_allow_call` is of the epoch and the state that it leaves. -/
theorem admission_afterAdmission {now again : ℚ} :
    ∀ a ∈ (State.afterAdmission (b.allowCall c now again).1).admission,
      ¬ a.Rejected ∧ a.epoch = (b.allowCall c now again).2.epoch ∧
        a.state = (b.allowCall c now again).2.state := by
  have hadmission : ¬ (b.allowCall c now again).1.Rejected →
      (b.allowCall c now again).1 = (b.allowCall c now again).2.admission := by
    rcases b.allowCall_cases c now again with
      ⟨hs, hc, heq⟩ | ⟨hs, hp, ho, heq⟩ | ⟨hs, hp, heq⟩ | ⟨hs, heq⟩ | ⟨hs, heq⟩ <;> rw [heq]
    · exact fun _ ↦ rfl
    · exact fun h ↦ absurd rfl h
    · exact fun _ ↦ rfl
    · exact fun _ ↦ rfl
    · exact fun h ↦ absurd rfl h
  intro a ha
  unfold State.afterAdmission at ha
  by_cases hr : (b.allowCall c now again).1.Rejected
  · rw [if_pos hr] at ha
    exact absurd ha (by simp [Phase.admission])
  · have heq : a = (b.allowCall c now again).1 := by
      rw [if_neg hr] at ha
      split_ifs at ha <;> simpa [Phase.admission, eq_comm] using ha
    subst heq
    exact ⟨hr, congrArg Admission.epoch (hadmission hr), congrArg Admission.state (hadmission hr)⟩

/-- A call that has changed the state notifies. -/
theorem afterAdmission_notifying {now again : ℚ} (h : b.allowCallAppends c now ≠ []) :
    ∃ next, State.afterAdmission (b.allowCall c now again).1 = .notifying next := by
  unfold State.afterAdmission
  by_cases hr : (b.allowCall c now again).1.Rejected
  · exact ⟨none, if_pos hr⟩
  · refine ⟨some (b.allowCall c now again).1, ?_⟩
    rw [if_neg hr, if_pos]
    rcases b.allowCall_cases c now again with
      ⟨hs, hc, heq⟩ | ⟨hs, hp, ho, heq⟩ | ⟨hs, hp, heq⟩ | ⟨hs, heq⟩ | ⟨hs, heq⟩ <;> rw [heq]
    · rfl
    · exact absurd (by rw [heq]; rfl) hr
    · exact hs
    · exact absurd (by simp [Breaker.allowCallAppends, hs]) h
    · exact absurd (by rw [heq]; rfl) hr

theorem rest_afterAdmission (a : Admission) : (State.afterAdmission a).rest = [] := by
  unfold State.afterAdmission
  split_ifs <;> rfl

theorem State.Inv.enter (h : s.Inv c observed) (drift : ℚ) : (s.enter c drift).Inv c observed := by
  refine h.moved (moves_allowCall c s.breaker s.clock (s.clock + drift)) (s.clock + drift) ?_ ?_ ?_ ?_ ?_ ?_
  · intro p hp
    rcases List.mem_append.1 hp with hp | hp
    · exact .inl hp
    · rw [List.mem_singleton.1 hp]
      exact .inr admission_afterAdmission
  · intro t
    simp [rest_afterAdmission]
  · intro happ
    obtain ⟨next, hnext⟩ := @afterAdmission_notifying _ _ _ (s.clock + drift) happ
    exact ⟨next, List.mem_append_right _ (List.mem_singleton.2 hnext.symm)⟩
  · exact fun next hnext ↦ List.mem_append_left _ hnext
  · exact fun o ho ↦ (h.past o ho).trans (moves_allowCall c s.breaker s.clock (s.clock + drift)).le
  · intro hclosed
    have heq := allowCall_eq_of_closed hclosed
    rw [heq] at hclosed ⊢
    exact h.counted hclosed

theorem State.Inv.reset (h : s.Inv c observed) : s.reset.Inv c observed := by
  refine h.moved (moves_reset s.breaker) s.clock ?_ ?_ ?_ ?_ ?_ ?_
  · intro p hp
    rcases List.mem_append.1 hp with hp | hp
    · exact .inl hp
    · rw [List.mem_singleton.1 hp]
      exact .inr nofun
  · intro t
    simp [Phase.rest]
  · exact fun _ ↦ ⟨none, by simp⟩
  · exact fun next hnext ↦ List.mem_append_left _ hnext
  · exact fun o ho ↦ (h.past o ho).trans (Nat.le_succ _)
  · intro _
    have hnone : (s.outcomes.filter fun o ↦ o.1 = s.breaker.reset.epoch).map Prod.snd = [] :=
      outcomes_of_next fun o ho ↦ Nat.lt_succ_of_le (h.past o ho)
    exact ⟨(congrArg failureRun hnone).symm, c.threshold_pos⟩

/-- A call has ended, and its invocation goes on in phase `q`. -/
theorem State.Inv.settled (h : s.Inv c observed) {i : ℕ} (hi : s.invocations[i]? = some (.running a))
    {b : Breaker} {appended : List BreakerState} (hm : Moves s.breaker b appended) {q : Phase}
    (hq : q.admission = none ∧ q.rest = []) (hnew : appended ≠ [] → q = .notifying none)
    {os : List (ℕ × Outcome)} (hpast : ∀ o ∈ os, o.1 ≤ s.breaker.epoch)
    (hcounted : b.state = .closed →
      b.failureCount = failureRun ((os.filter fun o ↦ o.1 = b.epoch).map Prod.snd) ∧
        b.failureCount < c.failureThreshold) :
    State.Inv c observed
      { s.move b appended with invocations := s.invocations.set i q, outcomes := os } := by
  have hlt : i < s.invocations.length := (List.getElem?_eq_some_iff.1 hi).1
  refine h.moved hm s.clock ?_ ?_ ?_ ?_ (fun o ho ↦ (hpast o ho).trans hm.le) hcounted
  · intro p hp
    rcases List.mem_or_eq_of_mem_set hp with hp | rfl
    · exact .inl hp
    · rw [hq.1]
      exact .inr nofun
  · intro t
    have hsum := sum_rest_set (q := q) hi t
    rw [hq.2] at hsum
    simpa [Phase.rest] using hsum
  · intro happ
    exact ⟨none, hnew happ ▸ List.mem_set hlt _⟩
  · exact fun next hnext ↦ mem_set_of_ne hi hnext (by simp)

theorem State.Inv.past_noted (h : s.Inv c observed) (a : Admission) (outcome : Outcome) :
    ∀ o ∈ s.noted a outcome, o.1 ≤ s.breaker.epoch := by
  intro o ho
  unfold State.noted at ho
  split_ifs at ho with ha
  · rcases List.mem_cons.1 ho with rfl | ho
    · exact ha.le
    · exact h.past o ho
  · exact h.past o ho

/-- A call of this epoch has ended. -/
theorem filter_noted (ha : a.epoch = s.breaker.epoch) (outcome : Outcome) :
    ((s.noted a outcome).filter fun o ↦ o.1 = s.breaker.epoch).map Prod.snd =
      outcome :: s.outcomesOf s.breaker.epoch := by
  simp [State.noted, State.outcomesOf, ha]

/-- An outcome that the breaker does not accept is of an earlier epoch. -/
theorem State.Inv.stale (h : s.Inv c observed) {i : ℕ} (hi : s.invocations[i]? = some (.running a))
    (ha : ¬ s.breaker.Accepts a) : a.epoch ≠ s.breaker.epoch := by
  intro he
  obtain ⟨-, -, hs⟩ := h.admitted _ (List.mem_of_getElem? hi) a rfl
  exact ha ⟨he, hs he⟩

theorem State.Inv.recordSuccess (h : s.Inv c observed) {i : ℕ}
    (hi : s.invocations[i]? = some (.running a)) : (s.record c i a .success).Inv c observed := by
  refine h.settled hi (moves_recordSuccess s.breaker a) ⟨rfl, rfl⟩ (fun _ ↦ rfl)
    (h.past_noted a .success) ?_
  unfold Breaker.recordSuccess
  by_cases ha : s.breaker.Accepts a
  · rw [if_pos ha]
    by_cases hp : a.state = .halfOpen
    · -- The probe closes the breaker, and a new epoch begins.
      rw [if_pos hp]
      intro _
      have hnone := outcomes_of_next fun o ho ↦ Nat.lt_succ_of_le (h.past_noted a .success o ho)
      exact ⟨(congrArg failureRun hnone).symm, c.threshold_pos⟩
    · rw [if_neg hp]
      intro _
      exact ⟨(congrArg failureRun (filter_noted ha.1 .success)).symm, c.threshold_pos⟩
  · rw [if_neg ha, State.noted, if_neg (h.stale hi ha)]
    exact h.counted

theorem failureRun_cons (outcomes : List Outcome) :
    failureRun (.failure :: outcomes) = failureRun outcomes + 1 := by
  simp [failureRun]

theorem State.Inv.recordFailure (h : s.Inv c observed) {i : ℕ}
    (hi : s.invocations[i]? = some (.running a)) : (s.record c i a .failure).Inv c observed := by
  have hr := (h.admitted _ (List.mem_of_getElem? hi) a rfl).1
  refine h.settled hi (moves_recordFailure c hr s.clock) ⟨rfl, rfl⟩ (fun _ ↦ rfl)
    (h.past_noted a .failure) ?_
  unfold Breaker.recordFailure
  by_cases ha : s.breaker.Accepts a
  · rw [if_pos ha]
    by_cases hp : a.state = .halfOpen
    · rw [if_pos hp]
      exact nofun
    · rw [if_neg hp]
      by_cases hc : c.failureThreshold ≤ s.breaker.failureCount + 1
      · rw [if_pos hc]
        exact nofun
      · rw [if_neg hc]
        intro hclosed
        refine ⟨?_, not_le.1 hc⟩
        change s.breaker.failureCount + 1 =
          failureRun (((s.noted a .failure).filter fun o ↦ o.1 = s.breaker.epoch).map Prod.snd)
        rw [filter_noted ha.1, failureRun_cons, (h.counted hclosed).1]
  · rw [if_neg ha, State.noted, if_neg (h.stale hi ha)]
    exact h.counted

theorem releaseProbe_state (b : Breaker) (a : Admission) : (b.releaseProbe a).state = b.state := by
  unfold Breaker.releaseProbe
  split_ifs <;> rfl

theorem releaseProbe_epoch (b : Breaker) (a : Admission) : (b.releaseProbe a).epoch = b.epoch := by
  unfold Breaker.releaseProbe
  split_ifs <;> rfl

theorem releaseProbe_failureCount (b : Breaker) (a : Admission) :
    (b.releaseProbe a).failureCount = b.failureCount := by
  unfold Breaker.releaseProbe
  split_ifs <;> rfl

theorem State.Inv.releaseProbe (h : s.Inv c observed) {i : ℕ}
    (hi : s.invocations[i]? = some (.running a)) : (s.record c i a .uncounted).Inv c observed := by
  have hm : Moves s.breaker (s.breaker.releaseProbe a) [] :=
    Moves.stay (releaseProbe_epoch _ _).ge (releaseProbe_state _ _)
  have hinv := h.settled hi hm (q := .returned) ⟨rfl, rfl⟩ (fun hne ↦ absurd rfl hne) h.past (by
    rw [releaseProbe_state, releaseProbe_epoch, releaseProbe_failureCount]
    exact h.counted)
  have hmove : s.move (s.breaker.releaseProbe a) [] = { s with breaker := s.breaker.releaseProbe a } := by
    simp [State.move, releaseProbe_state]
  rw [hmove] at hinv
  exact hinv

/-- An invocation goes on in phase `q`, while the breaker stays as it is. -/
theorem State.Inv.replaced (h : s.Inv c observed) {i : ℕ} {p q : Phase} (hi : s.invocations[i]? = some p)
    (hadmission : ∀ a ∈ q.admission, a ∈ p.admission) {pending reported : List Transition}
    (hbalance : observed = true → ∀ t, pending.count t + q.rest.count t + reported.count t =
      s.pending.count t + p.rest.count t + s.reported.count t)
    (howed : pending ≠ [] → ∃ next, .notifying next ∈ s.invocations.set i q) :
    State.Inv c observed
      { s with pending := pending, reported := reported, invocations := s.invocations.set i q } := by
  refine ⟨fun p' hp a ha ↦ ?_, h.past, h.counted, fun ho t ↦ ?_, howed, h.ordered, h.begun⟩
  · rcases List.mem_or_eq_of_mem_set hp with hp | rfl
    · exact h.admitted p' hp a ha
    · exact h.admitted p (List.mem_of_getElem? hi) a (hadmission a ha)
  · have hb := h.balance ho t
    have hsum := sum_rest_set (q := q) hi t
    have hcount := hbalance ho t
    change pending.count t + ((s.invocations.set i q).map fun p ↦ p.rest.count t).sum + reported.count t =
      s.transitions.count t
    omega

theorem admission_resume (next : Option Admission) : (Phase.resume next).admission = next := by
  rcases next with - | a <;> rfl

theorem rest_resume (next : Option Admission) : (Phase.resume next).rest = [] := by
  rcases next with - | a <;> rfl

/-- The list is taken. -/
theorem State.Inv.take (h : s.Inv c observed) {i : ℕ} {next : Option Admission}
    (hi : s.invocations[i]? = some (.notifying next)) : (s.take observed i next).Inv c observed := by
  refine h.replaced hi ?_ ?_ fun hne ↦ absurd rfl hne
  · intro a ha
    split_ifs at ha
    · exact ha
    · rwa [admission_resume] at ha
  · intro ho t
    rw [if_pos ho]
    simp [Phase.rest]

/-- One round of the loop. -/
theorem State.Inv.emit (h : s.Inv c observed) {i : ℕ} {next : Option Admission} {rest : List Transition}
    (hi : s.invocations[i]? = some (.emitting rest next)) : (s.emit i next rest).Inv c observed := by
  have howed : ∀ q : Phase, s.pending ≠ [] → ∃ next, .notifying next ∈ s.invocations.set i q := by
    intro q hne
    obtain ⟨next', hnext⟩ := h.owed hne
    exact ⟨next', mem_set_of_ne hi hnext (by simp)⟩
  rcases rest with - | ⟨u, rest⟩
  · refine h.replaced hi (fun a ha ↦ ?_) (fun _ t ↦ ?_) (howed _)
    · rwa [admission_resume] at ha
    · rw [rest_resume]
      rfl
  · have hbalance : ∀ t, s.pending.count t + rest.count t + (s.reported ++ [u]).count t =
        s.pending.count t + (u :: rest).count t + s.reported.count t := by
      intro t
      rw [List.count_append, ← List.singleton_append (x := u) (l := rest), List.count_append]
      omega
    exact h.replaced (q := .emitting rest next) hi (fun a ha ↦ ha) (fun _ ↦ hbalance) (howed _)

/-- What a step can do. -/
theorem State.step_cases {label : Label} (ht : s.step c observed label = some t) :
    (∃ d, t = { s with clock := s.clock + d }) ∨ (∃ drift, t = s.enter c drift) ∨ t = s.reset ∨
    (∃ i a outcome, s.invocations[i]? = some (.running a) ∧ t = s.record c i a outcome) ∨
    (∃ i next, s.invocations[i]? = some (.notifying next) ∧ t = s.take observed i next) ∨
    (∃ i rest next, s.invocations[i]? = some (.emitting rest next) ∧ t = s.emit i next rest) := by
  rcases label with d | drift | - | ⟨i, outcome⟩ | i | ⟨i, raised⟩ <;> simp only [State.step] at ht
  · obtain ⟨-, ⟨⟩⟩ := Option.ite_none_right_eq_some.1 ht
    exact .inl ⟨d, rfl⟩
  · obtain ⟨-, ⟨⟩⟩ := Option.ite_none_right_eq_some.1 ht
    exact .inr (.inl ⟨drift, rfl⟩)
  · exact .inr (.inr (.inl (Option.some.inj ht).symm))
  · split at ht
    · rename_i a hi
      exact .inr (.inr (.inr (.inl ⟨i, a, outcome, hi, (Option.some.inj ht).symm⟩)))
    · exact absurd ht (by simp)
  · split at ht
    · rename_i next hi
      exact .inr (.inr (.inr (.inr (.inl ⟨i, next, hi, (Option.some.inj ht).symm⟩))))
    · exact absurd ht (by simp)
  · split at ht
    · rename_i rest next hi
      exact .inr (.inr (.inr (.inr (.inr ⟨i, rest, next, hi, (Option.some.inj ht).symm⟩))))
    · exact absurd ht (by simp)

theorem State.Inv.step (h : s.Inv c observed) {label : Label} (ht : s.step c observed label = some t) :
    t.Inv c observed := by
  rcases State.step_cases ht with ⟨d, rfl⟩ | ⟨drift, rfl⟩ | rfl | ⟨i, a, outcome, hi, rfl⟩ |
    ⟨i, next, hi, rfl⟩ | ⟨i, rest, next, hi, rfl⟩
  · exact ⟨h.admitted, h.past, h.counted, h.balance, h.owed, h.ordered, h.begun⟩
  · exact h.enter drift
  · exact h.reset
  · rcases outcome with - | - | -
    · exact h.recordSuccess hi
    · exact h.recordFailure hi
    · exact h.releaseProbe hi
  · exact h.take hi
  · exact h.emit hi

/-- The invariant holds in every reachable state. -/
theorem State.inv_of_reachable {clock : ℚ} (h : (machine c observed clock).Reachable s) :
    s.Inv c observed := by
  refine h.invariant (I := fun s ↦ s.Inv c observed) ?_ fun _ _ _ hs ht ↦ hs.step ht
  exact ⟨nofun, nofun, fun _ ↦ ⟨rfl, c.threshold_pos⟩, fun _ _ ↦ rfl, fun hne ↦ absurd rfl hne, .nil, nofun⟩

/-! ## The accounts -/

/-- The accounts of a breaker in a reachable state. -/
structure State.Accounts (c : Config) (observed : Bool) (s : State) : Prop where
  /-- The outcome of a call of an earlier epoch changes nothing. -/
  stale : ∀ i a outcome t, s.invocations[i]? = some (.running a) → a.epoch < s.breaker.epoch →
    s.step c observed (.settle i outcome) = some t → t.breaker = s.breaker ∧ t.pending = s.pending
  /-- A closed breaker opens with the outcome that makes the last ones of its epoch all failures. -/
  opens : s.breaker.state = .closed → ∀ label t, s.step c observed label = some t →
    (t.breaker.state = .open ↔ AllFailures c.failureThreshold (t.outcomesOf s.breaker.epoch))
  /-- When all have returned, the observer has been called once for each transition. -/
  reported : observed = true → (∀ p ∈ s.invocations, p = .returned) → s.reported.Perm s.transitions
  /-- No transition is there twice. -/
  distinct : s.transitions.Nodup

theorem stale_record (c : Config) (s : State) (i : ℕ) (ha : a.epoch < s.breaker.epoch) (outcome : Outcome) :
    (s.record c i a outcome).breaker = s.breaker ∧ (s.record c i a outcome).pending = s.pending := by
  have hne : a.epoch ≠ s.breaker.epoch := ha.ne
  rcases outcome with - | - | -
  · simp [State.record, State.move, Breaker.recordSuccess, Breaker.recordSuccessAppends, Breaker.Accepts, hne]
  · simp [State.record, State.move, Breaker.recordFailure, Breaker.recordFailureAppends, Breaker.Accepts, hne]
  · simp [State.record, Breaker.releaseProbe, hne]

/-- Below the threshold the last outcomes are not all failures. -/
theorem State.Inv.not_allFailures (h : s.Inv c observed) (hs : s.breaker.state = .closed) :
    ¬ AllFailures c.failureThreshold (s.outcomesOf s.breaker.epoch) := by
  obtain ⟨heq, hlt⟩ := h.counted hs
  rw [allFailures_iff, ← heq]
  exact not_le.2 hlt

theorem State.Inv.opens_record (h : s.Inv c observed) (hs : s.breaker.state = .closed) {i : ℕ}
    (hi : s.invocations[i]? = some (.running a)) (outcome : Outcome) :
    (s.record c i a outcome).breaker.state = .open ↔
      AllFailures c.failureThreshold ((s.record c i a outcome).outcomesOf s.breaker.epoch) := by
  have hnone := h.not_allFailures hs
  have hpos := c.threshold_pos
  by_cases ha : s.breaker.Accepts a
  · have hp : a.state ≠ .halfOpen := by
      rw [ha.2, hs]
      decide
    rcases outcome with - | - | -
    · -- A success ends the run of failures.
      have hlast : (s.record c i a .success).outcomesOf s.breaker.epoch =
          .success :: s.outcomesOf s.breaker.epoch := filter_noted ha.1 .success
      have hrun : failureRun (.success :: s.outcomesOf s.breaker.epoch) = 0 := rfl
      have hstate : (s.record c i a .success).breaker.state = .closed := by
        simp [State.record, State.move, Breaker.recordSuccess, ha, hp, hs]
      rw [hlast, hstate, allFailures_iff, hrun]
      exact iff_of_false (by decide) (by omega)
    · have hlast : (s.record c i a .failure).outcomesOf s.breaker.epoch =
          .failure :: s.outcomesOf s.breaker.epoch := filter_noted ha.1 .failure
      rw [hlast, allFailures_iff, failureRun_cons, ← (h.counted hs).1]
      by_cases hc : c.failureThreshold ≤ s.breaker.failureCount + 1
      · simp [State.record, State.move, Breaker.recordFailure, ha, hp, hc]
      · simp [State.record, State.move, Breaker.recordFailure, ha, hp, hc, hs]
    · have hstate : (s.record c i a .uncounted).breaker.state = .closed :=
        (releaseProbe_state s.breaker a).trans hs
      rw [hstate]
      exact iff_of_false (by decide) hnone
  · -- A late outcome is not of this epoch.
    have hne := h.stale hi ha
    have hlt : a.epoch < s.breaker.epoch :=
      lt_of_le_of_ne (h.admitted _ (List.mem_of_getElem? hi) a rfl).2.1 hne
    have hlast : (s.record c i a outcome).outcomesOf s.breaker.epoch = s.outcomesOf s.breaker.epoch := by
      rcases outcome with - | - | - <;> simp [State.outcomesOf, State.record, State.noted, State.move, hne]
    rw [(stale_record c s i hlt outcome).1, hlast, hs]
    exact iff_of_false (by decide) hnone

theorem State.Inv.opens (h : s.Inv c observed) (hs : s.breaker.state = .closed) {label : Label}
    (ht : s.step c observed label = some t) :
    t.breaker.state = .open ↔ AllFailures c.failureThreshold (t.outcomesOf s.breaker.epoch) := by
  have hnone := h.not_allFailures hs
  -- Only the outcome of a call opens a closed breaker.
  have hkeep : t.breaker.state = .closed → t.outcomes = s.outcomes →
      (t.breaker.state = .open ↔ AllFailures c.failureThreshold (t.outcomesOf s.breaker.epoch)) := by
    intro hstate houtcomes
    rw [hstate, State.outcomesOf, houtcomes]
    exact iff_of_false (by decide) hnone
  rcases State.step_cases ht with ⟨d, rfl⟩ | ⟨drift, rfl⟩ | rfl | ⟨i, a, outcome, hi, rfl⟩ |
    ⟨i, next, hi, rfl⟩ | ⟨i, rest, next, hi, rfl⟩
  · exact hkeep hs rfl
  · have hbreaker : (s.enter c drift).breaker = s.breaker := by
      simp [State.enter, State.move, Breaker.allowCall, hs]
    exact hkeep (hbreaker ▸ hs) rfl
  · exact hkeep rfl rfl
  · exact h.opens_record hs hi outcome
  · exact hkeep hs rfl
  · rcases rest with - | ⟨u, rest⟩ <;> exact hkeep hs rfl

/-- Once nobody is under way, what happened has been reported. -/
theorem State.Inv.reported (h : s.Inv c observed) (ho : observed = true)
    (hall : ∀ p ∈ s.invocations, p = .returned) : s.reported.Perm s.transitions := by
  have hpending : s.pending = [] := by
    by_contra hne
    obtain ⟨next, hnext⟩ := h.owed hne
    exact absurd (hall _ hnext) (by simp)
  refine List.perm_iff_count.2 fun t ↦ ?_
  have hb := h.balance ho t
  have hrest : (s.invocations.map fun p ↦ p.rest.count t).sum = 0 := by
    refine List.sum_eq_zero fun n hn ↦ ?_
    obtain ⟨p, hp, rfl⟩ := List.mem_map.1 hn
    rw [hall p hp]
    rfl
  rw [hpending, hrest, List.count_nil] at hb
  omega

/-- For calls and resets in any interleaving, with their outcomes in any order, and whatever the observer
raises. -/
theorem breaker_accounts (c : Config) (observed : Bool) (clock : ℚ) (s : State)
    (h : (machine c observed clock).Reachable s) : s.Accounts c observed := by
  have hinv := State.inv_of_reachable h
  refine ⟨fun i a outcome t hi ha ht ↦ ?_, fun hs label t ht ↦ hinv.opens hs ht, hinv.reported, ?_⟩
  · simp only [State.step, hi] at ht
    obtain rfl := Option.some.inj ht
    exact stale_record c s i ha outcome
  · exact hinv.ordered.imp fun hlt heq ↦ absurd (heq ▸ hlt) (lt_irrefl _)

/-- A breaker opens at the second failure in a row, probes and closes again, while a call of the first
epoch fails late; one thread emits what two have appended. -/
theorem breaker_accounts_recovered :
    ∃ s : State, s.reported = [⟨.open, 1⟩, ⟨.halfOpen, 2⟩, ⟨.closed, 3⟩] ∧
      (∀ p ∈ s.invocations, p = .returned) ∧ s.Accounts ⟨2, 30, by norm_num, by norm_num⟩ true := by
  refine ⟨⟨⟨.closed, 0, none, 3, false, none⟩, 30, [], [.returned, .returned, .returned, .returned],
    [⟨.open, 1⟩, ⟨.halfOpen, 2⟩, ⟨.closed, 3⟩], [⟨.open, 1⟩, ⟨.halfOpen, 2⟩, ⟨.closed, 3⟩],
    [(2, .success), (0, .failure), (0, .failure)]⟩, rfl, by decide, breaker_accounts _ true 0 _ ⟨[.call 0,
      .call 0, .call 0, .settle 0 .failure, .settle 1 .failure, .advance 30, .call 0, .take 3, .emit 3 true,
      .emit 3 false, .emit 3 true, .settle 3 .success, .settle 2 .failure, .take 2, .emit 2 true, .emit 2 false,
      .take 0, .emit 0 false, .take 1, .emit 1 false, .take 3, .emit 3 false], ?_⟩⟩
  decide +kernel

end Reports

end CircuitBreaker

end ScrapyExtension
