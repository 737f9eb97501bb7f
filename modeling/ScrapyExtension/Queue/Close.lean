import Mathlib.Tactic
import ScrapyExtension.Machine.Basic
import ScrapyExtension.Machine.Threads

/-!
# The close of a queue

`BackendQueue.close` stops admission, waits for the operations, commits a checkpoint, and closes the
strategy. Everything that may fail can be tried again, up to the mark that is written before
`strategy.close`; from there on nothing is repeated.

## Ownership

One call at a time owns the attempt. The owner is known by a token that lives in the frame of its call,
so that an attempt whose frame is gone can be taken over. Callers that find an owner at work wait for the
outcome of its attempt.

## Interruptions

A call may be interrupted in every stage, and in the middle of the finalization, which then leaves the
attempt to be taken over. What other threads can see is changed under `_operation_gate`; each such
section is one step.

A call leaves marks of what it has done, in a list that no function of the queue reads.
-/

namespace ScrapyExtension

namespace QueueClose

/-- How `strategy.close` ended. -/
inductive Outcome
  | succeeded
  | failed
  /-- It was interrupted, and may have returned. -/
  | indeterminate
deriving DecidableEq, Repr

/-- `_strategy_cleanup_state` -/
inductive Cleanup
  | notStarted
  | started
  | ended (outcome : Outcome)
deriving DecidableEq, Repr

/-- What a call of `close` raises. -/
inductive Failure
  /-- "Queue close cannot be called from an active queue operation." -/
  | activeOperation
  /-- "Queue close is already in progress." -/
  | inProgress
  /-- "Queue close failed; checkpoint can be retried." -/
  | retryable
  /-- "Queue strategy cleanup failed or was interrupted; close is terminal." -/
  | terminal
  /-- `BackendOperationTimeout` of the drain -/
  | timeout
  /-- An error of the strategy, or of the checkpoint. -/
  | error
  /-- An interruption. -/
  | control
deriving DecidableEq, Repr

/-- Where a call of `close` is. -/
inductive Stage
  /-- Before `_close_called_from_active_operation`. -/
  | entered
  /-- Before the section that starts an attempt. -/
  | gate
  /-- `_wait_for_close_attempt_locked` -/
  | waiting (attempt : ℕ)
  /-- `strategy.begin_close` is out. -/
  | beginning
  /-- `bounded_drain_wait` -/
  | draining
  /-- `_persist_snapshot` is out. -/
  | persisting
  /-- The checkpoint is complete. -/
  | checkpointed
  /-- The cleanup is marked as started. -/
  | marked
  /-- `strategy.close` is out. -/
  | closing
  /-- `_publish_strategy_cleanup_outcome` -/
  | publishing (outcome : Outcome)
  /-- `_repair_close_finalization`, by the owner -/
  | repairing (failure : Option Failure)
  /-- `_repair_close_finalization`, by another call -/
  | finishing (failure : Option Failure)
  | returned
  | raised (failure : Failure)
deriving DecidableEq, Repr

namespace Stage

/-- The frame of the call is gone. -/
def gone : Stage → Bool
  | returned | raised _ => true
  | _ => false

/-- The call owns the attempt. -/
def owns : Stage → Bool
  | beginning | draining | persisting | checkpointed | marked | closing | publishing _ | repairing _ =>
    true
  | _ => false

/-- The end of a call. -/
def ofFailure : Option Failure → Stage
  | none => returned
  | some failure => raised failure

end Stage

/-- A call of `close`. -/
structure Call where
  thread : ℕ
  lossy : Bool
  /-- It found the queue complete. -/
  late : Bool
  /-- It has marked the cleanup as started. -/
  cleans : Bool
  stage : Stage
deriving DecidableEq, Repr

/-- What was done. -/
inductive Mark
  /-- A checkpoint was committed. -/
  | committed
  /-- The strategy had nothing to be committed. -/
  | unneeded
  /-- A lossy close went past the checkpoint. -/
  | lossy
  /-- `strategy.close` was invoked. -/
  | close
  /-- `strategy.close` returned. -/
  | closed
deriving DecidableEq, Repr

/-- `BackendQueue`, as far as operations and `close` go. -/
structure Queue where
  /-- `_accepting_operations` -/
  accepting : Bool
  /-- The threads of the admitted operations. -/
  operations : List ℕ
  /-- How many entries `_pending_replacement_settlements` has. -/
  settlements : ℕ
  /-- `_close_complete` -/
  complete : Bool
  /-- `_close_in_progress` -/
  inProgress : Bool
  /-- `_close_attempt` -/
  attempt : ℕ
  /-- The call of `_close_owner_token`. -/
  owner : Option ℕ
  /-- `_close_attempt_outcomes` with `_close_attempt_terminal`, as attempts with their success and
  whether the cleanup was started -/
  outcomes : List (ℕ × Bool × Bool)
  /-- `_begin_close_complete` -/
  beginComplete : Bool
  /-- `_checkpoint_complete` -/
  checkpointComplete : Bool
  cleanup : Cleanup
  calls : List Call
  marks : List Mark
deriving DecidableEq, Repr

/-- How a stage of a call ends. -/
inductive Event
  /-- It goes on, or what is out has returned. -/
  | ok
  /-- The strategy had an empty state that needs no checkpoint. -/
  | unneeded
  /-- What is out raises, or the wait runs out of time. -/
  | failed
  /-- An interruption; in the finalization, after so many of its parts. -/
  | interrupted (parts : ℕ)
deriving DecidableEq, Repr

/-- What can happen. -/
inductive Label
  /-- `_begin_operation` -/
  | begin (thread : ℕ)
  /-- `_end_operation` -/
  | «end» (thread : ℕ)
  /-- `_track_replacement_settlement`, by the push of this thread -/
  | track (thread : ℕ)
  /-- A replacement settlement ends. -/
  | settled
  /-- `close` is called. -/
  | close (thread : ℕ) (lossy : Bool)
  /-- A call of `close` goes on. -/
  | act (n : ℕ) (event : Event)
deriving DecidableEq, Repr

namespace Queue

def new : Queue := ⟨true, [], 0, false, false, 0, none, [], false, false, .notStarted, [], []⟩

/-- `_CloseOwnerToken.active`, of the owner -/
def ownerActive (s : Queue) : Bool :=
  s.owner.any fun m ↦ s.calls[m]?.any fun c ↦ ¬ c.stage.gone

/-- The call goes to another stage. -/
def goto (s : Queue) (n : ℕ) (c : Call) (stage : Stage) : Queue :=
  { s with calls := s.calls.set n { c with stage } }

/-- An attempt starts. -/
def start (s : Queue) (n : ℕ) (c : Call) : Queue :=
  { s.goto n c (if s.beginComplete then .draining else .beginning) with
    attempt := s.attempt + 1
    owner := some n
    inProgress := true
    accepting := false }

/-- The ownership of a frame that is gone is taken back. Cleanup is not repeated. -/
def reclaim (s : Queue) (n : ℕ) (c : Call) : Queue :=
  let s := { s with inProgress := false, owner := none }
  if s.cleanup = .notStarted then s.start n c
  else { s.goto n c (.finishing (if s.cleanup = .ended .succeeded then none else some .terminal)) with
    complete := true }

/-- The first section of `close` -/
def enterGate (s : Queue) (n : ℕ) (c : Call) : Queue :=
  if s.complete then s.goto n { c with late := true } (.finishing none)
  else if s.inProgress then
    if s.ownerActive then
      if s.owner.any fun m ↦ s.calls[m]?.any fun b ↦ b.thread = c.thread then
        s.goto n c (.finishing (some .inProgress))
      else s.goto n c (.waiting s.attempt)
    else s.reclaim n c
  else s.start n c

/-- Another call waits for this attempt. -/
def awaited (s : Queue) (attempt : ℕ) : Bool := s.calls.any fun c ↦ c.stage = .waiting attempt

/-- `_cleanup_close_waiter_locked`, after the call has left -/
def forget (s : Queue) (attempt : ℕ) : Queue :=
  if s.awaited attempt then s
  else { s with outcomes := s.outcomes.filter fun o ↦ o.1 ≠ attempt }

/-- `_wait_for_close_attempt_locked`, when the gate is held again -/
def wait (s : Queue) (n : ℕ) (c : Call) (attempt : ℕ) : Option Queue :=
  match s.outcomes.find? fun o ↦ o.1 = attempt with
  | some (_, succeeded, terminal) => some ((s.goto n c (.finishing (if succeeded then none
      else some (if terminal then .terminal else .retryable)))).forget attempt)
  | none =>
    if s.ownerActive then none
    else some ((s.goto n c (.finishing (some
      (if s.cleanup ≠ .notStarted then .terminal else .retryable)))).forget attempt)

/-- After the drain: the checkpoint, unless it is complete or is given up. -/
def afterDrain (s : Queue) (n : ℕ) (c : Call) : Queue :=
  if s.checkpointComplete then s.goto n c .checkpointed
  else if c.lossy then
    { s.goto n c .checkpointed with checkpointComplete := true, marks := s.marks ++ [.lossy] }
  else s.goto n c .persisting

/-- `_publish_strategy_cleanup_outcome` -/
def publishCleanup (s : Queue) (outcome : Outcome) : Queue :=
  if s.cleanup = .started then { s with cleanup := .ended outcome } else s

/-- `_publish_close_attempt` up to the outcomes, in as many parts as are run -/
def publishOutcome (s : Queue) (attempt : ℕ) (succeeded : Bool) (parts : ℕ) : Queue :=
  let started := s.cleanup ≠ .notStarted
  let s := if 2 ≤ parts then { s with complete := s.complete || succeeded || started } else s
  if 3 ≤ parts then
    { s with
      outcomes := (if s.awaited attempt then [(attempt, succeeded, decide started)] else []) ++
        s.outcomes.filter fun o ↦ o.1 ≠ attempt }
  else s

/-- `_repair_close_finalization`, in as many parts as are run -/
def repair (s : Queue) (failure : Option Failure) (parts : ℕ) : Queue :=
  (if 1 ≤ parts then s.publishCleanup .indeterminate else s).publishOutcome s.attempt
    (failure = none) parts

/-- A stage of a call ends. -/
def act (s : Queue) (n : ℕ) (c : Call) : Stage → Event → Option Queue
  | .entered, .ok =>
    some (if c.thread ∈ s.operations then s.goto n c (.raised .activeOperation) else s.goto n c .gate)
  | .entered, .interrupted _ => some (s.goto n c (.raised .control))
  | .gate, .ok => some (s.enterGate n c)
  | .gate, .interrupted _ => some (s.goto n c (.finishing (some .control)))
  | .waiting attempt, .ok => s.wait n c attempt
  | .waiting attempt, .interrupted _ =>
    some ((s.goto n c (.finishing (some .control))).forget attempt)
  | .beginning, .ok => some { s.goto n c .draining with beginComplete := true }
  | .beginning, .failed => some (s.goto n c (.repairing (some .error)))
  | .beginning, .interrupted _ => some (s.goto n c (.repairing (some .control)))
  | .draining, .ok =>
    if s.operations = [] ∧ s.settlements = 0 then some (s.afterDrain n c) else none
  | .draining, .failed => some (s.goto n c (.repairing (some .timeout)))
  | .draining, .interrupted _ => some (s.goto n c (.repairing (some .control)))
  | .persisting, .ok =>
    some { s.goto n c .checkpointed with checkpointComplete := true, marks := s.marks ++ [.committed] }
  | .persisting, .unneeded =>
    some { s.goto n c .checkpointed with checkpointComplete := true, marks := s.marks ++ [.unneeded] }
  | .persisting, .failed => some (s.goto n c (.repairing (some .error)))
  | .persisting, .interrupted _ => some (s.goto n c (.repairing (some .control)))
  | .checkpointed, .ok =>
    some { s.goto n { c with cleans := true } .marked with cleanup := .started }
  | .checkpointed, .interrupted _ => some (s.goto n c (.repairing (some .control)))
  | .marked, .ok => some { s.goto n c .closing with marks := s.marks ++ [.close] }
  | .marked, .interrupted _ => some (s.goto n c (.repairing (some .control)))
  | .closing, .ok =>
    some { s.goto n c (.publishing .succeeded) with marks := s.marks ++ [.closed] }
  | .closing, .failed => some (s.goto n c (.publishing .failed))
  | .closing, .interrupted _ => some (s.goto n c (.publishing .indeterminate))
  | .publishing outcome, .ok =>
    some ((s.publishCleanup outcome).goto n c (.repairing
      (if outcome = .succeeded then none
        else if outcome = .failed then some .error else some .control)))
  | .publishing _, .interrupted _ => some (s.goto n c (.repairing (some .control)))
  | .repairing failure, .ok =>
    some { (s.repair failure 3).goto n c (.ofFailure failure) with inProgress := false, owner := none }
  | .repairing failure, .interrupted parts =>
    some ((s.repair failure parts).goto n c (.raised .control))
  | .finishing failure, .ok =>
    some ((s.publishCleanup .indeterminate).goto n c (.ofFailure failure))
  -- A pending return goes on after the interruption.
  | .finishing failure, .interrupted _ => some (s.goto n c (.ofFailure (failure.map fun _ ↦ .control)))
  | _, _ => none

/-- One step. -/
def step (s : Queue) : Label → Option Queue
  | .begin thread =>
    some (if s.accepting then { s with operations := s.operations ++ [thread] } else s)
  | .end thread =>
    if thread ∈ s.operations then some { s with operations := s.operations.erase thread } else none
  | .track thread =>
    if thread ∈ s.operations then some { s with settlements := s.settlements + 1 } else none
  | .settled => if 0 < s.settlements then some { s with settlements := s.settlements - 1 } else none
  | .close thread lossy => some { s with calls := s.calls ++ [⟨thread, lossy, false, false, .entered⟩] }
  | .act n event => s.calls[n]?.bind fun c ↦ s.act n c c.stage event

end Queue

/-- The queue as a machine. -/
def machine : Machine Queue Label where
  init := Queue.new
  step := Queue.step

/-! ## The invariant -/

namespace Stage

/-- The call has waited for the operations. -/
def drained : Stage → Bool
  | persisting | checkpointed | marked | closing => true
  | _ => false

/-- The owner has not come to the cleanup. -/
def early : Stage → Bool
  | beginning | draining | persisting | checkpointed => true
  | _ => false

/-- The checkpoint is behind the call. -/
def checked : Stage → Bool
  | checkpointed | marked => true
  | _ => false

/-- `strategy.close` has returned to this call. -/
def succeeds : Stage → Bool
  | publishing outcome => outcome = .succeeded
  | repairing failure => failure = none
  | _ => false

/-- The call returns, and is not the owner. -/
def returns : Stage → Bool
  | finishing failure => failure = none
  | returned => true
  | _ => false

theorem owns_of_drained {stage : Stage} (h : stage.drained) : stage.owns := by
  rcases stage <;> first | rfl | exact nomatch h

theorem owns_of_early {stage : Stage} (h : stage.early) : stage.owns := by
  rcases stage <;> first | rfl | exact nomatch h

theorem owns_of_checked {stage : Stage} (h : stage.checked) : stage.owns := by
  rcases stage <;> first | rfl | exact nomatch h

theorem owns_of_succeeds {stage : Stage} (h : stage.succeeds) : stage.owns := by
  rcases stage <;> first | rfl | exact nomatch h

theorem not_returns_of_owns {stage : Stage} (h : stage.owns) : stage.returns = false := by
  cases stage <;> simp [returns, owns] at h ⊢

theorem not_gone_of_owns {stage : Stage} (h : stage.owns) : stage.gone = false := by
  cases stage <;> simp [gone, owns] at h ⊢

end Stage

/-- What lets the strategy be closed. -/
def Mark.authorizes : Mark → Bool
  | committed | unneeded | lossy => true
  | _ => false

namespace Queue

/-- The cleanup was started by a call that raised. -/
def Abandoned (s : Queue) : Prop := ∃ c ∈ s.calls, c.cleans ∧ ∃ failure, c.stage = .raised failure

/-- Some checkpoint mark is there. -/
def Authorized (s : Queue) : Prop := ∃ m ∈ s.marks, m.authorizes

end Queue

/-- What is known of a call from its stage. -/
structure Call.Ok (s : Queue) (n : ℕ) (c : Call) : Prop where
  owner : c.stage.owns → s.inProgress ∧ s.owner = some n
  drained : c.stage.drained → s.operations = [] ∧ s.settlements = 0
  early : c.stage.early → s.cleanup = .notStarted
  cleans : c.stage.owns → s.cleanup ≠ .notStarted → c.cleans
  checked : c.stage.checked → s.Authorized
  succeeds : c.stage.succeeds → .closed ∈ s.marks
  returns : c.stage.returns → .closed ∈ s.marks ∨ (c.late ∧ s.Abandoned)

namespace Queue

/-- What is known of the queue. -/
structure Facts (s : Queue) : Prop where
  fenced : 0 < s.attempt → s.accepting = false
  attempted : s.inProgress → 0 < s.attempt
  /-- A failed attempt leaves nothing started behind. -/
  idle : s.inProgress = false → s.complete = false → s.cleanup = .notStarted
  cleaner : s.cleanup ≠ .notStarted →
    (∃ c ∈ s.calls, c.stage.owns) ∨ .closed ∈ s.marks ∨ s.Abandoned
  closes : s.marks.count .close + s.calls.countP (·.stage = .marked) ≤
    (decide (s.cleanup ≠ .notStarted)).toNat
  checkpoint : s.checkpointComplete → s.Authorized
  authorized : ∀ before after, s.marks = before ++ .close :: after → ∃ m ∈ before, m.authorizes
  succeeded : s.cleanup = .ended .succeeded → .closed ∈ s.marks
  outcomes : ∀ o ∈ s.outcomes, o.2.1 → .closed ∈ s.marks
  complete : s.complete → .closed ∈ s.marks ∨ s.Abandoned

structure Inv (s : Queue) : Prop extends s.Facts where
  calls : ∀ (n : ℕ) (c : Call), s.calls[n]? = some c → c.Ok s n

variable {s t : Queue} {n : ℕ} {c d : Call}

theorem Inv.new : (new).Inv := by
  refine ⟨⟨nofun, nofun, fun _ _ ↦ rfl, fun h ↦ absurd rfl h, le_rfl, nofun, fun before after h ↦ ?_,
    nofun, fun _ ho ↦ absurd ho List.not_mem_nil, nofun⟩, fun n c hc ↦ ?_⟩
  · simp [Queue.new] at h
  · simp [Queue.new] at hc

/-- What an owner relies on is still there. -/
structure Frame (s t : Queue) : Prop where
  inProgress : t.inProgress = s.inProgress
  owner : t.owner = s.owner
  operations : s.operations = [] ∧ s.settlements = 0 → t.operations = [] ∧ t.settlements = 0
  cleanup : t.cleanup = .notStarted ↔ s.cleanup = .notStarted

theorem Authorized.mono (h : s.Authorized) (hmarks : s.marks ⊆ t.marks) : t.Authorized := by
  obtain ⟨m, hm, hauthorizes⟩ := h
  exact ⟨m, hmarks hm, hauthorizes⟩

end Queue

theorem Call.Ok.of_not_owns {s : Queue} {n : ℕ} {c : Call} (hc : c.stage.owns = false)
    (hreturns : c.stage.returns → .closed ∈ s.marks ∨ (c.late ∧ s.Abandoned)) : c.Ok s n where
  owner h := absurd h (Bool.eq_false_iff.1 hc)
  drained h := absurd (Stage.owns_of_drained h) (Bool.eq_false_iff.1 hc)
  early h := absurd (Stage.owns_of_early h) (Bool.eq_false_iff.1 hc)
  cleans h := absurd h (Bool.eq_false_iff.1 hc)
  checked h := absurd (Stage.owns_of_checked h) (Bool.eq_false_iff.1 hc)
  succeeds h := absurd (Stage.owns_of_succeeds h) (Bool.eq_false_iff.1 hc)
  returns := hreturns

theorem Call.Ok.mono {s t : Queue} {n : ℕ} {c : Call} (h : c.Ok s n) (hframe : c.stage.owns → s.Frame t)
    (hmarks : s.marks ⊆ t.marks) (habandoned : s.Abandoned → t.Abandoned) : c.Ok t n where
  owner hc := by
    rw [(hframe hc).inProgress, (hframe hc).owner]
    exact h.owner hc
  drained hc := (hframe (Stage.owns_of_drained hc)).operations (h.drained hc)
  early hc := (hframe (Stage.owns_of_early hc)).cleanup.2 (h.early hc)
  cleans hc hcleanup := h.cleans hc (mt (hframe hc).cleanup.2 hcleanup)
  checked hc := (h.checked hc).mono hmarks
  succeeds hc := hmarks (h.succeeds hc)
  returns hc := (h.returns hc).imp (@hmarks _) fun ⟨hlate, hs⟩ ↦ ⟨hlate, habandoned hs⟩

namespace Queue

variable {s t : Queue} {n : ℕ} {c d : Call}

/-- A call that raised is not forgotten while another one moves. -/
theorem Abandoned.set (h : s.Abandoned) (hn : s.calls[n]? = some c) (hlive : c.stage.gone = false)
    (hcalls : t.calls = s.calls.set n d) : t.Abandoned := by
  obtain ⟨b, hb, hcleans, failure, hraised⟩ := h
  obtain ⟨m, hm⟩ := List.mem_iff_getElem?.1 hb
  have hne : n ≠ m := by
    rintro rfl
    obtain rfl : c = b := Option.some.inj (hn.symm.trans hm)
    simp [hraised, Stage.gone] at hlive
  refine ⟨b, ?_, hcleans, failure, hraised⟩
  rw [hcalls]
  exact List.mem_of_getElem? ((List.getElem?_set_ne hne).trans hm)

/-- Two calls do not own at a time. -/
theorem Inv.not_owns (h : s.Inv) (hn : s.calls[n]? = some c) (hc : c.stage.owns) {m : ℕ} {b : Call}
    (hm : s.calls[m]? = some b) (hne : m ≠ n) : b.stage.owns = false := by
  refine Bool.eq_false_iff.2 fun hb ↦ hne ?_
  have howner := ((h.calls m b hm).owner hb).2
  rw [((h.calls n c hn).owner hc).2] at howner
  exact (Option.some.inj howner).symm

/-- A call moves. -/
theorem Inv.update (h : s.Inv) (hn : s.calls[n]? = some c) (hcalls : t.calls = s.calls.set n d)
    (hlive : c.stage.gone = false) (hmarks : s.marks ⊆ t.marks) (ht : t.Facts) (hd : d.Ok t n)
    (hframe : c.stage.owns ∨ (∀ b ∈ s.calls, b.stage.owns = false) ∨ s.Frame t) : t.Inv := by
  refine ⟨ht, fun m b hb ↦ ?_⟩
  rw [hcalls] at hb
  obtain ⟨rfl, rfl⟩ | ⟨hne, hb⟩ := List.getElem?_set_some hb
  · exact hd
  · refine (h.calls m b hb).mono (fun howns ↦ ?_) hmarks fun hs ↦ hs.set hn hlive hcalls
    rcases hframe with hc | hnone | hframe
    · rw [h.not_owns hn hc hb hne] at howns
      exact absurd howns Bool.false_ne_true
    · rw [hnone b (List.mem_of_getElem? hb)] at howns
      exact absurd howns Bool.false_ne_true
    · exact hframe

/-- An owner moves on, or has ended the cleanup. -/
theorem Inv.cleaner_update (h : s.Inv) (hn : s.calls[n]? = some c)
    (hcalls : t.calls = s.calls.set n d) (hlive : c.stage.gone = false) (hmarks : s.marks ⊆ t.marks)
    (hd : c.stage.owns → d.stage.owns ∨ .closed ∈ t.marks ∨ t.Abandoned)
    (hcleanup : s.cleanup ≠ .notStarted) :
    (∃ c ∈ t.calls, c.stage.owns) ∨ .closed ∈ t.marks ∨ t.Abandoned := by
  have hmem : d ∈ t.calls := by
    rw [hcalls]
    exact List.mem_set (List.getElem?_eq_some_iff.1 hn).1 d
  rcases h.cleaner hcleanup with ⟨b, hb, howns⟩ | hclosed | habandoned
  · obtain ⟨m, hm⟩ := List.mem_iff_getElem?.1 hb
    by_cases hne : n = m
    · subst hne
      obtain rfl : c = b := Option.some.inj (hn.symm.trans hm)
      rcases hd howns with hd | hd
      · exact .inl ⟨d, hmem, hd⟩
      · exact .inr hd
    · refine .inl ⟨b, ?_, howns⟩
      rw [hcalls]
      exact List.mem_of_getElem? ((List.getElem?_set_ne hne).trans hm)
  · exact .inr (.inl (hmarks hclosed))
  · exact .inr (.inr (habandoned.set hn hlive hcalls))

/-- How many calls are about to invoke `strategy.close`. -/
theorem countP_marked (hn : s.calls[n]? = some c) (hcalls : t.calls = s.calls.set n d) :
    t.calls.countP (·.stage = .marked) + (decide (c.stage = .marked)).toNat =
      s.calls.countP (·.stage = .marked) + (decide (d.stage = .marked)).toNat := by
  rw [hcalls]
  exact List.countP_set_add (fun c : Call ↦ decide (c.stage = .marked)) hn

/-- The fields that a plain move of a call leaves alone. -/
structure Same (s t : Queue) : Prop where
  accepting : t.accepting = s.accepting
  operations : t.operations = s.operations
  settlements : t.settlements = s.settlements
  complete : t.complete = s.complete
  inProgress : t.inProgress = s.inProgress
  attempt : t.attempt = s.attempt
  owner : t.owner = s.owner
  outcomes : t.outcomes ⊆ s.outcomes
  checkpointComplete : t.checkpointComplete = s.checkpointComplete
  cleanup : t.cleanup = s.cleanup
  marks : t.marks = s.marks

theorem Same.frame (h : s.Same t) : s.Frame t :=
  ⟨h.inProgress, h.owner, fun hs ↦ by rwa [h.operations, h.settlements], by rw [h.cleanup]⟩

theorem Inv.facts_move (h : s.Inv) (hn : s.calls[n]? = some c) (hcalls : t.calls = s.calls.set n d)
    (hlive : c.stage.gone = false) (hsame : s.Same t)
    (hmarked : d.stage = .marked → c.stage = .marked)
    (hd : c.stage.owns → d.stage.owns ∨ .closed ∈ t.marks ∨ t.Abandoned) : t.Facts := by
  have hmarks : s.marks ⊆ t.marks := hsame.marks ▸ List.Subset.refl _
  refine ⟨?_, ?_, ?_, fun hcleanup ↦ ?_, ?_, fun hcheckpoint ↦ ?_, ?_, ?_, fun o ho hsucceeded ↦ ?_,
    fun hcomplete ↦ ?_⟩
  · rw [hsame.attempt, hsame.accepting]
    exact h.fenced
  · rw [hsame.attempt, hsame.inProgress]
    exact h.attempted
  · rw [hsame.inProgress, hsame.complete, hsame.cleanup]
    exact h.idle
  · rw [hsame.cleanup] at hcleanup
    exact h.cleaner_update hn hcalls hlive hmarks hd hcleanup
  · have hcount := countP_marked hn hcalls
    have hle : (decide (d.stage = .marked)).toNat ≤ (decide (c.stage = .marked)).toNat := by
      by_cases hm : d.stage = .marked
      · simp [hm, hmarked hm]
      · simp [hm]
    have hcloses := h.closes
    rw [hsame.cleanup, hsame.marks]
    omega
  · rw [hsame.checkpointComplete] at hcheckpoint
    exact (h.checkpoint hcheckpoint).mono hmarks
  · rw [hsame.marks]
    exact h.authorized
  · rw [hsame.cleanup, hsame.marks]
    exact h.succeeded
  · exact hmarks (h.outcomes o (hsame.outcomes ho) hsucceeded)
  · rw [hsame.complete] at hcomplete
    exact (h.complete hcomplete).imp (@hmarks _) fun hs ↦ hs.set hn hlive hcalls

/-- A call that is not the owner moves on. -/
theorem Inv.aside (h : s.Inv) (hn : s.calls[n]? = some c) (hcalls : t.calls = s.calls.set n d)
    (hsame : s.Same t) (hlive : c.stage.gone = false) (hc : c.stage.owns = false)
    (hd : d.stage.owns = false)
    (hreturns : d.stage.returns → .closed ∈ s.marks ∨ (d.late ∧ s.Abandoned)) : t.Inv := by
  have hmarked : d.stage = .marked → c.stage = .marked := by
    intro hm
    simp [hm, Stage.owns] at hd
  refine h.update hn hcalls hlive (hsame.marks ▸ List.Subset.refl _)
    (h.facts_move hn hcalls hlive hsame hmarked ?_) (.of_not_owns hd fun hr ↦ ?_) (.inr (.inr hsame.frame))
  · simp [hc]
  · rw [hsame.marks]
    exact (hreturns hr).imp_right fun ⟨hlate, hs⟩ ↦ ⟨hlate, hs.set hn hlive hcalls⟩

/-- The owner moves on. -/
theorem Inv.proceed (h : s.Inv) (hn : s.calls[n]? = some c) (hcalls : t.calls = s.calls.set n d)
    (hsame : s.Same t) (hc : c.stage.owns) (hd : d.stage.owns) (hcleans : d.cleans = c.cleans)
    (hmarked : d.stage = .marked → c.stage = .marked)
    (hdrained : d.stage.drained → s.operations = [] ∧ s.settlements = 0)
    (hearly : d.stage.early → c.stage.early) (hchecked : d.stage.checked → s.Authorized)
    (hsucceeds : d.stage.succeeds → c.stage.succeeds) : t.Inv := by
  have hok := h.calls n c hn
  have hlive := Stage.not_gone_of_owns hc
  have hmarks : s.marks ⊆ t.marks := hsame.marks ▸ List.Subset.refl _
  refine h.update hn hcalls hlive hmarks (h.facts_move hn hcalls hlive hsame hmarked fun _ ↦ .inl hd)
    ⟨fun _ ↦ ?_, fun hd ↦ ?_, fun hd ↦ ?_, fun _ hcleanup ↦ ?_, fun hd ↦ ?_, fun hd ↦ ?_, fun hr ↦ ?_⟩
    (.inl hc)
  · rw [hsame.inProgress, hsame.owner]
    exact hok.owner hc
  · rw [hsame.operations, hsame.settlements]
    exact hdrained hd
  · rw [hsame.cleanup]
    exact hok.early (hearly hd)
  · rw [hsame.cleanup] at hcleanup
    rw [hcleans]
    exact hok.cleans hc hcleanup
  · exact (hchecked hd).mono hmarks
  · exact hmarks (hok.succeeds (hsucceeds hd))
  · rw [Stage.not_returns_of_owns hd] at hr
    exact absurd hr Bool.false_ne_true

/-- The attempt fails. -/
theorem Inv.fail (h : s.Inv) (hn : s.calls[n]? = some c) {stage : Stage} (hc : c.stage = stage)
    (howns : stage.owns) (failure : Failure) : (s.goto n c (.repairing (some failure))).Inv := by
  subst hc
  exact h.proceed hn rfl ⟨rfl, rfl, rfl, rfl, rfl, rfl, rfl, List.Subset.refl _, rfl, rfl, rfl⟩ howns
    rfl rfl nofun nofun nofun nofun nofun

/-! ### Marks -/

/-- What comes before an invocation of `strategy.close` is not changed by what is done later. -/
theorem Inv.authorized_concat (h : s.Inv) {x : Mark} (hx : x = .close → s.Authorized)
    (before after : List Mark) (heq : s.marks ++ [x] = before ++ .close :: after) :
    ∃ m ∈ before, m.authorizes := by
  rcases List.eq_nil_or_concat after with rfl | ⟨after, y, rfl⟩
  · obtain ⟨hmarks, hclose⟩ := List.append_inj' heq rfl
    obtain rfl : x = .close := by simpa using hclose
    exact hmarks ▸ hx rfl
  · rw [List.concat_eq_append, ← List.cons_append, ← List.append_assoc] at heq
    exact h.authorized before after (List.append_inj' heq rfl).1

/-- The owner moves on, and leaves a mark. -/
theorem Inv.leaveMark (h : s.Inv) (hn : s.calls[n]? = some c) (hcalls : t.calls = s.calls.set n d)
    (x : Mark) (hmarks : t.marks = s.marks ++ [x])
    (hsame : s.Same { t with marks := s.marks, checkpointComplete := s.checkpointComplete })
    (hcheckpoint : t.checkpointComplete → s.checkpointComplete ∨ x.authorizes)
    (hc : c.stage.owns) (hd : d.stage.owns) (hcleans : d.cleans = c.cleans)
    (hclose : x = .close → c.stage = .marked) (hmarked : d.stage ≠ .marked)
    (hdrained : d.stage.drained → s.operations = [] ∧ s.settlements = 0)
    (hearly : d.stage.early → c.stage.early) (hchecked : d.stage.checked → x.authorizes)
    (hsucceeds : d.stage.succeeds → x = .closed) : t.Inv := by
  have hok := h.calls n c hn
  have hlive := Stage.not_gone_of_owns hc
  have hsub : s.marks ⊆ t.marks := hmarks ▸ List.subset_append_left ..
  have hmem : x ∈ t.marks := by simp [hmarks]
  refine h.update hn hcalls hlive hsub ⟨?_, ?_, ?_, fun hcleanup ↦ ?_, ?_, fun hcomplete ↦ ?_, ?_,
    fun hcleanup ↦ ?_, fun o ho hsucceeded ↦ ?_, fun hcomplete ↦ ?_⟩
    ⟨fun _ ↦ ?_, fun hd ↦ ?_, fun hd ↦ ?_, fun _ hcleanup ↦ ?_, fun hd ↦ ?_, fun hd ↦ ?_, fun hr ↦ ?_⟩
    (.inl hc)
  · rw [hsame.attempt, hsame.accepting]
    exact h.fenced
  · rw [hsame.attempt, hsame.inProgress]
    exact h.attempted
  · rw [hsame.inProgress, hsame.complete, hsame.cleanup]
    exact h.idle
  · have hstarted : s.cleanup ≠ .notStarted := by rwa [← hsame.cleanup]
    exact h.cleaner_update hn hcalls hlive hsub (fun _ ↦ .inl hd) hstarted
  · have hcount := countP_marked hn hcalls
    have hcloses := h.closes
    have hcleanup : t.cleanup = s.cleanup := hsame.cleanup
    rw [hmarks, List.count_append, hcleanup]
    by_cases hx : x = .close
    · simp only [hclose hx, hmarked, decide_true, decide_false, Bool.toNat_true, Bool.toNat_false]
        at hcount
      have : List.count Mark.close [x] = 1 := by simp [hx]
      omega
    · simp only [hmarked, decide_false, Bool.toNat_false] at hcount
      have : List.count Mark.close [x] = 0 := by simp [hx]
      omega
  · rcases hcheckpoint hcomplete with hcomplete | hx
    · exact (h.checkpoint hcomplete).mono hsub
    · exact ⟨x, hmem, hx⟩
  · rw [hmarks]
    refine h.authorized_concat fun hx ↦ hok.checked ?_
    rw [hclose hx]
    rfl
  · have hcleanup' : s.cleanup = .ended .succeeded := by rwa [← hsame.cleanup]
    exact hsub (h.succeeded hcleanup')
  · exact hsub (h.outcomes o (hsame.outcomes ho) hsucceeded)
  · have hcomplete' : s.complete := by rwa [← hsame.complete]
    exact (h.complete hcomplete').imp (@hsub _) fun hs ↦ hs.set hn hlive hcalls
  · rw [hsame.inProgress, hsame.owner]
    exact hok.owner hc
  · rw [hsame.operations, hsame.settlements]
    exact hdrained hd
  · rw [hsame.cleanup]
    exact hok.early (hearly hd)
  · have hstarted : s.cleanup ≠ .notStarted := by rwa [← hsame.cleanup]
    rw [hcleans]
    exact hok.cleans hc hstarted
  · exact ⟨x, hmem, hchecked hd⟩
  · exact hsucceeds hd ▸ hmem
  · rw [Stage.not_returns_of_owns hd] at hr
    exact absurd hr Bool.false_ne_true

/-! ### The cleanup -/

/-- The mark before `strategy.close` -/
theorem Inv.markStarted (h : s.Inv) (hn : s.calls[n]? = some c) (hc : c.stage = .checkpointed) :
    ({ s.goto n { c with cleans := true } .marked with cleanup := .started } : Queue).Inv := by
  have hok := h.calls n c hn
  have howns : c.stage.owns := by simp [hc, Stage.owns]
  have hlive := Stage.not_gone_of_owns howns
  have hnot : s.cleanup = .notStarted := hok.early (by simp [hc, Stage.early])
  refine h.update hn rfl hlive (List.Subset.refl _) ⟨h.fenced, h.attempted, fun hidle _ ↦ ?_,
    fun _ ↦ .inl ⟨_, List.mem_set (List.getElem?_eq_some_iff.1 hn).1 _, rfl⟩, ?_, h.checkpoint,
    h.authorized, nofun, h.outcomes, fun hcomplete ↦ ?_⟩ ⟨fun _ ↦ hok.owner howns,
    fun _ ↦ hok.drained (by simp [hc, Stage.drained]), nofun, fun _ _ ↦ rfl,
    fun _ ↦ hok.checked (by simp [hc, Stage.checked]), nofun, nofun⟩ (.inl howns)
  · exact absurd (hidle.symm.trans (hok.owner howns).1) Bool.false_ne_true
  · have hcount := countP_marked (t := s.goto n { c with cleans := true } .marked) hn rfl
    have hcloses := h.closes
    simp only [hnot, ne_eq, not_true_eq_false, decide_false, Bool.toNat_false] at hcloses
    have hnone : decide (c.stage = .marked) = false := by simp [hc]
    rw [hnone, Bool.toNat_false] at hcount
    change _ = s.calls.countP _ + 1 at hcount
    change s.marks.count .close + (s.goto n { c with cleans := true } .marked).calls.countP _ ≤ 1
    omega
  · exact (h.complete hcomplete).imp_right fun hs ↦ hs.set hn hlive rfl

/-- The outcome of the cleanup, while the calls stay where they are. -/
theorem Inv.publishCleanup (h : s.Inv) {outcome : Outcome}
    (hsucceeded : outcome = .succeeded → .closed ∈ s.marks) : (s.publishCleanup outcome).Inv := by
  unfold Queue.publishCleanup
  split
  · rename_i hcleanup
    have hnot : s.cleanup ≠ .notStarted := by simp [hcleanup]
    refine ⟨⟨h.fenced, h.attempted, fun hidle hcomplete ↦ absurd (h.idle hidle hcomplete) hnot,
      fun _ ↦ h.cleaner hnot, ?_, h.checkpoint, h.authorized, fun heq ↦ ?_, h.outcomes, h.complete⟩,
      fun m b hb ↦ ?_⟩
    · have hcloses := h.closes
      simpa [hnot] using hcloses
    · exact hsucceeded (Cleanup.ended.inj heq)
    · refine (h.calls m b hb).mono (fun _ ↦ ⟨rfl, rfl, id, ?_⟩) (List.Subset.refl _) id
      simp [hnot]
  · exact h

theorem publishCleanup_calls (s : Queue) (outcome : Outcome) :
    (s.publishCleanup outcome).calls = s.calls := by
  unfold Queue.publishCleanup
  split <;> rfl

/-! ### The finalization -/

/-- What the parts of `_publish_close_attempt` do. -/
structure Published (s t : Queue) (succeeded : Bool) : Prop where
  complete : t.complete → s.complete ∨ succeeded ∨ s.cleanup ≠ .notStarted
  outcomes : ∀ o ∈ t.outcomes, o ∈ s.outcomes ∨ o.2.1 = succeeded
  marks : t.marks = s.marks
  calls : t.calls = s.calls
  cleanup : t.cleanup = s.cleanup
  checkpointComplete : t.checkpointComplete = s.checkpointComplete
  accepting : t.accepting = s.accepting
  attempt : t.attempt = s.attempt
  inProgress : t.inProgress = s.inProgress

theorem published_publishOutcome (s : Queue) (attempt : ℕ) (succeeded : Bool) (parts : ℕ) :
    s.Published (s.publishOutcome attempt succeeded parts) succeeded := by
  have hcomplete : (s.complete || succeeded || decide (s.cleanup ≠ .notStarted)) →
      s.complete ∨ succeeded ∨ s.cleanup ≠ .notStarted := by
    simp [or_assoc]
  have houtcomes : ∀ (u : Queue), u.outcomes = s.outcomes → ∀ o ∈ (if u.awaited attempt then
      [(attempt, succeeded, decide (s.cleanup ≠ .notStarted))] else []) ++
        u.outcomes.filter (fun o ↦ o.1 ≠ attempt), o ∈ s.outcomes ∨ o.2.1 = succeeded := by
    intro u hu o ho
    rcases List.mem_append.1 ho with ho | ho
    · split at ho
      · obtain rfl := List.mem_singleton.1 ho
        exact .inr rfl
      · exact absurd ho List.not_mem_nil
    · exact .inl (hu ▸ (List.mem_filter.1 ho).1)
  unfold Queue.publishOutcome
  dsimp only
  split
  · split
    · exact ⟨hcomplete, houtcomes _ rfl, rfl, rfl, rfl, rfl, rfl, rfl, rfl⟩
    · exact ⟨.inl, houtcomes _ rfl, rfl, rfl, rfl, rfl, rfl, rfl, rfl⟩
  · split
    · exact ⟨hcomplete, fun _ ho ↦ .inl ho, rfl, rfl, rfl, rfl, rfl, rfl, rfl⟩
    · exact ⟨.inl, fun _ ho ↦ .inl ho, rfl, rfl, rfl, rfl, rfl, rfl, rfl⟩

/-- The attempt of the owner is over. -/
theorem Inv.conclude (h : s.Inv) (hn : s.calls[n]? = some c) {failure : Option Failure}
    (hc : c.stage = .repairing failure) {u : Queue} (hu : s.Published u (failure = none))
    (hcalls : t.calls = u.calls.set n d) (hcleans : d.cleans = c.cleans)
    (hd : d.stage = .returned ∧ failure = none ∨ ∃ f, d.stage = .raised f)
    (hmarks : t.marks = u.marks) (hcomplete : t.complete = u.complete)
    (houtcomes : t.outcomes = u.outcomes) (hcleanup : t.cleanup = u.cleanup)
    (hcheckpoint : t.checkpointComplete = u.checkpointComplete) (haccepting : t.accepting = u.accepting)
    (hattempt : t.attempt = u.attempt)
    (hidle : t.inProgress = false → t.complete = false → t.cleanup = .notStarted)
    (hinProgress : t.inProgress → s.inProgress) : t.Inv := by
  have hok := h.calls n c hn
  have howns : c.stage.owns := by simp [hc, Stage.owns]
  have hlive := Stage.not_gone_of_owns howns
  have hmarks' : t.marks = s.marks := hmarks.trans hu.marks
  have hcalls' : t.calls = s.calls.set n d := by rw [hcalls, hu.calls]
  have hcleanup' : t.cleanup = s.cleanup := hcleanup.trans hu.cleanup
  have hmem : d ∈ t.calls := by
    rw [hcalls']
    exact List.mem_set (List.getElem?_eq_some_iff.1 hn).1 d
  have hclosed : failure = none → .closed ∈ t.marks := fun hnone ↦
    hmarks' ▸ hok.succeeds (by simp [hc, hnone, Stage.succeeds])
  have habandoned : s.Abandoned → t.Abandoned := fun hs ↦ hs.set hn hlive hcalls'
  -- The owner has started the cleanup, if anybody has.
  have hended : s.cleanup ≠ .notStarted → .closed ∈ t.marks ∨ t.Abandoned := by
    intro hstarted
    rcases hd with ⟨-, hnone⟩ | hraised
    · exact .inl (hclosed hnone)
    · exact .inr ⟨d, hmem, hcleans.trans (hok.cleans howns hstarted), hraised⟩
  have hnot : d.stage.owns = false := by
    rcases hd with ⟨hd, -⟩ | ⟨f, hd⟩
    · rw [hd]
      rfl
    · rw [hd]
      rfl
  refine h.update hn hcalls' hlive (hmarks' ▸ List.Subset.refl _) ⟨?_, fun hp ↦ ?_, hidle,
    fun hstarted ↦ .inr (hended (hcleanup' ▸ hstarted)), ?_, fun hcomplete ↦ ?_, ?_, ?_,
    fun o ho hsucceeded ↦ ?_, fun hc ↦ ?_⟩ (.of_not_owns hnot fun hr ↦ ?_) (.inl howns)
  · rw [hattempt, haccepting, hu.attempt, hu.accepting]
    exact h.fenced
  · rw [hattempt, hu.attempt]
    exact h.attempted (hinProgress hp)
  · have hcount := countP_marked hn hcalls'
    have hcloses := h.closes
    have hnone : decide (d.stage = .marked) = false := by
      refine decide_eq_false fun hm ↦ ?_
      rw [hm] at hnot
      exact absurd hnot.symm Bool.false_ne_true
    rw [hnone, Bool.toNat_false] at hcount
    rw [hmarks', hcleanup']
    omega
  · rw [hcheckpoint, hu.checkpointComplete] at hcomplete
    exact (h.checkpoint hcomplete).mono (hmarks' ▸ List.Subset.refl _)
  · rw [hmarks']
    exact h.authorized
  · rw [hcleanup', hmarks']
    exact h.succeeded
  · rw [houtcomes] at ho
    rcases hu.outcomes o ho with ho | ho
    · exact hmarks' ▸ h.outcomes o ho hsucceeded
    · exact hclosed (of_decide_eq_true (ho.symm.trans hsucceeded))
  · rw [hcomplete] at hc
    rcases hu.complete hc with hc | hnone | hstarted
    · exact (h.complete hc).imp (fun hm ↦ hmarks' ▸ hm) habandoned
    · exact .inl (hclosed (of_decide_eq_true hnone))
    · exact hended hstarted
  · rcases hd with ⟨-, hnone⟩ | ⟨f, hd⟩
    · exact .inl (hclosed hnone)
    · simp [hd, Stage.returns] at hr

/-- The part of the finalization that every call goes through. -/
theorem Inv.repaired (h : s.Inv) (parts : ℕ) :
    (if 1 ≤ parts then s.publishCleanup .indeterminate else s).Inv ∧
      (if 1 ≤ parts then s.publishCleanup .indeterminate else s).calls = s.calls := by
  split
  · exact ⟨h.publishCleanup nofun, s.publishCleanup_calls _⟩
  · exact ⟨h, rfl⟩

/-- The owner gives the attempt up, or has succeeded. -/
theorem Inv.finish (h : s.Inv) (hn : s.calls[n]? = some c) {failure : Option Failure}
    (hc : c.stage = .repairing failure) :
    ({ (s.repair failure 3).goto n c (.ofFailure failure) with
      inProgress := false, owner := none } : Queue).Inv := by
  obtain ⟨hinv, hcalls⟩ := h.repaired 3
  have hn' := hcalls ▸ hn
  refine hinv.conclude hn' hc (published_publishOutcome _ s.attempt (failure = none) 3) rfl rfl ?_ rfl
    rfl rfl rfl rfl rfl rfl (fun _ hcomplete ↦ ?_) nofun
  · cases failure with
    | none => exact .inl ⟨rfl, rfl⟩
    | some failure => exact .inr ⟨failure, rfl⟩
  · change (_ || _ || decide ((s.publishCleanup .indeterminate).cleanup ≠ .notStarted)) = false
      at hcomplete
    rw [Bool.or_eq_false_iff] at hcomplete
    exact not_not.1 (of_decide_eq_false hcomplete.2)

/-- The finalization of the owner is interrupted. -/
theorem Inv.interruptFinish (h : s.Inv) (hn : s.calls[n]? = some c) {failure : Option Failure}
    (hc : c.stage = .repairing failure) (parts : ℕ) :
    ((s.repair failure parts).goto n c (.raised .control)).Inv := by
  obtain ⟨hinv, hcalls⟩ := h.repaired parts
  have hn' := hcalls ▸ hn
  have hpublished := published_publishOutcome
    (if 1 ≤ parts then s.publishCleanup .indeterminate else s) s.attempt (failure = none) parts
  have howner := ((hinv.calls n c hn').owner (by simp [hc, Stage.owns])).1
  refine hinv.conclude hn' hc hpublished rfl rfl (.inr ⟨.control, rfl⟩) rfl rfl rfl rfl rfl rfl rfl
    (fun hidle ↦ ?_) fun _ ↦ howner
  change (Queue.publishOutcome _ s.attempt _ parts).inProgress = false at hidle
  rw [hpublished.inProgress, howner] at hidle
  exact absurd hidle.symm Bool.false_ne_true

/-! ### The gate -/

/-- Nobody owns the attempt of a frame that is gone. -/
theorem Inv.free_of_inactive (h : s.Inv) (hactive : s.ownerActive = false) :
    ∀ b ∈ s.calls, b.stage.owns = false := by
  intro b hb
  obtain ⟨m, hm⟩ := List.mem_iff_getElem?.1 hb
  refine Bool.eq_false_iff.2 fun howns ↦ ?_
  have howner := ((h.calls m b hm).owner howns).2
  rw [Queue.ownerActive, howner] at hactive
  simp [hm, Stage.not_gone_of_owns howns] at hactive

theorem Inv.free_of_idle (h : s.Inv) (hidle : s.inProgress = false) :
    ∀ b ∈ s.calls, b.stage.owns = false := by
  intro b hb
  obtain ⟨m, hm⟩ := List.mem_iff_getElem?.1 hb
  refine Bool.eq_false_iff.2 fun howns ↦ ?_
  rw [((h.calls m b hm).owner howns).1] at hidle
  exact absurd hidle.symm Bool.false_ne_true

/-- The attempt of a frame that is gone is nobody's. -/
theorem Inv.release (h : s.Inv) (hfree : ∀ b ∈ s.calls, b.stage.owns = false)
    (hidle : s.complete = false → s.cleanup = .notStarted) :
    ({ s with inProgress := false, owner := none } : Queue).Inv := by
  refine ⟨⟨h.fenced, nofun, fun _ ↦ hidle, h.cleaner, h.closes, h.checkpoint, h.authorized, h.succeeded,
    h.outcomes, h.complete⟩, fun m b hb ↦ ?_⟩
  refine (h.calls m b hb).mono (fun howns ↦ ?_) (List.Subset.refl _) id
  rw [hfree b (List.mem_of_getElem? hb)] at howns
  exact absurd howns Bool.false_ne_true

theorem Inv.start (h : s.Inv) (hn : s.calls[n]? = some c) (hc : c.stage = .gate)
    (hfree : ∀ b ∈ s.calls, b.stage.owns = false) (hcleanup : s.cleanup = .notStarted) :
    (s.start n c).Inv := by
  have hlive : c.stage.gone = false := by rw [hc]; rfl
  have hstage : ∀ stage : Stage, stage = (if s.beginComplete then .draining else .beginning) →
      stage.owns ∧ stage.early ∧ stage.drained = false ∧ stage.checked = false ∧
        stage.succeeds = false ∧ stage.returns = false ∧ stage ≠ .marked := by
    rintro stage rfl
    split
    · exact ⟨rfl, rfl, rfl, rfl, rfl, rfl, nofun⟩
    · exact ⟨rfl, rfl, rfl, rfl, rfl, rfl, nofun⟩
  obtain ⟨howns, hearly, hdrained, hchecked, hsucceeds, hreturns, hmarked⟩ := hstage _ rfl
  refine h.update hn rfl hlive (List.Subset.refl _) ⟨fun _ ↦ rfl, fun _ ↦ Nat.succ_pos _, nofun,
    fun hstarted ↦ absurd hcleanup hstarted, ?_, h.checkpoint, h.authorized, h.succeeded, h.outcomes,
    fun hcomplete ↦ ?_⟩ ⟨fun _ ↦ ⟨rfl, rfl⟩, fun hd ↦ ?_, fun _ ↦ hcleanup,
    fun _ hstarted ↦ absurd hcleanup hstarted, fun hd ↦ ?_, fun hd ↦ ?_, fun hd ↦ ?_⟩
    (.inr (.inl hfree))
  · have hcount := countP_marked (t := s.start n c) hn rfl
    have hcloses := h.closes
    rw [decide_eq_false hmarked, Bool.toNat_false] at hcount
    change s.marks.count .close + (s.start n c).calls.countP _ ≤ (decide (s.cleanup ≠ _)).toNat
    omega
  · exact (h.complete hcomplete).imp_right fun hs ↦ hs.set hn hlive rfl
  · exact absurd (hdrained.symm.trans hd) Bool.false_ne_true
  · exact absurd (hchecked.symm.trans hd) Bool.false_ne_true
  · exact absurd (hsucceeds.symm.trans hd) Bool.false_ne_true
  · exact absurd (hreturns.symm.trans hd) Bool.false_ne_true

theorem Inv.reclaim (h : s.Inv) (hn : s.calls[n]? = some c) (hc : c.stage = .gate)
    (hactive : s.ownerActive = false) : (s.reclaim n c).Inv := by
  have hfree := h.free_of_inactive hactive
  have hlive : c.stage.gone = false := by rw [hc]; rfl
  unfold Queue.reclaim
  dsimp only
  split
  · rename_i hcleanup
    exact (h.release hfree fun _ ↦ hcleanup).start hn hc hfree hcleanup
  · -- The frame that started the cleanup is gone, and raised unless the cleanup succeeded.
    rename_i hcleanup
    have hended : .closed ∈ s.marks ∨ s.Abandoned := by
      refine (h.cleaner hcleanup).resolve_left ?_
      rintro ⟨b, hb, howns⟩
      exact absurd ((hfree b hb).symm.trans howns) Bool.false_ne_true
    have habandoned : ∀ stage, s.Abandoned → (s.goto n c stage).Abandoned := fun stage hs ↦
      hs.set hn hlive rfl
    refine h.update hn rfl hlive (List.Subset.refl _) ⟨h.fenced, nofun, nofun, fun hstarted ↦ ?_, ?_,
      h.checkpoint, h.authorized, h.succeeded, h.outcomes, fun _ ↦ ?_⟩ (.of_not_owns rfl fun hr ↦ ?_)
      (.inr (.inl hfree))
    · exact .inr (hended.imp_right (habandoned _))
    · have hcount := countP_marked (t := s.goto n c
        (.finishing (if s.cleanup = .ended .succeeded then none else some .terminal))) hn rfl
      have hcloses := h.closes
      change _ + _ = _ + 0 at hcount
      change s.marks.count .close + (s.goto n c _).calls.countP _ ≤ (decide (s.cleanup ≠ _)).toNat
      omega
    · exact hended.imp_right (habandoned _)
    · by_cases hsucceeded : s.cleanup = .ended .succeeded
      · exact .inl (h.succeeded hsucceeded)
      · simp [Stage.returns, hsucceeded] at hr

theorem Inv.enterGate (h : s.Inv) (hn : s.calls[n]? = some c) (hc : c.stage = .gate) :
    (s.enterGate n c).Inv := by
  have hlive : c.stage.gone = false := by rw [hc]; rfl
  have howns : c.stage.owns = false := by rw [hc]; rfl
  unfold Queue.enterGate
  split
  · rename_i hcomplete
    refine h.aside hn rfl ⟨rfl, rfl, rfl, rfl, rfl, rfl, rfl, List.Subset.refl _, rfl, rfl, rfl⟩ hlive
      howns rfl fun _ ↦ ?_
    exact (h.complete hcomplete).imp_right fun hs ↦ ⟨rfl, hs⟩
  rename_i hcomplete
  split
  · split
    · split
      · exact h.aside hn rfl ⟨rfl, rfl, rfl, rfl, rfl, rfl, rfl, List.Subset.refl _, rfl, rfl, rfl⟩
          hlive howns rfl nofun
      · exact h.aside hn rfl ⟨rfl, rfl, rfl, rfl, rfl, rfl, rfl, List.Subset.refl _, rfl, rfl, rfl⟩
          hlive howns rfl nofun
    · rename_i hactive
      exact h.reclaim hn hc (Bool.eq_false_iff.2 hactive)
  · rename_i hidle
    have hidle := Bool.eq_false_iff.2 hidle
    exact h.start hn hc (h.free_of_idle hidle) (h.idle hidle (Bool.eq_false_iff.2 hcomplete))

/-- A waiter leaves, with or without the outcome. -/
theorem Inv.leaveWait (h : s.Inv) (hn : s.calls[n]? = some c) {attempt : ℕ}
    (hc : c.stage = .waiting attempt) {failure : Option Failure}
    (hreturns : failure = none → .closed ∈ s.marks) :
    ((s.goto n c (.finishing failure)).forget attempt).Inv := by
  have hcalls : ((s.goto n c (.finishing failure)).forget attempt).calls =
      s.calls.set n { c with stage := .finishing failure } := by
    unfold Queue.forget
    split <;> rfl
  have hsame : s.Same ((s.goto n c (.finishing failure)).forget attempt) := by
    unfold Queue.forget
    split
    · exact ⟨rfl, rfl, rfl, rfl, rfl, rfl, rfl, List.Subset.refl _, rfl, rfl, rfl⟩
    · exact ⟨rfl, rfl, rfl, rfl, rfl, rfl, rfl, List.filter_subset_self _, rfl, rfl, rfl⟩
  refine h.aside hn hcalls hsame (by rw [hc]; rfl) (by rw [hc]; rfl) rfl fun hr ↦ ?_
  exact .inl (hreturns (of_decide_eq_true hr))

theorem Inv.wait (h : s.Inv) (hn : s.calls[n]? = some c) {attempt : ℕ}
    (hc : c.stage = .waiting attempt) (ht : s.wait n c attempt = some t) : t.Inv := by
  unfold Queue.wait at ht
  split at ht
  · rename_i o succeeded terminal ho
    obtain ⟨⟩ := ht
    refine h.leaveWait hn hc fun hnone ↦ ?_
    have hmem := List.mem_of_find?_eq_some ho
    cases succeeded with
    | false => simp at hnone
    | true => exact h.outcomes _ hmem rfl
  · obtain ⟨-, ⟨⟩⟩ := Option.ite_none_left_eq_some.1 ht
    exact h.leaveWait hn hc nofun

/-! ### The steps -/

theorem Inv.afterDrain (h : s.Inv) (hn : s.calls[n]? = some c) (hc : c.stage = .draining)
    (hdrained : s.operations = [] ∧ s.settlements = 0) : (s.afterDrain n c).Inv := by
  have howns : c.stage.owns := by rw [hc]; rfl
  have hearly : c.stage.early := by rw [hc]; rfl
  unfold Queue.afterDrain
  split
  · rename_i hcomplete
    exact h.proceed hn rfl ⟨rfl, rfl, rfl, rfl, rfl, rfl, rfl, List.Subset.refl _, rfl, rfl, rfl⟩ howns
      rfl rfl nofun (fun _ ↦ hdrained) (fun _ ↦ hearly) (fun _ ↦ h.checkpoint hcomplete) nofun
  split
  · exact h.leaveMark hn rfl .lossy rfl
      ⟨rfl, rfl, rfl, rfl, rfl, rfl, rfl, List.Subset.refl _, rfl, rfl, rfl⟩ (fun _ ↦ .inr rfl) howns
      rfl rfl nofun nofun (fun _ ↦ hdrained) (fun _ ↦ hearly) (fun _ ↦ rfl) nofun
  · exact h.proceed hn rfl ⟨rfl, rfl, rfl, rfl, rfl, rfl, rfl, List.Subset.refl _, rfl, rfl, rfl⟩ howns
      rfl rfl nofun (fun _ ↦ hdrained) (fun _ ↦ hearly) nofun nofun

/-- `_persist_snapshot` has returned. -/
theorem Inv.checkpointed (h : s.Inv) (hn : s.calls[n]? = some c) (hc : c.stage = .persisting) (x : Mark)
    (hx : x.authorizes) : ({ s.goto n c .checkpointed with
      checkpointComplete := true, marks := s.marks ++ [x] } : Queue).Inv := by
  have hdrained := (h.calls n c hn).drained (by rw [hc]; rfl)
  refine h.leaveMark hn rfl x rfl
    ⟨rfl, rfl, rfl, rfl, rfl, rfl, rfl, List.Subset.refl _, rfl, rfl, rfl⟩ (fun _ ↦ .inr hx) ?_ rfl rfl ?_
    nofun (fun _ ↦ hdrained) (fun _ ↦ ?_) (fun _ ↦ hx) nofun
  · rw [hc]
    rfl
  · rintro rfl
    simp [Mark.authorizes] at hx
  · rw [hc]
    rfl

/-- The outcome of the cleanup is published, and the call goes on to the finalization. -/
theorem Inv.publishing (h : s.Inv) (hn : s.calls[n]? = some c) {outcome : Outcome}
    (hc : c.stage = .publishing outcome) {failure : Option Failure} (hfailure : failure = none → outcome = .succeeded) :
    ((s.publishCleanup outcome).goto n c (.repairing failure)).Inv := by
  have hok := h.calls n c hn
  have hinv : (s.publishCleanup outcome).Inv := h.publishCleanup fun hsucceeded ↦
    hok.succeeds (by simp [hc, hsucceeded, Stage.succeeds])
  have hn' : (s.publishCleanup outcome).calls[n]? = some c := by rw [publishCleanup_calls, hn]
  refine hinv.proceed hn' rfl ⟨rfl, rfl, rfl, rfl, rfl, rfl, rfl, List.Subset.refl _, rfl, rfl, rfl⟩
    (by rw [hc]; rfl) rfl rfl nofun nofun nofun nofun fun hr ↦ ?_
  simp [hc, Stage.succeeds, hfailure (of_decide_eq_true hr)]

theorem Inv.finishing (h : s.Inv) (hn : s.calls[n]? = some c) {failure : Option Failure}
    (hc : c.stage = .finishing failure) {failure' : Option Failure}
    (hfailure : failure' = none → failure = none) : (s.goto n c (.ofFailure failure')).Inv := by
  refine h.aside hn rfl ⟨rfl, rfl, rfl, rfl, rfl, rfl, rfl, List.Subset.refl _, rfl, rfl, rfl⟩
    (by rw [hc]; rfl) (by rw [hc]; rfl) ?_ fun hr ↦ ?_
  · cases failure' <;> rfl
  · refine (h.calls n c hn).returns ?_
    cases failure' with
    | none => simp [hc, hfailure rfl, Stage.returns]
    | some failure' => simp [Stage.ofFailure, Stage.returns] at hr

theorem Inv.act (h : s.Inv) (hn : s.calls[n]? = some c) {event : Event}
    (ht : s.act n c c.stage event = some t) : t.Inv := by
  have hplain : ∀ stage, s.Same (s.goto n c stage) := fun _ ↦
    ⟨rfl, rfl, rfl, rfl, rfl, rfl, rfl, List.Subset.refl _, rfl, rfl, rfl⟩
  generalize hc : c.stage = stage at ht
  cases stage with
  | entered =>
    cases event with
    | ok =>
      obtain ⟨⟩ := ht
      split
      · exact h.aside hn rfl (hplain _) (by rw [hc]; rfl) (by rw [hc]; rfl) rfl nofun
      · exact h.aside hn rfl (hplain _) (by rw [hc]; rfl) (by rw [hc]; rfl) rfl nofun
    | interrupted parts =>
      obtain ⟨⟩ := ht
      exact h.aside hn rfl (hplain _) (by rw [hc]; rfl) (by rw [hc]; rfl) rfl nofun
    | _ => simp [Queue.act] at ht
  | gate =>
    cases event with
    | ok =>
      obtain ⟨⟩ := ht
      exact h.enterGate hn hc
    | interrupted parts =>
      obtain ⟨⟩ := ht
      exact h.aside hn rfl (hplain _) (by rw [hc]; rfl) (by rw [hc]; rfl) rfl nofun
    | _ => simp [Queue.act] at ht
  | waiting attempt =>
    cases event with
    | ok => exact h.wait hn hc ht
    | interrupted parts =>
      obtain ⟨⟩ := ht
      exact h.leaveWait hn hc nofun
    | _ => simp [Queue.act] at ht
  | beginning =>
    cases event with
    | ok =>
      obtain ⟨⟩ := ht
      exact h.proceed hn rfl ⟨rfl, rfl, rfl, rfl, rfl, rfl, rfl, List.Subset.refl _, rfl, rfl, rfl⟩
        (by rw [hc]; rfl) rfl rfl nofun nofun (fun _ ↦ by rw [hc]; rfl) nofun nofun
    | failed =>
      obtain ⟨⟩ := ht
      exact h.fail hn hc rfl _
    | interrupted parts =>
      obtain ⟨⟩ := ht
      exact h.fail hn hc rfl _
    | unneeded => simp [Queue.act] at ht
  | draining =>
    cases event with
    | ok =>
      obtain ⟨hdrained, ⟨⟩⟩ := Option.ite_none_right_eq_some.1 ht
      exact h.afterDrain hn hc hdrained
    | failed =>
      obtain ⟨⟩ := ht
      exact h.fail hn hc rfl _
    | interrupted parts =>
      obtain ⟨⟩ := ht
      exact h.fail hn hc rfl _
    | unneeded => simp [Queue.act] at ht
  | persisting =>
    cases event with
    | ok =>
      obtain ⟨⟩ := ht
      exact h.checkpointed hn hc .committed rfl
    | unneeded =>
      obtain ⟨⟩ := ht
      exact h.checkpointed hn hc .unneeded rfl
    | failed =>
      obtain ⟨⟩ := ht
      exact h.fail hn hc rfl _
    | interrupted parts =>
      obtain ⟨⟩ := ht
      exact h.fail hn hc rfl _
  | checkpointed =>
    cases event with
    | ok =>
      obtain ⟨⟩ := ht
      exact h.markStarted hn hc
    | interrupted parts =>
      obtain ⟨⟩ := ht
      exact h.fail hn hc rfl _
    | _ => simp [Queue.act] at ht
  | marked =>
    cases event with
    | ok =>
      obtain ⟨⟩ := ht
      have hdrained := (h.calls n c hn).drained (by rw [hc]; rfl)
      exact h.leaveMark hn rfl .close rfl
        ⟨rfl, rfl, rfl, rfl, rfl, rfl, rfl, List.Subset.refl _, rfl, rfl, rfl⟩ .inl (by rw [hc]; rfl)
        rfl rfl (fun _ ↦ hc) nofun (fun _ ↦ hdrained) nofun nofun nofun
    | interrupted parts =>
      obtain ⟨⟩ := ht
      exact h.fail hn hc rfl _
    | _ => simp [Queue.act] at ht
  | closing =>
    cases event with
    | ok =>
      obtain ⟨⟩ := ht
      exact h.leaveMark hn rfl .closed rfl
        ⟨rfl, rfl, rfl, rfl, rfl, rfl, rfl, List.Subset.refl _, rfl, rfl, rfl⟩ .inl (by rw [hc]; rfl)
        rfl rfl nofun nofun nofun nofun nofun fun _ ↦ rfl
    | failed =>
      obtain ⟨⟩ := ht
      exact h.proceed hn rfl (hplain _) (by rw [hc]; rfl) rfl rfl nofun nofun nofun nofun nofun
    | interrupted parts =>
      obtain ⟨⟩ := ht
      exact h.proceed hn rfl (hplain _) (by rw [hc]; rfl) rfl rfl nofun nofun nofun nofun nofun
    | unneeded => simp [Queue.act] at ht
  | publishing outcome =>
    cases event with
    | ok =>
      obtain ⟨⟩ := ht
      refine h.publishing hn hc fun hnone ↦ ?_
      cases outcome <;> simp at hnone ⊢
    | interrupted parts =>
      obtain ⟨⟩ := ht
      exact h.fail hn hc rfl _
    | _ => simp [Queue.act] at ht
  | repairing failure =>
    cases event with
    | ok =>
      obtain ⟨⟩ := ht
      exact h.finish hn hc
    | interrupted parts =>
      obtain ⟨⟩ := ht
      exact h.interruptFinish hn hc parts
    | _ => simp [Queue.act] at ht
  | finishing failure =>
    cases event with
    | ok =>
      obtain ⟨⟩ := ht
      have hinv : (s.publishCleanup .indeterminate).Inv := h.publishCleanup nofun
      have hn' : (s.publishCleanup .indeterminate).calls[n]? = some c := by
        rw [publishCleanup_calls, hn]
      exact hinv.finishing hn' hc id
    | interrupted parts =>
      obtain ⟨⟩ := ht
      exact h.finishing hn hc Option.map_eq_none_iff.1
    | _ => simp [Queue.act] at ht
  | returned => simp [Queue.act] at ht
  | raised failure => simp [Queue.act] at ht

/-- Operations and settlements come and go, but not past a drain. -/
theorem Inv.outside (h : s.Inv) (operations : List ℕ) (settlements : ℕ)
    (hdrained : s.accepting = false → s.operations = [] ∧ s.settlements = 0 →
      operations = [] ∧ settlements = 0) : ({ s with operations, settlements } : Queue).Inv := by
  refine ⟨⟨h.fenced, h.attempted, h.idle, h.cleaner, h.closes, h.checkpoint, h.authorized, h.succeeded,
    h.outcomes, h.complete⟩, fun m b hb ↦ ?_⟩
  have hok := h.calls m b hb
  refine hok.mono (fun howns ↦ ?_) (List.Subset.refl _) id
  have haccepting := h.fenced (h.attempted (hok.owner howns).1)
  exact ⟨rfl, rfl, hdrained haccepting, Iff.rfl⟩

theorem Inv.call (h : s.Inv) (thread : ℕ) (lossy : Bool) :
    ({ s with calls := s.calls ++ [⟨thread, lossy, false, false, .entered⟩] } : Queue).Inv := by
  have hsub : s.calls ⊆ s.calls ++ [⟨thread, lossy, false, false, .entered⟩] :=
    List.subset_append_left ..
  have habandoned : s.Abandoned →
      ({ s with calls := s.calls ++ [⟨thread, lossy, false, false, .entered⟩] } : Queue).Abandoned :=
    fun ⟨b, hb, hs⟩ ↦ ⟨b, hsub hb, hs⟩
  refine ⟨⟨h.fenced, h.attempted, h.idle, fun hstarted ↦ ?_, ?_, h.checkpoint, h.authorized, h.succeeded,
    h.outcomes, fun hcomplete ↦ (h.complete hcomplete).imp_right habandoned⟩, fun m b hb ↦ ?_⟩
  · rcases h.cleaner hstarted with ⟨b, hb, howns⟩ | hclosed | hs
    · exact .inl ⟨b, hsub hb, howns⟩
    · exact .inr (.inl hclosed)
    · exact .inr (.inr (habandoned hs))
  · rw [List.countP_concat]
    exact h.closes
  · obtain ⟨rfl, rfl⟩ | hb := List.getElem?_concat_some hb
    · exact .of_not_owns rfl nofun
    · exact (h.calls m b hb).mono (fun _ ↦ ⟨rfl, rfl, id, Iff.rfl⟩) (List.Subset.refl _) habandoned

theorem Inv.step (h : s.Inv) {label : Label} (ht : s.step label = some t) : t.Inv := by
  cases label with
  | begin thread =>
    obtain ⟨⟩ := ht
    split
    · rename_i haccepting
      exact h.outside _ _ fun hnot ↦ absurd (hnot.symm.trans haccepting) Bool.false_ne_true
    · exact h
  | «end» thread =>
    obtain ⟨-, ⟨⟩⟩ := Option.ite_none_right_eq_some.1 ht
    refine h.outside _ _ fun _ ⟨hnone, hsettled⟩ ↦ ⟨?_, hsettled⟩
    rw [hnone, List.erase_nil]
  | track thread =>
    obtain ⟨hmem, ⟨⟩⟩ := Option.ite_none_right_eq_some.1 ht
    refine h.outside _ _ fun _ ⟨hnone, _⟩ ↦ ?_
    rw [hnone] at hmem
    exact absurd hmem List.not_mem_nil
  | settled =>
    obtain ⟨hpos, ⟨⟩⟩ := Option.ite_none_right_eq_some.1 ht
    exact h.outside _ _ fun _ ⟨_, hzero⟩ ↦ absurd hzero hpos.ne'
  | close thread lossy =>
    obtain ⟨⟩ := ht
    exact h.call thread lossy
  | act n event =>
    obtain ⟨c, hn, ht⟩ := Option.bind_eq_some_iff.1 ht
    exact h.act hn ht

end Queue

theorem inv_of_reachable {s : Queue} (h : machine.Reachable s) : s.Inv :=
  h.invariant (I := Queue.Inv) .new fun _ _ _ hs ht ↦ hs.step ht

/-- What the close of a queue promises. -/
structure Queue.Orderly (s : Queue) : Prop where
  /-- Nothing is admitted once the first attempt has started. -/
  admission : 0 < s.attempt → ∀ thread t, s.step (.begin thread) = some t → t.operations = s.operations
  /-- The snapshot and `strategy.close` run alone. -/
  alone : ∀ c ∈ s.calls, c.stage = .persisting ∨ c.stage = .closing →
    s.operations = [] ∧ s.settlements = 0
  /-- `strategy.close` is invoked at most once. -/
  once : s.marks.count .close ≤ 1
  /-- That is after a checkpoint phase has succeeded or was given up. -/
  authorized : ∀ before after, s.marks = before ++ .close :: after →
    .committed ∈ before ∨ .unneeded ∈ before ∨ .lossy ∈ before
  /-- A call that returns has found the strategy closed, or the queue complete after the cleanup
  was started by a call that raised. -/
  returned : ∀ c ∈ s.calls, c.stage = .returned → .closed ∈ s.marks ∨
    (c.late ∧ ∃ b ∈ s.calls, b.cleans ∧ ∃ failure, b.stage = .raised failure)

theorem Queue.Inv.orderly {s : Queue} (h : s.Inv) : s.Orderly where
  admission hattempt thread t ht := by
    obtain ⟨⟩ := ht
    rw [if_neg (by simp [h.fenced hattempt])]
  alone c hc hstage := by
    obtain ⟨n, hn⟩ := List.mem_iff_getElem?.1 hc
    refine (h.calls n c hn).drained ?_
    rcases hstage with hstage | hstage
    · rw [hstage]
      rfl
    · rw [hstage]
      rfl
  once := by
    have hcloses := h.closes
    have hle := Bool.toNat_le (decide (s.cleanup ≠ .notStarted))
    omega
  authorized before after heq := by
    obtain ⟨m, hm, hauthorizes⟩ := h.authorized before after heq
    cases m with
    | committed => exact .inl hm
    | unneeded => exact .inr (.inl hm)
    | lossy => exact .inr (.inr hm)
    | _ => simp [Mark.authorizes] at hauthorizes
  returned c hc hstage := by
    obtain ⟨n, hn⟩ := List.mem_iff_getElem?.1 hc
    exact (h.calls n c hn).returns (by rw [hstage]; rfl)

/-- **The close of a queue.** -/
theorem orderly_of_reachable {s : Queue} (h : machine.Reachable s) : s.Orderly :=
  (inv_of_reachable h).orderly

/-- A close that waits for an operation, a caller that waits for that close, and the cleanup. -/
def sharedClose : List Label :=
  [.begin 1, .close 2 false, .act 0 .ok, .act 0 .ok, .act 0 .ok, .close 3 true, .act 1 .ok, .act 1 .ok,
    .begin 4, .end 1, .act 0 .ok, .act 0 .ok, .act 0 .ok, .act 0 .ok, .act 0 .ok, .act 0 .ok, .act 0 .ok,
    .act 1 .ok, .act 1 .ok]

theorem orderly_of_reachable_shared :
    ∃ s : Queue, machine.run machine.init sharedClose = some s ∧ s.Orderly ∧
      s.marks = [.committed, .close, .closed] ∧ s.calls.map (·.stage) = [.returned, .returned] :=
  ⟨_, rfl, orderly_of_reachable ⟨sharedClose, rfl⟩, by decide, by decide⟩

/-- `strategy.close` raises, and the next `close` returns; a strategy without state is closed without
a commit. -/
theorem close_not_always_committed_and_closed :
    (¬ ∀ s : Queue, machine.Reachable s → ∀ c ∈ s.calls, c.stage = .returned → .closed ∈ s.marks) ∧
      ¬ ∀ s : Queue, machine.Reachable s → ∀ before after, s.marks = before ++ .close :: after →
        .committed ∈ before ∨ .lossy ∈ before := by
  constructor
  · intro h
    have hs := h _ ⟨[.close 1 false, .act 0 .ok, .act 0 .ok, .act 0 .ok, .act 0 .ok, .act 0 .ok,
      .act 0 .ok, .act 0 .ok, .act 0 .failed, .act 0 .ok, .act 0 .ok, .close 1 false, .act 1 .ok,
      .act 1 .ok, .act 1 .ok], rfl⟩ ⟨1, false, true, false, .returned⟩ (by decide) rfl
    exact absurd hs (by decide)
  · intro h
    have hs := h _ ⟨[.close 1 false, .act 0 .ok, .act 0 .ok, .act 0 .ok, .act 0 .ok, .act 0 .unneeded,
      .act 0 .ok, .act 0 .ok], rfl⟩ [.unneeded] [] rfl
    exact absurd hs (by decide)

end QueueClose

end ScrapyExtension
