import ScrapyExtension.Queue.Push

/-!
# Enqueueing a request on the atomic reservation path

`BackendScheduler.enqueue_request` with a duplicate filter that has reservations: the decision
reserves, the queue push hands over, and only then the reservation becomes a marker. How each step
ends is a parameter again (`Env`).
-/

namespace ScrapyExtension

namespace Enqueue

open Program

/-! ## The duplicate filter -/

/-- How `request_seen_with_reservation` ends. -/
inductive Decision
  /-- The request is the subject of a monitor callback under way. -/
  | observational
  | seen
  /-- Not seen; a reservation is active. -/
  | unseen
  /-- Not seen, and a filter of another make gave no reservation. -/
  | unreserved
  /-- It raises, and may leave its reservation behind. -/
  | raised (e : Exn) (left : Bool)
deriving DecidableEq

/-- How `filter.add` ends. -/
inductive Add
  | added
  | present
  | filterFull
  /-- The backend fails, after the marker was written or before. -/
  | backendError (written : Bool)
  | raised (e : Exn) (written : Bool)
deriving DecidableEq

/-- How `commit_reservation` and `commit_volatile_reservation` end. -/
inductive Finish
  /-- The reservation is of an earlier epoch, or a transition has stopped admission. -/
  | notAdmitted
  /-- It is admitted, and its telemetry ends as given. -/
  | admitted (add : Add) (telemetry : Option Exn)
  /-- Process control interrupts it before it has done anything. -/
  | interrupted
deriving DecidableEq

/-- How `rollback_reservation` and `rollback_reservation_intent` end. -/
inductive Rollback
  /-- The reservation is discarded, and the telemetry ends as given. -/
  | discarded (telemetry : Option Exn)
  /-- Process control interrupts it before it has done anything. -/
  | interrupted
deriving DecidableEq

/-- `_discard_reservation` -/
def discardReservation : Act Unit := change fun w ↦ { w with reserved := false }

/-- `request_seen_with_reservation` -/
def requestSeenWithReservation : Decision → Act Decision
  | .unseen => do
    change fun w ↦ { w with reserved := true }
    pure .unseen
  | .raised e left => do
    change fun w ↦ { w with reserved := left }
    raise e
  | d => pure d

/-- `filter.add` in `commit_reservation`, whose `finally` discards the reservation -/
def publish : Add → Act Unit
  | .added => do
    emit .persistentMarker
    discardReservation
  | .present | .filterFull => discardReservation
  | .backendError written => do
    onlyIf written (emit .persistentMarker)
    discardReservation
  | .raised e written => do
    onlyIf written (emit .persistentMarker)
    discardReservation
    raise e

/-- `commit_reservation` -/
def commitReservation : Finish → Act Unit
  | .notAdmitted => discardReservation
  | .admitted add telemetry => do
    publish add
    call telemetry
  | .interrupted => raise .control

/-- `commit_volatile_reservation` -/
def commitVolatileReservation : Finish → Act Unit
  | .notAdmitted => discardReservation
  | .admitted _ telemetry => do
    emit .volatileMarker
    discardReservation
    call telemetry
  | .interrupted => raise .control

/-- `rollback_reservation` and `rollback_reservation_intent` -/
def rollbackReservation : Rollback → Act Unit
  | .discarded telemetry => do
    discardReservation
    call telemetry
  | .interrupted => raise .control

/-! ## The scheduler -/

/-- The queue of the scheduler. -/
inductive Queue
  /-- `BackendQueue` -/
  | bundled (q : Push)
  /-- Another queue, whose `push` returns nothing or raises. -/
  | custom (raised : Option Exn) (accepted : Bool)

/-- The circumstances of a call. -/
structure Env where
  /-- `request.meta` has a broker token. -/
  token : Bool
  /-- The decision of the duplicate filter. -/
  decision : Decision
  /-- `dupefilter.log` of a duplicate -/
  log : Option Exn
  /-- The push. -/
  queue : Queue
  /-- The filter has `commit_volatile_reservation`. -/
  hasVolatile : Bool
  /-- How the reservation is committed. -/
  finish : Finish
  /-- How the first rollback ends. -/
  rollback : Rollback
  /-- How the repeated rollback of an interrupted one ends. -/
  rollbackAgain : Rollback
  /-- The push after a dedup outage. -/
  retry : Queue

/-- A push of either kind of queue, with its durability if it reports one. -/
def pushTo (token : Bool) : Queue → Act (Option Bool)
  | .bundled q => do
    let durable ← pushWithDurability token q
    pure (some durable)
  | .custom raised accepted => do
    onlyIf (accepted ∨ raised = none) (emit .accepted)
    call raised
    pure none

/-- A push with its records. -/
def observed (push : Act (Option Bool)) : Act (Option Bool) := do
  emit .pushCalled
  let durable ← handle push fun e ↦ do
    emit (.pushRaised e)
    raise e
  emit (.pushReturned durable)
  pure durable

/-- `_push_queue_with_durability` -/
def pushQueueWithDurability (token : Bool) (queue : Queue) : Act (Option Bool) :=
  observed (pushTo token queue)

/-- `queue.push`, which returns nothing -/
def pushQueue (token : Bool) (queue : Queue) : Act (Option Bool) :=
  observed do
    let _ ← pushTo token queue
    pure none

/-- A call of the duplicate filter, with a record of its exception. -/
def consulting {α : Type} (p : Act α) : Act α :=
  handle p fun e ↦ do
    emit (.dedupRaised e)
    raise e

/-- `_rollback_atomic_reservation` -/
def rollbackAtomicReservation (preservePrimary : Bool) (rollback : Rollback) : Act Unit :=
  handle (rollbackReservation rollback) fun e ↦
    if e.Ordinary ∨ preservePrimary then pure () else raise e

/-- The end of the reservation after the push returned. -/
def finishReservation (env : Env) (durable : Option Bool) : Act Unit :=
  if durable = some true then quietly (commitReservation env.finish)
  else if env.hasVolatile then quietly (commitVolatileReservation env.finish)
  else rollbackAtomicReservation false env.rollback

/-- The `try` suite of `enqueue_request` -/
def attempt (env : Env) : Act Bool := do
  change fun w ↦ { w with intent := true }
  let decision ← consulting (requestSeenWithReservation env.decision)
  if decision = .observational then pure false
  else if decision = .seen ∧ env.token = false then do
    consulting (call env.log)
    pure false
  else do
    change fun w ↦ { w with reservation := decision = .unseen, phasePush := true }
    let durable ← pushQueueWithDurability env.token env.queue
    onlyIf (decision = .unseen) do
      change fun w ↦ { w with reservation := false }
      finishReservation env durable
      change fun w ↦ { w with intent := false }
    pure true

/-- The compensation of an ordinary failure. -/
def compensate (env : Env) : Act Unit := do
  let w ← state
  onlyIf (w.reservation ∨ w.intent) (rollbackAtomicReservation false env.rollback)

/-- The push without a decision, after a dedup outage -/
def retryPush (env : Env) : Act Bool :=
  handle (do
    let _ ← pushQueue env.token env.retry
    pure true) fun e ↦
      if e = .serialization then pure false else raise e

/-- `except SerializationError` -/
def onSerializationError (env : Env) : Act Bool := do
  compensate env
  pure false

/-- `except (QueueError, BackendError)`, and what follows it -/
def onBackendError (env : Env) : Act Bool := do
  compensate env
  let w ← state
  if w.phasePush then raise .backend else retryPush env

/-- `_consume_post_commit_push`, which only `BackendQueue` has -/
def consumePostCommitPush (queue : Queue) : Act Bool := do
  let w ← state
  match queue with
  | .bundled _ => do
    change fun w ↦ { w with postCommitPush := false }
    pure (w.phasePush && w.postCommitPush)
  | .custom _ _ => pure false

/-- The cleanup of `except BaseException` -/
def cleanup (env : Env) (postCommit : Bool) : Act Unit := do
  let w ← state
  if postCommit then do
    onlyIf w.intent (rollbackReservation env.rollback)
    change fun w ↦ { w with reservation := false, intent := false }
  else if w.intent then rollbackReservation env.rollback
  else if w.reservation then rollbackAtomicReservation true env.rollback
  else pure ()

/-- `except BaseException` -/
def onBaseException (env : Env) (e : Exn) : Act Bool := do
  let postCommit ← consumePostCommitPush env.queue
  handle (cleanup env postCommit) fun _ ↦ do
    let w ← state
    onlyIf w.intent (handle (rollbackReservation env.rollbackAgain) fun _ ↦ pure ())
  raise e

/-- `BackendScheduler.enqueue_request`, on the atomic reservation path -/
def enqueueRequest (env : Env) : Act Bool :=
  handle (attempt env) fun e ↦
    match e with
    | .serialization => onSerializationError env
    | .backend => onBackendError env
    | e => onBaseException env e

end Enqueue

end ScrapyExtension
