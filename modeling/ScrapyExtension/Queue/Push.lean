import Mathlib.Tactic
import ScrapyExtension.Program.Basic

/-!
# The push of a queue

`BackendQueue._push` checks the routing controls of a request, has the strategy prepare a route,
serializes and commits. A request that replaces a broker delivery carries the token of that source,
which the push settles. Every call may end in several ways, and process control may interrupt it. The
ways are parameters (`Push`), so that a statement for every `Push` is one for every outcome at every
step.

## What is recorded

The world is the one of `enqueue_request`, which calls the push: the local variables that the
handlers of the scheduler look at, whether the duplicate filter holds a reservation of this call, what
was taken out of the meta of the request, and a trace of what was done.
-/

namespace ScrapyExtension

namespace Enqueue

/-! ## Vocabulary -/

/-- Exceptions, as far as the handlers tell them apart. -/
inductive Exn
  /-- `SerializationError` -/
  | serialization
  /-- `QueueError` or another `BackendError` -/
  | backend
  /-- Any other `Exception`. -/
  | other
  /-- Process control: a `BaseException` that is no `Exception`. -/
  | control
deriving DecidableEq, Repr

/-- An `Exception`. -/
def Exn.Ordinary (e : Exn) : Prop := e ≠ .control

instance (e : Exn) : Decidable e.Ordinary := inferInstanceAs (Decidable (_ ≠ _))

/-- What a call did. -/
inductive Effect
  /-- The push of the queue was called. -/
  | pushCalled
  /-- The request was found invalid for good. -/
  | invalid
  /-- The strategy took the item into process-local state. -/
  | heldLocally
  /-- The strategy accepted the item: the push commits. -/
  | accepted
  /-- The commit returned a receipt of durability. -/
  | durableReceipt
  /-- The push returned, with its durability if the queue reports it. -/
  | pushReturned (durable : Option Bool)
  /-- The push raised. -/
  | pushRaised (e : Exn)
  /-- The duplicate filter raised. -/
  | dedupRaised (e : Exn)
  /-- An acknowledgement of the source delivery was started. -/
  | sourceAck
  /-- A persistent marker was recorded. -/
  | persistentMarker
  /-- A volatile marker was recorded. -/
  | volatileMarker
deriving DecidableEq, Repr

/-- Locals of `enqueue_request`, and what it works on. -/
structure World where
  /-- `phase == "push"` -/
  phasePush : Bool
  /-- `reservation is not None` -/
  reservation : Bool
  /-- `reservation_intent is not None` -/
  intent : Bool
  /-- `contexts[-1]` of the push under way -/
  committed : Bool
  /-- `_operation_context.post_commit_push` -/
  postCommitPush : Bool
  /-- The duplicate filter has an active reservation of this call's intent. -/
  reserved : Bool
  /-- The source token was taken out of `request.meta`. -/
  tokenPopped : Bool
  /-- `delay` and `source` were taken out of `request.meta`. -/
  routingPopped : Bool
  /-- What was done, in order. -/
  trace : List Effect

/-- At the start of the call. -/
def World.start : World := ⟨false, false, false, false, false, false, false, false, []⟩

/-- Programs of the scheduler and the queue. -/
abbrev Act := Program World Exn

open Program

/-- Record an effect. -/
def emit (e : Effect) : Act Unit := change fun w ↦ { w with trace := w.trace ++ [e] }

/-- A call that returns or raises. -/
def call : Option Exn → Act Unit
  | none => pure ()
  | some e => raise e

/-- A call whose ordinary exceptions are swallowed. -/
def quietly (p : Act Unit) : Act Unit := handle p fun e ↦ if e.Ordinary then pure () else raise e

/-! ## Circumstances -/

/-- How a check of a routing control ends. -/
inductive Check
  | valid
  | invalid
  | raised (e : Exn)
deriving DecidableEq

/-- How the serialization of the request ends. -/
inductive Serialization
  | fits
  | oversize
  | raised (e : Exn)
deriving DecidableEq

/-- What `_prepare_push` makes of the strategy and the routing controls. -/
inductive Prepared
  | raised (e : Exn)
  /-- `_PreparedQueuePush.local`: delayed, per source, buffered, or of a strategy without the
  protocol -/
  | processLocal
  /-- `_prepare_backend_push` and its like -/
  | backend
  /-- A route that a strategy of another make prepared itself. -/
  | foreign (backendRoute : Bool)
deriving DecidableEq

/-- `prepared_push.backend_route` -/
def Prepared.backendRoute : Prepared → Bool
  | .backend => true
  | .foreign b => b
  | _ => false

/-- How the publication of the item ends. -/
inductive Commit
  | returned (durable : Bool)
  /-- It raises; the item may have been accepted. -/
  | raised (e : Exn) (accepted : Bool)
deriving DecidableEq

/-- The circumstances of one push of `BackendQueue`. -/
structure Push where
  /-- `_begin_operation` -/
  admitted : Bool
  /-- The delay is a finite number from 0 on. -/
  delay : Check
  /-- The priority is a finite number. -/
  priority : Check
  /-- The source has a string form. -/
  source : Check
  /-- `_prepare_push` -/
  prepared : Prepared
  /-- `_request_to_dict` and `serialize`, and the size of the result -/
  serialization : Serialization
  /-- The publication under `prepared_push.commit` -/
  commit : Commit
  /-- The acknowledgement is left to a thread. -/
  deferredAck : Bool
  /-- The acknowledgement of the source, or its scheduling. -/
  ack : Option Exn
  /-- `_inc_stat` -/
  stat : Option Exn
  /-- `monitor.on_push` -/
  onPush : Option Exn
  /-- `monitor.on_error` of the serialization error boundary -/
  onError : Option Exn

/-! ## The push -/

/-- `_terminate_invalid_replacement` -/
def terminateInvalidReplacement (token : Bool) (q : Push) : Act Unit := do
  emit .invalid
  onlyIf token do
    emit .sourceAck
    match q.ack with
    | none => do
      change fun w ↦ { w with tokenPopped := true }
      quietly (call q.stat)
    | some e => onlyIf (¬ e.Ordinary) (raise e)

/-- A routing control is checked; an invalid one ends the push and the source delivery. -/
def requireValid (check : Check) (token : Bool) (q : Push) : Act Unit :=
  match check with
  | .valid => pure ()
  | .invalid => do
    terminateInvalidReplacement token q
    raise .backend
  | .raised e => raise e

/-- The serialization of the request. Its ordinary failures, and oversize, are
`SerializationError`s. -/
def serialize (token : Bool) (q : Push) : Act Unit :=
  match q.serialization with
  | .fits => pure ()
  | .oversize => do
    quietly (call q.stat)
    terminateInvalidReplacement token q
    raise .serialization
  | .raised e =>
    if e.Ordinary then do
      terminateInvalidReplacement token q
      raise .serialization
    else raise e

/-- `_prepare_push` of the strategy -/
def prepare (q : Push) : Act Unit :=
  match q.prepared with
  | .raised e => raise e
  | _ => pure ()

/-- The publication of the item. -/
def publishItem (q : Push) : Act Bool :=
  match q.commit with
  | .returned durable => do
    emit .accepted
    pure durable
  | .raised e accepted => do
    onlyIf accepted (emit .accepted)
    raise e

/-- `prepared_push.commit` -/
def commitPush (requireDurable : Bool) (q : Push) : Act Bool :=
  match q.prepared with
  | .raised e => raise e
  | .processLocal =>
    if requireDurable then raise .backend
    else do
      emit .heldLocally
      let _ ← publishItem q
      pure false
  | .backend => do
    let durable ← publishItem q
    onlyIf (requireDurable = true ∧ durable = false) (raise .backend)
    pure durable
  | .foreign _ => publishItem q

/-- A source delivery cannot be handed over to a route that is not crash durable. -/
def rejectVolatileReplacement (q : Push) : Act Unit := do
  quietly (call q.stat)
  raise .backend

/-- The acknowledgement of the source after the push committed. -/
def ackSource (q : Push) : Act Unit := do
  emit .sourceAck
  if q.deferredAck then call q.ack
  else
    match q.ack with
    | none => change fun w ↦ { w with tokenPopped := true }
    | some e => do
      onlyIf (¬ e.Ordinary) (raise e)
      quietly (call q.stat)

/-- What follows the commit. -/
def handOver (token : Bool) (q : Push) (durable : Bool) : Act Unit := do
  change fun w ↦ { w with committed := true }
  onlyIf durable (emit .durableReceipt)
  onlyIf (token = true ∧ durable = false) (rejectVolatileReplacement q)
  change fun w ↦ { w with routingPopped := true }
  onlyIf token (ackSource q)

/-- `BackendQueue._push` -/
def push (token : Bool) (q : Push) : Act Bool := do
  requireValid q.delay token q
  requireValid q.priority token q
  requireValid q.source token q
  prepare q
  onlyIf (token = true ∧ q.prepared.backendRoute = false) (rejectVolatileReplacement q)
  serialize token q
  let durable ← commitPush token q
  handOver token q durable
  pure durable

/-- `BackendQueue._push_with_durability` -/
def pushWithDurability (token : Bool) (q : Push) : Act Bool := do
  change fun w ↦ { w with committed := false, postCommitPush := false }
  handle (do
    onlyIf (¬ q.admitted) (raise .backend)
    let durable ← push token q
    quietly (call q.onPush)
    pure durable) fun e ↦ do
      change fun w ↦ { w with postCommitPush := w.committed }
      -- The error boundary tells the monitor of a serialization error.
      onlyIf (e = .serialization) (quietly (call q.onError))
      raise e

end Enqueue

end ScrapyExtension
