import ScrapyExtension.Machine.Basic
import ScrapyExtension.Machine.Threads
import Mathlib.Tactic

/-!
# The three layers of an SQS call

A call of `SqsBackend` goes through up to three layers. It leases the client generation; below the lease
it enters the lifecycle of the physical queue, shared with other operations or, for a clear, alone; and
a settlement claims its token around all of this. A lifecycle counts its clears in an epoch, and a receipt
carries the generation and the epoch that it was issued under.

A disconnect detaches the generation, waits for its leases, and holds the connect lock for the whole
time. The next generation has new lifecycles, with epochs from zero.

## Steps

A section under one of the locks is a step, and a call to the broker is the time that its call spends at
`broker` (or at `poison`, for the deletion of a message that cannot be read). What the broker, the
resolution of a queue name or the construction of a client comes to is part of the label. A disconnect
may come from inside of a `connect`, and goes back into it.

Queue URLs, receipt handles and generations are numbered, and so are lifecycles, which are objects of
their own: two generations never share one. `_in_flight` is a diagnostic set that nothing reads, and is
left out.

`issued`, `clears`, the field `clears` of a receipt and the field `settled` of a token are history; no step
looks at them.
-/

namespace ScrapyExtension

namespace Sqs

/-! ## The data -/

/-- `_SqsQueueLifecycle` -/
structure QueueLifecycle where
  activeOperations : ℕ
  clearing : Bool
  epoch : ℕ
deriving DecidableEq

/-- `_SqsClientGeneration` -/
structure ClientGeneration where
  accepting : Bool
  activeLeases : ℕ
  /-- `queue_lifecycles` -/
  queueLifecycles : ℕ → Option ℕ

/-- A receipt, as a token or the legacy slot has it. -/
structure Receipt where
  queueUrl : ℕ
  receiptHandle : ℕ
  generationKey : Option ℕ
  queueEpoch : Option ℕ
  /-- How many clears of its queue had ended when it was issued. -/
  clears : ℕ
deriving DecidableEq

/-- The fields that the code compares. -/
def Receipt.same (r r' : Receipt) : Bool :=
  r.queueUrl = r'.queueUrl && r.receiptHandle = r'.receiptHandle && r.queueEpoch = r'.queueEpoch &&
    r.generationKey = r'.generationKey

/-- How a settlement ends, unless it raises. -/
inductive Terminal
  | acked
  | nacked
  /-- The token is of another generation. -/
  | stale
  /-- There was a clear. -/
  | cleared
deriving DecidableEq

/-- `_settlement_state`. The lock of a token is held while it is `settling`. -/
inductive SettlementState
  | pending
  | settling
  | terminal (r : Terminal)
deriving DecidableEq

/-- The broker has settled it. -/
def Terminal.final : Terminal → Bool
  | acked | nacked => true
  | _ => false

def SettlementState.final : SettlementState → Bool
  | terminal r => r.final
  | _ => false

/-- `_SqsAckToken` -/
structure AckToken where
  receipt : Receipt
  settlementState : SettlementState
  /-- How many settlements have succeeded. -/
  settled : ℕ
deriving DecidableEq

inductive Action
  | ack
  | nack
deriving DecidableEq

/-- The state that a settlement ends in. -/
def Action.terminal : Action → Terminal
  | ack => .acked
  | nack => .nacked

/-- What a call wants from the broker. -/
inductive Purpose
  | push
  | queueLen
  | pop (issueToken : Bool)
  | clear
  | token (k : ℕ) (action : Action)
  /-- The receipt was in the legacy slot. -/
  | legacy (r : Receipt) (action : Action)
deriving DecidableEq

/-- A lifecycle and where it was found. -/
structure Place where
  generation : ℕ
  queueUrl : ℕ
  lifecycle : ℕ
deriving DecidableEq

/-- Where a disconnect goes on to. -/
inductive Back
  | unlock
  /-- It has come from inside of a `connect`. -/
  | creating (e : ℕ)
  | published
deriving DecidableEq

/-- Where a call is. -/
inductive Stage
  /-- `_settle` waits for the token. -/
  | claim (k : ℕ) (action : Action)
  /-- `_legacy_receipt_snapshot` -/
  | snapshot (action : Action)
  /-- `_lease_generation` -/
  | lease (p : Purpose)
  /-- `_queue_url_for_generation` -/
  | resolve (p : Purpose) (g : ℕ)
  /-- `_queue_lifecycle_for_generation` -/
  | lookup (p : Purpose) (g u : ℕ)
  /-- `operation` and `destructive_operation` wait for a clear. -/
  | enter (p : Purpose) (x : Place)
  | inside (p : Purpose) (x : Place) (e : ℕ)
  | broker (p : Purpose) (x : Place) (e : ℕ)
  | poison (p : Purpose) (x : Place)
  /-- The end of `operation`. -/
  | leave (p : Purpose) (x : Place) (result : Option Terminal)
  /-- The end of `_lease_generation`. -/
  | release (p : Purpose) (g : ℕ) (result : Option Terminal)
  /-- The end of `_settle`. -/
  | finish (k : ℕ) (result : Option Terminal)
  /-- The end of `_settle_token`. -/
  | discard (k : ℕ)
  /-- `destructive_operation` waits for the operations. -/
  | drain (x : Place)
  /-- `_retire_queue_deliveries` -/
  | retire (x : Place)
  /-- `purge_queue` -/
  | purge (x : Place)
  /-- The waiting window. -/
  | wait (x : Place)
  /-- `connect` waits for the lock. -/
  | connect
  | check
  | creating (e : ℕ)
  | published
  /-- `disconnect` waits for the lock. -/
  | disconnect
  | detach (back : Back)
  | draining (back : Back) (g : Option ℕ)
  | forget (back : Back) (g : Option ℕ)
  | drop (back : Back) (g : Option ℕ)
  | unlock
  | over
deriving DecidableEq

def Back.stage : Back → Stage
  | unlock => .unlock
  | creating e => .creating e
  | published => .published

/-- The backend. -/
structure State where
  /-- `_connect_lock` is held. -/
  connectLock : Bool
  /-- `_lifecycle_epoch` -/
  lifecycleEpoch : ℕ
  /-- `_generation` -/
  generation : Option ℕ
  /-- How many generations there have been. -/
  count : ℕ
  generations : ℕ → ClientGeneration
  /-- How many lifecycles there have been. -/
  lifecycleCount : ℕ
  lifecycles : ℕ → QueueLifecycle
  tokens : List AckToken
  /-- `_last_receipt`, with its epoch and its key -/
  lastReceipt : Option Receipt
  calls : List Stage
  /-- The receipts that have been issued. -/
  issued : List Receipt
  /-- How many clears of a queue have ended. -/
  clears : ℕ → ℕ

/-- A call from outside. -/
inductive Operation
  | push
  | queueLen
  | pop
  | popWithAck
  | clearQueue
  /-- `ack` and `nack`, with a token. -/
  | settleToken (k : ℕ) (action : Action)
  /-- `ack` and `nack`, without one. -/
  | settleLegacyReceipt (action : Action)
  | connect
  | disconnect

/-- What a step of a call comes to, where this is not up to the backend. -/
inductive Outcome
  | ok
  | failed
  /-- The URL of the queue. -/
  | url (u : ℕ)
  /-- A message with this receipt handle. -/
  | message (h : ℕ)
  | malformed
  /-- A process-control exception out of `purge_queue`. -/
  | interrupted
  /-- A disconnect from inside of `connect`. -/
  | nested

/-- What can happen. -/
inductive Label
  | call (op : Operation)
  /-- A token that is made by hand. -/
  | token (u h : ℕ)
  /-- A call goes on. -/
  | act (n : ℕ) (outcome : Outcome)

/-! ## The steps -/

/-- The answer of `_lease_generation` -/
inductive Lease
  | leased (g : ℕ)
  /-- The generation of the token is not the current one. -/
  | retired
  | refused

namespace State

def new : State :=
  ⟨false, 0, none, 0, fun _ ↦ ⟨false, 0, fun _ ↦ none⟩, 0, fun _ ↦ ⟨0, false, 0⟩, [], none, [], [], fun _ ↦ 0⟩

/-- A call goes to another stage. -/
def goto (s : State) (n : ℕ) (stage : Stage) : State := { s with calls := s.calls.set n stage }

/-- A change to a generation. -/
def setGeneration (s : State) (g : ℕ) (x : ClientGeneration) : State :=
  { s with generations := Function.update s.generations g x }

/-- A change to the leases of a generation. -/
def setLeases (s : State) (g activeLeases : ℕ) : State :=
  s.setGeneration g { s.generations g with activeLeases }

/-- A change to a lifecycle. -/
def setLifecycle (s : State) (l : ℕ) (x : QueueLifecycle) : State :=
  { s with lifecycles := Function.update s.lifecycles l x }

/-- A change to a token. -/
def setToken (s : State) (k : ℕ) (x : AckToken) : State := { s with tokens := s.tokens.set k x }

/-- The receipt that a call wants to settle. -/
def receipt (s : State) : Purpose → Option Receipt
  | .token k _ => s.tokens[k]?.map (·.receipt)
  | .legacy r _ => some r
  | _ => none

/-- `_lease_generation`, without the count -/
def leaseGeneration (s : State) (generationKey : Option ℕ) : Lease :=
  if generationKey.isSome ∧ s.generation ≠ generationKey then .retired
  else
    match s.generation with
    | none => .refused
    | some g => if (s.generations g).accepting then .leased g else .refused

/-- `_legacy_receipt_is_current` -/
def legacyReceiptIsCurrent (s : State) (r : Receipt) : Bool := s.lastReceipt.any r.same

/-- `_clear_legacy_receipt_if_current` -/
def clearLegacyReceiptIfCurrent (s : State) (r : Receipt) : State :=
  if s.legacyReceiptIsCurrent r then { s with lastReceipt := none } else s

/-- `_queue_lifecycle_for_generation` -/
def queueLifecycleForGeneration (s : State) (g u : ℕ) : State × ℕ :=
  match (s.generations g).queueLifecycles u with
  | some l => (s, l)
  | none =>
    ({ s.setGeneration g { s.generations g with
          queueLifecycles := Function.update (s.generations g).queueLifecycles u (some s.lifecycleCount) } with
        lifecycles := Function.update s.lifecycles s.lifecycleCount ⟨0, false, 0⟩
        lifecycleCount := s.lifecycleCount + 1 },
      s.lifecycleCount)

/-- A received message is handed out, with a token or through the legacy slot. -/
def issue (s : State) (issueToken : Bool) (x : Place) (e h : ℕ) : State :=
  let r : Receipt := ⟨x.queueUrl, h, some x.generation, some e, s.clears x.queueUrl⟩
  if issueToken then { s with tokens := s.tokens ++ [⟨r, .pending, 0⟩], issued := s.issued ++ [r] }
  else { s with lastReceipt := some r, issued := s.issued ++ [r] }

/-- `_retire_queue_deliveries` -/
def retireQueueDeliveries (s : State) (x : Place) : State :=
  if s.lastReceipt.any fun r ↦ r.queueUrl = x.queueUrl ∧ r.generationKey = some x.generation then
    { s with lastReceipt := none }
  else s

/-- The end of `destructive_operation` -/
def endClear (s : State) (x : Place) : State :=
  { s.setLifecycle x.lifecycle { s.lifecycles x.lifecycle with clearing := false } with
    clears := Function.update s.clears x.queueUrl (s.clears x.queueUrl + 1) }

/-- The end of `_settle_token` -/
def discard (s : State) (k : ℕ) : State :=
  match s.tokens[k]? with
  | some x => s.clearLegacyReceiptIfCurrent x.receipt
  | none => s

/-- Publication of a generation -/
def publish (s : State) : State :=
  { s.setGeneration s.count ⟨true, 0, fun _ ↦ none⟩ with
    generation := some s.count
    count := s.count + 1 }

/-- The first section of `disconnect` -/
def detach (s : State) : State :=
  let t := { s with lifecycleEpoch := s.lifecycleEpoch + 1, generation := none }
  match s.generation with
  | some g => t.setGeneration g { s.generations g with accepting := false }
  | none => t

/-- A call that has raised before its lease. -/
def refused : Purpose → Stage
  | .token k _ => .finish k none
  | _ => .over

/-- A call that has given its lease back. -/
def released (result : Option Terminal) : Purpose → Stage
  | .token k _ => .finish k result
  | _ => .over

/-- What a call does below its lease. A token and a receipt name their queue. -/
def admitted (s : State) (g : ℕ) (p : Purpose) : Stage :=
  match s.receipt p with
  | some r => .lookup p g r.queueUrl
  | none => .resolve p g

/-- The answer of the broker -/
def answer (s : State) (n : ℕ) (p : Purpose) (x : Place) (e : ℕ) (outcome : Outcome) : State :=
  match p, outcome with
  | .pop issueToken, .message h => (s.issue issueToken x e h).goto n (.leave p x none)
  | .pop _, .malformed => s.goto n (.poison p x)
  | .token k action, .ok =>
    match s.tokens[k]? with
    | some t => (s.setToken k { t with settled := t.settled + 1 }).goto n (.leave p x (some action.terminal))
    | none => s.goto n (.leave p x none)
  | .legacy r _, .ok => (s.clearLegacyReceiptIfCurrent r).goto n (.leave p x none)
  | _, _ => s.goto n (.leave p x none)

/-- A call goes on. -/
def act (s : State) (n : ℕ) (outcome : Outcome) : Stage → Option State
  | .claim k action =>
    s.tokens[k]?.bind fun x ↦
      match x.settlementState with
      | .settling => none
      | .pending =>
        some ((s.setToken k { x with settlementState := .settling }).goto n (.lease (.token k action)))
      | _ => some (s.goto n (.discard k))
  | .snapshot action =>
    match s.lastReceipt with
    | some r => some (s.goto n (.lease (.legacy r action)))
    | none => some (s.goto n .over)
  | .lease p =>
    match s.leaseGeneration ((s.receipt p).bind (·.generationKey)) with
    | .leased g =>
      some ((s.setLeases g ((s.generations g).activeLeases + 1)).goto n (s.admitted g p))
    | .refused => some (s.goto n (refused p))
    | .retired =>
      match p with
      | .token k _ => some (s.goto n (.finish k (some .stale)))
      | .legacy r _ => some ((s.clearLegacyReceiptIfCurrent r).goto n .over)
      | _ => none
  | .resolve p g =>
    match outcome with
    | .url u => some (s.goto n (.lookup p g u))
    | _ => some (s.goto n (.release p g none))
  | .lookup p g u =>
    let (t, l) := s.queueLifecycleForGeneration g u
    some (t.goto n (.enter p ⟨g, u, l⟩))
  | .enter p x =>
    let y := s.lifecycles x.lifecycle
    if y.clearing then none
    else if p = .clear then
      some ((s.setLifecycle x.lifecycle { y with clearing := true }).goto n (.drain x))
    else
      some ((s.setLifecycle x.lifecycle { y with activeOperations := y.activeOperations + 1 }).goto n
        (.inside p x y.epoch))
  | .inside p x e =>
    let cleared := (s.receipt p).any fun r ↦ r.queueEpoch.isSome ∧ r.queueEpoch ≠ some e
    match p with
    | .token _ _ => some (s.goto n (if cleared then .leave p x (some .cleared) else .broker p x e))
    | .legacy r _ =>
      if ¬ s.legacyReceiptIsCurrent r then some (s.goto n (.leave p x none))
      else if cleared then some ((s.clearLegacyReceiptIfCurrent r).goto n (.leave p x none))
      else some (s.goto n (.broker p x e))
    | _ => some (s.goto n (.broker p x e))
  | .broker p x e => some (s.answer n p x e outcome)
  | .poison p x => some (s.goto n (.leave p x none))
  | .leave p x result =>
    let y := s.lifecycles x.lifecycle
    some ((s.setLifecycle x.lifecycle { y with activeOperations := y.activeOperations - 1 }).goto n
      (.release p x.generation result))
  | .release p g result =>
    some ((s.setLeases g ((s.generations g).activeLeases - 1)).goto n (released result p))
  | .finish k result =>
    s.tokens[k]?.map fun x ↦
      (s.setToken k { x with settlementState := result.elim .pending .terminal }).goto n
        (if result.isSome then .discard k else .over)
  | .discard k => some ((s.discard k).goto n .over)
  | .drain x =>
    let y := s.lifecycles x.lifecycle
    if y.activeOperations = 0 then
      some ((s.setLifecycle x.lifecycle { y with epoch := y.epoch + 1 }).goto n (.retire x))
    else none
  | .retire x => some ((s.retireQueueDeliveries x).goto n (.purge x))
  | .purge x =>
    match outcome with
    | .interrupted => some ((s.endClear x).goto n (.release .clear x.generation none))
    | _ => some (s.goto n (.wait x))
  | .wait x => some ((s.endClear x).goto n (.release .clear x.generation none))
  | .connect => if s.connectLock then none else some ({ s with connectLock := true }.goto n .check)
  | .check =>
    some (s.goto n (if s.generation.isSome then .unlock else .creating s.lifecycleEpoch))
  | .creating e =>
    match outcome with
    | .ok =>
      if e = s.lifecycleEpoch ∧ s.generation = none then some (s.publish.goto n .published)
      else some (s.goto n .unlock)
    | .nested => some (s.goto n (.detach (.creating e)))
    | _ => some (s.goto n .unlock)
  | .published =>
    match outcome with
    | .nested => some (s.goto n (.detach .published))
    | _ => some (s.goto n .unlock)
  | .disconnect =>
    if s.connectLock then none else some ({ s with connectLock := true }.goto n (.detach .unlock))
  | .detach back => some (s.detach.goto n (.draining back s.generation))
  | .draining back g =>
    if g.all fun g ↦ (s.generations g).activeLeases = 0 then some (s.goto n (.forget back g)) else none
  | .forget back g => some ({ s with lastReceipt := none }.goto n (.drop back g))
  | .drop back g =>
    match g with
    | some g => some ((s.setGeneration g { s.generations g with queueLifecycles := fun _ ↦ none }).goto n
        back.stage)
    | none => some (s.goto n back.stage)
  | .unlock => some ({ s with connectLock := false }.goto n .over)
  | .over => none

end State

/-- The first stage of a call. -/
def Operation.stage : Operation → Stage
  | push => .lease .push
  | queueLen => .lease .queueLen
  | pop => .lease (.pop false)
  | popWithAck => .lease (.pop true)
  | clearQueue => .lease .clear
  | settleToken k action => .claim k action
  | settleLegacyReceipt action => .snapshot action
  | connect => .connect
  | disconnect => .disconnect

/-- One step. -/
def State.step (s : State) : Label → Option State
  | .call op => some { s with calls := s.calls ++ [op.stage] }
  | .token u h => some { s with tokens := s.tokens ++ [⟨⟨u, h, none, none, s.clears u⟩, .pending, 0⟩] }
  | .act n outcome => s.calls[n]?.bind fun stage ↦ s.act n outcome stage

/-- The backend as a machine. -/
def machine : Machine State Label where
  init := State.new
  step := State.step

end Sqs

end ScrapyExtension
