import Mathlib.Data.Finset.Lattice.Basic
import Mathlib.Tactic
import ScrapyExtension.Machine.Basic

/-!
# Kafka deliveries and their settlement

The delivery side of `KafkaBackend`: which records are handed out, what is remembered about them,
and what `ack` and `nack` do with it, for tokens and for the legacy single slot.

## Locks and interleavings

`pop`, `pop_with_ack`, `ack` and `nack` hold `_consumer_io_lock` from end to end, so each of them
is one step. What can happen inside one of them is what other threads and driver callbacks may do
while the delivery lock is released for an SDK call: a rebalance, a `disconnect`, a `connect`, or
the admission of another operation. A step carries these as lists of `Event`s. An operation is
admitted *before* it takes the lock, so an `ack` or `nack` runs on any generation that was ever
published, or on none: that is the index `handles`.

## Map objects

A live generation shares its maps with the backend; `disconnect` hands them over to the retired
generation and gives the backend new ones. Hence `Handles.maps` counts only for a retired
generation (`State.mapsOf`).

## The broker

A topic-partition is a log, the offsets that exist in it, and the consumer has a fetch position on
each assigned one. A poll delivers the least existing offset at or above the position. Only the
seek of a `nack` and a rebalance move a position back.
-/

namespace ScrapyExtension

namespace Kafka

/-! ## Data -/

/-- `TopicPartition` -/
structure TopicPartition where
  /-- The topic. -/
  topic : String
  /-- The partition number. -/
  partition : ℕ
deriving DecidableEq

/-- A consumer record. The identity stands for the Python object. -/
structure Record where
  /-- Which object it is. -/
  identity : ℕ
  /-- Topic and partition. -/
  topicPartition : TopicPartition
  /-- The offset in the log. -/
  offset : ℕ
deriving DecidableEq

/-- `_KafkaAckToken` -/
structure Token where
  /-- `topic` and `partition` -/
  topicPartition : TopicPartition
  /-- `offset` -/
  offset : ℕ
  /-- `consumer_generation` -/
  consumerGeneration : ℕ
  /-- `assignment_epoch` -/
  assignmentEpoch : ℕ
  /-- `delivery_attempt` -/
  deliveryAttempt : ℕ
deriving DecidableEq

/-- The five delivery maps. An absent set of attempts is an empty one. -/
structure Maps where
  /-- `_active_attempts`, by topic-partition and offset -/
  activeAttempts : TopicPartition → ℕ → Option ℕ
  /-- `_active_attempts_by_partition` -/
  activeAttemptsByPartition : TopicPartition → Finset ℕ
  /-- `_in_flight` -/
  inFlight : TopicPartition → Option (Finset ℕ)
  /-- `_watermarks` -/
  watermarks : TopicPartition → Option ℕ
  /-- `_high_water` -/
  highWater : TopicPartition → Option ℕ

namespace Maps

/-- New or cleared maps. -/
def empty : Maps where
  activeAttempts := fun _ _ ↦ none
  activeAttemptsByPartition := fun _ ↦ ∅
  inFlight := fun _ ↦ none
  watermarks := fun _ ↦ none
  highWater := fun _ ↦ none

variable (m : Maps)

/-- The offsets in flight, none if the set is absent. -/
def pending (tp : TopicPartition) : Finset ℕ := (m.inFlight tp).getD ∅

/-- Remember a delivered offset: seed the base, add it in flight, raise the frontier. -/
def register (tp : TopicPartition) (offset : ℕ) : Maps :=
  { m with
    watermarks := Function.update m.watermarks tp (some ((m.watermarks tp).getD offset))
    inFlight := Function.update m.inFlight tp (some (insert offset (m.pending tp)))
    highWater :=
      Function.update m.highWater tp (some (max ((m.highWater tp).getD 0) (offset + 1))) }

/-- Remember the attempt of a token, in place of an earlier one for the same offset. -/
def beginAttempt (tp : TopicPartition) (offset attempt : ℕ) : Maps :=
  let kept := match m.activeAttempts tp offset with
    | none => m.activeAttemptsByPartition tp
    | some previous => (m.activeAttemptsByPartition tp).erase previous
  { m with
    activeAttempts := Function.update m.activeAttempts tp
      (Function.update (m.activeAttempts tp) offset (some attempt))
    activeAttemptsByPartition :=
      Function.update m.activeAttemptsByPartition tp (insert attempt kept) }

/-- `_finish_attempt_locked` -/
def finishAttempt (token : Token) : Maps :=
  let tp := token.topicPartition
  if m.activeAttempts tp token.offset = some token.deliveryAttempt then
    { m with
      activeAttempts := Function.update m.activeAttempts tp
        (Function.update (m.activeAttempts tp) token.offset none)
      activeAttemptsByPartition := Function.update m.activeAttemptsByPartition tp
        ((m.activeAttemptsByPartition tp).erase token.deliveryAttempt) }
  else m

/-- Drop the bookkeeping of a topic-partition with nothing in flight. -/
def prune (tp : TopicPartition) : Maps :=
  if m.pending tp = ∅ then
    { m with
      inFlight := Function.update m.inFlight tp none
      watermarks := Function.update m.watermarks tp none
      highWater := Function.update m.highWater tp none }
  else m

/-- Take an offset out of flight; the set stays, if empty. -/
def settle (tp : TopicPartition) (offset : ℕ) : Maps :=
  { m with inFlight := Function.update m.inFlight tp (some ((m.pending tp).erase offset)) }

/-- Put an offset back in flight. -/
def restore (tp : TopicPartition) (offset : ℕ) : Maps :=
  { m with inFlight := Function.update m.inFlight tp (some (insert offset (m.pending tp))) }

/-- Move the base of a topic-partition. -/
def setWatermark (tp : TopicPartition) (watermark : ℕ) : Maps :=
  { m with watermarks := Function.update m.watermarks tp (some watermark) }

end Maps

/-- The loop `while watermark < high and watermark not in in_flight`, with as much fuel as the
distance to `high`. -/
def walk (inFlight : Finset ℕ) : ℕ → ℕ → ℕ
  | 0, watermark => watermark
  | fuel + 1, watermark =>
    if watermark ∈ inFlight then watermark else walk inFlight fuel (watermark + 1)

/-- The watermark that the walk from `base` ends at. -/
def watermarkFrom (inFlight : Finset ℕ) (base high : ℕ) : ℕ := walk inFlight (high - base) base

/-- `_KafkaGenerationHandles`, as far as deliveries depend on it. -/
structure Handles where
  /-- `consumer`, by its identity -/
  consumer : Option ℕ
  /-- There is a producer or an admin client. -/
  hasClients : Bool
  /-- `consumer_generation` -/
  consumerGeneration : ℕ
  /-- `assignment_epoch` -/
  assignmentEpoch : ℕ
  /-- `retired` -/
  retired : Bool
  /-- `legacy_record` -/
  legacyRecord : Option Record
  /-- The maps it took along when it was retired. -/
  maps : Maps

/-- A commit handed to the consumer, with the deliveries it passes over: the offsets below it
that were delivered on its topic-partition in the current assignment epoch and were neither
acknowledged before nor are settled by the call that commits. -/
structure Commit where
  /-- Where. -/
  topicPartition : TopicPartition
  /-- The committed offset. -/
  offset : ℕ
  /-- What it passes over. -/
  skipped : Finset ℕ
deriving DecidableEq

/-- The backend, the consumer's positions, and the history of deliveries. No operation reads the
history. -/
structure State where
  /-- `_consumer_generation` -/
  consumerGeneration : ℕ
  /-- `_assignment_epoch` -/
  assignmentEpoch : ℕ
  /-- `_next_delivery_attempt` -/
  nextDeliveryAttempt : ℕ
  /-- The next consumer identity. -/
  nextConsumer : ℕ
  /-- The next record identity. -/
  nextRecord : ℕ
  /-- `_consumer` -/
  consumer : Option ℕ
  /-- `_subscribed_topic` -/
  subscribedTopic : Option String
  /-- `_last_record` -/
  lastRecord : Option Record
  /-- The live maps. -/
  maps : Maps
  /-- Every generation ever published. -/
  generations : List Handles
  /-- The accepting generation. -/
  current : Option ℕ
  /-- The fetch position of the live consumer, for the topic-partitions assigned to it. -/
  position : TopicPartition → Option ℕ
  /-- History: offsets delivered in the live assignment epoch. -/
  delivered : TopicPartition → Finset ℕ
  /-- History: offsets acknowledged by the application in the live assignment epoch. -/
  acked : TopicPartition → Finset ℕ
  /-- History: offsets nacked in the live epoch and not delivered again since. -/
  nacked : TopicPartition → Finset ℕ
  /-- History: the commits so far. -/
  commits : List Commit

/-- `__init__` -/
def State.new : State where
  consumerGeneration := 0
  assignmentEpoch := 0
  nextDeliveryAttempt := 0
  nextConsumer := 0
  nextRecord := 0
  consumer := none
  subscribedTopic := none
  lastRecord := none
  maps := .empty
  generations := []
  current := none
  position := fun _ ↦ none
  delivered := fun _ ↦ ∅
  acked := fun _ ↦ ∅
  nacked := fun _ ↦ ∅
  commits := []

namespace State

variable (s : State)

/-! ## Generations -/

/-- The admitted generation of an operation. -/
def handles (h : Option ℕ) : Option Handles := h.bind fun i ↦ s.generations[i]?

/-- Change one generation. -/
@[simps maps delivered acked nacked position lastRecord consumer current assignmentEpoch
  consumerGeneration nextDeliveryAttempt nextRecord subscribedTopic commits]
def modifyHandles (h : Option ℕ) (f : Handles → Handles) : State :=
  { s with
    generations := match h with
      | none => s.generations
      | some i => s.generations.modify i f }

/-- The maps that an operation works on. -/
def mapsOf (h : Option ℕ) : Maps :=
  match s.handles h with
  | some g => if g.retired then g.maps else s.maps
  | none => s.maps

/-- Replace the maps that an operation works on. -/
def setMaps (h : Option ℕ) (m : Maps) : State :=
  match s.handles h with
  | some g => if g.retired then s.modifyHandles h ({ · with maps := m }) else { s with maps := m }
  | none => { s with maps := m }

/-- The consumer that an operation works on. -/
def consumerOf (h : Option ℕ) : Option ℕ :=
  match s.handles h with
  | some g => g.consumer
  | none => s.consumer

/-- The assignment epoch that an operation works in. -/
def epochOf (h : Option ℕ) : ℕ :=
  match s.handles h with
  | some g => g.assignmentEpoch
  | none => s.assignmentEpoch

/-- The consumer generation that an operation works in. -/
def generationOf (h : Option ℕ) : ℕ :=
  match s.handles h with
  | some g => g.consumerGeneration
  | none => s.consumerGeneration

/-- The operation's generation has been retired. -/
def retiredOf (h : Option ℕ) : Bool :=
  match s.handles h with
  | some g => g.retired
  | none => false

/-- The record of a legacy `ack` or `nack`: the generation's slot, else the backend's. -/
def legacyRecordOf (h : Option ℕ) : Option Record :=
  match s.handles h with
  | some g => g.legacyRecord.or s.lastRecord
  | none => s.lastRecord

/-- `_publish_generation_locked` -/
def publish (hasClients : Bool) : State :=
  if s.current.isSome ∨ (s.consumer = none ∧ hasClients = false) then s
  else
    { s with
      generations := s.generations ++ [⟨s.consumer, hasClients, s.consumerGeneration,
        s.assignmentEpoch, false, none, .empty⟩]
      current := some s.generations.length }

/-- The history of an assignment epoch that ended. -/
def forgetEpoch : State :=
  { s with delivered := fun _ ↦ ∅, acked := fun _ ↦ ∅, nacked := fun _ ↦ ∅ }

/-- `_clear_delivery_state_locked` -/
def clearDeliveryState : State := { s with lastRecord := none, maps := .empty }.forgetEpoch

/-- `_advance_assignment_epoch_locked` -/
def advanceAssignmentEpoch : State :=
  { s with assignmentEpoch := s.assignmentEpoch + 1 }.clearDeliveryState.modifyHandles s.current
    ({ · with legacyRecord := none })

/-- `_on_assignment_changed` of the listener bound to the current generation and consumer -/
def onAssignmentChanged : State :=
  if s.consumer.isSome ∧ s.consumerOf s.current = s.consumer then
    s.advanceAssignmentEpoch.modifyHandles s.current
      ({ · with assignmentEpoch := s.assignmentEpoch + 1 })
  else s

/-- `disconnect` up to the drain -/
def disconnect : State :=
  let retired := s.modifyHandles s.current fun g ↦
    { g with
      retired := true, assignmentEpoch := s.assignmentEpoch, legacyRecord := s.lastRecord,
      maps := s.maps }
  { retired with
    current := none
    consumer := none
    consumerGeneration := s.consumerGeneration + 1
    assignmentEpoch := s.assignmentEpoch + 1
    subscribedTopic := none
    position := fun _ ↦ none }.clearDeliveryState

/-- `_lease_generation`, for the operations that need a consumer -/
def lease : State :=
  let t := s.publish false
  match t.handles t.current with
  | some g =>
    if g.legacyRecord = none then t.modifyHandles t.current ({ · with legacyRecord := t.lastRecord })
    else t
  | none => t

/-! ## What may happen during an SDK call -/

/-- A rebalance gives the live consumer new positions and calls its listener. -/
def rebalance (assignment : TopicPartition → Option ℕ) : State :=
  if s.consumer.isSome ∧ s.consumerOf s.current = s.consumer then
    { s.onAssignmentChanged with position := assignment }
  else s

end State

/-- What other threads and driver callbacks may do while an operation is in an SDK call. -/
inductive Event
  /-- The group coordinator changes the assignment. -/
  | rebalance (assignment : TopicPartition → Option ℕ)
  /-- Somebody calls `disconnect`. -/
  | disconnect
  /-- Somebody calls `connect`, which succeeds. -/
  | connect
  /-- Somebody's operation is admitted. -/
  | lease

namespace State

variable (s : State)

/-- One event. -/
def happen : Event → State
  | .rebalance assignment => s.rebalance assignment
  | .disconnect => s.disconnect
  | .connect => s.publish true
  | .lease => s.lease

/-- Events in their order. -/
def events (es : List Event) : State := es.foldl happen s

/-! ## Polling -/

end State

/-- How the constructor of a consumer ends. -/
inductive Construction
  | returned
  | raised
  /-- A callback inside the constructor disconnects. -/
  | disconnected
deriving DecidableEq

/-- What `consumer.poll` gives. -/
inductive Fetch
  | raised
  | empty
  | record (topicPartition : TopicPartition) (offset : ℕ)
deriving DecidableEq

/-- The circumstances of one poll. -/
structure Poll where
  /-- The physical topic of the queue. -/
  topic : String
  /-- The constructor, if a consumer has to be made. -/
  construction : Construction
  /-- What happens during `consumer.subscribe`, if it is called. -/
  subscribing : List Event
  /-- `consumer.subscribe` raises. -/
  subscribeRaises : Bool
  /-- What happens during `consumer.poll`. -/
  polling : List Event
  /-- The result of `consumer.poll`. -/
  fetch : Fetch

/-- How a poll ends: with or without a record for the generation it ran on. -/
inductive Polled
  | nothing (s : State)
  | delivered (s : State) (h : Option ℕ) (record : Record)

namespace State

variable (s : State)

/-- The backend with a constructed consumer. -/
def newConsumer : State :=
  { s with
    consumerGeneration := s.consumerGeneration + 1
    consumer := some s.nextConsumer
    nextConsumer := s.nextConsumer + 1 }

/-- A constructed consumer becomes the backend's, and that of its generation. -/
def adoptConsumer : State :=
  match s.current with
  | some i => s.newConsumer.modifyHandles (some i) ({ · with
      consumer := some s.nextConsumer
      consumerGeneration := s.consumerGeneration + 1
      assignmentEpoch := s.assignmentEpoch })
  | none => s.newConsumer.publish false

/-- A consumer that the backend has and its generation has not is attached to the generation. -/
def attachConsumer (h : Option ℕ) : State :=
  if s.consumerOf h = none ∧ s.consumer ≠ none then
    s.modifyHandles h ({ · with
      consumer := s.consumer
      consumerGeneration := s.consumerGeneration
      assignmentEpoch := s.assignmentEpoch })
  else s

/-- The backend gives up a consumer, if it is still its own. -/
def dropConsumer (c : ℕ) : State :=
  if s.consumer = some c then
    { s with
      consumer := none
      subscribedTopic := none
      consumerGeneration := s.consumerGeneration + 1
      assignmentEpoch := s.assignmentEpoch + 1
      position := fun _ ↦ none }.clearDeliveryState
  else s

/-- A generation gives up a consumer, unless it is retired: its finalizer closes it then. -/
def detachConsumer (h : Option ℕ) (c : ℕ) : State :=
  if s.consumerOf h = some c ∧ s.retiredOf h = false then
    s.modifyHandles h ({ · with consumer := none })
  else s

/-- An accepting generation without clients does not stay. -/
def retireEmpty : State :=
  match s.handles s.current with
  | some g =>
    if g.hasClients = false ∧ g.consumer = none then { s with current := none } else s
  | none => s

/-- `_cleanup_partial_consumer`, for a consumer `c` that this operation made -/
def cleanupPartialConsumer (h : Option ℕ) (c : ℕ) : State :=
  ((s.dropConsumer c).detachConsumer h c).retireEmpty

/-- The exit of a poll that raised. -/
def abandonPoll (h : Option ℕ) : Option ℕ → State
  | some c => s.cleanupPartialConsumer h c
  | none => s

/-- The subscription to another topic; `false` if the operation raises. -/
def subscribe (h : Option ℕ) (p : Poll) : State × Bool :=
  if s.subscribedTopic = some p.topic then (s, true)
  else
    let t := (s.advanceAssignmentEpoch.modifyHandles h
      ({ · with assignmentEpoch := s.assignmentEpoch + 1 })).events p.subscribing
    if p.subscribeRaises ∨ t.retiredOf h then (t, false)
    else
      ({ t.modifyHandles h ({ · with assignmentEpoch := t.assignmentEpoch }) with
        subscribedTopic := some p.topic }, true)

/-- The live consumer delivers `offset` next from the topic-partition. -/
def Delivers (log : TopicPartition → ℕ → Bool) (tp : TopicPartition) (offset : ℕ) : Prop :=
  ∃ position ∈ s.position tp,
    position ≤ offset ∧ log tp offset ∧ ∀ x < offset, position ≤ x → log tp x = false

instance (log : TopicPartition → ℕ → Bool) (tp : TopicPartition) (offset : ℕ) :
    Decidable (s.Delivers log tp offset) :=
  match h : s.position tp with
  | none => isFalse (by simp [Delivers, h])
  | some position =>
    decidable_of_iff (position ≤ offset ∧ log tp offset ∧
      ∀ x < offset, position ≤ x → log tp x = false) (by simp [Delivers, h])

/-- The broker hands out a record. -/
def deliver (tp : TopicPartition) (offset : ℕ) : State :=
  { s with
    nextRecord := s.nextRecord + 1
    position := Function.update s.position tp (some (offset + 1))
    delivered := Function.update s.delivered tp (insert offset (s.delivered tp))
    nacked := Function.update s.nacked tp ((s.nacked tp).erase offset) }

/-- `consumer.poll` and what follows it; `created` is the consumer that this operation made. A
record that the broker does not deliver next is no result of a poll. -/
def fetch (log : TopicPartition → ℕ → Bool) (h created : Option ℕ) (p : Poll) : Option Polled :=
  let t := s.events p.polling
  match p.fetch with
  | .raised => some (.nothing (t.abandonPoll h created))
  | .empty => some (.nothing (if t.retiredOf h then t.abandonPoll h created else t))
  | .record tp offset =>
    if t.retiredOf h then some (.nothing (t.abandonPoll h created))
    else if t.Delivers log tp offset then
      some (.delivered (t.deliver tp offset) h ⟨t.nextRecord, tp, offset⟩)
    else none

/-- `_poll_record_unlocked` from the subscription on -/
def pollSubscribed (log : TopicPartition → ℕ → Bool) (h created : Option ℕ) (p : Poll) :
    Option Polled :=
  let t := s.subscribe h p
  if t.2 then t.1.fetch log h created p else some (.nothing (t.1.abandonPoll h created))

/-- `_poll_record`, on the generation that the operation leases -/
def pollRecord (log : TopicPartition → ℕ → Bool) (p : Poll) : Option Polled :=
  let t := s.lease.attachConsumer s.lease.current
  match t.consumerOf t.current with
  | some _ => t.pollSubscribed log t.current none p
  | none =>
    match p.construction with
    | .raised => some (.nothing t)
    | .disconnected => some (.nothing t.disconnect)
    | .returned =>
      let u := t.adoptConsumer
      u.pollSubscribed log u.current u.consumer p

/-! ## The two pops -/

/-- `_register_legacy_record_locked` -/
def registerLegacyRecord (h : Option ℕ) (record : Record) : State :=
  { s.modifyHandles h ({ · with legacyRecord := some record }) with
    lastRecord := some record
    maps := s.maps.register record.topicPartition record.offset }

/-- `pop` -/
def pop (log : TopicPartition → ℕ → Bool) (p : Poll) : Option State :=
  (s.pollRecord log p).map fun
    | .nothing t => t
    | .delivered t h record => t.registerLegacyRecord h record

/-- A new attempt on a record. -/
def beginDelivery (record : Record) : State :=
  let attempt := s.nextDeliveryAttempt + 1
  { s with
    nextDeliveryAttempt := attempt
    maps := (s.maps.register record.topicPartition record.offset).beginAttempt
      record.topicPartition record.offset attempt }

/-- The bookkeeping of a record that is handed out with a token. An older legacy slot stays armed:
its offset is in the same cohort. -/
def registerToken (h : Option ℕ) (record : Record) : State :=
  match s.lastRecord with
  | some last => (s.beginDelivery record).modifyHandles h ({ · with legacyRecord := some last })
  | none => s.beginDelivery record

/-- `pop_with_ack` -/
def popWithAck (log : TopicPartition → ℕ → Bool) (p : Poll) : Option State :=
  (s.pollRecord log p).map fun
    | .nothing t => t
    | .delivered t h record => t.registerToken h record

/-- The token that `pop_with_ack` gives out for a record. -/
def tokenFor (record : Record) : Token :=
  ⟨record.topicPartition, record.offset, s.consumerGeneration, s.assignmentEpoch,
    s.nextDeliveryAttempt + 1⟩

/-! ## Acknowledgements -/

/-- `_token_is_active_locked` -/
def TokenIsActive (h : Option ℕ) (token : Token) : Prop :=
  token.consumerGeneration = s.generationOf h ∧ token.assignmentEpoch = s.epochOf h ∧
    match (s.mapsOf h).activeAttempts token.topicPartition token.offset with
    | some attempt => attempt = token.deliveryAttempt
    | none => token.deliveryAttempt = 0 ∧ token.offset ∈ (s.mapsOf h).pending token.topicPartition

instance (h : Option ℕ) (token : Token) : Decidable (s.TokenIsActive h token) :=
  haveI : Decidable (match (s.mapsOf h).activeAttempts token.topicPartition token.offset with
      | some attempt => attempt = token.deliveryAttempt
      | none =>
        token.deliveryAttempt = 0 ∧ token.offset ∈ (s.mapsOf h).pending token.topicPartition) := by
    split <;> infer_instance
  inferInstanceAs (Decidable (_ ∧ _ ∧ _))

/-- History: the application acknowledged an offset of the given epoch. -/
def acknowledge (epoch : ℕ) (tp : TopicPartition) (offset : ℕ) : State :=
  if s.assignmentEpoch = epoch then
    { s with acked := Function.update s.acked tp (insert offset (s.acked tp)) }
  else s

/-- History: `consumer.commit` is called by an operation that settles `own`. -/
def commit (tp : TopicPartition) (offset own : ℕ) : State :=
  { s with
    commits := ⟨tp, offset,
      (s.delivered tp).filter fun o ↦ o < offset ∧ o ∉ s.acked tp ∧ o ≠ own⟩ :: s.commits }

end State

/-- How `consumer.commit` ends. -/
inductive Outcome
  | returned
  | kafkaError
  /-- Any other exception, which no handler catches. -/
  | interrupted
deriving DecidableEq

/-- The circumstances of a commit: what happens before and after it reaches the broker. -/
structure CommitCall where
  /-- Before. -/
  before : List Event
  /-- After, until the operation has the delivery lock again. -/
  after : List Event
  /-- How it ends. -/
  outcome : Outcome

/-- The circumstances of a seek. -/
structure SeekCall where
  /-- During `consumer.assignment`. -/
  before : List Event
  /-- During `consumer.seek`. -/
  after : List Event
  /-- One of the two raises. -/
  raises : Bool

namespace State

variable (s : State)

/-- The restore test and the settle test of a token after its commit. The second disjunct is for
tokens that no pop gave out. -/
def StillActive (h : Option ℕ) (token : Token) (compatibility : Prop) : Prop :=
  s.TokenIsActive h token ∨
    (compatibility ∧ token.consumerGeneration = s.generationOf h ∧
      token.assignmentEpoch = s.epochOf h)

instance (h : Option ℕ) (token : Token) (compatibility : Prop) [Decidable compatibility] :
    Decidable (s.StillActive h token compatibility) := inferInstanceAs (Decidable (_ ∨ _))

/-- `_ack_token_locked_unlocked` from the commit on -/
def commitToken (h : Option ℕ) (token : Token) (compatibility : Prop) [Decidable compatibility]
    (watermark : ℕ) (call : CommitCall) : State :=
  let tp := token.topicPartition
  let sent := (s.events call.before).commit tp watermark token.offset
  match call.outcome with
  | .kafkaError =>
    let t := sent.events call.after
    if t.StillActive h token compatibility then
      t.setMaps h ((t.mapsOf h).restore tp token.offset)
    else t
  | .interrupted =>
    (sent.acknowledge token.assignmentEpoch tp token.offset).events call.after
  | .returned =>
    let t := (sent.acknowledge token.assignmentEpoch tp token.offset).events call.after
    if t.StillActive h token compatibility then
      t.setMaps h ((((t.mapsOf h).setWatermark tp watermark).finishAttempt token).prune tp)
    else t

/-- `_ack_token_locked_unlocked` -/
def ackToken (h : Option ℕ) (token : Token) (call : CommitCall) : State :=
  let tp := token.topicPartition
  let m := s.mapsOf h
  if s.consumerOf h = none ∨ ¬ s.TokenIsActive h token then s
  else if token.offset ∉ m.pending tp then
    -- An earlier pass was interrupted after its commit: only the attempt is left to finish.
    (s.setMaps h ((m.finishAttempt token).prune tp)).acknowledge token.assignmentEpoch tp
      token.offset
  else
    let base := (m.watermarks tp).getD token.offset
    let settled := (m.settle tp token.offset).setWatermark tp base
    let watermark := watermarkFrom (settled.pending tp) base ((m.highWater tp).getD base)
    if watermark ≤ base then
      (s.setMaps h ((settled.finishAttempt token).prune tp)).acknowledge token.assignmentEpoch tp
        token.offset
    else
      (s.setMaps h settled).commitToken h token
        (token.deliveryAttempt = 0 ∧ m.activeAttempts tp token.offset = none) watermark call

/-- The legacy slots give up a record. -/
def disarm (h : Option ℕ) (record : Record) : State :=
  { s.modifyHandles h fun g ↦
      if g.legacyRecord = some record then { g with legacyRecord := none } else g with
    lastRecord := if s.lastRecord = some record then none else s.lastRecord }

/-- The offset of a legacy record leaves the cohort. -/
def dropLegacy (h : Option ℕ) (record : Record) : State :=
  s.setMaps h (((s.mapsOf h).settle record.topicPartition record.offset).prune
    record.topicPartition)

/-- The legacy path of `_ack_unleased_unlocked` from the commit on -/
def commitLegacy (h : Option ℕ) (record : Record) (call : CommitCall) : State :=
  let tp := record.topicPartition
  let epoch := s.epochOf h
  let wasPending := ((s.mapsOf h).inFlight tp).isSome
  let sent := (s.events call.before).commit tp (record.offset + 1) record.offset
  match call.outcome with
  | .returned =>
    let t := (sent.acknowledge epoch tp record.offset).events call.after
    if t.epochOf h = epoch then
      let u := t.disarm h record
      if wasPending then u.dropLegacy h record else u
    else t
  | _ => sent.events call.after

/-- The legacy path of `_ack_unleased_unlocked` -/
def ackLegacy (h : Option ℕ) (call : CommitCall) : State :=
  match s.consumerOf h, s.legacyRecordOf h with
  | some _, some record =>
    let tp := record.topicPartition
    let m := s.mapsOf h
    if m.activeAttemptsByPartition tp ≠ ∅ then s
    else if m.inFlight tp ≠ none ∧ m.inFlight tp ≠ some {record.offset} then s
    else s.commitLegacy h record call
  | _, _ => s

/-! ## Negative acknowledgements -/

/-- `consumer.seek`, on an assigned topic-partition only -/
def seek (tp : TopicPartition) (offset : ℕ) : State :=
  { s with position := Function.update s.position tp ((s.position tp).map fun _ ↦ offset) }

/-- The end of a successful token nack. -/
def finishNack (h : Option ℕ) (token : Token) : State :=
  let tp := token.topicPartition
  { s.setMaps h ((s.mapsOf h).finishAttempt token) with
    nacked := Function.update s.nacked tp (insert token.offset (s.nacked tp)) }

/-- `_nack_unleased_unlocked` with a token -/
def nackToken (h : Option ℕ) (token : Token) (call : SeekCall) : State :=
  if s.consumerOf h = none ∨ ¬ s.TokenIsActive h token then s
  else
    let t := s.events call.before
    if call.raises ∨ t.retiredOf h ∨ ¬ t.TokenIsActive h token then t
    else
      let u := (t.seek token.topicPartition token.offset).events call.after
      if u.retiredOf h ∨ ¬ u.TokenIsActive h token then u else u.finishNack h token

/-- `same_state` of a legacy nack -/
def HoldsLegacy (h : Option ℕ) (epoch : ℕ) (record : Record) : Prop :=
  s.epochOf h = epoch ∧
    match s.handles h with
    | some g => g.legacyRecord = some record
    | none => s.lastRecord = some record

instance (h : Option ℕ) (epoch : ℕ) (record : Record) :
    Decidable (s.HoldsLegacy h epoch record) :=
  haveI : Decidable (match s.handles h with
      | some g => g.legacyRecord = some record
      | none => s.lastRecord = some record) := by split <;> infer_instance
  inferInstanceAs (Decidable (_ ∧ _))

/-- The end of a successful legacy nack. Exact attempts on the topic-partition keep the offset in
the cohort. -/
def finishNackLegacy (h : Option ℕ) (record : Record) (wasPending : Bool) : State :=
  let t := s.disarm h record
  if wasPending ∧ (t.mapsOf h).activeAttemptsByPartition record.topicPartition = ∅ then
    t.dropLegacy h record
  else t

/-- `_nack_unleased_unlocked` without a token -/
def nackLegacy (h : Option ℕ) (call : SeekCall) : State :=
  match s.consumerOf h, s.legacyRecordOf h with
  | some _, some record =>
    let epoch := s.epochOf h
    let wasPending := ((s.mapsOf h).inFlight record.topicPartition).isSome
    let t := s.events call.before
    if call.raises ∨ t.retiredOf h ∨ ¬ t.HoldsLegacy h epoch record then t
    else
      let u := (t.seek record.topicPartition record.offset).events call.after
      if u.retiredOf h ∨ ¬ u.HoldsLegacy h epoch record then u
      else u.finishNackLegacy h record wasPending
  | _, _ => s

end State

/-! ## The machine -/

/-- One step: an operation from end to end, or something that happens between operations. `h` is
the generation on which an operation was admitted. -/
inductive Label
  | event (e : Event)
  | pop (p : Poll)
  | popWithAck (p : Poll)
  | ackToken (h : Option ℕ) (token : Token) (call : CommitCall)
  | ackLegacy (h : Option ℕ) (call : CommitCall)
  | nackToken (h : Option ℕ) (token : Token) (call : SeekCall)
  | nackLegacy (h : Option ℕ) (call : SeekCall)

/-- The generation was published. -/
def State.Published (s : State) (h : Option ℕ) : Prop := ∀ i ∈ h, i < s.generations.length

instance (s : State) (h : Option ℕ) : Decidable (s.Published h) :=
  inferInstanceAs (Decidable (∀ i ∈ h, i < s.generations.length))

/-- The successor. Operations run on published generations or on none, and tokens are those of
`pop_with_ack`, whose attempts are positive. -/
def step (log : TopicPartition → ℕ → Bool) (s : State) : Label → Option State
  | .event e => some (s.happen e)
  | .pop p => s.pop log p
  | .popWithAck p => s.popWithAck log p
  | .ackToken h token call =>
    if s.Published h ∧ token.deliveryAttempt ≠ 0 then some (s.ackToken h token call) else none
  | .ackLegacy h call => if s.Published h then some (s.ackLegacy h call) else none
  | .nackToken h token call =>
    if s.Published h ∧ token.deliveryAttempt ≠ 0 then some (s.nackToken h token call) else none
  | .nackLegacy h call => if s.Published h then some (s.nackLegacy h call) else none

/-- The backend as a machine, on the records of the broker. -/
def machine (log : TopicPartition → ℕ → Bool) : Machine State Label where
  init := .new
  step := step log

end Kafka

end ScrapyExtension
