import ScrapyExtension.Dupefilter.Lifecycle

/-!
# Operations of the dupefilter

A decision of the boolean protocol (`request_seen`) writes its marker at once and leaves a receipt, so
that a failed push can be compensated by `forget`. A decision of the scheduler's protocol
(`request_seen_with_reservation`) writes nothing; its receipt is committed or rolled back later.

All operations run below an admission of `Dupefilter.Core`, and every call of the filter is outside the
lifecycle lock. What the filter answers is part of the label.

## Receipts

Receipts are numbered, and are never reused. A legacy receipt is in one of two tables, for decisions
that are pending and for those that the scheduler has consumed; the tables keep their order. A
retirement of the epoch empties them, and later settlements of old receipts find nothing.

Requests are weakly referenced: the collection of a request is a step that may come at any time.
-/

namespace ScrapyExtension

namespace Dupefilter

/-- `_DedupReservation` -/
structure Reservation where
  fingerprint : ℕ
  epoch : ℕ
  owner : ℕ
  /-- It is in `_active_reservations`. -/
  active : Bool
deriving DecidableEq

/-- `_LegacyReservation` -/
structure Receipt where
  fingerprint : ℕ
  epoch : ℕ
  request : ℕ
  /-- `consumer_thread_id` -/
  consumer : Option ℕ
  settling : Bool
  /-- `allowance_slot_reserved` -/
  slot : Bool
deriving DecidableEq

/-- Where an operation is. -/
inductive Stage
  /-- `request_seen`, before its admission -/
  | seenEnter
  | seenRegister
  /-- The intent is registered; the allowances are looked up next. -/
  | seenDecide
  | seenReserve
  /-- No slot is left: only a lookup of the filter is out. -/
  | seenProbe
  /-- `filter.add` is out. -/
  | seenAdd
  /-- The add left no marker of this call: the slot goes back. -/
  | seenRelease (error : Bool)
  /-- The receipt is published, if there is to be one. -/
  | seenPublish (added : Bool)
  /-- `_compensate_interrupted_legacy_add_locked` -/
  | seenCompensate
  /-- `request_seen_with_reservation`, before its admission -/
  | reserveEnter (owner : ℕ)
  | reserveRegister (owner : ℕ)
  /-- A lookup of the filter is out. -/
  | reserveRead (reservation : ℕ)
  | reserveSettle (reservation : ℕ) (seen : Bool)
  /-- `commit_reservation` or `commit_volatile_reservation`, before its admission -/
  | commitEnter (reservation : ℕ) (volatile : Bool)
  /-- `filter.add` is out. -/
  | commitAdd (reservation : ℕ)
  | commitSettle (reservation : ℕ)
  /-- `rollback_reservation`, before its admission -/
  | rollbackEnter (reservation : ℕ)
  | rollbackSettle (reservation : ℕ)
  /-- `forget`, before its first section -/
  | forgetSelect
  | forgetEnter (receipt : ℕ)
  /-- `filter.remove` is out. -/
  | forgetRemove (receipt : ℕ)
  /-- The removal failed: the slot becomes an allowance. -/
  | forgetGrant (receipt : ℕ)
  | forgetSettle (receipt : ℕ)
  /-- The end of the admission. -/
  | leaving (filter : Bool)
  | over
deriving DecidableEq

namespace Stage

/-- The operation is admitted. -/
def admitted : Stage → Bool
  | seenEnter | reserveEnter _ | commitEnter .. | rollbackEnter _ | forgetSelect | forgetEnter _
  | .over => false
  | _ => true

/-- The admission is one for the filter. -/
def filters : Stage → Bool
  | rollbackSettle _ | leaving false => false
  | _ => true

/-- The intent of the call is registered. -/
def registered : Stage → Bool
  | seenDecide | seenReserve | seenProbe | seenAdd | seenRelease _ | seenPublish _
  | seenCompensate => true
  | _ => false

end Stage

/-- A call of an operation. -/
structure Call where
  thread : ℕ
  request : ℕ
  fingerprint : ℕ
  /-- The epoch of the admission. -/
  epoch : ℕ
  /-- The intent is in `_legacy_add_intents`. -/
  live : Bool
  /-- `slot_reserved` of the intent -/
  slot : Bool
  stage : Stage
deriving DecidableEq

/-- The dupefilter. -/
structure State where
  core : Core
  /-- `_retry_allowances` -/
  allowances : Finset ℕ
  /-- `_retry_allowance_slots_reserved` -/
  slots : ℕ
  /-- All reservations. -/
  reservations : List Reservation
  /-- All legacy receipts. -/
  receipts : List Receipt
  /-- `_legacy_reservations`, as receipts in their order -/
  pending : List ℕ
  /-- `_legacy_handoffs`, as receipts in their order -/
  handoffs : List ℕ
  /-- `_legacy_retired_requests` -/
  retired : List ℕ
  calls : List Call
deriving DecidableEq

/-- What the environment contributes to a step of an operation. -/
inductive Event
  | next
  /-- The decision is observational: a callback for this request is out. -/
  | observed
  /-- A local marker says that the request was seen. -/
  | shadowed
  /-- `filter.add` has added the marker. -/
  | added
  /-- `filter.add` has found the marker, was full, or the backend failed. -/
  | notAdded
  /-- The filter does not support the operation. -/
  | unsupported
  /-- A lookup has an answer, or a failure that is taken for a miss. -/
  | answered (seen : Bool)
  /-- `filter.remove` has removed the marker. -/
  | removed
  /-- `filter.remove` raised. -/
  | notRemoved
  /-- Any other exception. -/
  | interrupted
deriving DecidableEq

/-- What can happen. -/
inductive Label
  /-- The lifecycle moves. -/
  | lifecycle (move : Move)
  /-- `request_seen` is called. -/
  | seen (thread request fingerprint : ℕ)
  /-- `request_seen_with_reservation` is called. -/
  | reserve (thread request fingerprint owner : ℕ)
  | commit (thread reservation : ℕ) (volatile : Bool)
  | rollback (thread reservation : ℕ)
  /-- `forget` is called. -/
  | forget (thread request : ℕ)
  /-- An operation goes on. -/
  | act (n : ℕ) (event : Event)
  /-- `consume_reservation` -/
  | consume (thread request : ℕ)
  /-- `settle_reservation` -/
  | settle (thread request : ℕ)
  /-- `rollback_reservation_intent` -/
  | rollbackIntent (owner : ℕ)
  /-- The request of a receipt is collected. -/
  | collect (receipt : ℕ)
deriving DecidableEq

namespace State

def new : State := ⟨.new, ∅, 0, [], [], [], [], [], []⟩

/-! ### The ledger of allowances -/

/-- `_release_retry_allowance_slot_locked` -/
def releaseSlot (s : State) : State := { s with slots := s.slots - 1 }

/-- `_reserve_retry_allowance_slot` -/
def reserveSlot (limit : ℕ) (s : State) : Option State :=
  if limit ≤ s.allowances.card + s.slots then none else some { s with slots := s.slots + 1 }

/-- `_consume_retry_allowance` -/
def consumeAllowance (s : State) (f : ℕ) : Option State :=
  if f ∈ s.allowances then
    some { s with allowances := s.allowances.erase f, slots := s.slots + 1 }
  else none

/-- The receipt no longer has a slot. -/
def clearSlot (s : State) (k : ℕ) : State :=
  { s with receipts := s.receipts.modify k fun r ↦ { r with slot := false } }

/-- `_grant_retry_allowance` -/
def grantAllowance (limit : ℕ) (s : State) (f : ℕ) (reservedSlot : Bool) (receipt : Option ℕ) :
    State :=
  if reservedSlot then
    let s := (receipt.elim s s.clearSlot).releaseSlot
    { s with allowances := insert f s.allowances }
  else if f ∈ s.allowances ∨ limit ≤ s.allowances.card + s.slots then s
  else { s with allowances := insert f s.allowances }

/-- `_clear_retry_allowances`, apart from the epoch -/
def clearRetryAllowances (s : State) : State :=
  { s with
    allowances := ∅
    slots := 0
    reservations := s.reservations.map fun r ↦ { r with active := false }
    pending := []
    handoffs := []
    retired := s.retired ++ (s.pending ++ s.handoffs).filterMap fun k ↦
      s.receipts[k]?.map Receipt.request
    calls := s.calls.map fun c ↦ { c with live := false } }

/-! ### Receipts -/

/-- `_discard_reservation` -/
def discard (s : State) (r : ℕ) : State :=
  { s with reservations := s.reservations.modify r fun x ↦ { x with active := false } }

/-- `_reservation_is_current_locked`, for a reservation -/
def ReservationCurrent (s : State) (r : ℕ) : Prop :=
  ∃ x ∈ s.reservations[r]?, x.epoch = s.core.epoch ∧ x.active

instance (s : State) (r : ℕ) : Decidable (s.ReservationCurrent r) :=
  inferInstanceAs (Decidable (∃ x ∈ s.reservations[r]?, _))

/-- `_reservation_is_current_locked`, for a legacy receipt -/
def ReceiptCurrent (s : State) (k : ℕ) : Prop :=
  (∃ x ∈ s.receipts[k]?, x.epoch = s.core.epoch) ∧ (k ∈ s.pending ∨ k ∈ s.handoffs)

instance (s : State) (k : ℕ) : Decidable (s.ReceiptCurrent k) :=
  inferInstanceAs (Decidable (_ ∧ _))

/-- The receipt has a slot. -/
def hasSlot (s : State) (k : ℕ) : Bool := s.receipts[k]?.any (·.slot)

/-- `_remove_legacy_reservation_locked` and `_legacy_request_collected`, for one receipt -/
def removeReceipt (s : State) (k : ℕ) : State :=
  let t := { s with pending := s.pending.erase k, handoffs := s.handoffs.erase k }
  if s.hasSlot k then (t.clearSlot k).releaseSlot else t

/-- `_legacy_reservation_for_request_locked`, among the pending receipts -/
def selectPending (s : State) (request : ℕ) : Option ℕ :=
  s.pending.find? fun k ↦ s.receipts[k]?.any fun r ↦ r.request = request ∧ ¬ r.settling

/-- `_legacy_reservation_for_request_locked`, among the consumed receipts -/
def selectHandoff (s : State) (request thread : ℕ) : Option ℕ :=
  s.handoffs.find? fun k ↦ s.receipts[k]?.any fun r ↦
    r.request = request ∧ ¬ r.settling ∧ (r.consumer = none ∨ r.consumer = some thread)

/-- The receipt is of this epoch. -/
def OfEpoch (s : State) (k : ℕ) : Prop := ∃ x ∈ s.receipts[k]?, x.epoch = s.core.epoch

instance (s : State) (k : ℕ) : Decidable (s.OfEpoch k) :=
  inferInstanceAs (Decidable (∃ x ∈ s.receipts[k]?, _))

/-- `consume_reservation` -/
def consume (s : State) (thread request : ℕ) : State :=
  match s.selectPending request with
  | none => s
  | some k =>
    if s.OfEpoch k then
      { s with
        pending := s.pending.erase k
        handoffs := s.handoffs ++ [k]
        retired := s.retired.filter (· ≠ request)
        receipts := s.receipts.modify k fun r ↦ { r with consumer := some thread } }
    else s

/-- `settle_reservation` -/
def settle (s : State) (thread request : ℕ) : State :=
  match s.selectHandoff request thread with
  | none => s
  | some k => if s.OfEpoch k then s.removeReceipt k else s

/-- `rollback_reservation_intent` -/
def rollbackIntent (s : State) (owner : ℕ) : State :=
  { s with reservations := s.reservations.map fun r ↦
      if r.owner = owner then { r with active := false } else r }

/-- A request is collected: its receipts leave the tables, with their slots. -/
def collect (s : State) (k : ℕ) : State :=
  if k ∈ s.pending ∨ k ∈ s.handoffs then s.removeReceipt k else s

/-! ### Steps of a call -/

/-- A call goes to another stage. -/
def goto (s : State) (n : ℕ) (c : Call) (stage : Stage) : State :=
  { s with calls := s.calls.set n { c with stage } }

/-- The admission of an operation. -/
def enter (s : State) (n : ℕ) (c : Call) (filter : Bool) (stage : Stage) : State :=
  { s with
    core := { s.core with operations := s.core.operations ++ [⟨c.thread, filter⟩] }
    calls := s.calls.set n { c with epoch := s.core.epoch, stage } }

/-- The end of an admission. -/
def leave (s : State) (n : ℕ) (c : Call) (filter : Bool) : State :=
  { s.goto n c .over with
    core := { s.core with operations := s.core.operations.erase ⟨c.thread, filter⟩ } }

/-- The receipt that compensation takes for the one of the interrupted call. -/
def sibling (s : State) (c : Call) : Bool :=
  (s.selectPending c.request).any fun k ↦
    s.receipts[k]?.any fun r ↦ r.fingerprint = c.fingerprint ∧ r.slot

/-- `_compensate_interrupted_legacy_add_locked` -/
def compensate (limit : ℕ) (s : State) (n : ℕ) (c : Call) : State :=
  let d := { c with live := false, stage := .leaving true }
  let t := { s with calls := s.calls.set n d }
  -- A table that knows the request but not the intent was emptied in the meantime.
  if ¬ c.live ∧ s.calls.any fun b ↦ b.live ∧ b.request = c.request then t
  else if ¬ c.slot ∨ s.sibling c then t
  else t.grantAllowance limit c.fingerprint true none

/-- The publication of a decision, with the receipt of a new marker. -/
def publish (s : State) (n : ℕ) (c : Call) (added : Bool) : State :=
  let t := { s with
    calls := s.calls.set n { c with live := false, slot := false, stage := .leaving true } }
  if added then
    { t with
      receipts := s.receipts ++ [⟨c.fingerprint, s.core.epoch, c.request, none, false, c.slot⟩]
      pending := s.pending ++ [s.receipts.length] }
  else t

/-- The first section of `forget` -/
def selectForget (s : State) (n : ℕ) (c : Call) : State :=
  if s.core.lifecycle = .closed then s.goto n c .over
  else
    let handoff := s.selectHandoff c.request c.thread
    if handoff = none ∧ c.request ∈ s.retired then s.goto n c .over
    else
      match handoff.or (s.selectPending c.request) with
      | none => s.goto n c .over
      | some k =>
        if s.OfEpoch k then
          { s.goto n c (.forgetEnter k) with
            receipts := s.receipts.modify k fun r ↦ { r with settling := true } }
        else s.goto n c .over

/-- The admission of a commit: old receipts are ignored, and outside the admission current ones are
discarded. -/
def enterCommit (s : State) (n : ℕ) (c : Call) (r : ℕ) (volatile : Bool) : State :=
  if ¬ s.ReservationCurrent r then s.goto n c .over
  else if ¬ s.core.lifecycle.admits then (s.discard r).goto n c .over
  else s.enter n c true (if volatile then .commitSettle r else .commitAdd r)

/-- The admission of `forget`. -/
def enterForget (s : State) (n : ℕ) (c : Call) (k : ℕ) : State :=
  if ¬ s.ReceiptCurrent k then s.goto n c .over
  else if ¬ s.core.lifecycle.admits then (s.removeReceipt k).goto n c .over
  else s.enter n c true (.forgetRemove k)

/-- The section that registers a reservation. -/
def register (s : State) (n : ℕ) (c : Call) (owner : ℕ) : State :=
  if s.reservations.any fun r ↦ r.active ∧ r.owner = owner then s.goto n c (.leaving true)
  else
    { s.goto n c (.reserveRead s.reservations.length) with
      reservations := s.reservations ++ [⟨c.fingerprint, c.epoch, owner, true⟩] }

/-- The sections of `request_seen` -/
def actSeen (limit : ℕ) (s : State) (n : ℕ) (c : Call) (event : Event) : Option State :=
  match c.stage, event with
  | .seenEnter, .next =>
    some (if s.core.lifecycle.admits then s.enter n c true .seenRegister else s.goto n c .over)
  | .seenRegister, .next =>
    some { s with calls := s.calls.set n { c with live := true, slot := false, stage := .seenDecide } }
  | .seenRegister, .observed => some (s.goto n c (.leaving true))
  | .seenRegister, .interrupted => some (s.goto n c (.leaving true))
  | .seenDecide, .shadowed => some (s.goto n c (.seenPublish false))
  | .seenDecide, .next =>
    some (match s.consumeAllowance c.fingerprint with
      | some t => t.goto n { c with slot := true } (.seenPublish true)
      | none => s.goto n c .seenReserve)
  | .seenReserve, .next =>
    some (match s.reserveSlot limit with
      | some t => t.goto n { c with slot := true } .seenAdd
      | none => s.goto n c .seenProbe)
  | .seenProbe, .answered _ => some (s.goto n c (.seenPublish false))
  | .seenAdd, .added => some (s.goto n c (.seenPublish true))
  | .seenAdd, .notAdded => some (s.goto n c (.seenRelease false))
  | .seenAdd, .unsupported => some (s.goto n c (.seenRelease true))
  | .seenRelease error, .next =>
    some (s.releaseSlot.goto n { c with slot := false }
      (if error then .seenCompensate else .seenPublish false))
  | .seenPublish added, .next => some (s.publish n c added)
  | .seenCompensate, .next => some (s.compensate limit n c)
  | stage, .interrupted => if stage.registered then some (s.goto n c .seenCompensate) else none
  | _, _ => none

/-- The sections of the other operations -/
def actOther (limit : ℕ) (s : State) (n : ℕ) (c : Call) (event : Event) : Option State :=
  match c.stage, event with
  | .reserveEnter owner, .next =>
    some (if s.core.lifecycle.admits then s.enter n c true (.reserveRegister owner)
      else s.goto n c .over)
  | .reserveRegister owner, .next => some (s.register n c owner)
  | .reserveRegister _, .observed => some (s.goto n c (.leaving true))
  | .reserveRegister _, .interrupted => some (s.goto n c (.leaving true))
  | .reserveRead r, .answered seen => some (s.goto n c (.reserveSettle r seen))
  | .reserveRead r, .interrupted => some (s.goto n c (.reserveSettle r true))
  | .reserveSettle r seen, .next =>
    some ((if seen then s.discard r else s).goto n c (.leaving true))
  | .commitEnter r volatile, .next => some (s.enterCommit n c r volatile)
  | .commitAdd r, .added => some (s.goto n c (.commitSettle r))
  | .commitAdd r, .notAdded => some (s.goto n c (.commitSettle r))
  | .commitAdd r, .interrupted => some (s.goto n c (.commitSettle r))
  | .commitSettle r, .next => some ((s.discard r).goto n c (.leaving true))
  | .rollbackEnter r, .next =>
    some (if s.ReservationCurrent r then s.enter n c false (.rollbackSettle r)
      else s.goto n c .over)
  | .rollbackSettle r, .next => some ((s.discard r).goto n c (.leaving false))
  | .forgetSelect, .next => some (s.selectForget n c)
  | .forgetEnter k, .next => some (s.enterForget n c k)
  | .forgetRemove k, .removed => some (s.goto n c (.forgetSettle k))
  | .forgetRemove k, .notRemoved => some (s.goto n c (.forgetGrant k))
  | .forgetGrant k, .next =>
    some (s.receipts[k]?.elim s fun r ↦
      (s.grantAllowance limit r.fingerprint r.slot (some k)).goto n c (.forgetSettle k))
  | .forgetSettle k, .next => some ((s.removeReceipt k).goto n c (.leaving true))
  | .leaving filter, .next => some (s.leave n c filter)
  | _, _ => none

/-- An open goes on that has cleared the filter. -/
def resets (s : State) : Move → Bool
  | .act n _ => s.core.calls[n]?.any fun c ↦ c.phase = .openReset
  | _ => false

/-- The lifecycle moves; where it retires the epoch, or an open has cleared the filter, the ledger is
emptied. Operations have labels of their own. -/
def moveLifecycle (cfg : Config) (s : State) (move : Move) : Option State :=
  match move with
  | .enter _ => none
  | .leave _ => none
  | _ => (s.core.step cfg move).map fun core ↦
      if core.epoch ≠ s.core.epoch ∨ s.resets move then { s with core }.clearRetryAllowances
      else { s with core }

/-- A new call. -/
def call (s : State) (thread request fingerprint : ℕ) (stage : Stage) : State :=
  { s with calls := s.calls ++ [⟨thread, request, fingerprint, 0, false, false, stage⟩] }

/-- One step, with `limit` for `_retry_allowance_limit`. -/
def step (cfg : Config) (limit : ℕ) (s : State) : Label → Option State
  | .lifecycle move => s.moveLifecycle cfg move
  | .seen thread request fingerprint => some (s.call thread request fingerprint .seenEnter)
  | .reserve thread request fingerprint owner =>
    some (s.call thread request fingerprint (.reserveEnter owner))
  | .commit thread r volatile => some (s.call thread 0 0 (.commitEnter r volatile))
  | .rollback thread r => some (s.call thread 0 0 (.rollbackEnter r))
  | .forget thread request => some (s.call thread request 0 .forgetSelect)
  | .act n event => s.calls[n]?.bind fun c ↦
      match s.actSeen limit n c event with
      | some t => some t
      | none => s.actOther limit n c event
  | .consume thread request => some (s.consume thread request)
  | .settle thread request => some (s.settle thread request)
  | .rollbackIntent owner => some (s.rollbackIntent owner)
  | .collect k => some (s.collect k)

end State

/-- The dupefilter as a machine. -/
def machine (cfg : Config) (limit : ℕ) : Machine State Label where
  init := State.new
  step := State.step cfg limit

/-! ## The epoch of what is under way -/

/-- The call has this admission. -/
def Call.holds (l : Lease) (c : Call) : Bool :=
  c.stage.admitted && l = ⟨c.thread, c.stage.filters⟩

/-- The call has a marker of this reservation added. -/
def Stage.commits (r : ℕ) : Stage → Bool
  | commitAdd r' => r' = r
  | _ => false

/-- The call removes the marker of this receipt, or grants an allowance for it. -/
def Stage.forgets (k : ℕ) : Stage → Bool
  | forgetRemove k' | forgetGrant k' => k' = k
  | _ => false

/-- The call is about to register a reservation. -/
def Stage.registers : Stage → Bool
  | reserveRegister _ => true
  | _ => false

/-- The stage asks for nothing of the epoch. -/
structure Stage.Plain (stage : Stage) : Prop where
  commits : ∀ r, stage.commits r = false
  forgets : ∀ k, stage.forgets k = false
  registers : stage.registers = false

theorem Stage.plain_of_free {stage : Stage} (h : stage.admitted → stage.filters = false) :
    stage.Plain := by
  cases stage <;> simp [Stage.admitted, Stage.filters] at h <;>
    exact ⟨fun _ ↦ rfl, fun _ ↦ rfl, rfl⟩

namespace State

/-- The epochs of all reservations. -/
def reservationEpochs (s : State) : List ℕ := s.reservations.map Reservation.epoch

/-- The epochs of all legacy receipts. -/
def receiptEpochs (s : State) : List ℕ := s.receipts.map Receipt.epoch

/-- Whatever a call does for a receipt, it does in the epoch of the receipt. -/
structure Inv (s : State) : Prop where
  core : s.core.Inv
  leases : ∀ l : Lease, s.core.operations.count l = s.calls.countP (·.holds l)
  commits : ∀ c ∈ s.calls, ∀ r, c.stage.commits r → s.reservationEpochs[r]? = some s.core.epoch
  forgets : ∀ c ∈ s.calls, ∀ k, c.stage.forgets k → s.receiptEpochs[k]? = some s.core.epoch
  registers : ∀ c ∈ s.calls, c.stage.registers → c.epoch = s.core.epoch
  reservations : ∀ e ∈ s.reservationEpochs, e ≤ s.core.epoch
  receipts : ∀ e ∈ s.receiptEpochs, e ≤ s.core.epoch

/-- Receipts are added, and keep their epochs; new ones are of this epoch. -/
structure Grown (s t : State) : Prop where
  reservations : s.reservationEpochs <+: t.reservationEpochs
  receipts : s.receiptEpochs <+: t.receiptEpochs
  new_reservations : ∀ e ∈ t.reservationEpochs, e ∈ s.reservationEpochs ∨ e = s.core.epoch
  new_receipts : ∀ e ∈ t.receiptEpochs, e ∈ s.receiptEpochs ∨ e = s.core.epoch

/-- What a step leads to: the invariant again, with all receipts still there, and no commit that was
let in for a receipt that is not current. -/
structure Follows (s t : State) : Prop where
  inv : t.Inv
  reservations : s.reservationEpochs <+: t.reservationEpochs
  receipts : s.receiptEpochs <+: t.receiptEpochs
  epoch : s.core.epoch ≤ t.core.epoch
  commits : ∀ (n : ℕ) (d : Call) (r : ℕ), t.calls[n]? = some d → d.stage.commits r →
    (∃ c, s.calls[n]? = some c ∧ c.stage.commits r) ∨ s.ReservationCurrent r

variable {cfg : Config} {limit : ℕ} {s t : State} {n : ℕ} {c d : Call}

theorem Inv.follows (h : s.Inv) : s.Follows s :=
  ⟨h, List.prefix_rfl, List.prefix_rfl, le_rfl, fun _ d _ hn hd ↦ .inl ⟨d, hn, hd⟩⟩

theorem Grown.of_eq (hr : t.reservationEpochs = s.reservationEpochs)
    (hk : t.receiptEpochs = s.receiptEpochs) : s.Grown t :=
  ⟨hr ▸ List.prefix_rfl, hk ▸ List.prefix_rfl, fun _ he ↦ .inl (hr ▸ he), fun _ he ↦ .inl (hk ▸ he)⟩

theorem Inv.new : (new).Inv :=
  ⟨.new, fun _ ↦ rfl, fun _ hc ↦ absurd hc List.not_mem_nil, fun _ hc ↦ absurd hc List.not_mem_nil,
    fun _ hc ↦ absurd hc List.not_mem_nil, fun _ hc ↦ absurd hc List.not_mem_nil,
    fun _ hc ↦ absurd hc List.not_mem_nil⟩

theorem ReservationCurrent.epoch {r : ℕ} (h : s.ReservationCurrent r) :
    s.reservationEpochs[r]? = some s.core.epoch := by
  obtain ⟨x, hx, hepoch, -⟩ := h
  rw [reservationEpochs, List.getElem?_map, Option.mem_def.1 hx, Option.map_some, hepoch]

/-- The epoch stays, receipts are added, and the calls are checked one by one. -/
theorem Inv.grow (h : s.Inv) (hcore : t.core.Inv) (hepoch : t.core.epoch = s.core.epoch)
    (hgrown : s.Grown t)
    (hleases : ∀ l : Lease, t.core.operations.count l = t.calls.countP (·.holds l))
    (hcalls : ∀ (m : ℕ) (d : Call), t.calls[m]? = some d →
      (∃ c : Call, s.calls[m]? = some c ∧ d.stage = c.stage ∧ d.epoch = c.epoch) ∨
      ((∀ r, d.stage.commits r → s.ReservationCurrent r) ∧
        (∀ k, d.stage.forgets k → s.receiptEpochs[k]? = some s.core.epoch) ∧
        (d.stage.registers → d.epoch = s.core.epoch))) : s.Follows t := by
  refine ⟨⟨hcore, hleases, fun d hd r hr ↦ ?_, fun d hd k hk ↦ ?_, fun d hd hr ↦ ?_, fun e he ↦ ?_,
    fun e he ↦ ?_⟩, hgrown.reservations, hgrown.receipts, hepoch.ge, fun m d r hm hr ↦ ?_⟩
  · rw [hepoch]
    refine List.getElem?_of_grown hgrown.reservations ?_
    obtain ⟨m, hm⟩ := List.mem_iff_getElem?.1 hd
    rcases hcalls m d hm with ⟨c, hc, hstage, -⟩ | ⟨hd, -, -⟩
    · exact h.commits c (List.mem_of_getElem? hc) r (hstage ▸ hr)
    · exact (hd r hr).epoch
  · rw [hepoch]
    refine List.getElem?_of_grown hgrown.receipts ?_
    obtain ⟨m, hm⟩ := List.mem_iff_getElem?.1 hd
    rcases hcalls m d hm with ⟨c, hc, hstage, -⟩ | ⟨-, hd, -⟩
    · exact h.forgets c (List.mem_of_getElem? hc) k (hstage ▸ hk)
    · exact hd k hk
  · rw [hepoch]
    obtain ⟨m, hm⟩ := List.mem_iff_getElem?.1 hd
    rcases hcalls m d hm with ⟨c, hc, hstage, hsame⟩ | ⟨-, -, hd⟩
    · exact hsame.trans (h.registers c (List.mem_of_getElem? hc) (hstage ▸ hr))
    · exact hd hr
  · rw [hepoch]
    rcases hgrown.new_reservations e he with he | rfl
    · exact h.reservations e he
    · exact le_rfl
  · rw [hepoch]
    rcases hgrown.new_receipts e he with he | rfl
    · exact h.receipts e he
    · exact le_rfl
  · rcases hcalls m d hm with ⟨c, hc, hstage, -⟩ | ⟨hd, -, -⟩
    · exact .inl ⟨c, hc, hstage ▸ hr⟩
    · exact .inr (hd r hr)

/-- A call moves. -/
theorem Inv.update (h : s.Inv) (hn : s.calls[n]? = some c) (hcalls : t.calls = s.calls.set n d)
    (hcore : t.core.Inv) (hepoch : t.core.epoch = s.core.epoch) (hgrown : s.Grown t)
    (hleases : ∀ l : Lease, t.core.operations.count l + (c.holds l).toNat =
      s.core.operations.count l + (d.holds l).toNat)
    (hcommits : ∀ r, d.stage.commits r → s.ReservationCurrent r)
    (hforgets : ∀ k, d.stage.forgets k → s.receiptEpochs[k]? = some s.core.epoch)
    (hregisters : d.stage.registers → d.epoch = s.core.epoch) : s.Follows t := by
  refine h.grow hcore hepoch hgrown (fun l ↦ ?_) fun m b hb ↦ ?_
  · have hcount := List.countP_set_add (fun b : Call ↦ b.holds l) (b := d) hn
    have hc := List.toNat_le_countP (fun b : Call ↦ b.holds l) hn
    have hl := h.leases l
    have := hleases l
    rw [hcalls]
    omega
  · rw [hcalls] at hb
    obtain ⟨rfl, rfl⟩ | ⟨-, hb⟩ := List.getElem?_set_some hb
    · exact .inr ⟨hcommits, hforgets, hregisters⟩
    · exact .inl ⟨b, hb, rfl, rfl⟩

/-- A call moves below its admission, or without one. -/
theorem Inv.move (h : s.Inv) (hn : s.calls[n]? = some c) (hcalls : t.calls = s.calls.set n d)
    (hcore : t.core = s.core) (hgrown : s.Grown t) (hthread : d.thread = c.thread)
    (hadmitted : d.stage.admitted = c.stage.admitted) (hfilters : d.stage.filters = c.stage.filters)
    (hcommits : ∀ r, d.stage.commits r → s.ReservationCurrent r)
    (hforgets : ∀ k, d.stage.forgets k → s.receiptEpochs[k]? = some s.core.epoch)
    (hregisters : d.stage.registers → d.epoch = s.core.epoch) : s.Follows t := by
  refine h.update hn hcalls (hcore ▸ h.core) (by rw [hcore]) hgrown (fun l ↦ ?_) hcommits hforgets
    hregisters
  rw [hcore, Call.holds, Call.holds, hthread, hadmitted, hfilters]

/-- Only the ledger, the tables and the flags of receipts have changed. -/
structure Bookkeeping (s t : State) : Prop where
  core : t.core = s.core
  calls : t.calls = s.calls
  reservations : t.reservationEpochs = s.reservationEpochs
  receipts : t.receiptEpochs = s.receiptEpochs

theorem Bookkeeping.refl (s : State) : s.Bookkeeping s := ⟨rfl, rfl, rfl, rfl⟩

theorem Bookkeeping.trans {u : State} (h : s.Bookkeeping t) (h' : t.Bookkeeping u) :
    s.Bookkeeping u :=
  ⟨h'.core.trans h.core, h'.calls.trans h.calls, h'.reservations.trans h.reservations,
    h'.receipts.trans h.receipts⟩

theorem bookkeeping_discard (s : State) (r : ℕ) : s.Bookkeeping (s.discard r) := by
  refine ⟨rfl, rfl, ?_, rfl⟩
  apply List.map_modify_eq
  exact fun _ ↦ rfl

/-- A change of a receipt that keeps its epoch. -/
theorem receiptEpochs_modify (s : State) (k : ℕ) {g : Receipt → Receipt}
    (h : ∀ r, (g r).epoch = r.epoch) : (s.receipts.modify k g).map Receipt.epoch = s.receiptEpochs :=
  List.map_modify_eq h _ _

theorem bookkeeping_clearSlot (s : State) (k : ℕ) : s.Bookkeeping (s.clearSlot k) := by
  refine ⟨rfl, rfl, rfl, ?_⟩
  apply s.receiptEpochs_modify
  exact fun _ ↦ rfl

theorem bookkeeping_grantAllowance (limit : ℕ) (s : State) (f : ℕ) (reservedSlot : Bool)
    (receipt : Option ℕ) : s.Bookkeeping (s.grantAllowance limit f reservedSlot receipt) := by
  unfold grantAllowance
  split
  · cases receipt with
    | none => exact ⟨rfl, rfl, rfl, rfl⟩
    | some k => exact (s.bookkeeping_clearSlot k).trans ⟨rfl, rfl, rfl, rfl⟩
  · split
    · exact .refl s
    · exact ⟨rfl, rfl, rfl, rfl⟩

theorem bookkeeping_removeReceipt (s : State) (k : ℕ) : s.Bookkeeping (s.removeReceipt k) := by
  unfold removeReceipt
  dsimp only
  split
  · refine ⟨rfl, rfl, rfl, ?_⟩
    apply s.receiptEpochs_modify
    exact fun _ ↦ rfl
  · exact ⟨rfl, rfl, rfl, rfl⟩

theorem bookkeeping_consume (s : State) (thread request : ℕ) :
    s.Bookkeeping (s.consume thread request) := by
  unfold State.consume
  split
  · exact .refl s
  · split
    · refine ⟨rfl, rfl, rfl, ?_⟩
      apply s.receiptEpochs_modify
      exact fun _ ↦ rfl
    · exact .refl s

theorem bookkeeping_settle (s : State) (thread request : ℕ) :
    s.Bookkeeping (s.settle thread request) := by
  unfold State.settle
  split
  · exact .refl s
  · split
    · exact s.bookkeeping_removeReceipt _
    · exact .refl s

theorem bookkeeping_rollbackIntent (s : State) (owner : ℕ) :
    s.Bookkeeping (s.rollbackIntent owner) := by
  refine ⟨rfl, rfl, ?_, rfl⟩
  simp only [State.rollbackIntent, reservationEpochs, List.map_map]
  refine List.map_congr_left fun r _ ↦ ?_
  simp only [Function.comp_apply]
  split <;> rfl

theorem bookkeeping_collect (s : State) (k : ℕ) : s.Bookkeeping (s.collect k) := by
  unfold State.collect
  split
  · exact s.bookkeeping_removeReceipt k
  · exact .refl s

theorem Inv.bookkeeping (h : s.Inv) (hs : s.Bookkeeping t) : s.Follows t := by
  refine h.grow (hs.core ▸ h.core) (by rw [hs.core]) (.of_eq hs.reservations hs.receipts) ?_ ?_
  · rw [hs.core, hs.calls]
    exact h.leases
  · rw [hs.calls]
    exact fun _ d hd ↦ .inl ⟨d, hd, rfl, rfl⟩

/-- A call keeps books and moves on, to a stage that asks for nothing. -/
theorem Inv.pass (h : s.Inv) (hn : s.calls[n]? = some c) (hs : s.Bookkeeping t)
    {stage stage' : Stage} (hc : c.stage = stage) (hadmitted : stage'.admitted = stage.admitted)
    (hfilters : stage'.filters = stage.filters) (hplain : stage'.Plain)
    (hthread : d.thread = c.thread) : s.Follows (t.goto n d stage') := by
  subst hc
  refine h.move hn (congrArg (List.set · n _) hs.calls) hs.core (.of_eq hs.reservations hs.receipts)
    hthread hadmitted hfilters (fun r hr ↦ ?_) (fun k hk ↦ ?_) fun hr ↦ ?_
  · simp [hplain.commits r] at hr
  · simp [hplain.forgets k] at hk
  · simp [hplain.registers] at hr

/-- A call is admitted. -/
theorem Inv.enter (h : s.Inv) (hn : s.calls[n]? = some c) {filter : Bool} {stage : Stage}
    (hlifecycle : s.core.lifecycle.admits ∨ ¬ filter) (hc : c.stage.admitted = false)
    (hadmitted : stage.admitted) (hfilters : stage.filters = filter)
    (hcommits : ∀ r, stage.commits r → s.ReservationCurrent r)
    (hforgets : ∀ k, stage.forgets k → s.receiptEpochs[k]? = some s.core.epoch) :
    s.Follows (s.enter n c filter stage) := by
  have hstep : s.core.step ⟨false, false⟩ (.enter ⟨c.thread, filter⟩) =
      some (s.enter n c filter stage).core := if_pos hlifecycle
  refine h.update hn rfl (h.core.step hstep) rfl (.of_eq rfl rfl) (fun l ↦ ?_) hcommits hforgets
    fun _ ↦ rfl
  simp only [State.enter, Call.holds, hc, hadmitted, hfilters, Bool.false_and, Bool.true_and,
    Bool.toNat_false, List.count_append, List.count_singleton]
  by_cases hl : l = ⟨c.thread, filter⟩
  · simp [hl]
  · simp [hl, Ne.symm hl]

/-- A call gives its admission up. -/
theorem Inv.leave (h : s.Inv) (hn : s.calls[n]? = some c) {filter : Bool}
    (hc : c.stage = .leaving filter) : s.Follows (s.leave n c filter) := by
  have hholds : c.holds ⟨c.thread, filter⟩ := by
    cases filter <;> simp [Call.holds, hc, Stage.admitted, Stage.filters]
  have hcount := List.toNat_le_countP (fun b : Call ↦ b.holds ⟨c.thread, filter⟩) hn
  rw [hholds, Bool.toNat_true, ← h.leases] at hcount
  have hmem : (⟨c.thread, filter⟩ : Lease) ∈ s.core.operations := List.count_pos_iff.1 hcount
  have hstep : s.core.step ⟨false, false⟩ (.leave ⟨c.thread, filter⟩) =
      some (s.leave n c filter).core := if_pos hmem
  refine h.update hn rfl (h.core.step hstep) rfl (.of_eq rfl rfl) (fun l ↦ ?_) nofun nofun nofun
  have hc' : ∀ l, c.holds l = decide (l = ⟨c.thread, filter⟩) := by
    intro l
    cases filter <;> simp [Call.holds, hc, Stage.admitted, Stage.filters]
  rw [hc' l]
  simp only [State.leave, State.goto, Call.holds, Stage.admitted, Bool.false_and, Bool.toNat_false,
    List.count_erase]
  by_cases hl : l = ⟨c.thread, filter⟩
  · subst hl
    simp
    omega
  · simp [hl, Ne.symm hl]

theorem bookkeeping_consumeAllowance {f : ℕ} (h : s.consumeAllowance f = some t) :
    s.Bookkeeping t := by
  obtain ⟨-, ⟨⟩⟩ := Option.ite_none_right_eq_some.1 h
  exact ⟨rfl, rfl, rfl, rfl⟩

theorem bookkeeping_reserveSlot (h : s.reserveSlot limit = some t) : s.Bookkeeping t := by
  obtain ⟨-, ⟨⟩⟩ := Option.ite_none_left_eq_some.1 h
  exact ⟨rfl, rfl, rfl, rfl⟩

theorem Inv.publish (h : s.Inv) (hn : s.calls[n]? = some c) {added : Bool}
    (hc : c.stage = .seenPublish added) : s.Follows (s.publish n c added) := by
  have hadmitted : Stage.admitted (.leaving true) = c.stage.admitted := by simp [hc, Stage.admitted]
  have hfilters : Stage.filters (.leaving true) = c.stage.filters := by simp [hc, Stage.filters]
  unfold State.publish
  dsimp only
  split
  · refine h.move hn rfl rfl ⟨List.prefix_rfl, ?_, fun _ he ↦ .inl he, fun e he ↦ ?_⟩ rfl hadmitted
      hfilters nofun nofun nofun
    · simp [receiptEpochs]
    · simp only [receiptEpochs, List.map_append, List.map_cons, List.map_nil, List.mem_append,
        List.mem_singleton] at he
      exact he
  · exact h.move hn rfl rfl (.of_eq rfl rfl) rfl hadmitted hfilters nofun nofun nofun

theorem Inv.compensate (h : s.Inv) (hn : s.calls[n]? = some c) (hc : c.stage = .seenCompensate) :
    s.Follows (s.compensate limit n c) := by
  have hmove : ∀ t : State, State.Bookkeeping { s with
      calls := s.calls.set n { c with live := false, stage := .leaving true } } t → s.Follows t := by
    intro t ht
    refine h.move hn ht.calls ht.core (.of_eq ht.reservations ht.receipts) rfl ?_ ?_ nofun nofun nofun
    · simp [hc, Stage.admitted]
    · simp [hc, Stage.filters]
  unfold State.compensate
  dsimp only
  split
  · exact hmove _ (.refl _)
  · split
    · exact hmove _ (.refl _)
    · exact hmove _ (bookkeeping_grantAllowance ..)

theorem Inv.register (h : s.Inv) (hn : s.calls[n]? = some c) {owner : ℕ}
    (hc : c.stage = .reserveRegister owner) : s.Follows (s.register n c owner) := by
  have hepoch := h.registers c (List.mem_of_getElem? hn) (by simp [hc, Stage.registers])
  unfold State.register
  split
  · exact h.pass hn (.refl s) hc rfl rfl ⟨fun _ ↦ rfl, fun _ ↦ rfl, rfl⟩ rfl
  · refine h.move hn rfl rfl ⟨?_, List.prefix_rfl, fun e he ↦ ?_, fun _ he ↦ .inl he⟩ rfl
      (by simp [hc, Stage.admitted]) (by simp [hc, Stage.filters]) nofun nofun nofun
    · simp [reservationEpochs]
    · simp only [reservationEpochs, List.map_append, List.map_cons, List.map_nil,
        List.mem_append, List.mem_singleton, hepoch] at he
      exact he

theorem ReceiptCurrent.epoch {k : ℕ} (h : s.ReceiptCurrent k) :
    s.receiptEpochs[k]? = some s.core.epoch := by
  obtain ⟨⟨x, hx, hepoch⟩, -⟩ := h
  rw [receiptEpochs, List.getElem?_map, Option.mem_def.1 hx, Option.map_some, hepoch]

theorem Inv.enterCommit (h : s.Inv) (hn : s.calls[n]? = some c) {r : ℕ} {volatile : Bool}
    (hc : c.stage = .commitEnter r volatile) : s.Follows (s.enterCommit n c r volatile) := by
  unfold State.enterCommit
  split
  · exact h.pass hn (.refl s) hc rfl rfl ⟨fun _ ↦ rfl, fun _ ↦ rfl, rfl⟩ rfl
  rename_i hcurrent
  split
  · exact h.pass hn (s.bookkeeping_discard r) hc rfl rfl ⟨fun _ ↦ rfl, fun _ ↦ rfl, rfl⟩ rfl
  · rename_i hadmits
    refine h.enter hn (.inl (by simpa using hadmits)) (by simp [hc, Stage.admitted]) ?_ ?_ ?_ ?_
    · split <;> rfl
    · split <;> rfl
    · intro r' hr'
      split at hr'
      · simp [Stage.commits] at hr'
      · obtain rfl : r = r' := by simpa [Stage.commits] using hr'
        exact not_not.1 hcurrent
    · intro k hk
      split at hk <;> simp [Stage.forgets] at hk

theorem Inv.enterForget (h : s.Inv) (hn : s.calls[n]? = some c) {k : ℕ}
    (hc : c.stage = .forgetEnter k) : s.Follows (s.enterForget n c k) := by
  unfold State.enterForget
  split
  · exact h.pass hn (.refl s) hc rfl rfl ⟨fun _ ↦ rfl, fun _ ↦ rfl, rfl⟩ rfl
  rename_i hcurrent
  split
  · exact h.pass hn (s.bookkeeping_removeReceipt k) hc rfl rfl ⟨fun _ ↦ rfl, fun _ ↦ rfl, rfl⟩ rfl
  · rename_i hadmits
    refine h.enter hn (.inl (by simpa using hadmits)) (by simp [hc, Stage.admitted]) rfl rfl nofun ?_
    intro k' hk'
    obtain rfl : k = k' := by simpa [Stage.forgets] using hk'
    exact (not_not.1 hcurrent).epoch

theorem Inv.selectForget (h : s.Inv) (hn : s.calls[n]? = some c) (hc : c.stage = .forgetSelect) :
    s.Follows (s.selectForget n c) := by
  have hover : s.Follows (s.goto n c .over) :=
    h.pass hn (.refl s) hc rfl rfl ⟨fun _ ↦ rfl, fun _ ↦ rfl, rfl⟩ rfl
  unfold State.selectForget
  split
  · exact hover
  dsimp only
  split
  · exact hover
  split
  · exact hover
  rename_i k _
  split
  · have hbooks : s.Bookkeeping { s with
        receipts := s.receipts.modify k fun r ↦ { r with settling := true } } := by
      refine ⟨rfl, rfl, rfl, ?_⟩
      apply s.receiptEpochs_modify
      exact fun _ ↦ rfl
    exact h.pass hn hbooks hc rfl rfl ⟨fun _ ↦ rfl, fun _ ↦ rfl, rfl⟩ rfl
  · exact hover

/-- A call moves on without any change of books. -/
theorem Inv.goto (h : s.Inv) (hn : s.calls[n]? = some c) {stage stage' : Stage}
    (hc : c.stage = stage) (hadmitted : stage'.admitted = stage.admitted)
    (hfilters : stage'.filters = stage.filters) (hplain : stage'.Plain) :
    s.Follows (s.goto n c stage') :=
  h.pass hn (.refl s) hc hadmitted hfilters hplain rfl

theorem Inv.actSeen (h : s.Inv) (hn : s.calls[n]? = some c) {event : Event}
    (ht : s.actSeen limit n c event = some t) : s.Follows t := by
  unfold State.actSeen at ht
  split at ht
  · rename_i hc
    obtain ⟨⟩ := ht
    split
    · rename_i hadmits
      exact h.enter hn (.inl hadmits) (by simp [hc, Stage.admitted]) rfl rfl nofun nofun
    · exact h.goto hn hc rfl rfl ⟨fun _ ↦ rfl, fun _ ↦ rfl, rfl⟩
  · rename_i hc
    obtain ⟨⟩ := ht
    exact h.move hn rfl rfl (.of_eq rfl rfl) rfl (by simp [hc, Stage.admitted])
      (by simp [hc, Stage.filters]) nofun nofun nofun
  · rename_i hc
    obtain ⟨⟩ := ht
    exact h.goto hn hc rfl rfl ⟨fun _ ↦ rfl, fun _ ↦ rfl, rfl⟩
  · rename_i hc
    obtain ⟨⟩ := ht
    exact h.goto hn hc rfl rfl ⟨fun _ ↦ rfl, fun _ ↦ rfl, rfl⟩
  · rename_i hc
    obtain ⟨⟩ := ht
    exact h.goto hn hc rfl rfl ⟨fun _ ↦ rfl, fun _ ↦ rfl, rfl⟩
  · rename_i hc
    obtain ⟨⟩ := ht
    split
    · rename_i u hu
      exact h.pass hn (bookkeeping_consumeAllowance hu) hc rfl rfl ⟨fun _ ↦ rfl, fun _ ↦ rfl, rfl⟩ rfl
    · exact h.goto hn hc rfl rfl ⟨fun _ ↦ rfl, fun _ ↦ rfl, rfl⟩
  · rename_i hc
    obtain ⟨⟩ := ht
    split
    · rename_i u hu
      exact h.pass hn (bookkeeping_reserveSlot hu) hc rfl rfl ⟨fun _ ↦ rfl, fun _ ↦ rfl, rfl⟩ rfl
    · exact h.goto hn hc rfl rfl ⟨fun _ ↦ rfl, fun _ ↦ rfl, rfl⟩
  · rename_i hc
    obtain ⟨⟩ := ht
    exact h.goto hn hc rfl rfl ⟨fun _ ↦ rfl, fun _ ↦ rfl, rfl⟩
  · rename_i hc
    obtain ⟨⟩ := ht
    exact h.goto hn hc rfl rfl ⟨fun _ ↦ rfl, fun _ ↦ rfl, rfl⟩
  · rename_i hc
    obtain ⟨⟩ := ht
    exact h.goto hn hc rfl rfl ⟨fun _ ↦ rfl, fun _ ↦ rfl, rfl⟩
  · rename_i hc
    obtain ⟨⟩ := ht
    exact h.goto hn hc rfl rfl ⟨fun _ ↦ rfl, fun _ ↦ rfl, rfl⟩
  · rename_i error hc
    obtain ⟨⟩ := ht
    have hbooks : s.Bookkeeping s.releaseSlot := ⟨rfl, rfl, rfl, rfl⟩
    split
    · exact h.pass hn hbooks hc rfl rfl ⟨fun _ ↦ rfl, fun _ ↦ rfl, rfl⟩ rfl
    · exact h.pass hn hbooks hc rfl rfl ⟨fun _ ↦ rfl, fun _ ↦ rfl, rfl⟩ rfl
  · rename_i added hc
    obtain ⟨⟩ := ht
    exact h.publish hn hc
  · rename_i hc
    obtain ⟨⟩ := ht
    exact h.compensate hn hc
  · -- Interrupted anywhere below the registration.
    obtain ⟨hregistered, ⟨⟩⟩ := Option.ite_none_right_eq_some.1 ht
    refine h.goto hn rfl ?_ ?_ ⟨fun _ ↦ rfl, fun _ ↦ rfl, rfl⟩
    · cases hc : c.stage <;> simp [hc, Stage.registered, Stage.admitted] at hregistered ⊢
    · cases hc : c.stage <;> simp [hc, Stage.registered, Stage.filters] at hregistered ⊢
  · simp at ht

theorem Inv.actOther (h : s.Inv) (hn : s.calls[n]? = some c) {event : Event}
    (ht : s.actOther limit n c event = some t) : s.Follows t := by
  unfold State.actOther at ht
  split at ht
  · rename_i owner hc
    obtain ⟨⟩ := ht
    split
    · rename_i hadmits
      exact h.enter hn (.inl hadmits) (by simp [hc, Stage.admitted]) rfl rfl nofun nofun
    · exact h.goto hn hc rfl rfl ⟨fun _ ↦ rfl, fun _ ↦ rfl, rfl⟩
  · rename_i owner hc
    obtain ⟨⟩ := ht
    exact h.register hn hc
  · rename_i hc
    obtain ⟨⟩ := ht
    exact h.goto hn hc rfl rfl ⟨fun _ ↦ rfl, fun _ ↦ rfl, rfl⟩
  · rename_i hc
    obtain ⟨⟩ := ht
    exact h.goto hn hc rfl rfl ⟨fun _ ↦ rfl, fun _ ↦ rfl, rfl⟩
  · rename_i hc
    obtain ⟨⟩ := ht
    exact h.goto hn hc rfl rfl ⟨fun _ ↦ rfl, fun _ ↦ rfl, rfl⟩
  · rename_i hc
    obtain ⟨⟩ := ht
    exact h.goto hn hc rfl rfl ⟨fun _ ↦ rfl, fun _ ↦ rfl, rfl⟩
  · rename_i r seen hc
    obtain ⟨⟩ := ht
    have hbooks : s.Bookkeeping (if seen then s.discard r else s) := by
      split
      · exact s.bookkeeping_discard r
      · exact .refl s
    exact h.pass hn hbooks hc rfl rfl ⟨fun _ ↦ rfl, fun _ ↦ rfl, rfl⟩ rfl
  · rename_i r volatile hc
    obtain ⟨⟩ := ht
    exact h.enterCommit hn hc
  · rename_i hc
    obtain ⟨⟩ := ht
    exact h.goto hn hc rfl rfl ⟨fun _ ↦ rfl, fun _ ↦ rfl, rfl⟩
  · rename_i hc
    obtain ⟨⟩ := ht
    exact h.goto hn hc rfl rfl ⟨fun _ ↦ rfl, fun _ ↦ rfl, rfl⟩
  · rename_i hc
    obtain ⟨⟩ := ht
    exact h.goto hn hc rfl rfl ⟨fun _ ↦ rfl, fun _ ↦ rfl, rfl⟩
  · rename_i r hc
    obtain ⟨⟩ := ht
    exact h.pass hn (s.bookkeeping_discard r) hc rfl rfl ⟨fun _ ↦ rfl, fun _ ↦ rfl, rfl⟩ rfl
  · rename_i r hc
    obtain ⟨⟩ := ht
    split
    · exact h.enter hn (.inr (by simp)) (by simp [hc, Stage.admitted]) rfl rfl nofun nofun
    · exact h.goto hn hc rfl rfl ⟨fun _ ↦ rfl, fun _ ↦ rfl, rfl⟩
  · rename_i r hc
    obtain ⟨⟩ := ht
    exact h.pass hn (s.bookkeeping_discard r) hc rfl rfl ⟨fun _ ↦ rfl, fun _ ↦ rfl, rfl⟩ rfl
  · rename_i hc
    obtain ⟨⟩ := ht
    exact h.selectForget hn hc
  · rename_i k hc
    obtain ⟨⟩ := ht
    exact h.enterForget hn hc
  · rename_i hc
    obtain ⟨⟩ := ht
    exact h.goto hn hc rfl rfl ⟨fun _ ↦ rfl, fun _ ↦ rfl, rfl⟩
  · rename_i k hc
    obtain ⟨⟩ := ht
    have hepoch := h.forgets c (List.mem_of_getElem? hn) k (by simp [hc, Stage.forgets])
    refine h.move hn rfl rfl (.of_eq rfl rfl) rfl (by simp [hc, Stage.admitted])
      (by simp [hc, Stage.filters]) nofun (fun k' hk' ↦ ?_) nofun
    obtain rfl : k = k' := by simpa [Stage.forgets] using hk'
    exact hepoch
  · rename_i k hc
    obtain ⟨⟩ := ht
    cases hk : s.receipts[k]? with
    | none => exact h.follows
    | some r =>
      exact h.pass hn (bookkeeping_grantAllowance ..) hc rfl rfl ⟨fun _ ↦ rfl, fun _ ↦ rfl, rfl⟩ rfl
  · rename_i k hc
    obtain ⟨⟩ := ht
    exact h.pass hn (s.bookkeeping_removeReceipt k) hc rfl rfl ⟨fun _ ↦ rfl, fun _ ↦ rfl, rfl⟩ rfl
  · rename_i filter hc
    obtain ⟨⟩ := ht
    exact h.leave hn hc
  · simp at ht

/-- Without filter operations nothing is done for a receipt. -/
theorem Inv.plain (h : s.Inv) (hfree : ∀ l ∈ s.core.operations, l.filter = false) (hc : c ∈ s.calls) :
    c.stage.admitted → c.stage.filters = false := by
  intro hadmitted
  have hpos : 0 < s.calls.countP (·.holds ⟨c.thread, c.stage.filters⟩) :=
    List.countP_pos_iff.2 ⟨c, hc, by simp [Call.holds, hadmitted]⟩
  rw [← h.leases] at hpos
  exact hfree _ (List.count_pos_iff.1 hpos)

/-- The epoch is retired, or something else happens to the lifecycle. -/
theorem Inv.advance (h : s.Inv) {core : Core} (hcore : core.Inv)
    (hoperations : core.operations = s.core.operations)
    (hepoch : core.epoch = s.core.epoch ∨
      core.epoch = s.core.epoch + 1 ∧ ∀ l ∈ s.core.operations, l.filter = false) :
    s.Follows { s with core } := by
  rcases hepoch with hepoch | ⟨hepoch, hfree⟩
  · refine h.grow hcore hepoch (.of_eq rfl rfl) ?_ fun _ d hd ↦ .inl ⟨d, hd, rfl, rfl⟩
    rw [hoperations]
    exact h.leases
  · have hle : s.core.epoch ≤ core.epoch := hepoch ▸ Nat.le_succ _
    have hplain : ∀ c ∈ s.calls, c.stage.Plain := fun c hc ↦
      Stage.plain_of_free (h.plain hfree hc)
    refine ⟨⟨hcore, ?_, fun c hc r hr ↦ ?_, fun c hc k hk ↦ ?_, fun c hc hr ↦ ?_, fun e he ↦ ?_,
      fun e he ↦ ?_⟩, List.prefix_rfl, List.prefix_rfl, hle, fun _ d _ hn hd ↦ .inl ⟨d, hn, hd⟩⟩
    · rw [hoperations]
      exact h.leases
    · simp [(hplain c hc).commits r] at hr
    · simp [(hplain c hc).forgets k] at hk
    · simp [(hplain c hc).registers] at hr
    · exact (h.reservations e he).trans hle
    · exact (h.receipts e he).trans hle

/-- The ledger is emptied after a step that let no commit in. -/
theorem Follows.clearRetryAllowances (h : s.Follows t) (hcalls : t.calls = s.calls) :
    s.Follows t.clearRetryAllowances := by
  have hclear : t.Follows t.clearRetryAllowances := by
    refine h.inv.grow h.inv.core rfl (.of_eq ?_ rfl) (fun l ↦ ?_) fun m d hd ↦ ?_
    · simp only [State.clearRetryAllowances, reservationEpochs, List.map_map]
      rfl
    · rw [State.clearRetryAllowances, List.countP_map]
      exact h.inv.leases l
    · rw [State.clearRetryAllowances, List.getElem?_map] at hd
      obtain ⟨c, hc, rfl⟩ := Option.map_eq_some_iff.1 hd
      exact .inl ⟨c, hc, rfl, rfl⟩
  refine ⟨hclear.inv, h.reservations.trans hclear.reservations, h.receipts.trans hclear.receipts,
    h.epoch.trans hclear.epoch, fun m d r hd hr ↦ ?_⟩
  rw [State.clearRetryAllowances, List.getElem?_map, hcalls] at hd
  obtain ⟨c, hc, rfl⟩ := Option.map_eq_some_iff.1 hd
  exact .inl ⟨c, hc, hr⟩

theorem Inv.moveLifecycle (h : s.Inv) {move : Move} (ht : s.moveLifecycle cfg move = some t) :
    s.Follows t := by
  have hlift : ∀ core, s.core.step cfg move = some core → (∀ l, move ≠ .enter l) →
      (∀ l, move ≠ .leave l) → s.Follows { s with core } := by
    intro core hstep henter hleave
    obtain ⟨hoperations, hepoch⟩ := h.core.epoch_step hstep henter hleave
    exact h.advance (h.core.step hstep) hoperations hepoch
  unfold State.moveLifecycle at ht
  split at ht
  · simp at ht
  · simp at ht
  · rename_i henter hleave
    obtain ⟨core, hstep, rfl⟩ := Option.map_eq_some_iff.1 ht
    have hcore := hlift core hstep henter hleave
    split
    · exact hcore.clearRetryAllowances rfl
    · exact hcore

theorem Inv.call (h : s.Inv) (thread request fingerprint : ℕ) {stage : Stage}
    (hadmitted : stage.admitted = false) (hplain : stage.Plain) :
    s.Follows (s.call thread request fingerprint stage) := by
  refine h.grow h.core rfl (.of_eq rfl rfl) (fun l ↦ ?_) fun m d hd ↦ ?_
  · rw [State.call, List.countP_concat, Call.holds, hadmitted]
    simpa using h.leases l
  · obtain ⟨rfl, rfl⟩ | hd := List.getElem?_concat_some hd
    · refine .inr ⟨fun r hr ↦ ?_, fun k hk ↦ ?_, fun hr ↦ ?_⟩
      · simp [hplain.commits r] at hr
      · simp [hplain.forgets k] at hk
      · simp [hplain.registers] at hr
    · exact .inl ⟨d, hd, rfl, rfl⟩

theorem Inv.step (h : s.Inv) {label : Label} (ht : s.step cfg limit label = some t) :
    s.Follows t := by
  cases label with
  | lifecycle move => exact h.moveLifecycle ht
  | seen thread request fingerprint =>
    obtain ⟨⟩ := ht
    exact h.call _ _ _ rfl ⟨fun _ ↦ rfl, fun _ ↦ rfl, rfl⟩
  | reserve thread request fingerprint owner =>
    obtain ⟨⟩ := ht
    exact h.call _ _ _ rfl ⟨fun _ ↦ rfl, fun _ ↦ rfl, rfl⟩
  | commit thread r volatile =>
    obtain ⟨⟩ := ht
    exact h.call _ _ _ rfl ⟨fun _ ↦ rfl, fun _ ↦ rfl, rfl⟩
  | rollback thread r =>
    obtain ⟨⟩ := ht
    exact h.call _ _ _ rfl ⟨fun _ ↦ rfl, fun _ ↦ rfl, rfl⟩
  | forget thread request =>
    obtain ⟨⟩ := ht
    exact h.call _ _ _ rfl ⟨fun _ ↦ rfl, fun _ ↦ rfl, rfl⟩
  | act n event =>
    obtain ⟨c, hn, ht⟩ := Option.bind_eq_some_iff.1 ht
    split at ht
    · rename_i u hu
      obtain ⟨⟩ := ht
      exact h.actSeen hn hu
    · exact h.actOther hn ht
  | consume thread request =>
    obtain ⟨⟩ := ht
    exact h.bookkeeping (s.bookkeeping_consume thread request)
  | settle thread request =>
    obtain ⟨⟩ := ht
    exact h.bookkeeping (s.bookkeeping_settle thread request)
  | rollbackIntent owner =>
    obtain ⟨⟩ := ht
    exact h.bookkeeping (s.bookkeeping_rollbackIntent owner)
  | collect k =>
    obtain ⟨⟩ := ht
    exact h.bookkeeping (s.bookkeeping_collect k)

end State

theorem inv_of_reachable {cfg : Config} {limit : ℕ} {s : State}
    (h : (machine cfg limit).Reachable s) : s.Inv :=
  h.invariant (I := State.Inv) .new fun _ _ _ hs ht ↦ (hs.step ht).inv

/-! ## The fence -/

/-- A run keeps all receipts, with their epochs. -/
theorem State.Inv.run {cfg : Config} {limit : ℕ} {s t : State} (h : s.Inv) {labels : List Label}
    (ht : (machine cfg limit).run s labels = some t) : t.Inv ∧
      s.reservationEpochs <+: t.reservationEpochs ∧ s.receiptEpochs <+: t.receiptEpochs := by
  refine Machine.run_invariant (I := fun t ↦ t.Inv ∧ s.reservationEpochs <+: t.reservationEpochs ∧
    s.receiptEpochs <+: t.receiptEpochs) ?_ ⟨h, List.prefix_rfl, List.prefix_rfl⟩ ht
  rintro u label v ⟨hu, hr, hk⟩ hv
  have hstep := hu.step hv
  exact ⟨hstep.inv, hr.trans hstep.reservations, hk.trans hstep.receipts⟩

/-- What the dupefilter promises about receipts. The epoch is retired by an open and by a close once
they have waited for the admitted operations, and by a clear after the filter was cleared. -/
structure State.Fenced (cfg : Config) (limit : ℕ) (s : State) : Prop where
  /-- A commit adds its marker in the epoch of its receipt. -/
  commits : ∀ c ∈ s.calls, ∀ r, c.stage.commits r →
    ∃ x, s.reservations[r]? = some x ∧ x.epoch = s.core.epoch
  /-- A marker is removed, and an allowance granted, in the epoch of the receipt. -/
  forgets : ∀ c ∈ s.calls, ∀ k, c.stage.forgets k →
    ∃ x, s.receipts[k]? = some x ∧ x.epoch = s.core.epoch
  /-- A commit gets as far as the filter only if its receipt was active and of the current epoch. -/
  admission : ∀ label t, s.step cfg limit label = some t → ∀ (n : ℕ) (d : Call) (r : ℕ),
    t.calls[n]? = some d → d.stage.commits r →
      (∃ c, s.calls[n]? = some c ∧ c.stage.commits r) ∨ s.ReservationCurrent r
  /-- After the epoch was retired, nothing is done for the receipts of before. -/
  retired : ∀ labels t, (machine cfg limit).run s labels = some t → s.core.epoch < t.core.epoch →
    ∀ c ∈ t.calls, (∀ r, c.stage.commits r → s.reservations.length ≤ r) ∧
      ∀ k, c.stage.forgets k → s.receipts.length ≤ k

/-- An entry of the epoch that is retired now is not one of before. -/
theorem State.length_le_of_epoch {l l' : List ℕ} {e e' i : ℕ} (hl : l <+: l') (hle : ∀ x ∈ l, x ≤ e)
    (hlt : e < e') (hi : l'[i]? = some e') : l.length ≤ i := by
  by_contra hlen
  push Not at hlen
  have hmem : l[i] ∈ l := List.getElem_mem hlen
  have hsome := List.getElem?_of_grown hl (List.getElem?_eq_getElem hlen)
  rw [hi] at hsome
  have := hle _ hmem
  rw [← Option.some.inj hsome] at this
  omega

theorem State.Inv.fenced {cfg : Config} {limit : ℕ} {s : State} (h : s.Inv) :
    s.Fenced cfg limit where
  commits c hc r hr := by
    have hepoch := h.commits c hc r hr
    rw [State.reservationEpochs, List.getElem?_map] at hepoch
    exact Option.map_eq_some_iff.1 hepoch
  forgets c hc k hk := by
    have hepoch := h.forgets c hc k hk
    rw [State.receiptEpochs, List.getElem?_map] at hepoch
    exact Option.map_eq_some_iff.1 hepoch
  admission _ _ ht n d r hn hd := (h.step ht).commits n d r hn hd
  retired labels t ht hlt c hc := by
    obtain ⟨hinv, hreservations, hreceipts⟩ := h.run ht
    refine ⟨fun r hr ↦ ?_, fun k hk ↦ ?_⟩
    · have := State.length_le_of_epoch hreservations h.reservations hlt (hinv.commits c hc r hr)
      simpa [State.reservationEpochs] using this
    · have := State.length_le_of_epoch hreceipts h.receipts hlt (hinv.forgets c hc k hk)
      simpa [State.receiptEpochs] using this

/-- **Epoch fence.** A reservation or legacy receipt of before the retirement of the epoch causes no
addition, removal or grant afterwards, and a commit is let in only with an active receipt of the
current epoch. -/
theorem fenced_of_reachable {cfg : Config} {limit : ℕ} {s : State}
    (h : (machine cfg limit).Reachable s) : s.Fenced cfg limit :=
  (inv_of_reachable h).fenced

/-- A reservation, a clear, and a commit that comes late. -/
def lateCommit : List Label :=
  [.reserve 1 0 7 0, .act 0 .next, .act 0 .next, .act 0 (.answered false), .act 0 .next, .act 0 .next,
    .lifecycle (.clear 2), .lifecycle (.act 0 true), .lifecycle (.act 0 true),
    .lifecycle (.act 0 true), .commit 1 0 false, .act 1 .next]

theorem fenced_of_reachable_late :
    ∃ s : State, (machine ⟨false, false⟩ 4).run (machine ⟨false, false⟩ 4).init lateCommit = some s ∧
      s.core.epoch = 1 ∧ s.calls.map (·.stage) = [.over, .over] ∧ s.Fenced ⟨false, false⟩ 4 :=
  ⟨_, rfl, by decide, by decide, fenced_of_reachable ⟨lateCommit, rfl⟩⟩

/-- Two commits of one reservation at a time: both are let in, and the second adds the marker after
the first has settled the reservation. -/
theorem commit_not_always_active :
    ¬ ∀ (cfg : Config) (limit : ℕ) (s : State), (machine cfg limit).Reachable s →
      ∀ c ∈ s.calls, ∀ r, c.stage.commits r → s.ReservationCurrent r := by
  intro h
  have hs := h ⟨false, false⟩ 4 _ ⟨[.reserve 1 0 7 0, .act 0 .next, .act 0 .next,
    .act 0 (.answered false), .act 0 .next, .act 0 .next, .commit 1 0 false, .commit 2 0 false,
    .act 1 .next, .act 2 .next, .act 1 .added, .act 1 .next], rfl⟩
    ⟨2, 0, 0, 0, false, false, .commitAdd 0⟩ (by decide) 0 rfl
  exact absurd hs (by decide)

end Dupefilter

end ScrapyExtension
