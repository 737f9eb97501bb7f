import Mathlib.Tactic
import ScrapyExtension.Machine.Basic
import ScrapyExtension.Machine.Threads

/-!
# Elasticsearch client generations

`ElasticSearchBackend` publishes one client at a time. A connect builds a candidate under the lifecycle lock
and publishes it under the condition; an operation leases what is published, and connects if there is nothing.
A disconnect raises a barrier, waits until there is no lease, detaches the client and closes it. There is one
counter for the leases, and the client stays published while the disconnect waits.

## Steps

A section under the condition is one step, and so is each call of the SDK. A call back from the SDK is a call
like any other, on the same thread. The lifecycle lock can be taken again by the thread that has it, so that it
is not a field: the calls that are inside of it tell who has it. `_lease_local.depth` is how many calls of a
thread are in the bodies of their leases.

## Interruptions

Every call of the code may raise: those of the SDK, the waits, the acquisition of a lock, and `notify_all`.
Where this loses something, the outcome is `lost`: after a lease was counted and before the `try` that gives
it back, in the `finally` of a lease before its section, in the clean-up of a failed connect before its
section, and between the sections of a disconnect.

The clients are numbered as they are built. The generation of a client is named by the client.
-/

namespace ScrapyExtension

namespace Elasticsearch

namespace Generations

/-- Who connects. -/
inductive Purpose
  | connect
  /-- An operation, with its `request_epoch`. -/
  | operation (epoch : ℕ)
deriving DecidableEq

/-- What is done with a candidate. -/
inductive Action
  | ping
  | ensureIndices
  /-- `_build_generation` -/
  | options
  | publish
deriving DecidableEq

/-- Where a call is. -/
inductive Stage
  /-- `connect`, at its first section. -/
  | waiting (p : Purpose)
  /-- Before its second section, which is inside of the lock. -/
  | queued (p : Purpose)
  /-- It owns the startup. -/
  | starting (p : Purpose)
  | building (p : Purpose) (client : ℕ) (rest : List Action)
  /-- It adopts a client that was put into `_client` from outside. -/
  | adopting (p : Purpose) (client : ℕ)
  /-- The handler of a failure, and whether `generation` is set. -/
  | discarding (p : Purpose) (client : ℕ) (made : Bool)
  /-- At `candidate.close` -/
  | abandoning (p : Purpose) (client : ℕ)
  /-- The `finally` of the startup. -/
  | finishing (p : Purpose) (raised : Bool)
  /-- An operation, before it takes the lock. -/
  | requested (epoch : ℕ)
  /-- An operation that has connected. -/
  | resuming (epoch : ℕ)
  /-- In the body of a lease. -/
  | leased (client : ℕ)
  /-- A disconnect, before it takes the lock. -/
  | detaching
  /-- It waits until the leases are gone, with `generation` and `legacy_client`. -/
  | draining (generation legacy : Option ℕ)
  | closing (client : Option ℕ)
  /-- Its `finally`. -/
  | lowering
  | over
deriving DecidableEq

/-- A call. -/
structure Call where
  thread : ℕ
  /-- How many disconnects had begun when the call began. -/
  since : ℕ
  stage : Stage
deriving DecidableEq

namespace Stage

/-- The call is inside of the lifecycle lock. -/
def holds : Stage → Bool
  | waiting (.operation _) | queued (.operation _) | starting _ | building .. | adopting .. | discarding ..
  | abandoning .. | finishing .. | draining .. | closing _ | lowering => true
  | _ => false

/-- A connect that has the client. -/
def connects (i : ℕ) : Stage → Bool
  | building _ c _ | discarding _ c _ | abandoning _ c => c = i
  | _ => false

/-- A disconnect that is to close the client. -/
def disconnects (i : ℕ) : Stage → Bool
  | closing c => c = some i
  | _ => false

def isLeased : Stage → Bool
  | leased _ => true
  | _ => false

/-- A disconnect that has raised the barrier. -/
def barrier : Stage → Bool
  | draining .. | closing _ | lowering => true
  | _ => false

def adopts : Stage → Bool
  | adopting .. => true
  | _ => false

/-- The epoch that an operation goes by. -/
def epoch : Stage → Option ℕ
  | waiting (.operation e) | queued (.operation e) | starting (.operation e) | building (.operation e) _ _
  | adopting (.operation e) _ | discarding (.operation e) _ _ | abandoning (.operation e) _
  | finishing (.operation e) _ | requested e | resuming e => some e
  | _ => none

end Stage

/-- The backend. -/
structure State where
  /-- `_generation` -/
  generation : Option ℕ
  /-- `_client` -/
  client : Option ℕ
  /-- `_lifecycle_epoch` -/
  lifecycleEpoch : ℕ
  connecting : Bool
  connectOwner : Option ℕ
  disconnecting : Bool
  disconnectOwner : Option ℕ
  activeLeases : ℕ
  /-- How many clients were built. -/
  built : ℕ
  /-- How often `close` of a client was called. -/
  closes : ℕ → ℕ
  /-- The epoch in which a client was published. -/
  publishedAt : ℕ → ℕ
  calls : List Call

/-- How a step of a call ends. -/
inductive Outcome
  | ok
  | raised
  /-- `notify_all` raises, behind the assignments of its section. -/
  | notified
  /-- An interruption that loses something. -/
  | lost
deriving DecidableEq

inductive Label
  | connect (thread : ℕ)
  /-- An operation, in `_lease_generation`. -/
  | operation (thread : ℕ) (lost : Bool)
  /-- A health probe, in `_lease_existing_generation`. -/
  | probe (thread : ℕ) (fails lost : Bool)
  | disconnect (thread : ℕ)
  /-- A call goes on. -/
  | act (n : ℕ) (outcome : Outcome)
deriving DecidableEq

namespace State

def new : State := ⟨none, none, 0, false, none, false, none, 0, 0, fun _ ↦ 0, fun _ ↦ 0, []⟩

/-- `_lease_local.depth` -/
def depth (s : State) (thread : ℕ) : ℕ := s.calls.countP fun c ↦ c.thread = thread && c.stage.isLeased

/-- The thread gets the lifecycle lock. -/
def free (s : State) (thread : ℕ) : Bool := s.calls.all fun c ↦ !c.stage.holds || c.thread = thread

def start (s : State) (thread : ℕ) (stage : Stage) : State :=
  { s with calls := s.calls ++ [⟨thread, s.lifecycleEpoch, stage⟩] }

/-- A call goes to another stage. -/
def goto (s : State) (n : ℕ) (c : Call) (stage : Stage) : State :=
  { s with calls := s.calls.set n { c with stage } }

/-- `connect` returns. -/
def returned : Purpose → Stage
  | .connect => .over
  | .operation epoch => .resuming epoch

/-- A lease is counted. -/
def lease (s : State) : State := { s with activeLeases := s.activeLeases + 1 }

/-- The stage of a call whose lease is counted. -/
def afterLease (client : ℕ) (lost : Bool) : Stage := if lost then .over else .leased client

/-- The assignments of the publication. -/
def publish (s : State) (client : ℕ) : State :=
  { s with
    generation := some client
    client := some client
    publishedAt := Function.update s.publishedAt client s.lifecycleEpoch }

/-! ## The beginning of a call -/

/-- The first section of `_lease_generation` -/
def operation (s : State) (thread : ℕ) (lost : Bool) : State :=
  if s.connectOwner = some thread ∧ s.generation = none then s.start thread .over
  else if s.disconnecting then s.start thread .over
  else
    match s.generation with
    | some client => s.lease.start thread (afterLease client lost)
    | none => s.start thread (.requested s.lifecycleEpoch)

/-- The section of `_lease_existing_generation`. A client in `_client` alone is adopted. -/
def probe (s : State) (thread : ℕ) (fails lost : Bool) : State :=
  if s.disconnecting then s.start thread .over
  else
    match s.generation, s.client with
    | some client, _ => s.lease.start thread (afterLease client lost)
    | none, some client =>
      if fails then s.start thread .over
      else (s.lease.publish client).start thread (afterLease client lost)
    | none, none => s.start thread .over

/-- The first checks of `disconnect` -/
def disconnect (s : State) (thread : ℕ) : State :=
  if s.connectOwner = some thread ∨ 0 < s.depth thread then s.start thread .over
  else s.start thread .detaching

/-! ## `connect` -/

/-- The first section, where it does not wait -/
def enter (s : State) (thread : ℕ) (p : Purpose) : Option Stage :=
  if s.connectOwner = some thread ∨ s.disconnectOwner = some thread then some .over
  else if s.disconnecting then
    if 0 < s.depth thread then some .over else none
  else if s.generation.isSome then some (returned p)
  else if s.connecting then none
  else some (.queued p)

/-- The second section. -/
def claim (s : State) (n : ℕ) (c : Call) (p : Purpose) : State :=
  if s.connectOwner = some c.thread then s.goto n c .over
  else if s.generation.isSome then s.goto n c (returned p)
  else if s.disconnecting ∨ s.connecting then s.goto n c .over
  else
    { s with connecting := true, connectOwner := some c.thread }.goto n c
      (match s.client with
      | none => .starting p
      | some client => .adopting p client)

/-- A step with a candidate. -/
def build (s : State) (n : ℕ) (c : Call) (p : Purpose) (client : ℕ) (rest : List Action) (outcome : Outcome) :
    Option State :=
  match rest with
  | [] => none
  | .publish :: _ =>
    if outcome = .raised ∨ outcome = .lost then some (s.goto n c (.discarding p client true))
    else if s.connectOwner ≠ some c.thread ∨ s.connecting = false ∨ s.disconnecting ∨ s.generation.isSome then
      some (s.goto n c (.discarding p client true))
    else some ((s.publish client).goto n c (.finishing p (outcome ≠ .ok)))
  | .ping :: rest | .ensureIndices :: rest | .options :: rest =>
    if outcome = .ok then some (s.goto n c (.building p client rest))
    else some (s.goto n c (.discarding p client false))

/-- `_preserve_published_generation`, and the section of `_abort_failed_connect` -/
def discard (s : State) (n : ℕ) (c : Call) (p : Purpose) (client : ℕ) (made : Bool) (outcome : Outcome) : State :=
  if outcome = .lost then s.goto n c (.finishing p true)
  else if made ∧ s.generation = some client then
    { s with client := some client }.goto n c (.finishing p true)
  else if s.generation = some client then
    { s with generation := none, client := none }.goto n c (.abandoning p client)
  else if s.client = some client then { s with client := none }.goto n c (.abandoning p client)
  else s.goto n c (.abandoning p client)

/-- `candidate.close` -/
def close (s : State) (client : ℕ) : State :=
  { s with closes := Function.update s.closes client (s.closes client + 1) }

/-! ## A call goes on -/

/-- The last section of `_lease_generation` -/
def resume (s : State) (n : ℕ) (c : Call) (epoch : ℕ) (outcome : Outcome) : State :=
  if outcome = .raised ∨ epoch ≠ s.lifecycleEpoch ∨ s.disconnecting then s.goto n c .over
  else
    match s.generation with
    | none => s.goto n c .over
    | some client => s.lease.goto n c (afterLease client (outcome = .lost))

/-- The second section of `disconnect`, up to its wait -/
def raise (s : State) (n : ℕ) (c : Call) : State :=
  if s.disconnectOwner = some c.thread then s.goto n c .over
  else
    { s with
      disconnectOwner := some c.thread
      disconnecting := true
      lifecycleEpoch := s.lifecycleEpoch + 1 }.goto n c (.draining s.generation s.client)

def act (s : State) (n : ℕ) (c : Call) (outcome : Outcome) : Option State :=
  match c.stage with
  | .waiting p =>
    if outcome ≠ .ok then some (s.goto n c .over) else (s.enter c.thread p).map (s.goto n c)
  | .queued p =>
    if outcome ≠ .ok then some (s.goto n c .over)
    else if s.free c.thread then some (s.claim n c p)
    else none
  | .starting p =>
    if outcome = .ok then
      some ({ s with built := s.built + 1 }.goto n c
        (.building p s.built [.ping, .ensureIndices, .options, .publish]))
    else some (s.goto n c (.finishing p true))
  | .building p client rest => s.build n c p client rest outcome
  | .adopting p client =>
    match outcome with
    | .ok => some ((s.publish client).goto n c (.finishing p false))
    | .notified => some ((s.publish client).goto n c (.finishing p true))
    | .raised => some (s.goto n c (.discarding p client false))
    | .lost => some (s.goto n c (.finishing p true))
  | .discarding p client made => some (s.discard n c p client made outcome)
  | .abandoning p client => some ((s.close client).goto n c (.finishing p true))
  | .finishing p raised =>
    if outcome = .raised ∨ outcome = .lost then some (s.goto n c .over)
    else
      some ({ s with connecting := false, connectOwner := none }.goto n c
        (if raised ∨ outcome ≠ Outcome.ok then .over else returned p))
  | .requested epoch =>
    if outcome ≠ .ok then some (s.goto n c .over)
    else if s.free c.thread then
      if epoch ≠ s.lifecycleEpoch ∨ s.disconnecting then some (s.goto n c .over)
      else some (s.goto n c (.waiting (.operation epoch)))
    else none
  | .resuming epoch => some (s.resume n c epoch outcome)
  | .leased _ =>
    if outcome = .lost then some (s.goto n c .over)
    else some ({ s with activeLeases := s.activeLeases - 1 }.goto n c .over)
  | .detaching =>
    if outcome ≠ .ok then some (s.goto n c .over)
    else if s.free c.thread then some (s.raise n c)
    else none
  | .draining generation legacy =>
    -- An interruption of the wait is kept for later.
    if s.activeLeases ≠ 0 then none
    else
      some ({ s with generation := none, client := none }.goto n c
        (if outcome = Outcome.lost then .lowering else .closing (generation.or legacy)))
  | .closing client => some (((client.map s.close).getD s).goto n c .lowering)
  | .lowering =>
    if outcome = .raised ∨ outcome = .lost then some (s.goto n c .over)
    else some ({ s with disconnecting := false, disconnectOwner := none }.goto n c .over)
  | .over => none

def step (s : State) : Label → Option State
  | .connect thread => some (s.start thread (.waiting .connect))
  | .operation thread lost => some (s.operation thread lost)
  | .probe thread fails lost => some (s.probe thread fails lost)
  | .disconnect thread => some (s.disconnect thread)
  | .act n outcome => do
    let c ← s.calls[n]?
    s.act n c outcome

end State

def machine : Machine State Label where
  init := .new
  step := State.step

/-! ## Clients -/

variable {s : State} {n : ℕ} {c : Call} {stage : Stage}

/-- The client is published. -/
def published (generation : Option ℕ) (i : ℕ) : ℕ := if generation = some i then 1 else 0

/-- The client was built. -/
def known (built i : ℕ) : ℕ := if i < built then 1 else 0

theorem countP_goto (p : Stage → Bool) (hn : s.calls[n]? = some c) (stage : Stage) :
    (s.calls.set n { c with stage }).countP (fun c ↦ p c.stage) + (p c.stage).toNat =
      s.calls.countP (fun c ↦ p c.stage) + (p stage).toNat :=
  List.countP_set_add (b := { c with stage }) (fun c : Call ↦ p c.stage) hn

/-- A client is at one place. -/
structure Placed (s : State) : Prop where
  mirror : s.client = s.generation
  once : ∀ i, published s.generation i + s.calls.countP (fun c ↦ c.stage.connects i) +
    s.calls.countP (fun c ↦ c.stage.disconnects i) + s.closes i = known s.built i
  adopts : ∀ c ∈ s.calls, c.stage.adopts = false

namespace Placed

theorem new : Placed .new := ⟨rfl, fun _ ↦ rfl, nofun⟩

theorem start (h : Placed s) (thread : ℕ) (hconnects : ∀ i, stage.connects i = false)
    (hdisconnects : ∀ i, stage.disconnects i = false) (hadopts : stage.adopts = false) :
    Placed (s.start thread stage) where
  mirror := h.mirror
  once i := by
    have := h.once i
    dsimp only [State.start]
    rw [List.countP_concat, List.countP_concat, hconnects, hdisconnects]
    exact this
  adopts c' hc' := by
    rcases List.mem_append.mp hc' with hc' | hc'
    · exact h.adopts c' hc'
    · rw [List.mem_singleton.mp hc']
      exact hadopts

/-- A call goes on, and what it gives up is somewhere else. -/
theorem move (h : Placed s) (hn : s.calls[n]? = some c) {t : State} (hcalls : t.calls = s.calls.set n { c with stage })
    (hmirror : t.client = t.generation) (hadopts : stage.adopts = false)
    (hbalance : ∀ i, published t.generation i + (stage.connects i).toNat + (stage.disconnects i).toNat + t.closes i +
      known s.built i = published s.generation i + (c.stage.connects i).toNat + (c.stage.disconnects i).toNat +
      s.closes i + known t.built i) : Placed t where
  mirror := hmirror
  once i := by
    have hconnects := countP_goto (Stage.connects i) hn stage
    have hdisconnects := countP_goto (Stage.disconnects i) hn stage
    have hold := h.once i
    have := hbalance i
    rw [hcalls]
    omega
  adopts := hcalls ▸ List.forall_mem_set h.adopts hadopts

/-- The client stays where it is. -/
theorem goto (h : Placed s) (hn : s.calls[n]? = some c) (hconnects : ∀ i, stage.connects i = c.stage.connects i)
    (hdisconnects : ∀ i, stage.disconnects i = c.stage.disconnects i) (hadopts : stage.adopts = false) :
    Placed (s.goto n c stage) :=
  h.move hn rfl h.mirror hadopts fun i ↦ by
    rw [hconnects, hdisconnects]
    rfl

/-- A connect has a client that is not published. -/
theorem ne_of_connects (h : Placed s) {i : ℕ} (hn : s.calls[n]? = some c) (hc : c.stage.connects i = true) :
    s.generation ≠ some i := by
  intro hgeneration
  have hle := List.toNat_le_countP (fun c : Call ↦ c.stage.connects i) hn
  have hold := h.once i
  rw [published, if_pos hgeneration] at hold
  rw [hc, Bool.toNat_true] at hle
  have hknown : known s.built i ≤ 1 := by
    rw [known]
    split <;> omega
  omega

/-- A candidate is built. -/
theorem construct (h : Placed s) (hn : s.calls[n]? = some c) {p : Purpose} (hstage : c.stage = .starting p)
    (rest : List Action) : Placed ({ s with built := s.built + 1 }.goto n c (.building p s.built rest)) := by
  refine h.move hn rfl h.mirror rfl fun i ↦ ?_
  rw [hstage]
  dsimp only [State.goto, Stage.connects, Stage.disconnects, known]
  rcases lt_trichotomy i s.built with hi | rfl | hi
  · simp [hi, hi.ne', Nat.lt_succ_of_lt hi]
  · simp
    omega
  · simp [hi.le.not_gt, hi.ne, (Nat.succ_le_of_lt hi).not_gt]

/-- It is published. -/
theorem publish (h : Placed s) (hn : s.calls[n]? = some c) {p : Purpose} {client : ℕ} {rest : List Action}
    (hstage : c.stage = .building p client rest) (hnone : s.generation = none) (raised : Bool) :
    Placed ((s.publish client).goto n c (.finishing p raised)) := by
  refine h.move hn rfl rfl rfl fun i ↦ ?_
  rw [hstage, hnone]
  dsimp only [State.goto, State.publish, Stage.connects, Stage.disconnects, published]
  by_cases hi : client = i
  · simp [hi]
  · simp [hi]

/-- The candidate of a failed connect is closed. -/
theorem abandon (h : Placed s) (hn : s.calls[n]? = some c) {p : Purpose} {client : ℕ}
    (hstage : c.stage = .abandoning p client) : Placed ((s.close client).goto n c (.finishing p true)) := by
  refine h.move hn rfl h.mirror rfl fun i ↦ ?_
  rw [hstage]
  dsimp only [State.goto, State.close, Stage.connects, Stage.disconnects]
  by_cases hi : client = i
  · subst hi
    rw [Function.update_self]
    simp
    omega
  · rw [Function.update_of_ne (Ne.symm hi)]
    simp [hi]

/-- A disconnect takes what is published. -/
theorem detach (h : Placed s) (hn : s.calls[n]? = some c) {generation legacy : Option ℕ}
    (hstage : c.stage = .draining generation legacy) (hgeneration : generation = s.generation)
    (hlegacy : legacy = s.client) :
    Placed ({ s with generation := none, client := none }.goto n c (.closing (generation.or legacy))) := by
  refine h.move hn rfl rfl rfl fun i ↦ ?_
  have hor : generation.or legacy = s.generation := by
    rw [hgeneration, hlegacy, h.mirror, Option.or_self]
  rw [hstage, hor]
  dsimp only [State.goto, Stage.connects, Stage.disconnects, published]
  by_cases hi : s.generation = some i
  · simp [hi]
  · simp [hi]

/-- A disconnect closes it. -/
theorem close (h : Placed s) (hn : s.calls[n]? = some c) {client : Option ℕ} (hstage : c.stage = .closing client) :
    Placed (((client.map s.close).getD s).goto n c .lowering) := by
  cases client with
  | none => exact h.goto hn (fun i ↦ by rw [hstage]; rfl) (fun i ↦ by rw [hstage]; rfl) rfl
  | some client =>
    refine h.move hn rfl h.mirror rfl fun i ↦ ?_
    rw [hstage]
    dsimp only [State.goto, State.close, Stage.connects, Stage.disconnects, Option.map_some, Option.getD_some]
    by_cases hi : client = i
    · subst hi
      rw [Function.update_self]
      simp
      omega
    · rw [Function.update_of_ne (Ne.symm hi)]
      simp [hi]

end Placed

/-! ## The lock and the barrier -/

/-- One disconnect at a time has raised the barrier, and nothing is published or detached meanwhile. -/
structure Locks (s : State) : Prop where
  lock : ∀ c ∈ s.calls, ∀ c' ∈ s.calls, c.stage.holds = true → c'.stage.holds = true → c.thread = c'.thread
  barrier : ∀ c ∈ s.calls, c.stage.barrier = true → s.disconnecting = true ∧ s.disconnectOwner = some c.thread
  single : s.calls.countP (fun c ↦ c.stage.barrier) ≤ 1
  draining : ∀ c ∈ s.calls, ∀ generation legacy, c.stage = .draining generation legacy →
    generation = s.generation ∧ legacy = s.client

theorem Stage.holds_of_barrier {stage : Stage} (h : stage.barrier = true) : stage.holds = true := by
  cases stage <;> first | rfl | cases h

theorem free_iff {thread : ℕ} :
    s.free thread = true ↔ ∀ c ∈ s.calls, c.stage.holds = true → c.thread = thread := by
  rw [State.free, List.all_eq_true]
  refine forall₂_congr fun c _ ↦ ?_
  cases c.stage.holds <;> simp

namespace Locks

theorem new : Locks .new := ⟨nofun, nofun, Nat.zero_le 1, nofun⟩

/-- A call that begins is outside of the lock. -/
theorem start (h : Locks s) (thread : ℕ) (hholds : stage.holds = false) : Locks (s.start thread stage) := by
  have hbarrier : stage.barrier = false := by
    by_contra hne
    rw [Stage.holds_of_barrier (by simpa using hne)] at hholds
    cases hholds
  have hmem : ∀ c ∈ (s.start thread stage).calls, c.stage.holds = true → c ∈ s.calls := by
    intro c hc hc'
    rcases List.mem_append.mp hc with hc | hc
    · exact hc
    · rw [List.mem_singleton.mp hc, hholds] at hc'
      cases hc'
  refine ⟨fun c hc c' hc' hh hh' ↦ h.lock c (hmem c hc hh) c' (hmem c' hc' hh') hh hh',
    fun c hc hb ↦ h.barrier c (hmem c hc (Stage.holds_of_barrier hb)) hb, ?_, fun c hc generation legacy hstage ↦ ?_⟩
  · dsimp only [State.start]
    rw [List.countP_concat, hbarrier]
    exact h.single
  · exact h.draining c (hmem c hc (by rw [hstage]; rfl)) generation legacy hstage

/-- The lock is taken by a thread that gets it. -/
theorem lock_set (h : Locks s) (hn : s.calls[n]? = some c)
    (hholds : stage.holds = true → c.stage.holds = true ∨ s.free c.thread = true) :
    ∀ c₁ ∈ s.calls.set n { c with stage }, ∀ c₂ ∈ s.calls.set n { c with stage }, c₁.stage.holds = true →
      c₂.stage.holds = true → c₁.thread = c₂.thread := by
  have hthread : ∀ c' ∈ s.calls, c'.stage.holds = true → stage.holds = true → c'.thread = c.thread := by
    intro c' hc' hh hstage
    rcases hholds hstage with hc | hfree
    · exact h.lock c' hc' c (List.mem_of_getElem? hn) hh hc
    · exact free_iff.mp hfree c' hc' hh
  intro c₁ h₁ c₂ h₂ hh₁ hh₂
  rcases List.mem_or_eq_of_mem_set h₁ with h₁ | rfl <;> rcases List.mem_or_eq_of_mem_set h₂ with h₂ | rfl
  · exact h.lock c₁ h₁ c₂ h₂ hh₁ hh₂
  · exact hthread c₁ h₁ hh₁ hh₂
  · exact (hthread c₂ h₂ hh₂ hh₁).symm
  · rfl

/-- A call goes on below the barrier, or behind it as before. -/
theorem goto (h : Locks s) (hn : s.calls[n]? = some c)
    (hholds : stage.holds = true → c.stage.holds = true ∨ s.free c.thread = true)
    (hbarrier : stage.barrier = true → c.stage.barrier = true)
    (hdraining : ∀ generation legacy, stage ≠ .draining generation legacy) : Locks (s.goto n c stage) where
  lock := h.lock_set hn hholds
  barrier := List.forall_mem_set h.barrier fun hb ↦ h.barrier c (List.mem_of_getElem? hn) (hbarrier hb)
  single := by
    have hcount := countP_goto Stage.barrier hn stage
    have hle : (stage.barrier).toNat ≤ (c.stage.barrier).toNat := by
      cases hstage : stage.barrier with
      | false => exact Nat.zero_le _
      | true => rw [hbarrier hstage]
    have := h.single
    dsimp only [State.goto]
    omega
  draining := List.forall_mem_set h.draining fun generation legacy hstage ↦ absurd hstage (hdraining generation legacy)

/-- Without a barrier nobody is behind it. -/
theorem not_barrier (h : Locks s) (hdown : s.disconnecting = false) (hc : c ∈ s.calls) : c.stage.barrier = false := by
  by_contra hb
  have hup := (h.barrier c hc (by simpa using hb)).1
  rw [hdown] at hup
  cases hup

/-- Something is published where there is no barrier. -/
theorem publish (h : Locks s) (hdown : s.disconnecting = false) (client : ℕ) : Locks (s.publish client) where
  lock := h.lock
  barrier := h.barrier
  single := h.single
  draining c hc generation legacy hstage := by
    have hb := h.not_barrier hdown hc
    rw [hstage] at hb
    cases hb

/-- The barrier is raised. -/
theorem raise (h : Locks s) (hn : s.calls[n]? = some c) (hfree : s.free c.thread = true)
    (howner : s.disconnectOwner ≠ some c.thread) (epoch : ℕ) :
    Locks ({ s with disconnectOwner := some c.thread, disconnecting := true, lifecycleEpoch := epoch }.goto n c
      (.draining s.generation s.client)) := by
  -- A disconnect behind the barrier would be one of the same thread.
  have hnone : ∀ c' ∈ s.calls, c'.stage.barrier = false := by
    intro c' hc'
    by_contra hb
    have hb : c'.stage.barrier = true := by simpa using hb
    refine howner ?_
    rw [← free_iff.mp hfree c' hc' (Stage.holds_of_barrier hb)]
    exact (h.barrier c' hc' hb).2
  refine ⟨h.lock_set hn fun _ ↦ .inr hfree, List.forall_mem_set (fun c' hc' hb ↦ ?_) fun _ ↦ ⟨rfl, rfl⟩, ?_,
    List.forall_mem_set (fun c' hc' generation legacy hstage ↦ ?_) fun generation legacy hstage ↦ ?_⟩
  · rw [hnone c' hc'] at hb
    cases hb
  · have hcount := countP_goto Stage.barrier hn (.draining s.generation s.client)
    have hzero : s.calls.countP (fun c ↦ c.stage.barrier) = 0 := by
      rw [List.countP_eq_zero]
      intro c' hc'
      rw [hnone c' hc']
      exact Bool.false_ne_true
    have hone : (Stage.draining s.generation s.client).barrier.toNat = 1 := rfl
    dsimp only [State.goto]
    omega
  · have hb := hnone c' hc'
    rw [hstage] at hb
    cases hb
  · cases hstage
    exact ⟨rfl, rfl⟩

/-- The disconnect behind the barrier is alone there. -/
theorem alone (h : Locks s) (hn : s.calls[n]? = some c) (hc : c.stage.barrier = true) {stage : Stage}
    (hstage : stage.barrier = false) : ∀ c' ∈ s.calls.set n { c with stage }, c'.stage.barrier = false := by
  intro c' hc'
  by_contra hb
  obtain ⟨j, hj⟩ := List.mem_iff_getElem?.mp hc'
  rcases List.getElem?_set_some hj with ⟨-, rfl⟩ | ⟨hjn, hj⟩
  · exact hb hstage
  · exact hjn (List.eq_of_countP_le_one _ h.single hj hn (by simpa using hb) hc)

/-- It detaches what is published. -/
theorem detach (h : Locks s) (hn : s.calls[n]? = some c) (hc : c.stage.barrier = true)
    (hdraining : ∀ generation legacy, stage ≠ .draining generation legacy) :
    Locks ({ s with generation := none, client := none }.goto n c stage) := by
  have hholds' : c.stage.holds = true := Stage.holds_of_barrier hc
  have hgoto : Locks (s.goto n c stage) := h.goto hn (fun _ ↦ .inl hholds') (fun _ ↦ hc) hdraining
  refine ⟨hgoto.lock, hgoto.barrier, hgoto.single, fun c' hc' generation legacy hstage ↦ ?_⟩
  obtain ⟨j, hj⟩ := List.mem_iff_getElem?.mp hc'
  rcases List.getElem?_set_some hj with ⟨-, rfl⟩ | ⟨hjn, hj⟩
  · exact absurd hstage (hdraining generation legacy)
  · refine absurd (List.eq_of_countP_le_one _ h.single hj hn ?_ hc) hjn
    rw [hstage]
    rfl

/-- The barrier is lowered. -/
theorem lower (h : Locks s) (hn : s.calls[n]? = some c) (hc : c.stage.barrier = true) :
    Locks ({ s with disconnecting := false, disconnectOwner := none }.goto n c .over) := by
  have hgoto : Locks (s.goto n c .over) := h.goto hn nofun nofun nofun
  have halone : ∀ c' ∈ s.calls.set n { c with stage := .over }, c'.stage.barrier = false := h.alone hn hc rfl
  refine ⟨hgoto.lock, fun c' hc' hb ↦ ?_, hgoto.single, hgoto.draining⟩
  rw [halone c' hc'] at hb
  cases hb

end Locks

/-! ## Leases -/

/-- A lease is one of the published client, which was published before the call began. -/
structure Leases (s : State) : Prop where
  leased : ∀ c ∈ s.calls, ∀ i, c.stage = .leased i → s.generation = some i ∧ s.publishedAt i ≤ c.since
  epoch : ∀ c ∈ s.calls, ∀ e, c.stage.epoch = some e → e = c.since
  published : ∀ i, s.generation = some i → s.publishedAt i ≤ s.lifecycleEpoch
  count : s.activeLeases = s.calls.countP fun c ↦ c.stage.isLeased

namespace Leases

theorem new : Leases .new := ⟨nofun, nofun, nofun, rfl⟩

theorem start (h : Leases s) (thread : ℕ) (hleased : stage.isLeased = false)
    (hepoch : ∀ e, stage.epoch = some e → e = s.lifecycleEpoch) : Leases (s.start thread stage) where
  leased c hc i hstage := by
    rcases List.mem_append.mp hc with hc | hc
    · exact h.leased c hc i hstage
    · rw [List.mem_singleton.mp hc] at hstage
      dsimp only at hstage
      rw [hstage] at hleased
      cases hleased
  epoch c hc e he := by
    rcases List.mem_append.mp hc with hc | hc
    · exact h.epoch c hc e he
    · rw [List.mem_singleton.mp hc] at he ⊢
      exact hepoch e he
  published := h.published
  count := by
    dsimp only [State.start]
    rw [List.countP_concat, hleased]
    exact h.count

/-- A call that begins with a lease. -/
theorem startLeased (h : Leases s) (thread : ℕ) {client : ℕ} (hclient : s.generation = some client) :
    Leases (s.lease.start thread (.leased client)) where
  leased c hc i hstage := by
    rcases List.mem_append.mp hc with hc | hc
    · exact h.leased c hc i hstage
    · rw [List.mem_singleton.mp hc] at hstage ⊢
      obtain rfl := Stage.leased.inj hstage
      exact ⟨hclient, h.published client hclient⟩
  epoch c hc e he := by
    rcases List.mem_append.mp hc with hc | hc
    · exact h.epoch c hc e he
    · rw [List.mem_singleton.mp hc] at he
      cases he
  published := h.published
  count := by
    dsimp only [State.start, State.lease]
    rw [List.countP_concat, h.count]
    rfl

/-- A call goes on without a lease. -/
theorem goto (h : Leases s) (hn : s.calls[n]? = some c) (hold : c.stage.isLeased = false)
    (hleased : stage.isLeased = false) (hepoch : ∀ e, stage.epoch = some e → c.stage.epoch = some e) :
    Leases (s.goto n c stage) where
  leased := List.forall_mem_set h.leased fun i hstage ↦ by
    dsimp only at hstage
    rw [hstage] at hleased
    cases hleased
  epoch := List.forall_mem_set h.epoch fun e he ↦ h.epoch c (List.mem_of_getElem? hn) e (hepoch e he)
  published := h.published
  count := by
    have hcount := countP_goto Stage.isLeased hn stage
    rw [hold, hleased] at hcount
    exact h.count.trans hcount.symm

/-- Where nothing is published there is no lease. -/
theorem not_leased (h : Leases s) (hnone : s.generation = none) : ∀ c ∈ s.calls, ∀ i, c.stage ≠ .leased i := by
  intro c hc i hstage
  have := (h.leased c hc i hstage).1
  rw [hnone] at this
  cases this

theorem publish (h : Leases s) (hnone : s.generation = none) (client : ℕ) : Leases (s.publish client) where
  leased c hc i hstage := absurd hstage (h.not_leased hnone c hc i)
  epoch := h.epoch
  published i hi := by
    obtain rfl := Option.some.inj hi
    dsimp only [State.publish]
    rw [Function.update_self]
  count := h.count

/-- An operation leases what it has connected to, or found. -/
theorem resume (h : Leases s) (hn : s.calls[n]? = some c) (hstage : c.stage = .resuming s.lifecycleEpoch)
    {client : ℕ} (hclient : s.generation = some client) : Leases (s.lease.goto n c (.leased client)) where
  leased := List.forall_mem_set h.leased fun i hi ↦ by
    obtain rfl := Stage.leased.inj hi
    refine ⟨hclient, ?_⟩
    have hsince := h.epoch c (List.mem_of_getElem? hn) s.lifecycleEpoch (by rw [hstage]; rfl)
    exact (h.published client hclient).trans_eq hsince
  epoch := List.forall_mem_set h.epoch nofun
  published := h.published
  count := by
    have hcount := countP_goto Stage.isLeased hn (.leased client)
    rw [hstage] at hcount
    have := h.count
    dsimp only [State.goto, State.lease]
    simp only [Stage.isLeased, Bool.toNat_true, Bool.toNat_false] at hcount this ⊢
    omega

/-- A lease is given back. -/
theorem release (h : Leases s) (hn : s.calls[n]? = some c) {client : ℕ} (hstage : c.stage = .leased client) :
    Leases ({ s with activeLeases := s.activeLeases - 1 }.goto n c .over) where
  leased := List.forall_mem_set h.leased nofun
  epoch := List.forall_mem_set h.epoch nofun
  published := h.published
  count := by
    have hcount := countP_goto Stage.isLeased hn .over
    rw [hstage] at hcount
    have := h.count
    dsimp only [State.goto]
    simp only [Stage.isLeased, Bool.toNat_true, Bool.toNat_false] at hcount this ⊢
    omega

/-- A disconnect detaches what nobody leases. -/
theorem detach (h : Leases s) (hnone : s.activeLeases = 0) (client : Option ℕ) :
    Leases { s with generation := none, client } where
  leased c hc i hstage := by
    have hzero := h.count.symm.trans hnone
    rw [List.countP_eq_zero] at hzero
    exact absurd (by rw [hstage]; rfl) (hzero c hc)
  epoch := h.epoch
  published := nofun
  count := h.count

end Leases

/-! ## Runs -/

structure Inv (s : State) : Prop where
  placed : Placed s
  locks : Locks s
  leases : Leases s

/-- An interruption in this stage loses nothing. -/
def Stage.tolerant : Stage → Bool
  | leased _ | resuming _ | adopting .. | discarding .. | draining .. => false
  | _ => true

/-- Nothing is lost. -/
def covered (s : State) : Label → Prop
  | .operation _ lost | .probe _ _ lost => lost = false
  | .act n outcome => outcome = .lost → ∀ c, s.calls[n]? = some c → c.stage.tolerant = true
  | .connect _ | .disconnect _ => True

namespace Inv

variable {t : State} {outcome : Outcome} {p : Purpose}

theorem new : Inv .new := ⟨.new, .new, .new⟩

/-- Fields that nobody looks at. -/
theorem setConnect (h : Inv s) (connecting : Bool) (connectOwner : Option ℕ) :
    Inv { s with connecting, connectOwner } :=
  ⟨⟨h.placed.mirror, h.placed.once, h.placed.adopts⟩,
    ⟨h.locks.lock, h.locks.barrier, h.locks.single, h.locks.draining⟩,
    ⟨h.leases.leased, h.leases.epoch, h.leases.published, h.leases.count⟩⟩

/-- A call begins. -/
theorem start (h : Inv s) (thread : ℕ) (hconnects : ∀ i, stage.connects i = false)
    (hdisconnects : ∀ i, stage.disconnects i = false) (hadopts : stage.adopts = false)
    (hholds : stage.holds = false) (hleased : stage.isLeased = false)
    (hepoch : ∀ e, stage.epoch = some e → e = s.lifecycleEpoch) : Inv (s.start thread stage) :=
  ⟨h.placed.start thread hconnects hdisconnects hadopts, h.locks.start thread hholds,
    h.leases.start thread hleased hepoch⟩

theorem startOver (h : Inv s) (thread : ℕ) : Inv (s.start thread .over) :=
  h.start thread (fun _ ↦ rfl) (fun _ ↦ rfl) rfl rfl rfl nofun

theorem startLeased (h : Inv s) (thread : ℕ) {client : ℕ} (hclient : s.generation = some client) :
    Inv (s.lease.start thread (.leased client)) := by
  have hplaced : Placed (s.start thread (.leased client)) := h.placed.start thread (fun _ ↦ rfl) (fun _ ↦ rfl) rfl
  have hlocks : Locks (s.start thread (.leased client)) := h.locks.start thread rfl
  exact ⟨⟨hplaced.mirror, hplaced.once, hplaced.adopts⟩,
    ⟨hlocks.lock, hlocks.barrier, hlocks.single, hlocks.draining⟩, h.leases.startLeased thread hclient⟩

theorem operation (h : Inv s) (thread : ℕ) : Inv (s.operation thread false) := by
  unfold State.operation
  split
  · exact h.startOver thread
  split
  · exact h.startOver thread
  split
  · next client hclient => exact h.startLeased thread hclient
  · exact h.start thread (fun _ ↦ rfl) (fun _ ↦ rfl) rfl rfl rfl fun e he ↦ (Option.some.inj he).symm

theorem probe (h : Inv s) (thread : ℕ) (fails : Bool) : Inv (s.probe thread fails false) := by
  unfold State.probe
  split
  · exact h.startOver thread
  split
  · next client _ hclient => exact h.startLeased thread hclient
  · next client hnone hclient =>
    -- `_client` is never set alone.
    rw [h.placed.mirror, hnone] at hclient
    cases hclient
  · exact h.startOver thread

theorem disconnect (h : Inv s) (thread : ℕ) : Inv (s.disconnect thread) := by
  unfold State.disconnect
  split
  · exact h.startOver thread
  · exact h.start thread (fun _ ↦ rfl) (fun _ ↦ rfl) rfl rfl rfl nofun

/-- A call goes on, with the same client. -/
theorem goto (h : Inv s) (hn : s.calls[n]? = some c) (hconnects : ∀ i, stage.connects i = c.stage.connects i)
    (hdisconnects : ∀ i, stage.disconnects i = c.stage.disconnects i) (hadopts : stage.adopts = false)
    (hholds : stage.holds = true → c.stage.holds = true ∨ s.free c.thread = true) (hbarrier : stage.barrier = false)
    (hold : c.stage.isLeased = false) (hleased : stage.isLeased = false)
    (hepoch : ∀ e, stage.epoch = some e → c.stage.epoch = some e) : Inv (s.goto n c stage) where
  placed := h.placed.goto hn hconnects hdisconnects hadopts
  locks := h.locks.goto hn hholds (by rw [hbarrier]; exact nofun) fun _ _ hstage ↦ by
    rw [hstage] at hbarrier
    cases hbarrier
  leases := h.leases.goto hn hold hleased hepoch

/-- A call without a client ends. -/
theorem ended (h : Inv s) (hn : s.calls[n]? = some c) (hconnects : ∀ i, c.stage.connects i = false)
    (hdisconnects : ∀ i, c.stage.disconnects i = false) (hold : c.stage.isLeased = false) :
    Inv (s.goto n c .over) :=
  h.goto hn (fun i ↦ (hconnects i).symm) (fun i ↦ (hdisconnects i).symm) rfl nofun rfl hold rfl nofun

/-- `connect` returns. -/
theorem returned (h : Inv s) (hn : s.calls[n]? = some c) (hconnects : ∀ i, c.stage.connects i = false)
    (hdisconnects : ∀ i, c.stage.disconnects i = false) (hold : c.stage.isLeased = false)
    (hepoch : ∀ e, p = .operation e → c.stage.epoch = some e) : Inv (s.goto n c (State.returned p)) := by
  cases p with
  | connect => exact h.ended hn hconnects hdisconnects hold
  | operation e =>
    refine h.goto hn (fun i ↦ (hconnects i).symm) (fun i ↦ (hdisconnects i).symm) rfl nofun rfl hold rfl fun e' he ↦ ?_
    rw [hepoch e rfl]
    exact he

theorem claim (h : Inv s) (hn : s.calls[n]? = some c) (hstage : c.stage = .queued p)
    (hfree : s.free c.thread = true) : Inv (s.claim n c p) := by
  have hconnects : ∀ i, c.stage.connects i = false := fun i ↦ by rw [hstage]; rfl
  have hdisconnects : ∀ i, c.stage.disconnects i = false := fun i ↦ by rw [hstage]; rfl
  have hold : c.stage.isLeased = false := by rw [hstage]; rfl
  have hepoch : ∀ e, p = .operation e → c.stage.epoch = some e := by
    rintro e rfl
    rw [hstage]
    rfl
  unfold State.claim
  split
  · exact h.ended hn hconnects hdisconnects hold
  split
  · exact h.returned hn hconnects hdisconnects hold hepoch
  next hnone =>
  split
  · exact h.ended hn hconnects hdisconnects hold
  · have hclient : s.client = none := h.placed.mirror.trans (by simpa using hnone)
    split
    · refine (h.setConnect true (some c.thread)).goto hn (fun i ↦ (hconnects i).symm)
        (fun i ↦ (hdisconnects i).symm) rfl (fun _ ↦ .inr hfree) rfl hold rfl fun e he ↦ ?_
      cases p with
      | connect => cases he
      | operation e' => exact hepoch e (congrArg Purpose.operation (Option.some.inj he))
    · next client hadopted =>
      rw [hclient] at hadopted
      cases hadopted

/-- The client of a connect is handled. -/
theorem build (h : Inv s) (hn : s.calls[n]? = some c) {client : ℕ} {rest : List Action}
    (hstage : c.stage = .building p client rest) (ht : s.build n c p client rest outcome = some t) : Inv t := by
  -- The connect keeps its client.
  have hkeep : ∀ stage : Stage, (∀ i, stage.connects i = decide (client = i)) → (∀ i, stage.disconnects i = false) →
      stage.adopts = false → stage.barrier = false → stage.isLeased = false →
      (∀ e, stage.epoch = some e → Stage.epoch (.building p client rest) = some e) → Inv (s.goto n c stage) := by
    intro stage hconnects hdisconnects hadopts hbarrier hleased hepoch
    refine h.goto hn (fun i ↦ ?_) (fun i ↦ ?_) hadopts (fun _ ↦ .inl ?_) hbarrier ?_ hleased (hstage ▸ hepoch)
    · rw [hconnects, hstage]
      rfl
    · rw [hdisconnects, hstage]
      rfl
    · rw [hstage]
      rfl
    · rw [hstage]
      rfl
  have hdiscard : ∀ made, Inv (s.goto n c (.discarding p client made)) := by
    intro made
    refine hkeep _ (fun _ ↦ rfl) (fun _ ↦ rfl) rfl rfl rfl fun e he ↦ ?_
    cases p with
    | connect => cases he
    | operation e' => exact he
  unfold State.build at ht
  split at ht
  · cases ht
  · split at ht
    · obtain rfl := Option.some.inj ht
      exact hdiscard true
    split at ht
    · obtain rfl := Option.some.inj ht
      exact hdiscard true
    next hcheck =>
    obtain rfl := Option.some.inj ht
    rw [not_or, not_or, not_or] at hcheck
    obtain ⟨-, -, hdown, hgeneration⟩ := hcheck
    have hdown : s.disconnecting = false := by simpa using hdown
    have hnone : s.generation = none := by simpa using hgeneration
    refine ⟨h.placed.publish hn hstage hnone _, ?_, ?_⟩
    · refine (h.locks.publish hdown client).goto hn (fun _ ↦ .inl ?_) nofun nofun
      rw [hstage]
      rfl
    · refine (h.leases.publish hnone client).goto hn ?_ rfl fun e he ↦ ?_
      · rw [hstage]
        rfl
      · rw [hstage]
        cases p with
        | connect => cases he
        | operation e' => exact he
  all_goals
    split at ht
    · obtain rfl := Option.some.inj ht
      refine hkeep _ (fun _ ↦ rfl) (fun _ ↦ rfl) rfl rfl rfl fun e he ↦ ?_
      cases p with
      | connect => cases he
      | operation e' => exact he
    · obtain rfl := Option.some.inj ht
      exact hdiscard false

end Inv

namespace Inv

variable {t : State} {outcome : Outcome} {p : Purpose}

/-- The handler of a failed connect. -/
theorem discard (h : Inv s) (hn : s.calls[n]? = some c) {client : ℕ} {made : Bool}
    (hstage : c.stage = .discarding p client made) (hlost : outcome ≠ .lost) :
    Inv (s.discard n c p client made outcome) := by
  have hne : s.generation ≠ some client := h.placed.ne_of_connects hn (by rw [hstage]; exact decide_eq_true rfl)
  unfold State.discard
  rw [if_neg hlost, if_neg fun hmade ↦ hne hmade.2, if_neg hne, if_neg (by rw [h.placed.mirror]; exact hne)]
  refine h.goto hn (fun i ↦ by rw [hstage]; rfl) (fun i ↦ by rw [hstage]; rfl) rfl (fun _ ↦ .inl ?_) rfl ?_ rfl
    fun e he ↦ ?_
  · rw [hstage]
    rfl
  · rw [hstage]
    rfl
  · rw [hstage]
    cases p with
    | connect => cases he
    | operation e' => exact he

/-- Its candidate is closed. -/
theorem abandon (h : Inv s) (hn : s.calls[n]? = some c) {client : ℕ} (hstage : c.stage = .abandoning p client) :
    Inv ((s.close client).goto n c (.finishing p true)) := by
  have hlocks : Locks (s.goto n c (.finishing p true)) :=
    h.locks.goto hn (fun _ ↦ .inl (by rw [hstage]; rfl)) nofun nofun
  have hleases : Leases (s.goto n c (.finishing p true)) := h.leases.goto hn (by rw [hstage]; rfl) rfl fun e he ↦ by
    rw [hstage]
    cases p with
    | connect => cases he
    | operation e' => exact he
  exact ⟨h.placed.abandon hn hstage, ⟨hlocks.lock, hlocks.barrier, hlocks.single, hlocks.draining⟩,
    ⟨hleases.leased, hleases.epoch, hleases.published, hleases.count⟩⟩

/-- An operation goes on after its connect. -/
theorem resume (h : Inv s) (hn : s.calls[n]? = some c) {epoch : ℕ} (hstage : c.stage = .resuming epoch)
    (hlost : outcome ≠ .lost) : Inv (s.resume n c epoch outcome) := by
  have hended : Inv (s.goto n c .over) :=
    h.ended hn (fun i ↦ by rw [hstage]; rfl) (fun i ↦ by rw [hstage]; rfl) (by rw [hstage]; rfl)
  unfold State.resume
  split
  · exact hended
  next hcheck =>
  rw [not_or, not_or, not_not] at hcheck
  split
  · exact hended
  · next client hclient =>
    have hafter : State.afterLease client (decide (outcome = .lost)) = .leased client := by
      rw [decide_eq_false hlost]
      rfl
    rw [hafter]
    have hplaced : Placed (s.goto n c (.leased client)) := h.placed.goto hn (fun i ↦ by rw [hstage]; rfl)
      (fun i ↦ by rw [hstage]; rfl) rfl
    have hlocks : Locks (s.goto n c (.leased client)) := h.locks.goto hn nofun nofun nofun
    exact ⟨⟨hplaced.mirror, hplaced.once, hplaced.adopts⟩,
      ⟨hlocks.lock, hlocks.barrier, hlocks.single, hlocks.draining⟩,
      h.leases.resume hn (hcheck.2.1 ▸ hstage) hclient⟩

theorem release (h : Inv s) (hn : s.calls[n]? = some c) {client : ℕ} (hstage : c.stage = .leased client) :
    Inv ({ s with activeLeases := s.activeLeases - 1 }.goto n c .over) := by
  have hplaced : Placed (s.goto n c .over) :=
    h.placed.goto hn (fun i ↦ by rw [hstage]; rfl) (fun i ↦ by rw [hstage]; rfl) rfl
  have hlocks : Locks (s.goto n c .over) := h.locks.goto hn nofun nofun nofun
  exact ⟨⟨hplaced.mirror, hplaced.once, hplaced.adopts⟩,
    ⟨hlocks.lock, hlocks.barrier, hlocks.single, hlocks.draining⟩, h.leases.release hn hstage⟩

/-- A disconnect raises the barrier. -/
theorem raise (h : Inv s) (hn : s.calls[n]? = some c) (hstage : c.stage = .detaching)
    (hfree : s.free c.thread = true) : Inv (s.raise n c) := by
  unfold State.raise
  split
  · exact h.ended hn (fun i ↦ by rw [hstage]; rfl) (fun i ↦ by rw [hstage]; rfl) (by rw [hstage]; rfl)
  next howner =>
  have hplaced : Placed (s.goto n c (.draining s.generation s.client)) :=
    h.placed.goto hn (fun i ↦ by rw [hstage]; rfl)
    (fun i ↦ by rw [hstage]; rfl) rfl
  have hleases : Leases (s.goto n c (.draining s.generation s.client)) :=
    h.leases.goto hn (by rw [hstage]; rfl) rfl nofun
  refine ⟨⟨hplaced.mirror, hplaced.once, hplaced.adopts⟩, h.locks.raise hn hfree howner _,
    ⟨hleases.leased, hleases.epoch, fun i hi ↦ ?_, hleases.count⟩⟩
  exact (h.leases.published i hi).trans (Nat.le_succ _)

/-- It detaches the client. -/
theorem detach (h : Inv s) (hn : s.calls[n]? = some c) {generation legacy : Option ℕ}
    (hstage : c.stage = .draining generation legacy) (hnone : s.activeLeases = 0) :
    Inv ({ s with generation := none, client := none }.goto n c (.closing (generation.or legacy))) := by
  obtain ⟨hgeneration, hlegacy⟩ := h.locks.draining c (List.mem_of_getElem? hn) generation legacy hstage
  have hbarrier : c.stage.barrier = true := by rw [hstage]; rfl
  exact ⟨h.placed.detach hn hstage hgeneration hlegacy, h.locks.detach hn hbarrier nofun,
    (h.leases.detach hnone none).goto hn (by rw [hstage]; rfl) rfl nofun⟩

/-- It closes it. -/
theorem close (h : Inv s) (hn : s.calls[n]? = some c) {client : Option ℕ} (hstage : c.stage = .closing client) :
    Inv (((client.map s.close).getD s).goto n c .lowering) := by
  have hlocks : Locks (s.goto n c .lowering) := h.locks.goto hn (fun _ ↦ .inl (by rw [hstage]; rfl))
    (fun _ ↦ by rw [hstage]; rfl) nofun
  have hleases : Leases (s.goto n c .lowering) := h.leases.goto hn (by rw [hstage]; rfl) rfl nofun
  refine ⟨h.placed.close hn hstage, ?_, ?_⟩
  · cases client with
    | none => exact hlocks
    | some client => exact ⟨hlocks.lock, hlocks.barrier, hlocks.single, hlocks.draining⟩
  · cases client with
    | none => exact hleases
    | some client => exact ⟨hleases.leased, hleases.epoch, hleases.published, hleases.count⟩

/-- It lowers the barrier. -/
theorem lower (h : Inv s) (hn : s.calls[n]? = some c) (hstage : c.stage = .lowering) :
    Inv ({ s with disconnecting := false, disconnectOwner := none }.goto n c .over) := by
  have hended := h.ended hn (fun i ↦ by rw [hstage]; rfl) (fun i ↦ by rw [hstage]; rfl) (by rw [hstage]; rfl)
  exact ⟨⟨hended.placed.mirror, hended.placed.once, hended.placed.adopts⟩, h.locks.lower hn (by rw [hstage]; rfl),
    ⟨hended.leases.leased, hended.leases.epoch, hended.leases.published, hended.leases.count⟩⟩

/-- The first section of `connect` leads on. -/
theorem enter (h : Inv s) (hn : s.calls[n]? = some c) (hstage : c.stage = .waiting p)
    (hnext : s.enter c.thread p = some stage) : Inv (s.goto n c stage) := by
  have hended : Inv (s.goto n c .over) :=
    h.ended hn (fun i ↦ by rw [hstage]; rfl) (fun i ↦ by rw [hstage]; rfl) (by rw [hstage]; rfl)
  unfold State.enter at hnext
  split at hnext
  · obtain rfl := Option.some.inj hnext
    exact hended
  split at hnext
  · split at hnext
    · obtain rfl := Option.some.inj hnext
      exact hended
    · cases hnext
  split at hnext
  · obtain rfl := Option.some.inj hnext
    refine h.returned hn (fun i ↦ by rw [hstage]; rfl) (fun i ↦ by rw [hstage]; rfl) (by rw [hstage]; rfl) ?_
    rintro e rfl
    rw [hstage]
    rfl
  split at hnext
  · cases hnext
  · obtain rfl := Option.some.inj hnext
    refine h.goto hn (fun i ↦ by rw [hstage]; rfl) (fun i ↦ by rw [hstage]; rfl) rfl (fun hh ↦ .inl ?_) rfl
      (by rw [hstage]; rfl) rfl fun e he ↦ ?_
    · rw [hstage]
      cases p with
      | connect => cases hh
      | operation e => rfl
    · rw [hstage]
      cases p with
      | connect => cases he
      | operation e' => exact he

theorem act (h : Inv s) (hn : s.calls[n]? = some c) (hcovered : outcome = .lost → c.stage.tolerant = true)
    (ht : s.act n c outcome = some t) : Inv t := by
  -- A call that has no client may end at any time.
  have hended : (∀ i, c.stage.connects i = false) → (∀ i, c.stage.disconnects i = false) →
      c.stage.isLeased = false → Inv (s.goto n c .over) := h.ended hn
  unfold State.act at ht
  cases hstage : c.stage with
  | waiting p =>
    rw [hstage] at ht hended
    dsimp only at ht
    split at ht
    · obtain rfl := Option.some.inj ht
      exact hended (fun _ ↦ rfl) (fun _ ↦ rfl) rfl
    · obtain ⟨stage, hnext, rfl⟩ := Option.map_eq_some_iff.mp ht
      exact h.enter hn hstage hnext
  | queued p =>
    rw [hstage] at ht hended
    dsimp only at ht
    split at ht
    · obtain rfl := Option.some.inj ht
      exact hended (fun _ ↦ rfl) (fun _ ↦ rfl) rfl
    split at ht
    · next hfree =>
      obtain rfl := Option.some.inj ht
      exact h.claim hn hstage hfree
    · cases ht
  | starting p =>
    rw [hstage] at ht
    dsimp only at ht
    have hholds : c.stage.holds = true := by rw [hstage]; rfl
    have hepoch : ∀ e, Stage.epoch (.finishing p true) = some e → c.stage.epoch = some e := by
      intro e he
      rw [hstage]
      cases p with
      | connect => cases he
      | operation e' => exact he
    split at ht
    · obtain rfl := Option.some.inj ht
      have hlocks : Locks (s.goto n c (.building p s.built [.ping, .ensureIndices, .options, .publish])) :=
        h.locks.goto hn
        (fun _ ↦ .inl hholds) nofun nofun
      have hleases : Leases (s.goto n c (.building p s.built [.ping, .ensureIndices, .options, .publish])) :=
        h.leases.goto hn
        (by rw [hstage]; rfl) rfl fun e he ↦ hepoch e (by cases p <;> exact he)
      exact ⟨h.placed.construct hn hstage _, ⟨hlocks.lock, hlocks.barrier, hlocks.single, hlocks.draining⟩,
        ⟨hleases.leased, hleases.epoch, hleases.published, hleases.count⟩⟩
    · obtain rfl := Option.some.inj ht
      exact h.goto hn (fun i ↦ by rw [hstage]; rfl) (fun i ↦ by rw [hstage]; rfl) rfl (fun _ ↦ .inl hholds) rfl
        (by rw [hstage]; rfl) rfl hepoch
  | building p client rest =>
    rw [hstage] at ht
    exact h.build hn hstage ht
  | adopting p client =>
    have hadopts := h.placed.adopts c (List.mem_of_getElem? hn)
    rw [hstage] at hadopts
    cases hadopts
  | discarding p client made =>
    rw [hstage] at ht hcovered
    obtain rfl := Option.some.inj ht
    exact h.discard hn hstage fun hlost ↦ Bool.false_ne_true (hcovered hlost)
  | abandoning p client =>
    rw [hstage] at ht
    obtain rfl := Option.some.inj ht
    exact h.abandon hn hstage
  | finishing p raised =>
    rw [hstage] at ht hended
    dsimp only at ht
    split at ht
    · obtain rfl := Option.some.inj ht
      exact hended (fun _ ↦ rfl) (fun _ ↦ rfl) rfl
    · obtain rfl := Option.some.inj ht
      have hlowered := h.setConnect false none
      split
      · exact hlowered.ended hn (fun i ↦ by rw [hstage]; rfl) (fun i ↦ by rw [hstage]; rfl) (by rw [hstage]; rfl)
      · refine hlowered.returned hn (fun i ↦ by rw [hstage]; rfl) (fun i ↦ by rw [hstage]; rfl) (by rw [hstage]; rfl) ?_
        rintro e rfl
        rw [hstage]
        rfl
  | requested epoch =>
    rw [hstage] at ht hended
    dsimp only at ht
    split at ht
    · obtain rfl := Option.some.inj ht
      exact hended (fun _ ↦ rfl) (fun _ ↦ rfl) rfl
    split at ht
    · next hfree =>
      split at ht
      · obtain rfl := Option.some.inj ht
        exact hended (fun _ ↦ rfl) (fun _ ↦ rfl) rfl
      · obtain rfl := Option.some.inj ht
        exact h.goto hn (fun i ↦ by rw [hstage]; rfl) (fun i ↦ by rw [hstage]; rfl) rfl (fun _ ↦ .inr hfree) rfl
          (by rw [hstage]; rfl) rfl fun e he ↦ by rw [hstage]; exact he
    · cases ht
  | resuming epoch =>
    rw [hstage] at ht hcovered
    obtain rfl := Option.some.inj ht
    exact h.resume hn hstage fun hlost ↦ Bool.false_ne_true (hcovered hlost)
  | leased client =>
    rw [hstage] at ht hcovered
    dsimp only at ht
    split at ht
    · next hlost => exact absurd (hcovered hlost) Bool.false_ne_true
    · obtain rfl := Option.some.inj ht
      exact h.release hn hstage
  | detaching =>
    rw [hstage] at ht hended
    dsimp only at ht
    split at ht
    · obtain rfl := Option.some.inj ht
      exact hended (fun _ ↦ rfl) (fun _ ↦ rfl) rfl
    split at ht
    · next hfree =>
      obtain rfl := Option.some.inj ht
      exact h.raise hn hstage hfree
    · cases ht
  | draining generation legacy =>
    rw [hstage] at ht hcovered
    dsimp only at ht
    split at ht
    · cases ht
    · next hnone =>
      rw [not_not] at hnone
      obtain rfl := Option.some.inj ht
      rw [if_neg fun hlost ↦ Bool.false_ne_true (hcovered hlost)]
      exact h.detach hn hstage hnone
  | closing client =>
    rw [hstage] at ht
    obtain rfl := Option.some.inj ht
    exact h.close hn hstage
  | lowering =>
    rw [hstage] at ht hended
    dsimp only at ht
    split at ht
    · obtain rfl := Option.some.inj ht
      exact hended (fun _ ↦ rfl) (fun _ ↦ rfl) rfl
    · obtain rfl := Option.some.inj ht
      exact h.lower hn hstage
  | _ =>
    rw [hstage] at ht
    cases ht

theorem step (h : Inv s) {a : Label} (hcovered : covered s a) (ht : s.step a = some t) : Inv t := by
  cases a with
  | connect thread =>
    obtain rfl := Option.some.inj ht
    exact h.start thread (fun _ ↦ rfl) (fun _ ↦ rfl) rfl rfl rfl nofun
  | operation thread lost =>
    obtain rfl : lost = false := hcovered
    obtain rfl := Option.some.inj ht
    exact h.operation thread
  | probe thread fails lost =>
    obtain rfl : lost = false := hcovered
    obtain rfl := Option.some.inj ht
    exact h.probe thread fails
  | disconnect thread =>
    obtain rfl := Option.some.inj ht
    exact h.disconnect thread
  | act n outcome =>
    obtain ⟨c, hn, ht⟩ := Option.bind_eq_some_iff.mp ht
    exact h.act hn (fun hlost ↦ hcovered hlost c hn) ht

end Inv

/-! ## Client generations -/

/-- What holds of the clients and of their leases. -/
structure Sound (s : State) : Prop where
  /-- A client is published, in a connect, in a disconnect that is to close it, or closed once. -/
  placed : ∀ i < s.built, published s.generation i + s.calls.countP (fun c ↦ c.stage.connects i) +
    s.calls.countP (fun c ↦ c.stage.disconnects i) + s.closes i = 1
  leased : ∀ c ∈ s.calls, ∀ i, c.stage = .leased i → s.generation = some i ∧ s.closes i = 0
  /-- No disconnect has begun between the call and the publication of the client that it leases. -/
  since : ∀ c ∈ s.calls, ∀ i, c.stage = .leased i → s.publishedAt i ≤ c.since
  count : s.activeLeases = s.calls.countP fun c ↦ c.stage.isLeased

theorem Inv.sound (h : Inv s) : Sound s where
  placed i hi := by
    have honce := h.placed.once i
    rwa [known, if_pos hi] at honce
  leased c hc i hstage := by
    have hgeneration := (h.leases.leased c hc i hstage).1
    refine ⟨hgeneration, ?_⟩
    have honce := h.placed.once i
    rw [published, if_pos hgeneration, known] at honce
    split at honce <;> omega
  since c hc i hstage := (h.leases.leased c hc i hstage).2
  count := h.leases.count

/-- In every state of a run in which nothing is lost. -/
theorem client_generations {labels : List Label} (h : machine.Along covered .new labels) :
    machine.Always Sound .new labels :=
  Machine.Always.mono (fun _ ↦ Inv.sound)
    (h.always (fun _ _ _ hs hcovered ht ↦ hs.step hcovered ht) Inv.new)

instance (s : State) : DecidablePred (covered s)
  | .act n outcome =>
    decidable_of_iff (outcome = .lost → (s.calls[n]?).all (fun c ↦ c.stage.tolerant) = true) (by
      show _ ↔ (outcome = .lost → ∀ c, s.calls[n]? = some c → c.stage.tolerant = true)
      cases s.calls[n]? <;> simp)
  | .operation _ lost => inferInstanceAs (Decidable (lost = false))
  | .probe _ _ lost => inferInstanceAs (Decidable (lost = false))
  | .connect _ => inferInstanceAs (Decidable True)
  | .disconnect _ => inferInstanceAs (Decidable True)

def goesOn (n : ℕ) (k : ℕ) : List Label := List.replicate k (.act n .ok)

/-- A connect, and a disconnect up to the close. -/
def detached : List Label := .connect 0 :: goesOn 0 8 ++ .disconnect 1 :: goesOn 1 2

/-- An operation whose release is interrupted. -/
def interrupted : List Label := .connect 0 :: goesOn 0 8 ++ [.operation 0 false, .act 1 .lost]

/-- An operation that connects, a disconnect that waits for it, and a failed connect. -/
def drained : List Label :=
  .operation 0 false :: goesOn 0 10 ++ .disconnect 1 :: goesOn 1 1 ++ [.probe 2 false false, .act 0 .ok] ++ goesOn 1 3 ++
    .connect 0 :: goesOn 3 3 ++ [.act 3 .raised, .act 3 .ok, .act 3 .raised, .act 3 .notified]

theorem isSome_detached : (machine.run .new detached).isSome = true := by
  decide +kernel

theorem isSome_interrupted : (machine.run .new interrupted).isSome = true := by
  decide +kernel

/-- A disconnect has a client between its detachment and its close, and an interruption can leave a lease
counted. -/
theorem detached_or_interrupted :
    (∃ s, machine.run .new detached = some s ∧ s.built = 1 ∧ s.generation = none ∧ s.closes 0 = 0 ∧
      ∀ c ∈ s.calls, c.stage.connects 0 = false) ∧
    ∃ s, machine.run .new interrupted = some s ∧ s.activeLeases = 1 ∧ ∀ c ∈ s.calls, c.stage.isLeased = false :=
  ⟨⟨_, (Option.some_get isSome_detached).symm, by decide +kernel⟩,
    ⟨_, (Option.some_get isSome_interrupted).symm, by decide +kernel⟩⟩

theorem client_generations_drained :
    machine.Always Sound .new drained ∧ ((machine.run .new drained).map fun s ↦ s.closes 1) = some 1 :=
  ⟨client_generations (by decide +kernel), by decide +kernel⟩

end Generations

end Elasticsearch

end ScrapyExtension
