import ScrapyExtension.Machine.Basic
import Mathlib.Tactic

/-!
# Receive pumps and retired consumers

`PulsarBackend` receives through pumps. A pump belongs to a topic and to a client; its worker
subscribes, publishes the consumer, and receives until the pump is given up. A consumer that is given
up is retired: a tombstone keeps the topic closed to a new pump until `close` has ended.

A consumer may be retired by a `pop` that finds its pump failed, by a disconnect, or by the worker
itself, if the subscription comes too late. The close is the work of a thread of the retirement, or of
the worker: a disconnect from inside of `receive` leaves it to the worker, and so does one that comes
before the subscription has returned.

## Steps

A section under `_lifecycle_lock` is one step. What a worker does without the lock between two sections
is a step of its own where others can see it: the completion of a tombstone, and the end of a worker,
which looks for a tombstone first and sets `stopped` afterwards.

Messages are left out, and so are the other handles of a client. A pump has at most one tombstone, so
that a tombstone is named by its pump.
-/

namespace ScrapyExtension

namespace Pulsar

/-! ## The data -/

/-- Where a call of `_run_consumer_retirement` is. -/
inductive Closing
  /-- The generation is drained, and `consumer.close` is called. -/
  | closing
  /-- It has ended, one way or the other. -/
  | closed
  /-- `completed` is set. -/
  | completed
  | over
deriving DecidableEq

/-- `_PulsarConsumerRetirement` -/
structure Retirement where
  /-- `consumer` is set. -/
  consumer : Bool
  /-- `worker` is set. -/
  worker : Bool
  /-- `completed` is set. -/
  completed : Bool
  /-- The thread that was started for it. -/
  thread : Option Closing
deriving DecidableEq

/-- Where the worker of a pump is. -/
inductive Stage
  /-- In `client.subscribe`. -/
  | subscribing
  /-- There is no candidate. -/
  | refused
  /-- There is a candidate. -/
  | candidate
  /-- The candidate is to be closed, after a fault of its publication or because it came too late. -/
  | stale (fault : Bool)
  /-- The worker closes its candidate. -/
  | closing (c : Closing) (fault : Bool)
  /-- The publication has failed. -/
  | faulted
  /-- The consumer is published. -/
  | looping
  | receiving
  /-- In the last block. -/
  | leaving
  /-- The worker closes its consumer. -/
  | deferred (c : Closing)
  /-- The tombstone has no consumer and is completed. -/
  | finishing
  | unregistering
  | stopping
  | over
deriving DecidableEq

/-- What the broker has for a pump. -/
inductive Handle
  | none
  | opened
  | closed
deriving DecidableEq

/-- `_PulsarReceivePump` -/
structure Pump where
  topic : ℕ
  /-- `client`, by the generation that it was made for -/
  client : ℕ
  generation : ℕ
  accepting : Bool
  /-- `failed` is set, or `control_error` is. -/
  failed : Bool
  /-- `consumer` is set. -/
  consumer : Bool
  retirement : Option Retirement
  stopped : Bool
  stage : Stage
  handle : Handle
deriving DecidableEq

/-- The backend. -/
structure State where
  /-- `_client` -/
  client : Option ℕ
  /-- `_lifecycle_generation` -/
  lifecycleGeneration : ℕ
  /-- How many pumps there have been. -/
  count : ℕ
  pumps : ℕ → Pump
  /-- `_receive_pumps` -/
  receivePumps : ℕ → Option ℕ
  /-- `_consumers`, by their pumps -/
  consumers : ℕ → Option ℕ
  /-- `_consumer_retirements`, by their pumps -/
  consumerRetirements : ℕ → Option ℕ

/-- How the worker of a pump starts. `_thread_definitely_unstarted` tells the last two apart. -/
inductive PumpStart
  | started
  /-- `Thread.start` raises, and the thread runs. -/
  | launched
  | unstarted
deriving DecidableEq

/-- How the thread of a retirement starts. -/
inductive Start
  /-- It runs, whether or not `Thread.start` raises. -/
  | started
  /-- `start_new_thread` has to be used. -/
  | fallback
  /-- It does not run. -/
  | failed
deriving DecidableEq

/-- How a call of the worker comes out. -/
inductive Outcome
  | ok
  | failed
  /-- A `receive` without a message, or a fault after a publication. -/
  | other
deriving DecidableEq

/-- What can happen. -/
inductive Label
  | connect
  /-- A disconnect, possibly from inside of the `receive` of a pump. -/
  | disconnect (reentrant : Option ℕ) (start : ℕ → Start)
  /-- `_ensure_receive_pump` -/
  | ensureReceivePump (topic : ℕ) (start : PumpStart)
  /-- `_receive`, on a pump without messages. -/
  | receive (n : ℕ) (start : Start)
  /-- The worker of a pump goes on. -/
  | work (n : ℕ) (outcome : Outcome) (start : Start)
  /-- The thread of a retirement goes on. -/
  | close (n : ℕ)

namespace Pump

/-- The pump that is not there. -/
def none : Pump := ⟨0, 0, 0, false, false, false, .none, true, .over, .none⟩

/-- A new pump. -/
def new (topic client generation : ℕ) : Pump :=
  ⟨topic, client, generation, true, false, false, .none, false, .subscribing, .none⟩

/-- `_new_consumer_retirement_locked`, without its registration -/
def newConsumerRetirement (p : Pump) (consumer : Bool) : Pump :=
  { p with retirement := some ⟨consumer, false, false, .none⟩ }

/-- `_start_consumer_retirement_locked`, without its registration -/
def startConsumerRetirement (p : Pump) (start : Start) : Pump :=
  { p with retirement := some ⟨true, start = .started, false,
      if start = .failed then .none else some .closing⟩ }

/-- The tombstone of a pump that is given up by a disconnect. -/
def disconnect (p : Pump) (reentrant : Bool) (start : Start) : Pump :=
  let p := { p with accepting := false }
  if p.retirement.isSome then p
  else if p.consumer then
    if reentrant then p.newConsumerRetirement true else p.startConsumerRetirement start
  else if ¬ p.stopped then p.newConsumerRetirement false
  else p

/-- The tombstone of a pump that is given up by a `pop`. -/
def giveUp (p : Pump) (start : Start) : Pump :=
  let p := { p with accepting := false }
  if p.consumer ∧ p.retirement.isNone then p.startConsumerRetirement start else p

/-- A change to the tombstone. -/
def modifyRetirement (p : Pump) (f : Retirement → Retirement) : Pump :=
  { p with retirement := p.retirement.map f }

end Pump

namespace State

def new : State := ⟨.none, 0, 0, fun _ ↦ .none, fun _ ↦ .none, fun _ ↦ .none, fun _ ↦ .none⟩

/-- A pump is changed. -/
def setPump (s : State) (n : ℕ) (p : Pump) : State := { s with pumps := Function.update s.pumps n p }

/-- A worker goes on. -/
def goto (s : State) (n : ℕ) (stage : Stage) : State := s.setPump n { s.pumps n with stage }

/-- A tombstone is registered. -/
def register (s : State) (n : ℕ) : State :=
  { s with consumerRetirements :=
      Function.update s.consumerRetirements (s.pumps n).topic (some n) }

/-- The end of `_finish_consumer_retirement` -/
def unregister (s : State) (n : ℕ) : State :=
  if s.consumerRetirements (s.pumps n).topic = some n then
    { s with consumerRetirements :=
        Function.update s.consumerRetirements (s.pumps n).topic .none }
  else s

/-- `generation_is_live` -/
def live (s : State) (n : ℕ) : Bool :=
  let p := s.pumps n
  p.accepting && s.client = some p.client && s.lifecycleGeneration = p.generation &&
    s.receivePumps p.topic = some n

/-- `connect` -/
def connect (s : State) : State :=
  match s.client with
  | some _ => s
  | .none => { s with
      client := some (s.lifecycleGeneration + 1)
      lifecycleGeneration := s.lifecycleGeneration + 1 }

/-- The pump is in `_receive_pumps`. -/
def attached (s : State) (n : ℕ) : Bool := s.receivePumps (s.pumps n).topic = some n

/-- `disconnect`, up to the end of its section -/
def disconnect (s : State) (reentrant : Option ℕ) (start : ℕ → Start) : State :=
  let pumps := fun n ↦ if s.attached n then (s.pumps n).disconnect (reentrant = some n) (start n)
    else s.pumps n
  { s with
    client := .none
    lifecycleGeneration := s.lifecycleGeneration + 1
    pumps := pumps
    receivePumps := fun _ ↦ .none
    consumers := fun _ ↦ .none
    consumerRetirements := fun t ↦
      match s.receivePumps t with
      | .none => s.consumerRetirements t
      | some n =>
        if (s.pumps n).retirement.isNone ∧ (pumps n).retirement.isSome then some n
        else s.consumerRetirements t }

/-- A tombstone that is completed is dropped by the next poll. -/
def prune (s : State) (topic : ℕ) : State :=
  match s.consumerRetirements topic with
  | some n =>
    if (s.pumps n).retirement.any (·.completed) then
      { s with consumerRetirements := Function.update s.consumerRetirements topic .none }
    else s
  | .none => s

/-- The section of `_ensure_receive_pump`. Where there is a pump, it is returned; where there is a
tombstone, the caller waits. -/
def ensureReceivePump (s : State) (topic : ℕ) (start : PumpStart) : State :=
  let s := s.prune topic
  match s.receivePumps topic, s.consumerRetirements topic, s.client with
  | .none, .none, some client =>
    let p := Pump.new topic client s.lifecycleGeneration
    match start with
    | .started => { s.setPump s.count p with
        count := s.count + 1
        receivePumps := Function.update s.receivePumps topic (some s.count) }
    | .launched =>
      ({ s.setPump s.count ({ p with accepting := false }.newConsumerRetirement false) with
        count := s.count + 1 } : State).register s.count
    | .unstarted => s
  | _, _, _ => s

/-- The section of `_receive` -/
def receive (s : State) (n : ℕ) (start : Start) : State :=
  let p := s.pumps n
  if s.live n ∧ p.failed then
    let t := { s.setPump n (p.giveUp start) with
      receivePumps := Function.update s.receivePumps p.topic .none
      consumers := if s.consumers p.topic = some n then Function.update s.consumers p.topic .none
        else s.consumers }
    if p.consumer ∧ p.retirement.isNone then t.register n else t
  else s

/-- `_close_stale_pump_candidate`, up to the close -/
def closeStalePumpCandidate (s : State) (n : ℕ) (fault : Bool) (start : Start) : State :=
  let p := s.pumps n
  match p.retirement with
  | .none => (s.setPump n { p.startConsumerRetirement start with
      stage := if fault then .faulted else .leaving }).register n
  | some _ => s.setPump n { p.modifyRetirement fun r ↦ { r with consumer := true, worker := true } with
      stage := .closing .closing fault }

/-- `_run_consumer_retirement`, on whatever thread it is. The caller goes on from `over`. -/
def runConsumerRetirement (s : State) (n : ℕ) : Closing → Option (Closing × State)
  | .closing => some (.closed, s.setPump n { s.pumps n with handle := .closed })
  | .closed => some (.completed,
      s.setPump n ((s.pumps n).modifyRetirement fun r ↦ { r with completed := true }))
  | .completed => some (.over, s.unregister n)
  | .over => .none

/-- `_run_receive_pump` -/
def work (s : State) (n : ℕ) (outcome : Outcome) (start : Start) : Option State :=
  let p := s.pumps n
  match p.stage with
  | .subscribing =>
    if outcome = .ok then some (s.setPump n { p with handle := .opened, stage := .candidate })
    else some (s.goto n .refused)
  | .refused =>
    some (s.setPump n { p with failed := p.failed || s.live n, stage := .leaving })
  | .candidate =>
    if outcome = .failed then some (s.goto n (.stale true))
    else if s.live n then
      some { s.setPump n { p with
          consumer := true, stage := if outcome = .ok then .looping else .faulted } with
        consumers := Function.update s.consumers p.topic (some n) }
    else some (s.goto n (.stale (outcome ≠ .ok)))
  | .stale fault => some (s.closeStalePumpCandidate n fault start)
  | .closing .over fault => some (s.goto n (if fault then .faulted else .leaving))
  | .closing c fault =>
    (s.runConsumerRetirement n c).map fun x ↦ x.2.goto n (.closing x.1 fault)
  | .faulted => some (s.setPump n { p with failed := p.failed || p.accepting, stage := .leaving })
  | .looping => some (s.goto n (if p.accepting then .receiving else .leaving))
  | .receiving =>
    if outcome = .other then some (s.goto n .looping)
    else if ¬ (s.live n ∧ s.consumers p.topic = some n) then some (s.goto n .leaving)
    else if outcome = .failed then some (s.setPump n { p with failed := true, stage := .leaving })
    else some (s.goto n .looping)
  | .leaving =>
    match p.retirement with
    | .none => some (s.goto n .stopping)
    | some r =>
      if ¬ r.consumer then some (s.goto n .finishing)
      else if ¬ r.worker ∧ p.consumer then
        some (s.setPump n { p.modifyRetirement fun r ↦ { r with worker := true } with
          stage := .deferred .closing })
      else some (s.goto n .stopping)
  | .finishing =>
    some (s.setPump n { p.modifyRetirement fun r ↦ { r with completed := true } with
      stage := .unregistering })
  | .unregistering => some ((s.unregister n).goto n .stopping)
  | .deferred .over => some (s.goto n .stopping)
  | .deferred c => (s.runConsumerRetirement n c).map fun x ↦ x.2.goto n (.deferred x.1)
  | .stopping => some (s.setPump n { p with stopped := true, stage := .over })
  | .over => .none

/-- The thread of a retirement goes on. -/
def close (s : State) (n : ℕ) : Option State :=
  (s.pumps n).retirement.bind fun r ↦ r.thread.bind fun c ↦
    (s.runConsumerRetirement n c).map fun x ↦
      x.2.setPump n ((x.2.pumps n).modifyRetirement fun r ↦ { r with thread := some x.1 })

/-- One step. -/
def step (s : State) : Label → Option State
  | .connect => some s.connect
  | .disconnect reentrant start =>
    -- a disconnect from inside of `receive` is one of a worker that receives
    if reentrant.all fun n ↦ (s.pumps n).stage = .receiving then some (s.disconnect reentrant start)
    else .none
  | .ensureReceivePump topic start => some (s.ensureReceivePump topic start)
  | .receive n start => some (s.receive n start)
  | .work n outcome start => if n < s.count then s.work n outcome start else .none
  | .close n => if n < s.count then s.close n else .none

end State

/-- The backend as a machine. -/
def machine : Machine State Label where
  init := State.new
  step := State.step

/-! ## What holds of a pump -/

/-- `consumer.close` has ended. -/
def Closing.ended : Closing → Bool
  | closing => false
  | _ => true

/-- The tombstone is completed. -/
def Closing.finished : Closing → Bool
  | .completed | .over => true
  | _ => false

/-- The bootstrap is not over. -/
def Stage.early : Stage → Bool
  | subscribing | refused | candidate | stale _ => true
  | _ => false

/-- There is nothing left to close. -/
def Stage.settled : Stage → Bool
  | closing c _ | deferred c => c.ended
  | finishing | unregistering => true
  | _ => false

/-- The worker has completed its tombstone. -/
def Stage.finished : Stage → Bool
  | closing c _ | deferred c => c.finished
  | unregistering => true
  | _ => false

/-- The worker runs a retirement. -/
def Stage.closes : Stage → Bool
  | closing _ _ | deferred _ => true
  | _ => false

theorem Stage.late_of_early {stage : Stage} (h : stage.early = true) :
    stage.settled = false ∧ stage.finished = false ∧ stage.closes = false ∧ stage ≠ .finishing := by
  cases stage <;> first | exact ⟨rfl, rfl, rfl, nofun⟩ | cases h

namespace Pump

/-- `completed` is set. -/
def completed (p : Pump) : Bool := p.retirement.any (·.completed)

/-- A subscription is under way, or not closed. -/
def busy (p : Pump) : Bool := p.stage = .subscribing || p.handle = .opened

/-- What the fields of a pump have to do with each other. -/
structure Ok (p : Pump) : Prop where
  bootstrap : p.stage = .subscribing ∨ p.stage = .refused → p.handle = .none
  candidate : (p.stage = .candidate ∨ ∃ fault, p.stage = .stale fault) → p.handle = .opened
  unpublished : p.stage.early = true → p.consumer = false
  owned : p.stage.early = false → p.handle = .opened →
    p.consumer = true ∨ ∃ r, p.retirement = some r ∧ r.consumer = true
  failed : p.failed = true → p.stage.early = false
  empty : ∀ r, p.retirement = some r → r.consumer = false →
    p.consumer = false ∧ p.accepting = false
  full : ∀ r, p.retirement = some r → r.consumer = true → p.stage.early = false
  threaded : ∀ r, p.retirement = some r → r.thread.isSome = true → r.consumer = true
  settled : p.stage.settled = true → p.handle ≠ .opened
  closed : ∀ r, p.retirement = some r → r.completed = true ∨ r.thread.any Closing.ended = true →
    p.stage.early = false ∧ p.handle ≠ .opened
  finished : p.stage.finished = true → p.completed = true
  threadFinished : ∀ r, p.retirement = some r → r.thread.any Closing.finished = true →
    r.completed = true
  closes : p.stage.closes = true → ∃ r, p.retirement = some r ∧ r.consumer = true
  finishes : p.stage = .finishing → p.retirement.isSome = true
  stopped : p.stopped = true → p.stage = .over

variable {p : Pump} {stage : Stage}

theorem Ok.none : Pump.none.Ok where
  bootstrap _ := rfl
  candidate := by rintro (h | ⟨_, h⟩) <;> cases h
  unpublished _ := rfl
  owned _ h := by cases h
  failed h := by cases h
  empty _ h := by cases h
  full _ h := by cases h
  threaded _ h := by cases h
  settled h := by cases h
  closed _ h := by cases h
  finished h := by cases h
  threadFinished _ h := by cases h
  closes h := by cases h
  finishes h := by cases h
  stopped _ := rfl

theorem Ok.new (topic client generation : ℕ) : (Pump.new topic client generation).Ok where
  bootstrap _ := rfl
  candidate := by rintro (h | ⟨_, h⟩) <;> cases h
  unpublished _ := rfl
  owned h := by cases h
  failed h := by cases h
  empty _ h := by cases h
  full _ h := by cases h
  threaded _ h := by cases h
  settled h := by cases h
  closed _ h := by cases h
  finished h := by cases h
  threadFinished _ h := by cases h
  closes h := by cases h
  finishes h := by cases h
  stopped h := by cases h

/-- A pump whose tombstone is completed is done. -/
theorem Ok.not_busy (h : p.Ok) (hc : p.completed = true) : p.busy = false := by
  obtain ⟨r, hr, hrc⟩ := (Option.any_eq_true _ _).1 hc
  obtain ⟨hearly, hhandle⟩ := h.closed r hr (.inl hrc)
  have hstage : p.stage ≠ .subscribing := by
    intro heq
    rw [heq] at hearly
    cases hearly
  simp [busy, hstage, hhandle]

/-- The worker goes on, with nothing new to close. -/
theorem Ok.goto (h : p.Ok) (hearly : stage.early = false) (hstopped : p.stopped = false)
    (howned : p.handle = .opened → p.consumer = true ∨ ∃ r, p.retirement = some r ∧ r.consumer = true)
    (hsettled : stage.settled = true → p.handle ≠ .opened)
    (hfinished : stage.finished = true → p.completed = true)
    (hcloses : stage.closes = true → ∃ r, p.retirement = some r ∧ r.consumer = true)
    (hfinishes : stage = .finishing → p.retirement.isSome = true) : ({ p with stage } : Pump).Ok where
  bootstrap := by
    rintro (rfl | rfl) <;> cases hearly
  candidate := by
    rintro (rfl | ⟨_, rfl⟩) <;> cases hearly
  unpublished he := by
    rw [he] at hearly
    cases hearly
  owned _ := howned
  failed _ := hearly
  empty := h.empty
  full _ _ _ := hearly
  threaded := h.threaded
  settled := hsettled
  closed r hr hc := ⟨hearly, (h.closed r hr hc).2⟩
  finished := hfinished
  threadFinished := h.threadFinished
  closes := hcloses
  finishes := hfinishes
  stopped hs := by
    rw [hs] at hstopped
    cases hstopped

theorem Ok.running (h : p.Ok) (hstage : p.stage ≠ .over) : p.stopped = false := by
  by_contra hs
  exact hstage (h.stopped (by simpa using hs))

/-- The worker goes on after its bootstrap. -/
theorem Ok.advance (h : p.Ok) (hlate : p.stage.early = false) (hstage : p.stage ≠ .over)
    (hearly : stage.early = false) (hsettled : stage.settled = true → p.handle ≠ .opened)
    (hfinished : stage.finished = true → p.completed = true)
    (hcloses : stage.closes = true → ∃ r, p.retirement = some r ∧ r.consumer = true)
    (hfinishes : stage = .finishing → p.retirement.isSome = true) : ({ p with stage } : Pump).Ok :=
  h.goto hearly (h.running hstage) (h.owned hlate) hsettled hfinished hcloses hfinishes

theorem Ok.setFailed (h : p.Ok) (hlate : p.stage.early = false) (failed : Bool) :
    ({ p with failed } : Pump).Ok :=
  { h with failed := fun _ ↦ hlate }

/-- A tombstone without a consumer. -/
theorem Ok.newConsumerRetirement (h : p.Ok) (hconsumer : p.consumer = false)
    (hnone : p.retirement = .none) :
    ({ p with accepting := false }.newConsumerRetirement false).Ok := by
  have hnew : ∀ r, ({ p with accepting := false }.newConsumerRetirement false).retirement = some r →
      r = ⟨false, false, false, .none⟩ := fun r hr ↦ (Option.some.inj hr).symm
  refine ⟨h.bootstrap, h.candidate, h.unpublished, fun he ho ↦ ?_, h.failed,
    fun _ _ _ ↦ ⟨hconsumer, rfl⟩, fun r hr hc ↦ ?_, fun r hr hc ↦ ?_, h.settled, fun r hr hc ↦ ?_,
    fun hf ↦ ?_, fun r hr hc ↦ ?_, fun hc ↦ ?_, fun _ ↦ rfl, h.stopped⟩
  · rcases h.owned he ho with hc | ⟨r, hr, -⟩
    · exact .inl hc
    · rw [hnone] at hr
      cases hr
  · rw [hnew r hr] at hc
    cases hc
  · rw [hnew r hr] at hc
    cases hc
  · rw [hnew r hr] at hc
    rcases hc with hc | hc <;> cases hc
  · have hcompleted := h.finished hf
    rw [completed, hnone] at hcompleted
    cases hcompleted
  · rw [hnew r hr] at hc
    cases hc
  · obtain ⟨r, hr, -⟩ := h.closes hc
    rw [hnone] at hr
    cases hr

theorem thread_not_finished {r : Retirement} (h : r.thread.any Closing.ended = false) :
    r.thread.any Closing.finished = false := by
  cases hr : r.thread with
  | none => rfl
  | some c =>
    rw [hr] at h
    cases c with
    | closing => rfl
    | _ => cases h

/-- A tombstone with a consumer, of which nothing is done. -/
theorem Ok.retire {r : Retirement} (h : p.Ok) (hlate : p.stage.early = false)
    (hnone : p.retirement = .none) (hconsumer : r.consumer = true) (hcompleted : r.completed = false)
    (hthread : r.thread.any Closing.ended = false) (accepting : Bool) :
    ({ p with accepting, retirement := some r } : Pump).Ok := by
  have hunfinished := thread_not_finished hthread
  refine ⟨h.bootstrap, h.candidate, h.unpublished, fun _ _ ↦ .inr ⟨r, rfl, hconsumer⟩, h.failed,
    fun r' hr' hc ↦ ?_, fun _ _ _ ↦ hlate, fun r' hr' _ ↦ ?_, h.settled, fun r' hr' hc ↦ ?_,
    fun hf ↦ ?_, fun r' hr' hc ↦ ?_, fun _ ↦ ⟨r, rfl, hconsumer⟩, fun _ ↦ rfl, h.stopped⟩
  · rw [← Option.some.inj hr', hconsumer] at hc
    cases hc
  · rw [← Option.some.inj hr']
    exact hconsumer
  · rw [← Option.some.inj hr', hcompleted, hthread] at hc
    rcases hc with hc | hc <;> cases hc
  · have hfinished := h.finished hf
    rw [completed, hnone] at hfinished
    cases hfinished
  · rw [← Option.some.inj hr', hunfinished] at hc
    cases hc

theorem Ok.startConsumerRetirement (h : p.Ok) (hlate : p.stage.early = false)
    (hnone : p.retirement = .none) (start : Start) (accepting : Bool) :
    ({ p with accepting }.startConsumerRetirement start).Ok := by
  refine h.retire hlate hnone rfl rfl ?_ accepting
  cases start <;> rfl

/-- The candidate of a bootstrap goes to a tombstone. -/
theorem Ok.attach {r : Retirement} (h : p.Ok) (hbootstrap : p.stage.early = true)
    (hconsumer : r.consumer = true) (hcompleted : r.completed = false)
    (hthread : r.thread.any Closing.ended = false) (hlate : stage.early = false)
    (hsettled : stage.settled = false) (hfinished : stage.finished = false) :
    ({ p with retirement := some r, stage } : Pump).Ok := by
  have hrunning : p.stopped = false := by
    refine h.running fun hover ↦ ?_
    rw [hover] at hbootstrap
    cases hbootstrap
  have hunfinished := thread_not_finished hthread
  refine ⟨?_, ?_, fun _ ↦ h.unpublished hbootstrap, fun _ _ ↦ .inr ⟨r, rfl, hconsumer⟩, fun _ ↦ hlate,
    fun r' hr' hc ↦ ?_, fun _ _ _ ↦ hlate, fun r' hr' _ ↦ ?_, fun hs ↦ ?_, fun r' hr' hc ↦ ?_, fun hf ↦ ?_,
    fun r' hr' hc ↦ ?_, fun _ ↦ ⟨r, rfl, hconsumer⟩, fun _ ↦ rfl, fun hs ↦ ?_⟩
  · rintro (rfl | rfl) <;> cases hlate
  · rintro (rfl | ⟨_, rfl⟩) <;> cases hlate
  · rw [← Option.some.inj hr', hconsumer] at hc
    cases hc
  · rw [← Option.some.inj hr']
    exact hconsumer
  · rw [hs] at hsettled
    cases hsettled
  · rw [← Option.some.inj hr', hcompleted, hthread] at hc
    rcases hc with hc | hc <;> cases hc
  · rw [hf] at hfinished
    cases hfinished
  · rw [← Option.some.inj hr', hunfinished] at hc
    cases hc
  · rw [hs] at hrunning
    cases hrunning

/-- A change of the tombstone. -/
theorem Ok.modifyRetirement {f : Retirement → Retirement} (h : p.Ok)
    (hconsumer : ∀ r, (f r).consumer = r.consumer)
    (hcompleted : ∀ r, r.completed = true → (f r).completed = true)
    (hfinished : ∀ r, p.retirement = some r → (f r).thread.any Closing.finished = true →
      (f r).completed = true)
    (hthread : ∀ r, p.retirement = some r → (f r).thread.isSome = true → r.consumer = true)
    (hdone : ∀ r, p.retirement = some r →
      (f r).completed = true ∨ (f r).thread.any Closing.ended = true →
        p.stage.early = false ∧ p.handle ≠ .opened) : (p.modifyRetirement f).Ok := by
  have hr : ∀ r', (p.modifyRetirement f).retirement = some r' → ∃ r, p.retirement = some r ∧ f r = r' :=
    fun r' hr' ↦ Option.map_eq_some_iff.1 hr'
  refine ⟨h.bootstrap, h.candidate, h.unpublished, fun he ho ↦ ?_, h.failed, fun r' hr' hc ↦ ?_,
    fun r' hr' hc ↦ ?_, fun r' hr' ht ↦ ?_, h.settled, fun r' hr' hc ↦ ?_, fun hf ↦ ?_,
    fun r' hr' hc ↦ ?_, fun hc ↦ ?_, fun hf ↦ ?_, h.stopped⟩
  · rcases h.owned he ho with hc | ⟨r, hret, hc⟩
    · exact .inl hc
    · refine .inr ⟨f r, ?_, (hconsumer r).trans hc⟩
      exact Option.map_eq_some_iff.2 ⟨r, hret, rfl⟩
  · obtain ⟨r, hret, rfl⟩ := hr r' hr'
    exact h.empty r hret ((hconsumer r).symm.trans hc)
  · obtain ⟨r, hret, rfl⟩ := hr r' hr'
    exact h.full r hret ((hconsumer r).symm.trans hc)
  · obtain ⟨r, hret, rfl⟩ := hr r' hr'
    exact (hconsumer r).trans (hthread r hret ht)
  · obtain ⟨r, hret, rfl⟩ := hr r' hr'
    exact hdone r hret hc
  · obtain ⟨r, hret, hc⟩ := (Option.any_eq_true _ _).1 (h.finished hf)
    exact (Option.any_eq_true _ _).2 ⟨f r, Option.map_eq_some_iff.2 ⟨r, hret, rfl⟩, hcompleted r hc⟩
  · obtain ⟨r, hret, rfl⟩ := hr r' hr'
    exact hfinished r hret hc
  · obtain ⟨r, hret, hconsumer'⟩ := h.closes hc
    exact ⟨f r, Option.map_eq_some_iff.2 ⟨r, hret, rfl⟩, (hconsumer r).trans hconsumer'⟩
  · rw [Pump.modifyRetirement, Option.isSome_map]
    exact h.finishes hf

/-- The bootstrap goes on. -/
theorem Ok.bootstraps {handle : Handle} (h : p.Ok) (hbootstrap : p.stage.early = true)
    (hearly : stage.early = true) (hnone : stage = .subscribing ∨ stage = .refused → handle = .none)
    (hopened : (stage = .candidate ∨ ∃ fault, stage = .stale fault) → handle = .opened) :
    ({ p with stage, handle } : Pump).Ok := by
  have hrunning : p.stopped = false := by
    refine h.running fun hover ↦ ?_
    rw [hover] at hbootstrap
    cases hbootstrap
  have hnot : p.stage.early ≠ false := by rw [hbootstrap]; exact nofun
  obtain ⟨hsettled, hfinished, hcloses, hfinishes⟩ := Stage.late_of_early hearly
  refine ⟨hnone, hopened, fun _ ↦ h.unpublished hbootstrap, fun hl ↦ ?_, fun hf ↦ absurd (h.failed hf) hnot,
    h.empty, fun r hr hc ↦ absurd (h.full r hr hc) hnot, h.threaded, ?_,
    fun r hr hc ↦ absurd (h.closed r hr hc).1 hnot, ?_, h.threadFinished, ?_, fun hf ↦ absurd hf hfinishes,
    fun hs ↦ ?_⟩
  · rw [hearly] at hl
    cases hl
  · simp [hsettled]
  · simp [hfinished]
  · simp [hcloses]
  · rw [hs] at hrunning
    cases hrunning

/-- A candidate is published. -/
theorem Ok.publish (h : p.Ok) (hcandidate : p.stage = .candidate) (haccepting : p.accepting = true)
    (hlate : stage.early = false) (hsettled : stage.settled = false) (hfinished : stage.finished = false)
    (hcloses : stage.closes = false) (hfinishes : stage ≠ .finishing) :
    ({ p with consumer := true, stage } : Pump).Ok := by
  have hnone : p.retirement = .none := by
    cases hr : p.retirement with
    | none => rfl
    | some r =>
      cases hc : r.consumer with
      | false =>
        rw [(h.empty r hr hc).2] at haccepting
        cases haccepting
      | true =>
        have hearly := h.full r hr hc
        rw [hcandidate] at hearly
        cases hearly
  have hret : ∀ {r}, p.retirement ≠ some r := by
    rw [hnone]
    exact nofun
  refine ⟨?_, ?_, fun he ↦ ?_, fun _ _ ↦ .inl rfl, fun _ ↦ hlate, fun r hr ↦ absurd hr hret, fun r hr ↦ absurd hr hret,
    fun r hr ↦ absurd hr hret, fun hs ↦ ?_, fun r hr ↦ absurd hr hret, fun hf ↦ ?_, fun r hr ↦ absurd hr hret,
    fun hc ↦ ?_, fun hf ↦ absurd hf hfinishes, fun hs ↦ ?_⟩
  · rintro (rfl | rfl) <;> cases hlate
  · rintro (rfl | ⟨_, rfl⟩) <;> cases hlate
  · rw [he] at hlate
    cases hlate
  · rw [hs] at hsettled
    cases hsettled
  · rw [hf] at hfinished
    cases hfinished
  · rw [hc] at hcloses
    cases hcloses
  · have := h.stopped hs
    rw [hcandidate] at this
    cases this

theorem Ok.stopAdmission (h : p.Ok) : ({ p with accepting := false } : Pump).Ok :=
  { h with empty := fun r hr hc ↦ ⟨(h.empty r hr hc).1, rfl⟩ }

/-- What a disconnect does to a pump. -/
structure Disconnected (p q : Pump) : Prop where
  ok : q.Ok
  topic : q.topic = p.topic
  busy : q.busy = p.busy
  retirement : p.retirement.isSome = true → q.retirement = p.retirement
  /-- A pump without a tombstone has nothing to close. -/
  idle : q.retirement = .none → q.busy = false

theorem Ok.disconnect (h : p.Ok) (reentrant : Bool) (start : Start) :
    Disconnected p (p.disconnect reentrant start) := by
  rw [Pump.disconnect]
  dsimp only
  split_ifs with hsome hconsumer hreentrant hstopped
  · refine ⟨h.stopAdmission, rfl, rfl, fun _ ↦ rfl, fun hnone ↦ ?_⟩
    have hnone' : p.retirement = .none := hnone
    rw [hnone'] at hsome
    cases hsome
  all_goals
    have hnone : p.retirement = .none := by
      rw [Option.not_isSome_iff_eq_none] at hsome
      exact hsome
    have habsent : p.retirement.isSome ≠ true := hsome
  · have hlate : p.stage.early = false := by
      by_contra he
      rw [h.unpublished (by simpa using he)] at hconsumer
      cases hconsumer
    exact ⟨h.retire hlate hnone rfl rfl rfl false, rfl, rfl, fun hs ↦ absurd hs habsent, nofun⟩
  · have hlate : p.stage.early = false := by
      by_contra he
      rw [h.unpublished (by simpa using he)] at hconsumer
      cases hconsumer
    exact ⟨h.startConsumerRetirement hlate hnone start false, rfl, rfl, fun hs ↦ absurd hs habsent, nofun⟩
  · have hunpublished : p.consumer = false := by simpa using hconsumer
    refine ⟨h.stopAdmission, rfl, rfl, fun _ ↦ rfl, fun _ ↦ ?_⟩
    -- the worker is gone, and has left nothing behind
    have hover := h.stopped hstopped
    have hclosed : p.handle ≠ .opened := by
      intro ho
      rcases h.owned (by rw [hover]; rfl) ho with hc | ⟨r, hr, -⟩
      · rw [hunpublished] at hc
        cases hc
      · rw [hnone] at hr
        cases hr
    simp [busy, hover, hclosed]
  · have hunpublished : p.consumer = false := by simpa using hconsumer
    exact ⟨h.newConsumerRetirement hunpublished hnone, rfl, rfl, fun hs ↦ absurd hs habsent, nofun⟩

/-- The consumer is closed. -/
theorem Ok.setClosed (h : p.Ok) (hlate : p.stage.early = false) :
    ({ p with handle := .closed } : Pump).Ok :=
  { h with
    bootstrap := fun hs ↦ by
      rcases hs with hs | hs <;> dsimp only at hs <;> rw [hs] at hlate <;> cases hlate
    candidate := fun hs ↦ by
      rcases hs with hs | ⟨_, hs⟩ <;> dsimp only at hs <;> rw [hs] at hlate <;> cases hlate
    owned := fun _ ho ↦ by cases ho
    settled := fun _ ho ↦ by cases ho
    closed := fun r hr hc ↦ ⟨(h.closed r hr hc).1, fun ho ↦ by cases ho⟩ }

end Pump

end Pulsar

end ScrapyExtension
