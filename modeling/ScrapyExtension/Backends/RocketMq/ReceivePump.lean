import Mathlib.Tactic
import ScrapyExtension.Machine.Basic
import ScrapyExtension.Machine.Threads

/-!
# The receive pump of RocketMQ

A pump is a thread that polls the broker for the pops of one consumer generation. A pop leaves a demand,
which is a flag, and looks into a buffer; the pump takes the demand back, receives, and puts at most one
delivery into the buffer. A disconnect fences the pump: its stop event is set, and everything that it shares
with the pops is reset. It does not wait until the old thread has ended, nor does the next connect.

## Steps

A section under `_receive_condition` is one step, and so is one under `_connection_lock`, which contains the
other. The subscription and the poll of a pump are steps of their own, and a pop or a disconnect goes on
between its sections whenever it likes. A thread either starts or its start raises before it runs.

The events and the threads are numbered. All pops are for the same topic.
-/

namespace ScrapyExtension

namespace RocketMq

/-! ## State -/

/-- An entry of `_receive_buffer`. The messages are numbered as they are received. -/
structure Delivery where
  message : ℕ
  consumer : ℕ
  generation : ℕ
deriving DecidableEq

/-- Where a pump is. -/
inductive PumpStage
  | subscribing
  | subscribed
  /-- Before it takes a demand. -/
  | waiting
  | receiving
  | received (message : Option ℕ)
  | raised (control : Bool)
  | leaving
  | over
deriving DecidableEq

/-- A run of `_receive_pump`. -/
structure Pump where
  consumer : ℕ
  generation : ℕ
  stop : ℕ
  stage : PumpStage
deriving DecidableEq

inductive PopResult
  | empty
  /-- Not connected, or not any more. -/
  | notConnected
  /-- The worker could not be started. -/
  | notStarted
  /-- The failure of a pump. -/
  | failed (pump : ℕ)
  | control (pump : ℕ)
  /-- The connection has changed under a delivery. -/
  | changed (d : Delivery)
  | returned (d : Delivery)
deriving DecidableEq

inductive PopStage
  | waiting (observedCycle : ℕ) (timed : Bool)
  | taken (d : Delivery)
  | done (result : PopResult)
deriving DecidableEq

/-- A pop that has left a demand. -/
structure Pop where
  consumer : ℕ
  generation : ℕ
  stage : PopStage
deriving DecidableEq

/-- A disconnect after its fence, with the worker that it has found. -/
structure Shutdown where
  worker : Option ℕ
  finished : Bool
deriving DecidableEq

structure State where
  /-- `_consumer` -/
  consumer : Option ℕ
  /-- `_consumer_generation` -/
  consumerGeneration : ℕ
  /-- How many consumers there have been. -/
  consumers : ℕ
  /-- `_selected_topic` is set. -/
  selectedTopic : Bool
  receiveConsumer : Option ℕ
  receiveGeneration : ℕ
  receiveStop : Option ℕ
  receiveWorker : Option ℕ
  receiveDemand : ℕ
  receiveCycle : ℕ
  /-- `_receive_failed`, with the pump that has set it. -/
  receiveFailed : Option ℕ
  /-- `_receive_control_error`, with the pump that has set it. -/
  receiveControlError : Option ℕ
  receiveBuffer : List Delivery
  /-- Which stop events are set. -/
  stops : List Bool
  pumps : List Pump
  pops : List Pop
  shutdowns : List Shutdown
  /-- The consumer and the generation of each message that was received. -/
  received : List (ℕ × ℕ)
  /-- The generation of each receive that was started. -/
  receives : List ℕ

def State.new : State :=
  ⟨none, 0, 0, false, none, 0, none, none, 0, 0, none, none, [], [], [], [], [], [], []⟩

/-- How a call of the broker ends. -/
inductive Outcome
  | empty
  | message
  | error
  /-- A `BaseException` that is not an `Exception`. -/
  | control
deriving DecidableEq

namespace State

/-- `_pump_is_current_locked` -/
def pumpIsCurrent (s : State) (w : Pump) : Prop :=
  s.stops[w.stop]? = some false ∧ s.receiveConsumer = some w.consumer ∧ s.receiveGeneration = w.generation ∧
    s.receiveStop = some w.stop

instance (s : State) (w : Pump) : Decidable (s.pumpIsCurrent w) := inferInstanceAs (Decidable (_ ∧ _))

/-- `worker.is_alive()` -/
def isAlive (s : State) (worker : ℕ) : Bool := s.pumps[worker]?.any (·.stage ≠ .over)

/-- `_start_receive_worker_locked`, and whether it has raised -/
def startReceiveWorker (s : State) (starts : Bool) : State × Bool :=
  if s.receiveWorker.any s.isAlive then (s, false)
  else
    match s.receiveConsumer, s.receiveStop with
    | some consumer, some stop =>
      if starts then
        ({ s with
            receiveWorker := some s.pumps.length
            pumps := s.pumps ++ [⟨consumer, s.receiveGeneration, stop, .subscribing⟩] }, false)
      else ({ s with receiveWorker := none }, true)
    | none, _ | _, none => (s, false)

/-- The selection of the topic by the first pop of a generation. -/
def select (s : State) (consumer : ℕ) : State :=
  { s with
    selectedTopic := true
    receiveConsumer := some consumer
    receiveGeneration := s.consumerGeneration
    receiveStop := some s.stops.length
    stops := s.stops ++ [false]
    receiveFailed := none
    receiveControlError := none
    receiveDemand := 0 }

/-- The demand of a pop, and its worker. -/
def demand (s : State) (consumer : ℕ) (starts timed : Bool) : State :=
  let s := { s with receiveDemand := 1 }
  let (s, raised) :=
    if s.receiveFailed = none ∧ s.receiveControlError = none then s.startReceiveWorker starts else (s, false)
  let stage := if raised then .done .notStarted else .waiting s.receiveCycle timed
  { s with pops := s.pops ++ [⟨consumer, s.consumerGeneration, stage⟩] }

/-- The first section of `_receive_delivery`; a pop that is refused before its demand leaves nothing. -/
def receiveDelivery (s : State) (running starts timed : Bool) : State :=
  match s.consumer with
  | none => s
  | some consumer =>
    if !running then s
    else if !s.selectedTopic then (s.select consumer).demand consumer starts timed
    else if s.receiveConsumer ≠ some consumer ∨ s.receiveGeneration ≠ s.consumerGeneration then s
    else s.demand consumer starts timed

/-- A section of its wait, if there is something to do. -/
def poll (s : State) (p : Pop) (observedCycle : ℕ) (timed expired : Bool) : Option (State × PopStage) :=
  if s.receiveConsumer ≠ some p.consumer ∨ s.receiveGeneration ≠ p.generation then
    some (s, .done .notConnected)
  else
    match s.receiveBuffer, s.receiveControlError, s.receiveFailed with
    | d :: buffer, _, _ => some ({ s with receiveBuffer := buffer }, .taken d)
    | [], some w, _ => some (s, .done (.control w))
    | [], none, some w => some (s, .done (.failed w))
    | [], none, none =>
      if !timed ∨ s.receiveCycle ≠ observedCycle ∨ expired then some (s, .done .empty) else none

/-- The last section of a pop with a delivery. -/
def finishPop (s : State) (d : Delivery) : PopResult :=
  if s.consumer = some d.consumer ∧ s.consumerGeneration = d.generation then .returned d else .changed d

/-- `_fence_receive_pump_unlocked` -/
def fence (s : State) : State :=
  { s with
    stops := (s.receiveStop.map fun e ↦ s.stops.set e true).getD s.stops
    receiveBuffer := []
    receiveFailed := none
    receiveControlError := none
    receiveConsumer := none
    receiveGeneration := 0
    selectedTopic := false
    receiveDemand := 0 }

/-- The last section of `_finish_receive_pump_shutdown` -/
def finishShutdown (s : State) (worker : Option ℕ) : State :=
  if s.receiveWorker = worker then { s with receiveWorker := none, receiveStop := none }
  else if worker = none ∧ s.receiveWorker = none then { s with receiveStop := none }
  else s

/-- A step of a pump. -/
def pump (s : State) (i : ℕ) (w : Pump) (outcome : Outcome) : Option (State × PumpStage) :=
  match w.stage, outcome with
  | .subscribing, .empty => some (s, .subscribed)
  | .subscribing, .error | .receiving, .error => some (s, .raised false)
  | .subscribing, .control | .receiving, .control => some (s, .raised true)
  | .subscribing, .message => none
  | .subscribed, _ => some (s, if s.pumpIsCurrent w then .waiting else .leaving)
  | .waiting, _ =>
    if ¬ s.pumpIsCurrent w then some (s, .leaving)
    else if s.receiveBuffer ≠ [] ∨ s.receiveDemand = 0 then none
    else
      some ({ s with receiveDemand := s.receiveDemand - 1, receives := s.receives ++ [w.generation] }, .receiving)
  | .receiving, .empty => some (s, .received none)
  | .receiving, .message =>
    some ({ s with received := s.received ++ [(w.consumer, w.generation)] }, .received (some s.received.length))
  | .received message, _ =>
    if ¬ s.pumpIsCurrent w then some (s, .leaving)
    else
      some ({ s with
        receiveCycle := s.receiveCycle + 1
        receiveBuffer := s.receiveBuffer ++ (message.map (⟨·, w.consumer, w.generation⟩)).toList }, .waiting)
  | .raised control, _ =>
    if ¬ s.pumpIsCurrent w then some (s, .leaving)
    else if control then
      some ({ s with receiveControlError := some i, receiveCycle := s.receiveCycle + 1 }, .leaving)
    else some ({ s with receiveFailed := some i, receiveCycle := s.receiveCycle + 1 }, .leaving)
  | .leaving, _ => some (if s.receiveWorker = some i then { s with receiveWorker := none } else s, .over)
  | .over, _ => none

end State

@[simp] theorem State.finishShutdown_shutdowns (s : State) (worker : Option ℕ) :
    (s.finishShutdown worker).shutdowns = s.shutdowns := by
  unfold State.finishShutdown
  split
  · rfl
  · split <;> rfl

/-! ## Steps -/

inductive Label
  | connect
  | disconnect
  | finishShutdown (k : ℕ)
  | pop (running starts timed : Bool)
  | poll (n : ℕ) (expired : Bool)
  | finishPop (n : ℕ)
  | pump (i : ℕ) (outcome : Outcome)
deriving DecidableEq

namespace State

def step (s : State) : Label → Option State
  | .connect =>
    if s.consumer.isSome then some s
    else
      some { s with
        consumer := some s.consumers
        consumers := s.consumers + 1
        consumerGeneration := s.consumerGeneration + 1 }
  | .disconnect =>
    some { s.fence with
      consumer := none
      consumerGeneration := s.consumerGeneration + 1
      shutdowns := s.shutdowns ++ [⟨s.receiveWorker, false⟩] }
  | .finishShutdown k => do
    let d ← s.shutdowns[k]?
    guard !d.finished
    some { s.finishShutdown d.worker with shutdowns := s.shutdowns.set k { d with finished := true } }
  | .pop running starts timed => some (s.receiveDelivery running starts timed)
  | .poll n expired => do
    let p ← s.pops[n]?
    match p.stage with
    | .waiting observedCycle timed =>
      let (s, stage) ← s.poll p observedCycle timed expired
      some { s with pops := s.pops.set n { p with stage } }
    | .taken _ | .done _ => none
  | .finishPop n => do
    let p ← s.pops[n]?
    match p.stage with
    | .taken d => some { s with pops := s.pops.set n { p with stage := .done (s.finishPop d) } }
    | .waiting .. | .done _ => none
  | .pump i outcome => do
    let w ← s.pumps[i]?
    let (s, stage) ← s.pump i w outcome
    some { s with pumps := s.pumps.set i { w with stage } }

end State

def machine : Machine State Label where
  init := .new
  step := State.step

/-! ## Fences -/

variable {s : State} {i : ℕ} {w : Pump}

/-- The worker of the backend is the one pump whose event is not set. -/
structure Fencing (s : State) : Prop where
  current : ∀ (i : ℕ) (w : Pump), s.pumps[i]? = some w → w.stage ≠ .over → s.stops[w.stop]? = some false →
    s.receiveWorker = some i ∧ s.pumpIsCurrent w
  stop_lt : ∀ w ∈ s.pumps, w.stop < s.stops.length
  receiveStop_lt : ∀ e, s.receiveStop = some e → e < s.stops.length
  worker_lt : ∀ i, s.receiveWorker = some i → i < s.pumps.length
  selected : s.selectedTopic = false → s.receiveConsumer = none
  /-- The worker of a disconnect has been fenced by it. -/
  shutdowns : ∀ d ∈ s.shutdowns, ∀ i, d.worker = some i → ∃ w, s.pumps[i]? = some w ∧
    (w.stage = .over ∨ s.stops[w.stop]? = some true)

namespace Fencing

/-- Two states with the same fences. -/
theorem congr {t : State} (h : Fencing s) (hstops : t.stops = s.stops)
    (hconsumer : t.receiveConsumer = s.receiveConsumer) (hgeneration : t.receiveGeneration = s.receiveGeneration)
    (hstop : t.receiveStop = s.receiveStop) (hworker : t.receiveWorker = s.receiveWorker)
    (hselected : t.selectedTopic = s.selectedTopic) (hpumps : t.pumps = s.pumps)
    (hshutdowns : t.shutdowns = s.shutdowns) : Fencing t where
  current i w hw hstage hunset := by
    rw [hworker, State.pumpIsCurrent, hstops, hconsumer, hgeneration, hstop]
    exact h.current i w (hpumps ▸ hw) hstage (hstops ▸ hunset)
  stop_lt w hw := hstops ▸ h.stop_lt w (hpumps ▸ hw)
  receiveStop_lt e he := hstops ▸ h.receiveStop_lt e (hstop ▸ he)
  worker_lt i hi := hpumps ▸ h.worker_lt i (hworker ▸ hi)
  selected hs := hconsumer ▸ h.selected (hselected ▸ hs)
  shutdowns d hd := by
    rw [hpumps, hstops]
    exact h.shutdowns d (hshutdowns ▸ hd)

/-- A pump whose event is not set is alone. -/
theorem alone (h : Fencing s) {j : ℕ} {w' : Pump} (hi : s.pumps[i]? = some w) (hj : s.pumps[j]? = some w')
    (hwi : w.stage ≠ .over) (hwj : w'.stage ≠ .over) (hui : s.stops[w.stop]? = some false)
    (huj : s.stops[w'.stop]? = some false) : i = j :=
  Option.some.inj ((h.current i w hi hwi hui).1.symm.trans (h.current j w' hj hwj huj).1)

/-- Without a selected consumer every pump is fenced. -/
theorem fenced_of_idle (h : Fencing s) (hidle : s.receiveConsumer = none ∨ s.receiveStop = none)
    (hw : s.pumps[i]? = some w) (hstage : w.stage ≠ .over) : s.stops[w.stop]? ≠ some false := by
  intro hunset
  obtain ⟨-, -, hconsumer, -, hstop⟩ := h.current i w hw hstage hunset
  rcases hidle with hidle | hidle
  · rw [hidle] at hconsumer
    cases hconsumer
  · rw [hidle] at hstop
    cases hstop

theorem select (h : Fencing s) (hs : s.selectedTopic = false) (consumer : ℕ) : Fencing (s.select consumer) where
  current i w hw hstage hunset := by
    -- No pump has the new event.
    have hlt := h.stop_lt w (List.mem_of_getElem? hw)
    refine absurd ?_ (h.fenced_of_idle (.inl (h.selected hs)) hw hstage)
    exact (List.getElem?_append_left hlt).symm.trans hunset
  stop_lt w hw := by
    dsimp only [State.select]
    rw [List.length_append]
    exact Nat.lt_add_right _ (h.stop_lt w hw)
  receiveStop_lt e he := by
    dsimp only [State.select] at he ⊢
    rw [← Option.some.inj he, List.length_append]
    exact Nat.lt_succ_self _
  worker_lt := h.worker_lt
  selected := nofun
  shutdowns d hd i hi := by
    obtain ⟨w, hw, hfenced⟩ := h.shutdowns d hd i hi
    exact ⟨w, hw, hfenced.imp_right fun hset ↦ List.getElem?_of_grown (List.prefix_append _ _) hset⟩

/-- A worker is started when there is none that is alive. -/
theorem startReceiveWorker (h : Fencing s) (starts : Bool) : Fencing (s.startReceiveWorker starts).1 := by
  unfold State.startReceiveWorker
  split
  · exact h
  next hdead =>
  -- So there is no pump that is not fenced.
  have hfenced : ∀ (i : ℕ) (w : Pump), s.pumps[i]? = some w → w.stage ≠ .over → s.stops[w.stop]? ≠ some false := by
    intro i w hw hstage hunset
    refine hdead ?_
    rw [(h.current i w hw hstage hunset).1, Option.any_some, State.isAlive, hw, Option.any_some]
    exact decide_eq_true hstage
  split
  · next consumer stop hconsumer hstop =>
    split
    · refine ⟨fun i w hw hstage hunset ↦ ?_, fun w hw ↦ ?_, h.receiveStop_lt, fun i hi ↦ ?_, h.selected,
        fun d hd i hi ↦ ?_⟩
      · rcases List.getElem?_concat_some hw with ⟨rfl, rfl⟩ | hw
        · exact ⟨rfl, hunset, hconsumer, rfl, hstop⟩
        · exact absurd hunset (hfenced i w hw hstage)
      · rcases List.mem_append.mp hw with hw | hw
        · exact h.stop_lt w hw
        · rw [List.mem_singleton.mp hw]
          exact h.receiveStop_lt stop hstop
      · dsimp only at hi ⊢
        rw [← Option.some.inj hi, List.length_append]
        exact Nat.lt_succ_self _
      · obtain ⟨w, hw, hrest⟩ := h.shutdowns d hd i hi
        exact ⟨w, List.getElem?_of_grown (List.prefix_append _ _) hw, hrest⟩
    · exact ⟨fun i w hw hstage hunset ↦ absurd hunset (hfenced i w hw hstage), h.stop_lt, h.receiveStop_lt,
        nofun, h.selected, h.shutdowns⟩
  · exact h
  · exact h

theorem fence (h : Fencing s) : Fencing s.fence where
  current i w hw hstage hunset := by
    exfalso
    dsimp only [State.fence] at hw hunset
    rcases hstop : s.receiveStop with _ | e
    · rw [hstop] at hunset
      exact h.fenced_of_idle (.inr hstop) hw hstage hunset
    · rw [hstop, Option.map_some, Option.getD_some] at hunset
      rcases List.getElem?_set_some hunset with ⟨-, hset⟩ | ⟨hne, hunset⟩
      · cases hset
      · -- The event that is set is the one of the pump.
        obtain ⟨-, -, -, -, hcurrent⟩ := h.current i w hw hstage hunset
        exact hne (Option.some.inj (hcurrent.symm.trans hstop))
  stop_lt w hw := by
    dsimp only [State.fence]
    cases s.receiveStop with
    | none => exact h.stop_lt w hw
    | some e =>
      rw [Option.map_some, Option.getD_some, List.length_set]
      exact h.stop_lt w hw
  receiveStop_lt e he := by
    have hlt := h.receiveStop_lt e he
    dsimp only [State.fence] at he ⊢
    rw [he, Option.map_some, Option.getD_some, List.length_set]
    exact hlt
  worker_lt := h.worker_lt
  selected _ := rfl
  shutdowns d hd i hi := by
    obtain ⟨w, hw, hfenced⟩ := h.shutdowns d hd i hi
    refine ⟨w, hw, hfenced.imp_right fun hset ↦ ?_⟩
    dsimp only [State.fence]
    cases s.receiveStop with
    | none => exact hset
    | some e =>
      rw [Option.map_some, Option.getD_some]
      by_cases he : e = w.stop
      · exact he ▸ List.getElem?_set_self (he ▸ (List.getElem?_eq_some_iff.mp hset).1)
      · exact (List.getElem?_set_ne he).trans hset

/-- A disconnect remembers the worker that it has fenced. -/
theorem disconnect (h : Fencing s) (hidle : s.receiveConsumer = none) :
    Fencing { s with shutdowns := s.shutdowns ++ [⟨s.receiveWorker, false⟩] } where
  current := h.current
  stop_lt := h.stop_lt
  receiveStop_lt := h.receiveStop_lt
  worker_lt := h.worker_lt
  selected := h.selected
  shutdowns d hd i hi := by
    rcases List.mem_append.mp hd with hd | hd
    · exact h.shutdowns d hd i hi
    rw [List.mem_singleton.mp hd] at hi
    have hw := List.getElem?_eq_getElem (h.worker_lt i hi)
    refine ⟨_, hw, ?_⟩
    rw [or_iff_not_imp_left]
    intro hstage
    have hlt := h.stop_lt _ (List.mem_of_getElem? hw)
    have hset := h.fenced_of_idle (.inl hidle) hw hstage
    rw [List.getElem?_eq_getElem hlt] at hset ⊢
    simpa using hset

theorem finishShutdown (h : Fencing s) {d : Shutdown} (hd : d ∈ s.shutdowns) :
    Fencing (s.finishShutdown d.worker) := by
  unfold State.finishShutdown
  split
  · next hworker =>
    -- The worker is the fenced one, or there is none.
    refine ⟨fun i w hw hstage hunset ↦ ?_, h.stop_lt, nofun, nofun, h.selected, h.shutdowns⟩
    obtain ⟨hi, -⟩ := h.current i w hw hstage hunset
    obtain ⟨w', hw', hfenced⟩ := h.shutdowns d hd i (hworker ▸ hi)
    obtain rfl : w = w' := Option.some.inj (hw.symm.trans hw')
    rcases hfenced with hover | hset
    · exact absurd hover hstage
    · rw [hset] at hunset
      cases hunset
  · split
    · next hnone =>
      refine ⟨fun i w hw hstage hunset ↦ ?_, h.stop_lt, nofun, h.worker_lt, h.selected, h.shutdowns⟩
      have hi := (h.current i w hw hstage hunset).1
      rw [hnone.2] at hi
      cases hi
    · exact h

/-- A shutdown is over. -/
theorem setShutdown (h : Fencing s) {k : ℕ} {d : Shutdown} (hd : d ∈ s.shutdowns) (finished : Bool) :
    Fencing { s with shutdowns := s.shutdowns.set k { d with finished } } where
  current := h.current
  stop_lt := h.stop_lt
  receiveStop_lt := h.receiveStop_lt
  worker_lt := h.worker_lt
  selected := h.selected
  shutdowns := List.forall_mem_set h.shutdowns (h.shutdowns d hd)

/-- A pump that goes on is still in the same place, and over if it was. -/
theorem shutdowns_set (h : Fencing s) (hw : s.pumps[i]? = some w) {stage : PumpStage}
    (hover : w.stage = .over → stage = .over) :
    ∀ d ∈ s.shutdowns, ∀ j, d.worker = some j → ∃ w', (s.pumps.set i { w with stage })[j]? = some w' ∧
      (w'.stage = .over ∨ s.stops[w'.stop]? = some true) := by
  intro d hd j hj
  obtain ⟨w', hw', hfenced⟩ := h.shutdowns d hd j hj
  by_cases hji : j = i
  · subst hji
    obtain rfl : w = w' := Option.some.inj (hw.symm.trans hw')
    exact ⟨_, List.getElem?_set_self (List.getElem?_eq_some_iff.mp hw).1, hfenced.imp_left hover⟩
  · exact ⟨w', (List.getElem?_set_ne (Ne.symm hji)).trans hw', hfenced⟩

/-- A pump goes on. -/
theorem goOn (h : Fencing s) (hw : s.pumps[i]? = some w) (hover : w.stage ≠ .over) (stage : PumpStage) :
    Fencing { s with pumps := s.pumps.set i { w with stage } } where
  current j w' hw' hstage hunset := by
    rcases List.getElem?_set_some hw' with ⟨rfl, rfl⟩ | ⟨-, hw'⟩
    · exact h.current j w hw hover hunset
    · exact h.current j w' hw' hstage hunset
  stop_lt := List.forall_mem_set h.stop_lt (h.stop_lt w (List.mem_of_getElem? hw))
  receiveStop_lt := h.receiveStop_lt
  worker_lt j hj := by
    dsimp only
    rw [List.length_set]
    exact h.worker_lt j hj
  selected := h.selected
  shutdowns := h.shutdowns_set hw fun hstage ↦ absurd hstage hover

/-- A pump ends. -/
theorem leave (h : Fencing s) (hw : s.pumps[i]? = some w) :
    Fencing { s with
      receiveWorker := if s.receiveWorker = some i then none else s.receiveWorker
      pumps := s.pumps.set i { w with stage := .over } } where
  current j w' hw' hstage hunset := by
    rcases List.getElem?_set_some hw' with ⟨rfl, rfl⟩ | ⟨hji, hw'⟩
    · exact absurd rfl hstage
    · obtain ⟨hworker, hcurrent⟩ := h.current j w' hw' hstage hunset
      refine ⟨?_, hcurrent⟩
      dsimp only
      rw [if_neg fun hi ↦ hji (Option.some.inj (hworker.symm.trans hi)), hworker]
  stop_lt := List.forall_mem_set h.stop_lt (h.stop_lt w (List.mem_of_getElem? hw))
  receiveStop_lt := h.receiveStop_lt
  worker_lt j hj := by
    dsimp only at hj ⊢
    rw [List.length_set]
    split at hj
    · cases hj
    · exact h.worker_lt j hj
  selected := h.selected
  shutdowns := h.shutdowns_set hw fun _ ↦ rfl

end Fencing

/-! ## The shared slots -/

/-- Everything that the pops find was left by a pump of the selected generation. -/
structure Slots (s : State) : Prop where
  idle : s.receiveConsumer = none → s.receiveBuffer = [] ∧ s.receiveFailed = none ∧
    s.receiveControlError = none ∧ s.receiveDemand = 0
  length_le : s.receiveBuffer.length ≤ 1
  /-- The pump has its next delivery before it is asked for another. -/
  empty : ∀ (i : ℕ) (w : Pump), s.pumps[i]? = some w →
    (w.stage = .receiving ∨ ∃ m, w.stage = .received m) → s.pumpIsCurrent w → s.receiveBuffer = []
  own : ∀ d ∈ s.receiveBuffer, s.receiveConsumer = some d.consumer ∧ s.receiveGeneration = d.generation
  failed : ∀ i, s.receiveFailed = some i ∨ s.receiveControlError = some i → ∃ w, s.pumps[i]? = some w ∧
    s.receiveConsumer = some w.consumer ∧ s.receiveGeneration = w.generation
  /-- A receive takes back a demand. -/
  demand : ∀ g, s.receives.count g + (if s.receiveGeneration = g then s.receiveDemand else 0) ≤
    s.pops.countP (·.generation = g)

namespace Slots

theorem select (h : Slots s) (hf : Fencing s) (hs : s.selectedTopic = false) (consumer : ℕ) :
    Slots (s.select consumer) := by
  have hbuffer := (h.idle (hf.selected hs)).1
  refine ⟨nofun, h.length_le, fun i w hw _ hcurrent ↦ ?_, fun d hd ↦ ?_, ?_, fun g ↦ ?_⟩
  · exact hbuffer
  · rw [show (s.select consumer).receiveBuffer = s.receiveBuffer from rfl, hbuffer] at hd
    cases hd
  · rintro i (hi | hi) <;> cases hi
  · have := h.demand g
    show s.receives.count g + (if (s.select consumer).receiveGeneration = g then 0 else 0) ≤ _
    rw [ite_self]
    exact (Nat.le_add_right _ _).trans this

theorem startReceiveWorker (h : Slots s) (starts : Bool) : Slots (s.startReceiveWorker starts).1 := by
  unfold State.startReceiveWorker
  split
  · exact h
  split
  · next consumer stop hconsumer hstop =>
    split
    · refine ⟨h.idle, h.length_le, fun i w hw hstage hcurrent ↦ ?_, h.own, fun i hi ↦ ?_, h.demand⟩
      · rcases List.getElem?_concat_some hw with ⟨-, rfl⟩ | hw
        · rcases hstage with hstage | ⟨m, hstage⟩ <;> cases hstage
        · exact h.empty i w hw hstage hcurrent
      · obtain ⟨w, hw, hrest⟩ := h.failed i hi
        exact ⟨w, List.getElem?_of_grown (List.prefix_append _ _) hw, hrest⟩
    · exact ⟨h.idle, h.length_le, h.empty, h.own, h.failed, h.demand⟩
  · exact h
  · exact h

/-- A pop of the selected generation leaves its demand. -/
theorem leave (h : Slots s) {p : Pop} (hp : p.generation = s.receiveGeneration)
    (hconsumer : s.receiveConsumer ≠ none) : Slots { s with receiveDemand := 1, pops := s.pops ++ [p] } where
  idle hnone := absurd hnone hconsumer
  length_le := h.length_le
  empty := h.empty
  own := h.own
  failed := h.failed
  demand g := by
    have hdemand := h.demand g
    dsimp only
    rw [List.countP_concat, hp]
    by_cases hg : s.receiveGeneration = g
    · simp only [hg, if_true, decide_true, Bool.toNat_true] at hdemand ⊢
      omega
    · simpa [hg] using hdemand

theorem fence (h : Slots s) : Slots s.fence where
  idle _ := ⟨rfl, rfl, rfl, rfl⟩
  length_le := Nat.zero_le 1
  empty _ _ _ _ _ := rfl
  own _ := nofun
  failed i hi := by rcases hi with hi | hi <;> cases hi
  demand g := by
    have := h.demand g
    show s.receives.count g + (if s.fence.receiveGeneration = g then 0 else 0) ≤ _
    rw [ite_self]
    exact (Nat.le_add_right _ _).trans this

theorem finishShutdown (h : Slots s) (worker : Option ℕ) : Slots (s.finishShutdown worker) := by
  have hstopped : ∀ (i : ℕ) (w : Pump), s.pumps[i]? = some w → (none : Option ℕ) = some w.stop →
      s.receiveBuffer = [] := fun _ _ _ ↦ nofun
  unfold State.finishShutdown
  split
  · exact ⟨h.idle, h.length_le, fun i w hw _ hcurrent ↦ hstopped i w hw hcurrent.2.2.2, h.own, h.failed, h.demand⟩
  · split
    · exact ⟨h.idle, h.length_le, fun i w hw _ hcurrent ↦ hstopped i w hw hcurrent.2.2.2, h.own, h.failed,
        h.demand⟩
    · exact h

/-- A pop takes the delivery. -/
theorem take (h : Slots s) {d : Delivery} {buffer : List Delivery} (hbuffer : s.receiveBuffer = d :: buffer) :
    Slots { s with receiveBuffer := buffer } := by
  have hnil : buffer = [] := by
    have hle := h.length_le
    rw [hbuffer, List.length_cons] at hle
    exact List.length_eq_zero_iff.mp (by omega)
  subst hnil
  exact ⟨fun hnone ↦ ⟨rfl, (h.idle hnone).2⟩, Nat.zero_le 1, fun _ _ _ _ _ ↦ rfl, fun _ ↦ nofun, h.failed,
    h.demand⟩

/-- The stage of a pop does not matter. -/
theorem setPop (h : Slots s) {n : ℕ} {p : Pop} (hp : s.pops[n]? = some p) (stage : PopStage) :
    Slots { s with pops := s.pops.set n { p with stage } } where
  idle := h.idle
  length_le := h.length_le
  empty := h.empty
  own := h.own
  failed := h.failed
  demand g := by
    have hcount := List.countP_set_add (b := { p with stage }) (fun q : Pop ↦ decide (q.generation = g)) hp
    have := h.demand g
    dsimp only at hcount ⊢
    omega

/-- A pump that does not hold a delivery goes on. -/
theorem goOn (h : Slots s) (hw : s.pumps[i]? = some w) {stage : PumpStage}
    (hempty : (stage = .receiving ∨ ∃ m, stage = .received m) → s.pumpIsCurrent w → s.receiveBuffer = []) :
    Slots { s with pumps := s.pumps.set i { w with stage } } where
  idle := h.idle
  length_le := h.length_le
  empty j w' hw' hstage hcurrent := by
    rcases List.getElem?_set_some hw' with ⟨-, rfl⟩ | ⟨-, hw'⟩
    · exact hempty hstage hcurrent
    · exact h.empty j w' hw' hstage hcurrent
  own := h.own
  failed j hj := by
    obtain ⟨w', hw', hrest⟩ := h.failed j hj
    by_cases hji : j = i
    · subst hji
      obtain rfl : w = w' := Option.some.inj (hw.symm.trans hw')
      exact ⟨_, List.getElem?_set_self (List.getElem?_eq_some_iff.mp hw).1, hrest⟩
    · exact ⟨w', (List.getElem?_set_ne (Ne.symm hji)).trans hw', hrest⟩
  demand := h.demand

/-- The pump takes a demand back. -/
theorem accept (h : Slots s) (hgeneration : s.receiveGeneration = w.generation) (hdemand : s.receiveDemand ≠ 0) :
    Slots { s with receiveDemand := s.receiveDemand - 1, receives := s.receives ++ [w.generation] } where
  idle hnone := absurd (h.idle hnone).2.2.2 hdemand
  length_le := h.length_le
  empty := h.empty
  own := h.own
  failed := h.failed
  demand g := by
    have := h.demand g
    dsimp only
    rw [List.count_append, List.count_singleton, ← hgeneration]
    by_cases hg : s.receiveGeneration = g
    · simp only [hg, if_true, beq_self_eq_true] at this ⊢
      omega
    · simpa [hg] using this

/-- The pump publishes what it has got. -/
theorem publish (h : Slots s) (hf : Fencing s) (hw : s.pumps[i]? = some w) {message : Option ℕ}
    (hstage : w.stage = .received message) (hcurrent : s.pumpIsCurrent w) (cycle : ℕ) :
    Slots { s with
      receiveCycle := cycle
      receiveBuffer := s.receiveBuffer ++ (message.map (⟨·, w.consumer, w.generation⟩)).toList
      pumps := s.pumps.set i { w with stage := .waiting } } := by
  have hempty := h.empty i w hw (.inr ⟨message, hstage⟩) hcurrent
  have hgoOn : Slots { s with pumps := s.pumps.set i { w with stage := .waiting } } :=
    h.goOn hw (by rintro (h | ⟨m, h⟩) <;> cases h)
  refine ⟨fun hnone ↦ ?_, ?_, fun j w' hw' hstage' hcurrent' ↦ ?_, fun d hd ↦ ?_, hgoOn.failed, h.demand⟩
  · rw [hcurrent.2.1] at hnone
    cases hnone
  · dsimp only
    rw [hempty]
    cases message <;> simp
  · -- Another pump that is not fenced does not exist.
    rcases List.getElem?_set_some hw' with ⟨-, rfl⟩ | ⟨hji, hw'⟩
    · rcases hstage' with hstage' | ⟨m, hstage'⟩ <;> cases hstage'
    · refine absurd (hf.alone hw' hw ?_ ?_ hcurrent'.1 hcurrent.1) hji
      · rintro hover
        rw [hover] at hstage'
        rcases hstage' with hstage' | ⟨m, hstage'⟩ <;> cases hstage'
      · rw [hstage]
        exact PumpStage.noConfusion
  · dsimp only at hd
    rw [hempty, List.nil_append, Option.mem_toList, Option.map_eq_some_iff] at hd
    obtain ⟨m, -, rfl⟩ := hd
    exact ⟨hcurrent.2.1, hcurrent.2.2.1⟩

/-- The pump reports that it has failed. -/
theorem fail (h : Slots s) (hw : s.pumps[i]? = some w) (hcurrent : s.pumpIsCurrent w) (cycle : ℕ)
    {failed control : Option ℕ} (hfailed : failed = some i ∨ failed = s.receiveFailed)
    (hcontrol : control = some i ∨ control = s.receiveControlError) :
    Slots { s with receiveFailed := failed, receiveControlError := control, receiveCycle := cycle } where
  idle hnone := by
    rw [hcurrent.2.1] at hnone
    cases hnone
  length_le := h.length_le
  empty := h.empty
  own := h.own
  failed j hj := by
    have hself : ∃ w, s.pumps[i]? = some w ∧ s.receiveConsumer = some w.consumer ∧
        s.receiveGeneration = w.generation := ⟨w, hw, hcurrent.2.1, hcurrent.2.2.1⟩
    rcases hj with hj | hj
    · rcases hfailed with rfl | rfl
      · exact Option.some.inj hj ▸ hself
      · exact h.failed j (.inl hj)
    · rcases hcontrol with rfl | rfl
      · exact Option.some.inj hj ▸ hself
      · exact h.failed j (.inr hj)
  demand := h.demand

theorem setWorker (h : Slots s) (worker : Option ℕ) : Slots { s with receiveWorker := worker } :=
  ⟨h.idle, h.length_le, h.empty, h.own, h.failed, h.demand⟩

end Slots

/-! ## Messages -/

/-- The delivery that a pop has got. -/
def PopStage.delivery : PopStage → Option Delivery
  | .taken d | .done (.returned d) | .done (.changed d) => some d
  | .waiting .. | .done .empty | .done .notConnected | .done .notStarted | .done (.failed _)
  | .done (.control _) => none

/-- The pump whose failure a pop reports. -/
def PopStage.failure : PopStage → Option ℕ
  | .done (.failed i) | .done (.control i) => some i
  | .waiting .. | .taken _ | .done .empty | .done .notConnected | .done .notStarted | .done (.changed _)
  | .done (.returned _) => none

/-- The pop has the message. -/
def Pop.holds (m : ℕ) (p : Pop) : Bool := p.stage.delivery.any (·.message = m)

/-- The pump has the message. -/
def Pump.holds (m : ℕ) (w : Pump) : Bool := w.stage = .received (some m)

/-- What a pop was told comes from a pump of its own generation. -/
structure Pop.Told (received : List (ℕ × ℕ)) (pumps : List Pump) (p : Pop) : Prop where
  delivery : ∀ d, p.stage.delivery = some d → d.consumer = p.consumer ∧ d.generation = p.generation ∧
    received[d.message]? = some (p.consumer, p.generation)
  failure : ∀ i, p.stage.failure = some i →
    ∃ w, pumps[i]? = some w ∧ w.consumer = p.consumer ∧ w.generation = p.generation

/-- Each message is at one place at most. -/
structure Messages (s : State) : Prop where
  once : ∀ m, s.pumps.countP (Pump.holds m) + s.receiveBuffer.countP (·.message = m) +
    s.pops.countP (Pop.holds m) ≤ if m < s.received.length then 1 else 0
  pumps : ∀ w ∈ s.pumps, ∀ m, w.stage = .received (some m) → s.received[m]? = some (w.consumer, w.generation)
  buffer : ∀ d ∈ s.receiveBuffer, s.received[d.message]? = some (d.consumer, d.generation)
  pops : ∀ p ∈ s.pops, p.Told s.received s.pumps

/-- Pumps keep what they were started with. -/
theorem Pop.Told.mono {received received' : List (ℕ × ℕ)} {pumps pumps' : List Pump} {p : Pop}
    (h : p.Told received pumps) (hreceived : received <+: received')
    (hpumps : ∀ (i : ℕ) (w : Pump), pumps[i]? = some w → ∃ w', pumps'[i]? = some w' ∧ w'.consumer = w.consumer ∧
      w'.generation = w.generation) : p.Told received' pumps' where
  delivery d hd := by
    obtain ⟨hconsumer, hgeneration, hm⟩ := h.delivery d hd
    exact ⟨hconsumer, hgeneration, List.getElem?_of_grown hreceived hm⟩
  failure i hi := by
    obtain ⟨w, hw, hconsumer, hgeneration⟩ := h.failure i hi
    obtain ⟨w', hw', hconsumer', hgeneration'⟩ := hpumps i w hw
    exact ⟨w', hw', hconsumer'.trans hconsumer, hgeneration'.trans hgeneration⟩

/-- A pump that goes on is the same pump. -/
theorem exists_pump_set {pumps : List Pump} (hw : pumps[i]? = some w) (stage : PumpStage) (j : ℕ) (w₀ : Pump)
    (hj : pumps[j]? = some w₀) : ∃ w', (pumps.set i { w with stage })[j]? = some w' ∧
      w'.consumer = w₀.consumer ∧ w'.generation = w₀.generation := by
  by_cases hji : j = i
  · subst hji
    obtain rfl : w = w₀ := Option.some.inj (hw.symm.trans hj)
    exact ⟨_, List.getElem?_set_self (List.getElem?_eq_some_iff.mp hw).1, rfl, rfl⟩
  · exact ⟨w₀, (List.getElem?_set_ne (Ne.symm hji)).trans hj, rfl, rfl⟩

namespace Messages

/-- Two states with the same messages at the same places. -/
theorem congr {t : State} (h : Messages s) (hpumps : t.pumps = s.pumps)
    (hbuffer : t.receiveBuffer = s.receiveBuffer) (hpops : t.pops = s.pops)
    (hreceived : t.received = s.received) : Messages t := by
  obtain ⟨once, pumps, buffer, pops⟩ := h
  exact ⟨by rwa [hpumps, hbuffer, hpops, hreceived], by rwa [hpumps, hreceived],
    by rwa [hbuffer, hreceived], by rwa [hpops, hreceived, hpumps]⟩

theorem startReceiveWorker (h : Messages s) (starts : Bool) : Messages (s.startReceiveWorker starts).1 := by
  unfold State.startReceiveWorker
  split
  · exact h
  split
  · split
    · refine ⟨fun m ↦ ?_, fun w hw ↦ ?_, h.buffer, fun p hp ↦ (h.pops p hp).mono (List.prefix_refl _) fun i w hw ↦ ?_⟩
      · have := h.once m
        dsimp only
        rw [List.countP_concat]
        exact this
      · rcases List.mem_append.mp hw with hw | hw
        · exact h.pumps w hw
        · rw [List.mem_singleton.mp hw]
          exact fun _ ↦ nofun
      · exact ⟨w, List.getElem?_of_grown (List.prefix_append _ _) hw, rfl, rfl⟩
    · exact h.congr rfl rfl rfl rfl
  · exact h
  · exact h

/-- A new pop has nothing. -/
theorem leave (h : Messages s) {p : Pop} (hdelivery : p.stage.delivery = none) (hfailure : p.stage.failure = none)
    (demand : ℕ) : Messages { s with receiveDemand := demand, pops := s.pops ++ [p] } where
  once m := by
    have hp : p.holds m = false := by rw [Pop.holds, hdelivery, Option.any_none]
    have := h.once m
    dsimp only
    rw [List.countP_concat, hp]
    exact this
  pumps := h.pumps
  buffer := h.buffer
  pops p' hp' := by
    rcases List.mem_append.mp hp' with hp' | hp'
    · exact h.pops p' hp'
    · rw [List.mem_singleton.mp hp']
      exact ⟨by rw [hdelivery]; exact fun _ ↦ nofun, by rw [hfailure]; exact fun _ ↦ nofun⟩

/-- A buffer that is cleared. -/
theorem fence (h : Messages s) : Messages s.fence where
  once m := by
    refine le_trans ?_ (h.once m)
    exact Nat.add_le_add_right (Nat.add_le_add_left (Nat.zero_le _) _) _
  pumps := h.pumps
  buffer _ := nofun
  pops := h.pops

theorem finishShutdown (h : Messages s) (worker : Option ℕ) : Messages (s.finishShutdown worker) := by
  unfold State.finishShutdown
  split
  · exact h.congr rfl rfl rfl rfl
  · split
    · exact h.congr rfl rfl rfl rfl
    · exact h

/-- A pop that gets nothing goes on. -/
theorem setPop (h : Messages s) {n : ℕ} {p : Pop} (hp : s.pops[n]? = some p) {stage : PopStage}
    (hdelivery : ∀ m, Pop.holds m { p with stage } = p.holds m)
    (htold : Pop.Told s.received s.pumps { p with stage }) :
    Messages { s with pops := s.pops.set n { p with stage } } where
  once m := by
    have hcount := List.countP_set_add (b := { p with stage }) (Pop.holds m) hp
    have := h.once m
    rw [hdelivery m] at hcount
    dsimp only
    omega
  pumps := h.pumps
  buffer := h.buffer
  pops := List.forall_mem_set h.pops htold

/-- A delivery goes from the buffer to a pop. -/
theorem take (h : Messages s) {n : ℕ} {p : Pop} (hp : s.pops[n]? = some p) (hdelivery : p.stage.delivery = none)
    {d : Delivery} {buffer : List Delivery} (hbuffer : s.receiveBuffer = d :: buffer)
    (hconsumer : d.consumer = p.consumer) (hgeneration : d.generation = p.generation) :
    Messages { s with receiveBuffer := buffer, pops := s.pops.set n { p with stage := .taken d } } where
  once m := by
    have hcount := List.countP_set_add (b := { p with stage := .taken d }) (Pop.holds m) hp
    have hp' : p.holds m = false := by rw [Pop.holds, hdelivery, Option.any_none]
    have hd : Pop.holds m { p with stage := .taken d } = decide (d.message = m) := rfl
    have := h.once m
    rw [hbuffer, List.countP_cons] at this
    rw [hp', hd] at hcount
    dsimp only
    by_cases hm : d.message = m
    · simp only [hm, decide_true, if_true, Bool.toNat_true, Bool.toNat_false] at hcount this ⊢
      omega
    · simp only [hm, decide_false, if_false, Bool.toNat_false, Bool.false_eq_true] at hcount this ⊢
      omega
  pumps := h.pumps
  buffer d' hd' := h.buffer d' (hbuffer ▸ List.mem_cons_of_mem d hd')
  pops := by
    refine List.forall_mem_set h.pops ⟨fun d' hd' ↦ ?_, fun _ ↦ nofun⟩
    obtain rfl : d = d' := Option.some.inj hd'
    have hm := h.buffer d (hbuffer ▸ List.mem_cons_self)
    rw [hconsumer, hgeneration] at hm
    exact ⟨hconsumer, hgeneration, hm⟩

/-- A pump goes on with the message that it has, or drops it. -/
theorem goOn (h : Messages s) (hw : s.pumps[i]? = some w) {stage : PumpStage}
    (hstage : ∀ m, stage = .received (some m) → w.stage = .received (some m)) :
    Messages { s with pumps := s.pumps.set i { w with stage } } where
  once m := by
    have hcount := List.countP_set_add (b := { w with stage }) (Pump.holds m) hw
    have hle : (Pump.holds m { w with stage }).toNat ≤ (w.holds m).toNat := by
      by_cases hm : stage = .received (some m)
      · rw [Pump.holds, Pump.holds, hstage m hm, hm]
      · have hfalse : Pump.holds m { w with stage } = false := decide_eq_false hm
        rw [hfalse]
        exact Nat.zero_le _
    have := h.once m
    dsimp only
    omega
  pumps := List.forall_mem_set h.pumps fun m hm ↦ h.pumps w (List.mem_of_getElem? hw) m (hstage m hm)
  buffer := h.buffer
  pops p hp := (h.pops p hp).mono (List.prefix_refl _) (exists_pump_set hw stage)

/-- A pump receives a message. -/
theorem receive (h : Messages s) (hw : s.pumps[i]? = some w) (hstage : w.stage = .receiving) :
    Messages { s with
      received := s.received ++ [(w.consumer, w.generation)]
      pumps := s.pumps.set i { w with stage := .received (some s.received.length) } } where
  once m := by
    have hcount := List.countP_set_add (b := { w with stage := .received (some s.received.length) })
      (Pump.holds m) hw
    have hw' : w.holds m = false := by simp [Pump.holds, hstage]
    have hm : Pump.holds m { w with stage := .received (some s.received.length) } =
        decide (s.received.length = m) := by simp [Pump.holds]
    have := h.once m
    rw [hw', hm] at hcount
    dsimp only
    rw [List.length_append, List.length_singleton]
    by_cases heq : s.received.length = m
    · subst heq
      simp only [lt_irrefl, if_false, decide_true, Bool.toNat_true, Bool.toNat_false] at hcount this
      rw [if_pos (Nat.lt_succ_self _)]
      omega
    · simp only [heq, decide_false, Bool.toNat_false] at hcount
      have hlt : m < s.received.length → m < s.received.length + 1 := fun h ↦ Nat.lt_succ_of_lt h
      split at this
      · next hm => rw [if_pos (hlt hm)]; omega
      · omega
  pumps := by
    refine List.forall_mem_set (fun w' hw' m hm ↦ ?_) fun m hm ↦ ?_
    · exact List.getElem?_of_grown (List.prefix_append _ _) (h.pumps w' hw' m hm)
    · obtain rfl := Option.some.inj (PumpStage.received.inj hm)
      exact List.getElem?_concat_length
  buffer d hd := List.getElem?_of_grown (List.prefix_append _ _) (h.buffer d hd)
  pops p hp := (h.pops p hp).mono (List.prefix_append _ _) (exists_pump_set hw _)

/-- A pump puts its message into the buffer. -/
theorem publish (h : Messages s) (hw : s.pumps[i]? = some w) {message : Option ℕ}
    (hstage : w.stage = .received message) (cycle : ℕ) :
    Messages { s with
      receiveCycle := cycle
      receiveBuffer := s.receiveBuffer ++ (message.map (⟨·, w.consumer, w.generation⟩)).toList
      pumps := s.pumps.set i { w with stage := .waiting } } where
  once m := by
    have hcount := List.countP_set_add (b := { w with stage := .waiting }) (Pump.holds m) hw
    have hw' : Pump.holds m { w with stage := .waiting } = false := by simp [Pump.holds]
    have := h.once m
    rw [hw'] at hcount
    dsimp only
    rw [List.countP_append]
    cases message with
    | none =>
      simp only [Option.map_none, Option.toList_none, List.countP_nil, Bool.toNat_false] at hcount ⊢
      omega
    | some m' =>
      have hold : w.holds m = decide (m' = m) := by simp [Pump.holds, hstage]
      rw [hold] at hcount
      by_cases hm : m' = m
      · simp only [hm, decide_true, Bool.toNat_true, Bool.toNat_false, Option.map_some, Option.toList_some,
          List.countP_singleton, if_true] at hcount ⊢
        omega
      · simp only [hm, decide_false, Bool.toNat_false, Option.map_some, Option.toList_some,
          List.countP_singleton, Bool.false_eq_true, if_false] at hcount ⊢
        omega
  pumps := List.forall_mem_set h.pumps fun _ ↦ nofun
  buffer d hd := by
    rcases List.mem_append.mp hd with hd | hd
    · exact h.buffer d hd
    · rw [Option.mem_toList, Option.map_eq_some_iff] at hd
      obtain ⟨m, rfl, rfl⟩ := hd
      exact h.pumps w (List.mem_of_getElem? hw) m hstage
  pops p hp := (h.pops p hp).mono (List.prefix_refl _) (exists_pump_set hw _)

end Messages

/-! ## Runs -/

structure Inv (s : State) : Prop where
  fencing : Fencing s
  slots : Slots s
  messages : Messages s

theorem Inv.new : Inv .new where
  fencing := ⟨nofun, nofun, nofun, nofun, fun _ ↦ rfl, nofun⟩
  slots := ⟨fun _ ↦ ⟨rfl, rfl, rfl, rfl⟩, Nat.zero_le 1, nofun, nofun, (by rintro i (h | h) <;> cases h),
    fun g ↦ (by rw [show State.new.receiveDemand = 0 from rfl, ite_self]; exact Nat.zero_le 0)⟩
  messages := ⟨fun m ↦ by simp [State.new], nofun, nofun, nofun⟩

/-- A demand is for the selected generation, and the start of the worker does not look at it. -/
theorem State.startReceiveWorker_demand (s : State) (starts : Bool) (n : ℕ) :
    State.startReceiveWorker { s with receiveDemand := n } starts =
      ({ (s.startReceiveWorker starts).1 with receiveDemand := n }, (s.startReceiveWorker starts).2) := by
  have halive : State.isAlive { s with receiveDemand := n } = s.isAlive := rfl
  unfold State.startReceiveWorker
  dsimp only
  rw [halive]
  split
  · rfl
  · split
    · split <;> rfl
    · rfl
    · rfl

theorem State.startReceiveWorker_selected (s : State) (starts : Bool) :
    (s.startReceiveWorker starts).1.receiveConsumer = s.receiveConsumer ∧
      (s.startReceiveWorker starts).1.receiveGeneration = s.receiveGeneration ∧
      (s.startReceiveWorker starts).1.consumerGeneration = s.consumerGeneration := by
  unfold State.startReceiveWorker
  split
  · exact ⟨rfl, rfl, rfl⟩
  · split
    · split <;> exact ⟨rfl, rfl, rfl⟩
    · exact ⟨rfl, rfl, rfl⟩
    · exact ⟨rfl, rfl, rfl⟩

theorem Inv.startReceiveWorker (h : Inv s) (starts : Bool) : Inv (s.startReceiveWorker starts).1 :=
  ⟨h.fencing.startReceiveWorker starts, h.slots.startReceiveWorker starts, h.messages.startReceiveWorker starts⟩

/-- A pop leaves its demand. -/
theorem Inv.leave (h : Inv s) {p : Pop} (hconsumer : s.receiveConsumer ≠ none)
    (hgeneration : p.generation = s.receiveGeneration) (hdelivery : p.stage.delivery = none)
    (hfailure : p.stage.failure = none) : Inv { s with receiveDemand := 1, pops := s.pops ++ [p] } where
  fencing := h.fencing.congr rfl rfl rfl rfl rfl rfl rfl rfl
  slots := h.slots.leave hgeneration hconsumer
  messages := h.messages.leave hdelivery hfailure 1

theorem Inv.demand (h : Inv s) {consumer : ℕ} (hconsumer : s.receiveConsumer = some consumer)
    (hgeneration : s.receiveGeneration = s.consumerGeneration) (starts timed : Bool) :
    Inv (s.demand consumer starts timed) := by
  unfold State.demand
  dsimp only
  rw [State.startReceiveWorker_demand]
  split
  · obtain ⟨hconsumer', hgeneration', hnow⟩ := s.startReceiveWorker_selected starts
    refine (h.startReceiveWorker starts).leave ?_ ?_ ?_ ?_
    · rw [hconsumer', hconsumer]
      exact nofun
    · exact hnow.trans (hgeneration.symm.trans hgeneration'.symm)
    · dsimp only
      split <;> rfl
    · dsimp only
      split <;> rfl
  · exact h.leave (by rw [hconsumer]; exact nofun) hgeneration.symm rfl rfl

theorem Inv.receiveDelivery (h : Inv s) (running starts timed : Bool) :
    Inv (s.receiveDelivery running starts timed) := by
  unfold State.receiveDelivery
  split
  · exact h
  next consumer hconsumer =>
  split
  · exact h
  split
  · next hselected =>
    have hselect : Inv (s.select consumer) := by
      have hselected : s.selectedTopic = false := by simpa using hselected
      exact ⟨h.fencing.select hselected consumer, h.slots.select h.fencing hselected consumer,
        h.messages.congr rfl rfl rfl rfl⟩
    exact hselect.demand rfl rfl starts timed
  split
  · exact h
  · next hsame =>
    rw [not_or, not_not, not_not] at hsame
    exact h.demand hsame.1 hsame.2 starts timed

/-- A section of the wait of a pop. -/
theorem Inv.poll (h : Inv s) {n : ℕ} {p : Pop} (hp : s.pops[n]? = some p) {observedCycle : ℕ} {timed : Bool}
    (hstage : p.stage = .waiting observedCycle timed) (expired : Bool) {t : State} {stage : PopStage}
    (ht : s.poll p observedCycle timed expired = some (t, stage)) :
    Inv { t with pops := t.pops.set n { p with stage } } := by
  have hdelivery : p.stage.delivery = none := by rw [hstage]; rfl
  have hnothing : ∀ stage : PopStage, stage.delivery = none → (∀ i, stage.failure = some i →
      ∃ w, s.pumps[i]? = some w ∧ w.consumer = p.consumer ∧ w.generation = p.generation) →
      Inv { s with pops := s.pops.set n { p with stage } } := by
    intro stage hstage' hfailure
    refine ⟨h.fencing.congr rfl rfl rfl rfl rfl rfl rfl rfl, h.slots.setPop hp stage, h.messages.setPop hp ?_ ?_⟩
    · intro m
      rw [Pop.holds, Pop.holds, hdelivery, hstage']
    · exact ⟨by rw [hstage']; exact fun _ ↦ nofun, hfailure⟩
  unfold State.poll at ht
  split at ht
  · obtain ⟨rfl, rfl⟩ := Prod.mk.inj (Option.some.inj ht)
    exact hnothing _ rfl fun _ ↦ nofun
  next hsame =>
  rw [not_or, not_not, not_not] at hsame
  -- A failure that the pop sees is one of its own generation.
  have hfailed : ∀ i, s.receiveFailed = some i ∨ s.receiveControlError = some i →
      ∃ w, s.pumps[i]? = some w ∧ w.consumer = p.consumer ∧ w.generation = p.generation := by
    intro i hi
    obtain ⟨w, hw, hconsumer, hgeneration⟩ := h.slots.failed i hi
    exact ⟨w, hw, Option.some.inj (hconsumer.symm.trans hsame.1), hgeneration.symm.trans hsame.2⟩
  split at ht
  · next _ _ _ d buffer hbuffer =>
    obtain ⟨rfl, rfl⟩ := Prod.mk.inj (Option.some.inj ht)
    obtain ⟨hconsumer, hgeneration⟩ := h.slots.own d (hbuffer ▸ List.mem_cons_self)
    refine ⟨h.fencing.congr rfl rfl rfl rfl rfl rfl rfl rfl, (h.slots.take hbuffer).setPop hp _,
      h.messages.take hp hdelivery hbuffer ?_ ?_⟩
    · exact Option.some.inj (hconsumer.symm.trans hsame.1)
    · exact hgeneration.symm.trans hsame.2
  · next w _ hcontrol =>
    obtain ⟨rfl, rfl⟩ := Prod.mk.inj (Option.some.inj ht)
    exact hnothing _ rfl fun i hi ↦ hfailed i (.inr (hcontrol.trans hi))
  · next w _ _ hfail =>
    obtain ⟨rfl, rfl⟩ := Prod.mk.inj (Option.some.inj ht)
    exact hnothing _ rfl fun i hi ↦ hfailed i (.inl (hfail.trans hi))
  · split at ht
    · obtain ⟨rfl, rfl⟩ := Prod.mk.inj (Option.some.inj ht)
      exact hnothing _ rfl fun _ ↦ nofun
    · cases ht

/-- A pump that only changes its stage. -/
theorem Inv.goOn (h : Inv s) (hw : s.pumps[i]? = some w) (hover : w.stage ≠ .over) {stage : PumpStage}
    (hreceived : ∀ m, stage ≠ .received (some m))
    (hempty : (stage = .receiving ∨ ∃ m, stage = .received m) → s.pumpIsCurrent w → s.receiveBuffer = []) :
    Inv { s with pumps := s.pumps.set i { w with stage } } where
  fencing := h.fencing.goOn hw hover stage
  slots := h.slots.goOn hw hempty
  messages := h.messages.goOn hw fun m hm ↦ absurd hm (hreceived m)

/-- A pump that leaves, or waits again. -/
theorem Inv.quiet (h : Inv s) (hw : s.pumps[i]? = some w) (hover : w.stage ≠ .over) {stage : PumpStage}
    (hreceived : ∀ m, stage ≠ .received m) (hreceiving : stage ≠ .receiving) :
    Inv { s with pumps := s.pumps.set i { w with stage } } :=
  h.goOn hw hover (fun m ↦ hreceived (some m)) (by
    rintro (heq | ⟨m, heq⟩)
    · exact absurd heq hreceiving
    · exact absurd heq (hreceived m))

/-- A section of a pump. -/
theorem Inv.pump (h : Inv s) (hw : s.pumps[i]? = some w) {outcome : Outcome} {t : State} {stage : PumpStage}
    (ht : s.pump i w outcome = some (t, stage)) : Inv { t with pumps := t.pumps.set i { w with stage } } := by
  -- A report of the pump, which leaves then.
  have hreport : w.stage ≠ .over → s.pumpIsCurrent w → ∀ failed control : Option ℕ,
      (failed = some i ∨ failed = s.receiveFailed) → (control = some i ∨ control = s.receiveControlError) →
      Inv { s with
        receiveFailed := failed, receiveControlError := control, receiveCycle := s.receiveCycle + 1
        pumps := s.pumps.set i { w with stage := .leaving } } := by
    intro hover hcurrent failed control hfailed hcontrol
    have hreported : Inv { s with
        receiveFailed := failed, receiveControlError := control, receiveCycle := s.receiveCycle + 1 } :=
      ⟨h.fencing.congr rfl rfl rfl rfl rfl rfl rfl rfl, h.slots.fail hw hcurrent _ hfailed hcontrol,
        h.messages.congr rfl rfl rfl rfl⟩
    exact hreported.quiet hw hover (fun _ ↦ nofun) nofun
  have hquiet : ∀ stage : PumpStage, w.stage ≠ .over → (∀ m, stage ≠ .received m) → stage ≠ .receiving →
      Inv { s with pumps := s.pumps.set i { w with stage } } := fun stage hover hreceived hreceiving ↦
    h.quiet hw hover hreceived hreceiving
  rcases w with ⟨consumer, generation, stop, stage₀⟩
  cases stage₀ with
  | subscribing =>
    cases outcome with
    | message => cases ht
    | empty | error | control =>
      obtain ⟨rfl, rfl⟩ := Prod.mk.inj (Option.some.inj ht)
      exact hquiet _ nofun (fun _ ↦ nofun) nofun
  | subscribed =>
    obtain ⟨rfl, rfl⟩ := Prod.mk.inj (Option.some.inj ht)
    refine hquiet _ nofun (fun m ↦ ?_) ?_
    · split <;> exact nofun
    · split <;> exact nofun
  | waiting =>
    simp only [State.pump] at ht
    split at ht
    · obtain ⟨rfl, rfl⟩ := Prod.mk.inj (Option.some.inj ht)
      exact hquiet _ nofun (fun _ ↦ nofun) nofun
    next hcurrent =>
    rw [not_not] at hcurrent
    split at ht
    · cases ht
    next hready =>
    rw [not_or, not_not] at hready
    obtain ⟨rfl, rfl⟩ := Prod.mk.inj (Option.some.inj ht)
    have haccepted : Inv { s with
        receiveDemand := s.receiveDemand - 1, receives := s.receives ++ [generation] } :=
      ⟨h.fencing.congr rfl rfl rfl rfl rfl rfl rfl rfl, h.slots.accept hcurrent.2.2.1 hready.2,
        h.messages.congr rfl rfl rfl rfl⟩
    exact haccepted.goOn hw nofun (fun _ ↦ nofun) fun _ _ ↦ hready.1
  | receiving =>
    have hempty : s.pumpIsCurrent ⟨consumer, generation, stop, .receiving⟩ → s.receiveBuffer = [] :=
      h.slots.empty i _ hw (.inl rfl)
    cases outcome with
    | error | control =>
      obtain ⟨rfl, rfl⟩ := Prod.mk.inj (Option.some.inj ht)
      exact hquiet _ nofun (fun _ ↦ nofun) nofun
    | empty =>
      obtain ⟨rfl, rfl⟩ := Prod.mk.inj (Option.some.inj ht)
      exact h.goOn hw nofun (fun _ ↦ nofun) fun _ ↦ hempty
    | message =>
      obtain ⟨rfl, rfl⟩ := Prod.mk.inj (Option.some.inj ht)
      refine ⟨(h.fencing.goOn hw nofun _).congr rfl rfl rfl rfl rfl rfl rfl rfl, ?_, h.messages.receive hw rfl⟩
      obtain ⟨idle, length_le, empty, own, failed, demand⟩ := h.slots.goOn hw fun _ ↦ hempty
      exact ⟨idle, length_le, empty, own, failed, demand⟩
  | received message =>
    simp only [State.pump] at ht
    split at ht
    · obtain ⟨rfl, rfl⟩ := Prod.mk.inj (Option.some.inj ht)
      exact hquiet _ nofun (fun _ ↦ nofun) nofun
    next hcurrent =>
    rw [not_not] at hcurrent
    obtain ⟨rfl, rfl⟩ := Prod.mk.inj (Option.some.inj ht)
    exact ⟨(h.fencing.goOn hw nofun _).congr rfl rfl rfl rfl rfl rfl rfl rfl,
      h.slots.publish h.fencing hw rfl hcurrent _, h.messages.publish hw rfl _⟩
  | raised control =>
    simp only [State.pump] at ht
    split at ht
    · obtain ⟨rfl, rfl⟩ := Prod.mk.inj (Option.some.inj ht)
      exact hquiet _ nofun (fun _ ↦ nofun) nofun
    next hcurrent =>
    rw [not_not] at hcurrent
    split at ht
    · obtain ⟨rfl, rfl⟩ := Prod.mk.inj (Option.some.inj ht)
      exact hreport nofun hcurrent _ _ (.inr rfl) (.inl rfl)
    · obtain ⟨rfl, rfl⟩ := Prod.mk.inj (Option.some.inj ht)
      exact hreport nofun hcurrent _ _ (.inl rfl) (.inr rfl)
  | leaving =>
    obtain ⟨rfl, rfl⟩ := Prod.mk.inj (Option.some.inj ht)
    have hover := hquiet .over nofun (fun _ ↦ nofun) nofun
    have hfencing := h.fencing.leave hw
    split
    · next hworker =>
      rw [if_pos hworker] at hfencing
      exact ⟨hfencing, hover.slots.setWorker none, hover.messages.congr rfl rfl rfl rfl⟩
    · exact hover
  | _ => cases ht

/-- The fence of a disconnect. -/
theorem Inv.fence (h : Inv s) : Inv s.fence := ⟨h.fencing.fence, h.slots.fence, h.messages.fence⟩

theorem Inv.finishShutdown (h : Inv s) {d : Shutdown} (hd : d ∈ s.shutdowns) :
    Inv (s.finishShutdown d.worker) :=
  ⟨h.fencing.finishShutdown hd, h.slots.finishShutdown d.worker, h.messages.finishShutdown d.worker⟩

/-- What the slots and the messages do not look at. -/
theorem Inv.setShutdowns (h : Inv s) {shutdowns : List Shutdown} (hfencing : Fencing { s with shutdowns }) :
    Inv { s with shutdowns } where
  fencing := hfencing
  slots := ⟨h.slots.idle, h.slots.length_le, h.slots.empty, h.slots.own, h.slots.failed, h.slots.demand⟩
  messages := h.messages.congr rfl rfl rfl rfl

/-- The same for the consumer of the next pops. -/
theorem Inv.setConsumer (h : Inv s) (consumer : Option ℕ) (consumers consumerGeneration : ℕ) :
    Inv { s with consumer, consumers, consumerGeneration } where
  fencing := h.fencing.congr rfl rfl rfl rfl rfl rfl rfl rfl
  slots := ⟨h.slots.idle, h.slots.length_le, h.slots.empty, h.slots.own, h.slots.failed, h.slots.demand⟩
  messages := h.messages.congr rfl rfl rfl rfl

/-- A pop ends with its delivery. -/
theorem Inv.finishPop (h : Inv s) {n : ℕ} {p : Pop} (hp : s.pops[n]? = some p) {d : Delivery}
    (hstage : p.stage = .taken d) :
    Inv { s with pops := s.pops.set n { p with stage := .done (s.finishPop d) } } := by
  have hdelivery : (PopStage.done (s.finishPop d)).delivery = p.stage.delivery := by
    rw [hstage, State.finishPop]
    split <;> rfl
  refine ⟨h.fencing.congr rfl rfl rfl rfl rfl rfl rfl rfl, h.slots.setPop hp _, h.messages.setPop hp ?_ ?_⟩
  · intro m
    rw [Pop.holds, Pop.holds, hdelivery]
  · have htold := h.messages.pops p (List.mem_of_getElem? hp)
    refine ⟨fun d' hd' ↦ htold.delivery d' (hdelivery ▸ hd'), fun i hi ↦ ?_⟩
    rw [State.finishPop] at hi
    split at hi <;> cases hi

theorem Inv.step (h : Inv s) {l : Label} {t : State} (ht : s.step l = some t) : Inv t := by
  cases l with
  | connect =>
    simp only [State.step] at ht
    split at ht <;> obtain rfl := Option.some.inj ht
    · exact h
    · exact h.setConsumer ..
  | disconnect =>
    obtain rfl := Option.some.inj ht
    exact (h.fence.setConsumer none _ _).setShutdowns ((h.fence.setConsumer none _ _).fencing.disconnect rfl)
  | finishShutdown k =>
    obtain ⟨d, hd, ht⟩ := Option.bind_eq_some_iff.mp ht
    obtain ⟨-, -, ht⟩ := Option.bind_eq_some_iff.mp ht
    obtain rfl := Option.some.inj ht
    have hmem : d ∈ s.shutdowns := List.mem_of_getElem? hd
    have hfinished := h.finishShutdown hmem
    have hfencing := hfinished.fencing.setShutdown (k := k) (by rwa [State.finishShutdown_shutdowns]) true
    rw [State.finishShutdown_shutdowns] at hfencing
    exact hfinished.setShutdowns hfencing
  | pop running starts timed =>
    obtain rfl := Option.some.inj ht
    exact h.receiveDelivery running starts timed
  | poll n expired =>
    obtain ⟨p, hp, ht⟩ := Option.bind_eq_some_iff.mp ht
    split at ht
    · next observedCycle timed hstage =>
      obtain ⟨⟨t', stage⟩, hpoll, ht⟩ := Option.bind_eq_some_iff.mp ht
      obtain rfl := Option.some.inj ht
      exact h.poll hp hstage expired hpoll
    · cases ht
    · cases ht
  | finishPop n =>
    obtain ⟨p, hp, ht⟩ := Option.bind_eq_some_iff.mp ht
    split at ht
    · next d hstage =>
      obtain rfl := Option.some.inj ht
      exact h.finishPop hp hstage
    · cases ht
    · cases ht
  | pump i outcome =>
    obtain ⟨w, hw, ht⟩ := Option.bind_eq_some_iff.mp ht
    obtain ⟨⟨t', stage⟩, hpump, ht⟩ := Option.bind_eq_some_iff.mp ht
    obtain rfl := Option.some.inj ht
    exact h.pump hw hpump

theorem Inv.of_reachable (h : machine.Reachable s) : Inv s :=
  h.invariant Inv.new fun _ _ _ hs ht ↦ hs.step ht

/-! ## The pump -/

/-- What holds between the pumps and the pops of all generations. -/
structure Sound (s : State) : Prop where
  /-- There is one pump whose event is not set. -/
  alone : ∀ (i j : ℕ) (w w' : Pump), s.pumps[i]? = some w → s.pumps[j]? = some w' → w.stage ≠ .over →
    w'.stage ≠ .over → s.stops[w.stop]? = some false → s.stops[w'.stop]? = some false → i = j
  length_le : s.receiveBuffer.length ≤ 1
  count_le : ∀ g, s.receives.count g ≤ s.pops.countP (·.generation = g)
  receives_le : s.receives.length ≤ s.pops.length
  /-- A message is returned once. -/
  once : ∀ (n n' : ℕ) (p p' : Pop) (d d' : Delivery), s.pops[n]? = some p → s.pops[n']? = some p' →
    p.stage = .done (.returned d) → p'.stage = .done (.returned d') → d.message = d'.message → n = n'
  /-- A pop gets what was received for it. -/
  own : ∀ p ∈ s.pops, ∀ d, p.stage = .done (.returned d) → d.consumer = p.consumer ∧
    d.generation = p.generation ∧ s.received[d.message]? = some (p.consumer, p.generation)
  /-- It is told of the failures of its own pumps. -/
  failure : ∀ p ∈ s.pops, ∀ i, p.stage = .done (.failed i) ∨ p.stage = .done (.control i) →
    ∃ w, s.pumps[i]? = some w ∧ w.consumer = p.consumer ∧ w.generation = p.generation

/-- The receives of each generation are the demands of some of its pops. -/
theorem Slots.count_le (h : Slots s) (g : ℕ) : s.receives.count g ≤ s.pops.countP (·.generation = g) :=
  (Nat.le_add_right _ _).trans (h.demand g)

theorem Slots.receives_le (h : Slots s) : s.receives.length ≤ s.pops.length := by
  have hsub : List.Subperm s.receives (s.pops.map Pop.generation) := by
    rw [List.subperm_ext_iff]
    intro g _
    refine (h.count_le g).trans (le_of_eq ?_)
    rw [List.count_eq_countP, List.countP_map]
    congr 1
  exact hsub.length_le.trans_eq (List.length_map ..)

theorem receive_pump (h : machine.Reachable s) : Sound s := by
  obtain ⟨hfencing, hslots, hmessages⟩ := Inv.of_reachable h
  refine ⟨fun i j w w' hi hj hwi hwj hui huj ↦ hfencing.alone hi hj hwi hwj hui huj, hslots.length_le,
    hslots.count_le, hslots.receives_le, ?_, ?_, ?_⟩
  · intro n n' p p' d d' hn hn' hp hp' hd
    -- The message is at one place at most.
    have hle : s.pops.countP (Pop.holds d.message) ≤ 1 := by
      have honce := hmessages.once d.message
      split at honce <;> omega
    refine List.eq_of_countP_le_one _ hle hn hn' ?_ ?_
    · rw [Pop.holds, hp]
      exact decide_eq_true rfl
    · rw [Pop.holds, hp']
      exact decide_eq_true hd.symm
  · intro p hp d hd
    refine (hmessages.pops p hp).delivery d ?_
    rw [hd]
    rfl
  · intro p hp i hi
    refine (hmessages.pops p hp).failure i ?_
    rcases hi with hi | hi
    · rw [hi]
      rfl
    · rw [hi]
      rfl

/-- A pump is fenced while it receives, and the next generation has its own. -/
def fencedRun : List Label :=
  [.connect, .pop true true true, .pump 0 .empty, .pump 0 .empty, .pump 0 .empty, .pump 0 .message, .pump 0 .empty,
    .poll 0 false, .finishPop 0, .pop true true true, .pump 0 .empty, .disconnect, .connect, .pump 0 .message,
    .pop true true true, .pump 0 .empty, .pump 0 .empty, .finishShutdown 0, .poll 1 false, .pop true true true,
    .poll 2 true]

theorem isSome_fencedRun : (machine.run .new fencedRun).isSome = true := by
  decide +kernel

theorem receive_pump_fenced :
    Sound ((machine.run .new fencedRun).get isSome_fencedRun) ∧
      ((machine.run .new fencedRun).get isSome_fencedRun).received = [(0, 1), (0, 1)] ∧
      ((machine.run .new fencedRun).get isSome_fencedRun).receiveBuffer = [] :=
  ⟨receive_pump ⟨fencedRun, (Option.some_get isSome_fencedRun).symm⟩, by decide +kernel, by decide +kernel⟩

end RocketMq

end ScrapyExtension
