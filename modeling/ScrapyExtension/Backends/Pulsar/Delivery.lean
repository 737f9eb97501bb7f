import ScrapyExtension.Backends.Pulsar.Attachment
import ScrapyExtension.Machine.Threads

/-!
# Deliveries and their settlement

The messages that go through the pumps. The worker of a pump appends what it receives to the records of the
pump, if the pump is live; a `pop` takes the first of them, if the pump is live; the failure of the worker is
reported when there is nothing left to take. A pop with a token gives it the consumer and the generation of the
delivery, and `ack` and `nack` compare them with what their lease has.

## Steps

The lifecycle goes on as before, and its steps are steps here, apart from the two that belong to a pop. A pop
is a section that finds its pump, and one or more sections that look at it. The return of `receive` is one step
with the section that follows. A settlement has the lease, the lookup of the consumer, the claim of the token,
and the answer of the broker; the lock of the token is held from the claim to the answer.

The lease of a generation is left out, apart from what it finds. The consumer map of a generation is the one
that the backend had when the generation was retired.
-/

namespace ScrapyExtension

namespace Pulsar

namespace Delivery

/-! ## State -/

/-- `_BufferedPulsarRecord`. The messages are numbered as they are received. -/
structure Record where
  message : ℕ
  consumer : ℕ
deriving DecidableEq

/-- A delivery to a pop. -/
structure Handed where
  pop : ℕ
  message : ℕ
  /-- `_lifecycle_generation` at that time -/
  generation : ℕ
deriving DecidableEq

/-- `_settlement_state` -/
inductive Settlement
  | pending
  | settling
  | acked
  | nacked
  | stale
deriving DecidableEq

/-- `_PulsarAckToken` -/
structure AckToken where
  message : ℕ
  topic : ℕ
  consumer : Option ℕ
  generation : Option ℕ
  state : Settlement
deriving DecidableEq

inductive PopResult
  | empty
  | delivered (message : ℕ)
  /-- The failure of the pump. -/
  | failed
deriving DecidableEq

/-- A call of `_receive`. -/
structure Pop where
  pump : ℕ
  withAck : Bool
  result : Option PopResult
deriving DecidableEq

/-- Where a settlement is. -/
inductive CallStage
  | leased
  | selected
  /-- In `consumer.acknowledge` or `consumer.negative_acknowledge`. -/
  | calling
  | answered (ok : Bool)
  /-- Without a call. -/
  | over
deriving DecidableEq

/-- A call of `_ack_token` or `_nack_token`. -/
structure Call where
  token : ℕ
  ack : Bool
  /-- The generation that is leased. -/
  handles : Option ℕ
  /-- What `_consumer_for_token` has returned. -/
  consumer : Option ℕ
  stage : CallStage
deriving DecidableEq

/-- The backend, with its deliveries. -/
structure State where
  backend : Pulsar.State
  capacity : ℕ → ℕ
  records : ℕ → List Record
  /-- The pump of each message. -/
  received : List ℕ
  /-- The messages that a pump has had in its records. -/
  accepted : ℕ → List ℕ
  handed : ℕ → List Handed
  pops : List Pop
  tokens : List AckToken
  /-- The consumers of a retired generation. -/
  retired : ℕ → ℕ → Option ℕ
  calls : List Call

namespace State

def new : State := ⟨.new, fun _ ↦ 0, fun _ ↦ [], [], fun _ ↦ [], fun _ ↦ [], [], [], fun _ _ ↦ none, []⟩

/-- The consumers of a generation. -/
def consumersOf (s : State) (generation : ℕ) : ℕ → Option ℕ :=
  if s.backend.client = some generation then s.backend.consumers else s.retired generation

/-! ## The worker -/

/-- `_run_receive_pump` -/
def work (s : State) (n : ℕ) (outcome : Outcome) (start : Start) : Option State :=
  let p := s.backend.pumps n
  -- The worker waits at a full buffer.
  if p.stage = .looping ∧ p.accepting ∧ s.capacity n ≤ (s.records n).length then none
  else do
    let backend ← s.backend.step (.work n outcome start)
    if p.stage = .receiving ∧ outcome = .ok then
      let message := s.received.length
      if s.backend.live n ∧ s.backend.consumers p.topic = some n then
        some { s with
          backend
          received := s.received ++ [n]
          records := Function.update s.records n (s.records n ++ [⟨message, n⟩])
          accepted := Function.update s.accepted n (s.accepted n ++ [message]) }
      else some { s with backend, received := s.received ++ [n] }
    else some { s with backend }

/-! ## Pops -/

/-- What `_ensure_receive_pump` returns. -/
def pumpOf (backend : Pulsar.State) (topic : ℕ) : Option ℕ :=
  (backend.receivePumps topic).filter fun n ↦
    backend.consumerRetirements topic = none ∨ backend.consumerRetirements topic = some n

/-- The beginning of `_receive` -/
def pop (s : State) (topic capacity : ℕ) (start : PumpStart) (withAck : Bool) : State :=
  let backend := s.backend.ensureReceivePump topic start
  { s with
    backend
    capacity := Function.update s.capacity s.backend.count capacity
    pops := s.pops ++ ((pumpOf backend topic).map (⟨·, withAck, none⟩)).toList }

/-- A pop ends. -/
def finish (s : State) (k : ℕ) (p : Pop) (result : PopResult) : State :=
  { s with pops := s.pops.set k { p with result := some result } }

/-- The publication of a delivery. -/
def publish (s : State) (k : ℕ) (p : Pop) (r : Record) : State :=
  let generation := s.backend.lifecycleGeneration
  { s with
    handed := Function.update s.handed p.pump (s.handed p.pump ++ [⟨k, r.message, generation⟩])
    tokens := if p.withAck then
      s.tokens ++ [⟨r.message, (s.backend.pumps p.pump).topic, some r.consumer, some generation, .pending⟩]
      else s.tokens }

/-- A section of `_receive`, if it does not only wait -/
def take (s : State) (k : ℕ) (expired : Bool) (start : Start) : Option State := do
  let p ← s.pops[k]?
  guard p.result.isNone
  let n := p.pump
  let pump := s.backend.pumps n
  if ¬ s.backend.live n then some (s.finish k p .empty)
  else
    match s.records n with
    | r :: records =>
      let s := { s with records := Function.update s.records n records }
      if pump.consumer = false ∨ s.backend.consumers pump.topic ≠ some n ∨ r.consumer ≠ n then
        some (s.finish k p .empty)
      else some ((s.publish k p r).finish k p (.delivered r.message))
    | [] =>
      if pump.failed then some (({ s with backend := s.backend.receive n start } : State).finish k p .failed)
      else if expired then some (s.finish k p .empty)
      else none

/-! ## Settlements -/

/-- `_consumer_for_token`. The last argument is what the slot of a single consumer has for the topic. -/
def consumerForToken (token : AckToken) (consumers : ℕ → Option ℕ) (generation legacy : Option ℕ) : Option ℕ :=
  if token.generation.isSome ∧ token.generation ≠ generation then none
  else if token.generation = none ∧ generation.isSome ∧ token.consumer = none then none
  else
    match token.consumer, consumers token.topic with
    | some c, consumer => if consumer = some c then some c else none
    | none, some consumer => some consumer
    | none, none => legacy

/-- The lookup of the consumer. -/
def lookup (s : State) (c : ℕ) (legacy : Option ℕ) : Option State := do
  let call ← s.calls[c]?
  let token ← s.tokens[call.token]?
  guard (call.stage = .leased)
  let consumers := (call.handles.map s.consumersOf).getD s.backend.consumers
  let consumer := consumerForToken token consumers call.handles legacy
  some { s with calls := s.calls.set c { call with consumer, stage := .selected } }

/-- A call goes on, with its token. -/
def setCall (s : State) (c : ℕ) (call : Call) (token : AckToken) : State :=
  { s with calls := s.calls.set c call, tokens := s.tokens.set call.token token }

/-- The beginning of `_settle`, up to the call of the broker -/
def claim (s : State) (c : ℕ) (callable : Bool) : Option State := do
  let call ← s.calls[c]?
  let token ← s.tokens[call.token]?
  guard (call.stage = .selected)
  match token.state with
  | .settling => none
  | .acked | .nacked | .stale => some (s.setCall c { call with stage := .over } token)
  | .pending =>
    if call.consumer = none then
      some (s.setCall c { call with stage := .over } { token with state := .stale })
    else if call.ack ∨ callable then
      some (s.setCall c { call with stage := .calling } { token with state := .settling })
    else
      -- A client without `negative_acknowledge`.
      some (s.setCall c { call with stage := .over } { token with state := .nacked })

/-- The end of `_settle` -/
def answer (s : State) (c : ℕ) (ok : Bool) : Option State := do
  let call ← s.calls[c]?
  let token ← s.tokens[call.token]?
  guard (call.stage = .calling)
  let state := if ok then if call.ack then .acked else .nacked else .pending
  some (s.setCall c { call with stage := .answered ok } { token with state })

end State

/-! ## Steps -/

inductive Label
  | lifecycle (a : Pulsar.Label)
  | pop (topic capacity : ℕ) (start : PumpStart) (withAck : Bool)
  | take (k : ℕ) (expired : Bool) (start : Start)
  /-- `discard_buffered` -/
  | discard (n : ℕ)
  | settle (token : ℕ) (ack : Bool)
  | lookup (c : ℕ) (legacy : Option ℕ)
  | claim (c : ℕ) (callable : Bool)
  | answer (c : ℕ) (ok : Bool)

namespace State

/-- The lifecycle goes on. -/
def lifecycle (s : State) : Pulsar.Label → Option State
  | .work n outcome start => s.work n outcome start
  | .disconnect reentrant start => do
    let backend ← s.backend.step (.disconnect reentrant start)
    some { s with
      backend
      retired := (s.backend.client.map (Function.update s.retired · s.backend.consumers)).getD s.retired }
  | .connect => do
    let backend ← s.backend.step .connect
    some { s with backend }
  | .close n => do
    let backend ← s.backend.step (.close n)
    some { s with backend }
  | .ensureReceivePump .. | .receive .. => none

def step (s : State) : Label → Option State
  | .lifecycle a => s.lifecycle a
  | .pop topic capacity start withAck => some (s.pop topic capacity start withAck)
  | .take k expired start => s.take k expired start
  | .discard n =>
    if (s.backend.pumps n).accepting then none
    else some { s with records := Function.update s.records n [] }
  | .settle token ack =>
    if token < s.tokens.length then
      some { s with calls := s.calls ++ [⟨token, ack, s.backend.client, none, .leased⟩] }
    else none
  | .lookup c legacy => s.lookup c legacy
  | .claim c callable => s.claim c callable
  | .answer c ok => s.answer c ok

end State

def machine : Machine State Label where
  init := .new
  step := State.step

/-! ## Records -/

variable {s : State} {n : ℕ}

/-- What a pump has accepted is with the pops and in its records, in this order. -/
structure Buffers (s : State) : Prop where
  order : ∀ n, (s.accepted n).Pairwise (· < ·)
  received : ∀ n, ∀ m ∈ s.accepted n, s.received[m]? = some n
  fifo : ∀ n, (s.handed n).map Handed.message <+: s.accepted n
  whole : ∀ n, s.backend.live n = true →
    s.accepted n = (s.handed n).map Handed.message ++ (s.records n).map Record.message
  length_le : ∀ n, (s.records n).length ≤ s.capacity n
  /-- There is room for what the worker receives. -/
  room : ∀ n, (s.backend.pumps n).stage = .receiving → (s.records n).length < s.capacity n
  own : ∀ n, ∀ r ∈ s.records n, r.consumer = n
  consumer : ∀ n, s.records n ≠ [] → (s.backend.pumps n).consumer = true
  generation : ∀ n, ∀ e ∈ s.handed n, e.generation = (s.backend.pumps n).generation
  fresh : ∀ n, s.backend.count ≤ n → s.accepted n = [] ∧ s.handed n = [] ∧ s.records n = []

namespace Buffers

theorem new : Buffers .new :=
  ⟨fun _ ↦ .nil, fun _ _ ↦ nofun, fun _ ↦ List.prefix_refl _, fun _ _ ↦ rfl, fun _ ↦ le_rfl, fun _ ↦ nofun,
    fun _ _ ↦ nofun, fun _ h ↦ absurd rfl h, fun _ _ ↦ nofun, fun _ _ ↦ ⟨rfl, rfl, rfl⟩⟩

/-- The rest of the state does not matter. -/
theorem set (h : Buffers s) (pops : List Pop) (tokens : List AckToken) (retired : ℕ → ℕ → Option ℕ)
    (calls : List Call) : Buffers { s with pops, tokens, retired, calls } :=
  ⟨h.order, h.received, h.fifo, h.whole, h.length_le, h.room, h.own, h.consumer, h.generation, h.fresh⟩

/-- The backend takes a step. -/
theorem step (h : Buffers s) (hi : s.backend.Inv) (ha : s.backend.Attachment) {a : Pulsar.Label}
    {backend : Pulsar.State} (ht : s.backend.step a = some backend)
    (hroom : ∀ n outcome start, a = .work n outcome start → (s.backend.pumps n).stage = .looping →
      (s.backend.pumps n).accepting = true → (s.records n).length < s.capacity n) : Buffers { s with backend } := by
  have hframe := Pulsar.State.Frame.step ha ht
  refine ⟨h.order, h.received, h.fifo, fun n hlive ↦ ?_, h.length_le, fun n hstage ↦ ?_, h.own,
    fun n hrecords ↦ ?_, fun n e he ↦ ?_, fun n hn ↦ h.fresh n (hframe.count_le.trans hn)⟩
  · rcases lt_or_ge n s.backend.count with hn | hn
    · exact h.whole n (hframe.live n hn hlive)
    · obtain ⟨haccepted, hhanded, hrecords⟩ := h.fresh n hn
      dsimp only
      rw [haccepted, hhanded, hrecords]
      rfl
  · rcases Pulsar.State.receiving_of_step hi ht hstage with ⟨hold, -⟩ | ⟨hlooping, haccepting, outcome, start, rfl⟩
    · exact h.room n hold
    · exact hroom n outcome start rfl hlooping haccepting
  · rcases lt_or_ge n s.backend.count with hn | hn
    · exact (hframe.kept n hn).consumer (h.consumer n hrecords)
    · exact absurd (h.fresh n hn).2.2 hrecords
  · rcases lt_or_ge n s.backend.count with hn | hn
    · exact (h.generation n e he).trans (hframe.kept n hn).generation.symm
    · rw [(h.fresh n hn).2.1] at he
      cases he

/-- The capacity of the next pump. -/
theorem setCapacity (h : Buffers s) (hi : s.backend.Inv) (capacity : ℕ) :
    Buffers { s with capacity := Function.update s.capacity s.backend.count capacity } := by
  have hrecords := (h.fresh s.backend.count le_rfl).2.2
  refine ⟨h.order, h.received, h.fifo, h.whole, fun n ↦ ?_, fun n hstage ↦ ?_, h.own, h.consumer, h.generation,
    h.fresh⟩
  · by_cases hn : n = s.backend.count
    · rw [hn, hrecords]
      exact Nat.zero_le _
    · dsimp only
      rw [Function.update_of_ne hn]
      exact h.length_le n
  · by_cases hn : n = s.backend.count
    · dsimp only at hstage
      rw [hi.fresh n hn.ge] at hstage
      cases hstage
    · dsimp only
      rw [Function.update_of_ne hn]
      exact h.room n hstage

/-- A message that is received is a new one. -/
theorem lt_length (h : Buffers s) {m : ℕ} (hm : m ∈ s.accepted n) : m < s.received.length :=
  (List.getElem?_eq_some_iff.mp (h.received n m hm)).1

/-- A message that comes too late. -/
theorem receive (h : Buffers s) (n : ℕ) : Buffers { s with received := s.received ++ [n] } :=
  ⟨h.order, fun n m hm ↦ List.getElem?_of_grown (List.prefix_append _ _) (h.received n m hm), h.fifo, h.whole,
    h.length_le, h.room, h.own, h.consumer, h.generation, h.fresh⟩

/-- The worker appends what it has received. -/
theorem append (h : Buffers s) (hn : n < s.backend.count) (hroom : (s.records n).length < s.capacity n)
    (hstage : (s.backend.pumps n).stage ≠ .receiving) (hconsumer : (s.backend.pumps n).consumer = true) :
    Buffers { s with
      received := s.received ++ [n]
      records := Function.update s.records n (s.records n ++ [⟨s.received.length, n⟩])
      accepted := Function.update s.accepted n (s.accepted n ++ [s.received.length]) } := by
  have hreceived := h.receive n
  refine ⟨fun j ↦ ?_, fun j m hm ↦ ?_, fun j ↦ ?_, fun j hlive ↦ ?_, fun j ↦ ?_, fun j hj ↦ ?_, fun j r hr ↦ ?_,
    fun j hj ↦ ?_, h.generation, fun j hj ↦ ?_⟩
  all_goals
    try dsimp only
    by_cases hjn : j = n
  · subst hjn
    rw [Function.update_self, List.pairwise_append]
    refine ⟨h.order j, List.pairwise_singleton _ _, fun m hm m' hm' ↦ ?_⟩
    rw [List.mem_singleton.mp hm']
    exact h.lt_length hm
  · rw [Function.update_of_ne hjn]
    exact h.order j
  · subst hjn
    dsimp only at hm
    rw [Function.update_self] at hm
    rcases List.mem_append.mp hm with hm | hm
    · exact hreceived.received j m hm
    · rw [List.mem_singleton.mp hm]
      exact List.getElem?_concat_length
  · dsimp only at hm
    rw [Function.update_of_ne hjn] at hm
    exact hreceived.received j m hm
  · subst hjn
    rw [Function.update_self]
    exact (h.fifo j).trans (List.prefix_append _ _)
  · rw [Function.update_of_ne hjn]
    exact h.fifo j
  · subst hjn
    rw [Function.update_self, Function.update_self, h.whole j hlive, List.map_append, List.append_assoc]
    rfl
  · rw [Function.update_of_ne hjn, Function.update_of_ne hjn]
    exact h.whole j hlive
  · subst hjn
    rw [Function.update_self, List.length_append]
    exact hroom
  · rw [Function.update_of_ne hjn]
    exact h.length_le j
  · exact absurd (hjn ▸ hj) hstage
  · rw [Function.update_of_ne hjn]
    exact h.room j hj
  · subst hjn
    dsimp only at hr
    rw [Function.update_self] at hr
    rcases List.mem_append.mp hr with hr | hr
    · exact h.own j r hr
    · rw [List.mem_singleton.mp hr]
  · dsimp only at hr
    rw [Function.update_of_ne hjn] at hr
    exact h.own j r hr
  · exact hjn ▸ hconsumer
  · dsimp only at hj
    rw [Function.update_of_ne hjn] at hj
    exact h.consumer j hj
  · exact absurd hn (not_lt.mpr (hjn ▸ hj))
  · rw [Function.update_of_ne hjn, Function.update_of_ne hjn]
    exact h.fresh j hj

/-- A pop takes the first record. -/
theorem take (h : Buffers s) (hlive : s.backend.live n = true) {r : Record} {records : List Record}
    (hrecords : s.records n = r :: records) (k : ℕ) :
    Buffers { s with
      records := Function.update s.records n records
      handed := Function.update s.handed n
        (s.handed n ++ [⟨k, r.message, s.backend.lifecycleGeneration⟩]) } := by
  have hwhole := h.whole n hlive
  rw [hrecords, List.map_cons] at hwhole
  refine ⟨h.order, h.received, fun j ↦ ?_, fun j hj ↦ ?_, fun j ↦ ?_, fun j hj ↦ ?_, fun j r' hr ↦ ?_, fun j hj ↦ ?_,
    fun j e he ↦ ?_, fun j hj ↦ ?_⟩
  all_goals
    try dsimp only
    by_cases hjn : j = n
  · subst hjn
    rw [Function.update_self, hwhole, List.map_append]
    exact ⟨records.map Record.message, by simp⟩
  · rw [Function.update_of_ne hjn]
    exact h.fifo j
  · subst hjn
    rw [Function.update_self, Function.update_self, hwhole, List.map_append, List.append_assoc]
    rfl
  · rw [Function.update_of_ne hjn, Function.update_of_ne hjn]
    exact h.whole j hj
  · subst hjn
    have hle := h.length_le j
    rw [hrecords, List.length_cons] at hle
    rw [Function.update_self]
    omega
  · rw [Function.update_of_ne hjn]
    exact h.length_le j
  · subst hjn
    have hlt := h.room j hj
    rw [hrecords, List.length_cons] at hlt
    rw [Function.update_self]
    omega
  · rw [Function.update_of_ne hjn]
    exact h.room j hj
  · subst hjn
    dsimp only at hr
    rw [Function.update_self] at hr
    exact h.own j r' (hrecords ▸ List.mem_cons_of_mem r hr)
  · dsimp only at hr
    rw [Function.update_of_ne hjn] at hr
    exact h.own j r' hr
  · subst hjn
    exact h.consumer j (by rw [hrecords]; exact List.cons_ne_nil _ _)
  · dsimp only at hj
    rw [Function.update_of_ne hjn] at hj
    exact h.consumer j hj
  · subst hjn
    dsimp only at he
    rw [Function.update_self] at he
    rcases List.mem_append.mp he with he | he
    · exact h.generation j e he
    · rw [List.mem_singleton.mp he]
      exact (Pulsar.State.live_iff.mp hlive).2.2.1
  · dsimp only at he
    rw [Function.update_of_ne hjn] at he
    exact h.generation j e he
  · subst hjn
    have hnil := (h.fresh j hj).2.2
    rw [hrecords] at hnil
    cases hnil
  · rw [Function.update_of_ne hjn, Function.update_of_ne hjn]
    exact h.fresh j hj

/-- The records of a pump that is not live are dropped. -/
theorem discard (h : Buffers s) (hdead : s.backend.live n ≠ true) :
    Buffers { s with records := Function.update s.records n [] } := by
  refine ⟨h.order, h.received, h.fifo, fun j hj ↦ ?_, fun j ↦ ?_, fun j hj ↦ ?_, fun j r hr ↦ ?_, fun j hj ↦ ?_,
    h.generation, fun j hj ↦ ?_⟩
  all_goals
    try dsimp only
    by_cases hjn : j = n
  · exact absurd (hjn ▸ hj) hdead
  · rw [Function.update_of_ne hjn]
    exact h.whole j hj
  · rw [hjn, Function.update_self]
    exact Nat.zero_le _
  · rw [Function.update_of_ne hjn]
    exact h.length_le j
  · have hlt := h.room j hj
    subst hjn
    rw [Function.update_self]
    exact (Nat.zero_le _).trans_lt hlt
  · rw [Function.update_of_ne hjn]
    exact h.room j hj
  · dsimp only at hr
    rw [hjn, Function.update_self] at hr
    cases hr
  · dsimp only at hr
    rw [Function.update_of_ne hjn] at hr
    exact h.own j r hr
  · dsimp only at hj
    rw [hjn, Function.update_self] at hj
    exact absurd rfl hj
  · dsimp only at hj
    rw [Function.update_of_ne hjn] at hj
    exact h.consumer j hj
  · obtain ⟨haccepted, hhanded, -⟩ := h.fresh j hj
    rw [hjn, Function.update_self]
    exact ⟨hjn ▸ haccepted, hjn ▸ hhanded, rfl⟩
  · rw [Function.update_of_ne hjn]
    exact h.fresh j hj

end Buffers

/-! ## Pops -/

/-- What the pops were told. -/
structure Answers (s : State) : Prop where
  lt : ∀ p ∈ s.pops, p.pump < s.backend.count
  delivered : ∀ k p m, s.pops[k]? = some p → p.result = some (.delivered m) →
    ∃ e ∈ s.handed p.pump, e.pop = k ∧ e.message = m
  /-- A pump whose failure was reported has nothing left, and gets nothing more. -/
  drained : ∀ p ∈ s.pops, p.result = some .failed → s.backend.live p.pump = false ∧
    (s.handed p.pump).map Handed.message = s.accepted p.pump

namespace Answers

theorem new : Answers .new := ⟨nofun, nofun, nofun⟩

/-- The backend takes a step, and a live pump may accept a message. -/
theorem step (h : Answers s) (ha : s.backend.Attachment) {a : Pulsar.Label} {backend : Pulsar.State}
    (ht : s.backend.step a = some backend) (capacity : ℕ → ℕ) (records : ℕ → List Record) (received : List ℕ)
    (retired : ℕ → ℕ → Option ℕ) {accepted : ℕ → List ℕ}
    (haccepted : ∀ n, s.backend.live n = false → accepted n = s.accepted n) :
    Answers { s with backend, capacity, records, received, accepted, retired } where
  lt p hp := (h.lt p hp).trans_le (Pulsar.State.Frame.step ha ht).count_le
  delivered := h.delivered
  drained p hp hresult := by
    obtain ⟨hdead, hdrained⟩ := h.drained p hp hresult
    refine ⟨?_, hdrained.trans (haccepted _ hdead).symm⟩
    by_contra hlive
    have := (Pulsar.State.Frame.step ha ht).live _ (h.lt p hp) (by simpa using hlive)
    rw [hdead] at this
    cases this

/-- A pop begins. -/
theorem begin (h : Answers s) {p : Pop} (hp : p.pump < s.backend.count) (hnone : p.result = none) :
    Answers { s with pops := s.pops ++ [p] } where
  lt p' hp' := by
    rcases List.mem_append.mp hp' with hp' | hp'
    · exact h.lt p' hp'
    · rwa [List.mem_singleton.mp hp']
  delivered k p' m hk hresult := by
    rcases List.getElem?_concat_some hk with ⟨-, rfl⟩ | hk
    · rw [hnone] at hresult
      cases hresult
    · exact h.delivered k p' m hk hresult
  drained p' hp' hresult := by
    rcases List.mem_append.mp hp' with hp' | hp'
    · exact h.drained p' hp' hresult
    · rw [List.mem_singleton.mp hp', hnone] at hresult
      cases hresult

/-- A pop ends. -/
theorem finish (h : Answers s) {k : ℕ} {p : Pop} (hp : s.pops[k]? = some p) {result : PopResult}
    (hdelivered : ∀ m, result = .delivered m → ∃ e ∈ s.handed p.pump, e.pop = k ∧ e.message = m)
    (hfailed : result = .failed → s.backend.live p.pump = false ∧
      (s.handed p.pump).map Handed.message = s.accepted p.pump) : Answers (s.finish k p result) where
  lt := List.forall_mem_set h.lt (h.lt p (List.mem_of_getElem? hp))
  delivered j p' m hj hresult := by
    rcases List.getElem?_set_some hj with ⟨rfl, rfl⟩ | ⟨-, hj⟩
    · exact hdelivered m (Option.some.inj hresult)
    · exact h.delivered j p' m hj hresult
  drained := List.forall_mem_set h.drained fun hresult ↦ hfailed (Option.some.inj hresult)

/-- A delivery. Its pump is live, so that no failure of it was reported. -/
theorem publish (h : Answers s) {k : ℕ} {p : Pop} (hlive : s.backend.live p.pump = true) (r : Record)
    (records : ℕ → List Record) : Answers (State.publish { s with records } k p r) where
  lt := h.lt
  delivered j p' m hj hresult := by
    obtain ⟨e, he, hrest⟩ := h.delivered j p' m hj hresult
    refine ⟨e, ?_, hrest⟩
    dsimp only [State.publish]
    by_cases hp : p'.pump = p.pump
    · rw [hp, Function.update_self]
      exact List.mem_append_left _ (hp ▸ he)
    · rwa [Function.update_of_ne hp]
  drained p' hp' hresult := by
    obtain ⟨hdead, hdrained⟩ := h.drained p' hp' hresult
    refine ⟨hdead, ?_⟩
    have hp : p'.pump ≠ p.pump := by
      intro heq
      rw [heq, hlive] at hdead
      cases hdead
    dsimp only [State.publish]
    rwa [Function.update_of_ne hp]

/-- The tokens and the calls do not matter. -/
theorem set (h : Answers s) (tokens : List AckToken) (calls : List Call) : Answers { s with tokens, calls } :=
  ⟨h.lt, h.delivered, h.drained⟩

end Answers

/-! ## Settlements -/

/-- The broker is asked, or was. -/
def CallStage.reached : CallStage → Bool
  | .calling | .answered _ => true
  | .leased | .selected | .over => false

/-- A call that settles its token, unless it fails. -/
def Call.holds (i : ℕ) (c : Call) : Bool := c.token = i && (c.stage = .calling || c.stage = .answered true)

/-- A token that nobody may settle any more. -/
def Settlement.terminal : Settlement → Bool
  | .acked | .nacked | .stale => true
  | .pending | .settling => false

/-- How many calls a token may have, next to those that have failed. -/
def Settlement.room : Settlement → ℕ
  | .pending | .stale => 0
  | .settling | .acked | .nacked => 1

/-- What a call has to do with its token. -/
structure Call.Ok (token : AckToken) (c : Call) : Prop where
  reached : c.stage.reached = true → c.consumer.isSome = true
  consumer : ∀ n, c.consumer = some n → token.consumer = some n ∧ token.generation = c.handles
  calling : c.stage = .calling → token.state = .settling

structure Settlements (s : State) : Prop where
  tokens : ∀ token ∈ s.tokens, ∃ n, n < s.backend.count ∧ token.consumer = some n ∧
    token.generation = some (s.backend.pumps n).generation ∧ token.topic = (s.backend.pumps n).topic ∧
    s.received[token.message]? = some n
  calls : ∀ c ∈ s.calls, ∃ token, s.tokens[c.token]? = some token ∧ c.Ok token
  once : ∀ i token, s.tokens[i]? = some token → s.calls.countP (Call.holds i) ≤ token.state.room

/-- The lookup for a token that has a consumer and a generation. -/
theorem consumerForToken_eq {token : AckToken} {n g : ℕ} (hconsumer : token.consumer = some n)
    (hgeneration : token.generation = some g) (consumers : ℕ → Option ℕ) (generation legacy : Option ℕ) :
    State.consumerForToken token consumers generation legacy =
      if generation = some g ∧ consumers token.topic = some n then some n else none := by
  unfold State.consumerForToken
  rw [hconsumer, hgeneration]
  by_cases hg : generation = some g
  · simp [hg]
  · simp [hg, Ne.symm hg]

namespace Settlements

theorem new : Settlements .new := ⟨nofun, nofun, nofun⟩

theorem step (h : Settlements s) (ha : s.backend.Attachment) {a : Pulsar.Label} {backend : Pulsar.State}
    (ht : s.backend.step a = some backend) {received : List ℕ} (hreceived : s.received <+: received)
    (capacity : ℕ → ℕ) (records : ℕ → List Record) (accepted : ℕ → List ℕ) (pops : List Pop)
    (retired : ℕ → ℕ → Option ℕ) :
    Settlements { s with backend, capacity, records, received, accepted, pops, retired } where
  tokens token htoken := by
    have hframe := Pulsar.State.Frame.step ha ht
    obtain ⟨n, hn, hconsumer, hgeneration, htopic, hmessage⟩ := h.tokens token htoken
    refine ⟨n, hn.trans_le hframe.count_le, hconsumer, ?_, ?_, List.getElem?_of_grown hreceived hmessage⟩
    · rw [hgeneration, (hframe.kept n hn).generation]
    · rw [htopic, (hframe.kept n hn).topic]
  calls := h.calls
  once := h.once

/-- The records and the pops do not matter. -/
theorem set (h : Settlements s) (records : ℕ → List Record) (handed : ℕ → List Handed) (pops : List Pop) :
    Settlements { s with records, handed, pops } := ⟨h.tokens, h.calls, h.once⟩

/-- A token is made for a delivery. -/
theorem publish (h : Settlements s) {token : AckToken} {n : ℕ} (hn : n < s.backend.count)
    (hconsumer : token.consumer = some n) (hgeneration : token.generation = some (s.backend.pumps n).generation)
    (htopic : token.topic = (s.backend.pumps n).topic) (hmessage : s.received[token.message]? = some n) :
    Settlements { s with tokens := s.tokens ++ [token] } where
  tokens token' htoken' := by
    rcases List.mem_append.mp htoken' with htoken' | htoken'
    · exact h.tokens token' htoken'
    · rw [List.mem_singleton.mp htoken']
      exact ⟨n, hn, hconsumer, hgeneration, htopic, hmessage⟩
  calls c hc := by
    obtain ⟨token', htoken', hok⟩ := h.calls c hc
    exact ⟨token', List.getElem?_of_grown (List.prefix_append _ _) htoken', hok⟩
  once i token' hi := by
    rcases List.getElem?_concat_some hi with ⟨rfl, rfl⟩ | hi
    · -- Nobody has the new token.
      have hzero : s.calls.countP (Call.holds s.tokens.length) = 0 := by
        rw [List.countP_eq_zero]
        intro c hc hholds
        obtain ⟨token', htoken', -⟩ := h.calls c hc
        have hlt := (List.getElem?_eq_some_iff.mp htoken').1
        have heq : c.token = s.tokens.length := by
          rw [Call.holds, Bool.and_eq_true, decide_eq_true_eq] at hholds
          exact hholds.1
        omega
      exact hzero.trans_le (Nat.zero_le _)
    · exact h.once i token' hi

/-- A settlement begins. -/
theorem begin (h : Settlements s) {token : ℕ} (htoken : token < s.tokens.length) (ack : Bool)
    (handles : Option ℕ) : Settlements { s with calls := s.calls ++ [⟨token, ack, handles, none, .leased⟩] } where
  tokens := h.tokens
  calls c hc := by
    rcases List.mem_append.mp hc with hc | hc
    · exact h.calls c hc
    · rw [List.mem_singleton.mp hc]
      exact ⟨_, List.getElem?_eq_getElem htoken, nofun, nofun, nofun⟩
  once i token' hi := by
    dsimp only
    rw [List.countP_concat]
    refine le_trans ?_ (h.once i token' hi)
    rw [show Call.holds i ⟨token, ack, handles, none, .leased⟩ = false by simp [Call.holds]]
    exact le_rfl

/-- A call goes on, with its token. -/
theorem setCall (h : Settlements s) {c : ℕ} {call call' : Call} {token : AckToken} {state : Settlement}
    (hcall : s.calls[c]? = some call) (htoken : s.tokens[call.token]? = some token)
    (hsame : call'.token = call.token) (hok : call'.Ok { token with state })
    (hfree : token.state = .settling → state ≠ .settling → call.stage = .calling)
    (hroom : (call'.holds call.token).toNat + token.state.room ≤ (call.holds call.token).toNat + state.room) :
    Settlements (s.setCall c call' { token with state }) := by
  have hlt := (List.getElem?_eq_some_iff.mp htoken).1
  have hself : (s.tokens.set call.token { token with state })[call.token]? = some { token with state } :=
    List.getElem?_set_self hlt
  have hmem := List.mem_of_getElem? hcall
  refine ⟨?_, fun c' hc' ↦ ?_, fun i token' hi ↦ ?_⟩
  · dsimp only [State.setCall]
    exact List.forall_mem_set h.tokens (h.tokens token (List.mem_of_getElem? htoken))
  · dsimp only [State.setCall] at hc' ⊢
    rw [hsame]
    obtain ⟨j, hj⟩ := List.mem_iff_getElem?.mp hc'
    rcases List.getElem?_set_some hj with ⟨rfl, rfl⟩ | ⟨hjc, hj⟩
    · exact ⟨_, hsame ▸ hself, hok⟩
    obtain ⟨token', htoken', hok'⟩ := h.calls c' (List.mem_of_getElem? hj)
    by_cases hi : c'.token = call.token
    · rw [hi] at htoken'
      obtain rfl : token = token' := Option.some.inj (htoken.symm.trans htoken')
      refine ⟨{ token with state }, hi ▸ hself, hok'.reached, hok'.consumer, fun hcalling ↦ ?_⟩
      -- Two calls that hold the token would be one too many.
      by_contra hne
      have hstage := hfree (hok'.calling hcalling) hne
      have hroom' := h.once call.token token htoken
      rw [hok'.calling hcalling] at hroom'
      refine hjc (List.eq_of_countP_le_one _ hroom' hj hcall ?_ ?_)
      · rw [Call.holds, hi, hcalling]
        simp
      · rw [Call.holds, hstage]
        simp
    · exact ⟨token', (List.getElem?_set_ne (Ne.symm hi)).trans htoken', hok'⟩
  · dsimp only [State.setCall] at hi ⊢
    rw [hsame] at hi
    have hcount := List.countP_set_add (b := call') (Call.holds i) hcall
    by_cases hicall : i = call.token
    · subst hicall
      rw [hself] at hi
      obtain rfl := Option.some.inj hi
      have hold := h.once call.token token htoken
      dsimp only
      omega
    · rw [List.getElem?_set_ne (Ne.symm hicall)] at hi
      have hold := h.once i token' hi
      have hfalse : ∀ x : Call, x.token = call.token → x.holds i = false := by
        intro x hx
        rw [Call.holds, hx, decide_eq_false (Ne.symm hicall), Bool.false_and]
      rw [hfalse call' hsame, hfalse call rfl] at hcount
      omega

end Settlements

/-! ## Runs -/

structure Inv (s : State) : Prop where
  backend : s.backend.Inv
  attachment : s.backend.Attachment
  buffers : Buffers s
  answers : Answers s
  settlements : Settlements s

namespace Inv

variable {t : State}

theorem new : Inv .new := ⟨.new, .new, .new, .new, .new⟩

/-- The backend takes a step that is not one of a worker. -/
theorem lifecycle (h : Inv s) {a : Pulsar.Label} {backend : Pulsar.State} (ht : s.backend.step a = some backend)
    (hwork : ∀ n outcome start, a ≠ .work n outcome start) (retired : ℕ → ℕ → Option ℕ) :
    Inv { s with backend, retired } where
  backend := h.backend.step ht
  attachment := h.attachment.step h.backend ht
  buffers := (h.buffers.step h.backend h.attachment ht fun n outcome start ha ↦ absurd ha (hwork n outcome start)).set
    s.pops s.tokens retired s.calls
  answers := h.answers.step h.attachment ht s.capacity s.records s.received retired fun _ _ ↦ rfl
  settlements := h.settlements.step h.attachment ht (List.prefix_refl _) s.capacity s.records s.accepted s.pops retired

theorem work (h : Inv s) {outcome : Outcome} {start : Start} (ht : s.work n outcome start = some t) : Inv t := by
  simp only [State.work] at ht
  split at ht
  · cases ht
  next hfull =>
  obtain ⟨backend, hbackend, ht⟩ := Option.bind_eq_some_iff.mp ht
  have hbuffers : Buffers { s with backend } := by
    refine h.buffers.step h.backend h.attachment hbackend fun n' outcome' start' ha hlooping haccepting ↦ ?_
    obtain ⟨rfl, -, -⟩ := Pulsar.Label.work.inj ha
    by_contra hle
    exact hfull ⟨hlooping, haccepting, not_lt.mp hle⟩
  have hnext : ∀ received records accepted, s.received <+: received →
      (∀ n, s.backend.live n = false → accepted n = s.accepted n) →
      Buffers { s with backend, received, records, accepted } →
      Inv { s with backend, received, records, accepted } := fun received records accepted hreceived haccepted hb ↦
    ⟨h.backend.step hbackend, h.attachment.step h.backend hbackend, hb,
      h.answers.step h.attachment hbackend s.capacity records received s.retired haccepted,
      h.settlements.step h.attachment hbackend hreceived s.capacity records accepted s.pops s.retired⟩
  split at ht
  · next hreceiving =>
    split at ht
    · next hlive =>
      obtain rfl := Option.some.inj ht
      have hframe := Pulsar.State.Frame.step h.attachment hbackend
      obtain ⟨hn, -, hconsumer⟩ := h.attachment.published _ _ hlive.2
      refine hnext _ _ _ (List.prefix_append _ _) (fun j hj ↦ Function.update_of_ne ?_ _ _)
        (hbuffers.append (hn.trans_le hframe.count_le) (h.buffers.room n hreceiving.1) ?_
          ((hframe.kept n hn).consumer hconsumer))
      · rintro rfl
        rw [hlive.1] at hj
        cases hj
      · -- The worker is back at the head of its loop.
        intro hstage
        rcases Pulsar.State.receiving_of_step h.backend hbackend hstage with ⟨-, hne⟩ | ⟨hlooping, -, -⟩
        · exact hne _ _ rfl
        · rw [hreceiving.1] at hlooping
          cases hlooping
    · obtain rfl := Option.some.inj ht
      exact hnext _ s.records s.accepted (List.prefix_append _ _) (fun _ _ ↦ rfl) (hbuffers.receive n)
  · obtain rfl := Option.some.inj ht
    exact hnext s.received s.records s.accepted (List.prefix_refl _) (fun _ _ ↦ rfl) hbuffers

theorem pop (h : Inv s) (topic capacity : ℕ) (start : PumpStart) (withAck : Bool) :
    Inv (s.pop topic capacity start withAck) := by
  have hstep : s.backend.step (.ensureReceivePump topic start) = some (s.backend.ensureReceivePump topic start) := rfl
  have hcapacity := h.buffers.setCapacity h.backend capacity
  have hbackend : Inv { s with
      backend := s.backend.ensureReceivePump topic start
      capacity := Function.update s.capacity s.backend.count capacity } :=
    ⟨h.backend.step hstep, h.attachment.step h.backend hstep,
      hcapacity.step h.backend h.attachment hstep fun _ _ _ ↦ nofun,
      h.answers.step h.attachment hstep _ s.records s.received s.retired fun _ _ ↦ rfl,
      h.settlements.step h.attachment hstep (List.prefix_refl _) _ s.records s.accepted s.pops s.retired⟩
  unfold State.pop
  dsimp only
  cases hpump : State.pumpOf (s.backend.ensureReceivePump topic start) topic with
  | none =>
    rw [Option.map_none, Option.toList_none, List.append_nil]
    exact hbackend
  | some n =>
    rw [Option.map_some, Option.toList_some]
    have hattached := (Option.filter_eq_some_iff.mp hpump).1
    exact ⟨hbackend.backend, hbackend.attachment, hbackend.buffers.set _ s.tokens s.retired s.calls,
      hbackend.answers.begin (hbackend.backend.attached _ _ hattached).1 rfl,
      hbackend.settlements.set s.records s.handed _⟩

/-- A pop ends without a delivery. -/
theorem finish (h : Inv s) {k : ℕ} {p : Pop} (hp : s.pops[k]? = some p) : Inv (s.finish k p .empty) where
  backend := h.backend
  attachment := h.attachment
  buffers := h.buffers.set _ s.tokens s.retired s.calls
  answers := h.answers.finish hp (fun _ ↦ nofun) nofun
  settlements := h.settlements.set s.records s.handed _

theorem publish (h : Inv s) {k : ℕ} {p : Pop} (hp : s.pops[k]? = some p) (hlive : s.backend.live p.pump = true)
    {r : Record} {records : List Record} (hrecords : s.records p.pump = r :: records) :
    Inv ((State.publish { s with records := Function.update s.records p.pump records } k p r).finish k p
      (.delivered r.message)) := by
  have hn := h.answers.lt p (List.mem_of_getElem? hp)
  have hmem : r.message ∈ s.accepted p.pump := by
    rw [h.buffers.whole p.pump hlive, hrecords, List.map_cons]
    exact List.mem_append_right _ List.mem_cons_self
  have htaken := h.buffers.take hlive hrecords k
  refine ⟨h.backend, h.attachment, htaken.set _ _ s.retired s.calls, ?_, ?_⟩
  · refine (h.answers.publish hlive r _).finish hp (fun m hm ↦ ?_) nofun
    obtain rfl := PopResult.delivered.inj hm
    dsimp only [State.publish]
    rw [Function.update_self]
    exact ⟨_, List.mem_append_right _ (List.mem_singleton_self _), rfl, rfl⟩
  · have hset := h.settlements.set (Function.update s.records p.pump records)
      (Function.update s.handed p.pump (s.handed p.pump ++ [⟨k, r.message, s.backend.lifecycleGeneration⟩]))
      (s.pops.set k { p with result := some (.delivered r.message) })
    unfold State.finish State.publish
    dsimp only
    split
    · refine hset.publish hn ?_ ?_ rfl (h.buffers.received _ _ hmem)
      · exact congrArg some (h.buffers.own p.pump r (hrecords ▸ List.mem_cons_self))
      · exact congrArg some (Pulsar.State.live_iff.mp hlive).2.2.1
    · exact hset

/-- The failure of a pump is reported. -/
theorem fail (h : Inv s) {k : ℕ} {p : Pop} (hp : s.pops[k]? = some p) (hlive : s.backend.live p.pump = true)
    (hfailed : (s.backend.pumps p.pump).failed = true) (hrecords : s.records p.pump = []) (start : Start) :
    Inv (State.finish { s with backend := s.backend.receive p.pump start } k p .failed) := by
  have hstep : s.backend.step (.receive p.pump start) = some (s.backend.receive p.pump start) := rfl
  have hreceived := h.lifecycle hstep (fun _ _ _ ↦ nofun) s.retired
  refine ⟨hreceived.backend, hreceived.attachment, hreceived.buffers.set _ s.tokens s.retired s.calls,
    hreceived.answers.finish hp (fun _ ↦ nofun) fun _ ↦ ⟨?_, ?_⟩, hreceived.settlements.set s.records s.handed _⟩
  · -- The pump is given up.
    refine Pulsar.State.not_live ?_
    unfold Pulsar.State.receive
    dsimp only
    rw [if_pos ⟨hlive, hfailed⟩]
    have hgiven : (({ s.backend with }.setPump p.pump ((s.backend.pumps p.pump).giveUp start)).pumps p.pump).accepting
        = false := by
      rw [Pulsar.State.setPump_self, Pump.giveUp]
      dsimp only
      split <;> rfl
    split <;> exact hgiven
  · dsimp only
    rw [h.buffers.whole p.pump hlive, hrecords, List.map_nil, List.append_nil]

theorem take (h : Inv s) {k : ℕ} {expired : Bool} {start : Start} (ht : s.take k expired start = some t) : Inv t := by
  obtain ⟨p, hp, ht⟩ := Option.bind_eq_some_iff.mp ht
  obtain ⟨-, -, ht⟩ := Option.bind_eq_some_iff.mp ht
  dsimp only at ht
  split at ht
  · obtain rfl := Option.some.inj ht
    exact h.finish hp
  next hlive =>
  rw [not_not] at hlive
  split at ht
  · next r records hrecords =>
    have hconsumer := h.buffers.consumer p.pump (by rw [hrecords]; exact List.cons_ne_nil _ _)
    have hown := h.attachment.own p.pump (Pulsar.State.live_iff.mp hlive).2.2.2 hconsumer
    -- The record is one of the consumer that the topic has.
    rw [if_neg] at ht
    · obtain rfl := Option.some.inj ht
      exact h.publish hp hlive hrecords
    · rintro (hnone | hother | hrecord)
      · rw [hconsumer] at hnone
        cases hnone
      · exact hother hown
      · exact hrecord (h.buffers.own p.pump r (hrecords ▸ List.mem_cons_self))
  · next hrecords =>
    split at ht
    · next hfailed =>
      obtain rfl := Option.some.inj ht
      exact h.fail hp hlive hfailed hrecords start
    split at ht
    · obtain rfl := Option.some.inj ht
      exact h.finish hp
    · cases ht

theorem discard (h : Inv s) (haccepting : (s.backend.pumps n).accepting = false) :
    Inv { s with records := Function.update s.records n [] } where
  backend := h.backend
  attachment := h.attachment
  buffers := h.buffers.discard (by rw [Pulsar.State.not_live haccepting]; exact Bool.false_ne_true)
  answers := ⟨h.answers.lt, h.answers.delivered, h.answers.drained⟩
  settlements := h.settlements.set _ s.handed s.pops

/-- The settlements go on. -/
theorem setSettlements (h : Inv s) {tokens : List AckToken} {calls : List Call}
    (hsettlements : Settlements { s with tokens, calls }) : Inv { s with tokens, calls } where
  backend := h.backend
  attachment := h.attachment
  buffers := h.buffers.set s.pops tokens s.retired calls
  answers := h.answers.set tokens calls
  settlements := hsettlements

end Inv

namespace Inv

variable {t : State}

/-- A lookup selects the consumer of the token, or nothing. -/
theorem lookup_cases (h : Inv s) {c : ℕ} {legacy : Option ℕ} (ht : s.lookup c legacy = some t) :
    ∃ call token consumer, s.calls[c]? = some call ∧ s.tokens[call.token]? = some token ∧ call.stage = .leased ∧
      t = { s with calls := s.calls.set c { call with consumer, stage := .selected } } ∧
      (∀ n, consumer = some n → token.consumer = some n ∧ token.generation = call.handles ∧
        ∃ g, call.handles = some g ∧ s.consumersOf g token.topic = some n) := by
  obtain ⟨call, hcall, ht⟩ := Option.bind_eq_some_iff.mp ht
  obtain ⟨token, htoken, ht⟩ := Option.bind_eq_some_iff.mp ht
  obtain ⟨_, hstage, ht⟩ := Option.bind_eq_some_iff.mp ht
  have hstage : call.stage = .leased := by simpa using hstage
  obtain rfl := Option.some.inj ht
  obtain ⟨m, -, hconsumer, hgeneration, -, -⟩ := h.settlements.tokens token (List.mem_of_getElem? htoken)
  refine ⟨call, token, _, hcall, htoken, hstage, rfl, fun n hn ↦ ?_⟩
  rw [consumerForToken_eq hconsumer hgeneration] at hn
  split at hn
  · next hfound =>
    obtain rfl := Option.some.inj hn
    refine ⟨hconsumer, hgeneration.trans hfound.1.symm, _, hfound.1, ?_⟩
    rw [hfound.1, Option.map_some, Option.getD_some] at hfound
    exact hfound.2
  · cases hn

theorem lookup (h : Inv s) {c : ℕ} {legacy : Option ℕ} (ht : s.lookup c legacy = some t) : Inv t := by
  obtain ⟨call, token, consumer, hcall, htoken, hstage, rfl, hconsumer⟩ := h.lookup_cases ht
  have hset : Settlements (s.setCall c { call with consumer, stage := .selected } token) :=
    h.settlements.setCall hcall htoken rfl
      ⟨nofun, fun n hn ↦ ⟨(hconsumer n hn).1, (hconsumer n hn).2.1⟩, nofun⟩
      (fun hsettling hne ↦ absurd hsettling hne) (Nat.add_le_add_right (by simp [Call.holds]) _)
  have hsame : s.tokens.set call.token token = s.tokens := by
    obtain ⟨hlt, rfl⟩ := List.getElem?_eq_some_iff.mp htoken
    exact List.set_getElem_self hlt
  unfold State.setCall at hset
  rw [hsame] at hset
  exact h.setSettlements hset

theorem claim (h : Inv s) {c : ℕ} {callable : Bool} (ht : s.claim c callable = some t) : Inv t := by
  obtain ⟨call, hcall, ht⟩ := Option.bind_eq_some_iff.mp ht
  obtain ⟨token, htoken, ht⟩ := Option.bind_eq_some_iff.mp ht
  obtain ⟨_, hstage, ht⟩ := Option.bind_eq_some_iff.mp ht
  have hstage : call.stage = .selected := by simpa using hstage
  obtain ⟨token', htoken', hok⟩ := h.settlements.calls call (List.mem_of_getElem? hcall)
  obtain rfl : token = token' := Option.some.inj (htoken.symm.trans htoken')
  have hfree : ∀ i, call.holds i = false := by
    intro i
    simp [Call.holds, hstage]
  -- A call that ends without the broker.
  have hover : ∀ state, (token.state = .settling → state = .settling) → token.state.room ≤ state.room →
      Inv (s.setCall c { call with stage := .over } { token with state }) := by
    intro state hsettling hroom
    refine h.setSettlements (h.settlements.setCall hcall htoken rfl ⟨nofun, hok.consumer, nofun⟩
      (fun hs hne ↦ absurd (hsettling hs) hne) ?_)
    exact Nat.add_le_add (by simp [Call.holds]) hroom
  cases hstate : token.state with
  | settling =>
    rw [hstate] at ht
    cases ht
  | acked | nacked | stale =>
    rw [hstate] at ht
    obtain rfl := Option.some.inj ht
    exact hover token.state id le_rfl
  | pending =>
    rw [hstate] at ht
    dsimp only at ht
    split at ht
    · obtain rfl := Option.some.inj ht
      exact hover .stale (by rw [hstate]; exact nofun) (by rw [hstate]; exact le_rfl)
    next hsome =>
    split at ht
    · obtain rfl := Option.some.inj ht
      refine h.setSettlements (h.settlements.setCall hcall htoken rfl ⟨fun _ ↦ ?_, hok.consumer, fun _ ↦ rfl⟩
        (fun _ hne ↦ absurd rfl hne) ?_)
      · exact Option.isSome_iff_ne_none.mpr hsome
      · rw [hstate]
        simp [Settlement.room, Call.holds]
    · obtain rfl := Option.some.inj ht
      exact hover .nacked (by rw [hstate]; exact nofun) (by rw [hstate]; exact Nat.zero_le _)

theorem answer (h : Inv s) {c : ℕ} {ok : Bool} (ht : s.answer c ok = some t) : Inv t := by
  obtain ⟨call, hcall, ht⟩ := Option.bind_eq_some_iff.mp ht
  obtain ⟨token, htoken, ht⟩ := Option.bind_eq_some_iff.mp ht
  obtain ⟨_, hstage, ht⟩ := Option.bind_eq_some_iff.mp ht
  have hstage : call.stage = .calling := by simpa using hstage
  obtain ⟨token', htoken', hok⟩ := h.settlements.calls call (List.mem_of_getElem? hcall)
  obtain rfl : token = token' := Option.some.inj (htoken.symm.trans htoken')
  obtain rfl := Option.some.inj ht
  refine h.setSettlements (h.settlements.setCall hcall htoken rfl ⟨fun _ ↦ ?_, hok.consumer, nofun⟩
    (fun _ _ ↦ hstage) ?_)
  · exact hok.reached (by rw [hstage]; rfl)
  · rw [hok.calling hstage]
    cases ok <;> cases call.ack <;> simp [Settlement.room, Call.holds, hstage]

theorem step (h : Inv s) {a : Label} (ht : s.step a = some t) : Inv t := by
  cases a with
  | lifecycle a =>
    cases a with
    | connect =>
      simp only [State.step, State.lifecycle] at ht
      obtain ⟨backend, hbackend, ht⟩ := Option.bind_eq_some_iff.mp ht
      obtain rfl := Option.some.inj ht
      exact h.lifecycle hbackend (fun _ _ _ ↦ nofun) s.retired
    | disconnect reentrant start =>
      simp only [State.step, State.lifecycle] at ht
      obtain ⟨backend, hbackend, ht⟩ := Option.bind_eq_some_iff.mp ht
      obtain rfl := Option.some.inj ht
      exact h.lifecycle hbackend (fun _ _ _ ↦ nofun) _
    | close n =>
      simp only [State.step, State.lifecycle] at ht
      obtain ⟨backend, hbackend, ht⟩ := Option.bind_eq_some_iff.mp ht
      obtain rfl := Option.some.inj ht
      exact h.lifecycle hbackend (fun _ _ _ ↦ nofun) s.retired
    | work n outcome start => exact h.work ht
    | ensureReceivePump | receive => cases ht
  | pop topic capacity start withAck =>
    obtain rfl := Option.some.inj ht
    exact h.pop topic capacity start withAck
  | take k expired start => exact h.take ht
  | discard n =>
    simp only [State.step] at ht
    split at ht
    · cases ht
    · next haccepting =>
      obtain rfl := Option.some.inj ht
      exact h.discard (by simpa using haccepting)
  | settle token ack =>
    simp only [State.step] at ht
    split at ht
    · next htoken =>
      obtain rfl := Option.some.inj ht
      exact h.setSettlements (h.settlements.begin htoken ack _)
    · cases ht
  | lookup c legacy => exact h.lookup ht
  | claim c callable => exact h.claim ht
  | answer c ok => exact h.answer ht

theorem of_reachable (h : machine.Reachable s) : Inv s :=
  h.invariant Inv.new fun _ _ _ hs ht ↦ hs.step ht

end Inv

/-! ## What lasts -/

/-- A delivery is one of a live pump. -/
theorem handed_of_step {t : State} {a : Label} (ht : s.step a = some t) (n : ℕ) :
    t.handed n = s.handed n ∨ s.backend.live n = true := by
  cases a with
  | lifecycle a =>
    refine .inl ?_
    cases a with
    | connect | disconnect | close =>
      simp only [State.step, State.lifecycle] at ht
      obtain ⟨_, -, ht⟩ := Option.bind_eq_some_iff.mp ht
      obtain rfl := Option.some.inj ht
      rfl
    | work n outcome start =>
      simp only [State.step, State.lifecycle, State.work] at ht
      split at ht
      · cases ht
      obtain ⟨_, -, ht⟩ := Option.bind_eq_some_iff.mp ht
      split at ht
      · split at ht <;> (obtain rfl := Option.some.inj ht; rfl)
      · obtain rfl := Option.some.inj ht
        rfl
    | ensureReceivePump | receive => cases ht
  | take k expired start =>
    obtain ⟨p, -, ht⟩ := Option.bind_eq_some_iff.mp ht
    obtain ⟨_, -, ht⟩ := Option.bind_eq_some_iff.mp ht
    dsimp only at ht
    split at ht
    · obtain rfl := Option.some.inj ht
      exact .inl rfl
    next hlive =>
    rw [not_not] at hlive
    split at ht
    · split at ht <;> obtain rfl := Option.some.inj ht
      · exact .inl rfl
      · by_cases hn : n = p.pump
        · exact .inr (hn ▸ hlive)
        · exact .inl (Function.update_of_ne hn _ _)
    · split at ht
      · obtain rfl := Option.some.inj ht
        exact .inl rfl
      split at ht
      · obtain rfl := Option.some.inj ht
        exact .inl rfl
      · cases ht
  | pop topic capacity start withAck =>
    obtain rfl := Option.some.inj ht
    exact .inl rfl
  | discard m =>
    simp only [State.step] at ht
    split at ht
    · cases ht
    · obtain rfl := Option.some.inj ht
      exact .inl rfl
  | settle token ack =>
    simp only [State.step] at ht
    split at ht
    · obtain rfl := Option.some.inj ht
      exact .inl rfl
    · cases ht
  | lookup c legacy =>
    obtain ⟨_, -, ht⟩ := Option.bind_eq_some_iff.mp ht
    obtain ⟨_, -, ht⟩ := Option.bind_eq_some_iff.mp ht
    obtain ⟨_, -, ht⟩ := Option.bind_eq_some_iff.mp ht
    obtain rfl := Option.some.inj ht
    exact .inl rfl
  | claim c callable =>
    obtain ⟨_, -, ht⟩ := Option.bind_eq_some_iff.mp ht
    obtain ⟨_, -, ht⟩ := Option.bind_eq_some_iff.mp ht
    obtain ⟨_, -, ht⟩ := Option.bind_eq_some_iff.mp ht
    split at ht
    · cases ht
    · obtain rfl := Option.some.inj ht
      exact .inl rfl
    · obtain rfl := Option.some.inj ht
      exact .inl rfl
    · obtain rfl := Option.some.inj ht
      exact .inl rfl
    · split at ht
      · obtain rfl := Option.some.inj ht
        exact .inl rfl
      split at ht <;> (obtain rfl := Option.some.inj ht; exact .inl rfl)
  | answer c ok =>
    obtain ⟨_, -, ht⟩ := Option.bind_eq_some_iff.mp ht
    obtain ⟨_, -, ht⟩ := Option.bind_eq_some_iff.mp ht
    obtain ⟨_, -, ht⟩ := Option.bind_eq_some_iff.mp ht
    obtain rfl := Option.some.inj ht
    exact .inl rfl

/-- What a step does to the settlements. -/
theorem settlements_of_step {t : State} {a : Label} (h : Inv s) (ht : s.step a = some t) :
    (t.calls = s.calls ∧ s.tokens <+: t.tokens) ∨
    (t.tokens = s.tokens ∧ ∃ token ack handles, t.calls = s.calls ++ [⟨token, ack, handles, none, .leased⟩]) ∨
    (t.tokens = s.tokens ∧ ∃ c call consumer, s.calls[c]? = some call ∧ call.stage = .leased ∧
      t.calls = s.calls.set c { call with consumer, stage := .selected }) ∨
    ∃ c call token stage state, s.calls[c]? = some call ∧ s.tokens[call.token]? = some token ∧
      call.stage ≠ .leased ∧ (token.state.terminal = true → stage = .over ∧ state = token.state) ∧
      (call.consumer = none → stage = .over) ∧ t.calls = s.calls.set c { call with stage } ∧
      t.tokens = s.tokens.set call.token { token with state } := by
  cases a with
  | lifecycle a =>
    refine .inl ?_
    cases a with
    | connect | disconnect | close =>
      simp only [State.step, State.lifecycle] at ht
      obtain ⟨_, -, ht⟩ := Option.bind_eq_some_iff.mp ht
      obtain rfl := Option.some.inj ht
      exact ⟨rfl, List.prefix_refl _⟩
    | work n outcome start =>
      simp only [State.step, State.lifecycle, State.work] at ht
      split at ht
      · cases ht
      obtain ⟨_, -, ht⟩ := Option.bind_eq_some_iff.mp ht
      split at ht
      · split at ht <;> obtain rfl := Option.some.inj ht
        · exact ⟨rfl, List.prefix_refl _⟩
        · exact ⟨rfl, List.prefix_refl _⟩
      · obtain rfl := Option.some.inj ht
        exact ⟨rfl, List.prefix_refl _⟩
    | ensureReceivePump | receive => cases ht
  | pop topic capacity start withAck =>
    obtain rfl := Option.some.inj ht
    exact .inl ⟨rfl, List.prefix_refl _⟩
  | take k expired start =>
    refine .inl ?_
    obtain ⟨p, -, ht⟩ := Option.bind_eq_some_iff.mp ht
    obtain ⟨_, -, ht⟩ := Option.bind_eq_some_iff.mp ht
    dsimp only at ht
    split at ht
    · obtain rfl := Option.some.inj ht
      exact ⟨rfl, List.prefix_refl _⟩
    split at ht
    · split at ht <;> obtain rfl := Option.some.inj ht
      · exact ⟨rfl, List.prefix_refl _⟩
      · refine ⟨rfl, ?_⟩
        dsimp only [State.finish, State.publish]
        split
        · exact List.prefix_append _ _
        · exact List.prefix_refl _
    · split at ht
      · obtain rfl := Option.some.inj ht
        exact ⟨rfl, List.prefix_refl _⟩
      split at ht
      · obtain rfl := Option.some.inj ht
        exact ⟨rfl, List.prefix_refl _⟩
      · cases ht
  | discard n =>
    simp only [State.step] at ht
    split at ht
    · cases ht
    · obtain rfl := Option.some.inj ht
      exact .inl ⟨rfl, List.prefix_refl _⟩
  | settle token ack =>
    simp only [State.step] at ht
    split at ht
    · obtain rfl := Option.some.inj ht
      exact .inr (.inl ⟨rfl, token, ack, _, rfl⟩)
    · cases ht
  | lookup c legacy =>
    obtain ⟨call, token, consumer, hcall, -, hstage, rfl, -⟩ := h.lookup_cases ht
    exact .inr (.inr (.inl ⟨rfl, c, call, consumer, hcall, hstage, rfl⟩))
  | claim c callable =>
    obtain ⟨call, hcall, ht⟩ := Option.bind_eq_some_iff.mp ht
    obtain ⟨token, htoken, ht⟩ := Option.bind_eq_some_iff.mp ht
    obtain ⟨_, hstage, ht⟩ := Option.bind_eq_some_iff.mp ht
    have hstage : call.stage = .selected := by simpa using hstage
    have hne : call.stage ≠ .leased := by rw [hstage]; exact nofun
    refine .inr (.inr (.inr ?_))
    cases hstate : token.state with
    | settling =>
      rw [hstate] at ht
      cases ht
    | acked | nacked | stale =>
      rw [hstate] at ht
      obtain rfl := Option.some.inj ht
      exact ⟨c, call, token, .over, token.state, hcall, htoken, hne, fun _ ↦ ⟨rfl, rfl⟩, fun _ ↦ rfl, rfl, rfl⟩
    | pending =>
      rw [hstate] at ht
      have hpending : token.state.terminal ≠ true := by rw [hstate]; exact nofun
      dsimp only at ht
      split at ht
      · obtain rfl := Option.some.inj ht
        exact ⟨c, call, token, .over, .stale, hcall, htoken, hne, fun hterminal ↦ absurd hterminal hpending,
          fun _ ↦ rfl, rfl, rfl⟩
      next hsome =>
      split at ht <;> obtain rfl := Option.some.inj ht
      · exact ⟨c, call, token, .calling, .settling, hcall, htoken, hne, fun hterminal ↦ absurd hterminal hpending,
          fun hnone ↦ absurd hnone hsome, rfl, rfl⟩
      · exact ⟨c, call, token, .over, .nacked, hcall, htoken, hne, fun hterminal ↦ absurd hterminal hpending,
          fun _ ↦ rfl, rfl, rfl⟩
  | answer c ok =>
    obtain ⟨call, hcall, ht⟩ := Option.bind_eq_some_iff.mp ht
    obtain ⟨token, htoken, ht⟩ := Option.bind_eq_some_iff.mp ht
    obtain ⟨_, hstage, ht⟩ := Option.bind_eq_some_iff.mp ht
    have hstage : call.stage = .calling := by simpa using hstage
    obtain ⟨token', htoken', hok⟩ := h.settlements.calls call (List.mem_of_getElem? hcall)
    obtain rfl : token = token' := Option.some.inj (htoken.symm.trans htoken')
    obtain rfl := Option.some.inj ht
    refine .inr (.inr (.inr ⟨c, call, token, _, _, hcall, htoken, by rw [hstage]; exact nofun, fun hterminal ↦ ?_,
      fun hnone ↦ ?_, rfl, rfl⟩))
    · rw [hok.calling hstage] at hterminal
      cases hterminal
    · have hsome := hok.reached (by rw [hstage]; rfl)
      rw [hnone] at hsome
      cases hsome

/-- The calls that have reached the broker for a token. -/
def State.reached (s : State) (i c : ℕ) : Prop :=
  ∃ call, s.calls[c]? = some call ∧ call.token = i ∧ call.stage.reached = true

/-- A token that is settled stays as it is, and nobody asks the broker for it any more. -/
theorem settled_step {t : State} {a : Label} (h : Inv s) (ht : s.step a = some t) {i : ℕ} {token : AckToken}
    (hi : s.tokens[i]? = some token) (hterminal : token.state.terminal = true) :
    t.tokens[i]? = some token ∧ ∀ c, t.reached i c → s.reached i c := by
  rcases settlements_of_step h ht with ⟨hcalls, htokens⟩ | ⟨htokens, _, _, _, hcalls⟩ |
    ⟨htokens, c, call, consumer, hcall, -, hcalls⟩ |
    ⟨c, call, token', stage, state, hcall, htoken', -, hover, -, hcalls, htokens⟩
  · refine ⟨List.getElem?_of_grown htokens hi, fun c hc ↦ ?_⟩
    rwa [State.reached, hcalls] at hc
  · refine ⟨htokens ▸ hi, ?_⟩
    rintro c ⟨call, hcall, htoken, hreached⟩
    rw [hcalls] at hcall
    rcases List.getElem?_concat_some hcall with ⟨-, rfl⟩ | hcall
    · cases hreached
    · exact ⟨call, hcall, htoken, hreached⟩
  · refine ⟨htokens ▸ hi, ?_⟩
    rintro c' ⟨call', hcall', htoken, hreached⟩
    rw [hcalls] at hcall'
    rcases List.getElem?_set_some hcall' with ⟨-, rfl⟩ | ⟨-, hcall'⟩
    · cases hreached
    · exact ⟨call', hcall', htoken, hreached⟩
  · by_cases hsame : call.token = i
    · -- The call ends without the broker.
      subst hsame
      obtain rfl : token = token' := Option.some.inj (hi.symm.trans htoken')
      obtain ⟨rfl, rfl⟩ := hover hterminal
      refine ⟨?_, ?_⟩
      · rw [htokens]
        exact List.getElem?_set_self (List.getElem?_eq_some_iff.mp hi).1
      · rintro c' ⟨call', hcall', htoken, hreached⟩
        rw [hcalls] at hcall'
        rcases List.getElem?_set_some hcall' with ⟨-, rfl⟩ | ⟨-, hcall'⟩
        · cases hreached
        · exact ⟨call', hcall', htoken, hreached⟩
    · refine ⟨?_, ?_⟩
      · rw [htokens]
        exact (List.getElem?_set_ne hsame).trans hi
      · rintro c' ⟨call', hcall', htoken, hreached⟩
        rw [hcalls] at hcall'
        rcases List.getElem?_set_some hcall' with ⟨-, rfl⟩ | ⟨-, hcall'⟩
        · exact absurd htoken hsame
        · exact ⟨call', hcall', htoken, hreached⟩

/-- A call without a consumer. -/
def Call.refused (c : Call) : Bool := c.consumer.isNone && (c.stage = .selected || c.stage = .over)

/-- It never gets to the broker. -/
theorem refused_step {t : State} {a : Label} (h : Inv s) (ht : s.step a = some t) {c : ℕ}
    (hc : ∃ call, s.calls[c]? = some call ∧ call.refused = true) :
    ∃ call, t.calls[c]? = some call ∧ call.refused = true := by
  obtain ⟨call, hcall, hrefused⟩ := hc
  have hrefused' := hrefused
  rw [Call.refused, Bool.and_eq_true, Option.isNone_iff_eq_none, Bool.or_eq_true, decide_eq_true_eq,
    decide_eq_true_eq] at hrefused'
  obtain ⟨hnone, hstage⟩ := hrefused'
  rcases settlements_of_step h ht with ⟨hcalls, -⟩ | ⟨-, _, _, _, hcalls⟩ |
    ⟨-, c', call', consumer, hcall', hleased, hcalls⟩ |
    ⟨c', call', token', stage, state, hcall', -, -, -, hover, hcalls, -⟩
  · exact ⟨call, hcalls ▸ hcall, hrefused⟩
  · exact ⟨call, hcalls ▸ List.getElem?_of_grown (List.prefix_append _ _) hcall, hrefused⟩
  · have hne : c' ≠ c := by
      rintro rfl
      obtain rfl : call = call' := Option.some.inj (hcall.symm.trans hcall')
      rw [hleased] at hstage
      rcases hstage with hstage | hstage <;> cases hstage
    exact ⟨call, hcalls ▸ (List.getElem?_set_ne hne).trans hcall, hrefused⟩
  · by_cases hsame : c' = c
    · subst hsame
      obtain rfl : call = call' := Option.some.inj (hcall.symm.trans hcall')
      refine ⟨{ call with stage }, hcalls ▸ List.getElem?_set_self (List.getElem?_eq_some_iff.mp hcall).1, ?_⟩
      rw [Call.refused, hnone, hover hnone]
      rfl
    · exact ⟨call, hcalls ▸ (List.getElem?_set_ne hsame).trans hcall, hrefused⟩

/-! ## Deliveries and settlements -/

/-- What holds between the records, the pops and the tokens. -/
structure Sound (s : State) : Prop where
  order : ∀ n, (s.accepted n).Pairwise (· < ·) ∧ ∀ m ∈ s.accepted n, s.received[m]? = some n
  /-- Pops get the messages of a pump in the order in which it has received them. -/
  fifo : ∀ n, (s.handed n).map Handed.message <+: s.accepted n
  /-- Nothing is lost as long as the pump is live. -/
  whole : ∀ n, s.backend.live n = true →
    s.accepted n = (s.handed n).map Handed.message ++ (s.records n).map Record.message
  length_le : ∀ n, (s.records n).length ≤ s.capacity n
  /-- A message is delivered once. -/
  once : ∀ (k k' : ℕ) (p p' : Pop) (m : ℕ), s.pops[k]? = some p → s.pops[k']? = some p' → p.result = some (.delivered m) →
    p'.result = some (.delivered m) → k = k'
  generation : ∀ n, ∀ e ∈ s.handed n, e.generation = (s.backend.pumps n).generation
  /-- A pop that reports the failure of its pump comes after all of its messages. -/
  drained : ∀ p ∈ s.pops, p.result = some .failed → (s.handed p.pump).map Handed.message = s.accepted p.pump
  /-- A token is settled once. -/
  settled : ∀ i, s.calls.countP (Call.holds i) ≤ 1
  /-- What reaches the broker is for the consumer and the generation of the delivery. -/
  sent : ∀ c ∈ s.calls, c.stage.reached = true → ∃ token n g, s.tokens[c.token]? = some token ∧
    s.received[token.message]? = some n ∧ token.consumer = some n ∧ c.consumer = some n ∧
    token.generation = some g ∧ g = (s.backend.pumps n).generation ∧ c.handles = some g

/-- What holds of the steps and of the runs from here. -/
structure Lasting (s : State) : Prop where
  /-- A pump that is not live hands nothing out. -/
  handed : ∀ a t n, s.step a = some t → t.handed n ≠ s.handed n → s.backend.live n = true
  /-- A token that is settled is not sent again. -/
  settled : ∀ (i : ℕ) (token : AckToken) (labels : List Label) (t : State), s.tokens[i]? = some token → token.state.terminal = true →
    machine.run s labels = some t → t.tokens[i]? = some token ∧ ∀ c, t.reached i c → s.reached i c
  /-- Nor is one whose consumer is not the one of its topic any more, or whose generation is another one. -/
  refused : ∀ (c : ℕ) (legacy : Option ℕ) (call : Call) (token : AckToken) (t : State) (labels : List Label) (u : State),
    s.calls[c]? = some call → s.tokens[call.token]? = some token →
    (call.handles ≠ token.generation ∨ ∀ g, call.handles = some g → s.consumersOf g token.topic ≠ token.consumer) →
    s.step (.lookup c legacy) = some t → machine.run t labels = some u → ¬ u.reached call.token c

theorem Inv.once (h : Inv s) {k k' m : ℕ} {p p' : Pop} (hk : s.pops[k]? = some p) (hk' : s.pops[k']? = some p')
    (hp : p.result = some (.delivered m)) (hp' : p'.result = some (.delivered m)) : k = k' := by
  obtain ⟨e, he, rfl, hem⟩ := h.answers.delivered k p m hk hp
  obtain ⟨e', he', rfl, hem'⟩ := h.answers.delivered k' p' m hk' hp'
  have hmem : ∀ {n : ℕ} {e : Handed}, e ∈ s.handed n → s.received[e.message]? = some n := fun he ↦
    h.buffers.received _ _ ((h.buffers.fifo _).subset (List.mem_map_of_mem he))
  -- The message is one of one pump, which has it once.
  have hpump : p.pump = p'.pump := by
    have hreceived := hmem he
    rw [hem, ← hem', hmem he'] at hreceived
    exact (Option.some.inj hreceived).symm
  rw [← hpump] at he'
  have hnodup : ((s.handed p.pump).map Handed.message).Nodup :=
    ((h.buffers.order p.pump).imp fun hlt ↦ hlt.ne).sublist (h.buffers.fifo p.pump).sublist
  rw [List.inj_on_of_nodup_map hnodup he he' (hem.trans hem'.symm)]

theorem Inv.sound (h : Inv s) : Sound s where
  order n := ⟨h.buffers.order n, h.buffers.received n⟩
  fifo := h.buffers.fifo
  whole := h.buffers.whole
  length_le := h.buffers.length_le
  once _ _ _ _ _ := h.once
  generation := h.buffers.generation
  drained p hp hresult := (h.answers.drained p hp hresult).2
  settled i := by
    rcases hi : s.tokens[i]? with _ | token
    · -- There is no such token.
      refine le_of_eq_of_le (List.countP_eq_zero.mpr fun c hc hholds ↦ ?_) (Nat.zero_le 1)
      obtain ⟨token, htoken, -⟩ := h.settlements.calls c hc
      rw [Call.holds, Bool.and_eq_true, decide_eq_true_eq] at hholds
      rw [hholds.1, hi] at htoken
      cases htoken
    · refine (h.settlements.once i token hi).trans ?_
      cases token.state <;> exact Nat.le_of_ble_eq_true rfl
  sent c hc hreached := by
    obtain ⟨token, htoken, hok⟩ := h.settlements.calls c hc
    obtain ⟨n, -, hconsumer, hgeneration, -, hmessage⟩ := h.settlements.tokens token (List.mem_of_getElem? htoken)
    obtain ⟨n', hn'⟩ := Option.isSome_iff_exists.mp (hok.reached hreached)
    obtain ⟨hconsumer', hhandles⟩ := hok.consumer n' hn'
    obtain rfl : n = n' := Option.some.inj (hconsumer.symm.trans hconsumer')
    exact ⟨token, n, _, htoken, hmessage, hconsumer, hn', hgeneration, rfl, hhandles.symm.trans hgeneration⟩

theorem Inv.lasting (h : Inv s) : Lasting s where
  handed a t n ht hne := (handed_of_step ht n).resolve_left hne
  settled i token labels t hi hterminal ht := by
    have hrun := machine.run_invariant
      (I := fun u ↦ Inv u ∧ u.tokens[i]? = some token ∧ ∀ c, u.reached i c → s.reached i c)
      (fun u a v hu hv ↦ by
        obtain ⟨hinv, htoken, hreached⟩ := hu
        obtain ⟨htoken', hreached'⟩ := settled_step hinv hv htoken hterminal
        exact ⟨hinv.step hv, htoken', fun c hc ↦ hreached c (hreached' c hc)⟩)
      ⟨h, hi, fun _ hc ↦ hc⟩ ht
    exact hrun.2
  refused c legacy call token t labels u hcall htoken hstale ht hu := by
    obtain ⟨call', token', consumer, hcall', htoken', -, rfl, hconsumer⟩ := h.lookup_cases ht
    obtain rfl : call = call' := Option.some.inj (hcall.symm.trans hcall')
    obtain rfl : token = token' := Option.some.inj (htoken.symm.trans htoken')
    have hnone : consumer = none := by
      rcases consumer with _ | n
      · rfl
      · exfalso
        obtain ⟨htoken, hgeneration, g, hg, hfound⟩ := hconsumer n rfl
        rcases hstale with hstale | hstale
        · exact hstale hgeneration.symm
        · exact hstale g hg (hfound.trans htoken.symm)
    subst hnone
    have hrefused : ∃ call', (s.calls.set c { call with consumer := none, stage := .selected })[c]? = some call' ∧
        call'.refused = true := ⟨_, List.getElem?_set_self (List.getElem?_eq_some_iff.mp hcall).1, rfl⟩
    obtain ⟨-, call', hcall', hrefused'⟩ := machine.run_invariant
      (I := fun v ↦ Inv v ∧ ∃ call', v.calls[c]? = some call' ∧ call'.refused = true)
      (fun v a w hv hw ↦ ⟨hv.1.step hw, refused_step hv.1 hw hv.2⟩) ⟨h.lookup ht, hrefused⟩ hu
    rintro ⟨call'', hcall'', -, hreached⟩
    obtain rfl := Option.some.inj (hcall'.symm.trans hcall'')
    rw [Call.refused, Bool.and_eq_true, Bool.or_eq_true, decide_eq_true_eq, decide_eq_true_eq] at hrefused'
    rcases hrefused'.2 with hstage | hstage <;> rw [hstage] at hreached <;> cases hreached

theorem pump_delivery (h : machine.Reachable s) : Sound s ∧ Lasting s :=
  ⟨(Inv.of_reachable h).sound, (Inv.of_reachable h).lasting⟩

/-- A message is delivered and acknowledged across a disconnect, and another is left behind. -/
def acknowledged : List Label :=
  [.lifecycle .connect, .pop 0 1 .started true, .lifecycle (.work 0 .ok .started), .lifecycle (.work 0 .ok .started),
    .lifecycle (.work 0 .ok .started), .lifecycle (.work 0 .ok .started), .take 0 false .started,
    .lifecycle (.work 0 .ok .started), .lifecycle (.work 0 .ok .started), .settle 0 true, .lookup 0 none, .claim 0 true,
    .lifecycle (.disconnect none fun _ ↦ .started), .discard 0, .answer 0 true, .settle 0 false, .lookup 1 none,
    .claim 1 true]

theorem isSome_acknowledged : (machine.run .new acknowledged).isSome = true := by
  decide +kernel

theorem pump_delivery_acknowledged :
    (Sound ((machine.run .new acknowledged).get isSome_acknowledged) ∧
      Lasting ((machine.run .new acknowledged).get isSome_acknowledged)) ∧
      ((machine.run .new acknowledged).get isSome_acknowledged).accepted 0 = [0, 1] ∧
      ((machine.run .new acknowledged).get isSome_acknowledged).tokens.map AckToken.state = [.acked] :=
  ⟨pump_delivery ⟨acknowledged, (Option.some_get isSome_acknowledged).symm⟩, by decide +kernel, by decide +kernel⟩

end Delivery

end Pulsar

end ScrapyExtension
