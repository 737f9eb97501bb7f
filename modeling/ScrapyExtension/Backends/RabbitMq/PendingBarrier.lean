import Mathlib.Tactic
import ScrapyExtension.Machine.Basic
import ScrapyExtension.Machine.Threads
import ScrapyExtension.Py.Text

/-!
# The pending deliveries of a RabbitMQ channel

A purge removes the messages that are ready, but not those that are delivered and not acknowledged; a nack
would bring such a message back after the queue was cleared. Each channel generation therefore counts its
deliveries by queue, and `clear_queue` refuses while its count is not zero.

## Steps

A call leases the current generation, runs sections under `_delivery_lock`, and gives the lease back. A
section is one step, with the outcome of its call of the broker; a pop with a timeout has as many sections
as it makes attempts. A disconnect, and a connect that finds its session unhealthy, retires the current
generation under the lock, waits for its leases and closes it; nothing is published meanwhile, since
`_retirement_lock` is held. Calls from inside a callback of the driver are not considered.

## The broker

Delivery tags count the deliveries of a channel. An acknowledgement settles the delivery that has the tag
if it is not settled yet, and one that raises does nothing. What a channel has not settled is put back into
its queue when the channel is closed or lost.

## Tokens

A token is a tag and the number of a generation, and every backend numbers its own generations. A token
that was issued by another backend may therefore fit.
-/

namespace ScrapyExtension

open Py

namespace RabbitMq

/-! ## State -/

/-- A message that the broker has delivered. -/
structure Delivery where
  queue : Str
  settled : Bool
  /-- Its queue was purged after the delivery. -/
  cleared : Bool
deriving DecidableEq

/-- `_RabbitMQGenerationHandles`, and the side of the broker. -/
structure Handles where
  accepting : Bool
  closed : Bool
  /-- `pending_deliveries` -/
  pending : Str → ℕ
  /-- `last_delivery_tag` and `last_delivery_queue` -/
  last : Option (ℕ × Str)
  /-- The deliveries of the channel, by their tags. -/
  deliveries : List Delivery

def Handles.new : Handles := ⟨true, false, fun _ ↦ 0, none, []⟩

/-- How many deliveries of a queue are not settled. -/
def Handles.unsettled (h : Handles) (queue : Str) : ℕ :=
  h.deliveries.countP fun d ↦ d.queue = queue && !d.settled

/-- `_RabbitMQAckToken` -/
structure Token where
  deliveryTag : ℕ
  channelGeneration : ℕ
  queueName : Option Str
  completed : Bool
  /-- This backend has issued it. -/
  own : Bool
deriving DecidableEq

/-- The `token` of an `ack` or a `nack`. -/
inductive TokenArgument
  | none
  /-- Not a `_RabbitMQAckToken`. -/
  | other
  | token (i : ℕ)
deriving DecidableEq

inductive Op
  /-- `_basic_get`; `pop_with_ack` tracks what it gets, `pop` does not. -/
  | get (queueName : Str) (trackInFlight : Bool)
  /-- `ack`, and `nack` with `requeue` -/
  | settle (queueName : Str) (token : TokenArgument) (requeue : Bool)
  | clearQueue (queueName : Str)
deriving DecidableEq

inductive Stage
  | leased
  /-- Its section is over. -/
  | finished
  | released
deriving DecidableEq

structure Call where
  op : Op
  generation : ℕ
  stage : Stage
deriving DecidableEq

/-- An acknowledgement that was sent. -/
structure Sent where
  generation : ℕ
  /-- How many channels there had been by then. -/
  channels : ℕ
  token : Option ℕ
  applied : Bool
deriving DecidableEq

structure State where
  handles : List Handles
  current : Option ℕ
  /-- What is being drained under `_retirement_lock`. -/
  retiring : Option ℕ
  calls : List Call
  tokens : List Token
  sent : List Sent
  /-- What was left unsettled on the channel of a purge. -/
  purges : List ℕ
  /-- What was put back into its queue, as it was then. -/
  requeued : List Delivery

def State.new : State := ⟨[], none, none, [], [], [], [], []⟩

/-- What the broker does for a section. -/
inductive Outcome
  | done
  /-- The queue is empty. -/
  | empty
  | raised
deriving DecidableEq

/-! ## The broker -/

/-- `basic_ack` and `basic_nack` -/
def Handles.settle (h : Handles) (tag : ℕ) : Handles :=
  { h with deliveries := h.deliveries.modify tag fun d ↦ { d with settled := true } }

/-- What a nack puts back. -/
def Handles.returned (h : Handles) (tag : ℕ) : List Delivery :=
  (h.deliveries[tag]?.filter fun d ↦ !d.settled).toList

/-- What is put back when the channel is gone. -/
def Handles.leftOver (h : Handles) : List Delivery := h.deliveries.filter fun d ↦ !d.settled

/-- `queue_purge` -/
def Handles.purge (h : Handles) (queue : Str) : Handles :=
  { h with deliveries := h.deliveries.map fun d ↦ { d with cleared := d.cleared || d.queue = queue } }

/-! ## The backend -/

/-- `_record_pending_delivery` -/
def recordPendingDelivery (pending : Str → ℕ) (queue : Str) : Str → ℕ :=
  Function.update pending queue (pending queue + 1)

/-- `_settle_pending_delivery` -/
def settlePendingDelivery (pending : Str → ℕ) : Option Str → Str → ℕ
  | none => pending
  | some queue => Function.update pending queue (if pending queue ≤ 1 then 0 else pending queue - 1)

namespace State

def setHandles (s : State) (g : ℕ) (h : Handles) : State := { s with handles := s.handles.set g h }

/-- An acknowledgement for a tag; `requeued` gets what comes back. -/
def acknowledge (s : State) (g : ℕ) (h : Handles) (tag : ℕ) (queue : Option Str) (last : Option (ℕ × Str))
    (requeue : Bool) : State :=
  { s.setHandles g { h.settle tag with pending := settlePendingDelivery h.pending queue, last } with
    requeued := s.requeued ++ if requeue then h.returned tag else [] }

def send (s : State) (g : ℕ) (token : Option ℕ) (applied : Bool) : State :=
  { s with sent := s.sent ++ [⟨g, s.handles.length, token, applied⟩] }

/-- A section of `_basic_get`, and whether the call is over. -/
def get (s : State) (g : ℕ) (h : Handles) (queue : Str) (track : Bool) (outcome : Outcome) : State × Stage :=
  if !h.accepting then (s, .finished)
  else
    match outcome with
    | .done =>
      let tag := h.deliveries.length
      let s := s.setHandles g
        { h with
          deliveries := h.deliveries ++ [⟨queue, false, false⟩]
          pending := recordPendingDelivery h.pending queue
          last := if track then h.last else some (tag, queue) }
      (if track then { s with tokens := s.tokens ++ [⟨tag, g, some queue, false, true⟩] } else s, .finished)
    | .empty => (s, .leased)
    | .raised => (s, .finished)

/-- `ack` and `nack`. The name of the queue is for error texts. -/
def settle (s : State) (g : ℕ) (h : Handles) (token : TokenArgument) (requeue : Bool) (outcome : Outcome) :
    State :=
  match token with
  | .other => s
  | .token i =>
    match s.tokens[i]? with
    | none => s
    | some x =>
      if x.completed ∨ x.channelGeneration ≠ g then s
      else
        match outcome with
        | .raised | .empty => s.send g (some i) false
        | .done =>
          let s := s.send g (some i) true
          { s.acknowledge g h x.deliveryTag x.queueName h.last requeue with
            tokens := s.tokens.set i { x with completed := true } }
  | .none =>
    match h.last with
    | none => s
    | some (tag, queue) =>
      match outcome with
      | .raised | .empty => s.send g none false
      | .done => (s.send g none true).acknowledge g h tag (some queue) none requeue

/-- `clear_queue` -/
def clearQueue (s : State) (h : Handles) (queue : Str) (outcome : Outcome) : State :=
  if h.pending queue ≠ 0 then s
  else
    match outcome with
    | .done =>
      { s with
        handles := s.handles.map (·.purge queue)
        purges := s.purges ++ [h.unsettled queue] }
    | .empty | .raised => s

/-- The section of a call. -/
def operate (s : State) (g : ℕ) (h : Handles) (outcome : Outcome) : Op → State × Stage
  | .get queue track => s.get g h queue track outcome
  | .settle _ token requeue => (s.settle g h token requeue outcome, .finished)
  | .clearQueue queue => (s.clearQueue h queue outcome, .finished)

/-- Nobody leases the generation. -/
def drained (s : State) (g : ℕ) : Bool := s.calls.all fun c ↦ c.generation ≠ g ∨ c.stage = .released

end State

/-! ## Steps -/

inductive Label
  /-- A connect publishes its channel. -/
  | publish
  /-- A disconnect, or a connect with an unhealthy session, stops admission. -/
  | retire
  /-- It closes what it has retired. -/
  | close
  /-- The broker loses the channel. -/
  | lose (g : ℕ)
  | enter (op : Op)
  | run (c : ℕ) (outcome : Outcome)
  | release (c : ℕ)
  /-- Another backend issues a token. -/
  | foreign (deliveryTag channelGeneration : ℕ) (queueName : Option Str)

namespace State

def step (s : State) : Label → Option State
  | .publish =>
    if s.current = none ∧ s.retiring = none then
      some { s with handles := s.handles ++ [.new], current := some s.handles.length }
    else none
  | .retire => do
    let g ← s.current
    let h ← s.handles[g]?
    some { s.setHandles g { h with accepting := false } with current := none, retiring := some g }
  | .close => do
    let g ← s.retiring
    let h ← s.handles[g]?
    guard (s.drained g)
    some { s.setHandles g { h with closed := true } with
      retiring := none
      requeued := s.requeued ++ h.leftOver }
  | .lose g => do
    let h ← s.handles[g]?
    guard !h.closed
    some { s with requeued := s.requeued ++ h.leftOver }
  | .enter op => do
    let g ← s.current
    -- What is not a token of this kind is not even looked at.
    match op with
    | .settle _ .other _ => some s
    | .settle .. | .get .. | .clearQueue _ => some { s with calls := s.calls ++ [⟨op, g, .leased⟩] }
  | .run c outcome => do
    let call ← s.calls[c]?
    guard (call.stage = .leased)
    let h ← s.handles[call.generation]?
    let (s, stage) := s.operate call.generation h outcome call.op
    some { s with calls := s.calls.set c { call with stage } }
  | .release c => do
    let call ← s.calls[c]?
    some { s with calls := s.calls.set c { call with stage := .released } }
  | .foreign tag g queue => some { s with tokens := s.tokens ++ [⟨tag, g, queue, false, false⟩] }

end State

def machine : Machine State Label where
  init := .new
  step := State.step

/-- The token of an acknowledgement was issued by this backend, or it does not fit. -/
def Call.OwnToken (tokens : List Token) : Call → Prop
  | ⟨.settle _ (.token i) _, g, _⟩ => ∀ x ∈ tokens[i]?, x.channelGeneration = g → x.own = true
  | ⟨.settle _ .none _, _, _⟩ | ⟨.settle _ .other _, _, _⟩ | ⟨.get .., _, _⟩ | ⟨.clearQueue _, _, _⟩ => True

instance (tokens : List Token) : DecidablePred (Call.OwnToken tokens)
  | ⟨.settle _ (.token i) _, g, _⟩ =>
    inferInstanceAs (Decidable (∀ x ∈ tokens[i]?, x.channelGeneration = g → x.own = true))
  | ⟨.settle _ .none _, _, _⟩ | ⟨.settle _ .other _, _, _⟩ | ⟨.get .., _, _⟩ | ⟨.clearQueue _, _, _⟩ =>
    isTrue trivial

/-- No acknowledgement is given a token of another backend that fits. -/
def OwnTokens (s : State) : Label → Prop
  | .run c _ => ∀ call ∈ s.calls[c]?, call.OwnToken s.tokens
  | .publish | .retire | .close | .lose _ | .enter _ | .release _ | .foreign .. => True

instance (s : State) : DecidablePred (OwnTokens s)
  | .run c _ => inferInstanceAs (Decidable (∀ call ∈ s.calls[c]?, call.OwnToken s.tokens))
  | .publish | .retire | .close | .lose _ | .enter _ | .release _ | .foreign .. => isTrue trivial

/-! ## One channel -/

/-- The books of a channel agree with the broker. -/
structure Handles.Ok (h : Handles) : Prop where
  counted : ∀ queue, h.pending queue = h.unsettled queue
  /-- A channel that is open has nothing left from before a purge. -/
  fresh : h.closed = false → ∀ d ∈ h.deliveries, d.settled = false → d.cleared = false
  last : ∀ tag queue, h.last = some (tag, queue) →
    ∃ d, h.deliveries[tag]? = some d ∧ d.queue = queue ∧ d.settled = false

namespace Handles

variable {h : Handles} {tag : ℕ} {queue : Str} {d : Delivery}

theorem ok_new : new.Ok := ⟨fun _ ↦ rfl, fun _ ↦ nofun, nofun⟩

theorem Ok.of_eq {h' : Handles} (hok : h.Ok) (hpending : h'.pending = h.pending)
    (hdeliveries : h'.deliveries = h.deliveries) (hlast : h'.last = h.last)
    (hclosed : h'.closed = false → h.closed = false) : h'.Ok where
  counted queue := by
    rw [hpending, hok.counted, unsettled, unsettled, hdeliveries]
  fresh hopen d hd := hok.fresh (hclosed hopen) d (hdeliveries ▸ hd)
  last tag queue := by
    rw [hlast, hdeliveries]
    exact hok.last tag queue

/-- A delivery is counted. -/
theorem Ok.deliver (hok : h.Ok) (queue : Str) (track : Bool) :
    Ok { h with
      deliveries := h.deliveries ++ [⟨queue, false, false⟩]
      pending := recordPendingDelivery h.pending queue
      last := if track then h.last else some (h.deliveries.length, queue) } where
  counted queue' := by
    dsimp only [unsettled, recordPendingDelivery]
    rw [List.countP_concat, Function.update_apply, hok.counted, hok.counted, unsettled, unsettled]
    by_cases heq : queue' = queue
    · simp [heq]
    · simp [heq, Ne.symm heq]
  fresh hopen d hd hd' := by
    rcases List.mem_append.mp hd with hd | hd
    · exact hok.fresh hopen d hd hd'
    · rw [List.mem_singleton.mp hd]
  last tag queue' hlast := by
    dsimp only at hlast ⊢
    cases track with
    | true =>
      obtain ⟨d, hd, hrest⟩ := hok.last tag queue' hlast
      exact ⟨d, List.getElem?_of_grown (List.prefix_append _ _) hd, hrest⟩
    | false =>
      obtain ⟨rfl, rfl⟩ := Prod.mk.inj (Option.some.inj hlast)
      exact ⟨_, List.getElem?_concat_length, rfl, rfl⟩

/-- A delivery that is settled is counted no more. -/
theorem unsettled_settle (hd : h.deliveries[tag]? = some d) (hd' : d.settled = false) (queue : Str) :
    (h.settle tag).unsettled queue + (if queue = d.queue then 1 else 0) = h.unsettled queue := by
  have hcount := List.countP_set_add (b := { d with settled := true })
    (fun d : Delivery ↦ d.queue = queue && !d.settled) hd
  dsimp only [settle, unsettled]
  rw [List.modify_eq_set_of_getElem? hd]
  by_cases heq : queue = d.queue
  · simp [heq, hd'] at hcount ⊢
    exact hcount
  · simp [heq, Ne.symm heq] at hcount ⊢
    exact hcount

theorem Ok.settle (hok : h.Ok) (hd : h.deliveries[tag]? = some d) (hd' : d.settled = false)
    {last : Option (ℕ × Str)} (hlast : last = none ∨ last = h.last ∧ ∀ queue, last ≠ some (tag, queue)) :
    Ok { h.settle tag with pending := settlePendingDelivery h.pending (some d.queue), last } where
  counted queue := by
    have hcount := unsettled_settle hd hd' queue
    dsimp only [settlePendingDelivery]
    rw [Function.update_apply, hok.counted, hok.counted]
    show _ = (h.settle tag).unsettled queue
    by_cases heq : queue = d.queue
    · subst heq
      simp only [if_true] at hcount ⊢
      split <;> omega
    · simp only [heq, if_false] at hcount ⊢
      omega
  fresh hopen d₀ hd₀ hd₀' := by
    dsimp only [Handles.settle] at hd₀
    rw [List.modify_eq_set_of_getElem? hd] at hd₀
    rcases List.mem_or_eq_of_mem_set hd₀ with hd₀ | rfl
    · exact hok.fresh hopen d₀ hd₀ hd₀'
    · cases hd₀'
  last tag' queue hlast' := by
    rcases hlast with rfl | ⟨rfl, hne⟩
    · cases hlast'
    · obtain ⟨d₀, hd₀, hrest⟩ := hok.last tag' queue hlast'
      have htag : tag ≠ tag' := by
        rintro rfl
        exact hne queue hlast'
      exact ⟨d₀, (List.getElem?_modify_ne _ _ htag).trans hd₀, hrest⟩

/-- A purge does not touch what is settled or closed. -/
theorem Ok.purge (hok : h.Ok) (hqueue : h.closed = false → h.unsettled queue = 0) : (h.purge queue).Ok where
  counted queue' := by
    rw [show (h.purge queue).pending = h.pending from rfl, hok.counted, unsettled, unsettled,
      Handles.purge, List.countP_map]
    rfl
  fresh hopen d hd hd' := by
    obtain ⟨d₀, hd₀, rfl⟩ := List.mem_map.mp hd
    have hzero := List.countP_eq_zero.mp (hqueue hopen) d₀ hd₀
    dsimp only at hd' ⊢
    rw [hok.fresh hopen d₀ hd₀ hd', Bool.false_or, decide_eq_false_iff_not]
    intro heq
    simp [heq, hd'] at hzero
  last tag queue' hlast := by
    obtain ⟨d, hd, hqueue', hd'⟩ := hok.last tag queue' hlast
    refine ⟨{ d with cleared := d.cleared || d.queue = queue }, ?_, hqueue', hd'⟩
    rw [Handles.purge, List.getElem?_map, hd]
    rfl

/-- What a nack or the end of a channel puts back is from after the last purge. -/
theorem Ok.returned (hok : h.Ok) (hopen : h.closed = false) (tag : ℕ) :
    ∀ d ∈ h.returned tag, d.cleared = false := by
  intro d hd
  obtain ⟨hd, hd'⟩ := Option.filter_eq_some_iff.mp (Option.mem_toList.mp hd)
  exact hok.fresh hopen d (List.mem_of_getElem? hd) (by simpa using hd')

theorem Ok.leftOver (hok : h.Ok) (hopen : h.closed = false) : ∀ d ∈ h.leftOver, d.cleared = false := by
  intro d hd
  obtain ⟨hd, hd'⟩ := List.mem_filter.mp hd
  exact hok.fresh hopen d hd (by simpa using hd')

end Handles

/-! ## Generations -/

/-- One generation is open at most, and it is the newest one; `flags` says which are closed. -/
structure Lifecycle (flags : List Bool) (current retiring : Option ℕ) (calls : List Call) : Prop where
  current_open : ∀ g, current = some g → retiring = none ∧ flags[g]? = some false
  retiring_open : ∀ g, retiring = some g → flags[g]? = some false
  newest : ∀ g : ℕ, flags[g]? = some false → (current = some g ∨ retiring = some g) ∧ g + 1 = flags.length
  leased : ∀ c ∈ calls, c.stage ≠ .released → flags[c.generation]? = some false

namespace Lifecycle

variable {flags : List Bool} {current retiring : Option ℕ} {calls : List Call} {c g : ℕ} {call : Call}

theorem publish (h : Lifecycle flags none none calls) :
    Lifecycle (flags ++ [false]) (some flags.length) none calls := by
  -- Whatever is there is closed.
  have hclosed : ∀ g : ℕ, flags[g]? ≠ some false := by
    intro g hg
    rcases (h.newest g hg).1 with heq | heq <;> cases heq
  refine ⟨fun g hg ↦ ?_, fun g ↦ nofun, fun g hg ↦ ?_, fun c hc hstage ↦ absurd (h.leased c hc hstage) (hclosed _)⟩
  · obtain rfl := Option.some.inj hg
    exact ⟨rfl, List.getElem?_concat_length⟩
  · rcases List.getElem?_concat_some hg with ⟨rfl, -⟩ | hg
    · exact ⟨.inl rfl, by rw [List.length_append, List.length_singleton]⟩
    · exact absurd hg (hclosed g)

theorem retire (h : Lifecycle flags (some g) retiring calls) : Lifecycle flags none (some g) calls where
  current_open _ := nofun
  retiring_open g' hg' := Option.some.inj hg' ▸ (h.current_open g rfl).2
  newest g' hg' := by
    obtain ⟨hor, hlength⟩ := h.newest g' hg'
    rw [(h.current_open g rfl).1] at hor
    rcases hor with heq | heq
    · exact ⟨.inr heq, hlength⟩
    · cases heq
  leased := h.leased

theorem close (h : Lifecycle flags current (some g) calls)
    (hdrained : ∀ c ∈ calls, c.generation ≠ g ∨ c.stage = .released) :
    Lifecycle (flags.set g true) current none calls where
  current_open g' hg' := by
    cases (h.current_open g' hg').1
  retiring_open _ := nofun
  newest g' hg' := by
    rcases List.getElem?_set_some hg' with ⟨-, heq⟩ | ⟨hne, hg'⟩
    · cases heq
    · rcases (h.newest g' hg').1 with heq | heq
      · cases (h.current_open g' heq).1
      · exact absurd (Option.some.inj heq).symm hne
  leased c hc hstage := by
    have hne := (hdrained c hc).resolve_right hstage
    exact (List.getElem?_set_ne hne.symm).trans (h.leased c hc hstage)

theorem enter (h : Lifecycle flags (some g) retiring calls) (op : Op) :
    Lifecycle flags (some g) retiring (calls ++ [⟨op, g, .leased⟩]) where
  current_open := h.current_open
  retiring_open := h.retiring_open
  newest := h.newest
  leased c hc hstage := by
    rcases List.mem_append.mp hc with hc | hc
    · exact h.leased c hc hstage
    · rw [List.mem_singleton.mp hc]
      exact (h.current_open g rfl).2

/-- A call that has not given its lease back goes on. -/
theorem goOn (h : Lifecycle flags current retiring calls) (hc : calls[c]? = some call) (stage : Stage)
    (hstage : stage ≠ .released → call.stage ≠ .released) :
    Lifecycle flags current retiring (calls.set c { call with stage }) where
  current_open := h.current_open
  retiring_open := h.retiring_open
  newest := h.newest
  leased c' hc' hstage' := by
    rcases List.mem_or_eq_of_mem_set hc' with hc' | rfl
    · exact h.leased c' hc' hstage'
    · exact h.leased call (List.mem_of_getElem? hc) (hstage hstage')

end Lifecycle

/-! ## Tokens -/

/-- The channel knows the tag of a token, and has not settled it before the token is completed. The slot for
callers without tokens holds another tag. -/
structure Handles.Knows (h : Handles) (x : Token) : Prop where
  delivered : x.deliveryTag < h.deliveries.length
  unsettled : x.completed = false → ∃ d, h.deliveries[x.deliveryTag]? = some d ∧ d.settled = false ∧
    x.queueName = some d.queue ∧ ∀ queue, h.last ≠ some (x.deliveryTag, queue)

namespace Handles.Knows

variable {h : Handles} {x : Token}

theorem deliver (hx : h.Knows x) (queue : Str) (track : Bool) :
    Knows { h with
      deliveries := h.deliveries ++ [⟨queue, false, false⟩]
      pending := recordPendingDelivery h.pending queue
      last := if track then h.last else some (h.deliveries.length, queue) } x where
  delivered := by
    rw [List.length_append]
    exact Nat.lt_add_right _ hx.delivered
  unsettled hcompleted := by
    obtain ⟨d, hd, hd', hqueue, hlast⟩ := hx.unsettled hcompleted
    refine ⟨d, List.getElem?_of_grown (List.prefix_append _ _) hd, hd', hqueue, fun queue' ↦ ?_⟩
    cases track with
    | true => exact hlast queue'
    | false =>
      intro heq
      exact hx.delivered.ne' (Prod.mk.inj (Option.some.inj heq)).1

/-- Another tag is settled. -/
theorem settle (hx : h.Knows x) {tag : ℕ} (htag : x.completed = false → tag ≠ x.deliveryTag)
    {pending : Str → ℕ} {last : Option (ℕ × Str)} (hlast : last = none ∨ last = h.last) :
    Knows { h.settle tag with pending, last } x where
  delivered := by
    dsimp only [Handles.settle]
    rw [List.length_modify]
    exact hx.delivered
  unsettled hcompleted := by
    obtain ⟨d, hd, hd', hqueue, hne⟩ := hx.unsettled hcompleted
    refine ⟨d, (List.getElem?_modify_ne _ _ (htag hcompleted)).trans hd, hd', hqueue, fun queue ↦ ?_⟩
    rcases hlast with rfl | rfl
    · exact nofun
    · exact hne queue

theorem purge (hx : h.Knows x) (queue : Str) : (h.purge queue).Knows x where
  delivered := by
    dsimp only [Handles.purge]
    rw [List.length_map]
    exact hx.delivered
  unsettled hcompleted := by
    obtain ⟨d, hd, hd', hqueue, hne⟩ := hx.unsettled hcompleted
    refine ⟨{ d with cleared := d.cleared || d.queue = queue }, ?_, hd', hqueue, hne⟩
    rw [Handles.purge, List.getElem?_map, hd]
    rfl

theorem of_eq (hx : h.Knows x) {h' : Handles} (hdeliveries : h'.deliveries = h.deliveries)
    (hlast : h'.last = h.last) : h'.Knows x where
  delivered := hdeliveries ▸ hx.delivered
  unsettled := by
    rw [hdeliveries, hlast]
    exact hx.unsettled

end Handles.Knows

/-- The books of all channels, and the tokens of this backend. -/
structure Accounts (handles : List Handles) (tokens : List Token) : Prop where
  ok : ∀ h ∈ handles, h.Ok
  known : ∀ x ∈ tokens, x.own = true → ∃ h, handles[x.channelGeneration]? = some h ∧ h.Knows x
  distinct : ∀ (i j : ℕ) (x y : Token), tokens[i]? = some x → tokens[j]? = some y → x.own = true →
    y.own = true → x.channelGeneration = y.channelGeneration → x.deliveryTag = y.deliveryTag → i = j

namespace Accounts

variable {handles : List Handles} {tokens : List Token} {g : ℕ} {h h' : Handles} {i : ℕ} {x : Token}

theorem publish (ha : Accounts handles tokens) : Accounts (handles ++ [.new]) tokens where
  ok h hh := by
    rcases List.mem_append.mp hh with hh | hh
    · exact ha.ok h hh
    · rw [List.mem_singleton.mp hh]
      exact Handles.ok_new
  known x hx hown := by
    obtain ⟨h, hh, hknows⟩ := ha.known x hx hown
    exact ⟨h, List.getElem?_of_grown (List.prefix_append _ _) hh, hknows⟩
  distinct := ha.distinct

/-- One channel changes. -/
theorem set (ha : Accounts handles tokens) (hh : handles[g]? = some h) (hok : h'.Ok)
    (hknows : ∀ x ∈ tokens, x.own = true → x.channelGeneration = g → h.Knows x → h'.Knows x) :
    Accounts (handles.set g h') tokens where
  ok := List.forall_mem_set ha.ok hok
  known x hx hown := by
    obtain ⟨h₀, hh₀, hknown⟩ := ha.known x hx hown
    by_cases hg : x.channelGeneration = g
    · obtain rfl : h = h₀ := Option.some.inj (hh.symm.trans (hg ▸ hh₀))
      refine ⟨h', ?_, hknows x hx hown hg hknown⟩
      rw [hg, List.getElem?_set_self (List.getElem?_eq_some_iff.mp hh).1]
    · exact ⟨h₀, (List.getElem?_set_ne (Ne.symm hg)).trans hh₀, hknown⟩
  distinct := ha.distinct

theorem purge (ha : Accounts handles tokens) {queue : Str}
    (hqueue : ∀ h ∈ handles, h.closed = false → h.unsettled queue = 0) :
    Accounts (handles.map (·.purge queue)) tokens where
  ok h hh := by
    obtain ⟨h₀, hh₀, rfl⟩ := List.mem_map.mp hh
    exact (ha.ok h₀ hh₀).purge (hqueue h₀ hh₀)
  known x hx hown := by
    obtain ⟨h, hh, hknows⟩ := ha.known x hx hown
    exact ⟨h.purge queue, by rw [List.getElem?_map, hh]; rfl, hknows.purge queue⟩
  distinct := ha.distinct

/-- Another backend issues a token. -/
theorem foreign (ha : Accounts handles tokens) (hown : x.own = false) : Accounts handles (tokens ++ [x]) where
  ok := ha.ok
  known y hy hown' := by
    rcases List.mem_append.mp hy with hy | hy
    · exact ha.known y hy hown'
    · rw [List.mem_singleton.mp hy, hown] at hown'
      cases hown'
  distinct i j y z hy hz hy' hz' hgen htag := by
    rcases List.getElem?_concat_some hy with ⟨-, rfl⟩ | hy
    · rw [hown] at hy'
      cases hy'
    · rcases List.getElem?_concat_some hz with ⟨-, rfl⟩ | hz
      · rw [hown] at hz'
        cases hz'
      · exact ha.distinct i j y z hy hz hy' hz' hgen htag

/-- A token is issued for a tag that no token has. -/
theorem issue (ha : Accounts handles tokens) (hh : handles[x.channelGeneration]? = some h) (hknows : h.Knows x)
    (hnew : ∀ y ∈ tokens, y.own = true → y.channelGeneration = x.channelGeneration →
      y.deliveryTag ≠ x.deliveryTag) : Accounts handles (tokens ++ [x]) where
  ok := ha.ok
  known y hy hown := by
    rcases List.mem_append.mp hy with hy | hy
    · exact ha.known y hy hown
    · rw [List.mem_singleton.mp hy]
      exact ⟨h, hh, hknows⟩
  distinct i j y z hy hz hy' hz' hgen htag := by
    rcases List.getElem?_concat_some hy with ⟨rfl, rfl⟩ | hold <;>
      rcases List.getElem?_concat_some hz with ⟨rfl, rfl⟩ | hold'
    · rfl
    · exact absurd htag.symm (hnew z (List.mem_of_getElem? hold') hz' hgen.symm)
    · exact absurd htag (hnew y (List.mem_of_getElem? hold) hy' hgen)
    · exact ha.distinct i j y z hold hold' hy' hz' hgen htag

/-- A token is completed. -/
theorem complete (ha : Accounts handles tokens) (hx : tokens[i]? = some x) :
    Accounts handles (tokens.set i { x with completed := true }) where
  ok := ha.ok
  known := by
    refine List.forall_mem_set ha.known fun hown ↦ ?_
    obtain ⟨h, hh, hknows⟩ := ha.known x (List.mem_of_getElem? hx) hown
    exact ⟨h, hh, hknows.delivered, nofun⟩
  distinct j k y z hy hz hy' hz' hgen htag := by
    -- Only the flag of the token has changed.
    have hold : ∀ {m : ℕ} {w : Token}, (tokens.set i { x with completed := true })[m]? = some w →
        ∃ w', tokens[m]? = some w' ∧ w'.own = w.own ∧ w'.channelGeneration = w.channelGeneration ∧
          w'.deliveryTag = w.deliveryTag := by
      intro m w hw
      rcases List.getElem?_set_some hw with ⟨rfl, rfl⟩ | ⟨-, hw⟩
      · exact ⟨x, hx, rfl, rfl, rfl⟩
      · exact ⟨w, hw, rfl, rfl, rfl⟩
    obtain ⟨y', hy₀, hown, hgen₀, htag₀⟩ := hold hy
    obtain ⟨z', hz₀, hown', hgen₀', htag₀'⟩ := hold hz
    exact ha.distinct j k y' z' hy₀ hz₀ (hown.trans hy') (hown'.trans hz')
      (hgen₀.trans (hgen.trans hgen₀'.symm)) (htag₀.trans (htag.trans htag₀'.symm))

end Accounts

/-! ## Acknowledgements -/

/-- An acknowledgement with a token goes to the channel of its token, which is the newest one, and not after
one that was applied. -/
structure Sendings (sent : List Sent) (tokens : List Token) : Prop where
  newest : ∀ e ∈ sent, e.generation + 1 = e.channels
  token : ∀ e ∈ sent, ∀ i, e.token = some i → ∃ x, tokens[i]? = some x ∧
    x.channelGeneration = e.generation ∧ (e.applied = true → x.completed = true)
  once : sent.Pairwise fun e e' ↦ e.applied = true → ∀ i, e.token = some i → e'.token ≠ some i

namespace Sendings

variable {sent : List Sent} {tokens : List Token} {g channels i : ℕ} {x : Token}

theorem issue (h : Sendings sent tokens) (x : Token) : Sendings sent (tokens ++ [x]) where
  newest := h.newest
  token e he i hi := by
    obtain ⟨y, hy, hrest⟩ := h.token e he i hi
    exact ⟨y, List.getElem?_of_grown (List.prefix_append _ _) hy, hrest⟩
  once := h.once

theorem complete (h : Sendings sent tokens) (hx : tokens[i]? = some x) :
    Sendings sent (tokens.set i { x with completed := true }) where
  newest := h.newest
  token e he j hj := by
    obtain ⟨y, hy, hgen, hdone⟩ := h.token e he j hj
    by_cases hji : j = i
    · subst hji
      obtain rfl : x = y := Option.some.inj (hx.symm.trans hy)
      exact ⟨_, List.getElem?_set_self (List.getElem?_eq_some_iff.mp hx).1, hgen, fun _ ↦ rfl⟩
    · exact ⟨y, (List.getElem?_set_ne (Ne.symm hji)).trans hy, hgen, hdone⟩
  once := h.once

/-- Without a token. -/
theorem legacy (h : Sendings sent tokens) (hnewest : g + 1 = channels) (applied : Bool) :
    Sendings (sent ++ [⟨g, channels, none, applied⟩]) tokens where
  newest e he := by
    rcases List.mem_append.mp he with he | he
    · exact h.newest e he
    · rwa [List.mem_singleton.mp he]
  token e he i hi := by
    rcases List.mem_append.mp he with he | he
    · exact h.token e he i hi
    · rw [List.mem_singleton.mp he] at hi
      cases hi
  once := by
    refine List.pairwise_append.mpr ⟨h.once, List.pairwise_singleton _ _, fun e _ e' he' _ i _ ↦ ?_⟩
    rw [List.mem_singleton.mp he']
    exact nofun

/-- With a token that is not completed. -/
theorem send (h : Sendings sent tokens) (hx : tokens[i]? = some x) (hgen : x.channelGeneration = g)
    (hcompleted : x.completed = false) (hnewest : g + 1 = channels) :
    Sendings (sent ++ [⟨g, channels, some i, false⟩]) tokens where
  newest e he := by
    rcases List.mem_append.mp he with he | he
    · exact h.newest e he
    · rwa [List.mem_singleton.mp he]
  token e he j hj := by
    rcases List.mem_append.mp he with he | he
    · exact h.token e he j hj
    · rw [List.mem_singleton.mp he] at hj ⊢
      obtain rfl := Option.some.inj hj
      exact ⟨x, hx, hgen, nofun⟩
  once := by
    refine List.pairwise_append.mpr ⟨h.once, List.pairwise_singleton _ _, fun e he e' he' hdone j hj ↦ ?_⟩
    rw [List.mem_singleton.mp he']
    intro heq
    -- What was applied has completed its token.
    obtain rfl := Option.some.inj heq
    obtain ⟨y, hy, -, hy'⟩ := h.token e he i hj
    obtain rfl : x = y := Option.some.inj (hx.symm.trans hy)
    rw [hy' hdone] at hcompleted
    cases hcompleted

theorem apply (h : Sendings sent tokens) (hx : tokens[i]? = some x) (hgen : x.channelGeneration = g)
    (hcompleted : x.completed = false) (hnewest : g + 1 = channels) :
    Sendings (sent ++ [⟨g, channels, some i, true⟩]) (tokens.set i { x with completed := true }) where
  newest := by
    have hsend := h.send hx hgen hcompleted hnewest
    intro e he
    rcases List.mem_append.mp he with he | he
    · exact h.newest e he
    · rwa [List.mem_singleton.mp he]
  token e he j hj := by
    rcases List.mem_append.mp he with he | he
    · exact (h.complete hx).token e he j hj
    · rw [List.mem_singleton.mp he] at hj ⊢
      obtain rfl := Option.some.inj hj
      exact ⟨_, List.getElem?_set_self (List.getElem?_eq_some_iff.mp hx).1, hgen, fun _ ↦ rfl⟩
  once := by
    refine List.pairwise_append.mpr ⟨h.once, List.pairwise_singleton _ _, fun e he e' he' hdone j hj ↦ ?_⟩
    have hlast := (List.pairwise_append.mp (h.send hx hgen hcompleted hnewest).once).2.2 e he _
      (List.mem_singleton_self _) hdone j hj
    rw [List.mem_singleton.mp he']
    exact hlast

end Sendings

/-! ## Runs -/

structure Inv (s : State) : Prop where
  lifecycle : Lifecycle (s.handles.map (·.closed)) s.current s.retiring s.calls
  accounts : Accounts s.handles s.tokens
  sendings : Sendings s.sent s.tokens
  purges : ∀ n ∈ s.purges, n = 0
  requeued : ∀ d ∈ s.requeued, d.cleared = false

theorem forall_mem_append {β : Type*} {P : β → Prop} {l l' : List β} (h : ∀ d ∈ l, P d)
    (h' : ∀ d ∈ l', P d) : ∀ d ∈ l ++ l', P d := fun d hd ↦
  (List.mem_append.mp hd).elim (h d) (h' d)

namespace Inv

variable {s : State} {g : ℕ} {h : Handles}

theorem new : Inv .new where
  lifecycle := ⟨nofun, nofun, nofun, nofun⟩
  accounts := ⟨nofun, nofun, nofun⟩
  sendings := ⟨nofun, nofun, .nil⟩
  purges := nofun
  requeued := nofun

/-- A change of a channel that is not its end. -/
theorem lifecycle_set (hs : Inv s) (hh : s.handles[g]? = some h) {h' : Handles} (hclosed : h'.closed = h.closed) :
    Lifecycle ((s.handles.set g h').map (·.closed)) s.current s.retiring s.calls := by
  rw [List.map_set_of_eq hh hclosed]
  exact hs.lifecycle

theorem flag_eq (hh : s.handles[g]? = some h) : (s.handles.map (·.closed))[g]? = some h.closed := by
  rw [List.getElem?_map, hh]
  rfl

/-- A call that has its lease holds the newest channel open. -/
theorem leased (hs : Inv s) {c : ℕ} {call : Call} (hc : s.calls[c]? = some call) (hstage : call.stage = .leased)
    (hh : s.handles[call.generation]? = some h) : h.closed = false ∧ call.generation + 1 = s.handles.length := by
  have hopen := hs.lifecycle.leased call (List.mem_of_getElem? hc) (by rw [hstage]; exact nofun)
  obtain ⟨-, hnewest⟩ := hs.lifecycle.newest _ hopen
  rw [flag_eq hh] at hopen
  exact ⟨Option.some.inj hopen, by rwa [List.length_map] at hnewest⟩

/-- A section of a pop. -/
theorem get (hs : Inv s) (hh : s.handles[g]? = some h) (queue : Str) (track : Bool) (outcome : Outcome) :
    Inv (s.get g h queue track outcome).1 := by
  unfold State.get
  split
  · exact hs
  cases outcome with
  | empty | raised => exact hs
  | done =>
    have hok := (hs.accounts.ok h (List.mem_of_getElem? hh)).deliver queue track
    have haccounts := hs.accounts.set hh hok fun x _ _ _ hx ↦ hx.deliver queue track
    have hself := List.getElem?_set_self (List.getElem?_eq_some_iff.mp hh).1
      (a := { h with
        deliveries := h.deliveries ++ [⟨queue, false, false⟩]
        pending := recordPendingDelivery h.pending queue
        last := if track then h.last else some (h.deliveries.length, queue) })
    cases track with
    | false => exact ⟨hs.lifecycle_set hh rfl, haccounts, hs.sendings, hs.purges, hs.requeued⟩
    | true =>
      refine ⟨hs.lifecycle_set hh rfl, haccounts.issue hself ?_ ?_, hs.sendings.issue _,
        hs.purges, hs.requeued⟩
      · refine ⟨?_, fun _ ↦ ⟨_, List.getElem?_concat_length, rfl, rfl, fun queue' hlast ↦ ?_⟩⟩
        · dsimp only
          rw [List.length_append]
          exact Nat.lt_succ_self _
        · -- The slot of the callers without tokens is older.
          obtain ⟨d, hd, -⟩ := (hs.accounts.ok h (List.mem_of_getElem? hh)).last _ queue' hlast
          exact absurd (List.getElem?_eq_some_iff.mp hd).1 (lt_irrefl _)
      · intro y hy hown hgen
        obtain ⟨h₀, hh₀, hknows⟩ := hs.accounts.known y hy hown
        obtain rfl : y.channelGeneration = g := hgen
        obtain rfl : h = h₀ := Option.some.inj (hh.symm.trans hh₀)
        exact hknows.delivered.ne

/-- What is put back is from after the last purge. -/
theorem forall_mem_requeued (hs : Inv s) (hh : s.handles[g]? = some h) (hopen : h.closed = false) (tag : ℕ)
    (requeue : Bool) : ∀ d ∈ s.requeued ++ if requeue then h.returned tag else [], d.cleared = false := by
  refine forall_mem_append hs.requeued ?_
  cases requeue with
  | false => exact nofun
  | true => exact (hs.accounts.ok h (List.mem_of_getElem? hh)).returned hopen tag

/-- The section of an acknowledgement. -/
theorem settle (hs : Inv s) (hh : s.handles[g]? = some h) (hopen : h.closed = false)
    (hnewest : g + 1 = s.handles.length) {token : TokenArgument} (requeue : Bool) (outcome : Outcome)
    (hown : ∀ i, token = .token i → ∀ x ∈ s.tokens[i]?, x.channelGeneration = g → x.own = true) :
    Inv (s.settle g h token requeue outcome) := by
  have hok := hs.accounts.ok h (List.mem_of_getElem? hh)
  cases token with
  | other => exact hs
  | token i =>
    dsimp only [State.settle]
    split
    · exact hs
    next x hx =>
    split
    · exact hs
    next hskip =>
    obtain ⟨hcompleted, hgen⟩ := not_or.mp hskip
    rw [Bool.not_eq_true] at hcompleted
    rw [not_not] at hgen
    cases outcome with
    | empty | raised =>
      exact ⟨hs.lifecycle, hs.accounts, hs.sendings.send hx hgen hcompleted hnewest, hs.purges, hs.requeued⟩
    | done =>
      -- The token is one of ours, and so its delivery is not settled.
      have hx' := hown i rfl x hx hgen
      obtain ⟨h₀, hh₀, hknows⟩ := hs.accounts.known x (List.mem_of_getElem? hx) hx'
      obtain rfl : h = h₀ := Option.some.inj (hh.symm.trans (hgen ▸ hh₀))
      obtain ⟨d, hd, hd', hqueue, hlast⟩ := hknows.unsettled hcompleted
      have hok' := hok.settle hd hd' (.inr ⟨rfl, hlast⟩)
      refine ⟨hs.lifecycle_set hh rfl, ?_, hs.sendings.apply hx hgen hcompleted hnewest, hs.purges,
        hs.forall_mem_requeued hh hopen _ requeue⟩
      refine (hs.accounts.complete hx).set hh (hqueue ▸ hok') fun y hy hy' hy₀ hyknows ↦ ?_
      refine hyknows.settle (fun hycompleted htag ↦ ?_) (.inr rfl)
      -- Another token has another tag, and this one is completed now.
      obtain ⟨j, hj⟩ := List.getElem?_of_mem hy
      rcases List.getElem?_set_some hj with ⟨-, rfl⟩ | ⟨hji, hj⟩
      · cases hycompleted
      · exact hji (hs.accounts.distinct j i y x hj hx hy' hx' (hy₀.trans hgen.symm) htag.symm)
  | none =>
    dsimp only [State.settle]
    split
    · exact hs
    next tag queue hlast =>
    obtain ⟨d, hd, rfl, hd'⟩ := hok.last tag queue hlast
    cases outcome with
    | empty | raised =>
      exact ⟨hs.lifecycle, hs.accounts, hs.sendings.legacy hnewest false, hs.purges, hs.requeued⟩
    | done =>
      refine ⟨hs.lifecycle_set hh rfl, ?_, hs.sendings.legacy hnewest true, hs.purges,
        hs.forall_mem_requeued hh hopen _ requeue⟩
      refine hs.accounts.set hh (hok.settle hd hd' (.inl rfl)) fun y _ _ _ hyknows ↦ ?_
      refine hyknows.settle (fun hycompleted htag ↦ ?_) (.inl rfl)
      obtain ⟨-, -, -, -, hne⟩ := hyknows.unsettled hycompleted
      exact hne d.queue (htag ▸ hlast)

/-- The section of a clear. -/
theorem clearQueue (hs : Inv s) (hh : s.handles[g]? = some h) (hopen : h.closed = false) (queue : Str)
    (outcome : Outcome) : Inv (s.clearQueue h queue outcome) := by
  unfold State.clearQueue
  split
  · exact hs
  next hpending =>
  rw [not_not, (hs.accounts.ok h (List.mem_of_getElem? hh)).counted] at hpending
  cases outcome with
  | empty | raised => exact hs
  | done =>
    refine ⟨?_, hs.accounts.purge fun h' hh' hopen' ↦ ?_, hs.sendings, ?_, hs.requeued⟩
    · have hflags : (s.handles.map (·.purge queue)).map (·.closed) = s.handles.map (·.closed) := by
        rw [List.map_map]
        rfl
      rw [hflags]
      exact hs.lifecycle
    · -- No other channel is open.
      obtain ⟨g', hg'⟩ := List.getElem?_of_mem hh'
      have hlength := (hs.lifecycle.newest g' ((flag_eq hg').trans (congrArg some hopen'))).2
      have hlength' := (hs.lifecycle.newest g ((flag_eq hh).trans (congrArg some hopen))).2
      obtain rfl : g = g' := Nat.succ.inj (hlength'.trans hlength.symm)
      obtain rfl : h = h' := Option.some.inj (hh.symm.trans hg')
      exact hpending
    · exact forall_mem_append hs.purges fun n hn ↦ (List.mem_singleton.mp hn).trans hpending

end Inv

/-- A section has nothing to do with the calls. -/
theorem State.operate_calls (s : State) (g : ℕ) (h : Handles) (outcome : Outcome) (op : Op) :
    (s.operate g h outcome op).1.calls = s.calls := by
  cases op with
  | get queue track =>
    dsimp only [State.operate, State.get]
    split
    · rfl
    · cases outcome <;> cases track <;> rfl
  | settle queue token requeue =>
    cases token with
    | other => rfl
    | token i =>
      dsimp only [State.operate, State.settle]
      split
      · rfl
      · split
        · rfl
        · cases outcome <;> rfl
    | none =>
      dsimp only [State.operate, State.settle]
      split
      · rfl
      · cases outcome <;> rfl
  | clearQueue queue =>
    dsimp only [State.operate, State.clearQueue]
    split
    · rfl
    · cases outcome <;> rfl

/-- **Every step keeps the books**, unless it is given the token of another backend. -/
theorem Inv.step {s t : State} {a : Label} (hs : Inv s) (hown : OwnTokens s a) (h : s.step a = some t) :
    Inv t := by
  cases a with
  | publish =>
    dsimp only [State.step] at h
    split at h
    · next hfree =>
      obtain rfl := Option.some.inj h
      have hlifecycle := hs.lifecycle
      rw [hfree.1, hfree.2] at hlifecycle
      refine ⟨?_, hs.accounts.publish, hs.sendings, hs.purges, hs.requeued⟩
      have hpublish := hlifecycle.publish
      rw [List.length_map] at hpublish
      dsimp only
      rw [List.map_append, hfree.2]
      exact hpublish
    · cases h
  | retire =>
    obtain ⟨g, hg, h⟩ := Option.bind_eq_some_iff.mp h
    obtain ⟨h₀, hh₀, h⟩ := Option.bind_eq_some_iff.mp h
    obtain rfl := Option.some.inj h
    have hok := hs.accounts.ok h₀ (List.mem_of_getElem? hh₀)
    have hlifecycle : Lifecycle ((s.handles.set g { h₀ with accepting := false }).map (·.closed)) s.current
      s.retiring s.calls := hs.lifecycle_set hh₀ rfl
    rw [hg] at hlifecycle
    refine ⟨hlifecycle.retire, hs.accounts.set hh₀ (hok.of_eq rfl rfl rfl id) fun x _ _ _ hx ↦ ?_,
      hs.sendings, hs.purges, hs.requeued⟩
    exact hx.of_eq rfl rfl
  | close =>
    obtain ⟨g, hg, h⟩ := Option.bind_eq_some_iff.mp h
    obtain ⟨h₀, hh₀, h⟩ := Option.bind_eq_some_iff.mp h
    obtain ⟨u, hdrained, h⟩ := Option.bind_eq_some_iff.mp h
    obtain rfl := Option.some.inj h
    have hok := hs.accounts.ok h₀ (List.mem_of_getElem? hh₀)
    have hopen : h₀.closed = false := by
      have hflag := hs.lifecycle.retiring_open g hg
      rw [Inv.flag_eq hh₀] at hflag
      exact Option.some.inj hflag
    have hidle : ∀ c ∈ s.calls, c.generation ≠ g ∨ c.stage = .released := by
      simpa [guard, State.drained, ← imp_iff_not_or] using hdrained
    refine ⟨?_, hs.accounts.set hh₀ (hok.of_eq rfl rfl rfl nofun) fun x _ _ _ hx ↦ ?_, hs.sendings, hs.purges,
      forall_mem_append hs.requeued (hok.leftOver hopen)⟩
    · have hlifecycle := hs.lifecycle
      rw [hg] at hlifecycle
      dsimp only [State.setHandles]
      rw [List.map_set]
      exact hlifecycle.close hidle
    · exact hx.of_eq rfl rfl
  | lose g =>
    obtain ⟨h₀, hh₀, h⟩ := Option.bind_eq_some_iff.mp h
    obtain ⟨u, hopen, h⟩ := Option.bind_eq_some_iff.mp h
    obtain rfl := Option.some.inj h
    have hopen' : h₀.closed = false := by simpa [guard] using hopen
    exact ⟨hs.lifecycle, hs.accounts, hs.sendings, hs.purges,
      forall_mem_append hs.requeued ((hs.accounts.ok h₀ (List.mem_of_getElem? hh₀)).leftOver hopen')⟩
  | enter op =>
    obtain ⟨g, hg, h⟩ := Option.bind_eq_some_iff.mp h
    have hadmit : ∀ op, Inv { s with calls := s.calls ++ [⟨op, g, .leased⟩] } := by
      intro op
      have hlifecycle := hs.lifecycle
      rw [hg] at hlifecycle
      refine ⟨?_, hs.accounts, hs.sendings, hs.purges, hs.requeued⟩
      dsimp only
      rw [hg]
      exact hlifecycle.enter op
    split at h
    · exact Option.some.inj h ▸ hs
    · exact Option.some.inj h ▸ hadmit _
    · exact Option.some.inj h ▸ hadmit _
    · exact Option.some.inj h ▸ hadmit _
  | run c outcome =>
    obtain ⟨call, hc, h⟩ := Option.bind_eq_some_iff.mp h
    obtain ⟨u, hstage, h⟩ := Option.bind_eq_some_iff.mp h
    obtain ⟨h₀, hh₀, h⟩ := Option.bind_eq_some_iff.mp h
    have hstage' : call.stage = .leased := by simpa [guard] using hstage
    obtain ⟨hopen, hnewest⟩ := hs.leased hc hstage' hh₀
    obtain rfl := Option.some.inj h
    have hinv : Inv (s.operate call.generation h₀ outcome call.op).1 := by
      cases hop : call.op with
      | get queue track => exact hs.get hh₀ queue track outcome
      | settle queue token requeue =>
        refine hs.settle hh₀ hopen hnewest requeue outcome fun i htoken x hx ↦ ?_
        have hcall := hown call hc
        obtain ⟨op, g, stage⟩ := call
        subst hop htoken
        exact hcall x hx
      | clearQueue queue => exact hs.clearQueue hh₀ hopen queue outcome
    have hc' : (s.operate call.generation h₀ outcome call.op).1.calls[c]? = some call := by
      rwa [State.operate_calls]
    exact ⟨hinv.lifecycle.goOn hc' _ fun _ ↦ by rw [hstage']; exact nofun, hinv.accounts, hinv.sendings,
      hinv.purges, hinv.requeued⟩
  | release c =>
    obtain ⟨call, hc, h⟩ := Option.bind_eq_some_iff.mp h
    obtain rfl := Option.some.inj h
    exact ⟨hs.lifecycle.goOn hc _ (absurd rfl), hs.accounts, hs.sendings, hs.purges, hs.requeued⟩
  | foreign tag g queue =>
    obtain rfl := Option.some.inj h
    exact ⟨hs.lifecycle, hs.accounts.foreign rfl, hs.sendings.issue _, hs.purges, hs.requeued⟩

/-- The barrier holds. -/
structure Barrier (s : State) : Prop where
  /-- The count of a queue is what the broker has not settled. -/
  counted : ∀ (g : ℕ) (h : Handles), s.handles[g]? = some h → ∀ queue, h.pending queue = h.unsettled queue
  /-- A purge finds nothing unsettled. -/
  purges : ∀ n ∈ s.purges, n = 0
  /-- A token is only used on its own channel, while that is the newest. -/
  sent : ∀ e ∈ s.sent, ∀ i, e.token = some i →
    e.generation + 1 = e.channels ∧ ∃ x, s.tokens[i]? = some x ∧ x.channelGeneration = e.generation
  /-- A token is not used after an acknowledgement that was applied. -/
  once : s.sent.Pairwise fun e e' ↦ e.applied = true → ∀ i, e.token = some i → e'.token ≠ some i
  /-- Nothing from before a purge is put back. -/
  requeued : ∀ d ∈ s.requeued, d.cleared = false

theorem Inv.barrier {s : State} (hs : Inv s) : Barrier s where
  counted g h hh := (hs.accounts.ok h (List.mem_of_getElem? hh)).counted
  purges := hs.purges
  sent e he i hi := by
    obtain ⟨x, hx, hgen, -⟩ := hs.sendings.token e he i hi
    exact ⟨hs.sendings.newest e he, x, hx, hgen⟩
  once := hs.sendings.once
  requeued := hs.requeued

/-- **The barrier holds in every state of a run** in which no acknowledgement is given a token of another
backend that has the number of its channel generation. -/
theorem pending_barrier {as : List Label} (h : machine.Along OwnTokens machine.init as) :
    machine.Always Barrier machine.init as :=
  (h.always (fun _ _ _ hs ha ht ↦ hs.step ha ht) Inv.new).mono fun _ hs ↦ hs.barrier

theorem pending_barrier_reconnect : machine.Always Barrier machine.init
    [.publish, .enter (.get (str "q") true), .run 0 .done, .release 0, .enter (.get (str "q") false),
      .run 1 .done, .release 1, .enter (.settle (str "other") (.token 0) false), .run 2 .done, .release 2,
      .enter (.clearQueue (str "q")), .run 3 .done, .release 3, .retire, .close, .publish,
      .enter (.settle (str "q") (.token 0) true), .run 4 .done, .enter (.clearQueue (str "q")), .run 5 .done] :=
  pending_barrier (by decide +kernel)

/-! ## A token of another backend -/

/-- The other backend has got its first message from the queue `b`, and this one from `a`. -/
def foreignRun : List Label :=
  [.publish, .enter (.get (str "a") true), .run 0 .done, .release 0, .enter (.get (str "b") true), .run 1 .done,
    .release 1, .foreign 0 0 (some (str "b")), .enter (.settle (str "b") (.token 2) false), .run 2 .done,
    .release 2, .enter (.clearQueue (str "b")), .run 3 .done, .release 3,
    .enter (.settle (str "b") (.token 1) true), .run 4 .done]

theorem isSome_foreignRun : (machine.run machine.init foreignRun).isSome = true := by decide +kernel

def foreignState : State := Option.get _ isSome_foreignRun

/-- **The token settles a delivery of one queue and the count of the other.** The other queue is purged with
a delivery out, which is put back into it afterwards. -/
theorem foreign_token_breaks_barrier :
    machine.Reachable foreignState ∧ ¬ Barrier foreignState ∧
      (∃ h ∈ foreignState.handles[0]?, h.pending (str "a") ≠ h.unsettled (str "a")) ∧
      (∃ n ∈ foreignState.purges, n ≠ 0) ∧ ∃ d ∈ foreignState.requeued, d.cleared = true := by
  have hpurges : ∃ n ∈ foreignState.purges, n ≠ 0 := by decide +kernel
  refine ⟨⟨foreignRun, (Option.some_get isSome_foreignRun).symm⟩, fun h ↦ ?_, ?_, hpurges, ?_⟩
  · obtain ⟨n, hn, hne⟩ := hpurges
    exact hne (h.purges n hn)
  · decide +kernel
  · decide +kernel

end RabbitMq

end ScrapyExtension
