import Mathlib.Algebra.BigOperators.Group.List.Basic
import Mathlib.Algebra.Order.BigOperators.Group.List
import ScrapyExtension.Backends.Kafka.Watermark

/-!
# Queue depth

`queue_len` is the lag of the consumer group: for every assigned topic-partition of the queue's topic
the distance from where the group stands to the end of the log. It is meant to be conservative, so
that a depth of zero hides no delivery that is not acknowledged.

## Where the group stands

With a committed offset the lag starts there, or at the start of the log where retention has moved
past it. Without one, the policy decides: `earliest` counts from the start of the log, `latest`
counts nothing, whatever was delivered, and `none` raises.

## What the committed offset leaves out

A commit of the running assignment epoch passes over acknowledged deliveries only, and what is
delivered later in the epoch is either above it or was delivered before. So the offsets that such a
commit takes out of the lag are acknowledged in every later state of the epoch (`Covered`).
-/

namespace ScrapyExtension

namespace Kafka

/-! ## The lag -/

/-- `auto_offset_reset` -/
inductive AutoOffsetReset
  | earliest
  | latest
  | none
deriving DecidableEq

/-- What `consumer.committed` returns. -/
inductive Committed
  /-- `None` -/
  | absent
  /-- An integer that is no boolean. -/
  | int (value : ℤ)
  /-- Anything else. -/
  | other
deriving DecidableEq

/-- How a depth query fails. -/
inductive Failure
  /-- A call of the consumer raises. -/
  | kafkaError (text : String)
  | queueError (message : String)
deriving DecidableEq

/-- What a consumer answers about offsets. Metadata that are no mapping are `none`, and so is an
entry that is missing, boolean or no integer. -/
structure OffsetCalls where
  /-- `consumer.end_offsets` -/
  endOffsets : Except String (Option (TopicPartition → Option ℤ))
  /-- `consumer.beginning_offsets` -/
  beginningOffsets : Except String (Option (TopicPartition → Option ℤ))
  /-- `consumer.committed` -/
  committed : TopicPartition → Except String Committed

/-- The inner function `offset` of `_consumer_group_lag` -/
def offset (values : TopicPartition → Option ℤ) (tp : TopicPartition) (label : String) :
    Except Failure ℕ :=
  match values tp with
  | some value =>
    if value < 0 then .error (.queueError s!"Kafka returned an invalid {label} offset.")
    else .ok value.toNat
  | none => .error (.queueError s!"Kafka returned an invalid {label} offset.")

/-- Where the lag of a topic-partition starts. -/
def startOffset (policy : AutoOffsetReset) (beginning stop : ℕ) : Committed → Except Failure ℕ
  | .absent =>
    match policy with
    | .earliest => .ok beginning
    | .latest => .ok stop
    | .none => .error (.queueError
        "Kafka consumer group has no committed offset and auto_offset_reset='none'.")
  | .int value =>
    if value < 0 then .error (.queueError "Kafka returned an invalid committed offset.")
    -- Retention may have advanced the log start beyond an old committed offset.
    else .ok (max beginning value.toNat)
  | .other => .error (.queueError "Kafka returned an invalid committed offset.")

/-- A call of the consumer. -/
def ofCall {α : Type} : Except String α → Except Failure α := Except.mapError Failure.kafkaError

/-- The lag of one topic-partition. -/
def partitionLag (policy : AutoOffsetReset) (ends beginnings : TopicPartition → Option ℤ)
    (committed : TopicPartition → Except String Committed) (tp : TopicPartition) :
    Except Failure ℕ := do
  let stop ← offset ends tp "end"
  let beginning ← offset beginnings tp "beginning"
  let start ← startOffset policy beginning stop (← ofCall (committed tp))
  return stop - start

/-- `_consumer_group_lag` -/
def consumerGroupLag (policy : AutoOffsetReset) (calls : OffsetCalls)
    (assignment : List TopicPartition) : Except Failure ℕ := do
  let ends ← ofCall calls.endOffsets
  let beginnings ← ofCall calls.beginningOffsets
  match ends, beginnings with
  | some ends, some beginnings =>
    assignment.foldlM (fun total tp ↦ do
      return total + (← partitionLag policy ends beginnings calls.committed tp)) 0
  | _, _ => .error (.queueError "Kafka returned invalid offset metadata.")

/-- The circumstances of a depth query. -/
structure Probe where
  /-- `consumer.assignment` -/
  assignment : Except String (List TopicPartition)
  /-- The answers of the generation's consumer. -/
  calls : OffsetCalls
  /-- What happens while they are given. -/
  during : List Event
  /-- The construction of a private consumer and its `partitions_for_topic`. -/
  partitions : Except String (List ℕ)
  /-- The answers of the private consumer. -/
  privateCalls : OffsetCalls

/-- A `KafkaError` becomes a `QueueError`. -/
def catchKafkaError {α : Type} (queueName : String) : Except Failure α → Except Failure α
  | .error (.kafkaError text) =>
    .error (.queueError s!"Failed to get Kafka queue length for {queueName}: {text}")
  | result => result

/-- The lag over all partitions of the topic, from a private consumer. -/
def topicLag (topic : String) (policy : AutoOffsetReset) (p : Probe) : Except Failure ℕ := do
  let partitions ← ofCall p.partitions
  match partitions with
  | [] => return 0
  | _ => consumerGroupLag policy p.privateCalls (partitions.map (⟨topic, ·⟩))

namespace State

variable (s : State)

/-- The topic-partitions of the topic that are assigned to the operation's consumer. -/
def assigned (h : Option ℕ) (topic : String) (p : Probe) : List TopicPartition :=
  match s.consumerOf h, p.assignment with
  | some _, .ok assignment => assignment.filter (·.topic = topic)
  | _, _ => []

/-- `_queue_len_unlocked` -/
def queueLen (h : Option ℕ) (queueName topic : String) (policy : AutoOffsetReset) (p : Probe) :
    Except Failure ℕ :=
  catchKafkaError queueName <|
    match s.consumerOf h with
    | none => topicLag topic policy p
    | some _ => do
      let assignment ← ofCall p.assignment
      match assignment.filter (·.topic = topic) with
      | [] => topicLag topic policy p
      | tp :: rest =>
        let total ← consumerGroupLag policy p.calls (tp :: rest)
        if (s.events p.during).retiredOf h then
          .error (.queueError "Kafka connection changed during operation.")
        else return total

end State

/-! ## What the lag counts -/

/-- Where the broker says that a group stands. -/
structure Standing where
  /-- The ends of the logs. -/
  stop : TopicPartition → ℕ
  /-- The first offsets that are retained. -/
  beginning : TopicPartition → ℕ
  /-- The committed offsets. -/
  committed : TopicPartition → Option ℕ

/-- Where the lag of a topic-partition starts, if it has a start. -/
def Standing.start (b : Standing) (policy : AutoOffsetReset) (tp : TopicPartition) : ℕ :=
  match b.committed tp with
  | some c => max (b.beginning tp) c
  | none => if policy = .earliest then b.beginning tp else b.stop tp

/-- The consumer answers what the broker says. -/
structure OffsetCalls.Report (calls : OffsetCalls) (b : Standing) (assignment : List TopicPartition) :
    Prop where
  stop : ∃ ends, calls.endOffsets = .ok (some ends) ∧ ∀ tp ∈ assignment, ends tp = some (b.stop tp : ℤ)
  beginning : ∃ beginnings, calls.beginningOffsets = .ok (some beginnings) ∧
    ∀ tp ∈ assignment, beginnings tp = some (b.beginning tp : ℤ)
  committed : ∀ tp ∈ assignment, calls.committed tp = .ok
    (match b.committed tp with
      | some c => .int c
      | none => .absent)

theorem offset_of_natCast {values : TopicPartition → Option ℤ} {tp : TopicPartition} {n : ℕ}
    (h : values tp = some (n : ℤ)) (label : String) : offset values tp label = .ok n := by
  have hnonneg : ¬ (n : ℤ) < 0 := by omega
  rw [offset, h]
  simp only [if_neg hnonneg, Int.toNat_natCast]

section partition

variable {policy : AutoOffsetReset} {ends beginnings : TopicPartition → Option ℤ}
  {committed : TopicPartition → Except String Committed} {b : Standing} {tp : TopicPartition}
  (hstop : ends tp = some (b.stop tp : ℤ)) (hbeginning : beginnings tp = some (b.beginning tp : ℤ))
  (hcommitted : committed tp = .ok
    (match b.committed tp with
      | some c => .int c
      | none => .absent))

include hstop hbeginning hcommitted

/-- The lag is the distance from the start to the end, where there is a start. -/
theorem partitionLag_eq (hstart : b.committed tp = none → policy ≠ .none) :
    partitionLag policy ends beginnings committed tp = .ok (b.stop tp - b.start policy tp) := by
  rw [partitionLag, offset_of_natCast hstop, offset_of_natCast hbeginning, hcommitted,
    Standing.start]
  rcases hc : b.committed tp with - | c
  · cases policy with
    | earliest => rfl
    | latest => rfl
    | none => exact absurd rfl (hstart hc)
  · have hnonneg : ¬ (c : ℤ) < 0 := by omega
    have heq : startOffset policy (b.beginning tp) (b.stop tp) (.int c) =
        .ok (max (b.beginning tp) c) := by
      simp only [startOffset, if_neg hnonneg, Int.toNat_natCast]
    have hbind : (startOffset policy (b.beginning tp) (b.stop tp) (.int c) >>= fun start ↦
        (Except.ok (b.stop tp - start) : Except Failure ℕ)) =
        .ok (b.stop tp - max (b.beginning tp) c) := by
      rw [heq]
      rfl
    exact hbind

/-- A lag that is a number is that distance. -/
theorem partitionLag_ok {n : ℕ} (h : partitionLag policy ends beginnings committed tp = .ok n) :
    n = b.stop tp - b.start policy tp := by
  by_cases hstart : b.committed tp = none → policy ≠ .none
  · rw [partitionLag_eq hstop hbeginning hcommitted hstart] at h
    exact (Except.ok.inj h).symm
  · -- Without a commit the policy `none` raises.
    push Not at hstart
    obtain ⟨hc, rfl⟩ := hstart
    rw [partitionLag, offset_of_natCast hstop, offset_of_natCast hbeginning, hcommitted, hc] at h
    cases h

end partition

/-- The loop adds up the lags, and stops at the first failure. -/
theorem sum_of_foldlM {f : TopicPartition → Except Failure ℕ} {g : TopicPartition → ℕ}
    {l : List TopicPartition} (hf : ∀ tp ∈ l, ∀ n, f tp = .ok n → n = g tp) {subtotal total : ℕ}
    (h : l.foldlM (fun total tp ↦ do return total + (← f tp)) subtotal = .ok total) :
    total = subtotal + (l.map g).sum := by
  induction l generalizing subtotal with
  | nil =>
    obtain rfl := Except.ok.inj h
    simp
  | cons tp rest ih =>
    rw [List.foldlM_cons] at h
    rcases hn : f tp with e | n
    · rw [hn] at h
      cases h
    · rw [hn] at h
      have hrest : total = subtotal + n + (rest.map g).sum :=
        ih (fun tp' htp ↦ hf tp' (List.mem_cons_of_mem tp htp)) h
      have hhead := hf tp List.mem_cons_self n hn
      rw [hrest, hhead, List.map_cons, List.sum_cons, Nat.add_assoc]

theorem foldlM_of_ok {f : TopicPartition → Except Failure ℕ} {g : TopicPartition → ℕ}
    {l : List TopicPartition} (hf : ∀ tp ∈ l, f tp = .ok (g tp)) (subtotal : ℕ) :
    l.foldlM (fun total tp ↦ do return total + (← f tp)) subtotal =
      .ok (subtotal + (l.map g).sum) := by
  induction l generalizing subtotal with
  | nil => simp [pure, Except.pure]
  | cons tp rest ih =>
    have hhead := hf tp List.mem_cons_self
    have hrest := ih (fun tp' htp ↦ hf tp' (List.mem_cons_of_mem tp htp)) (subtotal + g tp)
    rw [List.foldlM_cons, hhead, List.map_cons, List.sum_cons, ← Nat.add_assoc]
    exact hrest

theorem consumerGroupLag_eq {policy : AutoOffsetReset} {calls : OffsetCalls} {b : Standing}
    {assignment : List TopicPartition} (hb : calls.Report b assignment)
    (hstart : ∀ tp ∈ assignment, b.committed tp = none → policy ≠ .none) :
    consumerGroupLag policy calls assignment =
      .ok (assignment.map fun tp ↦ b.stop tp - b.start policy tp).sum := by
  obtain ⟨ends, hends, hstop⟩ := hb.stop
  obtain ⟨beginnings, hbeginnings, hbeginning⟩ := hb.beginning
  have hsum := foldlM_of_ok (fun tp htp ↦ partitionLag_eq (hstop tp htp) (hbeginning tp htp)
    (hb.committed tp htp) (hstart tp htp)) 0
  rw [Nat.zero_add] at hsum
  rw [consumerGroupLag, hends, hbeginnings]
  exact hsum

theorem consumerGroupLag_ok {policy : AutoOffsetReset} {calls : OffsetCalls} {b : Standing}
    {assignment : List TopicPartition} (hb : calls.Report b assignment) {total : ℕ}
    (h : consumerGroupLag policy calls assignment = .ok total) :
    total = (assignment.map fun tp ↦ b.stop tp - b.start policy tp).sum := by
  obtain ⟨ends, hends, hstop⟩ := hb.stop
  obtain ⟨beginnings, hbeginnings, hbeginning⟩ := hb.beginning
  rw [consumerGroupLag, hends, hbeginnings] at h
  have h : assignment.foldlM (fun total tp ↦ do
      return total + (← partitionLag policy ends beginnings calls.committed tp)) 0 = .ok total := h
  have hsum := sum_of_foldlM (fun tp htp n hn ↦
    partitionLag_ok (hstop tp htp) (hbeginning tp htp) (hb.committed tp htp) hn) h
  rw [hsum, Nat.zero_add]

/-- A depth that is a number is the sum of the lags of the assigned topic-partitions. -/
theorem State.queueLen_ok {s : State} {h : Option ℕ} {queueName topic : String}
    {policy : AutoOffsetReset} {p : Probe} {b : Standing} (hb : p.calls.Report b (s.assigned h topic p))
    {total : ℕ} (hlen : s.queueLen h queueName topic policy p = .ok total) :
    ((s.assigned h topic p).map fun tp ↦ b.stop tp - b.start policy tp).sum ≤ total := by
  have hcatch : ∀ {result : Except Failure ℕ}, catchKafkaError queueName result = .ok total →
      result = .ok total := by
    intro result hresult
    rcases result with (text | message) | n
    · cases hresult
    · cases hresult
    · exact hresult
  have hlen := hcatch hlen
  rw [assigned] at hb ⊢
  rcases hconsumer : s.consumerOf h with - | consumer
  · exact Nat.zero_le _
  · rw [hconsumer] at hlen hb
    rcases hassignment : p.assignment with text | assignment
    · exact Nat.zero_le _
    · rw [hassignment] at hlen hb
      have hlen : (match assignment.filter (·.topic = topic) with
          | [] => topicLag topic policy p
          | tp :: rest => do
            let total ← consumerGroupLag policy p.calls (tp :: rest)
            if (s.events p.during).retiredOf h then
              .error (.queueError "Kafka connection changed during operation.")
            else return total) = .ok total := hlen
      dsimp only at hb ⊢
      generalize assignment.filter (·.topic = topic) = l at hlen hb ⊢
      rcases l with - | ⟨tp, rest⟩
      · exact Nat.zero_le _
      · dsimp only at hlen
        rcases hlag : consumerGroupLag policy p.calls (tp :: rest) with e | n
        · rw [hlag] at hlen
          cases hlen
        · rw [hlag] at hlen
          have hlen : (if (s.events p.during).retiredOf h then
              .error (.queueError "Kafka connection changed during operation.")
            else .ok n : Except Failure ℕ) = .ok total := hlen
          split at hlen
          · cases hlen
          · obtain rfl := Except.ok.inj hlen
            exact (consumerGroupLag_ok hb hlag).ge

/-- With an assigned topic-partition there is a depth, unless the policy `none` meets one without a
commit or the generation is retired meanwhile. -/
theorem State.queueLen_eq {s : State} {h : Option ℕ} {topic : String} {policy : AutoOffsetReset}
    {p : Probe} {b : Standing} (hb : p.calls.Report b (s.assigned h topic p))
    (hne : s.assigned h topic p ≠ [])
    (hstart : ∀ tp ∈ s.assigned h topic p, b.committed tp = none → policy ≠ .none)
    (hlive : (s.events p.during).retiredOf h = false) (queueName : String) :
    s.queueLen h queueName topic policy p =
      .ok ((s.assigned h topic p).map fun tp ↦ b.stop tp - b.start policy tp).sum := by
  rw [assigned] at hb hne hstart ⊢
  rw [queueLen]
  rcases hconsumer : s.consumerOf h with - | consumer
  · rw [hconsumer] at hne
    exact absurd rfl hne
  rcases hassignment : p.assignment with text | assignment
  · rw [hconsumer, hassignment] at hne
    exact absurd rfl hne
  rw [hconsumer, hassignment] at hb hne hstart
  dsimp only at hb hne hstart ⊢
  have hlag := consumerGroupLag_eq hb hstart
  have hbind : ∀ l : List TopicPartition, l ≠ [] → ∀ n, consumerGroupLag policy p.calls l = .ok n →
      catchKafkaError queueName (match l with
        | [] => topicLag topic policy p
        | tp :: rest => do
          let total ← consumerGroupLag policy p.calls (tp :: rest)
          if (s.events p.during).retiredOf h then
            .error (.queueError "Kafka connection changed during operation.")
          else return total) = .ok n := by
    intro l hl n hn
    rcases l with - | ⟨tp, rest⟩
    · exact absurd rfl hl
    · dsimp only
      rw [hn, hlive]
      rfl
  exact hbind _ hne _ hlag

/-- The offsets of a set between the start and the end are no more than their distance. -/
theorem card_filter_le_sub (delivered : Finset ℕ) {start stop : ℕ} (h : ∀ o ∈ delivered, o < stop) :
    (delivered.filter (start ≤ ·)).card ≤ stop - start := by
  have hsub : delivered.filter (start ≤ ·) ⊆ Finset.Ico start stop := by
    intro o ho
    rw [Finset.mem_filter] at ho
    exact Finset.mem_Ico.mpr ⟨ho.2, h o ho.1⟩
  calc (delivered.filter (start ≤ ·)).card ≤ (Finset.Ico start stop).card := Finset.card_le_card hsub
    _ = stop - start := Nat.card_Ico start stop

namespace State

variable {s t u : State}

/-! ## The running epoch -/

/-- A new assignment epoch began, or the deliveries are as they were. -/
def Passes (s t : State) : Prop :=
  s.assignmentEpoch < t.assignmentEpoch ∨
    (t.assignmentEpoch = s.assignmentEpoch ∧ t.delivered = s.delivered ∧ t.acked = s.acked)

theorem Passes.refl (s : State) : Passes s s := .inr ⟨rfl, rfl, rfl⟩

theorem Passes.trans (h : Passes s t) (h' : Passes t u) : Passes s u := by
  rcases h with hlt | ⟨he, hd, ha⟩ <;> rcases h' with hlt' | ⟨he', hd', ha'⟩
  · exact .inl (hlt.trans hlt')
  · exact .inl (he' ▸ hlt)
  · exact .inl (he ▸ hlt')
  · exact .inr ⟨he'.trans he, hd'.trans hd, ha'.trans ha⟩

theorem Passes.epoch_le (h : Passes s t) : s.assignmentEpoch ≤ t.assignmentEpoch := by
  rcases h with hlt | ⟨he, -⟩
  · exact hlt.le
  · exact he.ge

theorem passes_modifyHandles (s : State) (h : Option ℕ) (f : Handles → Handles) :
    Passes s (s.modifyHandles h f) := .inr ⟨rfl, rfl, rfl⟩

theorem passes_publish (s : State) (hasClients : Bool) : Passes s (s.publish hasClients) := by
  rw [publish]
  split
  · exact .refl s
  · exact .inr ⟨rfl, rfl, rfl⟩

theorem passes_lease (s : State) : Passes s s.lease := by
  have hpub := passes_publish s false
  rw [lease]
  split
  · split
    · exact hpub.trans (passes_modifyHandles _ _ _)
    · exact hpub
  · exact hpub

theorem passes_advanceAssignmentEpoch (s : State) : Passes s s.advanceAssignmentEpoch :=
  .inl (Nat.lt_succ_self s.assignmentEpoch)

theorem passes_disconnect (s : State) : Passes s s.disconnect :=
  .inl (Nat.lt_succ_self s.assignmentEpoch)

theorem passes_rebalance (s : State) (assignment : TopicPartition → Option ℕ) :
    Passes s (s.rebalance assignment) := by
  rw [rebalance]
  split
  · rename_i hlive
    rw [onAssignmentChanged, if_pos hlive]
    exact .inl (Nat.lt_succ_self s.assignmentEpoch)
  · exact .refl s

theorem passes_events (s : State) (es : List Event) : Passes s (s.events es) := by
  induction es generalizing s with
  | nil => exact .refl s
  | cons e es ih =>
    have he : Passes s (s.happen e) := by
      cases e with
      | rebalance assignment => exact passes_rebalance s assignment
      | disconnect => exact passes_disconnect s
      | connect => exact passes_publish s true
      | lease => exact passes_lease s
    exact he.trans (ih _)

theorem passes_abandonPoll (s : State) (h created : Option ℕ) : Passes s (s.abandonPoll h created) := by
  rcases created with - | c
  · exact .refl s
  have hdrop : Passes s (s.dropConsumer c) := by
    rw [dropConsumer]
    split
    · exact .inl (Nat.lt_succ_self s.assignmentEpoch)
    · exact .refl s
  have hdetach : Passes s ((s.dropConsumer c).detachConsumer h c) := by
    refine hdrop.trans ?_
    rw [detachConsumer]
    split
    · exact passes_modifyHandles _ _ _
    · exact .refl _
  refine hdetach.trans ?_
  have heq : s.abandonPoll h (some c) = ((s.dropConsumer c).detachConsumer h c).retireEmpty := rfl
  rw [heq, retireEmpty]
  split
  · split
    · exact .inr ⟨rfl, rfl, rfl⟩
    · exact .refl _
  · exact .refl _

theorem passes_subscribe (s : State) (h : Option ℕ) (p : Poll) : Passes s (s.subscribe h p).1 := by
  rw [subscribe]
  split
  · exact .refl s
  · have hmodify := (passes_advanceAssignmentEpoch s).trans (passes_modifyHandles _ h
      ({ · with assignmentEpoch := s.assignmentEpoch + 1 }))
    have hevents := hmodify.trans (passes_events _ p.subscribing)
    dsimp only
    split
    · exact hevents
    · exact hevents.trans (.inr ⟨rfl, rfl, rfl⟩)

/-- A poll passes on the deliveries, or adds its record to them as the next one. -/
def PollPasses (log : TopicPartition → ℕ → Bool) (s : State) : Polled → Prop
  | .nothing t => Passes s t
  | .delivered t _ record => ∃ u : State, u.Inv log ∧ Passes s u ∧
      u.Delivers log record.topicPartition record.offset ∧
      t = u.deliver record.topicPartition record.offset

section poll

variable {log : TopicPartition → ℕ → Bool} {p : Poll} {polled : Polled}

theorem pollPasses_fetch {h created : Option ℕ} (hinv : u.Inv log) (hu : Passes s u)
    (hp : u.fetch log h created p = some polled) : PollPasses log s polled := by
  have hevents := hu.trans (passes_events u p.polling)
  have habandon := hevents.trans (passes_abandonPoll _ h created)
  rw [fetch] at hp
  split at hp
  · obtain rfl := Option.some.inj hp
    exact habandon
  · obtain rfl := Option.some.inj hp
    rw [PollPasses]
    split
    · exact habandon
    · exact hevents
  · split at hp
    · obtain rfl := Option.some.inj hp
      exact habandon
    · split at hp
      · rename_i hdel
        obtain rfl := Option.some.inj hp
        exact ⟨_, hinv.events p.polling, hevents, hdel, rfl⟩
      · cases hp

theorem pollPasses_pollSubscribed {i : ℕ} {created : Option ℕ} (hinv : u.Inv log)
    (hcur : u.current = some i) (hu : Passes s u)
    (hp : u.pollSubscribed log (some i) created p = some polled) : PollPasses log s polled := by
  have hsub := hu.trans (passes_subscribe u (some i) p)
  rw [pollSubscribed] at hp
  split at hp
  · exact pollPasses_fetch (hinv.subscribe hcur p).1 hsub hp
  · obtain rfl := Option.some.inj hp
    exact hsub.trans (passes_abandonPoll _ (some i) created)

theorem Inv.pollPasses (hs : s.Inv log) (hp : s.pollRecord log p = some polled) :
    PollPasses log s polled := by
  have hlease := hs.lease
  have hpasses := passes_lease s
  rw [State.pollRecord, hlease.wf.attachConsumer_current, hlease.wf.consumerOf_current] at hp
  split at hp
  · rename_i c hc
    rcases hcur : s.lease.current with - | i
    · rw [hlease.wf.orphan hcur] at hc
      cases hc
    · rw [hcur] at hp
      exact pollPasses_pollSubscribed hlease hcur hpasses hp
  · rename_i hc
    split at hp
    · obtain rfl := Option.some.inj hp
      exact hpasses
    · obtain rfl := Option.some.inj hp
      exact hpasses.trans (passes_disconnect _)
    · obtain ⟨hw, hfresh, i, hcur⟩ := hlease.wf.adoptConsumer hc
      have hinv : s.lease.adoptConsumer.Inv log := by
        refine hw.inv_of_fresh hfresh ?_ log
        rw [adoptConsumer_commits]
        exact hlease.clean
      have hadopt : Passes s.lease s.lease.adoptConsumer := by
        have hnew : Passes s.lease s.lease.newConsumer := .inr ⟨rfl, rfl, rfl⟩
        rw [adoptConsumer]
        split
        · exact hnew.trans (passes_modifyHandles _ _ _)
        · exact hnew.trans (passes_publish _ false)
      dsimp only at hp
      rw [hcur] at hp
      exact pollPasses_pollSubscribed hinv hcur (hpasses.trans hadopt) hp

end poll

/-! ## What a commit of the epoch leaves out -/

/-- The deliveries of a topic-partition below an offset are acknowledged, and one of them is at it or
right below. -/
structure Covered (s : State) (tp : TopicPartition) (offset : ℕ) : Prop where
  acked : ∀ o ∈ s.delivered tp, o < offset → o ∈ s.acked tp
  reached : ∃ d ∈ s.delivered tp, offset ≤ d + 1

variable {tp : TopicPartition} {offset : ℕ}

theorem Covered.of_le (h : s.Covered tp offset) (hdelivered : t.delivered = s.delivered)
    (hacked : s.acked tp ⊆ t.acked tp) : t.Covered tp offset where
  acked := by
    rw [hdelivered]
    exact fun o ho hlt ↦ hacked (h.acked o ho hlt)
  reached := by
    rw [hdelivered]
    exact h.reached

theorem Covered.acknowledge (h : s.Covered tp offset) (epoch : ℕ) (tp' : TopicPartition) (o : ℕ) :
    (s.acknowledge epoch tp' o).Covered tp offset := by
  rw [State.acknowledge]
  split
  · refine h.of_le rfl ?_
    by_cases htp : tp = tp'
    · subst htp
      intro x hx
      simp [hx]
    · simp [Function.update_of_ne htp]
  · exact h

/-- What is delivered next is above the offset, or was delivered before. -/
theorem Covered.deliver {log : TopicPartition → ℕ → Bool} (h : s.Covered tp offset) (hs : s.Inv log)
    {tp' : TopicPartition} {o : ℕ} (hdel : s.Delivers log tp' o) :
    (s.deliver tp' o).Covered tp offset := by
  by_cases htp : tp = tp'
  · subst htp
    obtain ⟨p, hp, hnext⟩ := hdel.next
    obtain ⟨d, hd, hle⟩ := h.reached
    refine ⟨?_, d, ?_, hle⟩
    · intro x hx hlt
      simp only [State.deliver, Function.update_self, Finset.mem_insert] at hx
      rcases hx with rfl | hx
      · rcases (hs.sound tp).mem_or_lt hp hnext hd with hmem | hdlt
        · exact h.acked x hmem hlt
        · omega
      · exact h.acked x hx hlt
    · simp [State.deliver, hd]
  · have hsame : (s.deliver tp' o).delivered tp = s.delivered tp := by
      simp [State.deliver, Function.update_of_ne htp]
    refine ⟨?_, ?_⟩
    · rw [hsame]
      exact h.acked
    · rw [hsame]
      exact h.reached

/-- A new epoch began, or what was covered still is. -/
def Keeps (s t : State) : Prop :=
  s.assignmentEpoch < t.assignmentEpoch ∨ (t.assignmentEpoch = s.assignmentEpoch ∧
    ∀ tp offset, s.Covered tp offset → t.Covered tp offset)

theorem Keeps.trans (h : Keeps s t) (h' : Keeps t u) : Keeps s u := by
  rcases h with hlt | ⟨he, hc⟩ <;> rcases h' with hlt' | ⟨he', hc'⟩
  · exact .inl (hlt.trans hlt')
  · exact .inl (he' ▸ hlt)
  · exact .inl (he ▸ hlt')
  · exact .inr ⟨he'.trans he, fun tp offset h ↦ hc' tp offset (hc tp offset h)⟩

theorem Passes.keeps (h : Passes s t) : Keeps s t := by
  rcases h with hlt | ⟨he, hd, ha⟩
  · exact .inl hlt
  · exact .inr ⟨he, fun tp offset h ↦ h.of_le hd (by rw [ha])⟩

theorem acknowledge_epoch (s : State) (epoch : ℕ) (tp : TopicPartition) (o : ℕ) :
    (s.acknowledge epoch tp o).assignmentEpoch = s.assignmentEpoch :=
  (still_acknowledge s epoch tp o).assignmentEpoch

theorem keeps_acknowledge (s : State) (epoch : ℕ) (tp : TopicPartition) (o : ℕ) :
    Keeps s (s.acknowledge epoch tp o) :=
  .inr ⟨acknowledge_epoch s epoch tp o, fun _ _ h ↦ h.acknowledge epoch tp o⟩

theorem passes_setMaps (s : State) (h : Option ℕ) (m : Maps) : Passes s (s.setMaps h m) := by
  rw [setMaps]
  split
  · split
    · exact passes_modifyHandles _ _ _
    · exact .inr ⟨rfl, rfl, rfl⟩
  · exact .inr ⟨rfl, rfl, rfl⟩

theorem passes_disarm (s : State) (h : Option ℕ) (record : Record) : Passes s (s.disarm h record) :=
  .inr ⟨rfl, rfl, rfl⟩

section step

variable {log : TopicPartition → ℕ → Bool} {h : Option ℕ} {token : Token}

theorem keeps_ackToken (s : State) (h : Option ℕ) (token : Token) (call : CommitCall) :
    Keeps s (s.ackToken h token call) := by
  have hsettle : ∀ m, Keeps s ((s.setMaps h m).acknowledge token.assignmentEpoch token.topicPartition
      token.offset) := fun m ↦ (passes_setMaps s h m).keeps.trans (keeps_acknowledge _ _ _ _)
  have hcommit : ∀ (t : State) (compatibility : Prop) [Decidable compatibility] (w : ℕ),
      Keeps t (t.commitToken h token compatibility w call) := by
    intro t compatibility _ w
    have hsent : Passes t ((t.events call.before).commit token.topicPartition w token.offset) :=
      (passes_events t call.before).trans (.inr ⟨rfl, rfl, rfl⟩)
    have hacked := hsent.keeps.trans (keeps_acknowledge _ token.assignmentEpoch token.topicPartition
      token.offset)
    rw [commitToken]
    split
    · have hend := hsent.trans (passes_events _ call.after)
      dsimp only
      split
      · exact (hend.trans (passes_setMaps _ _ _)).keeps
      · exact hend.keeps
    · exact hacked.trans (passes_events _ call.after).keeps
    · have hend := hacked.trans (passes_events _ call.after).keeps
      dsimp only
      split
      · exact hend.trans (passes_setMaps _ _ _).keeps
      · exact hend
  rw [ackToken]
  dsimp only
  split
  · exact (Passes.refl s).keeps
  split
  · exact hsettle _
  split
  · exact hsettle _
  · exact (passes_setMaps s h _).keeps.trans (hcommit _ _ _)

theorem keeps_ackLegacy (s : State) (h : Option ℕ) (call : CommitCall) :
    Keeps s (s.ackLegacy h call) := by
  rw [ackLegacy]
  split
  · rename_i record _ _
    dsimp only
    split
    · exact (Passes.refl s).keeps
    split
    · exact (Passes.refl s).keeps
    rw [commitLegacy]
    have hsent : Passes s ((s.events call.before).commit record.topicPartition (record.offset + 1)
        record.offset) := (passes_events s call.before).trans (.inr ⟨rfl, rfl, rfl⟩)
    split
    · have hend := (hsent.keeps.trans (keeps_acknowledge _ (s.epochOf h) record.topicPartition
        record.offset)).trans (passes_events _ call.after).keeps
      dsimp only
      split
      · have hdisarmed := hend.trans (passes_disarm _ h record).keeps
        split
        · exact hdisarmed.trans (passes_setMaps _ _ _).keeps
        · exact hdisarmed
      · exact hend
    · exact (hsent.trans (passes_events _ call.after)).keeps
  · exact (Passes.refl s).keeps

theorem keeps_nackToken (s : State) (h : Option ℕ) (token : Token) (call : SeekCall) :
    Keeps s (s.nackToken h token call) := by
  have hbefore := passes_events s call.before
  have hsought : Passes s ((s.events call.before).seek token.topicPartition token.offset) :=
    hbefore.trans (.inr ⟨rfl, rfl, rfl⟩)
  have hafter := hsought.trans (passes_events _ call.after)
  have hfinish : ∀ t : State, Passes t (t.finishNack h token) := fun t ↦
    (passes_setMaps t h _).trans (.inr ⟨rfl, rfl, rfl⟩)
  rw [nackToken]
  dsimp only
  split
  · exact (Passes.refl s).keeps
  split
  · exact hbefore.keeps
  split
  · exact hafter.keeps
  · exact (hafter.trans (hfinish _)).keeps

theorem keeps_nackLegacy (s : State) (h : Option ℕ) (call : SeekCall) :
    Keeps s (s.nackLegacy h call) := by
  rw [nackLegacy]
  split
  · rename_i record _ _
    have hbefore := passes_events s call.before
    have hsought : Passes s ((s.events call.before).seek record.topicPartition record.offset) :=
      hbefore.trans (.inr ⟨rfl, rfl, rfl⟩)
    have hafter := hsought.trans (passes_events _ call.after)
    dsimp only
    split
    · exact hbefore.keeps
    split
    · exact hafter.keeps
    · have hdisarmed := hafter.trans (passes_disarm _ h record)
      rw [finishNackLegacy]
      split
      · exact (hdisarmed.trans (passes_setMaps _ _ _)).keeps
      · exact hdisarmed.keeps
  · exact (Passes.refl s).keeps

theorem keeps_deliver (hs : s.Inv log) {tp : TopicPartition} {o : ℕ} (hdel : s.Delivers log tp o) :
    Keeps s (s.deliver tp o) :=
  .inr ⟨rfl, fun _ _ h ↦ h.deliver hs hdel⟩

theorem passes_registerToken (s : State) (h : Option ℕ) (record : Record) :
    Passes s (s.registerToken h record) := by
  rw [registerToken]
  split
  · exact .inr ⟨rfl, rfl, rfl⟩
  · exact .inr ⟨rfl, rfl, rfl⟩

/-- What one step does to the coverage. -/
theorem Inv.keeps_step (hs : s.Inv log) {a : Label} (ht : step log s a = some t) : Keeps s t := by
  cases a with
  | event e =>
    obtain rfl := Option.some.inj ht
    exact (passes_events s [e]).keeps
  | pop p =>
    have ht : s.pop log p = some t := ht
    obtain ⟨polled, hpoll, rfl⟩ := Option.map_eq_some_iff.mp ht
    have hpasses := hs.pollPasses hpoll
    rcases polled with t | ⟨t, h, record⟩
    · exact hpasses.keeps
    · obtain ⟨u, hu, hsu, hdel, rfl⟩ := hpasses
      exact (hsu.keeps.trans (keeps_deliver hu hdel)).trans (Passes.keeps (.inr ⟨rfl, rfl, rfl⟩))
  | popWithAck p =>
    have ht : s.popWithAck log p = some t := ht
    obtain ⟨polled, hpoll, rfl⟩ := Option.map_eq_some_iff.mp ht
    have hpasses := hs.pollPasses hpoll
    rcases polled with t | ⟨t, h, record⟩
    · exact hpasses.keeps
    · obtain ⟨u, hu, hsu, hdel, rfl⟩ := hpasses
      exact (hsu.keeps.trans (keeps_deliver hu hdel)).trans (passes_registerToken _ h record).keeps
  | ackToken h token call =>
    obtain ⟨-, ⟨⟩⟩ := Option.ite_none_right_eq_some.mp ht
    exact keeps_ackToken s h token call
  | ackLegacy h call =>
    obtain ⟨-, ⟨⟩⟩ := Option.ite_none_right_eq_some.mp ht
    exact keeps_ackLegacy s h call
  | nackToken h token call =>
    obtain ⟨-, ⟨⟩⟩ := Option.ite_none_right_eq_some.mp ht
    exact keeps_nackToken s h token call
  | nackLegacy h call =>
    obtain ⟨-, ⟨⟩⟩ := Option.ite_none_right_eq_some.mp ht
    exact keeps_nackLegacy s h call

end step

/-! ## The commits of the epoch -/

section commits

variable {log : TopicPartition → ℕ → Bool} {h : Option ℕ} {token : Token} {c : Commit}

theorem setMaps_commits (s : State) (h : Option ℕ) (m : Maps) : (s.setMaps h m).commits = s.commits := by
  rw [setMaps]
  split
  · split <;> rfl
  · rfl

theorem Passes.of_epoch (h : Passes s t) (he : t.assignmentEpoch = s.assignmentEpoch) :
    t.delivered = s.delivered ∧ t.acked = s.acked := by
  rcases h with hlt | ⟨-, hd, ha⟩
  · omega
  · exact ⟨hd, ha⟩

/-- A commit that skips nothing and settles its own offset, as long as the epoch lasts. -/
theorem covered_of_commit {v : State} {tp : TopicPartition} {offset own epoch : ℕ}
    (hbefore : Passes s v)
    (hafter : Passes ((v.commit tp offset own).acknowledge epoch tp own) t)
    (hlasts : t.assignmentEpoch = s.assignmentEpoch) (hepoch : epoch = s.assignmentEpoch)
    (hskip : (v.delivered tp).filter (fun o ↦ o < offset ∧ o ∉ v.acked tp ∧ o ≠ own) = ∅)
    (hreached : ∃ d ∈ s.delivered tp, offset ≤ d + 1) : t.Covered tp offset := by
  have hle := hbefore.epoch_le
  have hle' := hafter.epoch_le
  have hsent : ((v.commit tp offset own).acknowledge epoch tp own).assignmentEpoch =
      v.assignmentEpoch := acknowledge_epoch _ _ _ _
  have hv : v.assignmentEpoch = s.assignmentEpoch := by omega
  obtain ⟨hdv, -⟩ := hbefore.of_epoch hv
  obtain ⟨hdt, hat⟩ := hafter.of_epoch (by omega)
  have hdelivered : t.delivered = v.delivered := by
    rw [hdt, (still_acknowledge _ _ _ _).delivered]
    rfl
  have hacked : t.acked tp = insert own (v.acked tp) := by
    have hsame : (v.commit tp offset own).assignmentEpoch = epoch := hv.trans hepoch.symm
    rw [hat, State.acknowledge, if_pos hsame]
    simp [State.commit]
  refine ⟨?_, ?_⟩
  · intro o ho hlt
    rw [hdelivered] at ho
    rw [hacked]
    by_contra hnot
    rw [Finset.mem_insert, not_or] at hnot
    rw [Finset.filter_eq_empty_iff] at hskip
    exact hskip ho ⟨hlt, hnot.2, hnot.1⟩
  · rw [hdelivered, hdv]
    exact hreached

/-- The walk ends at an offset right above a delivery. -/
theorem Inv.watermark_reached (hs : s.Inv log) {tp : TopicPartition} {pending : Finset ℕ} {base : ℕ}
    (hlt : base < watermarkFrom pending base ((s.maps.highWater tp).getD base)) :
    ∃ d ∈ s.delivered tp, watermarkFrom pending base ((s.maps.highWater tp).getD base) ≤ d + 1 := by
  obtain ⟨-, -, hwalk⟩ := walkEnds_watermarkFrom pending base ((s.maps.highWater tp).getD base)
  obtain ⟨hhigh, -⟩ := hwalk _ (Nat.le_sub_one_of_lt hlt) (by omega)
  rcases hw : s.maps.highWater tp with - | high
  · rw [hw, Option.getD_none] at hhigh hlt
    omega
  · rw [hw] at hhigh hlt
    rw [Option.getD_some] at hhigh hlt ⊢
    obtain ⟨d, hd, hle⟩ := (hs.sound tp).high_le high hw
    exact ⟨d, hd, by omega⟩

/-- A token acknowledgement of the live generation whose commit returns. -/
theorem Inv.covered_ackToken (hs : s.Inv log) (hlive : s.retiredOf h = false) {call : CommitCall}
    (hreturned : call.outcome = .returned) (ht : (s.ackToken h token call).Inv log)
    (hcommit : (s.ackToken h token call).commits = c :: s.commits)
    (hlasts : (s.ackToken h token call).assignmentEpoch = s.assignmentEpoch) :
    (s.ackToken h token call).Covered c.topicPartition c.offset := by
  have hnone : ∀ l : List Commit, l = s.commits → ¬ l = c :: s.commits :=
    fun l hl heq ↦ (List.cons_ne_self c s.commits) (heq.symm.trans hl)
  have hclean := ht.clean c (by rw [hcommit]; exact List.mem_cons_self)
  rw [State.ackToken] at hcommit hlasts ⊢
  dsimp only at hcommit hlasts ⊢
  rw [mapsOf_of_not_retired hlive] at hcommit hlasts ⊢
  split at hcommit
  · exact absurd hcommit (hnone _ rfl)
  rename_i hgo
  rw [if_neg hgo] at hlasts ⊢
  obtain ⟨hcons, hact⟩ := not_or.mp hgo
  rw [not_not] at hact
  have hepoch : token.assignmentEpoch = s.assignmentEpoch :=
    hact.2.1.trans (hs.wf.live hlive hcons).2.1
  split at hcommit
  · rw [acknowledge_commits, setMaps_commits] at hcommit
    exact absurd hcommit (hnone _ rfl)
  rename_i hmem
  rw [if_neg hmem] at hlasts ⊢
  split at hcommit
  · rw [acknowledge_commits, setMaps_commits] at hcommit
    exact absurd hcommit (hnone _ rfl)
  rename_i hlt
  rw [if_neg hlt] at hlasts ⊢
  have hreached := hs.watermark_reached (not_le.mp hlt)
  rw [commitToken, hreturned] at hcommit hlasts ⊢
  dsimp only at hcommit hlasts ⊢
  generalize hw : watermarkFrom _ _ _ = w at hcommit hlasts hreached ⊢
  generalize hset : s.setMaps h _ = s' at hcommit hlasts ⊢
  have hs' : Passes s s' := hset ▸ passes_setMaps s h _
  have hbefore := hs'.trans (passes_events s' call.before)
  have hevents := passes_events (((s'.events call.before).commit token.topicPartition w
    token.offset).acknowledge token.assignmentEpoch token.topicPartition token.offset) call.after
  -- Whether the token is still active or not, the end differs in its bookkeeping only.
  have hend : ∀ (t : State), t.commits = c :: s.commits → t.assignmentEpoch = s.assignmentEpoch →
      Passes (((s'.events call.before).commit token.topicPartition w token.offset).acknowledge
        token.assignmentEpoch token.topicPartition token.offset) t →
      t.commits = (((s'.events call.before).commit token.topicPartition w token.offset)).commits →
      t.Covered c.topicPartition c.offset := by
    intro t hcommit hlasts hafter hsame
    have hold : (s'.events call.before).commits = s.commits := by
      rw [events_commits, ← hset, setMaps_commits]
    rw [hsame, State.commit, hold] at hcommit
    obtain rfl := (List.cons.inj hcommit).1
    exact covered_of_commit hbefore hafter hlasts hepoch hclean hreached
  split at hcommit
  · rename_i hstill
    rw [if_pos hstill] at hlasts ⊢
    refine hend _ hcommit hlasts (hevents.trans (passes_setMaps _ _ _)) ?_
    rw [setMaps_commits, events_commits, acknowledge_commits]
  · rename_i hstill
    rw [if_neg hstill] at hlasts ⊢
    refine hend _ hcommit hlasts hevents ?_
    rw [events_commits, acknowledge_commits]

/-- A legacy acknowledgement of the live generation whose commit returns. -/
theorem Inv.covered_ackLegacy (hs : s.Inv log) (hlive : s.retiredOf h = false) {call : CommitCall}
    (hreturned : call.outcome = .returned) (ht : (s.ackLegacy h call).Inv log)
    (hcommit : (s.ackLegacy h call).commits = c :: s.commits)
    (hlasts : (s.ackLegacy h call).assignmentEpoch = s.assignmentEpoch) :
    (s.ackLegacy h call).Covered c.topicPartition c.offset := by
  have hnone : ∀ l : List Commit, l = s.commits → ¬ l = c :: s.commits :=
    fun l hl heq ↦ (List.cons_ne_self c s.commits) (heq.symm.trans hl)
  have hclean := ht.clean c (by rw [hcommit]; exact List.mem_cons_self)
  rw [State.ackLegacy] at hcommit hlasts ⊢
  rcases hconsumer : s.consumerOf h with - | consumer
  · rw [hconsumer] at hcommit
    exact absurd hcommit (hnone _ rfl)
  rcases hrecord : s.legacyRecordOf h with - | record
  · rw [hconsumer, hrecord] at hcommit
    exact absurd hcommit (hnone _ rfl)
  rw [hconsumer, hrecord] at hcommit hlasts
  dsimp only at hcommit hlasts ⊢
  split at hcommit
  · exact absurd hcommit (hnone _ rfl)
  rename_i hactive
  rw [if_neg hactive] at hlasts ⊢
  split at hcommit
  · exact absurd hcommit (hnone _ rfl)
  rename_i hpending
  rw [if_neg hpending] at hlasts ⊢
  have hcons : s.consumerOf h ≠ none := by
    rw [hconsumer]
    exact Option.some_ne_none _
  have harmed := hs.wf.armed_of_legacyRecordOf hlive hcons hrecord
  have hreached : ∃ d ∈ s.delivered record.topicPartition, record.offset + 1 ≤ d + 1 :=
    ⟨record.offset, (hs.sound record.topicPartition).armed_delivered _ ⟨record, harmed, rfl, rfl⟩,
      le_rfl⟩
  have hepoch := (hs.wf.live hlive hcons).2.1
  rw [commitLegacy, hreturned] at hcommit hlasts ⊢
  dsimp only at hcommit hlasts ⊢
  have hevents := passes_events (((s.events call.before).commit record.topicPartition
    (record.offset + 1) record.offset).acknowledge (s.epochOf h) record.topicPartition
      record.offset) call.after
  have hend : ∀ (t : State), t.commits = c :: s.commits → t.assignmentEpoch = s.assignmentEpoch →
      Passes (((s.events call.before).commit record.topicPartition (record.offset + 1)
        record.offset).acknowledge (s.epochOf h) record.topicPartition record.offset) t →
      t.commits = ((s.events call.before).commit record.topicPartition (record.offset + 1)
        record.offset).commits →
      t.Covered c.topicPartition c.offset := by
    intro t hcommit hlasts hafter hsame
    rw [hsame, State.commit, events_commits] at hcommit
    obtain rfl := (List.cons.inj hcommit).1
    exact covered_of_commit (passes_events s call.before) hafter hlasts hepoch hclean hreached
  have hdropped : ∀ t : State, (t.dropLegacy h record).commits = t.commits := fun t ↦
    setMaps_commits t h _
  split at hcommit
  · rename_i hsame
    rw [if_pos hsame] at hlasts ⊢
    have hdisarmed := hevents.trans (passes_disarm _ h record)
    split at hcommit
    · rename_i hwas
      rw [if_pos hwas] at hlasts ⊢
      refine hend _ hcommit hlasts (hdisarmed.trans (passes_setMaps _ _ _)) ?_
      rw [hdropped, State.disarm, modifyHandles_commits, events_commits, acknowledge_commits]
    · rename_i hwas
      rw [if_neg hwas] at hlasts ⊢
      refine hend _ hcommit hlasts hdisarmed ?_
      rw [State.disarm, modifyHandles_commits, events_commits, acknowledge_commits]
  · rename_i hsame
    rw [if_neg hsame] at hlasts ⊢
    refine hend _ hcommit hlasts hevents ?_
    rw [events_commits, acknowledge_commits]

end commits

end State

/-! ## Every run -/

/-- A token or legacy acknowledgement on a live generation whose commit returns. -/
def Label.CommitsLive (s : State) : Label → Prop
  | .ackToken h _ call | .ackLegacy h call => s.retiredOf h = false ∧ call.outcome = .returned
  | _ => False

instance (s : State) : DecidablePred (Label.CommitsLive s)
  | .ackToken .. | .ackLegacy .. => inferInstanceAs (Decidable (_ ∧ _))
  | .event _ | .pop _ | .popWithAck _ | .nackToken .. | .nackLegacy .. => isFalse id

/-- In the run `as`, the backend committed the offset in the assignment epoch. -/
def CommittedIn (log : TopicPartition → ℕ → Bool) (as : List Label) (epoch : ℕ)
    (tp : TopicPartition) (offset : ℕ) : Prop :=
  ∃ before a after s t c, as = before ++ a :: after ∧
    (machine log).run .new before = some s ∧ step log s a = some t ∧ a.CommitsLive s ∧
    s.assignmentEpoch = epoch ∧ t.commits = c :: s.commits ∧ c.topicPartition = tp ∧
    c.offset = offset

/-- A committed offset of the group that the deliveries of the epoch started at or above, or that the
backend committed in the epoch. -/
def Rests (log : TopicPartition → ℕ → Bool) (as : List Label) (s : State) (tp : TopicPartition)
    (offset : ℕ) : Prop :=
  (∀ o ∈ s.delivered tp, offset ≤ o) ∨ CommittedIn log as s.assignmentEpoch tp offset

/-- The delivered offsets of the epoch that are not acknowledged. -/
def State.unacked (s : State) (tp : TopicPartition) : Finset ℕ := s.delivered tp \ s.acked tp

section runs

variable {log : TopicPartition → ℕ → Bool} {as : List Label} {s : State} {tp : TopicPartition}
  {offset : ℕ}

theorem inv_of_along (hguard : (machine log).Along Admissible .new as)
    (hrun : (machine log).run .new as = some s) : s.Inv log := by
  have hinv : (machine log).Always (State.Inv log) .new as :=
    hguard.always (fun _ _ _ hs hguard hstep ↦ inv_step hs hguard hstep) (State.inv_new log)
  exact hinv.of_run hrun

/-- What the backend committed in the epoch is covered as long as the epoch lasts. -/
theorem covered_of_committedIn (hguard : (machine log).Along Admissible .new as)
    (hrun : (machine log).run .new as = some s)
    (hcommitted : CommittedIn log as s.assignmentEpoch tp offset) : s.Covered tp offset := by
  obtain ⟨before, a, after, u, v, c, rfl, hu, hv, hlive, hepoch, hcommit, rfl, rfl⟩ := hcommitted
  rw [Machine.run_append, hu, Option.bind_some, Machine.run_cons] at hrun
  have hv' : (machine log).step u a = some v := hv
  rw [hv', Option.bind_some] at hrun
  rw [Machine.along_append] at hguard
  obtain ⟨hguardBefore, hguard⟩ := hguard
  obtain ⟨hadmissible, hguardAfter⟩ := hguard u hu
  have huinv := inv_of_along hguardBefore hu
  have hvinv := inv_step huinv hadmissible hv
  have hkeeps := huinv.keeps_step hv
  -- The epoch of the commit is that of the last state, so it lasts all the way.
  have hinv : (machine log).Always (fun w ↦ w.Inv log ∧ u.assignmentEpoch ≤ w.assignmentEpoch ∧
      (w.assignmentEpoch = u.assignmentEpoch → w.Covered c.topicPartition c.offset)) v after := by
    refine (hguardAfter v hv').always ?_ ⟨hvinv, ?_, ?_⟩
    · rintro w b w' ⟨hw, hle, hcovered⟩ hguard hstep
      have hkeeps' := hw.keeps_step hstep
      refine ⟨inv_step hw hguard hstep, ?_, fun hlasts ↦ ?_⟩
      · rcases hkeeps' with hlt | ⟨he, -⟩ <;> omega
      · rcases hkeeps' with hlt | ⟨he, hkeep⟩
        · omega
        · exact hkeep _ _ (hcovered (by omega))
    · rcases hkeeps with hlt | ⟨he, -⟩ <;> omega
    · intro hlasts
      cases a with
      | ackToken h token call =>
        obtain ⟨-, ⟨⟩⟩ := Option.ite_none_right_eq_some.mp hv
        exact huinv.covered_ackToken hlive.1 hlive.2 hvinv hcommit hlasts
      | ackLegacy h call =>
        obtain ⟨-, ⟨⟩⟩ := Option.ite_none_right_eq_some.mp hv
        exact huinv.covered_ackLegacy hlive.1 hlive.2 hvinv hcommit hlasts
      | event e => exact hlive.elim
      | pop p => exact hlive.elim
      | popWithAck p => exact hlive.elim
      | nackToken h token call => exact hlive.elim
      | nackLegacy h call => exact hlive.elim
  exact (hinv.of_run hrun).2.2 hepoch.symm

/-- A committed offset that rests takes no unacknowledged delivery out of the lag. -/
theorem Rests.le_of_unacked (hrests : Rests log as s tp offset)
    (hguard : (machine log).Along Admissible .new as) (hrun : (machine log).run .new as = some s)
    {o : ℕ} (ho : o ∈ s.unacked tp) : offset ≤ o := by
  obtain ⟨hdelivered, hacked⟩ := Finset.mem_sdiff.mp ho
  rcases hrests with hstarted | hcommitted
  · exact hstarted o hdelivered
  · by_contra hlt
    exact hacked ((covered_of_committedIn hguard hrun hcommitted).acked o hdelivered (not_le.mp hlt))

end runs

/-- The queue's one partition is assigned, and the consumer answers these offsets. -/
def probeOf (stop beginning : ℕ) (committed : Option ℕ) : Probe :=
  let calls : OffsetCalls := ⟨.ok (some fun _ ↦ some stop), .ok (some fun _ ↦ some beginning),
    fun _ ↦ .ok (match committed with
      | some c => .int c
      | none => .absent)⟩
  ⟨.ok [⟨"t", 0⟩], calls, [], .ok [], calls⟩

/-- The same offsets, as the broker has them. -/
def standingOf (stop beginning : ℕ) (committed : Option ℕ) : Standing :=
  ⟨fun _ ↦ stop, fun _ ↦ beginning, fun _ ↦ committed⟩

theorem report_probeOf (stop beginning : ℕ) (committed : Option ℕ) (l : List TopicPartition) :
    (probeOf stop beginning committed).calls.Report (standingOf stop beginning committed) l :=
  ⟨⟨_, rfl, fun _ _ ↦ rfl⟩, ⟨_, rfl, fun _ _ ↦ rfl⟩, fun _ _ ↦ rfl⟩

/-- Two deliveries. -/
def twoDelivered : List Label :=
  [.event .connect, .popWithAck (pollOf "t" [.rebalance fun _ ↦ some 4] 4),
    .popWithAck (pollOf "t" [] 5)]

/-- The acknowledgement of the first one. -/
def firstAcked : Label := .ackToken (some 0) ⟨⟨"t", 0⟩, 4, 1, 2, 1⟩ ⟨[], [], .returned⟩

theorem isSome_twoDelivered : ((machine fun _ _ ↦ true).run .new twoDelivered).isSome = true := rfl

theorem isSome_firstAcked :
    ((machine fun _ _ ↦ true).run .new (twoDelivered ++ firstAcked :: [])).isSome = true := rfl

theorem isSome_step_firstAcked : (step (fun _ _ ↦ true)
    (((machine fun _ _ ↦ true).run .new twoDelivered).get isSome_twoDelivered) firstAcked).isSome =
      true := rfl

end Kafka

end ScrapyExtension
