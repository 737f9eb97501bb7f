import ScrapyExtension.Backends.Kafka.Watermark

/-!
# Redelivery of nacked offsets

A consumer session on a stable assignment: nothing but `pop_with_ack`, `ack` and successful token
nacks, with no rebalance, resubscription or disconnect in between. A nacked offset comes back in the
session if the fetch position does not pass it.

Each nack seeks the topic-partition to its own offset, whatever was nacked before. A nack of a
higher offset therefore moves the position *forward* over a lower one that still waits for its
redelivery. The exact condition is that every nack seeks back (`SeeksBack`).
-/

namespace ScrapyExtension

namespace Kafka

namespace Session

/-- What the application does in a session. -/
inductive Label
  /-- `pop_with_ack`, with the result of `consumer.poll` -/
  | popWithAck (fetch : Fetch)
  /-- `ack` of a token, with the end of `consumer.commit` -/
  | ack (token : Token) (outcome : Outcome)
  /-- `nack` of a token, successful -/
  | nack (token : Token)

/-- The token is one of `pop_with_ack` and active, so that its nack is successful. -/
def Nackable (s : State) (token : Token) : Prop :=
  token.deliveryAttempt ≠ 0 ∧ s.TokenIsActive s.current token

instance (s : State) (token : Token) : Decidable (Nackable s token) :=
  inferInstanceAs (Decidable (_ ∧ _))

/-- A session of one topic begins with the assignment of its first poll. -/
def start (topic : String) (assignment : TopicPartition → Option ℕ) : State :=
  ((((State.new.happen .connect).adoptConsumer.subscribe (some 0)
    ⟨topic, .returned, [], false, [], .empty⟩).1).happen (.rebalance assignment))

/-- The steps of a session are those of the backend, on the accepting generation and with nothing
happening meanwhile. -/
def step (log : TopicPartition → ℕ → Bool) (topic : String) (s : State) : Label → Option State
  | .popWithAck fetch => Kafka.step log s (.popWithAck ⟨topic, .returned, [], false, [], fetch⟩)
  | .ack token outcome => Kafka.step log s (.ackToken s.current token ⟨[], [], outcome⟩)
  | .nack token =>
    if Nackable s token then Kafka.step log s (.nackToken s.current token ⟨[], [], false⟩) else none

/-- A session as a machine. -/
def machine (log : TopicPartition → ℕ → Bool) (topic : String)
    (assignment : TopicPartition → Option ℕ) : Machine State Label where
  init := start topic assignment
  step := step log topic

/-- Every nacked offset that was not popped since is at or above the fetch position. -/
def Redeliverable (s : State) : Prop :=
  ∀ tp, ∀ o ∈ s.nacked tp, ∃ position ∈ s.position tp, position ≤ o

/-- No nack seeks over an offset that waits for its redelivery. -/
def SeeksBack (s : State) : Label → Prop
  | .nack token => Nackable s token → ∀ o ∈ s.nacked token.topicPartition, token.offset ≤ o
  | _ => True

/-! ## The session invariant -/

/-- What holds in every state of a session. -/
structure Steady (log : TopicPartition → ℕ → Bool) (topic : String) (s : State) : Prop where
  inv : s.Inv log
  consumer : s.consumer ≠ none
  subscribed : s.subscribedTopic = some topic
  nacked : ∀ tp, s.nacked tp ⊆ s.delivered tp

variable {log : TopicPartition → ℕ → Bool} {topic : String} {s t : State}

theorem Steady.current (hs : Steady log topic s) : ∃ i, s.current = some i := by
  cases hcur : s.current with
  | none => exact absurd (hs.inv.wf.orphan hcur) hs.consumer
  | some i => exact ⟨i, rfl⟩

theorem Steady.published (hs : Steady log topic s) : s.Published s.current := by
  intro i hi
  obtain ⟨g, hg, -⟩ := hs.inv.wf.current i hi
  exact (List.getElem?_eq_some_iff.mp hg).1

theorem Steady.live (hs : Steady log topic s) : s.retiredOf s.current = false := by
  obtain ⟨i, hcur⟩ := hs.current
  obtain ⟨g, hg, hret, -⟩ := hs.inv.wf.current i hcur
  simp [State.retiredOf, State.handles, hcur, hg, hret]

theorem Steady.rearm (hs : Steady log topic s) : Steady log topic s.rearm :=
  ⟨hs.inv.rearm, hs.consumer, hs.subscribed, hs.nacked⟩

/-- A poll on a stable assignment. -/
theorem Steady.pollRecord (hs : Steady log topic s) (fetch : Fetch) :
    ∃ u, Steady log topic u ∧ u.nacked = s.nacked ∧ u.position = s.position ∧
      s.pollRecord log ⟨topic, .returned, [], false, [], fetch⟩ =
        match fetch with
        | .raised => some (.nothing u)
        | .empty => some (.nothing u)
        | .record tp offset =>
          if u.Delivers log tp offset then
            some (.delivered (u.deliver tp offset) u.current ⟨u.nextRecord, tp, offset⟩)
          else none := by
  have hlease : ∃ u, Steady log topic u ∧ u.nacked = s.nacked ∧ u.position = s.position ∧
      s.lease = u := by
    rcases hs.inv.wf.lease_cases with h | h
    · exact ⟨s, hs, rfl, rfl, h⟩
    · exact ⟨s.rearm, hs.rearm, rfl, rfl, h⟩
  obtain ⟨u, hu, hnacked, hposition, heq⟩ := hlease
  refine ⟨u, hu, hnacked, hposition, ?_⟩
  obtain ⟨c, hc⟩ := Option.ne_none_iff_exists'.mp hu.consumer
  rw [State.pollRecord, heq, hu.inv.wf.attachConsumer_current, hu.inv.wf.consumerOf_current, hc]
  have hsub : u.subscribe u.current ⟨topic, .returned, [], false, [], fetch⟩ = (u, true) := by
    rw [State.subscribe, if_pos hu.subscribed]
  dsimp only
  rw [State.pollSubscribed, hsub]
  have hlive : ¬ (u.events []).retiredOf u.current = true := by
    have := hu.live
    simp [State.events, this]
  rw [if_pos rfl, State.fetch]
  cases fetch with
  | raised => rfl
  | empty =>
    dsimp only
    rw [if_neg hlive]
    rfl
  | record tp offset =>
    dsimp only
    rw [if_neg hlive]
    rfl

/-- What a session is about: the consumer, its subscription and positions, and the history of
deliveries and nacks. -/
def outline (s : State) : Option ℕ × Option String × (TopicPartition → Option ℕ) ×
    (TopicPartition → Finset ℕ) × (TopicPartition → Finset ℕ) :=
  (s.consumer, s.subscribedTopic, s.position, s.delivered, s.nacked)

theorem outline_setMaps (s : State) (h : Option ℕ) (m : Maps) :
    outline (s.setMaps h m) = outline s := by
  rw [State.setMaps]
  split
  · split <;> rfl
  · rfl

theorem outline_acknowledge (s : State) (epoch : ℕ) (tp : TopicPartition) (o : ℕ) :
    outline (s.acknowledge epoch tp o) = outline s := by
  rw [State.acknowledge]
  split <;> rfl

theorem outline_registerToken (s : State) (h : Option ℕ) (record : Record) :
    outline (s.registerToken h record) = outline s := by
  rw [State.registerToken]
  split <;> rfl

theorem outline_commitToken (s : State) (h : Option ℕ) (token : Token) (compatibility : Prop)
    [Decidable compatibility] (watermark : ℕ) (outcome : Outcome) :
    outline (s.commitToken h token compatibility watermark ⟨[], [], outcome⟩) = outline s := by
  have hcommit : ∀ o, outline (s.commit token.topicPartition watermark o) = outline s :=
    fun _ ↦ rfl
  have hevents : ∀ u : State, u.events [] = u := fun _ ↦ rfl
  rw [State.commitToken]
  simp only [hevents]
  cases outcome with
  | kafkaError =>
    dsimp only
    split
    · rw [outline_setMaps, hcommit]
    · exact hcommit _
  | interrupted => exact (outline_acknowledge _ _ _ _).trans (hcommit _)
  | returned =>
    dsimp only
    split
    · rw [outline_setMaps, outline_acknowledge, hcommit]
    · rw [outline_acknowledge, hcommit]

theorem outline_ackToken (s : State) (h : Option ℕ) (token : Token) (outcome : Outcome) :
    outline (s.ackToken h token ⟨[], [], outcome⟩) = outline s := by
  rw [State.ackToken]
  dsimp only
  split
  · rfl
  · split
    · rw [outline_acknowledge, outline_setMaps]
    · split
      · rw [outline_acknowledge, outline_setMaps]
      · rw [outline_commitToken, outline_setMaps]

theorem Steady.of_outline (hs : Steady log topic s) (ht : t.Inv log)
    (h : outline t = outline s) : Steady log topic t := by
  simp only [outline, Prod.mk.injEq] at h
  obtain ⟨hconsumer, hsubscribed, -, hdelivered, hnacked⟩ := h
  refine ⟨ht, ?_, ?_, ?_⟩
  · rw [hconsumer]
    exact hs.consumer
  · rw [hsubscribed]
    exact hs.subscribed
  · rw [hnacked, hdelivered]
    exact hs.nacked

theorem redeliverable_of_outline (h : outline t = outline s) :
    Redeliverable t ↔ Redeliverable s := by
  simp only [outline, Prod.mk.injEq] at h
  rw [Redeliverable, Redeliverable, h.2.2.1, h.2.2.2.2]

/-- A delivery passes over no record, and takes its own offset off the nacked ones. -/
theorem redeliverable_deliver (hs : Steady log topic s) (hP : Redeliverable s)
    {tp : TopicPartition} {offset : ℕ} (hdel : s.Delivers log tp offset) :
    Redeliverable (s.deliver tp offset) := by
  intro tp' o ho
  by_cases htp : tp' = tp
  · subst htp
    simp only [State.deliver, Function.update_self] at ho ⊢
    obtain ⟨hne, ho⟩ := Finset.mem_erase.mp ho
    obtain ⟨p, hp, hnext⟩ := hdel.next
    obtain ⟨p', hp', hle⟩ := hP tp' o ho
    obtain rfl : p = p' := by simpa [hp] using hp'
    have hlog := (hs.inv.sound tp').inLog o (hs.nacked tp' ho)
    refine ⟨offset + 1, rfl, ?_⟩
    by_contra hlt
    have hfalse := hnext.2.2 o (by omega) hle
    rw [hlog] at hfalse
    cases hfalse
  · simp only [State.deliver, Function.update_of_ne htp] at ho ⊢
    exact hP tp' o ho

theorem nacked_deliver_subset (hs : Steady log topic s) (tp : TopicPartition) (offset : ℕ) :
    ∀ tp', (s.deliver tp offset).nacked tp' ⊆ (s.deliver tp offset).delivered tp' := by
  intro tp' o ho
  by_cases htp : tp' = tp
  · subst htp
    simp only [State.deliver, Function.update_self] at ho ⊢
    exact Finset.mem_insert_of_mem (hs.nacked tp' (Finset.mem_of_mem_erase ho))
  · simp only [State.deliver, Function.update_of_ne htp] at ho ⊢
    exact hs.nacked tp' ho

theorem Steady.popWithAck (hs : Steady log topic s) {fetch : Fetch}
    (h : step log topic s (.popWithAck fetch) = some t) :
    Steady log topic t ∧ (Redeliverable s → Redeliverable t) := by
  obtain ⟨u, hu, hnacked, hposition, hpoll⟩ := hs.pollRecord fetch
  have hinv : t.Inv log := hs.inv.popWithAck h
  obtain ⟨polled, hpolled, rfl⟩ := Option.map_eq_some_iff.mp h
  rw [hpoll] at hpolled
  have hnothing : Steady log topic u ∧ (Redeliverable s → Redeliverable u) := by
    refine ⟨hu, fun hP tp o ho ↦ ?_⟩
    rw [hnacked] at ho
    rw [hposition]
    exact hP tp o ho
  cases fetch with
  | raised =>
    obtain rfl := Option.some.inj hpolled
    exact hnothing
  | empty =>
    obtain rfl := Option.some.inj hpolled
    exact hnothing
  | record tp offset =>
    obtain ⟨hdel, hpolled⟩ := Option.ite_none_right_eq_some.mp hpolled
    obtain rfl := Option.some.inj hpolled
    have houtline := outline_registerToken (u.deliver tp offset) u.current ⟨u.nextRecord, tp, offset⟩
    have hP : Redeliverable s → Redeliverable (u.deliver tp offset) :=
      fun hP ↦ redeliverable_deliver hu (hnothing.2 hP) hdel
    refine ⟨⟨hinv, ?_, ?_, ?_⟩, fun h ↦ (redeliverable_of_outline houtline).mpr (hP h)⟩
    · exact (congrArg Prod.fst houtline).trans_ne hu.consumer
    · exact (congrArg (fun o ↦ o.2.1) houtline).trans hu.subscribed
    · have hnacked' := congrArg (fun o ↦ o.2.2.2.2) houtline
      have hdelivered := congrArg (fun o ↦ o.2.2.2.1) houtline
      simp only [outline] at hnacked' hdelivered
      dsimp only
      rw [hnacked', hdelivered]
      exact nacked_deliver_subset hu tp offset

theorem Steady.ack (hs : Steady log topic s) {token : Token} {outcome : Outcome}
    (h : step log topic s (.ack token outcome) = some t) :
    Steady log topic t ∧ (Redeliverable t ↔ Redeliverable s) := by
  have hinv : t.Inv log := by
    refine inv_step (a := .ackToken s.current token ⟨[], [], outcome⟩) hs.inv ?_ h
    intro hret
    rw [hs.live] at hret
    cases hret
  obtain ⟨-, ⟨⟩⟩ := Option.ite_none_right_eq_some.mp h
  have houtline := outline_ackToken s s.current token outcome
  exact ⟨hs.of_outline hinv houtline, redeliverable_of_outline houtline⟩

/-- What a successful nack does in a session. -/
theorem Steady.nackToken_eq (hs : Steady log topic s) {token : Token} (hn : Nackable s token) :
    s.nackToken s.current token ⟨[], [], false⟩ =
      (s.seek token.topicPartition token.offset).finishNack s.current token := by
  have hcons : s.consumerOf s.current ≠ none := by
    rw [hs.inv.wf.consumerOf_current]
    exact hs.consumer
  have hevents : ∀ u : State, u.events [] = u := fun _ ↦ rfl
  have hlive := hs.live
  have hact : (s.seek token.topicPartition token.offset).TokenIsActive s.current token := hn.2
  have hlive' : (s.seek token.topicPartition token.offset).retiredOf s.current = false := hlive
  rw [State.nackToken, if_neg (by simp [hcons, hn.2])]
  dsimp only
  rw [hevents, if_neg (by simp [hlive, hn.2]), hevents, if_neg (by simp [hlive', hact])]

/-- A successful nack, field by field. -/
theorem Steady.finishNack_seek (hs : Steady log topic s) {token : Token}
    (hdel : token.offset ∈ s.delivered token.topicPartition) :
    let t := (s.seek token.topicPartition token.offset).finishNack s.current token
    t.consumer = s.consumer ∧ t.subscribedTopic = s.subscribedTopic ∧
      t.position = Function.update s.position token.topicPartition (some token.offset) ∧
      t.delivered = s.delivered ∧
      t.nacked = Function.update s.nacked token.topicPartition
        (insert token.offset (s.nacked token.topicPartition)) := by
  obtain ⟨p, hp, -⟩ := (hs.inv.sound token.topicPartition).assigned _ hdel
  have hp : s.position token.topicPartition = some p := hp
  have houtline := outline_setMaps (s.seek token.topicPartition token.offset) s.current
    (((s.seek token.topicPartition token.offset).mapsOf s.current).finishAttempt token)
  simp only [outline, Prod.mk.injEq] at houtline
  refine ⟨houtline.1, houtline.2.1, houtline.2.2.1.trans ?_, houtline.2.2.2.1, rfl⟩
  simp [State.seek, hp]

theorem Steady.nack (hs : Steady log topic s) {token : Token}
    (h : step log topic s (.nack token) = some t) :
    Steady log topic t ∧ (Redeliverable s → (Redeliverable t ↔ SeeksBack s (.nack token))) := by
  obtain ⟨hn, h⟩ := Option.ite_none_right_eq_some.mp h
  have hinv : t.Inv log :=
    inv_step (a := .nackToken s.current token ⟨[], [], false⟩) hs.inv trivial h
  obtain ⟨-, ⟨⟩⟩ := Option.ite_none_right_eq_some.mp h
  obtain ⟨-, hdel⟩ := hs.inv.attempt_delivered hs.live hn.1 hn.2
  rw [hs.nackToken_eq hn] at hinv ⊢
  obtain ⟨hconsumer, hsubscribed, hposition, hdelivered, hnacked⟩ := hs.finishNack_seek hdel
  refine ⟨⟨hinv, ?_, ?_, ?_⟩, fun hP ↦ ?_⟩
  · rw [hconsumer]
    exact hs.consumer
  · rw [hsubscribed]
    exact hs.subscribed
  · intro tp o ho
    rw [hnacked] at ho
    rw [hdelivered]
    by_cases htp : tp = token.topicPartition
    · subst htp
      rw [Function.update_self] at ho
      rcases Finset.mem_insert.mp ho with rfl | ho
      · exact hdel
      · exact hs.nacked _ ho
    · rw [Function.update_of_ne htp] at ho
      exact hs.nacked tp ho
  · rw [Redeliverable, hposition, hnacked]
    constructor
    · intro hall _ o ho
      obtain ⟨p, hp, hle⟩ := hall token.topicPartition o (by
        rw [Function.update_self]
        exact Finset.mem_insert_of_mem ho)
      rw [Function.update_self] at hp
      obtain rfl := Option.some.inj hp
      exact hle
    · intro hback tp o ho
      by_cases htp : tp = token.topicPartition
      · subst htp
        rw [Function.update_self] at ho ⊢
        refine ⟨token.offset, rfl, ?_⟩
        rcases Finset.mem_insert.mp ho with rfl | ho
        · exact le_rfl
        · exact hback hn o ho
      · rw [Function.update_of_ne htp] at ho ⊢
        exact hP tp o ho

/-! ## The start -/

/-- A session starts where the backend is after a connection and an empty first poll. -/
theorem run_start (log : TopicPartition → ℕ → Bool) (topic : String)
    (assignment : TopicPartition → Option ℕ) :
    (Kafka.machine log).run State.new [.event .connect,
      .popWithAck ⟨topic, .returned, [], false, [.rebalance assignment], .empty⟩] =
      some (start topic assignment) := rfl

theorem steady_start (log : TopicPartition → ℕ → Bool) (topic : String)
    (assignment : TopicPartition → Option ℕ) : Steady log topic (start topic assignment) := by
  refine ⟨?_, ?_, ?_, ?_⟩
  · have hconnect := (State.inv_new log).events [.connect]
    exact hconnect.popWithAck (p := ⟨topic, .returned, [], false, [.rebalance assignment], .empty⟩)
      rfl
  · exact Option.some_ne_none 0
  · rfl
  · exact fun tp ↦ Finset.empty_subset _

/-- **Redelivery.** In a session, in every state of a run each nacked offset that was not popped
since is at or above the fetch position exactly when every nack of the run seeks back. -/
theorem redeliverable_iff_seeksBack (log : TopicPartition → ℕ → Bool) (topic : String)
    (assignment : TopicPartition → Option ℕ) (as : List Label) :
    (machine log topic assignment).Always Redeliverable (start topic assignment) as ↔
      (machine log topic assignment).Along SeeksBack (start topic assignment) as := by
  refine Machine.always_iff_along (I := Steady log topic) ?_ ?_ (steady_start log topic assignment) ?_
  · intro s a t hs hP h
    cases a with
    | popWithAck fetch =>
      obtain ⟨ht, hkeeps⟩ := hs.popWithAck h
      exact ⟨ht, iff_of_true (hkeeps hP) trivial⟩
    | ack token outcome =>
      obtain ⟨ht, hiff⟩ := hs.ack h
      exact ⟨ht, iff_of_true (hiff.mpr hP) trivial⟩
    | nack token =>
      obtain ⟨ht, hiff⟩ := hs.nack h
      exact ⟨ht, hiff hP⟩
  · intro s a hs _ h
    cases a with
    | popWithAck fetch => trivial
    | ack token outcome => trivial
    | nack token =>
      intro hn
      simp [machine, step, hn, Kafka.step, hn.1, hs.published] at h
  · intro tp o ho
    exact absurd ho (Finset.notMem_empty o)

/-- Offsets 5, 6 and 7 are popped, 5 is nacked and then 7. -/
def nackUpwards : List Label :=
  [.popWithAck (.record ⟨"t", 0⟩ 5), .popWithAck (.record ⟨"t", 0⟩ 6),
    .popWithAck (.record ⟨"t", 0⟩ 7), .nack ⟨⟨"t", 0⟩, 5, 1, 2, 1⟩, .nack ⟨⟨"t", 0⟩, 7, 1, 2, 3⟩]

/-- The second nack moves the position to 7, and 5 is not delivered again. -/
theorem nackUpwards_passes :
    ((machine (fun _ _ ↦ true) "t" fun _ ↦ some 5).run (start "t" fun _ ↦ some 5) nackUpwards).map
      (fun s ↦ (s.nacked ⟨"t", 0⟩, s.position ⟨"t", 0⟩)) = some ({7, 5}, some 7) ∧
    ¬ ∀ (log : TopicPartition → ℕ → Bool) (topic : String)
      (assignment : TopicPartition → Option ℕ) (as : List Label) (s : State),
      (machine log topic assignment).run (start topic assignment) as = some s →
        Redeliverable s := by
  have hrun : ((machine (fun _ _ ↦ true) "t" fun _ ↦ some 5).run (start "t" fun _ ↦ some 5)
      nackUpwards).map (fun s ↦ (s.nacked ⟨"t", 0⟩, s.position ⟨"t", 0⟩)) =
      some ({7, 5}, some 7) := by decide +kernel
  refine ⟨hrun, fun h ↦ ?_⟩
  obtain ⟨s, hs, hfields⟩ := Option.map_eq_some_iff.mp hrun
  obtain ⟨hnacked, hposition⟩ := Prod.mk.inj hfields
  obtain ⟨p, hp, hle⟩ := h _ _ _ _ s hs ⟨"t", 0⟩ 5 (by rw [hnacked]; decide)
  rw [hposition] at hp
  obtain rfl := Option.some.inj hp
  exact absurd hle (by decide)

end Session

end Kafka

end ScrapyExtension
