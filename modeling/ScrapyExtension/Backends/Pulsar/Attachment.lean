import ScrapyExtension.Backends.Pulsar.Retirement

/-!
# The consumer of a live pump

What the sections of the backend leave as it is: a pump keeps its topic and its generation, a published
consumer stays with its pump, and a pump that is given up is not taken back. While a pump is in
`_receive_pumps`, the consumer of its topic is its own, or it has none yet.
-/

namespace ScrapyExtension

namespace Pulsar

namespace State

variable {s t : State} {n : ℕ} {p q : Pump} {stage : Stage} {outcome : Outcome} {start : Start}

/-! ## The worker and the threads -/

/-- What stays of a pump. -/
structure Kept (p q : Pump) : Prop where
  topic : q.topic = p.topic
  client : q.client = p.client
  generation : q.generation = p.generation
  accepting : q.accepting = true → p.accepting = true
  consumer : p.consumer = true → q.consumer = true

theorem Kept.refl (p : Pump) : Kept p p := ⟨rfl, rfl, rfl, id, id⟩

/-- What a worker and a thread leave as it is. -/
structure Steady (s t : State) (n : ℕ) : Prop where
  client : t.client = s.client
  lifecycleGeneration : t.lifecycleGeneration = s.lifecycleGeneration
  receivePumps : t.receivePumps = s.receivePumps
  count : t.count = s.count
  others : ∀ m, m ≠ n → t.pumps m = s.pumps m
  kept : Kept (s.pumps n) (t.pumps n)
  /-- The consumer of a topic is the one of a live pump, when it is published. -/
  consumers : (t.consumers = s.consumers ∧ (t.pumps n).consumer = (s.pumps n).consumer) ∨
    (s.live n = true ∧ (t.pumps n).consumer = true ∧
      t.consumers = Function.update s.consumers (s.pumps n).topic (some n))

/-- A pump is changed, and perhaps its tombstone is. -/
theorem Steady.of_pumps (registered : ℕ → Option ℕ)
    (ht : t = { s with pumps := Function.update s.pumps n q, consumerRetirements := registered })
    (hkept : Kept (s.pumps n) q) (hconsumer : q.consumer = (s.pumps n).consumer) : s.Steady t n := by
  subst ht
  refine ⟨rfl, rfl, rfl, rfl, fun m hm ↦ Function.update_of_ne hm _ _, ?_, .inl ⟨rfl, ?_⟩⟩
  · dsimp only
    rw [Function.update_self]
    exact hkept
  · dsimp only
    rw [Function.update_self]
    exact hconsumer

theorem unregister_eq (s : State) (n : ℕ) :
    ∃ registered, s.unregister n = { s with consumerRetirements := registered } := by
  unfold unregister
  split
  · exact ⟨_, rfl⟩
  · exact ⟨s.consumerRetirements, rfl⟩

theorem steady_closeStalePumpCandidate (fault : Bool) : s.Steady (s.closeStalePumpCandidate n fault start) n := by
  unfold closeStalePumpCandidate
  dsimp only
  split
  · exact .of_pumps _ rfl ⟨rfl, rfl, rfl, id, id⟩ rfl
  · exact .of_pumps s.consumerRetirements rfl ⟨rfl, rfl, rfl, id, id⟩ rfl

/-- A retirement goes on, on the worker or on its thread. -/
theorem steady_run {c : Closing} {x : Closing × State} (hx : s.runConsumerRetirement n c = some x)
    {f : Pump → Pump} (hf : ∀ p, Kept p (f p) ∧ (f p).consumer = p.consumer) :
    s.Steady (x.2.setPump n (f (x.2.pumps n))) n := by
  have hset : ∀ p : Pump, ((s.setPump n p).setPump n (f ((s.setPump n p).pumps n))) = s.setPump n (f p) := by
    intro p
    rw [setPump_self, setPump, setPump, setPump, Function.update_idem]
  cases c with
  | closing =>
    obtain rfl := Option.some.inj hx
    obtain ⟨⟨htopic, hclient, hgeneration, haccepting, hmono⟩, hconsumer⟩ := hf { s.pumps n with handle := .closed }
    dsimp only
    rw [hset]
    exact .of_pumps s.consumerRetirements rfl ⟨htopic, hclient, hgeneration, haccepting, hmono⟩
      hconsumer
  | closed =>
    obtain rfl := Option.some.inj hx
    obtain ⟨⟨htopic, hclient, hgeneration, haccepting, hmono⟩, hconsumer⟩ :=
      hf ((s.pumps n).modifyRetirement fun r ↦ { r with completed := true })
    dsimp only
    rw [hset]
    exact .of_pumps s.consumerRetirements rfl ⟨htopic, hclient, hgeneration, haccepting, hmono⟩
      hconsumer
  | completed =>
    obtain rfl := Option.some.inj hx
    obtain ⟨hkept, hconsumer⟩ := hf (s.pumps n)
    obtain ⟨registered, hregistered⟩ := s.unregister_eq n
    refine .of_pumps registered ?_ hkept hconsumer
    rw [hregistered]
    rfl
  | _ => cases hx

theorem steady_work (ht : s.work n outcome start = some t) : s.Steady t n := by
  have hgoto : ∀ stage : Stage, s.Steady (s.goto n stage) n := fun stage ↦
    .of_pumps s.consumerRetirements rfl ⟨rfl, rfl, rfl, id, id⟩ rfl
  have hrun : ∀ {c : Closing} {g : Closing → Stage},
      (s.runConsumerRetirement n c).map (fun x ↦ x.2.goto n (g x.1)) = some t → s.Steady t n := by
    intro c g hmap
    obtain ⟨x, hx, rfl⟩ := Option.map_eq_some_iff.mp hmap
    exact steady_run (f := fun p ↦ { p with stage := g x.1 }) hx fun p ↦ ⟨⟨rfl, rfl, rfl, id, id⟩, rfl⟩
  cases hstage : (s.pumps n).stage with
  | subscribing =>
    simp only [work, hstage] at ht
    split_ifs at ht <;> obtain ⟨⟩ := ht
    · exact .of_pumps s.consumerRetirements rfl ⟨rfl, rfl, rfl, id, id⟩ rfl
    · exact hgoto _
  | refused | faulted | stopping =>
    simp only [work, hstage] at ht
    obtain ⟨⟩ := ht
    exact .of_pumps s.consumerRetirements rfl ⟨rfl, rfl, rfl, id, id⟩ rfl
  | candidate =>
    simp only [work, hstage] at ht
    by_cases hfailed : outcome = .failed
    · rw [if_pos hfailed] at ht
      obtain ⟨⟩ := ht
      exact hgoto _
    rw [if_neg hfailed] at ht
    by_cases hlive : s.live n = true
    · rw [if_pos hlive] at ht
      obtain ⟨⟩ := ht
      -- The consumer is published.
      refine ⟨rfl, rfl, rfl, rfl, fun m hm ↦ setPump_of_ne hm _ _, ?_, .inr ⟨hlive, ?_, rfl⟩⟩
      · dsimp only
        rw [setPump_self]
        exact ⟨rfl, rfl, rfl, id, fun _ ↦ rfl⟩
      · dsimp only
        rw [setPump_self]
    · rw [if_neg hlive] at ht
      obtain ⟨⟩ := ht
      exact hgoto _
  | stale fault =>
    simp only [work, hstage] at ht
    obtain ⟨⟩ := ht
    exact steady_closeStalePumpCandidate fault
  | closing c fault =>
    cases c with
    | closing | closed | completed =>
      simp only [work, hstage] at ht
      exact hrun (g := fun c ↦ .closing c fault) ht
    | _ =>
      simp only [work, hstage] at ht
      obtain ⟨⟩ := ht
      exact hgoto _
  | deferred c =>
    cases c with
    | closing | closed | completed =>
      simp only [work, hstage] at ht
      exact hrun (g := .deferred) ht
    | _ =>
      simp only [work, hstage] at ht
      obtain ⟨⟩ := ht
      exact hgoto _
  | looping =>
    simp only [work, hstage] at ht
    obtain ⟨⟩ := ht
    exact hgoto _
  | receiving =>
    simp only [work, hstage] at ht
    split_ifs at ht <;> obtain ⟨⟩ := ht
    · exact hgoto _
    · exact .of_pumps s.consumerRetirements rfl ⟨rfl, rfl, rfl, id, id⟩ rfl
    · exact hgoto _
    · exact hgoto _
  | leaving =>
    simp only [work, hstage] at ht
    split at ht
    · obtain ⟨⟩ := ht
      exact hgoto _
    split at ht
    · obtain ⟨⟩ := ht
      exact hgoto _
    split at ht <;> obtain ⟨⟩ := ht
    · exact .of_pumps s.consumerRetirements rfl ⟨rfl, rfl, rfl, id, id⟩ rfl
    · exact hgoto _
  | finishing =>
    simp only [work, hstage] at ht
    obtain ⟨⟩ := ht
    exact .of_pumps s.consumerRetirements rfl ⟨rfl, rfl, rfl, id, id⟩ rfl
  | unregistering =>
    simp only [work, hstage] at ht
    obtain ⟨⟩ := ht
    obtain ⟨registered, hregistered⟩ := s.unregister_eq n
    rw [hregistered]
    exact .of_pumps registered rfl ⟨rfl, rfl, rfl, id, id⟩ rfl
  | _ =>
    simp only [work, hstage] at ht
    cases ht

theorem steady_close (ht : s.close n = some t) : s.Steady t n := by
  obtain ⟨r, -, ht⟩ := Option.bind_eq_some_iff.mp ht
  obtain ⟨c, -, ht⟩ := Option.bind_eq_some_iff.mp ht
  obtain ⟨x, hx, rfl⟩ := Option.map_eq_some_iff.mp ht
  exact steady_run (f := fun p ↦ p.modifyRetirement fun r ↦ { r with thread := some x.1 }) hx
    fun p ↦ ⟨⟨rfl, rfl, rfl, id, id⟩, rfl⟩

/-! ## All steps -/

theorem live_iff : s.live n = true ↔ (s.pumps n).accepting = true ∧ s.client = some (s.pumps n).client ∧
    s.lifecycleGeneration = (s.pumps n).generation ∧ s.receivePumps (s.pumps n).topic = some n := by
  simp [live, and_assoc]

/-- What every step leaves as it is. -/
structure Frame (s t : State) : Prop where
  count_le : s.count ≤ t.count
  kept : ∀ n, n < s.count → Kept (s.pumps n) (t.pumps n)
  /-- A pump that is given up is not taken back. -/
  live : ∀ n, n < s.count → t.live n = true → s.live n = true

/-- The consumers of the topics and their pumps. -/
structure Attachment (s : State) : Prop where
  published : ∀ topic n, s.consumers topic = some n →
    n < s.count ∧ (s.pumps n).topic = topic ∧ (s.pumps n).consumer = true
  own : ∀ n, s.receivePumps (s.pumps n).topic = some n → (s.pumps n).consumer = true →
    s.consumers (s.pumps n).topic = some n
  generation_le : ∀ n, (s.pumps n).generation ≤ s.lifecycleGeneration

theorem Attachment.new : (new).Attachment := ⟨nofun, nofun, fun _ ↦ le_rfl⟩

theorem Steady.kept_all (h : s.Steady t n) (m : ℕ) : Kept (s.pumps m) (t.pumps m) := by
  by_cases hm : m = n
  · exact hm ▸ h.kept
  · rw [h.others m hm]
    exact .refl _

theorem Steady.frame (h : s.Steady t n) : Frame s t where
  count_le := h.count.ge
  kept m _ := h.kept_all m
  live m _ hlive := by
    have hkept := h.kept_all m
    obtain ⟨haccepting, hclient, hgeneration, hattached⟩ := live_iff.mp hlive
    rw [h.client, hkept.client] at hclient
    rw [h.lifecycleGeneration, hkept.generation] at hgeneration
    rw [h.receivePumps, hkept.topic] at hattached
    exact live_iff.mpr ⟨hkept.accepting haccepting, hclient, hgeneration, hattached⟩

theorem Steady.attachment (h : s.Steady t n) (ha : s.Attachment) (hi : s.Inv) : t.Attachment := by
  have hkept := h.kept_all
  refine ⟨fun topic m hm ↦ ?_, fun m hattached hconsumer ↦ ?_, fun m ↦ ?_⟩
  · rw [h.count, (hkept m).topic]
    rcases h.consumers with ⟨hconsumers, -⟩ | ⟨hlive, hconsumer, hconsumers⟩
    · obtain ⟨hlt, htopic, hpublished⟩ := ha.published topic m (hconsumers ▸ hm)
      exact ⟨hlt, htopic, (hkept m).consumer hpublished⟩
    · rw [hconsumers] at hm
      by_cases htopic : topic = (s.pumps n).topic
      · rw [htopic, Function.update_self] at hm
        obtain rfl := Option.some.inj hm
        exact ⟨(hi.attached _ _ (live_iff.mp hlive).2.2.2).1, htopic.symm, hconsumer⟩
      · rw [Function.update_of_ne htopic] at hm
        obtain ⟨hlt, htopic', hpublished⟩ := ha.published topic m hm
        exact ⟨hlt, htopic', (hkept m).consumer hpublished⟩
  · rw [(hkept m).topic, h.receivePumps] at hattached
    rw [(hkept m).topic]
    rcases h.consumers with ⟨hconsumers, hsame⟩ | ⟨hlive, -, hconsumers⟩
    · rw [hconsumers]
      refine ha.own m hattached ?_
      by_cases hmn : m = n
      · subst hmn
        rwa [← hsame]
      · rwa [← h.others m hmn]
    · rw [hconsumers]
      by_cases htopic : (s.pumps m).topic = (s.pumps n).topic
      · -- The pump of the topic is the one that publishes.
        rw [htopic, (live_iff.mp hlive).2.2.2] at hattached
        rw [htopic, Function.update_self, hattached]
      · rw [Function.update_of_ne htopic]
        have hmn : m ≠ n := fun heq ↦ htopic (heq ▸ rfl)
        exact ha.own m hattached (h.others m hmn ▸ hconsumer)
  · rw [(hkept m).generation, h.lifecycleGeneration]
    exact ha.generation_le m

theorem frame_connect (ha : s.Attachment) : Frame s s.connect := by
  unfold connect
  split
  · exact ⟨le_rfl, fun _ _ ↦ .refl _, fun _ _ h ↦ h⟩
  · refine ⟨le_rfl, fun _ _ ↦ .refl _, fun n _ hlive ↦ ?_⟩
    -- The generation is a new one.
    have hle := ha.generation_le n
    have heq := (live_iff.mp hlive).2.2.1
    dsimp only at heq
    omega

theorem Attachment.connect (ha : s.Attachment) : s.connect.Attachment := by
  unfold State.connect
  split
  · exact ha
  · exact ⟨ha.published, ha.own, fun n ↦ (ha.generation_le n).trans (Nat.le_succ _)⟩

theorem kept_disconnect (p : Pump) (reentrant : Bool) (start : Start) : Kept p (p.disconnect reentrant start) := by
  unfold Pump.disconnect
  dsimp only
  split_ifs <;> exact ⟨rfl, rfl, rfl, nofun, id⟩

theorem kept_disconnect_all {reentrant : Option ℕ} {start : ℕ → Start} (n : ℕ) :
    Kept (s.pumps n) ((s.disconnect reentrant start).pumps n) := by
  dsimp only [disconnect]
  split
  · exact kept_disconnect ..
  · exact .refl _

theorem frame_disconnect {reentrant : Option ℕ} {start : ℕ → Start} : Frame s (s.disconnect reentrant start) where
  count_le := le_rfl
  kept n _ := kept_disconnect_all n
  live n _ hlive := by cases (live_iff.mp hlive).2.2.2

theorem Attachment.disconnect {reentrant : Option ℕ} {start : ℕ → Start} (ha : s.Attachment) :
    (s.disconnect reentrant start).Attachment where
  published _ _ := nofun
  own _ := nofun
  generation_le n := by
    rw [(kept_disconnect_all n).generation]
    exact (ha.generation_le n).trans (Nat.le_succ _)

theorem prune_eq (s : State) (topic : ℕ) :
    ∃ registered, s.prune topic = { s with consumerRetirements := registered } := by
  unfold prune
  split
  · split
    · exact ⟨_, rfl⟩
    · exact ⟨s.consumerRetirements, rfl⟩
  · exact ⟨s.consumerRetirements, rfl⟩

/-- A new pump, and the old ones. -/
theorem ensureReceivePump_cases (s : State) (topic : ℕ) (start : PumpStart) :
    (∃ registered, s.ensureReceivePump topic start = { s with consumerRetirements := registered }) ∨
      ∃ p registered receivePumps, s.ensureReceivePump topic start = { s with
        pumps := Function.update s.pumps s.count p
        count := s.count + 1
        receivePumps := receivePumps
        consumerRetirements := registered } ∧
      p.topic = topic ∧ p.generation = s.lifecycleGeneration ∧ p.consumer = false ∧ p.stage = .subscribing ∧
      (receivePumps = s.receivePumps ∨
        s.receivePumps topic = none ∧ receivePumps = Function.update s.receivePumps topic (some s.count)) := by
  obtain ⟨registered, hprune⟩ := s.prune_eq topic
  unfold ensureReceivePump
  rw [hprune]
  dsimp only
  split
  · next client hfree _ _ =>
    cases start with
    | started => exact .inr ⟨.new topic client s.lifecycleGeneration, _, _, rfl, rfl, rfl, rfl, rfl, .inr ⟨hfree, rfl⟩⟩
    | launched =>
      exact .inr ⟨{ Pump.new topic client s.lifecycleGeneration with accepting := false }.newConsumerRetirement false,
        _, _, rfl, rfl, rfl, rfl, rfl, .inl rfl⟩
    | unstarted => exact .inl ⟨_, rfl⟩
  · exact .inl ⟨_, rfl⟩

theorem frame_ensureReceivePump {topic : ℕ} {start : PumpStart} :
    Frame s (s.ensureReceivePump topic start) := by
  rcases s.ensureReceivePump_cases topic start with ⟨_, heq⟩ | ⟨p, _, receivePumps, heq, -, -, -, -, hreceive⟩
  · rw [heq]
    exact ⟨le_rfl, fun _ _ ↦ .refl _, fun _ _ h ↦ h⟩
  · rw [heq]
    have hold : ∀ n, n < s.count → Function.update s.pumps s.count p n = s.pumps n := fun n hn ↦
      Function.update_of_ne hn.ne _ _
    refine ⟨Nat.le_succ _, fun n hn ↦ ?_, fun n hn hlive ↦ ?_⟩
    · dsimp only
      rw [hold n hn]
      exact .refl _
    · obtain ⟨haccepting, hclient, hgeneration, hattached⟩ := live_iff.mp hlive
      dsimp only at haccepting hclient hgeneration hattached
      rw [hold n hn] at haccepting hclient hgeneration hattached
      refine live_iff.mpr ⟨haccepting, hclient, hgeneration, ?_⟩
      rcases hreceive with rfl | ⟨-, rfl⟩
      · exact hattached
      · by_cases htopic : (s.pumps n).topic = topic
        · rw [htopic, Function.update_self] at hattached
          exact absurd (Option.some.inj hattached) hn.ne'
        · rwa [Function.update_of_ne htopic] at hattached

theorem Attachment.ensureReceivePump (ha : s.Attachment) {topic : ℕ} {start : PumpStart} :
    (s.ensureReceivePump topic start).Attachment := by
  rcases s.ensureReceivePump_cases topic start with
    ⟨_, heq⟩ | ⟨p, _, receivePumps, heq, htopic, hgeneration, hconsumer, -, hreceive⟩
  · rw [heq]
    exact ⟨ha.published, ha.own, ha.generation_le⟩
  rw [heq]
  have hold : ∀ n, n ≠ s.count → Function.update s.pumps s.count p n = s.pumps n := fun n hn ↦
    Function.update_of_ne hn _ _
  refine ⟨fun topic' n hn ↦ ?_, fun n hattached hpublished ↦ ?_, fun n ↦ ?_⟩
  · obtain ⟨hlt, htopic', hpublished⟩ := ha.published topic' n hn
    dsimp only
    rw [hold n hlt.ne]
    exact ⟨hlt.trans (Nat.lt_succ_self _), htopic', hpublished⟩
  · dsimp only at hattached hpublished ⊢
    by_cases hn : n = s.count
    · subst hn
      rw [Function.update_self, hconsumer] at hpublished
      cases hpublished
    · rw [hold n hn] at hattached hpublished ⊢
      refine ha.own n ?_ hpublished
      rcases hreceive with rfl | ⟨-, rfl⟩
      · exact hattached
      · by_cases htopic' : (s.pumps n).topic = topic
        · rw [htopic', Function.update_self] at hattached
          exact absurd (Option.some.inj hattached).symm hn
        · rwa [Function.update_of_ne htopic'] at hattached
  · dsimp only
    by_cases hn : n = s.count
    · rw [hn, Function.update_self, hgeneration]
    · rw [hold n hn]
      exact ha.generation_le n

theorem kept_giveUp (p : Pump) (start : Start) : Kept p (p.giveUp start) := by
  unfold Pump.giveUp
  dsimp only
  split <;> exact ⟨rfl, rfl, rfl, nofun, id⟩

/-- A failed pump is given up. -/
theorem receive_cases (s : State) (n : ℕ) (start : Start) :
    s.receive n start = s ∨ s.live n = true ∧ ∃ registered, s.receive n start = { s with
      pumps := Function.update s.pumps n ((s.pumps n).giveUp start)
      receivePumps := Function.update s.receivePumps (s.pumps n).topic none
      consumers := if s.consumers (s.pumps n).topic = some n then
        Function.update s.consumers (s.pumps n).topic none else s.consumers
      consumerRetirements := registered } := by
  unfold receive
  dsimp only
  split
  · next hlive =>
    refine .inr ⟨hlive.1, ?_⟩
    split
    · exact ⟨_, rfl⟩
    · exact ⟨_, rfl⟩
  · exact .inl rfl

theorem frame_receive : Frame s (s.receive n start) := by
  rcases s.receive_cases n start with heq | ⟨-, _, heq⟩
  · rw [heq]
    exact ⟨le_rfl, fun _ _ ↦ .refl _, fun _ _ h ↦ h⟩
  rw [heq]
  have hkept : ∀ m, Kept (s.pumps m) (Function.update s.pumps n ((s.pumps n).giveUp start) m) := by
    intro m
    by_cases hm : m = n
    · rw [hm, Function.update_self]
      exact kept_giveUp ..
    · rw [Function.update_of_ne hm]
      exact .refl _
  refine ⟨le_rfl, fun m _ ↦ hkept m, fun m _ hlive ↦ ?_⟩
  obtain ⟨haccepting, hclient, hgeneration, hattached⟩ := live_iff.mp hlive
  dsimp only at haccepting hclient hgeneration hattached
  rw [(hkept m).client] at hclient
  rw [(hkept m).generation] at hgeneration
  rw [(hkept m).topic] at hattached
  refine live_iff.mpr ⟨(hkept m).accepting haccepting, hclient, hgeneration, ?_⟩
  by_cases htopic : (s.pumps m).topic = (s.pumps n).topic
  · rw [htopic, Function.update_self] at hattached
    cases hattached
  · rwa [Function.update_of_ne htopic] at hattached

theorem Attachment.receive (ha : s.Attachment) : (s.receive n start).Attachment := by
  rcases s.receive_cases n start with heq | ⟨-, _, heq⟩
  · rwa [heq]
  rw [heq]
  have hkept : ∀ m, Kept (s.pumps m) (Function.update s.pumps n ((s.pumps n).giveUp start) m) ∧
      (Function.update s.pumps n ((s.pumps n).giveUp start) m).consumer = (s.pumps m).consumer := by
    intro m
    by_cases hm : m = n
    · rw [hm, Function.update_self]
      exact ⟨kept_giveUp .., (idle_giveUp _ _).consumer⟩
    · rw [Function.update_of_ne hm]
      exact ⟨.refl _, rfl⟩
  have hconsumers : ∀ topic m, (if s.consumers (s.pumps n).topic = some n then
      Function.update s.consumers (s.pumps n).topic none else s.consumers) topic = some m →
      s.consumers topic = some m := by
    intro topic m hm
    split at hm
    · by_cases htopic : topic = (s.pumps n).topic
      · rw [htopic, Function.update_self] at hm
        cases hm
      · rwa [Function.update_of_ne htopic] at hm
    · exact hm
  refine ⟨fun topic m hm ↦ ?_, fun m hattached hpublished ↦ ?_, fun m ↦ ?_⟩
  · obtain ⟨hlt, htopic, hpublished⟩ := ha.published topic m (hconsumers topic m hm)
    exact ⟨hlt, (hkept m).1.topic.trans htopic, (hkept m).2.trans hpublished⟩
  · dsimp only at hattached hpublished ⊢
    rw [(hkept m).1.topic] at hattached ⊢
    by_cases htopic : (s.pumps m).topic = (s.pumps n).topic
    · rw [htopic, Function.update_self] at hattached
      cases hattached
    · rw [Function.update_of_ne htopic] at hattached
      have hown := ha.own m hattached ((hkept m).2 ▸ hpublished)
      split
      · rwa [Function.update_of_ne htopic]
      · exact hown
  · exact (hkept m).1.generation.trans_le (ha.generation_le m)

theorem Frame.step {a : Label} (ha : s.Attachment) (ht : s.step a = some t) : Frame s t := by
  cases a with
  | connect =>
    obtain rfl := Option.some.inj ht
    exact frame_connect ha
  | disconnect reentrant start =>
    simp only [State.step] at ht
    split at ht
    · obtain rfl := Option.some.inj ht
      exact frame_disconnect
    · cases ht
  | ensureReceivePump topic start =>
    obtain rfl := Option.some.inj ht
    exact frame_ensureReceivePump
  | receive n start =>
    obtain rfl := Option.some.inj ht
    exact frame_receive
  | work n outcome start =>
    simp only [State.step] at ht
    split at ht
    · exact (steady_work ht).frame
    · cases ht
  | close n =>
    simp only [State.step] at ht
    split at ht
    · exact (steady_close ht).frame
    · cases ht

theorem Attachment.step {a : Label} (ha : s.Attachment) (hi : s.Inv) (ht : s.step a = some t) :
    t.Attachment := by
  cases a with
  | connect =>
    obtain rfl := Option.some.inj ht
    exact ha.connect
  | disconnect reentrant start =>
    simp only [State.step] at ht
    split at ht
    · obtain rfl := Option.some.inj ht
      exact ha.disconnect
    · cases ht
  | ensureReceivePump topic start =>
    obtain rfl := Option.some.inj ht
    exact ha.ensureReceivePump
  | receive n start =>
    obtain rfl := Option.some.inj ht
    exact ha.receive
  | work n outcome start =>
    simp only [State.step] at ht
    split at ht
    · exact (steady_work ht).attachment ha hi
    · cases ht
  | close n =>
    simp only [State.step] at ht
    split at ht
    · exact (steady_close ht).attachment ha hi
    · cases ht

/-! ## Receives -/

/-- A worker comes to its `receive` from the head of its loop. -/
theorem receiving_of_work (ht : s.work n outcome start = some t) (hreceiving : (t.pumps n).stage = .receiving) :
    (s.pumps n).stage = .looping ∧ (s.pumps n).accepting = true := by
  have hgoto : ∀ {stage : Stage}, t = s.goto n stage → stage = .receiving := by
    rintro stage rfl
    unfold goto at hreceiving
    rwa [setPump_self] at hreceiving
  have hset : ∀ {q : Pump}, t = s.setPump n q → q.stage = .receiving := by
    rintro q rfl
    rwa [setPump_self] at hreceiving
  have hrun : ∀ {c : Closing} {g : Closing → Stage}, (∀ c, g c ≠ .receiving) →
      (s.runConsumerRetirement n c).map (fun x ↦ x.2.goto n (g x.1)) = some t → False := by
    intro c g hg hmap
    obtain ⟨x, -, rfl⟩ := Option.map_eq_some_iff.mp hmap
    unfold goto at hreceiving
    rw [setPump_self] at hreceiving
    exact hg _ hreceiving
  unfold work at ht
  cases hstage : (s.pumps n).stage with
  | looping =>
    refine ⟨rfl, ?_⟩
    simp only [hstage] at ht
    have heq := hgoto (Option.some.inj ht).symm
    split at heq
    · assumption
    · cases heq
  | subscribing =>
    simp only [hstage] at ht
    split at ht
    · cases hset (Option.some.inj ht).symm
    · cases hgoto (Option.some.inj ht).symm
  | refused | faulted | stopping | finishing =>
    simp only [hstage] at ht
    cases hset (Option.some.inj ht).symm
  | candidate =>
    simp only [hstage] at ht
    split at ht
    · cases hgoto (Option.some.inj ht).symm
    split at ht
    · obtain rfl := Option.some.inj ht
      rw [setPump_self] at hreceiving
      dsimp only at hreceiving
      split at hreceiving <;> cases hreceiving
    · cases hgoto (Option.some.inj ht).symm
  | stale fault =>
    simp only [hstage] at ht
    obtain rfl := Option.some.inj ht
    unfold closeStalePumpCandidate at hreceiving
    dsimp only at hreceiving
    split at hreceiving
    · rw [register_pumps, setPump_self] at hreceiving
      dsimp only at hreceiving
      split at hreceiving <;> cases hreceiving
    · rw [setPump_self] at hreceiving
      cases hreceiving
  | closing c fault =>
    cases c with
    | closing | closed | completed =>
      simp only [hstage] at ht
      exact (hrun (g := fun c ↦ .closing c fault) nofun ht).elim
    | _ =>
      simp only [hstage] at ht
      have heq := hgoto (Option.some.inj ht).symm
      split at heq <;> cases heq
  | deferred c =>
    cases c with
    | closing | closed | completed =>
      simp only [hstage] at ht
      exact (hrun (g := .deferred) nofun ht).elim
    | _ =>
      simp only [hstage] at ht
      cases hgoto (Option.some.inj ht).symm
  | receiving =>
    simp only [hstage] at ht
    split at ht
    · cases hgoto (Option.some.inj ht).symm
    split at ht
    · cases hgoto (Option.some.inj ht).symm
    split at ht
    · cases hset (Option.some.inj ht).symm
    · cases hgoto (Option.some.inj ht).symm
  | leaving =>
    simp only [hstage] at ht
    split at ht
    · cases hgoto (Option.some.inj ht).symm
    split at ht
    · cases hgoto (Option.some.inj ht).symm
    split at ht
    · cases hset (Option.some.inj ht).symm
    · cases hgoto (Option.some.inj ht).symm
  | unregistering =>
    simp only [hstage] at ht
    obtain rfl := Option.some.inj ht
    unfold goto at hreceiving
    rw [setPump_self] at hreceiving
    cases hreceiving
  | _ =>
    simp only [hstage] at ht
    cases ht

theorem receiving_of_step {a : Label} (hi : s.Inv) (ht : s.step a = some t)
    (hreceiving : (t.pumps n).stage = .receiving) : ((s.pumps n).stage = .receiving ∧
      ∀ outcome start, a ≠ .work n outcome start) ∨ ((s.pumps n).stage = .looping ∧
      (s.pumps n).accepting = true ∧ ∃ outcome start, a = .work n outcome start) := by
  have hsame : ∀ {u : State}, s.step a = some u → (u.pumps n).stage = (s.pumps n).stage →
      (∀ outcome start, a ≠ .work n outcome start) → ((s.pumps n).stage = .receiving ∧
      ∀ outcome start, a ≠ .work n outcome start) ∨ ((s.pumps n).stage = .looping ∧
      (s.pumps n).accepting = true ∧ ∃ outcome start, a = .work n outcome start) := by
    intro u hu hstage hne
    obtain rfl := Option.some.inj (ht.symm.trans hu)
    exact .inl ⟨hstage ▸ hreceiving, hne⟩
  cases a with
  | connect =>
    refine hsame rfl ?_ fun _ _ ↦ (by rintro ⟨⟩)
    unfold connect
    split <;> rfl
  | disconnect reentrant start =>
    have hu := ht
    unfold State.step at hu
    dsimp only at hu
    split at hu
    · obtain rfl := Option.some.inj hu
      refine hsame ht ?_ fun _ _ ↦ (by rintro ⟨⟩)
      dsimp only [disconnect]
      split
      · exact (idle_disconnect _ _ _).stage
      · rfl
    · cases hu
  | ensureReceivePump topic start =>
    obtain rfl := Option.some.inj ht
    rcases s.ensureReceivePump_pump topic start n with heq | ⟨-, hstage, -⟩
    · exact hsame rfl (congrArg Pump.stage heq) fun _ _ ↦ (by rintro ⟨⟩)
    · rw [hstage] at hreceiving
      cases hreceiving
  | receive m start =>
    exact hsame rfl (idle_receive s m n start).stage fun _ _ ↦ (by rintro ⟨⟩)
  | work m outcome start =>
    have hu := ht
    unfold State.step at hu
    dsimp only at hu
    split at hu
    · by_cases hmn : n = m
      · subst hmn
        obtain ⟨hlooping, haccepting⟩ := receiving_of_work hu hreceiving
        exact .inr ⟨hlooping, haccepting, outcome, start, rfl⟩
      · refine hsame ht (congrArg Pump.stage ((steady_work hu).others n hmn)) ?_
        rintro outcome' start' heq
        exact hmn (Label.work.inj heq).1.symm
    · cases hu
  | close m =>
    have hu := ht
    unfold State.step at hu
    dsimp only at hu
    split at hu
    · refine hsame ht ?_ fun _ _ ↦ (by rintro ⟨⟩)
      have hclosed := closed hi hu
      by_cases hmn : n = m
      · subst hmn
        obtain ⟨r, c, c', handle, completed, -, -, hpump, -⟩ := hclosed.pump
        rw [hpump]
      · rw [hclosed.others n hmn]
    · cases hu

end State

end Pulsar

end ScrapyExtension
