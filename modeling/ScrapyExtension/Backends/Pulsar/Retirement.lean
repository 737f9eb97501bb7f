import ScrapyExtension.Backends.Pulsar.Subscription

/-!
# Tombstones and who completes them

A tombstone keeps its topic closed until it is completed. It is completed by the thread of the retirement,
or by the worker of the pump: by closing the consumer, or at the end of a bootstrap that has produced
none.

The worker looks for a tombstone when it ends, and sets `stopped` after that. A disconnect that comes in
between finds a pump that has no consumer and is not stopped, and leaves it a tombstone that nobody will
look at again. This is the one gap; the other way to lose a tombstone is a thread that cannot be started.
-/

namespace ScrapyExtension

namespace Pulsar

/-! ## Who completes a tombstone -/

/-- The worker has not yet looked for a tombstone. -/
def Stage.looks : Stage → Bool
  | faulted | looping | receiving | leaving => true
  | _ => false

/-- How many steps a worker has to take at most. -/
def Stage.rank : Stage → ℕ
  | subscribing | receiving => 5
  | refused | candidate | faulted | looping => 4
  | stale _ | leaving => 3
  | closing .closing _ | deferred .closing => 2
  | closing .closed _ | deferred .closed | finishing => 1
  | _ => 0

/-- The worker will complete the tombstone. -/
def Pump.byWorker (p : Pump) (r : Retirement) : Bool :=
  match p.stage with
  | .subscribing | .refused | .candidate | .stale _ => !r.consumer
  | .closing c _ | .deferred c => !c.finished
  | .finishing => true
  | .faulted | .looping | .receiving | .leaving =>
    !p.accepting && (!r.consumer || (!r.worker && p.consumer))
  | _ => false

/-- How many steps a thread has to take at most. -/
def Closing.rank : Closing → ℕ
  | closing => 1
  | _ => 0

namespace Pump

/-- The worker completes the tombstone with its next `k` steps. -/
def WorkerOwes (p : Pump) (k : ℕ) : Prop :=
  p.completed = true ∨ ∃ r, p.retirement = some r ∧ p.byWorker r = true ∧ p.stage.rank < k

/-- The thread of the tombstone does. -/
def ThreadOwes (p : Pump) (k : ℕ) : Prop :=
  p.completed = true ∨ ∃ r c, p.retirement = some r ∧ r.thread = some c ∧ c.rank < k

end Pump

/-- The turns of a worker. -/
def Label.works (n : ℕ) : Label → Bool
  | .work m _ _ => m = n
  | _ => false

/-- The turns of a thread. -/
def Label.closes (n : ℕ) : Label → Bool
  | .close m => m = n
  | _ => false

namespace State

/-- A tombstone that is left to nobody. -/
def strands (s : State) (n : ℕ) (reentrant : Bool) (start : Start) : Bool :=
  let p := s.pumps n
  p.retirement.isNone && if p.consumer then !reentrant && start = .failed && !p.stage.looks
    else p.stage = .stopping

/-- No disconnect comes while a worker without a consumer is about to stop, and a thread is only missing
where the worker is still there. -/
def attentive (s : State) : Label → Bool
  | .disconnect reentrant start =>
    (List.range s.count).all fun n ↦ !s.attached n || !s.strands n (reentrant = some n) (start n)
  | .receive n start =>
    !(s.live n && (s.pumps n).failed && (s.pumps n).consumer && s.strands n false start)
  | .work n _ start =>
    match (s.pumps n).stage, (s.pumps n).retirement with
    | .stale _, .none => start ≠ .failed
    | _, _ => true
  | _ => true

variable {s t : State} {n : ℕ} {p : Pump} {r : Retirement} {outcome : Outcome} {start : Start}

/-! ## The worker -/

@[simp] theorem setPump_goto (s : State) (n : ℕ) (p : Pump) (stage : Stage) :
    (s.setPump n p).goto n stage = s.setPump n { p with stage } := by
  rw [goto, setPump_self]
  simp [setPump]

@[simp] theorem unregister_pumps (s : State) (n : ℕ) : (s.unregister n).pumps = s.pumps := by
  rw [unregister]
  split_ifs <;> rfl

@[simp] theorem register_pumps (s : State) (n : ℕ) : (s.register n).pumps = s.pumps := rfl

theorem not_live (h : (s.pumps n).accepting = false) : s.live n = false := by
  simp [live, h]

/-- What is left to a worker gets done: each of its steps brings it closer. -/
theorem Inv.attends (h : s.Inv) (hr : (s.pumps n).retirement = some r)
    (hworker : (s.pumps n).byWorker r = true) (outcome : Outcome) (start : Start) :
    ∃ t, s.work n outcome start = some t ∧ (t.pumps n).WorkerOwes (s.pumps n).stage.rank := by
  have hok := h.pump n
  have hset : ∀ {q : Pump}, s.work n outcome start = some (s.setPump n q) →
      q.WorkerOwes (s.pumps n).stage.rank →
      ∃ t, s.work n outcome start = some t ∧ (t.pumps n).WorkerOwes (s.pumps n).stage.rank := by
    intro q hwork howes
    refine ⟨s.setPump n q, hwork, ?_⟩
    rwa [setPump_self]
  -- a step that leaves the tombstone alone
  have hgoto : ∀ {stage : Stage}, s.work n outcome start = some (s.goto n stage) →
      ({ s.pumps n with stage } : Pump).byWorker r = true → stage.rank < (s.pumps n).stage.rank →
      ∃ t, s.work n outcome start = some t ∧ (t.pumps n).WorkerOwes (s.pumps n).stage.rank :=
    fun hwork hby hrank ↦ hset hwork (.inr ⟨r, hr, hby, hrank⟩)
  have hcompleted : ((s.pumps n).modifyRetirement fun r ↦ { r with completed := true }).completed =
      true := by
    simp [Pump.completed, Pump.modifyRetirement, hr]
  cases hstage : (s.pumps n).stage with
  | subscribing =>
    rw [hstage] at hset hgoto
    have hempty : r.consumer = false := by simpa [Pump.byWorker, hstage] using hworker
    by_cases ho : outcome = .ok
    · exact hset (q := { s.pumps n with handle := .opened, stage := .candidate })
        (by simp only [State.work, hstage, if_pos ho])
        (.inr ⟨r, hr, by simp [Pump.byWorker, hempty], by simp [Stage.rank]⟩)
    · have hwork : s.work n outcome start = some (s.goto n .refused) := by
        simp only [State.work, hstage, if_neg ho]
      exact hgoto hwork (by simp [Pump.byWorker, hempty]) (by simp [Stage.rank])
  | refused =>
    rw [hstage] at hset
    have hempty : r.consumer = false := by simpa [Pump.byWorker, hstage] using hworker
    have haccepting := (hok.empty r hr hempty).2
    exact hset (q := { s.pumps n with failed := (s.pumps n).failed || s.live n, stage := .leaving })
      (by simp only [State.work, hstage])
      (.inr ⟨r, hr, by simp [Pump.byWorker, hempty, haccepting], by simp [Stage.rank]⟩)
  | candidate =>
    rw [hstage] at hgoto
    have hempty : r.consumer = false := by simpa [Pump.byWorker, hstage] using hworker
    have hlive := not_live (hok.empty r hr hempty).2
    -- a pump with a tombstone does not publish
    obtain ⟨fault, hwork⟩ : ∃ fault, s.work n outcome start = some (s.goto n (.stale fault)) := by
      cases outcome with
      | ok => exact ⟨false, by simp [State.work, hstage, hlive]⟩
      | failed => exact ⟨true, by simp [State.work, hstage]⟩
      | other => exact ⟨true, by simp [State.work, hstage, hlive]⟩
    exact hgoto hwork (by simp [Pump.byWorker, hempty]) (by simp [Stage.rank])
  | stale fault =>
    rw [hstage] at hset
    have hattached : ((s.pumps n).modifyRetirement fun r ↦
        { r with consumer := true, worker := true }).retirement =
        some { r with consumer := true, worker := true } := by
      simp [Pump.modifyRetirement, hr]
    exact hset (q := { (s.pumps n).modifyRetirement fun r ↦ { r with consumer := true, worker := true } with
        stage := .closing .closing fault })
      (by simp [State.work, hstage, State.closeStalePumpCandidate, hr])
      (.inr ⟨_, hattached, by simp [Pump.byWorker, Closing.finished], by simp [Stage.rank]⟩)
  | closing c fault =>
    rw [hstage] at hset
    cases c with
    | closing =>
      exact hset (q := { s.pumps n with handle := .closed, stage := .closing .closed fault })
        (by simp only [State.work, hstage, runConsumerRetirement, Option.map_some, setPump_goto])
        (.inr ⟨r, hr, by simp [Pump.byWorker, Closing.finished], by simp [Stage.rank]⟩)
    | closed =>
      exact hset (q := { (s.pumps n).modifyRetirement fun r ↦ { r with completed := true } with
          stage := .closing .completed fault })
        (by simp only [State.work, hstage, runConsumerRetirement, Option.map_some, setPump_goto])
        (.inl hcompleted)
    | _ => simp [Pump.byWorker, hstage, Closing.finished] at hworker
  | faulted =>
    rw [hstage] at hset
    exact hset (q := { s.pumps n with
        failed := (s.pumps n).failed || (s.pumps n).accepting, stage := .leaving })
      (by simp only [State.work, hstage])
      (.inr ⟨r, hr, by simpa [Pump.byWorker, hstage] using hworker, by simp [Stage.rank]⟩)
  | looping =>
    rw [hstage] at hgoto
    have haccepting : (s.pumps n).accepting = false := by
      simp only [Pump.byWorker, hstage, Bool.and_eq_true, Bool.not_eq_true'] at hworker
      exact hworker.1
    have hwork : s.work n outcome start = some (s.goto n .leaving) := by
      simp [State.work, hstage, haccepting]
    exact hgoto hwork (by simpa [Pump.byWorker, hstage] using hworker) (by simp [Stage.rank])
  | receiving =>
    rw [hstage] at hgoto
    have haccepting : (s.pumps n).accepting = false := by
      simp only [Pump.byWorker, hstage, Bool.and_eq_true, Bool.not_eq_true'] at hworker
      exact hworker.1
    have hlive := not_live haccepting
    by_cases ho : outcome = .other
    · have hwork : s.work n outcome start = some (s.goto n .looping) := by
        simp [State.work, hstage, ho]
      exact hgoto hwork (by simpa [Pump.byWorker, hstage] using hworker) (by simp [Stage.rank])
    · have hwork : s.work n outcome start = some (s.goto n .leaving) := by
        simp [State.work, hstage, ho, hlive]
      exact hgoto hwork (by simpa [Pump.byWorker, hstage] using hworker) (by simp [Stage.rank])
  | leaving =>
    rw [hstage] at hset hgoto
    simp only [Pump.byWorker, hstage, Bool.and_eq_true, Bool.or_eq_true, Bool.not_eq_true'] at hworker
    by_cases hempty : r.consumer = false
    · have hwork : s.work n outcome start = some (s.goto n .finishing) := by
        simp [State.work, hstage, hr, hempty]
      exact hgoto hwork rfl (by simp [Stage.rank])
    · obtain ⟨hworker', hconsumer⟩ := hworker.2.resolve_left hempty
      have hfull : r.consumer = true := by simpa using hempty
      have hdeferred : ((s.pumps n).modifyRetirement fun r ↦ { r with worker := true }).retirement =
          some { r with worker := true } := by
        simp [Pump.modifyRetirement, hr]
      exact hset (q := { (s.pumps n).modifyRetirement fun r ↦ { r with worker := true } with
          stage := .deferred .closing })
        (by simp [State.work, hstage, hr, hfull, hworker', hconsumer])
        (.inr ⟨_, hdeferred, by simp [Pump.byWorker, Closing.finished], by simp [Stage.rank]⟩)
  | finishing =>
    rw [hstage] at hset
    exact hset (q := { (s.pumps n).modifyRetirement fun r ↦ { r with completed := true } with
        stage := .unregistering }) (by simp only [State.work, hstage]) (.inl hcompleted)
  | deferred c =>
    rw [hstage] at hset
    cases c with
    | closing =>
      exact hset (q := { s.pumps n with handle := .closed, stage := .deferred .closed })
        (by simp only [State.work, hstage, runConsumerRetirement, Option.map_some, setPump_goto])
        (.inr ⟨r, hr, by simp [Pump.byWorker, Closing.finished], by simp [Stage.rank]⟩)
    | closed =>
      exact hset (q := { (s.pumps n).modifyRetirement fun r ↦ { r with completed := true } with
          stage := .deferred .completed })
        (by simp only [State.work, hstage, runConsumerRetirement, Option.map_some, setPump_goto])
        (.inl hcompleted)
    | _ => simp [Pump.byWorker, hstage, Closing.finished] at hworker
  | _ => simp [Pump.byWorker, hstage] at hworker

/-! ## The other steps -/

/-- What the steps of others do to a pump. -/
structure Idle (p q : Pump) : Prop where
  stage : q.stage = p.stage
  consumer : q.consumer = p.consumer
  accepting : q.accepting = true → p.accepting = true
  stopped : q.stopped = p.stopped
  retirement : p.retirement.isSome = true → q.retirement = p.retirement

theorem Idle.refl (p : Pump) : Idle p p := ⟨rfl, rfl, id, rfl, fun _ ↦ rfl⟩

theorem Idle.byWorker {q : Pump} (h : Idle p q) (hworker : p.byWorker r = true) :
    q.byWorker r = true := by
  rw [Pump.byWorker] at hworker ⊢
  rw [h.stage, h.consumer]
  cases hq : q.accepting with
  | false => cases hs : p.stage <;> simp_all
  | true => simpa [h.accepting hq] using hworker

theorem idle_disconnect (p : Pump) (reentrant : Bool) (start : Start) :
    Idle p (p.disconnect reentrant start) := by
  unfold Pump.disconnect
  dsimp only
  split_ifs with hsome
  · exact ⟨rfl, rfl, nofun, rfl, fun _ ↦ rfl⟩
  all_goals exact ⟨rfl, rfl, nofun, rfl, fun hs ↦ absurd hs hsome⟩

theorem idle_giveUp (p : Pump) (start : Start) : Idle p (p.giveUp start) := by
  unfold Pump.giveUp
  dsimp only
  split_ifs with hnew
  · refine ⟨rfl, rfl, nofun, rfl, fun hs ↦ ?_⟩
    rw [Option.isSome_iff_ne_none] at hs
    exact absurd (Option.isNone_iff_eq_none.1 hnew.2) hs
  · exact ⟨rfl, rfl, nofun, rfl, fun _ ↦ rfl⟩

@[simp] theorem prune_pumps (s : State) (topic : ℕ) : (s.prune topic).pumps = s.pumps := by
  unfold prune
  split
  · split_ifs <;> rfl
  · rfl

@[simp] theorem prune_count (s : State) (topic : ℕ) : (s.prune topic).count = s.count := by
  unfold prune
  split
  · split_ifs <;> rfl
  · rfl

theorem ensureReceivePump_pump (s : State) (topic : ℕ) (start : PumpStart) (n : ℕ) :
    (s.ensureReceivePump topic start).pumps n = s.pumps n ∨
      (s.count ≤ n ∧ ((s.ensureReceivePump topic start).pumps n).stage = .subscribing ∧
        ∀ r, ((s.ensureReceivePump topic start).pumps n).retirement = some r → r.consumer = false) := by
  have hcount := (prune_count s topic).symm
  rw [ensureReceivePump]
  dsimp only
  split
  · rcases eq_or_ne n (s.prune topic).count with rfl | hne
    · cases start with
      | started =>
        refine .inr ⟨hcount.le, ?_, ?_⟩ <;> simp [Pump.new]
      | launched =>
        refine .inr ⟨hcount.le, ?_, ?_⟩
        · simp [Pump.new, Pump.newConsumerRetirement]
        · intro r hr
          simp only [register_pumps, setPump_self] at hr
          obtain rfl := Option.some.inj hr
          rfl
      | unstarted => exact .inl (by rw [prune_pumps])
    · cases start with
      | started => exact .inl ((setPump_of_ne hne _ _).trans (by rw [prune_pumps]))
      | launched => exact .inl ((setPump_of_ne hne _ _).trans (by rw [prune_pumps]))
      | unstarted => exact .inl (by rw [prune_pumps])
  · exact .inl (by rw [prune_pumps])

theorem idle_receive (s : State) (m n : ℕ) (start : Start) :
    Idle (s.pumps n) ((s.receive m start).pumps n) := by
  rw [receive]
  dsimp only
  by_cases hlive : s.live m = true ∧ (s.pumps m).failed = true
  · rw [if_pos hlive]
    have hset : Idle (s.pumps n) ((s.setPump m ((s.pumps m).giveUp start)).pumps n) := by
      rcases eq_or_ne n m with rfl | hne
      · rw [setPump_self]
        exact idle_giveUp _ _
      · rw [setPump_of_ne hne]
        exact .refl _
    split_ifs <;> exact hset
  · rw [if_neg hlive]
    exact .refl _


/-- What a step of a worker does. -/
structure Worked (s t : State) (n : ℕ) (start : Start) : Prop where
  others : ∀ m, m ≠ n → t.pumps m = s.pumps m
  retirement : ∀ r, (s.pumps n).retirement = some r → ∃ r', (t.pumps n).retirement = some r' ∧
    r'.thread = r.thread ∧ (r.completed = true → r'.completed = true)
  /-- The tombstone of a candidate that comes too late. -/
  started : (s.pumps n).retirement = .none → ∀ r, (t.pumps n).retirement = some r →
    (∃ fault, (s.pumps n).stage = .stale fault) ∧
      (start ≠ .failed → r.thread = some .closing)
  stopped : (t.pumps n).stage = .over → (t.pumps n).stopped = true

theorem Worked.of_map {q : Pump} {f : Retirement → Retirement} (hpumps : t.pumps = (s.setPump n q).pumps)
    (hstopped : q.stage = .over → q.stopped = true) (hq : q.retirement = (s.pumps n).retirement.map f)
    (hthread : ∀ r, (f r).thread = r.thread)
    (hcompleted : ∀ r, r.completed = true → (f r).completed = true) : s.Worked t n start := by
  refine ⟨fun m hm ↦ ?_, fun r hr ↦ ⟨f r, ?_, hthread r, hcompleted r⟩, fun hnone r hr ↦ ?_, ?_⟩
  · rw [hpumps, setPump_of_ne hm]
  · rw [hpumps, setPump_self, hq, hr]
    rfl
  · rw [hpumps, setPump_self, hq, hnone] at hr
    cases hr
  · rwa [hpumps, setPump_self]

theorem Worked.of_eq {q : Pump} (hpumps : t.pumps = (s.setPump n q).pumps)
    (hstopped : q.stage = .over → q.stopped = true) (hq : q.retirement = (s.pumps n).retirement) :
    s.Worked t n start :=
  .of_map (f := id) hpumps hstopped (by rw [hq, Option.map_id]; rfl) (fun _ ↦ rfl) fun _ ↦ id

theorem worked_closeStalePumpCandidate {fault : Bool} (hstage : (s.pumps n).stage = .stale fault) :
    s.Worked (s.closeStalePumpCandidate n fault start) n start := by
  unfold closeStalePumpCandidate
  cases hr : (s.pumps n).retirement with
  | none =>
    simp only [hr]
    refine ⟨fun m hm ↦ setPump_of_ne hm _ _, fun r hr' ↦ ?_, fun _ r hr' ↦ ⟨⟨fault, hstage⟩, fun hs ↦ ?_⟩, ?_⟩
    · rw [hr] at hr'
      cases hr'
    · rw [register_pumps, setPump_self] at hr'
      obtain rfl := Option.some.inj hr'
      simp [hs]
    · rw [register_pumps, setPump_self]
      cases fault <;> exact nofun
  | some r =>
    simp only [hr]
    exact .of_map rfl nofun rfl (fun _ ↦ rfl) fun _ ↦ id

theorem worked_run {c : Closing} {g : Closing → Stage} (hg : ∀ c, g c ≠ .over)
    (ht : (s.runConsumerRetirement n c).map (fun x ↦ x.2.goto n (g x.1)) = some t) :
    s.Worked t n start := by
  cases c with
  | closing =>
    simp only [runConsumerRetirement, Option.map_some, setPump_goto] at ht
    obtain ⟨⟩ := ht
    exact .of_eq rfl (fun h ↦ absurd h (hg _)) rfl
  | closed =>
    simp only [runConsumerRetirement, Option.map_some, setPump_goto] at ht
    obtain ⟨⟩ := ht
    exact .of_map rfl (fun h ↦ absurd h (hg _)) rfl (fun _ ↦ rfl) fun _ _ ↦ rfl
  | completed =>
    simp only [runConsumerRetirement, Option.map_some] at ht
    obtain ⟨⟩ := ht
    refine .of_eq (q := { s.pumps n with stage := g .over }) ?_ (fun h ↦ absurd h (hg _)) rfl
    rw [goto, setPump, unregister_pumps]
    rfl
  | _ => cases ht

theorem worked (ht : s.work n outcome start = some t) : s.Worked t n start := by
  unfold work at ht
  cases hstage : (s.pumps n).stage with
  | refused | faulted =>
    simp only [hstage] at ht
    obtain ⟨⟩ := ht
    exact .of_eq rfl nofun rfl
  | looping =>
    simp only [hstage] at ht
    obtain ⟨⟩ := ht
    split_ifs <;> exact .of_eq rfl nofun rfl
  | stopping =>
    simp only [hstage] at ht
    obtain ⟨⟩ := ht
    exact .of_eq rfl (fun _ ↦ rfl) rfl
  | subscribing | candidate | receiving =>
    simp only [hstage] at ht
    split_ifs at ht <;> obtain ⟨⟩ := ht <;> exact .of_eq rfl nofun rfl
  | stale fault =>
    simp only [hstage] at ht
    obtain ⟨⟩ := ht
    exact worked_closeStalePumpCandidate hstage
  | closing c fault =>
    cases c with
    | closing | closed | completed =>
      simp only [hstage] at ht
      exact worked_run (g := fun c ↦ .closing c fault) nofun ht
    | _ =>
      simp only [hstage] at ht
      obtain ⟨⟩ := ht
      cases fault <;> exact .of_eq rfl nofun rfl
  | deferred c =>
    cases c with
    | closing | closed | completed =>
      simp only [hstage] at ht
      exact worked_run (g := .deferred) nofun ht
    | _ =>
      simp only [hstage] at ht
      obtain ⟨⟩ := ht
      exact .of_eq rfl nofun rfl
  | leaving =>
    simp only [hstage] at ht
    split at ht
    · obtain ⟨⟩ := ht
      exact .of_eq rfl nofun rfl
    · split_ifs at ht <;> obtain ⟨⟩ := ht
      · exact .of_map rfl nofun rfl (fun _ ↦ rfl) fun _ ↦ id
      · exact .of_eq rfl nofun rfl
      · exact .of_eq rfl nofun rfl
  | finishing =>
    simp only [hstage] at ht
    obtain ⟨⟩ := ht
    exact .of_map rfl nofun rfl (fun _ ↦ rfl) fun _ _ ↦ rfl
  | unregistering =>
    simp only [hstage] at ht
    obtain ⟨⟩ := ht
    refine .of_eq (q := { s.pumps n with stage := .stopping }) ?_ nofun rfl
    rw [goto, setPump, unregister_pumps]
    rfl
  | _ =>
    simp only [hstage] at ht
    cases ht

/-- What a step of a thread does. -/
structure Closed (s t : State) (n : ℕ) : Prop where
  others : ∀ m, m ≠ n → t.pumps m = s.pumps m
  pump : ∃ r c c' handle completed, (s.pumps n).retirement = some r ∧ r.thread = some c ∧
    t.pumps n = { s.pumps n with handle, retirement := some { r with completed, thread := some c' } } ∧
    (r.completed = true → completed = true) ∧ (completed = true ∨ c'.rank < c.rank)

theorem closed (h : s.Inv) (ht : s.close n = some t) : s.Closed t n := by
  obtain ⟨r, hr, ht⟩ := Option.bind_eq_some_iff.1 ht
  obtain ⟨c, hc, ht⟩ := Option.bind_eq_some_iff.1 ht
  obtain ⟨⟨c', u⟩, hrun, rfl⟩ := Option.map_eq_some_iff.1 ht
  cases c with
  | closing =>
    obtain ⟨⟩ := hrun
    refine ⟨fun m hm ↦ ?_, r, .closing, .closed, .closed, r.completed, hr, hc, ?_, id, .inr Nat.one_pos⟩
    · rw [setPump_of_ne hm, setPump_of_ne hm]
    · simp [Pump.modifyRetirement, hr]
  | closed =>
    obtain ⟨⟩ := hrun
    refine ⟨fun m hm ↦ ?_, r, .closed, .completed, (s.pumps n).handle, true, hr, hc, ?_, fun _ ↦ rfl, .inl rfl⟩
    · rw [setPump_of_ne hm, setPump_of_ne hm]
    · simp [Pump.modifyRetirement, hr]
  | completed =>
    obtain ⟨⟩ := hrun
    have hcompleted := (h.pump n).threadFinished r hr (by rw [hc]; rfl)
    refine ⟨fun m hm ↦ ?_, r, .completed, .over, (s.pumps n).handle, true, hr, hc, ?_, fun _ ↦ rfl, .inl rfl⟩
    · rw [setPump_of_ne hm, unregister_pumps]
    · simp [Pump.modifyRetirement, hr, hcompleted]
  | _ => cases hrun


/-! ## Whatever comes in between -/

theorem Inv.lt_of_retirement (h : s.Inv) (hr : (s.pumps n).retirement = some r) : n < s.count := by
  refine h.lt fun hnone ↦ ?_
  rw [hnone] at hr
  cases hr

theorem Inv.lt_of_completed (h : s.Inv) (hc : (s.pumps n).completed = true) : n < s.count := by
  obtain ⟨r, hr, -⟩ := (Option.any_eq_true _ _).1 hc
  exact h.lt_of_retirement hr

/-- The step of neither the worker nor the thread. -/
theorem Inv.idle {a : Label} (hw : a.works n = false) (hc : a.closes n = false) (h : s.Inv)
    (ht : s.step a = some t) :
    (s.count ≤ n ∧ (t.pumps n).stage = .subscribing) ∨ Idle (s.pumps n) (t.pumps n) := by
  cases a with
  | connect =>
    obtain ⟨⟩ := ht
    rw [State.connect]
    split
    · exact .inr (.refl _)
    · exact .inr (.refl _)
  | disconnect reentrant start =>
    obtain ⟨-, ⟨⟩⟩ := Option.ite_none_right_eq_some.1 ht
    rw [State.disconnect]
    dsimp only
    split_ifs
    · exact .inr (idle_disconnect _ _ _)
    · exact .inr (.refl _)
  | ensureReceivePump topic start =>
    obtain ⟨⟩ := ht
    rcases ensureReceivePump_pump s topic start n with heq | ⟨hge, hstage, -⟩
    · rw [heq]
      exact .inr (.refl _)
    · exact .inl ⟨hge, hstage⟩
  | receive m start =>
    obtain ⟨⟩ := ht
    exact .inr (idle_receive s m n start)
  | work m outcome start =>
    obtain ⟨-, ht⟩ := Option.ite_none_right_eq_some.1 ht
    have hne : n ≠ m := fun h ↦ by simp [Label.works, h] at hw
    rw [(worked ht).others n hne]
    exact .inr (.refl _)
  | close m =>
    obtain ⟨-, ht⟩ := Option.ite_none_right_eq_some.1 ht
    have hne : n ≠ m := fun h ↦ by simp [Label.closes, h] at hc
    rw [(closed h ht).others n hne]
    exact .inr (.refl _)

theorem Idle.completed {q : Pump} (h : Idle p q) (hc : p.completed = true) : q.completed = true := by
  obtain ⟨r, hr, -⟩ := (Option.any_eq_true _ _).1 hc
  rw [Pump.completed, h.retirement (by rw [hr]; rfl)]
  exact hc

theorem Worked.completed (h : s.Worked t n start) (hc : (s.pumps n).completed = true) :
    (t.pumps n).completed = true := by
  obtain ⟨r, hr, hcompleted⟩ := (Option.any_eq_true _ _).1 hc
  obtain ⟨r', hr', -, hmono⟩ := h.retirement r hr
  rw [Pump.completed, hr']
  exact hmono hcompleted

theorem Closed.completed (h : s.Closed t n) (hc : (s.pumps n).completed = true) :
    (t.pumps n).completed = true := by
  obtain ⟨r, c, c', handle, completed, hr, -, hp, hmono, -⟩ := h.pump
  rw [Pump.completed, hr] at hc
  rw [Pump.completed, hp]
  exact hmono hc

/-- A label is one of the worker, one of the thread, or another one. -/
theorem Inv.step_cases {a : Label} (h : s.Inv) (hn : n < s.count) (ht : s.step a = some t) :
    (∃ outcome start, a = .work n outcome start ∧ s.work n outcome start = some t) ∨
    (a = .close n ∧ s.close n = some t) ∨
    (a.works n = false ∧ a.closes n = false ∧ Idle (s.pumps n) (t.pumps n)) := by
  by_cases hw : a.works n = true
  · cases a with
    | work m outcome start =>
      obtain rfl : m = n := by simpa [Label.works] using hw
      exact .inl ⟨outcome, start, rfl, (Option.ite_none_right_eq_some.1 ht).2⟩
    | _ => cases hw
  by_cases hc : a.closes n = true
  · cases a with
    | close m =>
      obtain rfl : m = n := by simpa [Label.closes] using hc
      exact .inr (.inl ⟨rfl, (Option.ite_none_right_eq_some.1 ht).2⟩)
    | _ => cases hc
  · have hw' : a.works n = false := by simpa using hw
    have hc' : a.closes n = false := by simpa using hc
    refine .inr (.inr ⟨hw', hc', (h.idle hw' hc' ht).resolve_left fun hge ↦ ?_⟩)
    exact absurd hn hge.1.not_gt

theorem Inv.completed {a : Label} (h : s.Inv) (hc : (s.pumps n).completed = true)
    (ht : s.step a = some t) : (t.pumps n).completed = true := by
  obtain ⟨outcome, start, rfl, hwork⟩ | ⟨rfl, hclose⟩ | ⟨-, -, hidle⟩ := h.step_cases (h.lt_of_completed hc) ht
  · exact (worked hwork).completed hc
  · exact (closed h hclose).completed hc
  · exact hidle.completed hc

theorem Inv.workerOwes {a : Label} {k : ℕ} (h : s.Inv) (howes : (s.pumps n).WorkerOwes k)
    (ht : s.step a = some t) : (t.pumps n).WorkerOwes (if a.works n then k - 1 else k) := by
  obtain hc | ⟨r, hr, hworker, hrank⟩ := howes
  · exact .inl (h.completed hc ht)
  obtain ⟨outcome, start, rfl, hwork⟩ | ⟨rfl, hclose⟩ | ⟨hw, -, hidle⟩ :=
    h.step_cases (h.lt_of_retirement hr) ht
  · obtain ⟨u, hu, howes⟩ := h.attends hr hworker outcome start
    obtain rfl := Option.some.inj (hwork.symm.trans hu)
    have hturn : (Label.work n outcome start).works n = true := by simp [Label.works]
    rw [if_pos hturn]
    refine howes.imp_right fun ⟨r', hr', hworker', hrank'⟩ ↦ ⟨r', hr', hworker', ?_⟩
    omega
  · obtain ⟨r', c, c', handle, completed, hr', -, hp, -⟩ := (closed h hclose).pump
    obtain rfl := Option.some.inj (hr.symm.trans hr')
    have hstage : (t.pumps n).stage = (s.pumps n).stage := by rw [hp]
    refine .inr ⟨{ r with completed, thread := some c' }, by rw [hp], ?_, by rw [hstage]; exact hrank⟩
    rw [Pump.byWorker] at hworker ⊢
    rw [hp]
    exact hworker
  · rw [hw]
    refine .inr ⟨r, ?_, hidle.byWorker hworker, by rw [hidle.stage]; exact hrank⟩
    rw [hidle.retirement (by rw [hr]; rfl), hr]

theorem Inv.threadOwes {a : Label} {k : ℕ} (h : s.Inv) (howes : (s.pumps n).ThreadOwes k)
    (ht : s.step a = some t) : (t.pumps n).ThreadOwes (if a.closes n then k - 1 else k) := by
  obtain hc | ⟨r, c, hr, hthread, hrank⟩ := howes
  · exact .inl (h.completed hc ht)
  obtain ⟨outcome, start, rfl, hwork⟩ | ⟨rfl, hclose⟩ | ⟨-, hc, hidle⟩ :=
    h.step_cases (h.lt_of_retirement hr) ht
  · obtain ⟨r', hr', hkept, -⟩ := (worked hwork).retirement r hr
    exact .inr ⟨r', c, hr', hkept.trans hthread, hrank⟩
  · obtain ⟨r', c₁, c', handle, completed, hr', hc₁, hp, -, hnext⟩ := (closed h hclose).pump
    obtain rfl := Option.some.inj (hr.symm.trans hr')
    obtain rfl := Option.some.inj (hthread.symm.trans hc₁)
    have hturn : (Label.close n).closes n = true := by simp [Label.closes]
    rw [if_pos hturn]
    rcases hnext with hnext | hnext
    · refine .inl ?_
      rw [Pump.completed, hp]
      exact hnext
    · exact .inr ⟨{ r with completed, thread := some c' }, c', by rw [hp], rfl, by omega⟩
  · rw [hc]
    refine .inr ⟨r, c, ?_, hthread, hrank⟩
    rw [hidle.retirement (by rw [hr]; rfl), hr]

/-- The worker completes its tombstone. -/
theorem Inv.within_worker {k : ℕ} (h : s.Inv) (howes : (s.pumps n).WorkerOwes k) :
    machine.Within (Label.works n) (fun s ↦ (s.pumps n).completed = true) k s := by
  have hstart : s.Inv ∧ (s.pumps n).WorkerOwes k := ⟨h, howes⟩
  refine Machine.Within.of_countdown (I := fun k s ↦ s.Inv ∧ (s.pumps n).WorkerOwes k)
    (fun k s a t hs ht ↦ ⟨hs.1.step ht, hs.1.workerOwes hs.2 ht⟩) (fun k s hs ↦ ?_) (fun s hs ↦ ?_) hstart
  · refine hs.2.imp_right fun ⟨r, hr, hworker, _⟩ a ha ↦ ?_
    cases a with
    | work m outcome start =>
      obtain rfl : m = n := by simpa [Label.works] using ha
      obtain ⟨t, ht, -⟩ := hs.1.attends hr hworker outcome start
      have hstep : machine.step s (.work m outcome start) = some t :=
        (if_pos (hs.1.lt_of_retirement hr)).trans ht
      rw [hstep]
      rfl
    | _ => cases ha
  · exact hs.2.resolve_right fun ⟨_, _, _, hlt⟩ ↦ Nat.not_lt_zero _ hlt

/-- The thread completes its tombstone. -/
theorem Inv.within_thread {k : ℕ} (h : s.Inv) (howes : (s.pumps n).ThreadOwes k) :
    machine.Within (Label.closes n) (fun s ↦ (s.pumps n).completed = true) k s := by
  have hstart : s.Inv ∧ (s.pumps n).ThreadOwes k := ⟨h, howes⟩
  refine Machine.Within.of_countdown (I := fun k s ↦ s.Inv ∧ (s.pumps n).ThreadOwes k)
    (fun k s a t hs ht ↦ ⟨hs.1.step ht, hs.1.threadOwes hs.2 ht⟩) (fun k s hs ↦ ?_) (fun s hs ↦ ?_) hstart
  · rcases hs.2 with hc | ⟨r, c, hr, hthread, -⟩
    · exact .inl hc
    cases c with
    | closing | closed =>
      refine .inr fun a ha ↦ ?_
      cases a with
      | close m =>
        obtain rfl : m = n := by simpa [Label.closes] using ha
        have hlt := hs.1.lt_of_retirement hr
        simp [machine, State.step, hlt, State.close, hr, hthread, runConsumerRetirement]
      | _ => cases ha
    | _ =>
      refine .inl ?_
      rw [Pump.completed, hr]
      exact (hs.1.pump n).threadFinished r hr (by rw [hthread]; rfl)
  · refine hs.2.resolve_right ?_
    rintro ⟨_, _, _, _, hlt⟩
    exact Nat.not_lt_zero _ hlt

/-! ## New tombstones -/

theorem rank_lt (stage : Stage) : stage.rank < 6 := by
  cases stage with
  | closing c fault => cases c <;> simp [Stage.rank]
  | deferred c => cases c <;> simp [Stage.rank]
  | _ => simp [Stage.rank]

/-- The tombstone of the pump is left to somebody. -/
def Owed (p : Pump) : Prop := p.WorkerOwes 6 ∨ p.ThreadOwes 2

theorem Owed.of_worker (hr : p.retirement = some r) (hworker : p.byWorker r = true) : Owed p :=
  .inl (.inr ⟨r, hr, hworker, rank_lt _⟩)

theorem Owed.of_thread (hr : p.retirement = some r) (hthread : r.thread = some .closing) : Owed p :=
  .inr (.inr ⟨r, .closing, hr, hthread, Nat.one_lt_two⟩)

/-- A consumer that is given up, with a thread or with a worker that will look. -/
theorem owed_startConsumerRetirement (hconsumer : p.consumer = true) (haccepting : p.accepting = false)
    (hstart : start = .failed → p.stage.looks = true) : Owed (p.startConsumerRetirement start) := by
  by_cases hs : start = .failed
  · refine .of_worker rfl ?_
    have hlooks := hstart hs
    rw [Pump.byWorker]
    dsimp only [Pump.startConsumerRetirement]
    cases hstage : p.stage <;> simp_all [Stage.looks]
  · exact .of_thread rfl (by simp [hs])

theorem owed_disconnect {reentrant : Bool} (hok : p.Ok) (hover : p.stage = .over → p.stopped = true)
    (hnone : p.retirement = .none) (hreentrant : reentrant = true → p.stage = .receiving)
    (hthread : p.consumer = true → reentrant = false → start = .failed → p.stage.looks = true)
    (hstopping : p.consumer = false → p.stage ≠ .stopping)
    (hr : (p.disconnect reentrant start).retirement = some r) : Owed (p.disconnect reentrant start) := by
  have habsent : ¬ p.retirement.isSome = true := by simp [hnone]
  rw [Pump.disconnect] at hr ⊢
  dsimp only at hr ⊢
  rw [if_neg habsent] at hr ⊢
  by_cases hconsumer : p.consumer = true
  · rw [if_pos hconsumer]
    by_cases hre : reentrant = true
    · -- the worker is inside of `receive`, and looks when it is out
      rw [if_pos hre]
      refine .of_worker rfl ?_
      simp [Pump.byWorker, Pump.newConsumerRetirement, hreentrant hre, hconsumer]
    · rw [if_neg hre]
      exact owed_startConsumerRetirement hconsumer rfl (hthread hconsumer (by simpa using hre))
  · rw [if_neg hconsumer] at hr ⊢
    have hunpublished : p.consumer = false := by simpa using hconsumer
    by_cases hstopped : p.stopped = true
    · rw [if_neg (not_not_intro hstopped)] at hr
      dsimp only at hr
      rw [hnone] at hr
      cases hr
    · rw [if_pos hstopped]
      refine .of_worker rfl ?_
      -- stages at which there is a tombstone already, and the two after the look
      have hcloses : p.stage.closes = false := by
        by_contra hc
        obtain ⟨r, hr, -⟩ := hok.closes (by simpa using hc)
        rw [hnone] at hr
        cases hr
      have hfinishing : p.stage ≠ .finishing := fun hs ↦ habsent (hok.finishes hs)
      have hfinished : p.stage ≠ .unregistering := by
        intro hs
        have hc := hok.finished (by rw [hs]; rfl)
        rw [Pump.completed, hnone] at hc
        cases hc
      have hrunning : p.stage ≠ .over := fun hs ↦ hstopped (hover hs)
      have hlate := hstopping hunpublished
      cases hstage : p.stage <;> simp_all [Pump.byWorker, Pump.newConsumerRetirement, Stage.closes]


/-- Every tombstone is left to somebody. -/
structure Tended (s : State) : Prop where
  inv : s.Inv
  stopped : ∀ n, (s.pumps n).stage = .over → (s.pumps n).stopped = true
  owed : ∀ n r, (s.pumps n).retirement = some r → Owed (s.pumps n)

theorem Tended.new : State.new.Tended := ⟨.new, fun _ _ ↦ rfl, nofun⟩

theorem Inv.owed {a : Label} (h : s.Inv) (howed : Owed (s.pumps n)) (ht : s.step a = some t) :
    Owed (t.pumps n) := by
  rcases howed with howed | howed
  · refine .inl ((h.workerOwes howed ht).imp_right fun ⟨r, hr, hworker, _⟩ ↦ ⟨r, hr, hworker, rank_lt _⟩)
  · refine .inr ((h.threadOwes howed ht).imp_right fun ⟨r, c, hr, hthread, hrank⟩ ↦
      ⟨r, c, hr, hthread, ?_⟩)
    split_ifs at hrank <;> omega

theorem Tended.disconnect {reentrant : Option ℕ} {start : ℕ → Start} (h : s.Tended)
    (hattentive : s.attentive (.disconnect reentrant start) = true)
    (hreceiving : reentrant.all (fun n ↦ (s.pumps n).stage = .receiving) = true)
    (hnone : (s.pumps n).retirement = .none)
    (hr : ((s.disconnect reentrant start).pumps n).retirement = some r) :
    Owed ((s.disconnect reentrant start).pumps n) := by
  rw [State.disconnect] at hr ⊢
  dsimp only at hr ⊢
  by_cases hattached : s.attached n = true
  · rw [if_pos hattached] at hr ⊢
    have hlt : n < s.count := (h.inv.attached _ _ (by simpa [attached] using hattached)).1
    have hkept : s.strands n (reentrant = some n) (start n) = false := by
      have hall := List.all_eq_true.1 hattentive n (List.mem_range.2 hlt)
      simpa [hattached] using hall
    refine owed_disconnect (h.inv.pump n) (h.stopped n) hnone (fun hre ↦ ?_) (fun hc hre hs ↦ ?_) (fun hc hs ↦ ?_) hr
    · rw [of_decide_eq_true hre] at hreceiving
      exact of_decide_eq_true hreceiving
    · simpa [strands, hnone, hc, hs, of_decide_eq_false hre] using hkept
    · simp [strands, hnone, hc, hs] at hkept
  · rw [if_neg hattached, hnone] at hr
    cases hr

theorem Tended.receive {m : ℕ} (hattentive : s.attentive (.receive m start) = true)
    (hnone : (s.pumps n).retirement = .none) (hr : ((s.receive m start).pumps n).retirement = some r) :
    Owed ((s.receive m start).pumps n) := by
  by_cases hlive : s.live m = true ∧ (s.pumps m).failed = true
  · have hpumps : (s.receive m start).pumps = (s.setPump m ((s.pumps m).giveUp start)).pumps := by
      rw [State.receive]
      dsimp only
      rw [if_pos hlive]
      split_ifs <;> rfl
    rw [hpumps] at hr ⊢
    rcases eq_or_ne n m with rfl | hne
    · rw [setPump_self, Pump.giveUp] at hr ⊢
      dsimp only at hr ⊢
      split_ifs at hr ⊢ with hnew
      · refine owed_startConsumerRetirement hnew.1 rfl fun hs ↦ ?_
        simpa [attentive, hlive.1, hlive.2, strands, hnone, hnew.1, hs] using hattentive
      · rw [hnone] at hr
        cases hr
    · rw [setPump_of_ne hne, hnone] at hr
      cases hr
  · rw [State.receive, if_neg hlive, hnone] at hr
    cases hr

/-- A tombstone that is made is left to somebody. -/
theorem Tended.owed_new {a : Label} (h : s.Tended) (hattentive : s.attentive a = true)
    (ht : s.step a = some t) (hnone : (s.pumps n).retirement = .none)
    (hr : (t.pumps n).retirement = some r) : Owed (t.pumps n) := by
  have hsame : t.pumps n = s.pumps n → Owed (t.pumps n) := by
    intro heq
    rw [heq, hnone] at hr
    cases hr
  cases a with
  | connect =>
    obtain ⟨⟩ := ht
    refine hsame ?_
    rw [State.connect]
    split <;> rfl
  | disconnect reentrant start =>
    obtain ⟨hreceiving, ⟨⟩⟩ := Option.ite_none_right_eq_some.1 ht
    exact h.disconnect hattentive hreceiving hnone hr
  | ensureReceivePump topic start =>
    obtain ⟨⟩ := ht
    rcases ensureReceivePump_pump s topic start n with heq | ⟨-, hstage, hempty⟩
    · exact hsame heq
    · refine .of_worker hr ?_
      rw [Pump.byWorker, hstage]
      simp [hempty r hr]
  | receive m start =>
    obtain ⟨⟩ := ht
    exact Tended.receive hattentive hnone hr
  | work m outcome start =>
    obtain ⟨-, ht⟩ := Option.ite_none_right_eq_some.1 ht
    rcases eq_or_ne n m with rfl | hne
    · obtain ⟨⟨fault, hstage⟩, hthread⟩ := (worked ht).started hnone r hr
      refine .of_thread hr (hthread ?_)
      simpa [attentive, hstage, hnone] using hattentive
    · exact hsame ((worked ht).others n hne)
  | close m =>
    obtain ⟨-, ht⟩ := Option.ite_none_right_eq_some.1 ht
    rcases eq_or_ne n m with rfl | hne
    · obtain ⟨r', c, c', handle, completed, hr', -⟩ := (closed h.inv ht).pump
      rw [hnone] at hr'
      cases hr'
    · exact hsame ((closed h.inv ht).others n hne)

/-- A worker that is over has set `stopped`. -/
theorem Tended.stopped_step {a : Label} (h : s.Tended) (ht : s.step a = some t)
    (hover : (t.pumps n).stage = .over) : (t.pumps n).stopped = true := by
  have hidle : Idle (s.pumps n) (t.pumps n) → (t.pumps n).stopped = true := by
    intro hidle
    rw [hidle.stage] at hover
    rw [hidle.stopped]
    exact h.stopped n hover
  rcases lt_or_ge n s.count with hlt | hge
  · obtain ⟨outcome, start, rfl, hwork⟩ | ⟨rfl, hclose⟩ | ⟨-, -, hi⟩ := h.inv.step_cases hlt ht
    · exact (worked hwork).stopped hover
    · obtain ⟨r, c, c', handle, completed, -, -, hp, -⟩ := (closed h.inv hclose).pump
      rw [hp] at hover ⊢
      exact h.stopped n hover
    · exact hidle hi
  · have hturn : ∀ m, (m < s.count) → ¬ m = n := fun m hm heq ↦ absurd hm (heq ▸ hge.not_gt)
    have hw : a.works n = false := by
      cases a with
      | work m outcome start =>
        simpa [Label.works] using hturn m (Option.ite_none_right_eq_some.1 ht).1
      | _ => rfl
    have hc : a.closes n = false := by
      cases a with
      | close m => simpa [Label.closes] using hturn m (Option.ite_none_right_eq_some.1 ht).1
      | _ => rfl
    rcases h.inv.idle hw hc ht with ⟨-, hstage⟩ | hi
    · rw [hstage] at hover
      cases hover
    · exact hidle hi

theorem Tended.step {a : Label} (h : s.Tended) (hattentive : s.attentive a = true)
    (ht : s.step a = some t) : t.Tended := by
  refine ⟨h.inv.step ht, fun n hn ↦ h.stopped_step ht hn, fun n r hr ↦ ?_⟩
  cases hold : (s.pumps n).retirement with
  | none => exact h.owed_new hattentive ht hold hr
  | some r' => exact h.inv.owed (h.owed n r' hold) ht

/-- A poll is refused by a tombstone that is not completed. -/
theorem prune_eq_some {topic : ℕ} (h : (s.prune topic).consumerRetirements topic = some n) :
    s.consumerRetirements topic = some n ∧ (s.pumps n).completed = false := by
  unfold prune at h
  split at h
  · next m hm =>
    split_ifs at h with hc
    · simp at h
    · obtain rfl := Option.some.inj (hm.symm.trans h)
      exact ⟨hm, by simpa [Pump.completed] using hc⟩
  · next hm =>
    rw [hm] at h
    cases h

/-- Whoever has the tombstone completes it: the worker of the pump within six of its steps, or the thread
within two. -/
def Attended (s : State) (n : ℕ) : Prop :=
  machine.Within (Label.works n) (fun s ↦ (s.pumps n).completed = true) 6 s ∨
    machine.Within (Label.closes n) (fun s ↦ (s.pumps n).completed = true) 2 s

theorem Tended.attended (h : s.Tended) (hr : (s.pumps n).retirement.isSome = true) : s.Attended n := by
  obtain ⟨r, hr⟩ := Option.isSome_iff_exists.1 hr
  exact (h.owed n r hr).imp h.inv.within_worker h.inv.within_thread

end State

/-- **No tombstone is orphaned**, over every interleaving: every tombstone is completed or going to be,
and so a poll is only refused by one that is going to be. -/
theorem attended_of_attentive {labels : List Label}
    (h : machine.Along (fun s a ↦ s.attentive a = true) .new labels) :
    machine.Always (fun s ↦
      (∀ n, (s.pumps n).retirement.isSome = true → (s.pumps n).completed = false → s.Attended n) ∧
      ∀ topic n, (s.prune topic).consumerRetirements topic = some n → s.Attended n) .new labels := by
  have hall : machine.Always State.Tended .new labels :=
    h.always (fun s a t hs ha ht ↦ hs.step ha ht) State.Tended.new
  refine hall.mono fun s hs ↦ ?_
  refine ⟨fun n hr _ ↦ hs.attended hr, fun topic n hn ↦ ?_⟩
  obtain ⟨hn, -⟩ := State.prune_eq_some hn
  exact hs.attended (hs.inv.registered topic n hn).2.2

theorem attended_of_attentive_handedOver : machine.Always (fun s ↦
      (∀ n, (s.pumps n).retirement.isSome = true → (s.pumps n).completed = false → s.Attended n) ∧
      ∀ topic n, (s.prune topic).consumerRetirements topic = some n → s.Attended n) .new handedOver :=
  attended_of_attentive (by decide)

/-- A subscription fails; the client is disconnected after the worker has looked for a tombstone, and
before it has set `stopped`. -/
def overlooked : List Label :=
  [.connect, .ensureReceivePump 0 .started, .work 0 .failed .started, .work 0 .ok .started,
    .work 0 .ok .started, .disconnect .none fun _ ↦ .started, .work 0 .ok .started, .connect]

/-- The topic is refused, nobody goes on, and nobody will. -/
theorem not_attended_of_overlooked : ∃ s, machine.run .new overlooked = some s ∧
    (s.prune 0).consumerRetirements 0 = some 0 ∧ (s.pumps 0).completed = false ∧
    (∀ outcome start, s.step (.work 0 outcome start) = none) ∧ s.step (.close 0) = none ∧
    ¬ s.Attended 0 := by
  refine ⟨_, rfl, rfl, rfl, fun _ _ ↦ rfl, rfl, ?_⟩
  rintro (h | h)
  · have hstuck := h.goesOn [] _ rfl
    rcases hstuck with hc | hstuck
    · cases hc
    · cases hstuck (.work 0 .ok .started) rfl
  · have hstuck := h.goesOn [] _ rfl
    rcases hstuck with hc | hstuck
    · cases hc
    · cases hstuck (.close 0) rfl

end Pulsar

end ScrapyExtension
