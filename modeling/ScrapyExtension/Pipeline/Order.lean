import ScrapyExtension.Pipeline.Exclusion

/-!
# Items and the close of a running reactor

Below a running reactor every item and every close gets to the end of one chain, and a worker starts when
all workers before it have come to their ends. So workers run one at a time, in the order of the calls.

An item is admitted twice, when it is called and when its worker starts, and a close keeps the pipeline from
admitting stores as soon as it is called. Items that have not started by then are refused by their own
workers, before the strategy is closed and without having been handed to it.
-/

namespace ScrapyExtension

namespace Pipeline

/-! ## Runs of a reactor -/

namespace Label

/-- Items and closes of a running reactor, with a pool that has a thread for every worker. -/
def reactor : Label → Bool
  | processAsync | closeAsync => true
  | act _ outcome => outcome ≠ .rejected
  | _ => false

end Label

namespace Stage

/-- The worker has started. -/
def started : Stage → Bool
  | queuedItem | queuedClose => false
  | _ => true

/-- An item that is not admitted yet. -/
def unadmitted : Stage → Bool
  | queuedItem | admission => true
  | _ => false

/-- What comes of an item. -/
def ofItem : Stage → Bool
  | queuedItem | admission | storing | .refused | .over => true
  | _ => false

/-- What comes of a close. -/
def ofClose : Stage → Bool
  | queuedClose | reserved | close | enter .plain | wait .plain | closing .plain | failing .plain
  | publish .plain false | release .plain => true
  | _ => false

theorem parts_of_reactor {stage : Stage} (h : stage.ofItem = true ∨ stage.ofClose = true) :
    stage.parts = false := by
  cases stage with
  | enter x => cases x <;> simp_all [ofItem, ofClose, parts]
  | publish x failed => cases x <;> cases failed <;> simp_all [ofItem, ofClose, parts]
  | _ => simp_all [ofItem, ofClose, parts]

theorem started_of_closes {stage : Stage} (h : stage.closes = true) : stage.started = true := by
  cases stage <;> first | rfl | cases h

theorem not_ofItem_of_ofClose {stage : Stage} (h : stage.ofClose = true) : stage.ofItem = false := by
  cases stage <;> first | rfl | cases h

theorem not_finished_of_ofClose {stage : Stage} (h : stage.ofClose = true) : stage.finished = false := by
  cases stage <;> first | rfl | cases h

theorem admitted_of_ofClose {stage : Stage} (h : stage.ofClose = true) :
    stage.unadmitted = false ∧ stage ≠ .refused := by
  cases stage <;> first | (cases h; done) | simp [unadmitted]

theorem started_of_stores {stage : Stage} (h : stage.stores = true) :
    stage.started = true ∧ stage.finished = false := by
  cases stage <;> first | exact ⟨rfl, rfl⟩ | cases h

end Stage

namespace State

variable {s t : State} {n : ℕ} {a b : Call}

/-- A worker has started only after all workers before it have come to their ends. -/
def InOrder (s : State) : Prop :=
  ∀ (i j : ℕ) (c d : Call), i < j → s.calls[i]? = some c → s.calls[j]? = some d →
    d.stage.started = true → c.stage.finished = true

/-- Where the strategy is closed, what was called before has been handed to it. -/
def Handed (s : State) : Prop :=
  ∀ (i j : ℕ) (c d : Call), i < j → s.calls[i]? = some c → s.calls[j]? = some d →
    d.stage.closes = true → c.stage = .over

/-- A close is called when every item before it is admitted. -/
def Admitted (s : State) : Label → Prop
  | .closeAsync => ∀ c ∈ s.calls, c.stage.unadmitted = false
  | _ => True

instance (s : State) : DecidablePred s.Admitted
  | .closeAsync => inferInstanceAs (Decidable (∀ c ∈ s.calls, _))
  | .process _ | .close _ | .openSpider _ | .processAsync | .openAsync _ | .act _ _ => isTrue trivial

/-- No item can be admitted. -/
def latched (s : State) : Bool := s.closing || s.closed

structure Chained (s : State) : Prop where
  inv : s.Inv
  tail : s.asyncTail = 0
  opening : s.isOpening = false
  waiting : s.closeWaitingForStores = false
  chain : ∀ c ∈ s.calls, c.queued = true ∧ c.chain = 0 ∧ c.observed = false
  stages : ∀ c ∈ s.calls, c.stage.ofItem = true ∨ c.stage.ofClose = true
  order : s.InOrder
  latched : ∀ c ∈ s.calls, c.stage.ofClose = true → s.latched = true

/-- What a step below a running reactor can be. -/
structure Advances (s t : State) (n : ℕ) (a b : Call) : Prop extends s.Moves t n a b where
  chain : b.queued = a.queued ∧ b.chain = a.chain ∧ b.observed = a.observed
  tail : t.asyncTail = s.asyncTail
  opening : t.isOpening = s.isOpening
  waiting : t.closeWaitingForStores = false
  stage : b.stage.ofItem = true ∨ (b.stage.ofClose = true ∧ a.stage.ofClose = true)
  latched : s.latched = true → t.latched = true
  latches : a.stage.ofClose = true ∨ t.latched = s.latched
  turn : a.stage.started = true ∨ s.turn n a = true
  unadmitted : b.stage.unadmitted = true → a.stage.unadmitted = true
  refused : b.stage = .refused → a.stage.unadmitted = true ∧ s.latched = true

theorem Chained.done (h : s.Chained) (ha : s.calls[n]? = some a) : done a = .over := by
  rw [State.done, (h.chain a (List.mem_of_getElem? ha)).2.2]
  rfl

/-- The stores are over when the worker of a close has started. -/
theorem Chained.count_eq_zero (h : s.Chained) (ha : s.calls[n]? = some a)
    (hclose : a.stage.ofClose = true) (hstarted : a.stage.started = true) : s.activeStoreCount = 0 := by
  rw [h.inv.stores]
  refine List.countP_eq_zero.2 fun c hc hstores ↦ ?_
  obtain ⟨hs, hf⟩ := Stage.started_of_stores hstores
  obtain ⟨i, hi⟩ := List.getElem?_of_mem hc
  rcases Nat.lt_trichotomy i n with hlt | rfl | hlt
  · rw [h.order i n c a hlt hi ha hstarted] at hf
    cases hf
  · obtain rfl := Option.some.inj (hi.symm.trans ha)
    revert hstores hclose
    cases c.stage <;> exact nofun
  · have := h.order n i a c hlt ha hi hs
    rw [Stage.not_finished_of_ofClose hclose] at this
    cases this

/-- A step of a call that was started, and has no way to be refused. -/
theorem Advances.of_started (m : s.Moves t n a b)
    (hchain : b.queued = a.queued ∧ b.chain = a.chain ∧ b.observed = a.observed)
    (hframe : t.asyncTail = s.asyncTail ∧ t.isOpening = s.isOpening)
    (hwaiting : t.closeWaitingForStores = false) (hstarted : a.stage.started = true)
    (hstage : b.stage = .over ∨ b.stage = .storing ∨ (b.stage.ofClose = true ∧ a.stage.ofClose = true))
    (hlatched : s.latched = true → t.latched = true)
    (hlatches : a.stage.ofClose = true ∨ t.latched = s.latched) : s.Advances t n a b := by
  have hidle : b.stage.unadmitted = false ∧ b.stage ≠ .refused ∧
      (b.stage.ofItem = true ∨ (b.stage.ofClose = true ∧ a.stage.ofClose = true)) := by
    rcases hstage with hb | hb | ⟨hb, hclose⟩
    · rw [hb]
      exact ⟨rfl, nofun, .inl rfl⟩
    · rw [hb]
      exact ⟨rfl, nofun, .inl rfl⟩
    · exact ⟨(Stage.admitted_of_ofClose hb).1, (Stage.admitted_of_ofClose hb).2, .inr ⟨hb, hclose⟩⟩
  refine ⟨m, hchain, hframe.1, hframe.2, hwaiting, hidle.2.2, hlatched, hlatches, .inl hstarted,
    fun hb ↦ ?_, fun hb ↦ absurd hb hidle.2.1⟩
  rw [hidle.1] at hb
  cases hb

theorem Chained.advances_item {outcome : Outcome} (h : s.Chained) (ha : s.calls[n]? = some a)
    (hstage : a.stage.ofItem = true) (houtcome : outcome ≠ .rejected) (ht : s.act n a outcome = some t) :
    ∃ b, s.Advances t n a b := by
  have hwaiting := h.waiting
  unfold act at ht
  cases hs : a.stage with
  | queuedItem =>
    simp only [hs] at ht
    split_ifs at ht with hturn
    cases outcome with
    | accepted thread =>
      obtain rfl := Option.some.inj ht
      exact ⟨_, ⟨ha, rfl⟩, ⟨rfl, rfl, rfl⟩, rfl, rfl, hwaiting, .inl rfl, id, .inr rfl, .inr hturn,
        fun _ ↦ by rw [hs]; rfl, nofun⟩
    | rejected => exact absurd rfl houtcome
    | ok | failed => cases ht
  | admission =>
    simp only [hs] at ht
    split_ifs at ht with hadmits <;> obtain rfl := Option.some.inj ht
    · exact ⟨_, .of_started ⟨ha, rfl⟩ ⟨rfl, rfl, rfl⟩ ⟨rfl, rfl⟩ hwaiting (by rw [hs]; rfl)
        (.inr (.inl rfl)) id (.inr rfl)⟩
    · have hlatched : s.latched = true := by
        unfold admits at hadmits
        unfold State.latched
        revert hadmits
        cases s.closing <;> cases s.closed <;> simp
      exact ⟨_, ⟨ha, rfl⟩, ⟨rfl, rfl, rfl⟩, rfl, rfl, hwaiting, .inl rfl, id, .inr rfl,
        .inl (by rw [hs]; rfl), nofun, fun _ ↦ ⟨by rw [hs]; rfl, hlatched⟩⟩
  | storing =>
    have hresumes : s.resumes = false := by unfold resumes; simp [hwaiting]
    simp only [hs, leaveStore, hresumes] at ht
    obtain rfl := Option.some.inj ht
    exact ⟨_, .of_started ⟨ha, rfl⟩ ⟨rfl, rfl, rfl⟩ ⟨rfl, rfl⟩ hwaiting (by rw [hs]; rfl) (.inl rfl) id
      (.inr rfl)⟩
  | _ =>
    first
      | (rw [hs] at hstage; cases hstage; done)
      | (simp only [hs] at ht; cases ht)

theorem Chained.advances_close {outcome : Outcome} (h : s.Chained) (ha : s.calls[n]? = some a)
    (hstage : a.stage.ofClose = true) (houtcome : outcome ≠ .rejected) (ht : s.act n a outcome = some t) :
    ∃ b, s.Advances t n a b := by
  have hwaiting := h.waiting
  have hdone := h.done ha
  -- all the stages after the turn of a close go on in the same way
  have hgoes : ∀ {u : State} {stage : Stage}, u.calls = s.calls → u.asyncTail = s.asyncTail →
      u.isOpening = s.isOpening → u.closeWaitingForStores = false → a.stage.started = true →
      (stage = .over ∨ stage.ofClose = true) → (s.latched = true → u.latched = true) →
      ∃ b, s.Advances (u.goto n a stage) n a b := by
    intro u stage hcalls htail hopening hwaiting hstarted hnext hlatched
    refine ⟨{ a with stage }, .of_started ⟨ha, by unfold goto; rw [hcalls]⟩ ⟨rfl, rfl, rfl⟩ ⟨htail, hopening⟩
      hwaiting hstarted ?_ hlatched (.inl hstage)⟩
    exact hnext.imp_right fun hclose ↦ .inr ⟨hclose, hstage⟩
  unfold act at ht
  cases hs : a.stage with
  | queuedClose =>
    simp only [hs] at ht
    split_ifs at ht with hturn
    cases outcome with
    | accepted thread =>
      obtain rfl := Option.some.inj ht
      exact ⟨_, ⟨ha, rfl⟩, ⟨rfl, rfl, rfl⟩, rfl, rfl, hwaiting, .inr ⟨rfl, hstage⟩, id, .inl hstage, .inr hturn,
        nofun, nofun⟩
    | rejected => exact absurd rfl houtcome
    | ok | failed => cases ht
  | reserved =>
    simp only [hs] at ht
    obtain rfl := Option.some.inj ht
    exact hgoes rfl rfl rfl hwaiting (by rw [hs]; rfl) (.inr rfl) id
  | close =>
    simp only [hs] at ht
    rw [if_neg (show ¬ s.isOpening = true by rw [h.opening]; exact nofun)] at ht
    split_ifs at ht <;> obtain rfl := Option.some.inj ht
    · exact hgoes rfl rfl rfl hwaiting (by rw [hs]; rfl) (.inl rfl) id
    · exact hgoes rfl rfl rfl hwaiting (by rw [hs]; rfl) (.inr rfl) id
  | enter x =>
    rw [hs] at hstage
    cases x <;> cases hstage
    simp only [hs] at ht
    obtain rfl := Option.some.inj ht
    have hstarted : a.stage.started = true := by
      rw [hs]
      rfl
    have hcount := h.count_eq_zero ha (by rw [hs]; rfl) hstarted
    rcases enter_cases s a .plain with ⟨-, hpair | hpair⟩ | ⟨-, -, hpair⟩ | ⟨-, hpos, -, -⟩ | ⟨-, hpos, -, -⟩
    · rw [hpair]
      exact hgoes rfl rfl rfl hwaiting hstarted (.inl hdone) id
    · rw [hpair]
      exact hgoes rfl rfl rfl hwaiting hstarted (.inl hdone) id
    · rw [hpair]
      exact hgoes rfl rfl rfl rfl hstarted (.inr rfl) fun _ ↦ rfl
    · omega
    · omega
  | wait x =>
    rw [hs] at hstage
    cases x <;> cases hstage
    have hcount := h.count_eq_zero ha (by rw [hs]; rfl) (by rw [hs]; rfl)
    simp only [hs, await, hcount, if_true, Option.map_some] at ht
    obtain rfl := Option.some.inj ht
    exact hgoes rfl rfl rfl rfl (by rw [hs]; rfl) (.inr rfl) id
  | closing x =>
    rw [hs] at hstage
    cases x <;> cases hstage
    simp only [hs] at ht
    obtain rfl := Option.some.inj ht
    refine hgoes rfl rfl rfl hwaiting (by rw [hs]; rfl) (.inr ?_) id
    split_ifs <;> rfl
  | failing x =>
    rw [hs] at hstage
    cases x <;> cases hstage
    simp only [hs] at ht
    obtain rfl := Option.some.inj ht
    exact hgoes rfl rfl rfl rfl (by rw [hs]; rfl) (.inl hdone) id
  | publish x failed =>
    rw [hs] at hstage
    cases x <;> cases failed <;> cases hstage
    simp only [hs] at ht
    obtain rfl := Option.some.inj ht
    refine hgoes rfl rfl rfl hwaiting (by rw [hs]; rfl) ?_ fun _ ↦ rfl
    split_ifs
    · exact .inr rfl
    · exact .inl hdone
  | release x =>
    rw [hs] at hstage
    cases x <;> cases hstage
    simp only [hs] at ht
    obtain rfl := Option.some.inj ht
    refine hgoes rfl rfl rfl hwaiting (by rw [hs]; rfl) (.inl ?_) id
    split_ifs <;> exact hdone
  | _ =>
    rw [hs] at hstage
    cases hstage

theorem not_finished_of_act {outcome : Outcome} (ht : s.act n a outcome = some t) :
    a.stage.finished = false := by
  cases hs : a.stage with
  | refused =>
    simp only [act, hs] at ht
    cases ht
  | _ =>
    first
      | rfl
      | (simp only [act, hs] at ht; cases ht)

theorem Advances.inOrder (h : s.Chained) (m : s.Advances t n a b) (hlive : a.stage.finished = false) :
    t.InOrder := by
  intro i j c d hij hi hj hd
  rw [m.now] at hi hj
  rcases List.getElem?_set_some hi with ⟨rfl, rfl⟩ | ⟨-, hold⟩
  · -- nothing behind a worker has started
    rcases List.getElem?_set_some hj with ⟨rfl, -⟩ | ⟨-, hj⟩
    · exact absurd hij (lt_irrefl _)
    · have := h.order i j a d hij m.was hj hd
      rw [hlive] at this
      cases this
  · rcases List.getElem?_set_some hj with ⟨rfl, rfl⟩ | ⟨-, hj⟩
    · rcases m.turn with hstarted | hturn
      · exact h.order i j c a hij hold m.was hstarted
      · rw [State.turn, (h.chain a (List.mem_of_getElem? m.was)).2.1, List.drop_zero,
          List.all_eq_true] at hturn
        have hc := hturn c (List.mem_of_getElem? ((List.getElem?_take_of_lt hij).trans hold))
        rw [(h.chain c (List.mem_of_getElem? hold)).1] at hc
        simpa using hc
    · exact h.order i j c d hij hold hj hd

/-- Below a running reactor nobody gets in the way of a close. -/
theorem Chained.orderly {outcome : Outcome} (h : s.Chained) : s.Orderly (.act n outcome) := by
  intro c hc
  refine ⟨fun _ htakes ↦ ⟨fun d hd ↦ ?_, fun hclosing howner ↦ ?_⟩, fun hstage ↦ ?_⟩
  · exact Stage.parts_of_reactor (h.stages d (List.mem_of_mem_eraseIdx hd))
  · simp [takes, recursive, hclosing, howner, h.waiting] at htakes
  · have := h.stages c (List.mem_of_getElem? hc)
    rw [hstage] at this
    rcases this with this | this <;> cases this

theorem Chained.act {outcome : Outcome} (h : s.Chained) (ha : s.calls[n]? = some a)
    (houtcome : outcome ≠ .rejected) (ht : s.act n a outcome = some t) :
    t.Chained ∧ ∃ b, s.Advances t n a b := by
  have hmem := List.mem_of_getElem? ha
  obtain ⟨b, m⟩ : ∃ b, s.Advances t n a b := by
    rcases h.stages a hmem with hstage | hstage
    · exact h.advances_item ha hstage houtcome ht
    · exact h.advances_close ha hstage houtcome ht
  refine ⟨⟨h.inv.act ha h.orderly ht, m.tail.trans h.tail, m.opening.trans h.opening, m.waiting, ?_, ?_,
    m.inOrder h (not_finished_of_act ht), ?_⟩, b, m⟩
  · rw [m.now]
    refine List.forall_mem_set h.chain ?_
    rw [m.chain.1, m.chain.2.1, m.chain.2.2]
    exact h.chain a hmem
  · rw [m.now]
    exact List.forall_mem_set h.stages (m.stage.imp_right And.left)
  · rw [m.now]
    refine List.forall_mem_set (fun c hc hclose ↦ m.latched (h.latched c hc hclose)) fun hclose ↦ ?_
    rcases m.stage with hitem | ⟨-, ha⟩
    · rw [Stage.not_ofItem_of_ofClose hclose] at hitem
      cases hitem
    · exact m.latched (h.latched a hmem ha)

/-- An item or a close comes to the end of the chain. -/
theorem Chained.call {c : Call} (h : s.Chained) (hinv : t.Inv) (hcalls : t.calls = s.calls ++ [c])
    (hc : c.queued = true ∧ c.chain = 0 ∧ c.observed = false)
    (hstage : c.stage = .queuedItem ∨ (c.stage = .queuedClose ∧ t.latched = true))
    (hframe : t.asyncTail = s.asyncTail ∧ t.isOpening = s.isOpening ∧
      t.closeWaitingForStores = s.closeWaitingForStores)
    (hlatched : s.latched = true → t.latched = true) : t.Chained := by
  obtain ⟨htail, hopening, hwaiting⟩ := hframe
  have hnew : ∀ {P : Call → Prop}, (∀ d ∈ s.calls, P d) → P c → ∀ d ∈ t.calls, P d := by
    intro P hold hcP d hd
    rw [hcalls, List.mem_append, List.mem_singleton] at hd
    rcases hd with hd | rfl
    · exact hold d hd
    · exact hcP
  have hqueued : c.stage.started = false ∧ (c.stage.ofItem = true ∨ c.stage.ofClose = true) ∧
      (c.stage.ofClose = true → t.latched = true) := by
    rcases hstage with hs | ⟨hs, hl⟩ <;> rw [hs]
    · exact ⟨rfl, .inl rfl, nofun⟩
    · exact ⟨rfl, .inr rfl, fun _ ↦ hl⟩
  refine ⟨hinv, htail.trans h.tail, hopening.trans h.opening, hwaiting.trans h.waiting, hnew h.chain hc,
    hnew h.stages hqueued.2.1, fun i j d e hij hi hj he ↦ ?_,
    hnew (fun d hd hclose ↦ hlatched (h.latched d hd hclose)) hqueued.2.2⟩
  rw [hcalls] at hi hj
  rcases List.getElem?_concat_some hj with ⟨-, rfl⟩ | hj
  · rw [hqueued.1] at he
    cases he
  · rcases List.getElem?_concat_some hi with ⟨rfl, -⟩ | hi
    · have := (List.getElem?_eq_some_iff.1 hj).1
      omega
    · exact h.order i j d e hij hi hj he

theorem Chained.closeSpiderAsync_eq (h : s.Chained) :
    s.closeSpiderAsync = s ∨ s.closeSpiderAsync = s.reserve := by
  rw [closeSpiderAsync]
  split_ifs with hclosed hopening
  · exact .inl rfl
  · rw [h.opening] at hopening
    cases hopening.1
  · exact .inl rfl
  · exact .inr rfl

theorem Chained.step {label : Label} (h : s.Chained) (hlabel : label.reactor = true)
    (ht : s.step label = some t) : t.Chained := by
  have hinv : ∀ {u : State}, s.Orderly label → s.step label = some u → u.Inv := fun horderly hu ↦
    h.inv.step horderly hu
  cases label with
  | processAsync =>
    have hinv := hinv trivial ht
    simp only [State.step] at ht
    split_ifs at ht <;> obtain rfl := Option.some.inj ht
    · exact h
    · exact h.call hinv rfl ⟨rfl, h.tail, rfl⟩ (.inl rfl) ⟨rfl, rfl, rfl⟩ id
  | closeAsync =>
    have hinv := hinv trivial ht
    obtain rfl := Option.some.inj ht
    rcases h.closeSpiderAsync_eq with heq | heq <;> rw [heq] at hinv ⊢
    · exact h
    · exact h.call hinv rfl ⟨rfl, h.tail, rfl⟩ (.inr ⟨rfl, rfl⟩) ⟨rfl, rfl, rfl⟩ fun _ ↦ rfl
  | act n outcome =>
    obtain ⟨a, ha, ht⟩ := Option.bind_eq_some_iff.1 ht
    exact (h.act ha (by simpa [Label.reactor] using hlabel) ht).1
  | process | close | openSpider | openAsync => cases hlabel

/-- Every item is admitted, and none comes to a close. -/
structure Unrefused (s : State) : Prop where
  stored : ∀ c ∈ s.calls, c.stage ≠ .refused
  admitted : s.latched = true → ∀ c ∈ s.calls, c.stage.unadmitted = false

theorem Unrefused.step {label : Label} (h : s.Unrefused) (hchained : s.Chained)
    (hlabel : label.reactor = true) (hadmitted : s.Admitted label) (ht : s.step label = some t) :
    t.Unrefused := by
  cases label with
  | processAsync =>
    simp only [State.step] at ht
    split_ifs at ht with hbusy <;> obtain rfl := Option.some.inj ht
    · exact h
    · refine ⟨fun c hc ↦ ?_, fun hlatched ↦ ?_⟩
      · rcases List.mem_append.1 hc with hc | hc
        · exact h.stored c hc
        · obtain rfl := List.mem_singleton.1 hc
          exact nofun
      · have hlatched : s.latched = true := hlatched
        simp only [State.latched, Bool.or_eq_true] at hlatched
        tauto
  | closeAsync =>
    have hadmitted : ∀ c ∈ s.calls, c.stage.unadmitted = false := hadmitted
    obtain rfl := Option.some.inj ht
    rcases hchained.closeSpiderAsync_eq with heq | heq <;> rw [heq]
    · exact h
    · refine ⟨fun c hc ↦ ?_, fun _ c hc ↦ ?_⟩ <;> rcases List.mem_append.1 hc with hc | hc
      · exact h.stored c hc
      · obtain rfl := List.mem_singleton.1 hc
        exact nofun
      · exact hadmitted c hc
      · obtain rfl := List.mem_singleton.1 hc
        rfl
  | act n outcome =>
    obtain ⟨a, ha, ht⟩ := Option.bind_eq_some_iff.1 ht
    have hmem := List.mem_of_getElem? ha
    obtain ⟨b, m⟩ := (hchained.act ha (by simpa [Label.reactor] using hlabel) ht).2
    have hlatched : t.latched = true → s.latched = true := fun ht ↦
      m.latches.elim (hchained.latched a hmem) fun heq ↦ heq ▸ ht
    refine ⟨?_, fun ht ↦ ?_⟩ <;> rw [m.now]
    · refine List.forall_mem_set h.stored fun hb ↦ ?_
      obtain ⟨hunadmitted, hs⟩ := m.refused hb
      rw [h.admitted hs a hmem] at hunadmitted
      cases hunadmitted
    · refine List.forall_mem_set (h.admitted (hlatched ht)) (Bool.eq_false_iff.2 fun hb ↦ ?_)
      have := m.unadmitted hb
      rw [h.admitted (hlatched ht) a hmem] at this
      cases this
  | process | close | openSpider | openAsync => cases hlabel

theorem Unrefused.handed (h : s.Unrefused) (hchained : s.Chained) : s.Handed := by
  intro i j c d hij hi hj hd
  have hfinished := hchained.order i j c d hij hi hj (Stage.started_of_closes hd)
  have hstored := h.stored c (List.mem_of_getElem? hi)
  revert hfinished hstored
  cases c.stage <;> simp [Stage.finished]

/-- A pipeline without a call, opened or not. -/
def ready (ownsConnectionManager isOpen : Bool) : State := { State.new ownsConnectionManager with isOpen }

theorem chained_ready (ownsConnectionManager isOpen : Bool) :
    (ready ownsConnectionManager isOpen).Chained := by
  have hcalls : (ready ownsConnectionManager isOpen).calls = [] := rfl
  have hinv : (ready ownsConnectionManager isOpen).Inv :=
    ⟨rfl, fun _ ↦ .of_attempts_eq_zero rfl, nofun, rfl, by simp [hcalls]⟩
  refine ⟨hinv, rfl, rfl, rfl, by simp [hcalls], by simp [hcalls], fun i j c d _ hi ↦ ?_, by simp [hcalls]⟩
  rw [hcalls] at hi
  cases hi

theorem unrefused_ready (ownsConnectionManager isOpen : Bool) :
    (ready ownsConnectionManager isOpen).Unrefused :=
  ⟨List.forall_mem_nil _, nofun⟩

end State

/-- Below a running reactor workers run one at a time, in the order of the calls; and if every close is called
after the items before it were admitted, then all of them are handed to the strategy before it is closed. -/
theorem handed_of_admitted (ownsConnectionManager isOpen : Bool) {as : List Label}
    (h : ∀ a ∈ as, a.reactor = true) :
    (machine ownsConnectionManager).Always State.InOrder (.ready ownsConnectionManager isOpen) as ∧
      ((machine ownsConnectionManager).Along State.Admitted (.ready ownsConnectionManager isOpen) as →
        (machine ownsConnectionManager).Always State.Handed (.ready ownsConnectionManager isOpen) as) := by
  have hreactor := Machine.Along.of_forall (M := machine ownsConnectionManager)
    (s := .ready ownsConnectionManager isOpen) h
  have hready := State.chained_ready ownsConnectionManager isOpen
  constructor
  · have hchained := hreactor.always (I := State.Chained) (fun s a t hs ha ht ↦ hs.step ha ht) hready
    exact hchained.mono fun s hs ↦ hs.order
  · intro hadmitted
    have hboth := (hreactor.and hadmitted).always (I := fun s ↦ s.Chained ∧ s.Unrefused)
      (fun s a t hs ha ht ↦ ⟨hs.1.step ha.1 ht, hs.2.step hs.1 ha.1 ha.2 ht⟩) ⟨hready, State.unrefused_ready ownsConnectionManager isOpen⟩
    exact hboth.mono fun s hs ↦ hs.2.handed hs.1

/-- An item is stored, and the next one is admitted before the close is called. -/
def settledRun : List Label :=
  [.processAsync, .act 0 (.accepted 1), .act 0 .ok, .processAsync, .act 0 .ok, .act 1 (.accepted 1), .act 1 .ok,
    .closeAsync, .act 1 .ok, .act 2 (.accepted 1), .act 2 .ok, .act 2 .ok, .act 2 .ok]

theorem handed_of_admitted_settledRun :
    (machine true).Always State.Handed (.ready true true) settledRun ∧
      ∃ s, (machine true).run (.ready true true) settledRun = some s ∧ s.tally Stage.closes = 1 :=
  ⟨(handed_of_admitted true true (by decide)).2 (by decide), _, rfl, rfl⟩

/-- An item waits for the one before it when the close is called. -/
def overtakenRun : List Label :=
  [.processAsync, .act 0 (.accepted 1), .act 0 .ok, .processAsync, .closeAsync, .act 0 .ok,
    .act 1 (.accepted 1), .act 1 .ok, .act 2 (.accepted 1), .act 2 .ok, .act 2 .ok, .act 2 .ok]

/-- The item is refused, and the strategy is closed without it. -/
theorem not_handed_of_overtaken :
    (∀ a ∈ overtakenRun, a.reactor = true) ∧
      ∃ s, (machine true).run (.ready true true) overtakenRun = some s ∧ ¬ s.Handed := by
  refine ⟨by decide, _, rfl, fun h ↦ ?_⟩
  have := h 1 2 _ _ (by decide) rfl rfl rfl
  cases this

end Pipeline

end ScrapyExtension
