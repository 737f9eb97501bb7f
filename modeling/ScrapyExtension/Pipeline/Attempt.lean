import ScrapyExtension.Pipeline.Order

/-!
# A close by itself

Where nobody else closes the pipeline, an attempt that is called comes to the strategy, whatever the stores
and the items in the chain do. It may be parked on its way; then the last store to leave takes it there. A
flag that says that a close is parked may be left over from another attempt, and then a store resumes a close
that is not there: it comes to the strategy as well, or it is refused for the sake of the reservation.

Every step of a call leaves less to do, and there is always a step to make, so this needs no fairness.
-/

namespace ScrapyExtension

namespace Pipeline

namespace Label

/-- A call goes on, and the pool has a thread for it. -/
def goesOn : Label → Prop
  | act _ outcome => outcome ≠ .rejected
  | _ => False

end Label

namespace Stage

/-- How many steps are left before the strategy. -/
def weight : Stage → ℕ
  | queuedItem | queuedClose => 5
  | admission | reserved => 4
  | storing | close => 3
  | enter _ => 2
  | wait _ | restore => 1
  | _ => 0

/-- A store, before and after it leaves. -/
def ofStore : Stage → Bool
  | queuedItem | admission | storing | .refused | .over | enter .resumed | restore => true
  | _ => false

end Stage

namespace State

variable {s t : State} {n m : ℕ} {a b c : Call}

/-- The strategy is closed right now. -/
def Closing (s : State) : Prop := 0 < s.tally Stage.closes

def rank (s : State) : ℕ := (s.calls.map fun c ↦ c.stage.weight).sum

/-- Where an attempt is. -/
inductive Pursuit (s : State) : Stage → Prop
  | queued : Pursuit s .queuedClose
  | reserved : Pursuit s .reserved
  | close (howner : s.closeOwner = none) (hpending : s.closing = false ∨ s.closeAsyncPending = false) :
      Pursuit s .close
  | enter (howner : s.closeOwner = none) (hpending : s.closing = false ∨ s.closeAsyncPending = false) :
      Pursuit s (.enter .plain)
  | wait (hclosing : s.closing = true) (hpending : s.closeAsyncPending = false)
      (hrestore : s.tally (· = .restore) = 0) : Pursuit s (.wait .plain)
  | parked (hclosing : s.closing = true) (hpending : s.closeAsyncPending = false)
      (hwaiting : s.closeWaitingForStores = true) (hcount : 0 < s.activeStoreCount) : Pursuit s .over
  | resumed (hclosing : s.closing = true) (hpending : s.closeAsyncPending = false)
      (hresumed : 0 < s.tally (· = .enter .resumed)) (hrestore : s.tally (· = .restore) = 0) :
      Pursuit s .over

/-- A call, and nobody else, is about to close the pipeline. -/
structure Pursued (n : ℕ) (s : State) : Prop where
  closed : s.closed = false
  opening : s.isOpening = false
  stores : s.activeStoreCount = s.tally Stage.stores
  others : ∀ m c, s.calls[m]? = some c → m ≠ n → c.stage.ofStore = true
  one : s.tally Stage.parts + s.closeWaitingForStores.toNat ≤ 1
  resumed : 0 < s.tally Stage.parts → s.activeStoreCount = 0 ∧ s.closing = true ∧ s.closeOwner = none
  self : ∃ c, s.calls[n]? = some c ∧ (c.stage = .queuedClose → c.queued = true) ∧ c.observed = false ∧
    s.Pursuit c.stage

/-! ## Steps of the call -/

theorem Moves.rank (m : s.Moves t n a b) (h : b.stage.weight < a.stage.weight) : t.rank < s.rank := by
  have hsum := List.sum_map_set_add (b := b) (fun c : Call ↦ c.stage.weight) m.was
  rw [State.rank, State.rank, m.now]
  omega

theorem Closing.of_moves (m : s.Moves t n a b) (h : b.stage.closes = true) : t.Closing :=
  tally_pos (List.mem_of_getElem? m.isNow) h

theorem takes_of_unowned {thread : ℕ} (hclosed : s.closed = false) (howner : s.closeOwner = none)
    (hpending : s.closing = false ∨ s.closeAsyncPending = false) : s.takes thread = true := by
  rcases hpending with hpending | hpending <;> simp [takes, recursive, refuses, hclosed, howner, hpending]

/-- What the pipeline is like after a step of the call itself. -/
theorem Pursued.goto (h : s.Pursued n) (m : s.Moves t n a b)
    (hframe : t.closed = s.closed ∧ t.isOpening = s.isOpening ∧ t.activeStoreCount = s.activeStoreCount)
    (hstores : a.stage.stores = false ∧ b.stage.stores = false)
    (hparts : a.stage.parts = false ∧ b.stage.parts = false)
    (hone : t.closeWaitingForStores = true → s.closeWaitingForStores = true ∨ s.tally Stage.parts = 0)
    (hresumed : 0 < s.tally Stage.parts → t.closing = s.closing ∧ t.closeOwner = none)
    (hself : (b.stage = .queuedClose → b.queued = true) ∧ b.observed = false ∧ t.Pursuit b.stage)
    (hweight : b.stage.weight < a.stage.weight) : t.Pursued n ∧ t.rank < s.rank := by
  have htally : t.tally Stage.parts = s.tally Stage.parts := by
    have := m.tally Stage.parts
    rw [hparts.1, hparts.2] at this
    omega
  refine ⟨⟨hframe.1.trans h.closed, hframe.2.1.trans h.opening, ?_, fun k c hk hkn ↦ ?_, ?_,
    fun hpos ↦ ?_, b, m.isNow, hself⟩, m.rank hweight⟩
  · have := m.tally Stage.stores
    rw [hstores.1, hstores.2] at this
    rw [hframe.2.2, h.stores]
    omega
  · rw [m.now] at hk
    rcases List.getElem?_set_some hk with ⟨rfl, -⟩ | ⟨-, hold⟩
    · exact absurd rfl hkn
    · exact h.others k c hold hkn
  · rw [htally]
    have := h.one
    cases hw : t.closeWaitingForStores with
    | false => simp only [Bool.toNat_false]; omega
    | true =>
      rcases hone hw with hs | hs
      · rwa [hs] at this
      · rw [hs]
        rfl
  · rw [htally] at hpos
    obtain ⟨hcount, hclosing, -⟩ := h.resumed hpos
    exact ⟨hframe.2.2.trans hcount, (hresumed hpos).1.trans hclosing, (hresumed hpos).2⟩

theorem tally_zero_of_imp {p q : Stage → Bool} (h : s.tally q = 0)
    (hpq : ∀ stage, p stage = true → q stage = true) : s.tally p = 0 :=
  Nat.le_zero.1 (h ▸ List.countP_mono_left fun c _ ↦ hpq c.stage)

/-- No store is left between its end and a close. -/
theorem tally_restore_eq_zero (h : s.tally Stage.parts = 0) : s.tally (· = .restore) = 0 :=
  tally_zero_of_imp h fun stage hstage ↦ by
    obtain rfl : stage = .restore := by simpa using hstage
    rfl

theorem Moves.tally_eq (m : s.Moves t n a b) {p : Stage → Bool} (ha : p a.stage = false)
    (hb : p b.stage = false) : t.tally p = s.tally p := by
  have := m.tally p
  rw [ha, hb] at this
  omega

/-- The stores are under way: nothing is resumed. -/
theorem Pursued.parts_eq_zero (h : s.Pursued n) (hcount : 0 < s.activeStoreCount) :
    s.tally Stage.parts = 0 := by
  by_contra hne
  have := (h.resumed (Nat.pos_of_ne_zero hne)).1
  omega

/-- The first section of `_close_locked`, for the attempt itself. -/
theorem Pursued.enter (h : s.Pursued n) (ha : s.calls[n]? = some a) (hstage : a.stage = .enter .plain)
    (hobserved : a.observed = false) (howner : s.closeOwner = none)
    (hpending : s.closing = false ∨ s.closeAsyncPending = false) :
    ((s.enter a .plain).1.goto n a (s.enter a .plain).2).Closing ∨
      ((s.enter a .plain).1.goto n a (s.enter a .plain).2).Pursued n ∧
        ((s.enter a .plain).1.goto n a (s.enter a .plain).2).rank < s.rank := by
  have htakes : s.takes a.thread = true := takes_of_unowned h.closed howner hpending
  have hdone : done a = .over := by
    unfold State.done
    rw [hobserved]
    rfl
  rcases enter_cases s a .plain with ⟨htakes', -⟩ | ⟨-, -, hpair⟩ | ⟨-, hcount, -, hpair⟩ | ⟨-, hcount, -, hpair⟩
  · rw [htakes] at htakes'
    cases htakes'
  · rw [hpair]
    exact .inl (.of_moves (s := s) ⟨ha, rfl⟩ rfl)
  all_goals
    have hparts := h.parts_eq_zero hcount
    have hrestore := tally_restore_eq_zero hparts
    rw [hpair]
  · refine .inr (h.goto ⟨ha, rfl⟩ ⟨rfl, rfl, rfl⟩ ⟨by rw [hstage]; rfl, by rw [hdone]; rfl⟩
      ⟨by rw [hstage]; rfl, by rw [hdone]; rfl⟩ (fun _ ↦ .inr hparts) (fun hpos ↦ absurd hparts hpos.ne')
      ⟨fun hq ↦ ?_, hobserved, ?_⟩ (by simp [hstage, hdone, Stage.weight]))
    · rw [hdone] at hq
      cases hq
    · rw [hdone]
      exact .parked rfl rfl rfl hcount
  · refine .inr (h.goto ⟨ha, rfl⟩ ⟨rfl, rfl, rfl⟩ ⟨by rw [hstage]; rfl, rfl⟩ ⟨by rw [hstage]; rfl, rfl⟩ .inl
      (fun hpos ↦ absurd hparts hpos.ne') ⟨nofun, hobserved, .wait rfl rfl ?_⟩ (by simp [hstage, Stage.weight]))
    exact (Moves.tally_eq (s := s) ⟨ha, rfl⟩ (by rw [hstage]; rfl) rfl).trans hrestore

/-- The wait for the stores is over. -/
theorem Pursued.await {r : State × Stage} (h : s.Pursued n) (ha : s.calls[n]? = some a)
    (hstage : a.stage = .wait .plain) (hobserved : a.observed = false) (hclosing : s.closing = true)
    (hpending : s.closeAsyncPending = false) (hr : s.await a .plain = some r) :
    (r.1.goto n a r.2).Closing ∨ (r.1.goto n a r.2).Pursued n ∧ (r.1.goto n a r.2).rank < s.rank := by
  have hdone : done a = .over := by
    rw [State.done, hobserved]
    rfl
  rw [State.await] at hr
  split_ifs at hr with hcount hthreads <;> obtain rfl := Option.some.inj hr
  · exact .inl (.of_moves (s := s) ⟨ha, rfl⟩ rfl)
  · have hparts := h.parts_eq_zero (Nat.pos_of_ne_zero hcount)
    refine .inr (h.goto ⟨ha, rfl⟩ ⟨rfl, rfl, rfl⟩ ⟨by rw [hstage]; rfl, by rw [hdone]; rfl⟩
      ⟨by rw [hstage]; rfl, by rw [hdone]; rfl⟩ (fun _ ↦ .inr hparts) (fun hpos ↦ absurd hparts hpos.ne')
      ⟨fun hq ↦ ?_, hobserved, ?_⟩ (by simp [hstage, hdone, Stage.weight]))
    · rw [hdone] at hq
      cases hq
    · rw [hdone]
      exact .parked hclosing hpending rfl (Nat.pos_of_ne_zero hcount)

theorem Pursued.act_self {outcome : Outcome} (h : s.Pursued n) (ha : s.calls[n]? = some a)
    (houtcome : outcome ≠ .rejected) (ht : s.act n a outcome = some t) :
    t.Closing ∨ t.Pursued n ∧ t.rank < s.rank := by
  obtain ⟨c, hc, hqueued, hobserved, hpursuit⟩ := h.self
  obtain rfl := Option.some.inj (hc.symm.trans ha)
  have hopening := h.opening
  have hclosed := h.closed
  generalize hs : c.stage = stage at hpursuit
  unfold act at ht
  cases hpursuit with
  | queued =>
    simp only [hs] at ht
    split_ifs at ht
    cases outcome with
    | accepted thread =>
      obtain rfl := Option.some.inj ht
      exact .inr (h.goto ⟨ha, rfl⟩ ⟨rfl, rfl, rfl⟩ ⟨by rw [hs]; rfl, rfl⟩ ⟨by rw [hs]; rfl, rfl⟩ .inl
        (fun hpos ↦ ⟨rfl, (h.resumed hpos).2.2⟩) ⟨nofun, hobserved, .reserved⟩ (by simp [hs, Stage.weight]))
    | rejected => exact absurd rfl houtcome
    | ok | failed => cases ht
  | reserved =>
    simp only [hs] at ht
    obtain rfl := Option.some.inj ht
    exact .inr (h.goto ⟨ha, rfl⟩ ⟨rfl, rfl, rfl⟩ ⟨by rw [hs]; rfl, rfl⟩ ⟨by rw [hs]; rfl, rfl⟩ .inl
      (fun _ ↦ ⟨rfl, rfl⟩) ⟨nofun, hobserved, .close rfl (.inr rfl)⟩ (by simp [hs, Stage.weight]))
  | close howner hpending =>
    simp only [hs, hclosed, hopening] at ht
    obtain rfl := Option.some.inj ht
    exact .inr (h.goto ⟨ha, rfl⟩ ⟨rfl, rfl, rfl⟩ ⟨by rw [hs]; rfl, rfl⟩ ⟨by rw [hs]; rfl, rfl⟩ .inl
      (fun _ ↦ ⟨rfl, howner⟩) ⟨nofun, hobserved, .enter howner hpending⟩ (by simp [hs, Stage.weight]))
  | enter howner hpending =>
    simp only [hs] at ht
    obtain rfl := Option.some.inj ht
    exact h.enter ha hs hobserved howner hpending
  | wait hclosing hpending _ =>
    simp only [hs] at ht
    obtain ⟨r, hr, rfl⟩ := Option.map_eq_some_iff.1 ht
    exact h.await ha hs hobserved hclosing hpending hr
  | parked | resumed =>
    simp only [hs] at ht
    cases ht

/-! ## Steps of the others -/

/-- What the pipeline is like after a step of another call. -/
theorem Pursued.other (h : s.Pursued n) (hmn : m ≠ n) (v : s.Moves t m a b)
    (hframe : t.closed = s.closed ∧ t.isOpening = s.isOpening) (hstores : t.activeStoreCount = t.tally Stage.stores)
    (hb : b.stage.ofStore = true) (hone : t.tally Stage.parts + t.closeWaitingForStores.toNat ≤ 1)
    (hresumed : 0 < t.tally Stage.parts →
      t.activeStoreCount = 0 ∧ t.closing = true ∧ t.closeOwner = none)
    (hpursuit : ∀ stage, s.Pursuit stage → t.Pursuit stage)
    (hweight : b.stage.weight < a.stage.weight) : t.Pursued n ∧ t.rank < s.rank := by
  obtain ⟨c, hc, hqueued, hobserved, hself⟩ := h.self
  refine ⟨⟨hframe.1.trans h.closed, hframe.2.trans h.opening, hstores, fun k d hk hkn ↦ ?_, hone, hresumed,
    c, ?_, hqueued, hobserved, hpursuit _ hself⟩, v.rank hweight⟩
  · rw [v.now] at hk
    rcases List.getElem?_set_some hk with ⟨-, rfl⟩ | ⟨-, hold⟩
    · exact hb
    · exact h.others k d hold hkn
  · rw [v.now, List.getElem?_set_ne hmn]
    exact hc

/-- A call that has nothing to do with the attempt. -/
theorem Pursued.idle (h : s.Pursued n) (hmn : m ≠ n) (v : s.Moves t m a b)
    (hframe : t.closed = s.closed ∧ t.isOpening = s.isOpening) (hflags : t.flags = s.flags)
    (ha : a.stage.stores = false ∧ a.stage.parts = false)
    (hb : b.stage.stores = false ∧ b.stage.parts = false ∧ b.stage.ofStore = true)
    (hweight : b.stage.weight < a.stage.weight) : t.Pursued n ∧ t.rank < s.rank := by
  simp only [flags, Prod.mk.injEq] at hflags
  obtain ⟨hclosing, howner, hpending, hwaiting, hcount⟩ := hflags
  have hparts : ∀ {p : Stage → Bool}, (∀ stage, p stage = true → stage.parts = true) →
      t.tally p = s.tally p := by
    intro p hp
    refine v.tally_eq (Bool.eq_false_iff.2 fun hpa ↦ ?_) (Bool.eq_false_iff.2 fun hpb ↦ ?_)
    · rw [hp _ hpa] at ha
      cases ha.2
    · rw [hp _ hpb] at hb
      cases hb.2.1
  have hrestore : t.tally (· = .restore) = s.tally (· = .restore) := hparts fun stage hs ↦ by
    obtain rfl : stage = .restore := by simpa using hs
    rfl
  have henter : t.tally (· = .enter .resumed) = s.tally (· = .enter .resumed) := hparts fun stage hs ↦ by
    obtain rfl : stage = .enter .resumed := by simpa using hs
    rfl
  refine h.other hmn v hframe ?_ hb.2.2 ?_ (fun hpos ↦ ?_) (fun stage hp ↦ ?_) hweight
  · rw [hcount, h.stores, v.tally_eq ha.1 hb.1]
  · rw [hwaiting, hparts fun _ ↦ id]
    exact h.one
  · rw [hparts fun _ ↦ id] at hpos
    rw [hcount, hclosing, howner]
    exact h.resumed hpos
  · cases hp with
    | queued => exact .queued
    | reserved => exact .reserved
    | close ho hp => exact .close (howner.trans ho) (hp.imp hclosing.trans hpending.trans)
    | enter ho hp => exact .enter (howner.trans ho) (hp.imp hclosing.trans hpending.trans)
    | wait hc hp hr => exact .wait (hclosing.trans hc) (hpending.trans hp) (hrestore.trans hr)
    | parked hc hp hw hpos => exact .parked (hclosing.trans hc) (hpending.trans hp) (hwaiting.trans hw) (hcount ▸ hpos)
    | resumed hc hp hpos hr =>
      exact .resumed (hclosing.trans hc) (hpending.trans hp) (henter ▸ hpos) (hrestore.trans hr)

/-- A store is admitted. -/
theorem Pursued.enterStore (h : s.Pursued n) (hmn : m ≠ n) (ha : s.calls[m]? = some a)
    (hstage : a.stage = .admission) (hclosing : s.closing = false) :
    ((s.enterStore a.thread).goto m a .storing).Pursued n ∧
      ((s.enterStore a.thread).goto m a .storing).rank < s.rank := by
  have v : s.Moves ((s.enterStore a.thread).goto m a .storing) m a { a with stage := .storing } := ⟨ha, rfl⟩
  have hparts : s.tally Stage.parts = 0 := by
    by_contra hne
    have := (h.resumed (Nat.pos_of_ne_zero hne)).2.1
    rw [hclosing] at this
    cases this
  have hparts' := (v.tally_eq (p := Stage.parts) (by rw [hstage]; rfl) rfl).trans hparts
  refine h.other hmn v ⟨rfl, rfl⟩ ?_ rfl ?_ (fun hpos ↦ absurd hparts' hpos.ne') (fun stage hp ↦ ?_)
    (by simp [hstage, Stage.weight])
  · have htally := v.tally Stage.stores
    have hstores : a.stage.stores = false := by
      rw [hstage]
      rfl
    have hnow : ({ a with stage := .storing } : Call).stage.stores = true := rfl
    have hcount : ((s.enterStore a.thread).goto m a .storing).activeStoreCount = s.activeStoreCount + 1 := rfl
    rw [hstores, hnow, Bool.toNat_false, Bool.toNat_true] at htally
    rw [hcount, h.stores]
    omega
  · rw [hparts', Nat.zero_add]
    exact Bool.toNat_le _
  · cases hp with
    | queued => exact .queued
    | reserved => exact .reserved
    | close ho hp => exact .close ho hp
    | enter ho hp => exact .enter ho hp
    | wait hc | parked hc | resumed hc =>
      rw [hclosing] at hc
      cases hc

/-- A store leaves, and nothing is resumed. -/
theorem Pursued.leave (h : s.Pursued n) (hmn : m ≠ n) (v : s.Moves t m a b) (ha : a.stage = .storing)
    (hb : b.stage = .over) (hresumes : s.resumes = false) (hclosing : t.closing = s.closing)
    (howner : t.closeOwner = s.closeOwner) (hpending : t.closeAsyncPending = s.closeAsyncPending)
    (hwaiting : t.closeWaitingForStores = s.closeWaitingForStores)
    (hcount : t.activeStoreCount = s.activeStoreCount - 1)
    (hframe : t.closed = s.closed ∧ t.isOpening = s.isOpening) : t.Pursued n ∧ t.rank < s.rank := by
  have hstores : t.activeStoreCount = t.tally Stage.stores ∧ 0 < s.activeStoreCount := by
    have htally := v.tally Stage.stores
    rw [ha, hb] at htally
    simp only [Stage.stores, Bool.toNat_true, Bool.toNat_false] at htally
    have := h.stores
    omega
  have hparts := h.parts_eq_zero hstores.2
  have hparts' := (v.tally_eq (p := Stage.parts) (by rw [ha]; rfl) (by rw [hb]; rfl)).trans hparts
  have hrestore := tally_restore_eq_zero hparts'
  refine h.other hmn v hframe hstores.1 (by rw [hb]; rfl) ?_ (fun hpos ↦ absurd hparts' hpos.ne')
    (fun stage hp ↦ ?_) (by simp [ha, hb, Stage.weight])
  · rw [hparts', Nat.zero_add]
    exact Bool.toNat_le _
  · cases hp with
    | queued => exact .queued
    | reserved => exact .reserved
    | close ho hp => exact .close (howner.trans ho) (hp.imp hclosing.trans hpending.trans)
    | enter ho hp => exact .enter (howner.trans ho) (hp.imp hclosing.trans hpending.trans)
    | wait hc hp _ => exact .wait (hclosing.trans hc) (hpending.trans hp) hrestore
    | parked hc hp hw hpos =>
      simp only [resumes, hc, hw, Bool.and_true, decide_eq_false_iff_not] at hresumes
      exact .parked (hclosing.trans hc) (hpending.trans hp) (hwaiting.trans hw) (by omega)
    | resumed _ _ hpos _ =>
      have hzero : s.tally (· = .enter .resumed) = 0 := tally_zero_of_imp hparts fun stage hs ↦ by
        obtain rfl : stage = .enter .resumed := by simpa using hs
        rfl
      omega

/-- The last store leaves, and resumes a close. -/
theorem Pursued.resume (h : s.Pursued n) (hmn : m ≠ n) (v : s.Moves t m a b) (ha : a.stage = .storing)
    (hb : b.stage = .enter .resumed) (hresumes : s.resumes = true) (hclosing : t.closing = s.closing)
    (howner : t.closeOwner = none) (hpending : t.closeAsyncPending = s.closeAsyncPending)
    (hwaiting : t.closeWaitingForStores = false) (hcount : t.activeStoreCount = s.activeStoreCount - 1)
    (hframe : t.closed = s.closed ∧ t.isOpening = s.isOpening) : t.Pursued n ∧ t.rank < s.rank := by
  simp only [resumes, Bool.and_eq_true, decide_eq_true_eq] at hresumes
  obtain ⟨⟨hlast, hc⟩, hw⟩ := hresumes
  have hparts := h.parts_eq_zero (by omega)
  have hparts' := v.tally Stage.parts
  rw [ha, hb, hparts] at hparts'
  have hrestore : t.tally (· = .restore) = 0 :=
    (v.tally_eq (by rw [ha]; rfl) (by rw [hb]; rfl)).trans (tally_restore_eq_zero hparts)
  have henter : 0 < t.tally (· = .enter .resumed) :=
    tally_pos (List.mem_of_getElem? v.isNow) (by simp [hb])
  refine h.other hmn v hframe ?_ (by rw [hb]; rfl) ?_ (fun _ ↦ ⟨by omega, hclosing.trans hc, howner⟩)
    (fun stage hp ↦ ?_) (by simp [ha, hb, Stage.weight])
  · have htally := v.tally Stage.stores
    rw [ha, hb] at htally
    simp only [Stage.stores, Bool.toNat_true, Bool.toNat_false] at htally
    have := h.stores
    omega
  · rw [hwaiting]
    simp only [Stage.parts, Bool.toNat_false, Bool.toNat_true] at hparts' ⊢
    omega
  · cases hp with
    | queued => exact .queued
    | reserved => exact .reserved
    | close _ hp => exact .close howner (.inr (hpending.trans (hp.resolve_left (by simp [hc]))))
    | enter _ hp => exact .enter howner (.inr (hpending.trans (hp.resolve_left (by simp [hc]))))
    | wait _ hp _ => exact .wait (hclosing.trans hc) (hpending.trans hp) hrestore
    | parked _ hp _ _ | resumed _ hp _ _ =>
      exact .resumed (hclosing.trans hc) (hpending.trans hp) henter hrestore

/-- The first section of `_close_locked`, for a close that is resumed: it is refused for the sake of a
reservation only. -/
theorem Pursued.enter_resumed (h : s.Pursued n) (hmn : m ≠ n) (ha : s.calls[m]? = some a)
    (hstage : a.stage = .enter .resumed) :
    ((s.enter a .resumed).1.goto m a (s.enter a .resumed).2).Closing ∨
      ((s.enter a .resumed).1.goto m a (s.enter a .resumed).2).Pursued n ∧
        ((s.enter a .resumed).1.goto m a (s.enter a .resumed).2).rank < s.rank := by
  have hpos : 0 < s.tally Stage.parts := tally_pos (List.mem_of_getElem? ha) (by rw [hstage]; rfl)
  obtain ⟨hcount, hclosing, howner⟩ := h.resumed hpos
  cases hpending : s.closeAsyncPending with
  | false =>
    have htakes : s.takes a.thread = true := takes_of_unowned h.closed howner (.inr hpending)
    rcases enter_cases s a .resumed with ⟨htakes', -⟩ | ⟨-, -, hpair⟩ | ⟨-, hpos, -⟩ | ⟨-, hpos, -⟩
    · rw [htakes] at htakes'
      cases htakes'
    · rw [hpair]
      exact .inl (.of_moves (s := s) ⟨ha, rfl⟩ rfl)
    all_goals omega
  | true =>
    have hrefused : s.enter a .resumed = (s, .restore) := by
      simp [State.enter, recursive, refuses, raised, h.closed, hclosing, howner, hpending]
    rw [hrefused]
    have v : s.Moves (s.goto m a .restore) m a { a with stage := .restore } := ⟨ha, rfl⟩
    have hparts := v.tally Stage.parts
    rw [hstage] at hparts
    have hsame : (s.goto m a .restore).tally Stage.parts = s.tally Stage.parts := by
      simp only [Stage.parts, Bool.toNat_true] at hparts
      exact Nat.add_right_cancel hparts
    refine .inr (h.other hmn v ⟨rfl, rfl⟩ ?_ rfl (hsame ▸ h.one) (fun _ ↦ ⟨hcount, hclosing, howner⟩)
      (fun stage hp ↦ ?_) (by simp [hstage, Stage.weight]))
    · rw [v.tally_eq (by rw [hstage]; rfl) rfl]
      exact h.stores
    · cases hp with
      | queued => exact .queued
      | reserved => exact .reserved
      | close _ hp | enter _ hp =>
        rw [hclosing, hpending] at hp
        rcases hp with hp | hp <;> cases hp
      | wait _ hp | parked _ hp | resumed _ hp =>
        rw [hpending] at hp
        cases hp

/-- A close that was resumed and refused is given back. -/
theorem Pursued.restore (h : s.Pursued n) (hmn : m ≠ n) (ha : s.calls[m]? = some a)
    (hstage : a.stage = .restore) (ht : t = { s with closing := false, closeOwner := none }.goto m a .over) :
    t.Pursued n ∧ t.rank < s.rank := by
  have v : s.Moves t m a { a with stage := .over } := ⟨ha, by rw [ht]; rfl⟩
  have hone := h.one
  have hpos : 0 < s.tally (· = .restore) := tally_pos (List.mem_of_getElem? ha) (by simp [hstage])
  have hparts := v.tally Stage.parts
  rw [hstage] at hparts
  simp only [Stage.parts, Bool.toNat_true, Bool.toNat_false] at hparts
  have hwaiting : s.closeWaitingForStores = false ∧ t.tally Stage.parts = 0 := by
    refine ⟨?_, by omega⟩
    simpa using (show s.closeWaitingForStores.toNat = 0 by omega)
  have hwaiting' : t.closeWaitingForStores = false := by
    rw [ht]
    exact hwaiting.1
  refine h.other hmn v (by rw [ht]; exact ⟨rfl, rfl⟩) ?_ rfl ?_ (fun hpos ↦ absurd hwaiting.2 hpos.ne')
    (fun stage hp ↦ ?_) (by simp [hstage, Stage.weight])
  · rw [v.tally_eq (by rw [hstage]; rfl) rfl, ht]
    exact h.stores
  · rw [hwaiting', hwaiting.2]
    exact Nat.zero_le _
  · cases hp with
    | queued => exact .queued
    | reserved => exact .reserved
    | close _ _ => exact .close (by rw [ht]; rfl) (.inl (by rw [ht]; rfl))
    | enter _ _ => exact .enter (by rw [ht]; rfl) (.inl (by rw [ht]; rfl))
    | wait _ _ hr => exact absurd hr hpos.ne'
    | parked _ _ hw =>
      rw [hwaiting.1] at hw
      cases hw
    | resumed _ _ _ hr => exact absurd hr hpos.ne'

theorem Pursued.act_other {outcome : Outcome} (h : s.Pursued n) (hmn : m ≠ n) (ha : s.calls[m]? = some a)
    (houtcome : outcome ≠ .rejected) (ht : s.act m a outcome = some t) :
    t.Closing ∨ t.Pursued n ∧ t.rank < s.rank := by
  have hstage := h.others m a ha hmn
  unfold act at ht
  cases hs : a.stage with
  | queuedItem =>
    simp only [hs] at ht
    split_ifs at ht
    cases outcome with
    | accepted thread =>
      obtain rfl := Option.some.inj ht
      exact .inr (h.idle hmn ⟨ha, rfl⟩ ⟨rfl, rfl⟩ rfl ⟨by rw [hs]; rfl, by rw [hs]; rfl⟩ ⟨rfl, rfl, rfl⟩
        (by simp [hs, Stage.weight]))
    | rejected => exact absurd rfl houtcome
    | ok | failed => cases ht
  | admission =>
    simp only [hs] at ht
    split_ifs at ht with hadmits <;> obtain rfl := Option.some.inj ht
    · simp only [admits, Bool.and_eq_true, Bool.not_eq_true'] at hadmits
      exact .inr (h.enterStore hmn ha hs hadmits.2)
    · exact .inr (h.idle hmn ⟨ha, rfl⟩ ⟨rfl, rfl⟩ rfl ⟨by rw [hs]; rfl, by rw [hs]; rfl⟩ ⟨rfl, rfl, rfl⟩
        (by simp [hs, Stage.weight]))
  | storing =>
    simp only [hs, leaveStore] at ht
    cases hresumes : s.resumes with
    | true =>
      rw [hresumes] at ht
      obtain rfl := Option.some.inj ht
      exact .inr (h.resume hmn ⟨ha, rfl⟩ hs rfl hresumes rfl rfl rfl rfl rfl ⟨rfl, rfl⟩)
    | false =>
      rw [hresumes] at ht
      obtain rfl := Option.some.inj ht
      exact .inr (h.leave hmn ⟨ha, rfl⟩ hs rfl hresumes rfl rfl rfl rfl rfl ⟨rfl, rfl⟩)
  | enter x =>
    rw [hs] at hstage
    cases x <;> cases hstage
    simp only [hs] at ht
    obtain rfl := Option.some.inj ht
    exact h.enter_resumed hmn ha hs
  | restore =>
    simp only [hs] at ht
    exact .inr (h.restore hmn ha hs (Option.some.inj ht).symm)
  | _ =>
    first
      | (rw [hs] at hstage; cases hstage; done)
      | (simp only [hs] at ht; cases ht)

/-! ## There is always a step -/

/-- A store can leave. -/
theorem exists_act_of_stores (hpos : 0 < s.tally Stage.stores) :
    ∃ label : Label, label.goesOn ∧ (s.step label).isSome = true := by
  obtain ⟨a, ha, hstage⟩ := List.countP_pos_iff.1 hpos
  obtain ⟨k, hk⟩ := List.getElem?_of_mem ha
  have hs : a.stage = .storing := by
    revert hstage
    cases a.stage <;> simp [Stage.stores]
  refine ⟨.act k .ok, nofun, ?_⟩
  simp only [State.step, hk, Option.bind_some, act, hs, Option.isSome_some]

/-- The first call of the chain that is not over has its turn. -/
theorem Pursued.exists_act_of_queued (h : s.Pursued n) (ha : s.calls[n]? = some a)
    (hstage : a.stage = .queuedClose) (hqueued : a.queued = true) :
    ∃ label : Label, label.goesOn ∧ (s.step label).isSome = true := by
  classical
  have hex : ∃ k, ∃ c : Call, s.calls[k]? = some c ∧ c.queued = true ∧ c.stage.finished = false :=
    ⟨n, a, ha, hqueued, by rw [hstage]; rfl⟩
  obtain ⟨c, hk, hc, hlive⟩ := Nat.find_spec hex
  have hturn : s.turn (Nat.find hex) c = true := by
    unfold State.turn
    rw [List.all_eq_true]
    intro d hd
    obtain ⟨i, hi⟩ := List.getElem?_of_mem (List.mem_of_mem_drop hd)
    rw [List.getElem?_take] at hi
    split_ifs at hi with hlt
    have := Nat.find_min hex hlt
    cases hq : d.queued with
    | false => rfl
    | true =>
      by_contra hf
      exact this ⟨d, hi, hq, by simpa using hf⟩
  generalize Nat.find hex = k at hk hturn
  -- whoever it is can go on
  by_cases hkn : k = n
  · subst hkn
    obtain rfl := Option.some.inj (hk.symm.trans ha)
    refine ⟨.act k (.accepted 0), by rintro ⟨⟩, ?_⟩
    simp only [State.step, hk, Option.bind_some, act, hstage, hturn, if_true, Option.isSome_some]
  · have hstage := h.others k c hk hkn
    cases hs : c.stage with
    | queuedItem =>
      refine ⟨.act k (.accepted 0), by rintro ⟨⟩, ?_⟩
      simp only [State.step, hk, Option.bind_some, act, hs, hturn, if_true, Option.isSome_some]
    | admission =>
      refine ⟨.act k .ok, by rintro ⟨⟩, ?_⟩
      simp only [State.step, hk, Option.bind_some, act, hs]
      split_ifs <;> rfl
    | storing | restore =>
      refine ⟨.act k .ok, by rintro ⟨⟩, ?_⟩
      simp only [State.step, hk, Option.bind_some, act, hs, Option.isSome_some]
    | enter x =>
      refine ⟨.act k .ok, by rintro ⟨⟩, ?_⟩
      simp only [State.step, hk, Option.bind_some, act, hs, Option.isSome_some]
    | _ =>
      first
        | (rw [hs] at hstage; cases hstage; done)
        | (rw [hs] at hlive; cases hlive)

theorem Pursued.exists_act (h : s.Pursued n) :
    ∃ label : Label, label.goesOn ∧ (s.step label).isSome = true := by
  obtain ⟨c, hc, hqueued, -, hpursuit⟩ := h.self
  generalize hs : c.stage = stage at hpursuit
  cases hpursuit with
  | queued => exact h.exists_act_of_queued hc hs (hqueued hs)
  | reserved =>
    refine ⟨.act n .ok, nofun, ?_⟩
    simp only [State.step, hc, Option.bind_some, act, hs, Option.isSome_some]
  | close =>
    refine ⟨.act n .ok, nofun, ?_⟩
    simp only [State.step, hc, Option.bind_some, act, hs]
    split_ifs <;> rfl
  | enter =>
    refine ⟨.act n .ok, nofun, ?_⟩
    simp only [State.step, hc, Option.bind_some, act, hs, Option.isSome_some]
  | wait =>
    by_cases hcount : s.activeStoreCount = 0
    · refine ⟨.act n .ok, nofun, ?_⟩
      simp only [State.step, hc, Option.bind_some, act, hs, State.await, hcount, if_true, Option.map_some,
        Option.isSome_some]
    · exact exists_act_of_stores (by rw [← h.stores]; omega)
  | parked _ _ _ hcount => exact exists_act_of_stores (h.stores ▸ hcount)
  | resumed _ _ hpos _ =>
    obtain ⟨a, ha, hstage⟩ := List.countP_pos_iff.1 hpos
    obtain ⟨k, hk⟩ := List.getElem?_of_mem ha
    have hs : a.stage = .enter .resumed := by simpa using hstage
    refine ⟨.act k .ok, nofun, ?_⟩
    simp only [State.step, hk, Option.bind_some, act, hs, Option.isSome_some]

end State

/-- An attempt that nobody else gets in the way of comes to the strategy. -/
theorem inevitable_of_pursued (ownsConnectionManager : Bool) {n : ℕ} {s : State} (h : s.Pursued n) :
    (machine ownsConnectionManager).Inevitable Label.goesOn State.Closing s := by
  refine Machine.Inevitable.of_rank (I := State.Pursued n) State.rank (fun s hs _ ↦ hs.exists_act)
    (fun s label t hs _ hlabel ht ↦ ?_) h
  cases label with
  | act m outcome =>
    obtain ⟨a, ha, ht⟩ := Option.bind_eq_some_iff.1 ht
    by_cases hmn : m = n
    · subst hmn
      exact hs.act_self ha hlabel ht
    · exact hs.act_other hmn ha hlabel ht
  | _ => cases hlabel

end Pipeline

end ScrapyExtension
