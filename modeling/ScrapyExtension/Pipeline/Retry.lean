import ScrapyExtension.Pipeline.Attempt

/-!
# A close that has failed

A strategy that raises keeps the pipeline from being closed, and the close is to be called again. What this
takes depends on who had called it. A store that has resumed a close gives it back, and an open that is rolled
back goes on to the end. The close of a caller or of a worker leaves the pipeline closing, without an owner:
`_close_locked` takes it over, but `_close_spider_async` asks for `_closing` alone and refuses every close
from then on.

Apart from this, whenever the pipeline is closing somebody is about to close it or to give it back: the owner,
a reservation and its worker, a parked close, or what is left of an attempt that has failed. So a pipeline
without any of them is not closing, and the next close comes to the strategy by either route.
-/

namespace ScrapyExtension

namespace Pipeline

namespace Stage

/-- The call has no part in a close. -/
def quiet : Stage → Bool
  | admission | queuedItem | rejected | afterOpen | start _ | opening _ | openFailed _ | opened _ | overtaken
  | observe | release _ => true
  | _ => false

/-- The call ends an attempt, or gives it back. -/
def strong (stage : Stage) : Bool := stage.holds || stage.parts

end Stage

/-- The worker of a reservation, on its way to `_close_locked`. -/
def Call.rides (c : Call) : Bool :=
  c.queued && (c.stage = .close || c.stage = .awaitOpen || c.stage = .enter .plain)

namespace State

variable {s t : State} {n : ℕ} {a b : Call}

def Has (s : State) (p : Call → Bool) : Prop := ∃ c ∈ s.calls, p c = true

theorem Moves.has (m : s.Moves t n a b) {p : Call → Bool} (h : s.Has p) (hab : p a = true → p b = true) :
    t.Has p := by
  obtain ⟨c, hc, hp⟩ := h
  obtain ⟨i, hi⟩ := List.getElem?_of_mem hc
  by_cases hin : i = n
  · subst hin
    obtain rfl := Option.some.inj (hi.symm.trans m.was)
    exact ⟨b, List.mem_of_getElem? m.isNow, hab hp⟩
  · refine ⟨c, List.mem_of_getElem? (i := i) ?_, hp⟩
    rw [m.now, List.getElem?_set_ne (Ne.symm hin)]
    exact hi

theorem Moves.has_now (m : s.Moves t n a b) {p : Call → Bool} (hb : p b = true) : t.Has p :=
  ⟨b, List.mem_of_getElem? m.isNow, hb⟩

theorem Has.call {c : Call} {p : Call → Bool} (h : s.Has p) (hcalls : t.calls = s.calls ++ [c]) :
    t.Has p := by
  obtain ⟨d, hd, hp⟩ := h
  exact ⟨d, hcalls ▸ List.mem_append_left _ hd, hp⟩

/-! ## Who closes -/

/-- A close waits for a store to leave. -/
def Parked (s : State) : Prop := s.closeWaitingForStores = true ∧ 0 < s.activeStoreCount

/-- Somebody closes the pipeline, or gives the attempt back. -/
def Lively (s : State) : Prop :=
  s.Has (·.stage.strong) ∨ s.Parked ∨
    (s.isOpening = false ∧
      (s.Has (·.stage.reserves) ∨ (s.closeAsyncPending = false ∧ s.Has Call.rides)))

structure Alive (s : State) : Prop where
  stores : s.activeStoreCount = s.tally Stage.stores
  owner : ∀ j, s.closeOwner = some j → s.closing = true ∧
    (s.Has (fun c ↦ c.stage.holds && c.thread = j) ∨ s.Parked)
  attempt : s.closing = true → s.closed = false → s.Lively
  opening : s.isOpening = false → s.openingGeneration = none
  queued : ∀ c ∈ s.calls, c.stage.reserves = true → c.queued = true
  plain : ∀ c ∈ s.calls, c.stage ≠ .failing .plain

/-- A call goes on, and what it has to do with an attempt stays. -/
theorem Alive.move (h : s.Alive) (m : s.Moves t n a b) (hflags : t.flags = s.flags)
    (hclosed : t.closed = s.closed)
    (hopening : (t.isOpening = s.isOpening ∧ t.openingGeneration = s.openingGeneration) ∨
      (t.isOpening = false ∧ t.openingGeneration = none))
    (hstores : a.stage.stores = false ∧ b.stage.stores = false)
    (hholds : a.stage.holds = true → b.stage.holds = true ∧ b.thread = a.thread)
    (hstrong : a.stage.strong = true → b.stage.strong = true)
    (hreserves : a.stage.reserves = true → b.stage.reserves = true)
    (hrides : a.rides = true → b.rides = true ∨ s.isOpening = true)
    (hqueued : b.stage.reserves = true → b.queued = true) (hplain : b.stage ≠ .failing .plain) : t.Alive := by
  unfold flags at hflags
  simp only [Prod.mk.injEq] at hflags
  obtain ⟨hclosing, howner, hpending, hwaiting, hcount⟩ := hflags
  have hparked : s.Parked → t.Parked := fun hp ↦ ⟨hwaiting.trans hp.1, hcount ▸ hp.2⟩
  refine ⟨?_, fun j hj ↦ ?_, fun hc hopen ↦ ?_, fun ho ↦ ?_, ?_, ?_⟩
  · rw [hcount, h.stores, m.tally_eq hstores.1 hstores.2]
  · obtain ⟨hc, hhas | hp⟩ := h.owner j (howner ▸ hj)
    · refine ⟨hclosing.trans hc, .inl (m.has hhas fun ha ↦ ?_)⟩
      simp only [Bool.and_eq_true, decide_eq_true_eq] at ha ⊢
      exact ⟨(hholds ha.1).1, (hholds ha.1).2.trans ha.2⟩
    · exact ⟨hclosing.trans hc, .inr (hparked hp)⟩
  · rcases h.attempt (hclosing ▸ hc) (hclosed ▸ hopen) with hhas | hp | ⟨ho, hroute⟩
    · exact .inl (m.has hhas hstrong)
    · exact .inr (.inl (hparked hp))
    · have ho' : t.isOpening = false := hopening.elim (fun hsame ↦ hsame.1.trans ho) fun hend ↦ hend.1
      refine .inr (.inr ⟨ho', hroute.imp (fun hhas ↦ m.has hhas hreserves) fun ⟨hp, hhas⟩ ↦ ?_⟩)
      refine ⟨hpending.trans hp, m.has hhas fun ha ↦ (hrides ha).resolve_right ?_⟩
      rw [ho]
      exact nofun
  · rcases hopening with ⟨ho', hg⟩ | ⟨-, hg⟩
    · exact hg.trans (h.opening (ho' ▸ ho))
    · exact hg
  · rw [m.now]
    exact List.forall_mem_set h.queued hqueued
  · rw [m.now]
    exact List.forall_mem_set h.plain hplain

/-- What has to be shown of a step. -/
theorem Alive.of_step (h : s.Alive) (m : s.Moves t n a b) (hstores : t.activeStoreCount = t.tally Stage.stores)
    (howner : ∀ j, t.closeOwner = some j → t.closing = true ∧
      (t.Has (fun c ↦ c.stage.holds && c.thread = j) ∨ t.Parked))
    (hattempt : t.closing = true → t.closed = false → t.Lively)
    (hopening : t.isOpening = s.isOpening ∧ t.openingGeneration = s.openingGeneration)
    (hqueued : b.stage.reserves = true → b.queued = true) (hplain : b.stage ≠ .failing .plain) : t.Alive := by
  refine ⟨hstores, howner, hattempt, fun ho ↦ hopening.2.trans (h.opening (hopening.1 ▸ ho)), ?_, ?_⟩
  · rw [m.now]
    exact List.forall_mem_set h.queued hqueued
  · rw [m.now]
    exact List.forall_mem_set h.plain hplain

/-- The step gives the attempt back. -/
theorem Alive.free (h : s.Alive) (m : s.Moves t n a b) (hclosing : t.closing = false)
    (howner : t.closeOwner = none) (hstores : t.activeStoreCount = t.tally Stage.stores)
    (hopening : t.isOpening = s.isOpening ∧ t.openingGeneration = s.openingGeneration)
    (hb : b.stage.reserves = false) (hplain : b.stage ≠ .failing .plain) : t.Alive := by
  refine h.of_step m hstores (fun j hj ↦ ?_) (fun hc ↦ ?_) hopening (fun hr ↦ ?_) hplain
  · rw [howner] at hj
    cases hj
  · rw [hclosing] at hc
    cases hc
  · rw [hb] at hr
    cases hr

/-- A call that has nothing to do with an attempt. -/
theorem Alive.idle (h : s.Alive) (m : s.Moves t n a b) (hflags : t.flags = s.flags)
    (hclosed : t.closed = s.closed)
    (hopening : (t.isOpening = s.isOpening ∧ t.openingGeneration = s.openingGeneration) ∨
      (t.isOpening = false ∧ t.openingGeneration = none))
    (hstores : a.stage.stores = false ∧ b.stage.stores = false) (ha : a.stage.engaged = false)
    (hrides : a.rides = true → b.rides = true ∨ s.isOpening = true) (hb : b.stage.reserves = false)
    (hplain : b.stage ≠ .failing .plain) : t.Alive := by
  simp only [Stage.engaged, Bool.or_eq_false_iff] at ha
  obtain ⟨⟨hholds, hparts⟩, hreserves⟩ := ha
  refine h.move m hflags hclosed hopening hstores (fun hh ↦ ?_) (fun hs ↦ ?_) (fun hr ↦ ?_) hrides
    (fun hr ↦ ?_) hplain
  · rw [hholds] at hh
    cases hh
  · rw [Stage.strong, hholds, hparts] at hs
    cases hs
  · rw [hreserves] at hr
    cases hr
  · rw [hb] at hr
    cases hr

theorem engaged_idle_done (c : Call) : (done c).reserves = false ∧ done c ≠ .failing .plain := by
  unfold done
  split <;> exact ⟨rfl, nofun⟩

/-- A store leaves. -/
theorem Alive.leaveStore (h : s.Alive) (ha : s.calls[n]? = some a) (hstage : a.stage = .storing) :
    ((s.leaveStore a.thread).goto n a (if s.resumes then .enter .resumed else .over)).Alive := by
  have hcount : 0 < s.activeStoreCount :=
    h.stores ▸ tally_pos (List.mem_of_getElem? ha) (by rw [hstage]; rfl)
  have hstores : ∀ {u : State} {c : Call}, s.Moves u n a c → c.stage.stores = false →
      u.activeStoreCount = s.activeStoreCount - 1 → u.activeStoreCount = u.tally Stage.stores := by
    intro u c m hc hu
    have htally := m.tally Stage.stores
    have := h.stores
    have hold : a.stage.stores = true := by rw [hstage]; rfl
    rw [hold, hc] at htally
    simp only [Bool.toNat_true, Bool.toNat_false] at htally
    omega
  unfold State.leaveStore
  cases hresumes : s.resumes with
  | true =>
    have m : s.Moves (State.goto { s with
        activeStoreCount := s.activeStoreCount - 1
        activeStoreThreads :=
          Function.update s.activeStoreThreads a.thread (s.activeStoreThreads a.thread - 1)
        closeWaitingForStores := false
        closeOwner := none } n a (.enter .resumed)) n a { a with stage := .enter .resumed } := ⟨ha, rfl⟩
    exact h.of_step m (hstores m rfl rfl) nofun (fun _ _ ↦ .inl (m.has_now rfl)) ⟨rfl, rfl⟩ nofun nofun
  | false =>
    have m : s.Moves (State.goto { s with
        activeStoreCount := s.activeStoreCount - 1
        activeStoreThreads :=
          Function.update s.activeStoreThreads a.thread (s.activeStoreThreads a.thread - 1) } n a .over)
        n a { a with stage := .over } := ⟨ha, rfl⟩
    have hparked : s.closing = true → s.Parked → (State.goto { s with
        activeStoreCount := s.activeStoreCount - 1
        activeStoreThreads :=
          Function.update s.activeStoreThreads a.thread (s.activeStoreThreads a.thread - 1) }
        n a .over).Parked := by
      intro hc hp
      unfold resumes at hresumes
      simp only [hc, hp.1, Bool.and_true, decide_eq_false_iff_not] at hresumes
      exact ⟨hp.1, show 0 < s.activeStoreCount - 1 by omega⟩
    refine h.of_step m (hstores m rfl rfl) (fun j hj ↦ ?_) (fun hc hopen ↦ ?_) ⟨rfl, rfl⟩ nofun nofun
    · obtain ⟨hc, hhas | hp⟩ := h.owner j hj
      · exact ⟨hc, .inl (m.has hhas (by simp [hstage, Stage.holds]))⟩
      · exact ⟨hc, .inr (hparked hc hp)⟩
    · rcases h.attempt hc hopen with hhas | hp | ⟨ho, hr | ⟨hp, hr⟩⟩
      · exact .inl (m.has hhas (by simp [hstage, Stage.strong, Stage.holds, Stage.parts]))
      · exact .inr (.inl (hparked hc hp))
      · exact .inr (.inr ⟨ho, .inl (m.has hr (by simp [hstage, Stage.reserves]))⟩)
      · exact .inr (.inr ⟨ho, .inr ⟨hp, m.has hr (by simp [Call.rides, hstage])⟩⟩)

/-- The wait for the stores, for the owner. -/
theorem Alive.await {x : Context} {r : State × Stage} (h : s.Alive) (ha : s.calls[n]? = some a)
    (hstage : a.stage = .wait x) (hr : s.await a x = some r) : (r.1.goto n a r.2).Alive := by
  have hidle : a.stage.stores = false := by
    rw [hstage]
    rfl
  unfold State.await at hr
  split_ifs at hr with hcount hthreads <;> obtain rfl := Option.some.inj hr
  · have m : s.Moves ({ s with closeWaitingForStores := false }.goto n a (.closing x)) n a
        { a with stage := .closing x } := ⟨ha, rfl⟩
    refine h.of_step m ?_ (fun j hj ↦ ?_) (fun _ _ ↦ .inl (m.has_now rfl)) ⟨rfl, rfl⟩ nofun nofun
    · rw [m.tally_eq hidle rfl]
      exact h.stores
    · obtain ⟨hc, hhas | hp⟩ := h.owner j hj
      · refine ⟨hc, .inl (m.has hhas fun hp ↦ ?_)⟩
        simp only [Bool.and_eq_true, decide_eq_true_eq] at hp ⊢
        exact ⟨rfl, hp.2⟩
      · exact absurd hcount hp.2.ne'
  · have m : s.Moves ({ s with closeWaitingForStores := true }.goto n a (done a)) n a
        { a with stage := done a } := ⟨ha, rfl⟩
    have hparked : ({ s with closeWaitingForStores := true }.goto n a (done a)).Parked :=
      ⟨rfl, Nat.pos_of_ne_zero hcount⟩
    obtain ⟨hreserves, hplain⟩ := engaged_idle_done a
    refine h.of_step m ?_ (fun j hj ↦ ⟨(h.owner j hj).1, .inr hparked⟩) (fun _ _ ↦ .inr (.inl hparked)) ⟨rfl, rfl⟩
      (fun hb ↦ ?_) hplain
    · rw [m.tally_eq hidle (stores_done a)]
      exact h.stores
    · rw [hreserves] at hb
      cases hb

/-- A call ends that has found the pipeline closed. -/
theorem Alive.over_of_closed {stage : Stage} (h : s.Alive) (ha : s.calls[n]? = some a) (hclosed : s.closed = true)
    (hidle : a.stage.stores = false ∧ a.stage.holds = false)
    (hnext : stage.stores = false ∧ stage.reserves = false ∧ stage ≠ .failing .plain) :
    (s.goto n a stage).Alive := by
  have m : s.Moves (s.goto n a stage) n a { a with stage } := ⟨ha, rfl⟩
  refine h.of_step m ?_ (fun j hj ↦ ?_) (fun _ hopen ↦ ?_) ⟨rfl, rfl⟩ (fun hr ↦ ?_) hnext.2.2
  · rw [m.tally_eq hidle.1 hnext.1]
    exact h.stores
  · obtain ⟨hc, hhas | hp⟩ := h.owner j hj
    · exact ⟨hc, .inl (m.has hhas (by simp [hidle.2]))⟩
    · exact ⟨hc, .inr hp⟩
  · have hopen : s.closed = false := hopen
    rw [hclosed] at hopen
    cases hopen
  · have hr := hnext.2.1.symm.trans hr
    cases hr

/-- A close is given up for the sake of another one. -/
theorem Alive.enter_refused {x : Context} (h : s.Alive) (ha : s.calls[n]? = some a)
    (hstage : a.stage = .enter x) (hopen : s.closed = false) (htakes : s.takes a.thread = false)
    (hnext : b = { a with stage := raised a x } ∨
      b = { a with stage := done a } ∧ (x = .resumed → s.recursive a.thread = true)) :
    (s.goto n a b.stage).Alive := by
  have hidle : a.stage.stores = false ∧ a.stage.holds = false ∧ a.stage.reserves = false := by
    rw [hstage]
    exact ⟨rfl, rfl, rfl⟩
  have hbstage : b.stage.stores = false ∧ b.stage.reserves = false ∧ b.stage ≠ .failing .plain := by
    have hdone := engaged_idle_done a
    rcases hnext with rfl | ⟨rfl, -⟩
    · refine ⟨(raised_idle a x).2.2.1, ?_⟩
      cases x with
      | resumed => exact ⟨rfl, nofun⟩
      | plain | forced => exact hdone
    · exact ⟨stores_done a, hdone⟩
  have m : s.Moves (s.goto n a b.stage) n a { a with stage := b.stage } := ⟨ha, rfl⟩
  have howner : ∀ j, s.closeOwner = some j → s.closing = true ∧
      ((s.goto n a b.stage).Has (fun c ↦ c.stage.holds && c.thread = j) ∨ (s.goto n a b.stage).Parked) := by
    intro j hj
    obtain ⟨hc, hhas | hp⟩ := h.owner j hj
    · exact ⟨hc, .inl (m.has hhas (by simp [hidle.2.1]))⟩
    · exact ⟨hc, .inr hp⟩
  -- an owner is somebody else
  have hlively : s.closeOwner.isSome = true → (s.goto n a b.stage).Lively := by
    intro hsome
    obtain ⟨j, hj⟩ := Option.isSome_iff_exists.1 hsome
    rcases (howner j hj).2 with ⟨c, hc, hp⟩ | hp
    · refine .inl ⟨c, hc, ?_⟩
      simp only [Bool.and_eq_true] at hp
      simp [Stage.strong, hp.1]
    · exact .inr (.inl hp)
  refine h.of_step m ?_ howner (fun hclosing _ ↦ ?_) ⟨rfl, rfl⟩ (fun hr ↦ ?_) hbstage.2.2
  · rw [m.tally_eq hidle.1 hbstage.1]
    exact h.stores
  · have hclosing : s.closing = true := hclosing
    cases hsome : s.closeOwner with
    | some j => exact hlively (by rw [hsome]; rfl)
    | none =>
      have hpending : s.closeAsyncPending = true := by
        simpa [takes, recursive, refuses, hopen, hclosing, hsome] using htakes
      rcases h.attempt hclosing hopen with hhas | hp | ⟨ho, hroute | ⟨hp, -⟩⟩
      · refine .inl (m.has hhas fun hs ↦ ?_)
        -- only a close that is resumed has something to give back
        obtain rfl : x = .resumed := by
          rw [hstage] at hs
          cases x with
          | resumed => rfl
          | plain | forced => cases hs
        rcases hnext with rfl | ⟨-, hrecursive⟩
        · rfl
        · have := hrecursive rfl
          simp [recursive, hsome] at this
      · exact .inr (.inl hp)
      · exact .inr (.inr ⟨ho, .inl (m.has hroute (by simp [hidle.2.2]))⟩)
      · rw [hpending] at hp
        cases hp
  · rw [hbstage.2.1] at hr
    cases hr

/-- The first section of `_close_locked` -/
theorem Alive.enter {x : Context} (h : s.Alive) (ha : s.calls[n]? = some a) (hstage : a.stage = .enter x) :
    ((s.enter a x).1.goto n a (s.enter a x).2).Alive := by
  have hidle : a.stage.stores = false := by
    rw [hstage]
    rfl
  have hdone := engaged_idle_done a
  by_cases hclosed : s.closed = true
  · have hpair : s.enter a x = (s, done a) := by unfold State.enter; rw [if_pos hclosed]
    rw [hpair]
    exact h.over_of_closed ha hclosed (by rw [hstage]; exact ⟨rfl, rfl⟩) ⟨stores_done a, hdone⟩
  have hopen : s.closed = false := by simpa using hclosed
  by_cases hrecursive : s.recursive a.thread = true
  · have hpair : s.enter a x = (s, done a) := by unfold State.enter; rw [if_neg hclosed, if_pos hrecursive]
    rw [hpair]
    exact h.enter_refused ha hstage hopen (by unfold takes; simp [hrecursive]) (.inr ⟨rfl, fun _ ↦ hrecursive⟩)
  by_cases hrefuses : s.refuses a.thread = true
  · have hpair : s.enter a x = (s, raised a x) := by
      unfold State.enter
      rw [if_neg hclosed, if_neg hrecursive, if_pos hrefuses]
    rw [hpair]
    exact h.enter_refused ha hstage hopen (by unfold takes; simp [hrefuses]) (.inl rfl)
  rcases enter_cases s a x with ⟨htakes, -⟩ | ⟨-, -, hpair⟩ | ⟨-, hcount, -, hpair⟩ | ⟨-, -, -, hpair⟩
  · unfold takes at htakes
    simp [hopen, hrecursive, hrefuses] at htakes
  all_goals rw [hpair]
  · have m : s.Moves ({ s.claim a.thread with closeWaitingForStores := false }.goto n a (.closing x)) n a
        { a with stage := .closing x } := ⟨ha, rfl⟩
    refine h.of_step m ?_ (fun j hj ↦ ⟨rfl, .inl (m.has_now ?_)⟩) (fun _ _ ↦ .inl (m.has_now rfl)) ⟨rfl, rfl⟩
      nofun nofun
    · rw [m.tally_eq hidle rfl]
      exact h.stores
    · rw [Bool.and_eq_true, decide_eq_true_eq]
      exact ⟨rfl, Option.some.inj hj⟩
  · have m : s.Moves ({ s.claim a.thread with closeWaitingForStores := true }.goto n a (done a)) n a
        { a with stage := done a } := ⟨ha, rfl⟩
    refine h.of_step m ?_ (fun j _ ↦ ⟨rfl, .inr ⟨rfl, hcount⟩⟩) (fun _ _ ↦ .inr (.inl ⟨rfl, hcount⟩)) ⟨rfl, rfl⟩
      (fun hr ↦ ?_) hdone.2
    · rw [m.tally_eq hidle (stores_done a)]
      exact h.stores
    · rw [hdone.1] at hr
      cases hr
  · have m : s.Moves ((s.claim a.thread).goto n a (.wait x)) n a { a with stage := .wait x } := ⟨ha, rfl⟩
    refine h.of_step m ?_ (fun j hj ↦ ⟨rfl, .inl (m.has_now ?_)⟩) (fun _ _ ↦ .inl (m.has_now rfl)) ⟨rfl, rfl⟩
      nofun nofun
    · rw [m.tally_eq hidle rfl]
      exact h.stores
    · rw [Bool.and_eq_true, decide_eq_true_eq]
      exact ⟨rfl, Option.some.inj hj⟩

/-- A new call. -/
theorem Alive.call {c : Call} (h : s.Alive) (hcalls : t.calls = s.calls ++ [c])
    (hc : c.stage.stores = false ∧ c.stage ≠ .failing .plain) (hqueued : c.stage.reserves = true → c.queued = true)
    (hcount : t.activeStoreCount = s.activeStoreCount)
    (howner : t.closeOwner = s.closeOwner ∧ t.closeWaitingForStores = s.closeWaitingForStores ∧
      (s.closing = true → t.closing = true))
    (hattempt : t.closing = true → t.closed = false → t.Lively)
    (hopening : t.isOpening = false → t.openingGeneration = none) : t.Alive := by
  have hnew : ∀ {P : Call → Prop}, (∀ d ∈ s.calls, P d) → P c → ∀ d ∈ t.calls, P d := by
    intro P hold hcP d hd
    rw [hcalls, List.mem_append, List.mem_singleton] at hd
    rcases hd with hd | rfl
    · exact hold d hd
    · exact hcP
  refine ⟨?_, fun j hj ↦ ?_, hattempt, hopening, hnew h.queued hqueued, hnew h.plain hc.2⟩
  · have htally : t.tally Stage.stores = s.tally Stage.stores := by
      rw [tally, hcalls]
      exact (List.countP_concat _ _ _).trans (by rw [hc.1]; rfl)
    rw [hcount, htally, h.stores]
  · obtain ⟨hcl, hhas⟩ := h.owner j (howner.1 ▸ hj)
    exact ⟨howner.2.2 hcl, hhas.imp (fun hhas ↦ hhas.call hcalls)
      fun hp ↦ ⟨howner.2.1.trans hp.1, hcount ▸ hp.2⟩⟩

/-- What is under way stays under way. -/
theorem Lively.call {c : Call} (h : s.Lively) (hcalls : t.calls = s.calls ++ [c])
    (hparked : t.closeWaitingForStores = s.closeWaitingForStores ∧
      t.activeStoreCount = s.activeStoreCount)
    (hroute : s.isOpening = false → t.isOpening = false ∧ t.closeAsyncPending = s.closeAsyncPending) :
    t.Lively := by
  rcases h with hhas | hp | ⟨ho, hr⟩
  · exact .inl (hhas.call hcalls)
  · exact .inr (.inl ⟨hparked.1.trans hp.1, hparked.2 ▸ hp.2⟩)
  · obtain ⟨ho', hpending⟩ := hroute ho
    exact .inr (.inr ⟨ho', hr.imp (fun hhas ↦ hhas.call hcalls)
      fun ⟨hp, hhas⟩ ↦ ⟨hpending.trans hp, hhas.call hcalls⟩⟩)

theorem Alive.closeSpiderAsync (h : s.Alive) : s.closeSpiderAsync.Alive := by
  unfold State.closeSpiderAsync
  split_ifs with hclosed hopening hbusy
  · exact h
  · refine h.call rfl ⟨rfl, nofun⟩ nofun rfl ⟨rfl, rfl, id⟩ (fun hc hopen ↦ ?_) h.opening
    refine (h.attempt hc hopen).call rfl ⟨rfl, rfl⟩ fun ho ↦ ?_
    rw [hopening.1] at ho
    cases ho
  · exact h
  · refine h.call rfl ⟨rfl, nofun⟩ (fun _ ↦ rfl) rfl ⟨rfl, rfl, fun _ ↦ rfl⟩ (fun _ _ ↦ ?_) h.opening
    refine .inr (.inr ⟨?_, .inl ⟨_, List.mem_append_right _ (List.mem_singleton_self _), rfl⟩⟩)
    have ho : s.isOpening ≠ true := fun ho ↦ hbusy (.inl ho)
    exact Bool.eq_false_iff.2 ho

/-! ## Runs -/

/-- A strategy that raises is closed by a store that leaves, or by an open that is rolled back. -/
def Forgiving (s : State) : Label → Prop
  | .act n outcome => ∀ c ∈ s.calls[n]?, c.stage = .closing .plain → outcome = .ok
  | _ => True

instance (s : State) : DecidablePred s.Forgiving
  | .act n _ => inferInstanceAs (Decidable (∀ c ∈ s.calls[n]?, _))
  | .process _ | .close _ | .openSpider _ | .processAsync | .closeAsync | .openAsync _ => isTrue trivial

theorem openSpider_opening (s : State) (c : Call) (g : Option ℕ) :
    s.openSpider c g = (s, done c) ∨ (s.closing = false ∧ g = none) ∨
      (∃ g', s.openingGeneration = some g' ∧
        s.openSpider c g = ({ s with isOpening := true, openingOwner := some c.thread }, .opening g')) := by
  unfold openSpider
  split_ifs with h
  · exact .inl rfl
  cases g with
  | none =>
    refine .inr (.inl ⟨?_, rfl⟩)
    simp only [Option.isNone_none, and_true, not_or, Bool.not_eq_true] at h
    exact h.2.1
  | some g =>
    dsimp only
    split_ifs with hg
    · exact .inr (.inr ⟨g, hg, rfl⟩)
    · exact .inl rfl

/-- The first section of an open. -/
theorem Alive.openSpider {g : Option ℕ} (h : s.Alive) (ha : s.calls[n]? = some a) (hstage : a.stage = .start g) :
    ((s.openSpider a g).1.goto n a (s.openSpider a g).2).Alive := by
  have hidle : a.stage.stores = false ∧ a.stage.engaged = false := by
    rw [hstage]
    exact ⟨rfl, rfl⟩
  have hrides : a.rides = false := by unfold Call.rides; simp [hstage]
  have hdone := engaged_idle_done a
  rcases openSpider_opening s a g with hpair | ⟨hclosing, rfl⟩ | ⟨g', hg, hpair⟩
  · rw [hpair]
    refine h.idle (b := { a with stage := done a }) ⟨ha, rfl⟩ rfl rfl (.inl ⟨rfl, rfl⟩)
      ⟨hidle.1, stores_done a⟩ hidle.2 (fun hr ↦ ?_) hdone.1 hdone.2
    rw [hrides] at hr
    cases hr
  · -- nobody closes, so nobody is in the way
    obtain ⟨⟨hcalls, hflags, -, -⟩, hnext⟩ := openSpider_eq s a none
    unfold flags at hflags
    simp only [Prod.mk.injEq] at hflags
    obtain ⟨hclosing', howner, -, -, hcount⟩ := hflags
    have m : s.Moves ((s.openSpider a none).1.goto n a (s.openSpider a none).2) n a
        { a with stage := (s.openSpider a none).2 } := ⟨ha, by unfold goto; rw [hcalls]⟩
    have hb : (s.openSpider a none).2.stores = false ∧ (s.openSpider a none).2.reserves = false ∧
        (s.openSpider a none).2 ≠ .failing .plain := by
      rcases hnext with hnext | ⟨g', hnext⟩ <;> rw [hnext]
      · exact ⟨stores_done a, hdone⟩
      · exact ⟨rfl, rfl, nofun⟩
    have hnone : s.closeOwner = none := by
      by_contra hsome
      obtain ⟨j, hj⟩ := Option.ne_none_iff_exists'.1 hsome
      rw [(h.owner j hj).1] at hclosing
      cases hclosing
    refine ⟨?_, fun j hj ↦ ?_, fun hc ↦ ?_, fun ho ↦ ?_, ?_, ?_⟩
    · rw [m.tally_eq hidle.1 hb.1]
      exact hcount.trans h.stores
    · have hj : s.closeOwner = some j := howner.symm.trans hj
      rw [hnone] at hj
      cases hj
    · have hc : s.closing = true := hclosing'.symm.trans hc
      rw [hclosing] at hc
      cases hc
    · unfold State.openSpider at ho ⊢
      split_ifs at ho ⊢
      · exact h.opening ho
      · cases ho
    · rw [m.now]
      refine List.forall_mem_set h.queued fun hr ↦ ?_
      have hr := hb.2.1.symm.trans hr
      cases hr
    · rw [m.now]
      exact List.forall_mem_set h.plain hb.2.2
  · -- an open has been under way
    have ho : s.isOpening = true := by
      by_contra ho
      rw [h.opening (by simpa using ho)] at hg
      cases hg
    rw [hpair]
    refine h.idle (b := { a with stage := .opening g' }) ⟨ha, rfl⟩ rfl rfl (.inl ⟨?_, rfl⟩) ⟨hidle.1, rfl⟩ hidle.2
      (fun _ ↦ .inr ho) rfl nofun
    exact ho.symm

/-- A call that has nothing to do with closes. -/
theorem Alive.aside (h : s.Alive) (m : s.Moves t n a b) (hflags : t.flags = s.flags)
    (hclosed : t.closed = s.closed)
    (hopening : (t.isOpening = s.isOpening ∧ t.openingGeneration = s.openingGeneration) ∨
      (t.isOpening = false ∧ t.openingGeneration = none))
    (ha : a.stage.stores = false ∧ a.stage.engaged = false ∧ a.rides = false)
    (hb : b.stage.stores = false ∧ b.stage.reserves = false ∧ b.stage ≠ .failing .plain) : t.Alive := by
  refine h.idle m hflags hclosed hopening ⟨ha.1, hb.1⟩ ha.2.1 (fun hr ↦ ?_) hb.2.1 hb.2.2
  rw [ha.2.2] at hr
  cases hr

theorem quiet_of_stage (h : a.stage.quiet = true) :
    a.stage.stores = false ∧ a.stage.engaged = false ∧ a.rides = false := by
  rw [Call.rides]
  revert h
  cases a.stage <;> intro h <;> first | (cases h; done) | simp [Stage.stores, Stage.engaged, Stage.holds,
    Stage.parts, Stage.reserves]

theorem rides_of_queued {stage : Stage} (h : a.rides = true) (hs : stage = .awaitOpen ∨ stage = .enter .plain) :
    ({ a with stage } : Call).rides = true := by
  simp only [Call.rides, Bool.and_eq_true] at h ⊢
  refine ⟨h.1, ?_⟩
  rcases hs with rfl | rfl <;> rfl

/-- The strategy has returned, or has raised below a store or a rollback. -/
theorem Alive.closes {stage : Stage} {x : Context} (h : s.Alive) (ha : s.calls[n]? = some a)
    (hs : a.stage = .closing x)
    (hnext : stage.holds = true ∧ stage.stores = false ∧ stage.reserves = false ∧ stage ≠ .failing .plain) :
    (s.goto n a stage).Alive := by
  obtain ⟨hholds, hstores, hreserves, hplain⟩ := hnext
  refine h.move (b := { a with stage }) ⟨ha, rfl⟩ rfl rfl (.inl ⟨rfl, rfl⟩) ⟨by rw [hs]; rfl, hstores⟩
    (fun _ ↦ ⟨hholds, rfl⟩) (fun _ ↦ ?_) (by rw [hs]; exact nofun) (by simp [Call.rides, hs]) (fun hr ↦ ?_)
    hplain
  · simp [Stage.strong, hholds]
  · have hr := hreserves.symm.trans hr
    cases hr

/-- What is left after a strategy has raised. -/
theorem Alive.fails {stage : Stage} {x : Context} (h : s.Alive) (ha : s.calls[n]? = some a)
    (hs : a.stage = .failing x)
    (hnext : stage.parts = true ∧ stage.stores = false ∧ stage.reserves = false ∧ stage ≠ .failing .plain) :
    (s.fail.goto n a stage).Alive := by
  obtain ⟨hparts, hstores, hreserves, hplain⟩ := hnext
  have m : s.Moves (s.fail.goto n a stage) n a { a with stage } := ⟨ha, rfl⟩
  refine h.of_step m ?_ nofun (fun _ _ ↦ .inl (m.has_now ?_)) ⟨rfl, rfl⟩ (fun hr ↦ ?_) hplain
  · rw [m.tally_eq (by rw [hs]; rfl) hstores]
    exact h.stores
  · simp [Stage.strong, hparts]
  · have hr := hreserves.symm.trans hr
    cases hr

/-- The pipeline is closed. -/
theorem Alive.publish {stage : Stage} {x : Context} {failed : Bool} (h : s.Alive) (ha : s.calls[n]? = some a)
    (hs : a.stage = .publish x failed)
    (hnext : stage.stores = false ∧ stage.reserves = false ∧ stage ≠ .failing .plain) :
    (s.publish.goto n a stage).Alive := by
  obtain ⟨hstores, hreserves, hplain⟩ := hnext
  have m : s.Moves (s.publish.goto n a stage) n a { a with stage } := ⟨ha, rfl⟩
  refine h.of_step m ?_ nofun nofun ⟨rfl, rfl⟩ (fun hr ↦ ?_) hplain
  · rw [m.tally_eq (by rw [hs]; rfl) hstores]
    exact h.stores
  · have hr := hreserves.symm.trans hr
    cases hr

/-- A reservation is handed to its worker. -/
theorem Alive.reserved (h : s.Alive) (ha : s.calls[n]? = some a) (hs : a.stage = .reserved) :
    ({ s with closeAsyncPending := false, closeOwner := none }.goto n a .close).Alive := by
  have hqueued := h.queued a (List.mem_of_getElem? ha) (by rw [hs]; rfl)
  have m : s.Moves ({ s with closeAsyncPending := false, closeOwner := none }.goto n a .close) n a
      { a with stage := .close } := ⟨ha, rfl⟩
  refine h.of_step m ?_ nofun (fun hc hopen ↦ ?_) ⟨rfl, rfl⟩ nofun nofun
  · rw [m.tally_eq (by rw [hs]; rfl) rfl]
    exact h.stores
  · rcases h.attempt hc hopen with hhas | hp | ⟨ho, -⟩
    · exact .inl (m.has hhas (by rw [hs]; exact nofun))
    · exact .inr (.inl hp)
    · refine .inr (.inr ⟨ho, .inr ⟨rfl, m.has_now ?_⟩⟩)
      simp [Call.rides, hqueued]

/-- A store is admitted. -/
theorem Alive.enterStore (h : s.Alive) (ha : s.calls[n]? = some a) (hs : a.stage = .admission)
    (hadmits : s.admits = true) : ((s.enterStore a.thread).goto n a .storing).Alive := by
  unfold admits at hadmits
  simp only [Bool.and_eq_true, Bool.not_eq_true'] at hadmits
  have m : s.Moves ((s.enterStore a.thread).goto n a .storing) n a { a with stage := .storing } := ⟨ha, rfl⟩
  refine h.free m hadmits.2 ?_ ?_ ⟨rfl, rfl⟩ rfl nofun
  · by_contra hsome
    obtain ⟨j, hj⟩ := Option.ne_none_iff_exists'.1 hsome
    have := (h.owner j hj).1
    rw [hadmits.2] at this
    cases this
  · have htally := m.tally Stage.stores
    rw [hs] at htally
    simp only [Stage.stores, Bool.toNat_false, Bool.toNat_true] at htally
    have hcount : ((s.enterStore a.thread).goto n a .storing).activeStoreCount = s.activeStoreCount + 1 := rfl
    rw [hcount, h.stores]
    omega

theorem Alive.act {outcome : Outcome} (h : s.Alive) (ha : s.calls[n]? = some a)
    (hforgiving : s.Forgiving (.act n outcome)) (ht : s.act n a outcome = some t) : t.Alive := by
  have hmem := List.mem_of_getElem? ha
  have hdone := engaged_idle_done a
  have hraised : ∀ x, (raised a x).stores = false ∧ (raised a x).reserves = false ∧
      raised a x ≠ .failing .plain := by
    intro x
    refine ⟨(raised_idle a x).2.2.1, ?_⟩
    cases x with
    | resumed => exact ⟨rfl, nofun⟩
    | plain | forced => exact hdone
  have hfree : ∀ {u : State} {b : Call}, s.Moves u n a b → u.closing = false → u.closeOwner = none →
      u.activeStoreCount = s.activeStoreCount →
      (u.isOpening = s.isOpening ∧ u.openingGeneration = s.openingGeneration) → a.stage.stores = false →
      (b.stage.stores = false ∧ b.stage.reserves = false ∧ b.stage ≠ .failing .plain) → u.Alive := by
    intro u b m hclosing howner hcount hopening hstores hb
    refine h.free m hclosing howner ?_ hopening hb.2.1 hb.2.2
    rw [m.tally_eq hstores hb.1, hcount]
    exact h.stores
  unfold State.act at ht
  cases hs : a.stage <;> simp only [hs] at ht
  case storing =>
    obtain rfl := Option.some.inj ht
    exact h.leaveStore ha hs
  case admission =>
    split_ifs at ht with hadmits <;> obtain rfl := Option.some.inj ht
    · exact h.enterStore ha hs hadmits
    · exact h.aside ⟨ha, rfl⟩ rfl rfl (.inl ⟨rfl, rfl⟩) (quiet_of_stage (by rw [hs]; rfl)) ⟨rfl, rfl, nofun⟩
  case queuedItem =>
    split_ifs at ht
    cases outcome <;> simp only [reduceCtorEq] at ht
    all_goals
      obtain rfl := Option.some.inj ht
      exact h.aside ⟨ha, rfl⟩ rfl rfl (.inl ⟨rfl, rfl⟩) (quiet_of_stage (by rw [hs]; rfl)) ⟨rfl, rfl, nofun⟩
  case queuedClose =>
    have hqueued := h.queued a hmem (by rw [hs]; rfl)
    split_ifs at ht
    cases outcome <;> simp only [reduceCtorEq] at ht
    all_goals obtain rfl := Option.some.inj ht
    · exact h.move ⟨ha, rfl⟩ rfl rfl (.inl ⟨rfl, rfl⟩) ⟨by rw [hs]; rfl, rfl⟩ (by rw [hs]; exact nofun)
        (by rw [hs]; exact nofun) (fun _ ↦ rfl) (by simp [Call.rides, hs]) (fun _ ↦ hqueued) nofun
    · exact hfree ⟨ha, rfl⟩ rfl rfl rfl ⟨rfl, rfl⟩ (by rw [hs]; rfl) ⟨rfl, rfl, nofun⟩
  case reserved =>
    obtain rfl := Option.some.inj ht
    exact h.reserved ha hs
  case rejected =>
    split_ifs at ht <;> obtain rfl := Option.some.inj ht
    · exact hfree ⟨ha, rfl⟩ rfl rfl rfl ⟨rfl, rfl⟩ (by rw [hs]; rfl) ⟨rfl, rfl, nofun⟩
    · exact h.aside ⟨ha, rfl⟩ rfl rfl (.inl ⟨rfl, rfl⟩) (quiet_of_stage (by rw [hs]; rfl)) ⟨rfl, rfl, nofun⟩
  case close =>
    by_cases hclosed : s.closed = true
    · rw [if_pos hclosed] at ht
      obtain rfl := Option.some.inj ht
      exact h.over_of_closed ha hclosed (by rw [hs]; exact ⟨rfl, rfl⟩) ⟨rfl, rfl, nofun⟩
    rw [if_neg hclosed] at ht
    split_ifs at ht with hopening hself <;> obtain rfl := Option.some.inj ht
    · exact h.idle ⟨ha, rfl⟩ rfl rfl (.inl ⟨rfl, rfl⟩) ⟨by rw [hs]; rfl, rfl⟩ (by rw [hs]; rfl)
        (fun _ ↦ .inr hopening) rfl nofun
    · exact h.idle ⟨ha, rfl⟩ rfl rfl (.inl ⟨rfl, rfl⟩) ⟨by rw [hs]; rfl, rfl⟩ (by rw [hs]; rfl)
        (fun _ ↦ .inr hopening) rfl nofun
    · exact h.idle ⟨ha, rfl⟩ rfl rfl (.inl ⟨rfl, rfl⟩) ⟨by rw [hs]; rfl, rfl⟩ (by rw [hs]; rfl)
        (fun hr ↦ .inl (rides_of_queued hr (.inr rfl))) rfl nofun
  case awaitOpen =>
    split_ifs at ht
    obtain rfl := Option.some.inj ht
    exact h.idle ⟨ha, rfl⟩ rfl rfl (.inl ⟨rfl, rfl⟩) ⟨by rw [hs]; rfl, rfl⟩ (by rw [hs]; rfl)
      (fun hr ↦ .inl (rides_of_queued hr (.inr rfl))) rfl nofun
  case enter x =>
    obtain rfl := Option.some.inj ht
    exact h.enter ha hs
  case wait x =>
    obtain ⟨r, hr, rfl⟩ := Option.map_eq_some_iff.1 ht
    exact h.await ha hs hr
  case closing x =>
    obtain rfl := Option.some.inj ht
    split_ifs with hok
    · exact h.closes ha hs ⟨rfl, rfl, rfl, nofun⟩
    · refine h.closes ha hs ⟨rfl, rfl, rfl, fun hx ↦ hok (hforgiving a ha ?_)⟩
      rw [hs, Stage.failing.inj hx]
  case failing x =>
    obtain rfl := Option.some.inj ht
    cases x with
    | plain => exact absurd hs (h.plain a hmem)
    | resumed => exact h.fails ha hs ⟨rfl, rfl, rfl, nofun⟩
    | forced => exact h.fails ha hs ⟨rfl, rfl, rfl, nofun⟩
  case publish x failed =>
    obtain rfl := Option.some.inj ht
    split_ifs
    · exact h.publish ha hs ⟨rfl, rfl, nofun⟩
    · exact h.publish ha hs ⟨stores_done a, hdone⟩
  case release x =>
    obtain rfl := Option.some.inj ht
    split_ifs
    · exact h.aside ⟨ha, rfl⟩ rfl rfl (.inl ⟨rfl, rfl⟩) (quiet_of_stage (by rw [hs]; rfl)) ⟨stores_done a, hdone⟩
    · exact h.aside ⟨ha, rfl⟩ rfl rfl (.inl ⟨rfl, rfl⟩) (quiet_of_stage (by rw [hs]; rfl)) (hraised x)
  case restore =>
    obtain rfl := Option.some.inj ht
    exact hfree ⟨ha, rfl⟩ rfl rfl rfl ⟨rfl, rfl⟩ (by rw [hs]; rfl) ⟨rfl, rfl, nofun⟩
  case afterOpen =>
    obtain rfl := Option.some.inj ht
    have hover : (s.goto n a .over).Alive :=
      h.aside (b := { a with stage := .over }) ⟨ha, rfl⟩ rfl rfl (.inl ⟨rfl, rfl⟩)
        (quiet_of_stage (by rw [hs]; rfl)) ⟨rfl, rfl, nofun⟩
    exact hover.closeSpiderAsync
  case start g =>
    split_ifs at ht <;> obtain rfl := Option.some.inj ht
    · exact h.aside ⟨ha, rfl⟩ rfl rfl (.inl ⟨rfl, rfl⟩) (quiet_of_stage (by rw [hs]; rfl)) ⟨rfl, rfl, nofun⟩
    · exact h.openSpider ha hs
  case opening g =>
    obtain rfl := Option.some.inj ht
    split_ifs
    all_goals
      exact h.aside ⟨ha, rfl⟩ rfl rfl (.inl ⟨rfl, rfl⟩) (quiet_of_stage (by rw [hs]; rfl)) ⟨rfl, rfl, nofun⟩
  case openFailed g =>
    obtain rfl := Option.some.inj ht
    split_ifs
    · exact h.aside ⟨ha, rfl⟩ rfl rfl (.inr ⟨rfl, rfl⟩) (quiet_of_stage (by rw [hs]; rfl)) ⟨rfl, rfl, nofun⟩
    · exact h.aside ⟨ha, rfl⟩ rfl rfl (.inl ⟨rfl, rfl⟩) (quiet_of_stage (by rw [hs]; rfl)) ⟨rfl, rfl, nofun⟩
  case opened g =>
    obtain rfl := Option.some.inj ht
    unfold publishOpen
    dsimp only
    split_ifs
    all_goals first
      | exact h.aside ⟨ha, rfl⟩ rfl rfl (.inr ⟨rfl, rfl⟩) (quiet_of_stage (by rw [hs]; rfl)) ⟨rfl, rfl, nofun⟩
      | exact h.aside ⟨ha, rfl⟩ rfl rfl (.inl ⟨rfl, rfl⟩) (quiet_of_stage (by rw [hs]; rfl)) ⟨rfl, rfl, nofun⟩
  case overtaken =>
    obtain rfl := Option.some.inj ht
    split_ifs
    · exact h.aside ⟨ha, rfl⟩ rfl rfl (.inl ⟨rfl, rfl⟩) (quiet_of_stage (by rw [hs]; rfl)) ⟨stores_done a, hdone⟩
    · exact h.aside ⟨ha, rfl⟩ rfl rfl (.inl ⟨rfl, rfl⟩) (quiet_of_stage (by rw [hs]; rfl)) ⟨rfl, rfl, nofun⟩
  case observe =>
    obtain rfl := Option.some.inj ht
    split_ifs
    · exact h.aside ⟨ha, rfl⟩ rfl rfl (.inr ⟨rfl, rfl⟩) (quiet_of_stage (by rw [hs]; rfl)) ⟨rfl, rfl, nofun⟩
    · exact h.aside ⟨ha, rfl⟩ rfl rfl (.inl ⟨rfl, rfl⟩) (quiet_of_stage (by rw [hs]; rfl)) ⟨rfl, rfl, nofun⟩
  all_goals cases ht

theorem Alive.step {label : Label} (h : s.Alive) (hforgiving : s.Forgiving label) (ht : s.step label = some t) :
    t.Alive := by
  have hcall : ∀ {u : State} {c : Call}, u.calls = s.calls ++ [c] → u.flags = s.flags → u.closed = s.closed →
      (s.isOpening = false → u.isOpening = false) → (u.isOpening = false → u.openingGeneration = none) →
      (c.stage.stores = false ∧ c.stage ≠ .failing .plain ∧ c.stage.reserves = false) → u.Alive := by
    intro u c hcalls hflags hclosed hopening hgeneration hc
    unfold flags at hflags
    simp only [Prod.mk.injEq] at hflags
    obtain ⟨hclosing, howner, hpending, hwaiting, hcount⟩ := hflags
    refine h.call hcalls ⟨hc.1, hc.2.1⟩ (fun hr ↦ ?_) hcount ⟨howner, hwaiting, hclosing.trans⟩
      (fun hcl hopen ↦ ?_) hgeneration
    · rw [hc.2.2] at hr
      cases hr
    · exact (h.attempt (hclosing ▸ hcl) (hclosed ▸ hopen)).call hcalls ⟨hwaiting, hcount⟩
        fun ho ↦ ⟨hopening ho, hpending⟩
  unfold State.step at ht
  cases label with
  | process | close | openSpider =>
    obtain rfl := Option.some.inj ht
    exact hcall rfl rfl rfl id h.opening ⟨rfl, nofun, rfl⟩
  | processAsync =>
    dsimp only at ht
    split_ifs at ht <;> obtain rfl := Option.some.inj ht
    · exact h
    · exact hcall rfl rfl rfl id h.opening ⟨rfl, nofun, rfl⟩
  | openAsync thread =>
    dsimp only at ht
    split_ifs at ht with hbusy <;> obtain rfl := Option.some.inj ht
    · exact h
    · -- an open begins when nobody closes
      refine h.call rfl ⟨rfl, nofun⟩ nofun rfl ⟨rfl, rfl, id⟩ (fun hc ↦ ?_) nofun
      exact absurd (.inr (.inl hc)) hbusy
  | closeAsync =>
    obtain rfl := Option.some.inj ht
    exact h.closeSpiderAsync
  | act n outcome =>
    obtain ⟨a, ha, ht⟩ := Option.bind_eq_some_iff.1 ht
    exact h.act ha hforgiving ht

/-! ## The next close -/

/-- No open and no close is under way, or parked, and the pipeline is not closed. -/
structure Idle (s : State) : Prop where
  closed : s.closed = false
  opening : s.isOpening = false
  parked : ¬ (s.closing = true ∧ s.closeWaitingForStores = true)
  calls : ∀ c ∈ s.calls, c.stage.ofItem = true

theorem Alive.not_closing (h : s.Alive) (hidle : s.Idle) : s.closing = false := by
  by_contra hclosing
  have hclosing : s.closing = true := by simpa using hclosing
  have hnone : ∀ {p : Call → Bool}, (∀ c, p c = true → c.stage.ofItem = false) → ¬ s.Has p := by
    rintro p hp ⟨c, hc, hpc⟩
    have := hidle.calls c hc
    rw [hp c hpc] at this
    cases this
  rcases h.attempt hclosing hidle.closed with hhas | hp | ⟨-, hhas | ⟨-, hhas⟩⟩
  · refine hnone (fun c hc ↦ ?_) hhas
    revert hc
    cases c.stage <;> simp [Stage.strong, Stage.holds, Stage.parts, Stage.ofItem]
  · exact hidle.parked ⟨hclosing, hp.1⟩
  · refine hnone (fun c hc ↦ ?_) hhas
    revert hc
    cases c.stage <;> simp [Stage.reserves, Stage.ofItem]
  · refine hnone (fun c hc ↦ ?_) hhas
    simp only [Call.rides, Bool.and_eq_true] at hc
    revert hc
    cases c.stage <;> simp [Stage.ofItem]

/-- The attempt of a call that has just come. -/
theorem Alive.pursued {c : Call} (h : s.Alive) (hidle : s.Idle) (hcalls : t.calls = s.calls ++ [c])
    (hframe : t.closed = s.closed ∧ t.isOpening = s.isOpening ∧ t.activeStoreCount = s.activeStoreCount)
    (hc : c.stage.stores = false ∧ c.stage.parts = false)
    (hself : (c.stage = .queuedClose → c.queued = true) ∧ c.observed = false ∧ t.Pursuit c.stage) :
    t.Pursued s.calls.length := by
  have htally : ∀ p : Stage → Bool, p c.stage = false → t.tally p = s.tally p := by
    intro p hp
    rw [tally, hcalls]
    exact (List.countP_concat _ _ _).trans (by rw [hp]; rfl)
  have hparts : t.tally Stage.parts = 0 := by
    rw [htally _ hc.2]
    refine List.countP_eq_zero.2 fun d hd hp ↦ ?_
    have := hidle.calls d hd
    revert this hp
    cases d.stage <;> simp [Stage.parts, Stage.ofItem]
  refine ⟨hframe.1.trans hidle.closed, hframe.2.1.trans hidle.opening, ?_, fun m d hm hmn ↦ ?_, ?_,
    fun hpos ↦ absurd hparts hpos.ne', c, ?_, hself⟩
  · rw [hframe.2.2, htally _ hc.1, h.stores]
  · rw [hcalls] at hm
    rcases List.getElem?_concat_some hm with ⟨rfl, -⟩ | hm
    · exact absurd rfl hmn
    · have := hidle.calls d (List.mem_of_getElem? hm)
      revert this
      cases d.stage <;> simp [Stage.ofItem, Stage.ofStore]
  · rw [hparts, Nat.zero_add]
    exact Bool.toNat_le _
  · rw [hcalls]
    exact List.getElem?_concat_length

end State

namespace Label

/-- `close_spider`, by either route. -/
def closes : Label → Bool
  | close _ | closeAsync => true
  | _ => false

end Label

/-- The next close comes to the strategy, by either route and whatever the stores under way do. -/
def Retryable (ownsConnectionManager : Bool) (s : State) : Prop :=
  s.Idle → ∀ label : Label, label.closes = true → ∃ t, (machine ownsConnectionManager).step s label = some t ∧
    (machine ownsConnectionManager).Inevitable Label.goesOn State.Closing t

theorem State.Alive.retryable {ownsConnectionManager : Bool} {s : State} (h : s.Alive) :
    Retryable ownsConnectionManager s := by
  intro hidle label hlabel
  have hclosing := h.not_closing hidle
  have howner : s.closeOwner = none := by
    by_contra hsome
    obtain ⟨j, hj⟩ := Option.ne_none_iff_exists'.1 hsome
    rw [(h.owner j hj).1] at hclosing
    cases hclosing
  cases label with
  | close j =>
    refine ⟨_, rfl, inevitable_of_pursued ownsConnectionManager (h.pursued hidle rfl ⟨rfl, rfl, rfl⟩ ⟨rfl, rfl⟩ ?_)⟩
    exact ⟨nofun, rfl, .close howner (.inl hclosing)⟩
  | closeAsync =>
    refine ⟨s.reserve, ?_, inevitable_of_pursued ownsConnectionManager
      (h.pursued hidle rfl ⟨rfl, rfl, rfl⟩ ⟨rfl, rfl⟩ ⟨fun _ ↦ rfl, rfl, .queued⟩)⟩
    show some s.closeSpiderAsync = some s.reserve
    simp [State.closeSpiderAsync, hidle.closed, hidle.opening, hclosing]
  | _ => cases hlabel

theorem State.alive_new (ownsConnectionManager : Bool) : (State.new ownsConnectionManager).Alive :=
  ⟨rfl, nofun, nofun, fun _ ↦ rfl, nofun, nofun⟩

/-- As long as a strategy raises only where a store or a rollback closes it, a pipeline that is not closed can
be closed again at any time. -/
theorem retryable_of_forgiving (ownsConnectionManager : Bool) {as : List Label}
    (h : (machine ownsConnectionManager).Along State.Forgiving (.new ownsConnectionManager) as) :
    (machine ownsConnectionManager).Always (Retryable ownsConnectionManager) (.new ownsConnectionManager) as := by
  have halive := h.always (I := State.Alive) (fun _ _ _ hs hG ht ↦ hs.step hG ht)
    (State.alive_new ownsConnectionManager)
  exact halive.mono fun s hs ↦ hs.retryable

/-- A parked close is resumed, and the strategy raises. -/
def givenBackRun : List Label :=
  [.process 1, .act 0 .ok, .close 1, .act 1 .ok, .act 1 .ok, .act 0 .ok, .act 0 .ok, .act 0 .failed, .act 0 .ok,
    .act 0 .ok]

theorem retryable_of_forgiving_givenBackRun :
    (machine true).Always (Retryable true) (.new true) givenBackRun ∧
      ∃ s, (machine true).run (.new true) givenBackRun = some s ∧ s.closed = false ∧
        s.calls.all (·.stage.finished) = true :=
  ⟨retryable_of_forgiving true (by decide), _, rfl, rfl, rfl⟩

/-- The strategy raises in the worker of a close. -/
def latchedRun : List Label :=
  [.closeAsync, .act 0 (.accepted 1), .act 0 .ok, .act 0 .ok, .act 0 .ok, .act 0 .failed, .act 0 .ok]

/-- The next close from a running reactor is refused, with nothing under way. -/
theorem not_retryable_of_latched :
    ∃ s, (machine true).run (.new true) latchedRun = some s ∧ ¬ Retryable true s := by
  refine ⟨_, rfl, fun h ↦ ?_⟩
  obtain ⟨t, ht, hinevitable⟩ := h ⟨rfl, rfl, by decide, by decide⟩ .closeAsync rfl
  obtain rfl := Option.some.inj ht
  -- the pipeline is as it was, and no call is left that could go on
  cases hinevitable with
  | now h => exact lt_irrefl 0 h
  | later hsome =>
    obtain ⟨label, hlabel, hstep⟩ := hsome
    cases label with
    | act n outcome =>
      cases n with
      | zero => cases hstep
      | succ n => cases hstep
    | _ => cases hlabel

end Pipeline

end ScrapyExtension
