import ScrapyExtension.Pipeline.Lifecycle

/-!
# Stores and closes exclude each other

An attempt to close goes from hand to hand: a reservation, the worker or the caller that has taken the close,
a parked close, the store that resumes it, and what is left to do after the strategy has raised. As long as
nobody takes the close in between, there is never more than one attempt, and it finds the pipeline closing
until it is over.

`_close_locked` asks for the owner alone, and there is none between a store that leaves and the close that it
resumes, or between a strategy that has raised and the end of its attempt. Besides, the owner of a parked
close passes as long as stores of other threads are under way, and a submission that was rejected is given
back twice. Runs without these steps are orderly.
-/

namespace ScrapyExtension

namespace Pipeline

/-! ## Roles -/

namespace Stage

def stores : Stage → Bool
  | storing => true
  | _ => false

/-- The strategy is closed right now. -/
def closes : Stage → Bool
  | closing _ => true
  | _ => false

/-- The manager is released right now. -/
def releases : Stage → Bool
  | release _ => true
  | _ => false

/-- The call is about to take the close, or to be refused. -/
def enters : Stage → Bool
  | enter _ => true
  | _ => false

/-- The call has taken the close. -/
def holds : Stage → Bool
  | wait _ | closing _ | failing _ | publish _ false => true
  | _ => false

/-- The call has a close to end, without an owner. -/
def parts : Stage → Bool
  | enter .resumed | restore | publish _ true => true
  | _ => false

def reserves : Stage → Bool
  | queuedClose | reserved => true
  | _ => false

/-- The call has waited for the stores. -/
def drained : Stage → Bool
  | closing _ | failing _ | publish _ _ => true
  | _ => false

/-- The call has to do with an attempt. -/
def engaged (stage : Stage) : Bool := stage.holds || stage.parts || stage.reserves

def roles (stage : Stage) : Bool × Bool × Bool × Bool :=
  (stage.holds, stage.parts, stage.reserves, stage.drained)

theorem drained_of_closes {stage : Stage} (h : stage.closes = true) : stage.drained = true := by
  cases stage <;> first | rfl | cases h

theorem engaged_of_drained {stage : Stage} (h : stage.drained = true) : stage.engaged = true := by
  cases stage with
  | publish x failed => cases failed <;> rfl
  | closing | failing => rfl
  | _ => cases h

theorem engaged_of_holds {stage : Stage} (h : stage.holds = true) : stage.engaged = true := by
  simp [engaged, h]

theorem engaged_of_reserves {stage : Stage} (h : stage.reserves = true) : stage.engaged = true := by
  simp [engaged, h]

theorem idle_of_not_engaged {stage : Stage} (h : stage.engaged = false) :
    stage.holds = false ∧ stage.drained = false := by
  refine ⟨Bool.eq_false_iff.2 fun hb ↦ ?_, Bool.eq_false_iff.2 fun hb ↦ ?_⟩
  · rw [engaged_of_holds hb] at h
    cases h
  · rw [engaged_of_drained hb] at h
    cases h

end Stage

namespace State

variable {s t : State} {n : ℕ} {a b : Call}

/-- How many calls have a role. -/
def tally (s : State) (p : Stage → Bool) : ℕ := s.calls.countP fun c ↦ p c.stage

/-- The attempts under way. -/
def attempts (s : State) : ℕ := s.tally Stage.engaged + s.closeWaitingForStores.toNat

/-- A call goes on. -/
structure Moves (s t : State) (n : ℕ) (a b : Call) : Prop where
  was : s.calls[n]? = some a
  now : t.calls = s.calls.set n b

theorem Moves.tally (m : s.Moves t n a b) (p : Stage → Bool) :
    t.tally p + (p a.stage).toNat = s.tally p + (p b.stage).toNat := by
  rw [State.tally, State.tally, m.now]
  exact List.countP_set_add _ m.was

theorem Moves.tally_le (m : s.Moves t n a b) {p : Stage → Bool}
    (h : p b.stage = true → p a.stage = true) : t.tally p ≤ s.tally p := by
  have := m.tally p
  have := Bool.toNat_le_toNat h
  omega

theorem Moves.isNow (m : s.Moves t n a b) : t.calls[n]? = some b := by
  rw [m.now, List.getElem?_set_self (List.getElem?_eq_some_iff.1 m.was).1]

/-- The attempts after a step of the only call that has to do with one. -/
theorem Moves.attempts_of_sole (m : s.Moves t n a b)
    (h : s.tally Stage.engaged = a.stage.engaged.toNat) :
    t.attempts = b.stage.engaged.toNat + t.closeWaitingForStores.toNat := by
  have := m.tally Stage.engaged
  rw [attempts]
  omega

theorem tally_call (s : State) (c : Call) (p : Stage → Bool) :
    (s.call c).tally p = s.tally p + (p c.stage).toNat :=
  List.countP_concat _ s.calls c

theorem tally_pos {p : Stage → Bool} {c : Call} (h : c ∈ s.calls) (hp : p c.stage = true) :
    0 < s.tally p :=
  List.countP_pos_iff.2 ⟨c, h, hp⟩

/-! ## Attempts -/

/-- There is one attempt at most, and it keeps the pipeline closing. -/
structure Latched (s : State) : Prop where
  one : s.attempts ≤ 1
  latched : 0 < s.attempts → s.closing = true
  owner : ∀ c ∈ s.calls, c.stage.holds = true → s.closeOwner = some c.thread
  parked : s.closeWaitingForStores = true → 0 < s.activeStoreCount ∧ s.closeOwner.isSome = true
  pending : ∀ c ∈ s.calls, c.stage.reserves = true → s.closeAsyncPending = true
  drained : ∀ c ∈ s.calls, c.stage.drained = true → s.activeStoreCount = 0

/-- Nobody closes, nobody is about to. -/
theorem Latched.attempts_eq_zero (h : s.Latched) (hclosing : s.closing = false) : s.attempts = 0 := by
  by_contra hne
  rw [h.latched (Nat.pos_of_ne_zero hne)] at hclosing
  cases hclosing

theorem Latched.of_attempts_eq_zero (h : s.attempts = 0) : s.Latched := by
  have hfree : ∀ c ∈ s.calls, c.stage.engaged ≠ true := by
    intro c hc he
    have := tally_pos hc he
    rw [attempts] at h
    omega
  refine ⟨by omega, fun hpos ↦ absurd h hpos.ne', fun c hc hh ↦ ?_, fun hw ↦ ?_, fun c hc hr ↦ ?_,
    fun c hc hd ↦ ?_⟩
  · exact absurd (Stage.engaged_of_holds hh) (hfree c hc)
  · rw [attempts, hw] at h
    simp at h
  · exact absurd (Stage.engaged_of_reserves hr) (hfree c hc)
  · exact absurd (Stage.engaged_of_drained hd) (hfree c hc)

/-- The attempt is that of a call. -/
theorem Latched.of_call (hb : t.calls[n]? = some b) (hengaged : b.stage.engaged = true)
    (hone : t.attempts = 1) (hclosing : t.closing = true)
    (howner : b.stage.holds = true → t.closeOwner = some b.thread)
    (hpending : b.stage.reserves = true → t.closeAsyncPending = true)
    (hdrained : b.stage.drained = true → t.activeStoreCount = 0) : t.Latched := by
  have hpos := tally_pos (List.mem_of_getElem? hb) hengaged
  rw [attempts] at hone
  -- there is no other
  have hsole : ∀ c ∈ t.calls, c.stage.engaged = true → c = b := by
    intro c hc he
    obtain ⟨i, hi⟩ := List.getElem?_of_mem hc
    have hle : t.calls.countP (fun c ↦ c.stage.engaged) ≤ 1 := by
      rw [tally] at hone
      omega
    obtain rfl := List.eq_of_countP_le_one _ hle hi hb he hengaged
    exact Option.some.inj (hi.symm.trans hb)
  refine ⟨by rw [attempts]; omega, fun _ ↦ hclosing, fun c hc hh ↦ ?_, fun hw ↦ ?_, fun c hc hr ↦ ?_,
    fun c hc hd ↦ ?_⟩
  · obtain rfl := hsole c hc (Stage.engaged_of_holds hh)
    exact howner hh
  · rw [hw, Bool.toNat_true] at hone
    omega
  · obtain rfl := hsole c hc (Stage.engaged_of_reserves hr)
    exact hpending hr
  · obtain rfl := hsole c hc (Stage.engaged_of_drained hd)
    exact hdrained hd

/-- The attempt is parked. -/
theorem Latched.of_parked (hone : t.attempts = 1) (hwaiting : t.closeWaitingForStores = true)
    (hclosing : t.closing = true) (hcount : 0 < t.activeStoreCount)
    (howner : t.closeOwner.isSome = true) : t.Latched := by
  have hfree : ∀ c ∈ t.calls, c.stage.engaged ≠ true := by
    intro c hc he
    have := tally_pos hc he
    rw [attempts, hwaiting, Bool.toNat_true] at hone
    omega
  refine ⟨hone.le, fun _ ↦ hclosing, fun c hc hh ↦ ?_, fun _ ↦ ⟨hcount, howner⟩, fun c hc hr ↦ ?_,
    fun c hc hd ↦ ?_⟩
  · exact absurd (Stage.engaged_of_holds hh) (hfree c hc)
  · exact absurd (Stage.engaged_of_reserves hr) (hfree c hc)
  · exact absurd (Stage.engaged_of_drained hd) (hfree c hc)

/-- What an attempt depends on. -/
def flags (s : State) : Bool × Option ℕ × Bool × Bool × ℕ :=
  (s.closing, s.closeOwner, s.closeAsyncPending, s.closeWaitingForStores, s.activeStoreCount)

/-- A call goes on with no more than it had. -/
theorem Latched.move (h : s.Latched) (m : s.Moves t n a b) (hflags : t.flags = s.flags)
    (hengaged : b.stage.engaged = true →
      b.stage.roles = a.stage.roles ∧ (b.stage.holds = true → b.thread = a.thread)) :
    t.Latched := by
  simp only [flags, Prod.mk.injEq] at hflags
  obtain ⟨hclosing, howner, hpending, hwaiting, hcount⟩ := hflags
  have hroles : b.stage.engaged = true → b.stage.holds = a.stage.holds ∧ b.stage.parts = a.stage.parts ∧
      b.stage.reserves = a.stage.reserves ∧ b.stage.drained = a.stage.drained := by
    intro hb
    simpa only [Stage.roles, Prod.mk.injEq] using (hengaged hb).1
  have ha : a ∈ s.calls := List.mem_of_getElem? m.was
  have hattempts : t.attempts ≤ s.attempts := by
    have htally := m.tally_le (p := Stage.engaged) fun hb ↦ by
      obtain ⟨hholds, hparts, hreserves, -⟩ := hroles hb
      rw [← hb, Stage.engaged, Stage.engaged, hholds, hparts, hreserves]
    rw [attempts, attempts, hwaiting]
    omega
  refine ⟨hattempts.trans h.one, fun hpos ↦ ?_, ?_, fun hw ↦ ?_, ?_, ?_⟩
  · rw [hclosing]
    exact h.latched (hpos.trans_le hattempts)
  · rw [m.now, howner]
    refine List.forall_mem_set h.owner fun hb ↦ ?_
    have he := Stage.engaged_of_holds hb
    rw [(hengaged he).2 hb]
    exact h.owner a ha ((hroles he).1 ▸ hb)
  · rw [hcount, howner]
    exact h.parked (hwaiting ▸ hw)
  · rw [m.now, hpending]
    refine List.forall_mem_set h.pending fun hb ↦ ?_
    exact h.pending a ha ((hroles (Stage.engaged_of_reserves hb)).2.2.1 ▸ hb)
  · rw [m.now, hcount]
    refine List.forall_mem_set h.drained fun hb ↦ ?_
    exact h.drained a ha ((hroles (Stage.engaged_of_drained hb)).2.2.2 ▸ hb)

/-- A call that leaves an attempt alone, or has left it. -/
theorem Latched.aside (h : s.Latched) (m : s.Moves t n a b) (hflags : t.flags = s.flags)
    (hb : b.stage.engaged = false) : t.Latched :=
  h.move m hflags fun he ↦ absurd he (by simp [hb])

/-! ## Orderly runs -/

/-- The attempt gets past the tests of `_close_locked`. -/
def takes (s : State) (thread : ℕ) : Bool := !s.closed && !s.recursive thread && !s.refuses thread

/-- Nobody takes a close that another call has to end, or that is parked for the stores of others; and what
is given back once more is not taken yet. -/
def Orderly (s : State) : Label → Prop
  | .act n outcome => ∀ c ∈ s.calls[n]?,
    (c.stage.enters = true → s.takes c.thread = true →
      (∀ d ∈ s.calls.eraseIdx n, d.stage.parts = false) ∧
      (s.closing = true → s.closeOwner = some c.thread → 0 < s.activeStoreThreads c.thread)) ∧
    (c.stage = .rejected → outcome = .ok → s.closing = false)
  | _ => True

instance (s : State) : DecidablePred s.Orderly
  | .act n _ => inferInstanceAs (Decidable (∀ c ∈ s.calls[n]?, _ ∧ _))
  | .process _ | .close _ | .openSpider _ | .processAsync | .closeAsync | .openAsync _ => isTrue trivial

theorem engaged_done (c : Call) : (done c).engaged = false := by
  rw [done]
  split <;> rfl

theorem engaged_raised {c : Call} {x : Context} (h : (raised c x).engaged = true) : x = .resumed := by
  cases x with
  | resumed => rfl
  | plain | forced => simp [raised, engaged_done] at h

/-- What the first section of `_close_locked` comes to. -/
theorem enter_cases (s : State) (c : Call) (x : Context) :
    (s.takes c.thread = false ∧ (s.enter c x = (s, done c) ∨ s.enter c x = (s, raised c x))) ∨
    (s.takes c.thread = true ∧ s.activeStoreCount = 0 ∧
      s.enter c x = ({ s.claim c.thread with closeWaitingForStores := false }, .closing x)) ∨
    (s.takes c.thread = true ∧ 0 < s.activeStoreCount ∧ 0 < s.activeStoreThreads c.thread ∧
      s.enter c x = ({ s.claim c.thread with closeWaitingForStores := true }, done c)) ∨
    (s.takes c.thread = true ∧ 0 < s.activeStoreCount ∧ s.activeStoreThreads c.thread = 0 ∧
      s.enter c x = (s.claim c.thread, .wait x)) := by
  unfold enter takes await claim
  cases s.closed
  case true => simp
  cases s.recursive c.thread
  case true => simp
  cases s.refuses c.thread
  case true => simp
  by_cases hcount : s.activeStoreCount = 0
  · simp [hcount]
  by_cases hthreads : s.activeStoreThreads c.thread = 0
  · simp [hcount, hthreads, Nat.pos_of_ne_zero hcount]
  · simp [hcount, Nat.pos_of_ne_zero hcount, Nat.pos_of_ne_zero hthreads]

theorem tally_eq_of_others {p : Stage → Bool} (ha : s.calls[n]? = some a)
    (h : ∀ c ∈ s.calls.eraseIdx n, p c.stage = false) : s.tally p = (p a.stage).toNat := by
  obtain ⟨hn, rfl⟩ := List.getElem?_eq_some_iff.1 ha
  have hperm := (List.getElem_cons_eraseIdx_perm hn).countP_eq fun c ↦ p c.stage
  have hzero : (s.calls.eraseIdx n).countP (fun c ↦ p c.stage) = 0 := by
    rw [List.countP_eq_zero]
    intro c hc
    simp [h c hc]
  rw [tally, ← hperm, List.countP_cons, hzero]
  cases p s.calls[n].stage <;> simp

/-- Whoever takes the close is the only one. -/
theorem Latched.sole (h : s.Latched) (ha : s.calls[n]? = some a) (htakes : s.takes a.thread = true)
    (hothers : ∀ c ∈ s.calls.eraseIdx n, c.stage.parts = false)
    (howner : s.closing = true → s.closeOwner = some a.thread → 0 < s.activeStoreThreads a.thread) :
    s.tally Stage.engaged = a.stage.engaged.toNat ∧
      (s.activeStoreThreads a.thread = 0 → s.closeWaitingForStores = false) := by
  simp only [takes, recursive, refuses, Bool.and_eq_true, Bool.not_eq_true'] at htakes
  obtain ⟨⟨-, hrecursive⟩, hrefuses⟩ := htakes
  have hle : a.stage.engaged.toNat ≤ s.tally Stage.engaged :=
    List.toNat_le_countP (fun c ↦ c.stage.engaged) ha
  have hone := h.one
  rw [attempts] at hone
  cases hclosing : s.closing with
  | false =>
    have hzero := h.attempts_eq_zero hclosing
    rw [attempts] at hzero
    refine ⟨by omega, fun _ ↦ ?_⟩
    simpa using (show s.closeWaitingForStores.toNat = 0 by omega)
  | true =>
    by_cases hme : s.closeOwner = some a.thread
    · -- the close is parked
      have hwaiting : s.closeWaitingForStores = true := by simpa [hclosing, hme] using hrecursive
      rw [hwaiting, Bool.toNat_true] at hone
      exact ⟨by omega, fun hzero ↦ absurd hzero (howner hclosing hme).ne'⟩
    · have hnone : s.closeOwner = none := by
        simp only [hclosing, Bool.true_and, ne_eq, hme, not_false_eq_true, decide_true,
          Bool.or_eq_false_iff] at hrefuses
        simpa using hrefuses.2
      have hpending : s.closeAsyncPending = false := by
        simp only [hclosing, Bool.true_and, ne_eq, hme, not_false_eq_true, decide_true,
          Bool.or_eq_false_iff] at hrefuses
        exact hrefuses.1
      refine ⟨tally_eq_of_others ha fun c hc ↦ ?_, fun _ ↦ ?_⟩
      · have hmem := List.mem_of_mem_eraseIdx hc
        have hholds : c.stage.holds = false := by
          by_contra hh
          have := h.owner c hmem (by simpa using hh)
          rw [hnone] at this
          cases this
        have hreserves : c.stage.reserves = false := by
          by_contra hr
          have := h.pending c hmem (by simpa using hr)
          rw [hpending] at this
          cases this
        simp [Stage.engaged, hholds, hreserves, hothers c hc]
      · by_contra hw
        have := (h.parked (by simpa using hw)).2
        rw [hnone] at this
        cases this

/-- The first section of `_close_locked` -/
theorem Latched.enter {x : Context} (h : s.Latched) (ha : s.calls[n]? = some a) (hstage : a.stage = .enter x)
    (horderly : s.takes a.thread = true →
      (∀ c ∈ s.calls.eraseIdx n, c.stage.parts = false) ∧
      (s.closing = true → s.closeOwner = some a.thread → 0 < s.activeStoreThreads a.thread)) :
    ((s.enter a x).1.goto n a (s.enter a x).2).Latched := by
  rcases enter_cases s a x with ⟨-, hpair | hpair⟩ | ⟨htakes, hcount, hpair⟩ |
    ⟨htakes, hcount, hthreads, hpair⟩ | ⟨htakes, hcount, hthreads, hpair⟩
  all_goals rw [hpair]
  · exact h.aside ⟨ha, rfl⟩ rfl (engaged_done a)
  · refine h.move ⟨ha, rfl⟩ rfl fun he ↦ ⟨?_, fun _ ↦ rfl⟩
    obtain rfl := engaged_raised he
    rw [hstage]
    rfl
  all_goals obtain ⟨hsole, hwaiting⟩ := h.sole ha htakes (horderly htakes).1 (horderly htakes).2
  · exact Latched.of_call (Moves.isNow (s := s) ⟨ha, rfl⟩) rfl
      ((Moves.attempts_of_sole (s := s) ⟨ha, rfl⟩ hsole).trans rfl) rfl (fun _ ↦ rfl) nofun fun _ ↦ hcount
  · refine Latched.of_parked ((Moves.attempts_of_sole (s := s) ⟨ha, rfl⟩ hsole).trans ?_) rfl rfl hcount rfl
    rw [engaged_done]
    rfl
  · refine Latched.of_call (Moves.isNow (s := s) ⟨ha, rfl⟩) rfl
      ((Moves.attempts_of_sole (s := s) ⟨ha, rfl⟩ hsole).trans ?_) rfl (fun _ ↦ rfl) nofun nofun
    exact congrArg (1 + Bool.toNat ·) (hwaiting hthreads)

theorem Moves.attempts (m : s.Moves t n a b) :
    t.attempts + a.stage.engaged.toNat + s.closeWaitingForStores.toNat =
      s.attempts + b.stage.engaged.toNat + t.closeWaitingForStores.toNat := by
  have := m.tally Stage.engaged
  rw [State.attempts, State.attempts]
  omega

/-- The call of an attempt is the only one. -/
theorem Latched.sole_of_engaged (h : s.Latched) (ha : s.calls[n]? = some a)
    (he : a.stage.engaged = true) :
    s.tally Stage.engaged = a.stage.engaged.toNat ∧ s.closeWaitingForStores = false ∧
      s.closing = true := by
  have hpos := tally_pos (List.mem_of_getElem? ha) he
  have hclosing := h.latched (by rw [attempts]; omega)
  have hone := h.one
  rw [attempts] at hone
  rw [he, Bool.toNat_true]
  refine ⟨by omega, ?_, hclosing⟩
  simpa using (show s.closeWaitingForStores.toNat = 0 by omega)

/-- Nothing is left of an attempt. -/
theorem Latched.free (h : s.Latched) (m : s.Moves t n a b)
    (hfree : s.closing = false ∨ a.stage.engaged = true) (hb : b.stage.engaged = false)
    (hwaiting : t.closeWaitingForStores = true → s.closeWaitingForStores = true) : t.Latched := by
  have hattempts := m.attempts
  have := Bool.toNat_le_toNat hwaiting
  rw [hb, Bool.toNat_false] at hattempts
  refine of_attempts_eq_zero ?_
  rcases hfree with hclosing | ha
  · have := h.attempts_eq_zero hclosing
    omega
  · have := h.one
    rw [ha, Bool.toNat_true] at hattempts
    omega

/-- A store leaves, and others are under way or nothing is parked. -/
theorem Latched.leave (h : s.Latched) (m : s.Moves t n a b) (hresumes : s.resumes = false)
    (ha : a.stage.engaged = false) (hb : b.stage.engaged = false) (hclosing : t.closing = s.closing)
    (howner : t.closeOwner = s.closeOwner) (hpending : t.closeAsyncPending = s.closeAsyncPending)
    (hwaiting : t.closeWaitingForStores = s.closeWaitingForStores)
    (hcount : t.activeStoreCount = s.activeStoreCount - 1) : t.Latched := by
  have hattempts : t.attempts = s.attempts := by
    have := m.attempts
    rw [ha, hb, hwaiting] at this
    omega
  refine ⟨hattempts ▸ h.one, fun hpos ↦ ?_, ?_, fun hw ↦ ?_, ?_, ?_⟩
  · rw [hclosing]
    exact h.latched (hattempts ▸ hpos)
  · rw [m.now, howner]
    exact List.forall_mem_set h.owner fun hh ↦ absurd (Stage.engaged_of_holds hh) (by simp [hb])
  · rw [hwaiting] at hw
    obtain ⟨hpos, hsome⟩ := h.parked hw
    have hlatched := h.latched (by rw [attempts, hw, Bool.toNat_true]; omega)
    simp only [resumes, hlatched, hw, Bool.and_true, decide_eq_false_iff_not] at hresumes
    exact ⟨by omega, howner ▸ hsome⟩
  · rw [m.now, hpending]
    exact List.forall_mem_set h.pending fun hr ↦ absurd (Stage.engaged_of_reserves hr) (by simp [hb])
  · rw [m.now, hcount]
    refine List.forall_mem_set (fun c hc hd ↦ ?_)
      fun hd ↦ absurd (Stage.engaged_of_drained hd) (by simp [hb])
    exact congrArg (· - 1) (h.drained c hc hd)

/-- The section of `_leave_store` -/
theorem Latched.leaveStore (h : s.Latched) (ha : s.calls[n]? = some a) (hstage : a.stage = .storing) :
    ((s.leaveStore a.thread).goto n a (if s.resumes then .enter .resumed else .over)).Latched := by
  have hidle : a.stage.engaged = false := by
    rw [hstage]
    rfl
  rw [State.leaveStore]
  cases hresumes : s.resumes with
  | true =>
    -- the close that was parked is the only attempt
    have hparked := hresumes
    simp only [resumes, Bool.and_eq_true, decide_eq_true_eq] at hparked
    obtain ⟨⟨-, hclosing⟩, hwaiting⟩ := hparked
    have hone := h.one
    rw [attempts, hwaiting, Bool.toNat_true] at hone
    have hsole : s.tally Stage.engaged = a.stage.engaged.toNat := by
      rw [hidle, Bool.toNat_false]
      omega
    exact of_call (Moves.isNow (s := s) ⟨ha, rfl⟩) rfl
      ((Moves.attempts_of_sole (s := s) ⟨ha, rfl⟩ hsole).trans rfl) hclosing nofun nofun nofun
  | false => exact h.leave ⟨ha, rfl⟩ hresumes hidle rfl rfl rfl rfl rfl rfl

/-- The wait for the stores is over. -/
theorem Latched.await {x : Context} {r : State × Stage} (h : s.Latched) (ha : s.calls[n]? = some a)
    (hstage : a.stage = .wait x) (hr : s.await a x = some r) : (r.1.goto n a r.2).Latched := by
  have hholds : a.stage.holds = true := by
    rw [hstage]
    rfl
  obtain ⟨hsole, -, hclosing⟩ := h.sole_of_engaged ha (Stage.engaged_of_holds hholds)
  have howner := h.owner a (List.mem_of_getElem? ha) hholds
  rw [State.await] at hr
  split_ifs at hr with hcount hthreads
  all_goals obtain rfl := Option.some.inj hr
  · exact of_call (Moves.isNow (s := s) ⟨ha, rfl⟩) rfl
      ((Moves.attempts_of_sole (s := s) ⟨ha, rfl⟩ hsole).trans rfl) hclosing (fun _ ↦ howner) nofun
      fun _ ↦ hcount
  · refine of_parked ((Moves.attempts_of_sole (s := s) ⟨ha, rfl⟩ hsole).trans ?_) rfl hclosing
      (Nat.pos_of_ne_zero hcount) (by simp [goto, howner])
    rw [engaged_done]
    rfl

/-- The strategy has raised. -/
theorem Latched.fail {x : Context} (h : s.Latched) (ha : s.calls[n]? = some a)
    (hstage : a.stage = .failing x) :
    (s.fail.goto n a (if x = .forced then .publish x true else raised a x)).Latched := by
  have hengaged : a.stage.engaged = true := by
    rw [hstage]
    rfl
  have hcount := h.drained a (List.mem_of_getElem? ha) (by rw [hstage]; rfl)
  obtain ⟨hsole, -, hclosing⟩ := h.sole_of_engaged ha hengaged
  cases x with
  | plain => exact h.free (a := a) ⟨ha, rfl⟩ (.inr hengaged) (engaged_done a) nofun
  | resumed | forced =>
    exact of_call (Moves.isNow (s := s) ⟨ha, rfl⟩) rfl
      ((Moves.attempts_of_sole (s := s) ⟨ha, rfl⟩ hsole).trans rfl) hclosing nofun nofun fun _ ↦ hcount

/-- A new call. -/
theorem Latched.call {c : Call} (h : s.Latched) (hcalls : t.calls = s.calls ++ [c])
    (hc : c.stage.engaged = false) (hclosing : t.closing = s.closing)
    (howner : t.closeOwner = s.closeOwner)
    (hpending : s.closeAsyncPending = true → t.closeAsyncPending = true)
    (hwaiting : t.closeWaitingForStores = s.closeWaitingForStores)
    (hcount : t.activeStoreCount = s.activeStoreCount) : t.Latched := by
  have hattempts : t.attempts = s.attempts := by
    rw [attempts, attempts, hwaiting, tally, hcalls]
    exact congrArg (· + _) ((List.countP_concat _ _ _).trans (by rw [hc]; rfl))
  have hnew : ∀ {P : Call → Prop}, (∀ d ∈ s.calls, P d) → P c → ∀ d ∈ t.calls, P d := by
    intro P hold hcP d hd
    rw [hcalls, List.mem_append, List.mem_singleton] at hd
    rcases hd with hd | rfl
    · exact hold d hd
    · exact hcP
  refine ⟨hattempts ▸ h.one, fun hpos ↦ ?_, ?_, fun hw ↦ ?_, ?_, ?_⟩
  · rw [hclosing]
    exact h.latched (hattempts ▸ hpos)
  · rw [howner]
    exact hnew h.owner fun hb ↦ absurd (Stage.engaged_of_holds hb) (by simp [hc])
  · rw [hcount, howner]
    exact h.parked (hwaiting ▸ hw)
  · exact hnew (fun d hd hr ↦ hpending (h.pending d hd hr))
      fun hb ↦ absurd (Stage.engaged_of_reserves hb) (by simp [hc])
  · rw [hcount]
    exact hnew h.drained fun hb ↦ absurd (Stage.engaged_of_drained hb) (by simp [hc])

/-- A reservation. -/
theorem Latched.reserve (h : s.Latched) (hclosing : s.closing = false) : s.reserve.Latched := by
  have hzero := h.attempts_eq_zero hclosing
  have hb : s.reserve.calls[s.calls.length]? = some ⟨0, true, s.asyncTail, false, .queuedClose⟩ :=
    List.getElem?_concat_length
  refine of_call hb rfl ?_ rfl nofun (fun _ ↦ rfl) nofun
  rw [attempts] at hzero
  have htally : s.reserve.tally Stage.engaged = s.tally Stage.engaged + 1 :=
    tally_call { s with closing := true, closeAsyncPending := true } _ _
  have hwaiting : s.reserve.closeWaitingForStores = s.closeWaitingForStores := rfl
  rw [attempts, htally, hwaiting]
  omega

/-- `_close_spider_async` -/
theorem Latched.closeSpiderAsync (h : s.Latched) : s.closeSpiderAsync.Latched := by
  rw [State.closeSpiderAsync]
  split_ifs with hclosed hopening hbusy
  · exact h
  · exact h.call rfl rfl rfl rfl (fun _ ↦ rfl) rfl rfl
  · exact h
  · exact h.reserve (by simpa using fun hclosing ↦ hbusy (.inr hclosing))

/-! ## Steps of a call -/

/-- The step has to do with opens, or hands an attempt on as it is. -/
structure Aside (s t : State) (n : ℕ) (a b : Call) : Prop extends s.Moves t n a b where
  flags : t.flags = s.flags
  closed : t.closed = s.closed
  released : (t.releases, t.managerReleased) = (s.releases, s.managerReleased)
  engaged : b.stage.engaged = true →
    b.stage.roles = a.stage.roles ∧ (b.stage.holds = true → b.thread = a.thread)
  stores : a.stage.stores = false ∧ b.stage.stores = false
  releases : b.stage.releases = true → a.stage.releases = true

/-- The step gives an attempt back. -/
structure Freed (s t : State) (n : ℕ) (a b : Call) : Prop extends s.Moves t n a b where
  waiting : t.closeWaitingForStores = s.closeWaitingForStores
  count : t.activeStoreCount = s.activeStoreCount
  closed : t.closed = s.closed
  released : (t.releases, t.managerReleased) = (s.releases, s.managerReleased)
  stage : b.stage.engaged = false ∧ b.stage.releases = false
  stores : a.stage.stores = false ∧ b.stage.stores = false

/-- What a step of a call can be. -/
inductive Acts (s : State) (n : ℕ) (a : Call) (outcome : Outcome) : State → Prop
  | aside {t : State} {b : Call} (h : s.Aside t n a b) : Acts s n a outcome t
  | freed {t : State} {b : Call} (h : s.Freed t n a b)
      (hstage : a.stage.engaged = true ∨ (a.stage = .rejected ∧ outcome = .ok)) : Acts s n a outcome t
  | admitted (hstage : a.stage = .admission) (hadmits : s.admits = true) :
      Acts s n a outcome ((s.enterStore a.thread).goto n a .storing)
  | left (hstage : a.stage = .storing) : Acts s n a outcome
      ((s.leaveStore a.thread).goto n a (if s.resumes then .enter .resumed else .over))
  | entered {x : Context} (hstage : a.stage = .enter x) :
      Acts s n a outcome ((s.enter a x).1.goto n a (s.enter a x).2)
  | awaited {x : Context} {r : State × Stage} (hstage : a.stage = .wait x) (hr : s.await a x = some r) :
      Acts s n a outcome (r.1.goto n a r.2)
  | failed {x : Context} (hstage : a.stage = .failing x) : Acts s n a outcome
      (s.fail.goto n a (if x = .forced then .publish x true else raised a x))
  | published {x : Context} {failed : Bool} (hstage : a.stage = .publish x failed) : Acts s n a outcome
      (s.publish.goto n a (if s.ownsConnectionManager ∧ ¬ s.managerReleased then .release x else done a))
  | released {x : Context} (hstage : a.stage = .release x) : Acts s n a outcome (s.goto n a (raised a x))
  | continued (hstage : a.stage = .afterOpen) : Acts s n a outcome (s.goto n a .over).closeSpiderAsync

theorem stores_done (c : Call) : (done c).stores = false := by
  rw [done]
  split <;> rfl

theorem releases_done (c : Call) : (done c).releases = false := by
  rw [done]
  split <;> rfl

/-- A call leaves what it was about. -/
theorem Aside.of_done {b : Call} (m : s.Moves t n a b) (hb : b.stage.engaged = false)
    (hstores : a.stage.stores = false ∧ b.stage.stores = false) (hreleases : b.stage.releases = false)
    (hflags : t.flags = s.flags) (hclosed : t.closed = s.closed)
    (hreleased : (t.releases, t.managerReleased) = (s.releases, s.managerReleased)) : s.Aside t n a b :=
  ⟨m, hflags, hclosed, hreleased, fun he ↦ absurd he (by simp [hb]), hstores,
    fun hr ↦ absurd hr (by simp [hreleases])⟩

theorem openSpider_eq (s : State) (c : Call) (g : Option ℕ) :
    ((s.openSpider c g).1.calls = s.calls ∧ (s.openSpider c g).1.flags = s.flags ∧
      (s.openSpider c g).1.closed = s.closed ∧
      ((s.openSpider c g).1.releases, (s.openSpider c g).1.managerReleased) =
        (s.releases, s.managerReleased)) ∧
    ((s.openSpider c g).2 = done c ∨ ∃ g', (s.openSpider c g).2 = .opening g') := by
  unfold openSpider
  split_ifs with h
  · exact ⟨⟨rfl, rfl, rfl, rfl⟩, .inl rfl⟩
  cases g with
  | none => exact ⟨⟨rfl, rfl, rfl, rfl⟩, .inr ⟨_, rfl⟩⟩
  | some g =>
    dsimp only
    split_ifs
    · exact ⟨⟨rfl, rfl, rfl, rfl⟩, .inr ⟨_, rfl⟩⟩
    · exact ⟨⟨rfl, rfl, rfl, rfl⟩, .inl rfl⟩

theorem acts_of_act {outcome : Outcome} (ha : s.calls[n]? = some a) (ht : s.act n a outcome = some t) :
    s.Acts n a outcome t := by
  unfold act at ht
  cases hstage : a.stage <;> simp only [hstage] at ht
  case storing =>
    obtain rfl := Option.some.inj ht
    exact .left hstage
  all_goals
    have hstores : a.stage.stores = false := by
      rw [hstage]
      rfl
  case admission =>
    split_ifs at ht with hadmits <;> obtain rfl := Option.some.inj ht
    · exact .admitted hstage hadmits
    · exact .aside (.of_done ⟨ha, rfl⟩ rfl ⟨hstores, rfl⟩ rfl rfl rfl rfl)
  case queuedItem =>
    split_ifs at ht
    cases outcome <;> simp only [reduceCtorEq] at ht
    all_goals
      obtain rfl := Option.some.inj ht
      exact .aside (.of_done ⟨ha, rfl⟩ rfl ⟨hstores, rfl⟩ rfl rfl rfl rfl)
  case queuedClose =>
    split_ifs at ht
    cases outcome <;> simp only [reduceCtorEq] at ht
    all_goals obtain rfl := Option.some.inj ht
    · exact .aside ⟨⟨ha, rfl⟩, rfl, rfl, rfl, fun _ ↦ ⟨by rw [hstage]; rfl, nofun⟩, ⟨hstores, rfl⟩, nofun⟩
    · exact .freed ⟨⟨ha, rfl⟩, rfl, rfl, rfl, rfl, ⟨rfl, rfl⟩, ⟨hstores, rfl⟩⟩ (.inl (by rw [hstage]; rfl))
  case reserved =>
    obtain rfl := Option.some.inj ht
    exact .freed ⟨⟨ha, rfl⟩, rfl, rfl, rfl, rfl, ⟨rfl, rfl⟩, ⟨hstores, rfl⟩⟩ (.inl (by rw [hstage]; rfl))
  case rejected =>
    split_ifs at ht with hok <;> obtain rfl := Option.some.inj ht
    · exact .freed ⟨⟨ha, rfl⟩, rfl, rfl, rfl, rfl, ⟨rfl, rfl⟩, ⟨hstores, rfl⟩⟩ (.inr ⟨hstage, hok⟩)
    · exact .aside (.of_done ⟨ha, rfl⟩ rfl ⟨hstores, rfl⟩ rfl rfl rfl rfl)
  case close =>
    split_ifs at ht <;> obtain rfl := Option.some.inj ht
    all_goals exact .aside (.of_done ⟨ha, rfl⟩ rfl ⟨hstores, rfl⟩ rfl rfl rfl rfl)
  case awaitOpen =>
    split_ifs at ht
    obtain rfl := Option.some.inj ht
    exact .aside (.of_done ⟨ha, rfl⟩ rfl ⟨hstores, rfl⟩ rfl rfl rfl rfl)
  case enter x =>
    obtain rfl := Option.some.inj ht
    exact .entered hstage
  case wait x =>
    obtain ⟨r, hr, rfl⟩ := Option.map_eq_some_iff.1 ht
    exact .awaited hstage hr
  case closing x =>
    obtain rfl := Option.some.inj ht
    by_cases hok : outcome = .ok
    · rw [if_pos hok]
      exact .aside ⟨⟨ha, rfl⟩, rfl, rfl, rfl, fun _ ↦ ⟨by rw [hstage]; rfl, fun _ ↦ rfl⟩, ⟨hstores, rfl⟩,
        nofun⟩
    · rw [if_neg hok]
      exact .aside ⟨⟨ha, rfl⟩, rfl, rfl, rfl, fun _ ↦ ⟨by rw [hstage]; rfl, fun _ ↦ rfl⟩, ⟨hstores, rfl⟩,
        nofun⟩
  case failing x =>
    obtain rfl := Option.some.inj ht
    exact .failed hstage
  case publish x failed =>
    obtain rfl := Option.some.inj ht
    exact .published hstage
  case release x =>
    obtain rfl := Option.some.inj ht
    split_ifs
    · exact .aside (.of_done ⟨ha, rfl⟩ (engaged_done a) ⟨hstores, stores_done a⟩ (releases_done a) rfl rfl rfl)
    · exact .released hstage
  case restore =>
    obtain rfl := Option.some.inj ht
    exact .freed ⟨⟨ha, rfl⟩, rfl, rfl, rfl, rfl, ⟨rfl, rfl⟩, ⟨hstores, rfl⟩⟩ (.inl (by rw [hstage]; rfl))
  case afterOpen =>
    obtain rfl := Option.some.inj ht
    exact .continued hstage
  case start g =>
    obtain ⟨⟨hcalls, hflags, hclosed, hreleased⟩, hnext⟩ := openSpider_eq s a g
    split_ifs at ht <;> obtain rfl := Option.some.inj ht
    · exact .aside (.of_done ⟨ha, rfl⟩ rfl ⟨hstores, rfl⟩ rfl rfl rfl rfl)
    · have m : s.Moves ((s.openSpider a g).1.goto n a (s.openSpider a g).2) n a
          { a with stage := (s.openSpider a g).2 } := ⟨ha, by rw [goto, hcalls]⟩
      rcases hnext with hnext | ⟨g', hnext⟩ <;> rw [hnext] at m ⊢
      · exact .aside (.of_done m (engaged_done a) ⟨hstores, stores_done a⟩ (releases_done a) hflags hclosed
          hreleased)
      · exact .aside (.of_done m rfl ⟨hstores, rfl⟩ rfl hflags hclosed hreleased)
  case opening g =>
    obtain rfl := Option.some.inj ht
    split_ifs
    all_goals exact .aside (.of_done ⟨ha, rfl⟩ rfl ⟨hstores, rfl⟩ rfl rfl rfl rfl)
  case openFailed g =>
    obtain rfl := Option.some.inj ht
    split_ifs
    all_goals exact .aside (.of_done ⟨ha, rfl⟩ rfl ⟨hstores, rfl⟩ rfl rfl rfl rfl)
  case opened g =>
    obtain rfl := Option.some.inj ht
    unfold publishOpen
    dsimp only
    split_ifs
    all_goals exact .aside (.of_done ⟨ha, rfl⟩ rfl ⟨hstores, rfl⟩ rfl rfl rfl rfl)
  case overtaken =>
    obtain rfl := Option.some.inj ht
    split_ifs
    · exact .aside (.of_done ⟨ha, rfl⟩ (engaged_done a) ⟨hstores, stores_done a⟩ (releases_done a) rfl rfl rfl)
    · exact .aside (.of_done ⟨ha, rfl⟩ rfl ⟨hstores, rfl⟩ rfl rfl rfl rfl)
  case observe =>
    obtain rfl := Option.some.inj ht
    split_ifs
    all_goals exact .aside (.of_done ⟨ha, rfl⟩ rfl ⟨hstores, rfl⟩ rfl rfl rfl rfl)
  all_goals cases ht

/-! ## The invariant -/

/-- A pipeline that is closed has nothing under way. -/
structure Finished (s : State) : Prop where
  count : s.activeStoreCount = 0
  idle : ∀ c ∈ s.calls, c.stage.holds = false ∧ c.stage.drained = false

structure Inv (s : State) : Prop where
  stores : s.activeStoreCount = s.tally Stage.stores
  latched : s.closed = false → s.Latched
  finished : s.closed = true → s.Finished
  once : s.releases = s.managerReleased.toNat
  released : ∀ c ∈ s.calls, c.stage.releases = true → s.closed = true

/-- A step that neither stores nor closes. -/
theorem Inv.of_moves (h : s.Inv) (m : s.Moves t n a b)
    (hstores : a.stage.stores = false ∧ b.stage.stores = false)
    (hcount : t.activeStoreCount = s.activeStoreCount) (hclosed : t.closed = s.closed)
    (hreleased : (t.releases, t.managerReleased) = (s.releases, s.managerReleased))
    (hreleases : b.stage.releases = true → a.stage.releases = true)
    (hlatched : s.closed = false → t.Latched)
    (hfinished : s.closed = true → b.stage.holds = false ∧ b.stage.drained = false) : t.Inv := by
  have ha : a ∈ s.calls := List.mem_of_getElem? m.was
  obtain ⟨hreleases', hmanager⟩ := Prod.mk.inj hreleased
  refine ⟨?_, fun ht ↦ hlatched (hclosed ▸ ht), fun ht ↦ ⟨?_, ?_⟩, ?_, ?_⟩
  · have htally := m.tally Stage.stores
    rw [hstores.1, hstores.2] at htally
    rw [hcount, h.stores]
    omega
  · rw [hcount]
    exact (h.finished (hclosed ▸ ht)).count
  · rw [m.now]
    exact List.forall_mem_set (h.finished (hclosed ▸ ht)).idle (hfinished (hclosed ▸ ht))
  · rw [hreleases', hmanager, h.once]
  · rw [m.now, hclosed]
    exact List.forall_mem_set h.released fun hb ↦ h.released a ha (hreleases hb)

theorem Inv.aside (h : s.Inv) (hstep : s.Aside t n a b) : t.Inv := by
  have ha := List.mem_of_getElem? hstep.was
  have hroles : b.stage.engaged = true → b.stage.holds = a.stage.holds ∧
      b.stage.drained = a.stage.drained := by
    intro hb
    have := (hstep.engaged hb).1
    simp only [Stage.roles, Prod.mk.injEq] at this
    exact ⟨this.1, this.2.2.2⟩
  have hflags := hstep.flags
  simp only [State.flags, Prod.mk.injEq] at hflags
  refine h.of_moves hstep.toMoves hstep.stores hflags.2.2.2.2 hstep.closed hstep.released hstep.releases
    (fun hs ↦ (h.latched hs).move hstep.toMoves hstep.flags hstep.engaged) fun hs ↦ ?_
  obtain ⟨hholds, hdrained⟩ := (h.finished hs).idle a ha
  refine ⟨Bool.eq_false_iff.2 fun hb ↦ ?_, Bool.eq_false_iff.2 fun hb ↦ ?_⟩
  · rw [(hroles (Stage.engaged_of_holds hb)).1, hholds] at hb
    cases hb
  · rw [(hroles (Stage.engaged_of_drained hb)).2, hdrained] at hb
    cases hb

theorem raised_idle (c : Call) (x : Context) :
    (raised c x).holds = false ∧ (raised c x).drained = false ∧ (raised c x).stores = false ∧
      (raised c x).releases = false := by
  cases x with
  | resumed => exact ⟨rfl, rfl, rfl, rfl⟩
  | plain | forced =>
    obtain ⟨hholds, hdrained⟩ := Stage.idle_of_not_engaged (engaged_done c)
    exact ⟨hholds, hdrained, stores_done c, releases_done c⟩

/-- What the first section of `_close_locked` leaves alone. -/
theorem enter_frame (s : State) (c : Call) (x : Context) :
    ((s.enter c x).1.calls = s.calls ∧ (s.enter c x).1.activeStoreCount = s.activeStoreCount ∧
      (s.enter c x).1.closed = s.closed ∧
      ((s.enter c x).1.releases, (s.enter c x).1.managerReleased) = (s.releases, s.managerReleased)) ∧
    (s.enter c x).2.stores = false ∧ (s.enter c x).2.releases = false := by
  obtain ⟨-, -, hstores, hreleases⟩ := raised_idle c x
  rcases enter_cases s c x with ⟨-, hpair | hpair⟩ | ⟨-, -, hpair⟩ | ⟨-, -, -, hpair⟩ | ⟨-, -, -, hpair⟩
  all_goals
    rw [hpair]
    first
      | exact ⟨⟨rfl, rfl, rfl, rfl⟩, rfl, rfl⟩
      | exact ⟨⟨rfl, rfl, rfl, rfl⟩, stores_done c, releases_done c⟩
      | exact ⟨⟨rfl, rfl, rfl, rfl⟩, hstores, hreleases⟩

theorem Inv.enter {x : Context} (h : s.Inv) (ha : s.calls[n]? = some a) (hstage : a.stage = .enter x)
    (horderly : s.takes a.thread = true →
      (∀ c ∈ s.calls.eraseIdx n, c.stage.parts = false) ∧
      (s.closing = true → s.closeOwner = some a.thread → 0 < s.activeStoreThreads a.thread)) :
    ((s.enter a x).1.goto n a (s.enter a x).2).Inv := by
  obtain ⟨⟨hcalls, hcount, hclosed, hreleased⟩, hstores, hreleases⟩ := enter_frame s a x
  refine h.of_moves (b := { a with stage := (s.enter a x).2 }) ⟨ha, by rw [goto, hcalls]⟩
    ⟨by rw [hstage]; rfl, hstores⟩ hcount hclosed hreleased (fun hr ↦ ?_)
    (fun hs ↦ (h.latched hs).enter ha hstage horderly) fun hs ↦ ?_
  · rw [hreleases] at hr
    cases hr
  · have hdone : s.enter a x = (s, done a) := by rw [State.enter, if_pos hs]
    simp only [hdone]
    exact Stage.idle_of_not_engaged (engaged_done a)

theorem await_frame {c : Call} {x : Context} {r : State × Stage} (hr : s.await c x = some r) :
    (r.1.calls = s.calls ∧ r.1.activeStoreCount = s.activeStoreCount ∧ r.1.closed = s.closed ∧
      (r.1.releases, r.1.managerReleased) = (s.releases, s.managerReleased)) ∧
    r.2.stores = false ∧ r.2.releases = false := by
  rw [State.await] at hr
  split_ifs at hr <;> obtain rfl := Option.some.inj hr
  · exact ⟨⟨rfl, rfl, rfl, rfl⟩, rfl, rfl⟩
  · exact ⟨⟨rfl, rfl, rfl, rfl⟩, stores_done c, releases_done c⟩

/-- The strategy is not closed any more. -/
theorem Inv.not_closed (h : s.Inv) (ha : s.calls[n]? = some a)
    (hstage : a.stage.holds = true ∨ a.stage.drained = true) : s.closed = false := by
  by_contra hs
  obtain ⟨hholds, hdrained⟩ := (h.finished (by simpa using hs)).idle a (List.mem_of_getElem? ha)
  rw [hholds, hdrained] at hstage
  simp at hstage

theorem Inv.await {x : Context} {r : State × Stage} (h : s.Inv) (ha : s.calls[n]? = some a)
    (hstage : a.stage = .wait x) (hr : s.await a x = some r) : (r.1.goto n a r.2).Inv := by
  have hopen := h.not_closed ha (.inl (by rw [hstage]; rfl))
  obtain ⟨⟨hcalls, hcount, hclosed, hreleased⟩, hstores, hreleases⟩ := await_frame hr
  refine h.of_moves (b := { a with stage := r.2 }) ⟨ha, by rw [goto, hcalls]⟩
    ⟨by rw [hstage]; rfl, hstores⟩ hcount hclosed hreleased (fun hb ↦ ?_)
    (fun hs ↦ (h.latched hs).await ha hstage hr) fun hs ↦ ?_
  · rw [hreleases] at hb
    cases hb
  · rw [hopen] at hs
    cases hs

theorem Inv.fail {x : Context} (h : s.Inv) (ha : s.calls[n]? = some a) (hstage : a.stage = .failing x) :
    (s.fail.goto n a (if x = .forced then .publish x true else raised a x)).Inv := by
  have hopen := h.not_closed ha (.inl (by rw [hstage]; rfl))
  obtain ⟨-, -, hstores, hreleases⟩ := raised_idle a x
  refine h.of_moves (b := { a with stage := if x = .forced then .publish x true else raised a x })
    ⟨ha, rfl⟩ ⟨by rw [hstage]; rfl, ?_⟩ rfl rfl rfl (fun hb ↦ ?_)
    (fun hs ↦ (h.latched hs).fail ha hstage) fun hs ↦ ?_
  · dsimp only
    split_ifs
    · rfl
    · exact hstores
  · dsimp only at hb
    split_ifs at hb
    · cases hb
    · rw [hreleases] at hb
      cases hb
  · rw [hopen] at hs
    cases hs

/-- The end of an attempt. -/
theorem Inv.publish {x : Context} {failed : Bool} (h : s.Inv) (ha : s.calls[n]? = some a)
    (hstage : a.stage = .publish x failed) :
    (s.publish.goto n a
      (if s.ownsConnectionManager ∧ ¬ s.managerReleased then .release x else done a)).Inv := by
  have hdrained : a.stage.drained = true := by
    rw [hstage]
    rfl
  have hopen := h.not_closed ha (.inr hdrained)
  have hengaged := Stage.engaged_of_drained hdrained
  have hcount := (h.latched hopen).drained a (List.mem_of_getElem? ha) hdrained
  generalize hb : ({ a with
    stage := if s.ownsConnectionManager ∧ ¬ s.managerReleased then .release x else done a } : Call) = b
  have hidle : b.stage.engaged = false ∧ b.stage.stores = false := by
    rw [← hb]
    dsimp only
    split_ifs
    · exact ⟨rfl, rfl⟩
    · exact ⟨engaged_done a, stores_done a⟩
  generalize ht : s.publish.goto n a _ = t
  have m : s.Moves t n a b := ⟨ha, by rw [← ht, ← hb]; rfl⟩
  have hclosed : t.closed = true := by
    rw [← ht]
    rfl
  have hcount' : t.activeStoreCount = s.activeStoreCount := by
    rw [← ht]
    rfl
  refine ⟨?_, fun hs ↦ ?_, fun _ ↦ ⟨by rw [hcount', hcount], fun c hc ↦ ?_⟩, ?_, fun _ _ _ ↦ hclosed⟩
  · have htally := m.tally Stage.stores
    have hstores : a.stage.stores = false := by
      rw [hstage]
      rfl
    rw [hstores, hidle.2] at htally
    rw [hcount', h.stores]
    omega
  · rw [hclosed] at hs
    cases hs
  · -- this was the only attempt
    have hsole := ((h.latched hopen).sole_of_engaged ha hengaged).1
    have htally := m.tally Stage.engaged
    rw [hidle.1, Bool.toNat_false] at htally
    refine Stage.idle_of_not_engaged (Bool.eq_false_iff.2 fun he ↦ ?_)
    have := tally_pos hc he
    omega
  · rw [← ht]
    have hreleases : (s.publish.goto n a (if s.ownsConnectionManager ∧ ¬ s.managerReleased then .release x
        else done a)).releases = s.releases + (s.ownsConnectionManager && !s.managerReleased).toNat := rfl
    have hmanager : (s.publish.goto n a (if s.ownsConnectionManager ∧ ¬ s.managerReleased then .release x
        else done a)).managerReleased =
          (s.managerReleased || (s.ownsConnectionManager && !s.managerReleased)) := rfl
    rw [hreleases, hmanager, h.once]
    cases s.ownsConnectionManager <;> cases s.managerReleased <;> rfl

/-- A store is admitted. -/
theorem Inv.enterStore (h : s.Inv) (ha : s.calls[n]? = some a) (hstage : a.stage = .admission)
    (hadmits : s.admits = true) : ((s.enterStore a.thread).goto n a .storing).Inv := by
  simp only [admits, Bool.and_eq_true, Bool.not_eq_true'] at hadmits
  obtain ⟨hopen, hclosing⟩ := hadmits
  have m : s.Moves ((s.enterStore a.thread).goto n a .storing) n a { a with stage := .storing } := ⟨ha, rfl⟩
  refine ⟨?_, fun _ ↦ (h.latched hopen).free m (.inl hclosing) rfl id, fun hs ↦ ?_, h.once,
    List.forall_mem_set h.released nofun⟩
  · have htally := m.tally Stage.stores
    have hstores : a.stage.stores = false := by
      rw [hstage]
      rfl
    have hnow : ({ a with stage := .storing } : Call).stage.stores = true := rfl
    rw [hstores, hnow, Bool.toNat_false, Bool.toNat_true] at htally
    have hcount : ((s.enterStore a.thread).goto n a .storing).activeStoreCount = s.activeStoreCount + 1 := rfl
    rw [hcount, h.stores]
    omega
  · have hs : s.closed = true := hs
    rw [hopen] at hs
    cases hs

/-- What a store that leaves does not touch. -/
theorem leaveStore_frame (s : State) (thread : ℕ) :
    (s.leaveStore thread).calls = s.calls ∧
      (s.leaveStore thread).activeStoreCount = s.activeStoreCount - 1 ∧
      (s.leaveStore thread).closed = s.closed ∧
      ((s.leaveStore thread).releases, (s.leaveStore thread).managerReleased) =
        (s.releases, s.managerReleased) := by
  rw [State.leaveStore]
  dsimp only
  split_ifs <;> exact ⟨rfl, rfl, rfl, rfl⟩

/-- A store leaves. -/
theorem Inv.leaveStore (h : s.Inv) (ha : s.calls[n]? = some a) (hstage : a.stage = .storing) :
    ((s.leaveStore a.thread).goto n a (if s.resumes then .enter .resumed else .over)).Inv := by
  have hstores : a.stage.stores = true := by
    rw [hstage]
    rfl
  have hpos := tally_pos (List.mem_of_getElem? ha) hstores
  have hopen : s.closed = false := by
    by_contra hs
    have := (h.finished (by simpa using hs)).count
    rw [h.stores] at this
    omega
  have hlatched := (h.latched hopen).leaveStore ha hstage
  obtain ⟨hcalls, hcount, hclosed, hreleased⟩ := leaveStore_frame s a.thread
  obtain ⟨hreleases, hmanager⟩ := Prod.mk.inj hreleased
  generalize hb : ({ a with stage := if s.resumes then .enter .resumed else .over } : Call) = b
  have hidle : b.stage.stores = false ∧ b.stage.releases = false := by
    rw [← hb]
    dsimp only
    split_ifs <;> exact ⟨rfl, rfl⟩
  have m : s.Moves ((s.leaveStore a.thread).goto n a (if s.resumes then .enter .resumed else .over)) n a b :=
    ⟨ha, by rw [← hb, goto, hcalls]⟩
  refine ⟨?_, fun _ ↦ hlatched, fun hs ↦ ?_, ?_, ?_⟩
  · have htally := m.tally Stage.stores
    rw [hstores, hidle.1, Bool.toNat_true, Bool.toNat_false] at htally
    refine hcount.trans ?_
    rw [h.stores]
    omega
  · have hs : s.closed = true := hclosed.symm.trans hs
    rw [hopen] at hs
    cases hs
  · exact hreleases.trans (h.once.trans (congrArg Bool.toNat hmanager.symm))
  · rw [m.now]
    refine List.forall_mem_set (fun c hc hr ↦ hclosed.trans (h.released c hc hr)) fun hr ↦ ?_
    rw [hidle.2] at hr
    cases hr

/-- A new call. -/
theorem Inv.call {c : Call} (h : s.Inv) (hcalls : t.calls = s.calls ++ [c])
    (hc : c.stage.stores = false ∧ c.stage.releases = false ∧ c.stage.holds = false ∧
      c.stage.drained = false)
    (hlatched : s.closed = false → t.Latched)
    (hframe : t.activeStoreCount = s.activeStoreCount ∧ t.closed = s.closed ∧
      (t.releases, t.managerReleased) = (s.releases, s.managerReleased)) : t.Inv := by
  obtain ⟨hcount, hclosed, hreleased⟩ := hframe
  obtain ⟨hreleases, hmanager⟩ := Prod.mk.inj hreleased
  have hnew : ∀ {P : Call → Prop}, (∀ d ∈ s.calls, P d) → P c → ∀ d ∈ t.calls, P d := by
    intro P hold hcP d hd
    rw [hcalls, List.mem_append, List.mem_singleton] at hd
    rcases hd with hd | rfl
    · exact hold d hd
    · exact hcP
  refine ⟨?_, fun hs ↦ hlatched (hclosed ▸ hs), fun hs ↦ ⟨?_, ?_⟩, ?_, ?_⟩
  · have htally : t.tally Stage.stores = s.tally Stage.stores := by
      rw [tally, hcalls]
      exact (List.countP_concat _ _ _).trans (by rw [hc.1]; rfl)
    rw [hcount, htally, h.stores]
  · rw [hcount]
    exact (h.finished (hclosed ▸ hs)).count
  · exact hnew (h.finished (hclosed ▸ hs)).idle hc.2.2
  · rw [hreleases, hmanager, h.once]
  · rw [hclosed]
    refine hnew h.released fun hr ↦ ?_
    rw [hc.2.1] at hr
    cases hr

theorem Inv.closeSpiderAsync (h : s.Inv) : s.closeSpiderAsync.Inv := by
  have hlatched := fun hopen ↦ (h.latched hopen).closeSpiderAsync
  rw [State.closeSpiderAsync] at hlatched ⊢
  split_ifs at hlatched ⊢
  · exact h
  · exact h.call rfl ⟨rfl, rfl, rfl, rfl⟩ hlatched ⟨rfl, rfl, rfl⟩
  · exact h
  · exact h.call rfl ⟨rfl, rfl, rfl, rfl⟩ hlatched ⟨rfl, rfl, rfl⟩

theorem Inv.act {outcome : Outcome} (h : s.Inv) (ha : s.calls[n]? = some a)
    (horderly : s.Orderly (.act n outcome)) (ht : s.act n a outcome = some t) : t.Inv := by
  obtain ⟨henters, hrejects⟩ := horderly a ha
  cases acts_of_act ha ht with
  | aside hstep => exact h.aside hstep
  | freed hstep hstage =>
    refine h.of_moves hstep.toMoves hstep.stores hstep.count hstep.closed hstep.released (fun hb ↦ ?_)
      (fun hs ↦ (h.latched hs).free hstep.toMoves ?_ hstep.stage.1 fun hw ↦ hstep.waiting ▸ hw)
      fun _ ↦ Stage.idle_of_not_engaged hstep.stage.1
    · rw [hstep.stage.2] at hb
      cases hb
    · exact hstage.symm.imp_left fun ⟨hrejected, hok⟩ ↦ hrejects hrejected hok
  | admitted hstage hadmits => exact h.enterStore ha hstage hadmits
  | left hstage => exact h.leaveStore ha hstage
  | entered hstage => exact h.enter ha hstage (henters (by rw [hstage]; rfl))
  | awaited hstage hr => exact h.await ha hstage hr
  | failed hstage => exact h.fail ha hstage
  | published hstage => exact h.publish ha hstage
  | @released x hstage =>
    have hclosed := h.released a (List.mem_of_getElem? ha) (by rw [hstage]; rfl)
    obtain ⟨hholds, hdrained, hstores, hreleases⟩ := raised_idle a x
    refine h.of_moves (b := { a with stage := raised a x }) ⟨ha, rfl⟩ ⟨by rw [hstage]; rfl, hstores⟩
      rfl rfl rfl (fun hb ↦ ?_) (fun hs ↦ ?_) fun _ ↦ ⟨hholds, hdrained⟩
    · rw [hreleases] at hb
      cases hb
    · rw [hclosed] at hs
      cases hs
  | continued hstage =>
    have hstep : s.Aside (s.goto n a .over) n a { a with stage := .over } :=
      .of_done ⟨ha, rfl⟩ rfl ⟨by rw [hstage]; rfl, rfl⟩ rfl rfl rfl rfl
    exact (h.aside hstep).closeSpiderAsync

theorem Inv.step {label : Label} (h : s.Inv) (horderly : s.Orderly label) (ht : s.step label = some t) :
    t.Inv := by
  unfold State.step at ht
  -- a call that is made has no role
  have hcall : ∀ {u : State} {c : Call}, u.calls = s.calls ++ [c] → u.flags = s.flags →
      u.closed = s.closed → (u.releases, u.managerReleased) = (s.releases, s.managerReleased) →
      c.stage.engaged = false → c.stage.stores = false ∧ c.stage.releases = false → u.Inv := by
    intro u c hcalls hflags hclosed hreleased hc hidle
    simp only [flags, Prod.mk.injEq] at hflags
    obtain ⟨hclosing, howner, hpending, hwaiting, hcount⟩ := hflags
    exact h.call hcalls ⟨hidle.1, hidle.2, Stage.idle_of_not_engaged hc⟩
      (fun hs ↦ (h.latched hs).call hcalls hc hclosing howner (fun hp ↦ hpending.trans hp) hwaiting hcount)
      ⟨hcount, hclosed, hreleased⟩
  cases label with
  | process | close | openSpider =>
    obtain rfl := Option.some.inj ht
    exact hcall rfl rfl rfl rfl rfl ⟨rfl, rfl⟩
  | processAsync | openAsync =>
    dsimp only at ht
    split_ifs at ht <;> obtain rfl := Option.some.inj ht
    · exact h
    · exact hcall rfl rfl rfl rfl rfl ⟨rfl, rfl⟩
  | closeAsync =>
    obtain rfl := Option.some.inj ht
    exact h.closeSpiderAsync
  | act n outcome =>
    obtain ⟨a, ha, ht⟩ := Option.bind_eq_some_iff.1 ht
    exact h.act ha horderly ht

/-! ## Exclusion -/

/-- What stores, closes and the release of the manager owe each other. -/
structure Exclusion (s : State) : Prop where
  /-- The strategy is not closed below a store, -/
  apart : 0 < s.tally Stage.closes → s.tally Stage.stores = 0
  /-- nor twice at a time, -/
  single : s.tally Stage.closes ≤ 1
  /-- and no store begins meanwhile. -/
  refused : 0 < s.tally Stage.closes → s.admits = false
  once : s.releases ≤ 1
  last : 0 < s.tally Stage.releases → s.tally Stage.stores = 0 ∧ s.tally Stage.closes = 0

theorem Inv.exclusion (h : s.Inv) : s.Exclusion := by
  have hclosed : s.closed = true → s.tally Stage.stores = 0 ∧ s.tally Stage.closes = 0 := by
    intro hs
    refine ⟨h.stores ▸ (h.finished hs).count, List.countP_eq_zero.2 fun c hc hcloses ↦ ?_⟩
    have := ((h.finished hs).idle c hc).2
    rw [Stage.drained_of_closes hcloses] at this
    cases this
  have hcloses : 0 < s.tally Stage.closes → s.closed = false ∧ ∃ c ∈ s.calls, c.stage.closes = true := by
    intro hpos
    refine ⟨Bool.eq_false_iff.2 fun hs ↦ ?_, List.countP_pos_iff.1 hpos⟩
    have := (hclosed hs).2
    omega
  refine ⟨fun hpos ↦ ?_, ?_, fun hpos ↦ ?_, ?_, fun hpos ↦ hclosed ?_⟩
  · obtain ⟨hopen, c, hc, hstage⟩ := hcloses hpos
    rw [← h.stores]
    exact (h.latched hopen).drained c hc (Stage.drained_of_closes hstage)
  · by_contra hmany
    obtain ⟨hopen, -⟩ := hcloses (by omega)
    have hone := (h.latched hopen).one
    rw [attempts] at hone
    have : s.tally Stage.closes ≤ s.tally Stage.engaged :=
      List.countP_mono_left fun c _ hstage ↦ Stage.engaged_of_drained (Stage.drained_of_closes hstage)
    omega
  · obtain ⟨hopen, c, hc, hstage⟩ := hcloses hpos
    have hengaged := tally_pos hc (Stage.engaged_of_drained (Stage.drained_of_closes hstage))
    have hclosing := (h.latched hopen).latched (by rw [attempts]; omega)
    rw [admits, hclosing]
    simp
  · rw [h.once]
    exact Bool.toNat_le _
  · obtain ⟨c, hc, hstage⟩ := List.countP_pos_iff.1 hpos
    exact h.released c hc hstage

theorem inv_new (ownsConnectionManager : Bool) : (State.new ownsConnectionManager).Inv :=
  ⟨rfl, fun _ ↦ .of_attempts_eq_zero rfl, nofun, rfl, nofun⟩

end State

/-- Stores, closes and the release of the manager exclude each other, all along a run in which nobody takes
a close that is not over. -/
theorem exclusion_of_orderly (ownsConnectionManager : Bool) {as : List Label}
    (h : (machine ownsConnectionManager).Along State.Orderly (.new ownsConnectionManager) as) :
    (machine ownsConnectionManager).Always State.Exclusion (.new ownsConnectionManager) as := by
  have hinv := h.always (I := State.Inv) (fun _ _ _ hs hG ht ↦ hs.step hG ht)
    (State.inv_new ownsConnectionManager)
  exact hinv.mono fun s hs ↦ hs.exclusion

/-- A close from inside of a store is parked, and resumed by a store of another thread. -/
def resumedRun : List Label :=
  [.process 1, .act 0 .ok, .process 2, .act 1 .ok, .close 1, .act 2 .ok, .act 2 .ok, .act 0 .ok, .act 1 .ok,
    .act 1 .ok]

theorem exclusion_of_orderly_resumedRun :
    (machine true).Always State.Exclusion (.new true) resumedRun ∧
      ∃ s, (machine true).run (.new true) resumedRun = some s ∧ s.tally Stage.closes = 1 := by
  exact ⟨exclusion_of_orderly true (by decide), _, rfl, rfl⟩

/-- The thread of the parked close has left its store, and closes the pipeline once more before the other
store leaves: two threads close the strategy at the same time. -/
theorem not_exclusion_of_reentered :
    ∃ s, (machine true).run (.new true)
        [.process 1, .act 0 .ok, .process 2, .act 1 .ok, .close 1, .act 2 .ok, .act 2 .ok, .act 0 .ok,
          .close 1, .act 3 .ok, .act 3 .ok, .act 1 .ok, .act 3 .ok, .act 1 .ok] = some s ∧
      ¬ s.Exclusion := by
  refine ⟨_, rfl, fun h ↦ ?_⟩
  exact absurd h.single (by decide)

end Pipeline

end ScrapyExtension
