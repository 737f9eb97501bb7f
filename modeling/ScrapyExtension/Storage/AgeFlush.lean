import ScrapyExtension.Storage.Batched

/-!
# The age flusher

A thread of `BatchedStorageStrategy` flushes the buffer once its oldest record has been there for `max_buffer_age_s`:
it waits for what is left of that time, or for all of it if the buffer is empty, and looks again. Another record may be
the oldest one by then, but it came after the wait had begun, so it is not overdue either.
-/

namespace ScrapyExtension

namespace Batched

/-- The settings of the flusher. -/
structure AgeConfig where
  /-- `max_buffer_age_s` -/
  age : ℚ
  /-- How late the thread may be after a wait. -/
  lateness : ℚ
  age_pos : 0 < age
  lateness_nonneg : 0 ≤ lateness

/-- `_AGE_WAIT_FLOOR_S` -/
def ageWaitFloor : ℚ := 1 / 100

/-- Where the flusher is. -/
inductive Flusher
  | absent
  /-- Before `_next_age_wait_interval`. -/
  | looking
  /-- In `_stop.wait`, with the time of the look. -/
  | waiting (since timeout : ℚ)
  | flushing
  | ended
deriving DecidableEq

/-- The strategy, the time, and its flusher. -/
structure Timed (β : Type) where
  state : State β
  time : ℚ
  flusher : Flusher
deriving DecidableEq

/-- What happens. -/
inductive TimedLabel (β : Type)
  | tick (elapsed : ℚ)
  | act (label : Label β)
  /-- The flusher goes on; its flush ends with process control, or not. -/
  | turn (control : Bool)

variable {β : Type}

/-- The time that a step of the strategy reads is the present one. -/
def Label.timely (now : ℚ) : Label β → Bool
  | .store _ t | .step _ t => t = now
  | _ => true

/-- Until when a wait is over. -/
def Flusher.latest (a : AgeConfig) : Flusher → Option ℚ
  | .waiting since timeout => some (since + timeout + a.lateness)
  | _ => none

/-- `_oldest_ts`, unless `_buffer` is empty. -/
def State.oldest? (s : State β) : Option ℚ := if s.buffer = [] then none else s.oldest

/-- `_next_age_wait_interval` -/
def nextAgeWaitInterval (a : AgeConfig) (s : State β) (now : ℚ) : ℚ :=
  s.oldest?.elim a.age fun oldest ↦ max (a.age - (now - oldest)) ageWaitFloor

/-- `need_flush` -/
def needFlush (a : AgeConfig) (s : State β) (now : ℚ) : Bool := s.oldest?.any fun oldest ↦ a.age ≤ now - oldest

/-- The next step of the flusher, which `_ensure_flusher` starts. -/
def Timed.turn (a : AgeConfig) (s : Timed β) (control : Bool) : Option Flusher :=
  match s.flusher with
  | .absent => if s.state.closed then none else some .looking
  | .looking => some (.waiting s.time (nextAgeWaitInterval a s.state s.time))
  | .waiting since timeout =>
    if s.state.closed then some .ended
    else if s.time < since + timeout then none
    else some (if needFlush a s.state s.time then .flushing else .looking)
  | .flushing => some (if control then .ended else .looking)
  | .ended => none

/-- One step. -/
def Timed.step [DecidableEq β] (c : Config) (a : AgeConfig) (s : Timed β) : TimedLabel β → Option (Timed β)
  | .tick elapsed =>
    if 0 ≤ elapsed ∧ ∀ t ∈ s.flusher.latest a, s.time + elapsed ≤ t then some { s with time := s.time + elapsed }
    else none
  | .act label =>
    if label.timely s.time then (State.step c s.state label).map fun state ↦ { s with state } else none
  | .turn control => (s.turn a control).map fun flusher ↦ { s with flusher }

/-- The strategy with its flusher as a machine. -/
def timedMachine [DecidableEq β] (c : Config) (a : AgeConfig) (start : ℚ) : Machine (Timed β) (TimedLabel β) where
  init := ⟨.new, start, .absent⟩
  step := Timed.step c a

/-! ## What a step does to the oldest record -/

variable {c : Config} {s t : State β} {now : ℚ}

/-- What is dated stays as it is, or is dated at the time of the step. -/
theorem oldest_step [DecidableEq β] (h : s.buffer = [] ↔ s.oldest = none) {label : Label β}
    (ht : State.step c s label = some t) (hnow : label.timely now) :
    (t.buffer = [] ↔ t.oldest = none) ∧ ∀ u ∈ t.oldest, u ∈ s.oldest ∨ u = now := by
  unfold State.step at ht
  cases label with
  | store e time =>
    obtain rfl : time = now := of_decide_eq_true hnow
    obtain ⟨⟩ := ht
    unfold State.store
    split_ifs
    · exact ⟨h, fun _ ↦ .inl⟩
    · exact ⟨h, fun _ ↦ .inl⟩
    · refine ⟨iff_of_false (by simp) not_false, ?_⟩
      rintro _ ⟨⟩
      cases s.oldest <;> simp
  | step ending time =>
    obtain rfl : time = now := of_decide_eq_true hnow
    obtain ⟨f, -, ht⟩ := Option.bind_eq_some_iff.1 ht
    unfold State.advance at ht
    split at ht <;> try obtain ⟨⟩ := ht
    · exact ⟨iff_of_true rfl rfl, fun u hu ↦ absurd hu (Option.not_mem_none u)⟩
    · exact ⟨h, fun _ ↦ .inl⟩
    · cases ending <;> exact ⟨h, fun _ ↦ .inl⟩
    · unfold State.releasePersistedEntry
      split_ifs <;> exact ⟨h, fun _ ↦ .inl⟩
    · unfold State.notify
      cases ending <;> dsimp only <;> (try split_ifs) <;> exact ⟨h, fun _ ↦ .inl⟩
    · unfold State.requeueTail
      split_ifs with _ hnil
      · exact ⟨h, fun _ ↦ .inl⟩
      · exact ⟨iff_of_true hnil (h.1 (List.append_eq_nil_iff.1 hnil).2), fun _ ↦ .inl⟩
      · exact ⟨iff_of_false hnil not_false, fun u hu ↦ .inr (Option.some.inj hu).symm⟩
  | leave | lock i acquired interrupted | check i alive | close | flush | join i interrupted =>
    -- these have to do with the locks and the close attempts
    have hsame : t.buffer = s.buffer ∧ t.oldest = s.oldest := by
      grind [State.leave, State.lock, State.check, State.moveTo, State.goto]
    rw [hsame.1, hsame.2]
    exact ⟨h, fun _ ↦ .inl⟩

/-! ## The invariant -/

/-- What holds after every step. -/
structure Timed.Inv (a : AgeConfig) (s : Timed β) : Prop where
  empty : s.state.buffer = [] ↔ s.state.oldest = none
  past : ∀ t ∈ s.state.oldest, t ≤ s.time
  /-- A wait ends in time for the oldest record, also for one that comes now. -/
  wait : ∀ since timeout, s.flusher = .waiting since timeout → since ≤ s.time ∧
    s.time ≤ since + timeout + a.lateness ∧ timeout ≤ a.age + ageWaitFloor ∧
    ∀ t ∈ s.state.oldest, since + timeout ≤ max (t + a.age) since + ageWaitFloor

section Timed

variable {a : AgeConfig} {s t : Timed β} {start : ℚ}

theorem ageWaitFloor_pos : 0 < ageWaitFloor := by norm_num [ageWaitFloor]

theorem Timed.Inv.oldest? (h : s.Inv a) : s.state.oldest? = s.state.oldest := by
  unfold State.oldest?
  split_ifs with hnil
  · exact (h.empty.1 hnil).symm
  · rfl

/-- The thread does something else than to wait. -/
theorem Timed.Inv.move (h : s.Inv a) {flusher : Flusher} (hflusher : flusher.latest a = none) :
    Inv a { s with flusher } := by
  refine ⟨h.empty, h.past, ?_⟩
  rintro since timeout rfl
  cases hflusher

/-- The thread looks. -/
theorem Timed.Inv.look (h : s.Inv a) :
    Inv a { s with flusher := .waiting s.time (nextAgeWaitInterval a s.state s.time) } := by
  have hlate := a.lateness_nonneg
  have hfloor := ageWaitFloor_pos
  have hage := a.age_pos
  refine ⟨h.empty, h.past, ?_⟩
  rintro _ _ ⟨⟩
  refine ⟨le_rfl, ?_⟩
  unfold nextAgeWaitInterval
  rw [h.oldest?]
  dsimp only
  rcases holdest : s.state.oldest with - | oldest <;> dsimp only [Option.elim]
  · exact ⟨by linarith, by linarith, fun t ht ↦ absurd ht (Option.not_mem_none t)⟩
  · have hpast := h.past oldest holdest
    have hmax := le_max_right (a.age - (s.time - oldest)) ageWaitFloor
    refine ⟨by linarith, max_le (by linarith) (by linarith), ?_⟩
    rintro _ ⟨⟩
    have hdue := le_max_left (oldest + a.age) s.time
    have hnow := le_max_right (oldest + a.age) s.time
    rcases max_choice (a.age - (s.time - oldest)) ageWaitFloor with hmax | hmax <;> rw [hmax] <;> linarith

/-- A step of the strategy. -/
theorem Timed.Inv.act [DecidableEq β] (h : s.Inv a) {label : Label β} {state : State β}
    (ht : State.step c s.state label = some state) (hnow : label.timely s.time) : Inv a { s with state } := by
  obtain ⟨hempty, hold⟩ := oldest_step h.empty ht hnow
  refine ⟨hempty, fun t ht ↦ (hold t ht).elim (h.past t) le_of_eq, fun since timeout hwait ↦ ?_⟩
  obtain ⟨hsince, hlatest, htimeout, hdue⟩ := h.wait since timeout hwait
  refine ⟨hsince, hlatest, htimeout, fun t ht ↦ ?_⟩
  rcases hold t ht with hmem | rfl
  · exact hdue t hmem
  · have := le_max_left (s.time + a.age) since
    linarith

theorem Timed.Inv.tick (h : s.Inv a) {elapsed : ℚ} (helapsed : 0 ≤ elapsed)
    (hlatest : ∀ t ∈ s.flusher.latest a, s.time + elapsed ≤ t) : Inv a { s with time := s.time + elapsed } := by
  refine ⟨h.empty, fun t ht ↦ (h.past t ht).trans (by linarith), fun since timeout hwait ↦ ?_⟩
  obtain ⟨hsince, -, hrest⟩ := h.wait since timeout hwait
  exact ⟨by linarith, hlatest _ (hwait ▸ rfl), hrest⟩

theorem Timed.Inv.turn (h : s.Inv a) {control : Bool} {flusher : Flusher} (ht : s.turn a control = some flusher) :
    Inv a { s with flusher } := by
  unfold Timed.turn at ht
  cases hflusher : s.flusher <;> simp only [hflusher] at ht
  case looking =>
    obtain ⟨⟩ := ht
    exact h.look
  all_goals (try split_ifs at ht) <;> cases ht <;> exact h.move rfl

/-- **One step** keeps the invariant. -/
theorem Timed.Inv.step [DecidableEq β] (h : s.Inv a) {label : TimedLabel β} (ht : s.step c a label = some t) :
    t.Inv a := by
  unfold Timed.step at ht
  cases label with
  | tick elapsed =>
    obtain ⟨⟨helapsed, hlatest⟩, ⟨⟩⟩ := Option.ite_none_right_eq_some.1 ht
    exact h.tick helapsed hlatest
  | act label =>
    obtain ⟨hnow, ht⟩ := Option.ite_none_right_eq_some.1 ht
    obtain ⟨state, hstate, rfl⟩ := Option.map_eq_some_iff.1 ht
    exact h.act hstate hnow
  | turn control =>
    obtain ⟨flusher, hflusher, rfl⟩ := Option.map_eq_some_iff.1 ht
    exact h.turn hflusher

theorem Timed.inv_of_reachable [DecidableEq β] (h : (timedMachine c a start).Reachable s) : s.Inv a := by
  refine h.invariant (I := Timed.Inv a) ⟨iff_of_true rfl rfl, fun t ht ↦ absurd ht (Option.not_mem_none t), ?_⟩
    fun _ _ _ hs ht ↦ hs.step ht
  rintro _ _ ⟨⟩

/-- **Age.** While the thread waits, a buffer that is not empty is no older than the age, the floor and the lateness
come to, unless it was over the age when the thread looked. -/
theorem aged_of_reachable [DecidableEq β] (h : (timedMachine c a start).Reachable s) (since timeout : ℚ)
    (hwait : s.flusher = .waiting since timeout) (hbuffer : s.state.buffer ≠ []) :
    ∃ t ∈ s.state.oldest, s.time ≤ max (t + a.age) since + ageWaitFloor + a.lateness := by
  have hinv := Timed.inv_of_reachable h
  obtain ⟨t, ht⟩ := Option.ne_none_iff_exists'.1 fun hnone ↦ hbuffer (hinv.empty.2 hnone)
  obtain ⟨-, hlatest, -, hdue⟩ := hinv.wait since timeout hwait
  have := hdue t ht
  exact ⟨t, ht, by linarith⟩

end Timed

/-- An age of two seconds. -/
def twoSeconds : AgeConfig := ⟨2, 1, by decide, by decide⟩

/-- The record comes amid a wait that began with an empty buffer. -/
theorem aged_of_reachable_stored : ∃ s : Timed ℕ, s.time = 1 ∧ s.state.oldest = some (1 / 2) ∧
    ∃ t ∈ s.state.oldest, s.time ≤ max (t + twoSeconds.age) 0 + ageWaitFloor + twoSeconds.lateness :=
  ⟨⟨⟨[record 0], 0, some (1 / 2), false, none, [], [record 0], []⟩, 1, .waiting 0 2⟩, rfl, rfl,
    aged_of_reachable (show (timedMachine smallConfig twoSeconds 0).Reachable _ from
      ⟨[.turn false, .turn false, .tick (1 / 2), .act (.store (record 0) (1 / 2)), .tick (1 / 2)], by decide +kernel⟩)
      0 2 rfl (List.cons_ne_nil _ _)⟩

end Batched

end ScrapyExtension
