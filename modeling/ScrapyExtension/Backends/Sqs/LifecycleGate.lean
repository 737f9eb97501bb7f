import ScrapyExtension.Backends.Sqs.QueueLifecycle

/-!
# One queue lifecycle and its interruptions

`_SqsQueueLifecycle` is a barrier of its own: `operation` counts itself in and out, and
`destructive_operation` raises the clearing flag, waits until nothing is counted, and takes the flag down
at its end. Here one lifecycle is looked at alone, with any number of calls, each of which may be
interrupted in any of the three waits and may raise anywhere in its body.

## Where the flag is given back

The body of a clear is guarded, and so is the body of an operation. The wait of a clear for the running
operations is not: the flag is up by then, and the `try` comes after the wait. An exception out of that
wait leaves the flag up for good.

## Steps

The condition is held from its acquisition to a wait or to the end of the section, so that a call goes
straight from the first look to the body when nothing is in its way. A wait may end at any time, and is
taken up again when what it waits for is not there.
-/

namespace ScrapyExtension

namespace Sqs

namespace LifecycleGate

/-- Where a call of `operation` or `destructive_operation` is. -/
inductive Stage
  /-- Before the section of `operation`. -/
  | enter
  /-- `operation` waits for a clear. -/
  | await
  /-- The body of `operation`, with the epoch that it was given. -/
  | inside (epoch : ℕ)
  /-- Before the section of `destructive_operation`. -/
  | claim
  /-- `destructive_operation` waits for another clear. -/
  | queue
  /-- The flag is up, and `destructive_operation` waits for the operations. -/
  | drain
  /-- The body of `destructive_operation`. -/
  | clearing (epoch : ℕ)
  | over
deriving DecidableEq

structure State where
  lifecycle : QueueLifecycle
  calls : List Stage
deriving DecidableEq

inductive Label
  /-- `operation` is called. -/
  | operation
  /-- `destructive_operation` is called. -/
  | destructiveOperation
  /-- A call takes the condition, or its wait ends. -/
  | act (n : ℕ)
  /-- A wait raises. -/
  | interrupt (n : ℕ)
  /-- A body is left, with an exception or without. -/
  | leave (n : ℕ)
deriving DecidableEq

def State.new : State := ⟨⟨0, false, 0⟩, []⟩

def State.goto (s : State) (n : ℕ) (lifecycle : QueueLifecycle) (stage : Stage) : State :=
  ⟨lifecycle, s.calls.set n stage⟩

/-- The section of `operation` before its body. -/
def State.takeLease (s : State) (n : ℕ) : State :=
  let x := s.lifecycle
  if x.clearing then s.goto n x .await
  else s.goto n { x with activeOperations := x.activeOperations + 1 } (.inside x.epoch)

/-- The section of `destructive_operation` from where the flag is up. -/
def State.exclude (s : State) (n : ℕ) : State :=
  let x := s.lifecycle
  if x.activeOperations = 0 then
    s.goto n { x with clearing := true, epoch := x.epoch + 1 } (.clearing (x.epoch + 1))
  else s.goto n { x with clearing := true } .drain

/-- The section of `destructive_operation` before its body. -/
def State.raiseFlag (s : State) (n : ℕ) : State :=
  if s.lifecycle.clearing then s.goto n s.lifecycle .queue else s.exclude n

def State.step (s : State) : Label → Option State
  | .operation => some { s with calls := s.calls ++ [.enter] }
  | .destructiveOperation => some { s with calls := s.calls ++ [.claim] }
  | .act n =>
    match s.calls[n]? with
    | some .enter | some .await => some (s.takeLease n)
    | some .claim | some .queue => some (s.raiseFlag n)
    | some .drain => some (s.exclude n)
    | _ => none
  | .interrupt n =>
    match s.calls[n]? with
    | some .await | some .queue | some .drain => some (s.goto n s.lifecycle .over)
    | _ => none
  | .leave n =>
    let x := s.lifecycle
    match s.calls[n]? with
    | some (.inside _) =>
      some (s.goto n { x with activeOperations := x.activeOperations - 1 } .over)
    | some (.clearing _) => some (s.goto n { x with clearing := false } .over)
    | _ => none

def machine : Machine State Label where
  init := .new
  step := State.step

/-! ## Integrity -/

/-- The body of an operation. -/
def Stage.isInside : Stage → Bool
  | inside _ => true
  | _ => false

/-- A clear between its claim and its exit. -/
def Stage.isClear : Stage → Bool
  | drain | clearing _ => true
  | _ => false

/-- The flag and the counter say what the calls are at, and a new call gets through once all others are
over. -/
structure State.Integrity (s : State) : Prop where
  flag : s.lifecycle.clearing = true ↔ ∃ stage ∈ s.calls, stage.isClear = true
  counter : s.lifecycle.activeOperations = s.calls.countP Stage.isInside
  admits : (∀ stage ∈ s.calls, stage = .over) →
    (∃ t, machine.run s [.operation, .act s.calls.length] = some t ∧
      t.calls[s.calls.length]? = some (.inside s.lifecycle.epoch)) ∧
    ∃ t, machine.run s [.destructiveOperation, .act s.calls.length] = some t ∧
      t.calls[s.calls.length]? = some (.clearing (s.lifecycle.epoch + 1))

/-- No interruption of a clear that waits for the operations. -/
def Undisturbed (s : State) : Label → Prop
  | .interrupt n => s.calls[n]? ≠ some .drain
  | _ => True

instance (s : State) : DecidablePred (Undisturbed s)
  | .interrupt n => inferInstanceAs (Decidable (s.calls[n]? ≠ some .drain))
  | .operation | .destructiveOperation | .act _ | .leave _ => isTrue trivial

/-! ## The invariant -/

/-- What holds in every run: the counter is right, and no clear is under way without the flag. -/
structure State.Counted (s : State) : Prop where
  counter : s.lifecycle.activeOperations = s.calls.countP Stage.isInside
  flag : s.calls.countP Stage.isClear ≤ s.lifecycle.clearing.toNat

/-- The flag is not up without a clear. -/
def State.Balanced (s : State) : Prop :=
  s.lifecycle.clearing.toNat ≤ s.calls.countP Stage.isClear

variable {s t : State} {n : ℕ} {before after : Stage} {x : QueueLifecycle}

theorem countP_over {p : Stage → Bool} (hp : p .over = false) (h : ∀ stage ∈ s.calls, stage = .over) :
    s.calls.countP p = 0 := by
  rw [List.countP_eq_zero]
  intro stage hstage
  rw [h stage hstage, hp]
  exact Bool.false_ne_true

/-- A new call finds nothing in its way. -/
theorem State.Counted.admits (h : s.Counted) (hfree : s.lifecycle.clearing = false)
    (hover : ∀ stage ∈ s.calls, stage = .over) :
    (∃ t, machine.run s [.operation, .act s.calls.length] = some t ∧
      t.calls[s.calls.length]? = some (.inside s.lifecycle.epoch)) ∧
    ∃ t, machine.run s [.destructiveOperation, .act s.calls.length] = some t ∧
      t.calls[s.calls.length]? = some (.clearing (s.lifecycle.epoch + 1)) := by
  have hnone : s.lifecycle.activeOperations = 0 := by rw [h.counter, countP_over rfl hover]
  constructor
  · refine ⟨_, by simp [machine, State.step]; rfl, ?_⟩
    simp [State.takeLease, hfree, State.goto]
  · refine ⟨_, by simp [machine, State.step]; rfl, ?_⟩
    simp [State.raiseFlag, State.exclude, hfree, hnone, State.goto]

/-- **Integrity is a balance**: no clear without the flag, and no flag without a clear. -/
theorem State.Counted.integrity_iff (h : s.Counted) : s.Integrity ↔ s.Balanced := by
  constructor
  · intro hs
    unfold State.Balanced
    cases hflag : s.lifecycle.clearing with
    | false => exact Nat.zero_le _
    | true =>
      obtain ⟨stage, hmem, hclear⟩ := hs.flag.mp hflag
      exact List.countP_pos_iff.mpr ⟨stage, hmem, hclear⟩
  · intro hs
    have hflag : s.lifecycle.clearing = true ↔ ∃ stage ∈ s.calls, stage.isClear = true := by
      rw [← List.countP_pos_iff]
      have hle := h.flag
      unfold State.Balanced at hs
      constructor
      · intro htrue
        rw [htrue] at hs
        exact hs
      · intro hpos
        exact Bool.toNat_eq_one.mp (by have := Bool.toNat_le s.lifecycle.clearing; omega)
    refine ⟨hflag, h.counter, fun hover ↦ h.admits ?_ hover⟩
    rw [← Bool.not_eq_true, hflag]
    rintro ⟨stage, hmem, hclear⟩
    rw [hover stage hmem] at hclear
    exact Bool.false_ne_true hclear

/-! ### One step -/

theorem State.new_counted : State.new.Counted := ⟨rfl, Nat.zero_le _⟩

/-- A call that has begun counts nowhere yet. -/
theorem State.Counted.call (h : s.Counted) (hinside : after.isInside = false)
    (hclear : after.isClear = false) :
    State.Counted { s with calls := s.calls ++ [after] } ∧
      (State.Balanced { s with calls := s.calls ++ [after] } ↔ s.Balanced) := by
  have hcounter : (s.calls ++ [after]).countP Stage.isInside = s.calls.countP Stage.isInside := by
    rw [List.countP_concat, hinside]
    rfl
  have hflag : (s.calls ++ [after]).countP Stage.isClear = s.calls.countP Stage.isClear := by
    rw [List.countP_concat, hclear]
    rfl
  refine ⟨⟨h.counter.trans hcounter.symm, hflag.trans_le h.flag⟩, ?_⟩
  simp only [State.Balanced, hflag]

/-- A call goes on. The counter and the flag move with it, except where the flag stays behind. -/
theorem State.Counted.goto (h : s.Counted) (hbefore : s.calls[n]? = some before)
    (hcounter : x.activeOperations + before.isInside.toNat =
      s.lifecycle.activeOperations + after.isInside.toNat)
    (hflag : x.clearing.toNat + before.isClear.toNat = s.lifecycle.clearing.toNat + after.isClear.toNat) :
    (s.goto n x after).Counted ∧ ((s.goto n x after).Balanced ↔ s.Balanced) := by
  have hinside := List.countP_set_add Stage.isInside (b := after) hbefore
  have hclear := List.countP_set_add Stage.isClear (b := after) hbefore
  have := h.counter
  have := h.flag
  refine ⟨⟨?_, ?_⟩, ?_⟩
  · dsimp only [State.goto]
    omega
  · dsimp only [State.goto]
    omega
  · unfold State.Balanced
    dsimp only [State.goto]
    omega

/-- The flag is up while a clear is under way. -/
theorem State.Counted.clearing (h : s.Counted) (hbefore : s.calls[n]? = some before)
    (hclear : before.isClear = true) : s.lifecycle.clearing = true := by
  have hpos := List.toNat_le_countP Stage.isClear hbefore
  rw [hclear, Bool.toNat_true] at hpos
  exact Bool.toNat_eq_one.mp (Nat.le_antisymm (Bool.toNat_le _) (hpos.trans h.flag))

theorem State.Counted.takeLease (h : s.Counted) (hbefore : s.calls[n]? = some before)
    (hinside : before.isInside = false) (hclear : before.isClear = false) :
    (s.takeLease n).Counted ∧ ((s.takeLease n).Balanced ↔ s.Balanced) := by
  unfold State.takeLease
  by_cases hflag : s.lifecycle.clearing = true
  · rw [if_pos hflag]
    exact h.goto hbefore (by rw [hinside]; rfl) (by rw [hclear]; rfl)
  · rw [if_neg hflag]
    exact h.goto hbefore (by rw [hinside]; rfl) (by rw [hclear]; rfl)

/-- Raising the flag and waiting for the operations. -/
theorem State.Counted.exclude (h : s.Counted) (hbefore : s.calls[n]? = some before)
    (hinside : before.isInside = false) (hflag : s.lifecycle.clearing = before.isClear) :
    (s.exclude n).Counted ∧ ((s.exclude n).Balanced ↔ s.Balanced) := by
  unfold State.exclude
  dsimp only
  split
  · apply h.goto hbefore
    · rw [hinside]
      rfl
    · rw [hflag, Nat.add_comm]
      rfl
  · apply h.goto hbefore
    · rw [hinside]
      rfl
    · rw [hflag, Nat.add_comm]
      rfl

theorem State.Counted.raiseFlag (h : s.Counted) (hbefore : s.calls[n]? = some before)
    (hinside : before.isInside = false) (hclear : before.isClear = false) :
    (s.raiseFlag n).Counted ∧ ((s.raiseFlag n).Balanced ↔ s.Balanced) := by
  unfold State.raiseFlag
  by_cases hflag : s.lifecycle.clearing = true
  · rw [if_pos hflag]
    exact h.goto hbefore (by rw [hinside]; rfl) (by rw [hclear]; rfl)
  · rw [if_neg hflag]
    exact h.exclude hbefore hinside (by rw [hclear, Bool.eq_false_iff]; exact hflag)

/-- An interruption of the wait for the operations takes the clear away and leaves the flag. -/
theorem State.Counted.interrupt_drain (h : s.Counted) (hbefore : s.calls[n]? = some .drain) :
    (s.goto n s.lifecycle .over).Counted ∧ ¬ (s.goto n s.lifecycle .over).Balanced := by
  have hinside := List.countP_set_add Stage.isInside (b := .over) hbefore
  have hclear := List.countP_set_add Stage.isClear (b := .over) hbefore
  have hflag := h.clearing hbefore rfl
  have hle := h.flag
  rw [hflag] at hle
  refine ⟨⟨h.counter.trans hinside.symm, ?_⟩, ?_⟩
  · dsimp only [State.goto]
    exact (Nat.le_of_lt (Nat.lt_of_succ_le hclear.le)).trans h.flag
  · unfold State.Balanced
    dsimp only [State.goto]
    rw [hflag, not_le]
    exact Nat.lt_of_lt_of_le (Nat.lt_succ_self _) (hclear.le.trans hle)

/-- **One step**: it keeps the counter right, and the balance exactly when it disturbs no clear that waits
for the operations. -/
theorem State.Counted.step {a : Label} (h : s.Counted) (hbalanced : s.Balanced)
    (ht : s.step a = some t) : t.Counted ∧ (t.Balanced ↔ Undisturbed s a) := by
  have hkeep : ∀ {u : State}, u.Counted ∧ (u.Balanced ↔ s.Balanced) → Undisturbed s a →
      u.Counted ∧ (u.Balanced ↔ Undisturbed s a) :=
    fun hu hundisturbed ↦ ⟨hu.1, iff_of_true (hu.2.mpr hbalanced) hundisturbed⟩
  cases a with
  | operation =>
    obtain rfl := Option.some.inj ht
    exact hkeep (h.call rfl rfl) trivial
  | destructiveOperation =>
    obtain rfl := Option.some.inj ht
    exact hkeep (h.call rfl rfl) trivial
  | act n =>
    simp only [State.step] at ht
    split at ht
    · rename_i hbefore
      obtain rfl := Option.some.inj ht
      exact hkeep (h.takeLease hbefore rfl rfl) trivial
    · rename_i hbefore
      obtain rfl := Option.some.inj ht
      exact hkeep (h.takeLease hbefore rfl rfl) trivial
    · rename_i hbefore
      obtain rfl := Option.some.inj ht
      exact hkeep (h.raiseFlag hbefore rfl rfl) trivial
    · rename_i hbefore
      obtain rfl := Option.some.inj ht
      exact hkeep (h.raiseFlag hbefore rfl rfl) trivial
    · rename_i hbefore
      obtain rfl := Option.some.inj ht
      exact hkeep (h.exclude hbefore rfl (h.clearing hbefore rfl)) trivial
    · simp at ht
  | interrupt n =>
    simp only [State.step] at ht
    split at ht
    · rename_i hbefore
      obtain rfl := Option.some.inj ht
      exact hkeep (h.goto hbefore rfl rfl) (by simp [Undisturbed, hbefore])
    · rename_i hbefore
      obtain rfl := Option.some.inj ht
      exact hkeep (h.goto hbefore rfl rfl) (by simp [Undisturbed, hbefore])
    · -- The one exit that skips the give-back.
      rename_i hbefore
      obtain rfl := Option.some.inj ht
      obtain ⟨hcounted, hnot⟩ := h.interrupt_drain hbefore
      exact ⟨hcounted, iff_of_false hnot fun hundisturbed ↦ hundisturbed hbefore⟩
    · simp at ht
  | leave n =>
    simp only [State.step] at ht
    split at ht
    · rename_i hbefore
      obtain rfl := Option.some.inj ht
      have hpos := List.toNat_le_countP Stage.isInside hbefore
      have hone : 1 ≤ s.lifecycle.activeOperations := hpos.trans h.counter.ge
      exact hkeep (h.goto hbefore (Nat.sub_add_cancel hone) rfl) trivial
    · rename_i hbefore
      obtain rfl := Option.some.inj ht
      have hflag := h.clearing hbefore rfl
      exact hkeep (h.goto hbefore rfl (by rw [hflag]; rfl)) trivial
    · simp at ht

/-- Only an enabled step can disturb. -/
theorem undisturbed_of_disabled {a : Label} (ht : s.step a = none) : Undisturbed s a := by
  cases a with
  | interrupt n =>
    intro hbefore
    simp [State.step, hbefore] at ht
  | operation | destructiveOperation | act n | leave n => trivial

/-- **The gate keeps its integrity** along a run, and lets a new call through when all others are over,
exactly when no clear was interrupted while it waited for the operations. -/
theorem integrity_iff_undisturbed {labels : List Label} :
    machine.Always State.Integrity machine.init labels ↔
      machine.Along Undisturbed machine.init labels := by
  have hbalanced : machine.init.Balanced := Nat.zero_le _
  refine Machine.always_iff_along (I := State.Counted) ?_ ?_ State.new_counted
    (State.new_counted.integrity_iff.mpr hbalanced)
  · intro s a t hcounted hintegrity ht
    obtain ⟨hnext, hiff⟩ := hcounted.step (hcounted.integrity_iff.mp hintegrity) ht
    exact ⟨hnext, hnext.integrity_iff.trans hiff⟩
  · intro s a _ _ ht
    exact undisturbed_of_disabled ht

/-! ### An interrupted clear -/

/-- An operation is running, a clear waits for it and is interrupted, and the operation ends. -/
def interruptedClear : List Label :=
  [.operation, .act 0, .destructiveOperation, .act 1, .interrupt 1, .leave 0]

theorem isSome_interruptedClear : (machine.run machine.init interruptedClear).isSome = true := by
  decide

def afterInterruptedClear : State := Option.get _ isSome_interruptedClear

/-- Nothing is under way, and the flag is up. -/
structure State.Stuck (s : State) : Prop where
  clearing : s.lifecycle.clearing = true
  outside : ∀ stage ∈ s.calls, stage.isInside = false ∧ stage.isClear = false

/-- Nobody takes the flag down, so that nobody gets in. -/
theorem State.Stuck.step {a : Label} (h : s.Stuck) (ht : s.step a = some t) : t.Stuck := by
  have hset : ∀ (n : ℕ) {after : Stage}, after.isInside = false ∧ after.isClear = false →
      (s.goto n s.lifecycle after).Stuck :=
    fun n after hafter ↦ ⟨h.clearing, List.forall_mem_set h.outside hafter⟩
  have hcall : ∀ {after : Stage}, after.isInside = false ∧ after.isClear = false →
      State.Stuck { s with calls := s.calls ++ [after] } := by
    refine fun hafter ↦ ⟨h.clearing, fun stage hstage ↦ ?_⟩
    rcases List.mem_append.mp hstage with hstage | hstage
    · exact h.outside stage hstage
    · rwa [List.mem_singleton.mp hstage]
  cases a with
  | operation =>
    obtain rfl := Option.some.inj ht
    exact hcall ⟨rfl, rfl⟩
  | destructiveOperation =>
    obtain rfl := Option.some.inj ht
    exact hcall ⟨rfl, rfl⟩
  | act n =>
    simp only [State.step, State.takeLease, State.raiseFlag, if_pos h.clearing] at ht
    split at ht
    · obtain rfl := Option.some.inj ht
      exact hset n ⟨rfl, rfl⟩
    · obtain rfl := Option.some.inj ht
      exact hset n ⟨rfl, rfl⟩
    · obtain rfl := Option.some.inj ht
      exact hset n ⟨rfl, rfl⟩
    · obtain rfl := Option.some.inj ht
      exact hset n ⟨rfl, rfl⟩
    · rename_i hbefore
      exact absurd (h.outside _ (List.mem_of_getElem? hbefore)).2 (by decide)
    · simp at ht
  | interrupt n =>
    simp only [State.step] at ht
    split at ht
    · obtain rfl := Option.some.inj ht
      exact hset n ⟨rfl, rfl⟩
    · obtain rfl := Option.some.inj ht
      exact hset n ⟨rfl, rfl⟩
    · obtain rfl := Option.some.inj ht
      exact hset n ⟨rfl, rfl⟩
    · simp at ht
  | leave n =>
    simp only [State.step] at ht
    split at ht
    · rename_i hbefore
      exact absurd (h.outside _ (List.mem_of_getElem? hbefore)).1 (by simp [Stage.isInside])
    · rename_i hbefore
      exact absurd (h.outside _ (List.mem_of_getElem? hbefore)).2 (by simp [Stage.isClear])
    · simp at ht

/-- **The flag stays up for good** once a clear was interrupted in its wait for the operations: all calls
are over, and no later call ever gets to its body. -/
theorem interrupted_clear_sticks :
    machine.Reachable afterInterruptedClear ∧ ¬ afterInterruptedClear.Integrity ∧
      (∀ stage ∈ afterInterruptedClear.calls, stage = .over) ∧
      ∀ labels t, machine.run afterInterruptedClear labels = some t →
        t.lifecycle.clearing = true ∧ ∀ stage ∈ t.calls, stage.isInside = false ∧
          stage.isClear = false := by
  have hflag : afterInterruptedClear.lifecycle.clearing = true := by decide
  have hcalls : ∀ stage ∈ afterInterruptedClear.calls, stage = .over := by decide
  refine ⟨⟨interruptedClear, (Option.some_get isSome_interruptedClear).symm⟩, ?_, hcalls, ?_⟩
  · intro hintegrity
    obtain ⟨stage, hmem, hclear⟩ := hintegrity.flag.mp hflag
    rw [hcalls stage hmem] at hclear
    exact Bool.false_ne_true hclear
  · intro labels t ht
    have hstuck : afterInterruptedClear.Stuck := by
      refine ⟨hflag, fun stage hmem ↦ ?_⟩
      rw [hcalls stage hmem]
      exact ⟨rfl, rfl⟩
    have hstep : ∀ s a t, State.Stuck s → machine.step s a = some t → t.Stuck :=
      fun _ _ _ hs hstep ↦ hs.step hstep
    have hend := Machine.run_invariant hstep hstuck ht
    exact ⟨hend.clearing, hend.outside⟩

end LifecycleGate

end Sqs

end ScrapyExtension
