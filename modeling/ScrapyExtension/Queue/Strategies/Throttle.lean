import Mathlib.Tactic
import ScrapyExtension.Machine.Basic

/-!
# The throttle strategy

`ThrottleQueueStrategy` lets a pop through to the backend only if `min_interval` has passed since the last one that
brought an item. A pop holds the gate lock over its two readings of the clock and the call of the backend in between,
so it is one step, and so is a clear. What the clock sees is less than what has passed: the backend is left alone for
`min_interval` from the moment it returned an item, however long its calls take.
-/

namespace ScrapyExtension

namespace Throttle

variable {T : Type*} [AddCommGroup T] [LinearOrder T]

/-- The settings of the strategy. -/
structure Config (T : Type*) [AddCommGroup T] [LinearOrder T] where
  /-- `_min_interval`; without one there is no gate. -/
  minInterval : T
  minInterval_pos : 0 < minInterval

/-- An item that a pop has brought. -/
structure Delivery (T : Type*) where
  /-- When the backend returned it. -/
  returned : T
  /-- The second reading of the clock. -/
  recorded : T

/-- A call of the backend by a pop. -/
structure Call (T : Type*) where
  /-- When it was made. -/
  called : T
  delivery : Option (Delivery T)

/-- The strategy, with what has happened since the queue was cleared. -/
structure State (T : Type*) where
  time : T
  /-- `_last_pop` -/
  lastPop : Option T
  /-- The calls of the backend. -/
  calls : List (Call T)
  /-- The readings of the pops that were turned away. -/
  suppressed : List T

/-- A new strategy. -/
def initial (start : T) : State T := ⟨start, none, [], []⟩

/-- `self._last_pop is not None and (now - self._last_pop) < self._min_interval` -/
def Config.suppresses (c : Config T) (lastPop : Option T) (now : T) : Bool :=
  match lastPop with
  | none => false
  | some t => now - t < c.minInterval

/-! ## Runs -/

/-- What happens. -/
inductive Label (T : Type*)
  | tick (elapsed : T)
  /-- A pop, with the time up to the call of the backend, the time of the call, and the time after it. It brings no
  `item` if the backend has none or raises, or if a signal comes before the second reading. -/
  | pop (before during after : T) (item : Bool)
  /-- The backend was cleared. -/
  | clear

/-- `pop` and `pop_with_ack` -/
def pop (c : Config T) (s : State T) (before during after : T) (item : Bool) : State T :=
  let now := s.time
  if c.suppresses s.lastPop now then { s with suppressed := s.suppressed ++ [now] }
  else
    let called := now + before
    let returned := called + during
    if item then
      let recorded := returned + after
      ⟨recorded, some recorded, s.calls ++ [⟨called, some ⟨returned, recorded⟩⟩], s.suppressed⟩
    else ⟨returned, s.lastPop, s.calls ++ [⟨called, none⟩], s.suppressed⟩

/-- What a label does, if it is enabled. -/
def step (c : Config T) (s : State T) : Label T → Option (State T)
  | .tick elapsed => if 0 ≤ elapsed then some { s with time := s.time + elapsed } else none
  | .pop before during after item =>
    if 0 ≤ before ∧ 0 ≤ during ∧ 0 ≤ after then some (pop c s before during after item) else none
  | .clear => some (initial s.time)

/-- The strategy as a machine. -/
def machine (c : Config T) (start : T) : Machine (State T) (Label T) where
  init := initial start
  step := step c

/-! ## The guarantees -/

/-- From the return of an item on, the backend is left alone for the interval. -/
def Apart (c : Config T) (calls : List (Call T)) : Prop :=
  calls.Pairwise fun call next ↦ ∀ d ∈ call.delivery, d.returned + c.minInterval ≤ next.called

/-- A pop is turned away only within the interval after an item. -/
def Justified (c : Config T) (s : State T) : Prop :=
  ∀ now ∈ s.suppressed, ∃ call ∈ s.calls, ∃ d ∈ call.delivery, d.recorded ≤ now ∧ now < d.recorded + c.minInterval

/-- What the gate promises since the queue was cleared. -/
structure Paced (c : Config T) (s : State T) : Prop where
  apart : Apart c s.calls
  justified : Justified c s

/-! ## The invariant -/

/-- What holds after every call. -/
structure Inv (c : Config T) (s : State T) : Prop extends Paced c s where
  last : ∀ t ∈ s.lastPop, t ≤ s.time ∧ ∃ call ∈ s.calls, ∃ d ∈ call.delivery, d.recorded = t
  recorded : ∀ call ∈ s.calls, ∀ d ∈ call.delivery, call.called ≤ d.returned ∧ d.returned ≤ d.recorded ∧
    ∃ t ∈ s.lastPop, d.recorded ≤ t

section Inv

variable {c : Config T} {s t : State T} {start called returned : T}

theorem inv_initial (c : Config T) (start : T) : Inv c (initial start) where
  last _ ht := absurd ht (Option.not_mem_none _)
  recorded _ h := absurd h List.not_mem_nil
  apart := List.Pairwise.nil
  justified _ h := absurd h List.not_mem_nil

/-- Time passes. -/
theorem Inv.later (h : Inv c s) {time : T} (htime : s.time ≤ time) : Inv c { s with time } :=
  ⟨⟨h.apart, h.justified⟩, fun t ht ↦ ⟨(h.last t ht).1.trans htime, (h.last t ht).2⟩, h.recorded⟩

variable [IsOrderedAddMonoid T]

/-- A pop that is let through comes after the interval. -/
theorem le_of_not_suppresses {lastPop : Option T} {now : T} (h : ¬ c.suppresses lastPop now = true) :
    ∀ t ∈ lastPop, t + c.minInterval ≤ now := by
  rintro t rfl
  have hle : c.minInterval ≤ now - t := not_lt.1 fun hlt ↦ h (decide_eq_true hlt)
  exact le_sub_iff_add_le'.1 hle

/-- The next call comes after the interval. -/
theorem Inv.apart_concat (h : Inv c s) (hcalled : ∀ t ∈ s.lastPop, t + c.minInterval ≤ called)
    (delivery : Option (Delivery T)) : Apart c (s.calls ++ [⟨called, delivery⟩]) := by
  refine List.pairwise_append.2 ⟨h.apart, List.pairwise_singleton _ _, fun call hcall next hnext d hd ↦ ?_⟩
  obtain rfl := List.mem_singleton.1 hnext
  obtain ⟨-, hrecorded, t, ht, hle⟩ := h.recorded call hcall d hd
  exact (add_le_add_left (hrecorded.trans hle) c.minInterval).trans (hcalled t ht)

omit [IsOrderedAddMonoid T] in
theorem Justified.concat (h : Justified c s) (call : Call T) : Justified c { s with calls := s.calls ++ [call] } := by
  intro now hnow
  obtain ⟨earlier, hearlier, hd⟩ := h now hnow
  exact ⟨earlier, List.mem_append_left _ hearlier, hd⟩

/-- A call of the backend that brings nothing. -/
theorem Inv.finish (h : Inv c s) (hcalled : ∀ t ∈ s.lastPop, t + c.minInterval ≤ called) (htime : s.time ≤ returned) :
    Inv c ⟨returned, s.lastPop, s.calls ++ [⟨called, none⟩], s.suppressed⟩ where
  last t ht := by
    obtain ⟨hle, call, hcall, hd⟩ := h.last t ht
    exact ⟨hle.trans htime, call, List.mem_append_left _ hcall, hd⟩
  recorded call hcall d hd := by
    rcases List.mem_append.1 hcall with hcall | hcall
    · exact h.recorded call hcall d hd
    · obtain rfl := List.mem_singleton.1 hcall
      exact absurd hd (Option.not_mem_none d)
  apart := h.apart_concat hcalled none
  justified := h.justified.concat _

/-- A call that brings an item. -/
theorem Inv.deliver (h : Inv c s) {recorded : T} (hcalled : ∀ t ∈ s.lastPop, t + c.minInterval ≤ called)
    (hreturned : called ≤ returned) (hrecorded : returned ≤ recorded) (htime : s.time ≤ recorded) :
    Inv c ⟨recorded, some recorded, s.calls ++ [⟨called, some ⟨returned, recorded⟩⟩], s.suppressed⟩ where
  last := by
    rintro _ ⟨⟩
    exact ⟨le_rfl, _, List.mem_append_right _ (List.mem_singleton_self _), _, rfl, rfl⟩
  recorded call hcall d hd := by
    rcases List.mem_append.1 hcall with hcall | hcall
    · obtain ⟨hbefore, hafter, t, ht, hlast⟩ := h.recorded call hcall d hd
      exact ⟨hbefore, hafter, recorded, rfl, (hlast.trans (h.last t ht).1).trans htime⟩
    · obtain rfl := List.mem_singleton.1 hcall
      obtain rfl := Option.some.inj hd
      exact ⟨hreturned, hrecorded, recorded, rfl, le_rfl⟩
  apart := h.apart_concat hcalled _
  justified := h.justified.concat _

/-- A pop is turned away. -/
theorem Inv.suppress (h : Inv c s) (hsuppresses : c.suppresses s.lastPop s.time = true) :
    Inv c { s with suppressed := s.suppressed ++ [s.time] } where
  last := h.last
  recorded := h.recorded
  apart := h.apart
  justified now hnow := by
    rcases List.mem_append.1 hnow with hnow | hnow
    · exact h.justified now hnow
    · obtain rfl := List.mem_singleton.1 hnow
      rcases hpop : s.lastPop with - | t <;> rw [hpop] at hsuppresses
      · exact absurd hsuppresses Bool.false_ne_true
      · obtain ⟨hle, call, hcall, d, hd, rfl⟩ := h.last t hpop
        have hlt : s.time - d.recorded < c.minInterval := of_decide_eq_true hsuppresses
        exact ⟨call, hcall, d, hd, hle, sub_lt_iff_lt_add'.1 hlt⟩

theorem Inv.pop (h : Inv c s) {before during after : T} (hbefore : 0 ≤ before) (hduring : 0 ≤ during) (hafter : 0 ≤ after)
    (item : Bool) : Inv c (pop c s before during after item) := by
  unfold Throttle.pop
  by_cases hsuppresses : c.suppresses s.lastPop s.time = true
  · rw [if_pos hsuppresses]
    exact h.suppress hsuppresses
  · rw [if_neg hsuppresses]
    have hcall : s.time ≤ s.time + before := le_add_of_nonneg_right hbefore
    have hreturn : s.time + before ≤ s.time + before + during := le_add_of_nonneg_right hduring
    have hrecord := le_add_of_nonneg_right (a := s.time + before + during) hafter
    have hpassed : ∀ t ∈ s.lastPop, t + c.minInterval ≤ s.time + before := fun t ht ↦
      (le_of_not_suppresses hsuppresses t ht).trans hcall
    cases item with
    | true => exact h.deliver hpassed hreturn hrecord ((hcall.trans hreturn).trans hrecord)
    | false => exact h.finish hpassed (hcall.trans hreturn)

/-- **One step** keeps the invariant. -/
theorem Inv.step (h : Inv c s) {a : Label T} (ht : step c s a = some t) : Inv c t := by
  cases a with
  | tick elapsed =>
    obtain ⟨helapsed, ⟨⟩⟩ := Option.ite_none_right_eq_some.1 ht
    exact h.later (le_add_of_nonneg_right helapsed)
  | pop before during after item =>
    obtain ⟨⟨hbefore, hduring, hafter⟩, ⟨⟩⟩ := Option.ite_none_right_eq_some.1 ht
    exact h.pop hbefore hduring hafter item
  | clear =>
    obtain ⟨⟩ := ht
    exact inv_initial c _

theorem inv_of_reachable (h : (machine c start).Reachable s) : Inv c s :=
  h.invariant (inv_initial c start) fun _ _ _ hs ht ↦ hs.step ht

end Inv

/-! ## A run -/

/-- Two seconds between pops. -/
def twoSeconds : Config ℤ := ⟨2, two_pos⟩

end Throttle

end ScrapyExtension
