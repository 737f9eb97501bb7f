import Mathlib.Tactic
import ScrapyExtension.Machine.Basic

/-!
# The sampled depth of a queue

`_probe_depth` asks the backend for the depth of a queue once in a while and answers from a cache
otherwise. The cache is only used while it is positive, so that an empty queue is noticed at once. It is
brought down by every pop that returns a request, and by nothing else.

## Two bounds

The cached depth stays below the real one, since only this consumer takes messages, as long as what is
taken is also taken off the cache. And the counter of the calls bounds the age of the cache, as long as
the backend answers when it is asked: the counter is reset before the call.
-/

namespace ScrapyExtension

namespace DepthProbe

/-- What a pop does to the queue. -/
inductive Taken
  /-- A message is taken, and its request returned. -/
  | delivered
  /-- A message is taken for good: poison, a tombstone, or an envelope that was returned elsewhere. -/
  | discarded
  /-- Nothing is taken, or it is back in the queue. -/
  | unchanged
deriving DecidableEq, Repr

/-- A value that `_probe_depth` returned. -/
structure Report where
  value : ℕ
  /-- The depth of the queue at that time. -/
  depth : ℕ
  /-- How many calls ago the backend last answered. -/
  age : ℕ
deriving DecidableEq, Repr

/-- A queue and its depth. -/
structure State where
  /-- `_cached_depth` -/
  cachedDepth : Option ℕ
  /-- `_depth_probe_counter` -/
  depthProbeCounter : ℕ
  /-- The number of messages in the queue. -/
  depth : ℕ
  /-- Calls of `_probe_depth` since the backend last answered. -/
  age : ℕ
  /-- What the last call returned. -/
  report : Option Report
deriving DecidableEq, Repr

/-- What can happen. -/
inductive Label
  /-- A push, by this worker or another one. -/
  | push
  /-- A pop, up to the monitors. -/
  | pop (taken : Taken)
  /-- `_probe_depth`, for `len` or for the monitor, and whether the backend answers if it is asked. -/
  | probe (answers : Bool)
  /-- `clear` -/
  | clear
deriving DecidableEq, Repr

namespace State

/-- A new queue over some messages. -/
def new (depth : ℕ) : State := ⟨none, 0, depth, 0, none⟩

/-- `_finish_pop_result`, for a pop that returns a request -/
def finishPopResult (s : State) : State :=
  match s.cachedDepth with
  | some (k + 1) => { s with cachedDepth := some k }
  | _ => s

/-- `cached is not None and cached != 0` -/
def WindowOpen (s : State) : Prop := s.cachedDepth ≠ none ∧ s.cachedDepth ≠ some 0

instance (s : State) : Decidable s.WindowOpen := inferInstanceAs (Decidable (_ ∧ _))

/-- `must_probe`, once the counter is advanced -/
def MustProbe (every : ℕ) (s : State) : Prop := ¬ s.WindowOpen ∨ every ≤ s.depthProbeCounter + 1

instance (every : ℕ) (s : State) : Decidable (s.MustProbe every) := inferInstanceAs (Decidable (_ ∨ _))

/-- `_probe_depth` -/
def probeDepth (every : ℕ) (answers : Bool) (s : State) : State :=
  if s.MustProbe every then
    if answers then
      { s with
        depthProbeCounter := 0
        cachedDepth := some s.depth
        age := 0
        report := some ⟨s.depth, s.depth, 0⟩ }
    else { s with depthProbeCounter := 0, age := s.age + 1, report := none }
  else
    { s with
      depthProbeCounter := s.depthProbeCounter + 1
      age := s.age + 1
      report := some ⟨s.cachedDepth.getD 0, s.depth, s.age + 1⟩ }

/-- One step. -/
def step (every : ℕ) (s : State) : Label → Option State
  | .push => some { s with depth := s.depth + 1 }
  | .pop .delivered =>
    if 0 < s.depth then some { s with depth := s.depth - 1 }.finishPopResult else none
  | .pop .discarded => if 0 < s.depth then some { s with depth := s.depth - 1 } else none
  | .pop .unchanged => some s
  | .probe answers => some (s.probeDepth every answers)
  | .clear => some { s with depth := 0, cachedDepth := none, depthProbeCounter := 0 }

end State

/-- `depth_sample_every`, at least one -/
def sampleEvery (configured : ℤ) : ℕ := (max 1 configured).toNat

/-- A queue with one consumer. -/
def machine (configured : ℤ) (depth : ℕ) : Machine State Label where
  init := .new depth
  step := State.step (sampleEvery configured)

/-- No positive depth was reported of an empty queue, and none that is too old. -/
def Fresh (every : ℕ) (s : State) : Prop :=
  ∀ r, s.report = some r → (0 < r.value → 0 < r.depth) ∧ r.age ≤ every

/-- Every call asks the backend; or what is discarded is not counted in the cache, and the backend
answers if a positive depth is cached. -/
def Sampled (every : ℕ) (s : State) : Label → Prop
  | .pop .discarded => every = 1 ∨ ∀ k, s.cachedDepth = some k → k = 0 ∨ k < s.depth
  | .probe false => every = 1 ∨ (s.MustProbe every → s.cachedDepth.getD 0 = 0)
  | _ => True

/-- The bounds of the cached depth. -/
structure Inv (every : ℕ) (s : State) : Prop where
  /-- It is not above the real one. -/
  le_depth : every ≠ 1 → ∀ k, s.cachedDepth = some k → k ≤ s.depth
  /-- It is not older than the counter says. -/
  age_le : every ≠ 1 → ∀ k, s.cachedDepth = some (k + 1) → s.age ≤ s.depthProbeCounter
  fresh : Fresh every s

variable {every : ℕ} {s t : State}

theorem inv_new (depth : ℕ) : Inv every (State.new depth) where
  le_depth _ _ h := nomatch h
  age_le _ _ h := nomatch h
  fresh _ h := nomatch h

theorem Inv.pushed (h : Inv every s) : Inv every { s with depth := s.depth + 1 } where
  le_depth hevery k hk := (h.le_depth hevery k hk).trans (Nat.le_succ _)
  age_le := h.age_le
  fresh := h.fresh

/-- A delivery is taken off the depth and off the cache. -/
theorem Inv.delivered (h : Inv every s) :
    Inv every { s with depth := s.depth - 1 }.finishPopResult := by
  unfold State.finishPopResult
  split
  · next k hk =>
    refine ⟨fun hevery j hj ↦ ?_, fun hevery j hj ↦ ?_, h.fresh⟩
    · obtain rfl := Option.some.inj hj
      have hle : k + 1 ≤ s.depth := h.le_depth hevery _ hk
      exact Nat.le_sub_one_of_lt hle
    · exact h.age_le hevery _ hk
  · next hnot =>
    refine ⟨fun hevery j hj ↦ ?_, fun hevery j hj ↦ h.age_le hevery j hj, h.fresh⟩
    rcases j with - | j
    · exact Nat.zero_le _
    · exact absurd hj (hnot j)

theorem Inv.discarded (h : Inv every s)
    (hlt : every = 1 ∨ ∀ k, s.cachedDepth = some k → k = 0 ∨ k < s.depth) :
    Inv every { s with depth := s.depth - 1 } where
  le_depth hevery k hk := by
    rcases hlt.resolve_left hevery k hk with rfl | hlt
    · exact Nat.zero_le _
    · exact Nat.le_sub_one_of_lt hlt
  age_le := h.age_le
  fresh := h.fresh

/-- The backend is asked, and answers. -/
theorem inv_answered :
    Inv every { s with
      depthProbeCounter := 0, cachedDepth := some s.depth, age := 0, report := some ⟨s.depth, s.depth, 0⟩ } where
  le_depth _ k hk := by
    obtain rfl := Option.some.inj hk
    exact le_rfl
  age_le _ _ _ := le_rfl
  fresh r hr := by
    obtain rfl := Option.some.inj hr
    exact ⟨id, Nat.zero_le _⟩

/-- The backend is asked, and does not answer. -/
theorem Inv.unanswered (h : Inv every s) (hzero : every = 1 ∨ s.cachedDepth.getD 0 = 0) :
    Inv every { s with depthProbeCounter := 0, age := s.age + 1, report := none } where
  le_depth := h.le_depth
  age_le hevery k hk := by
    have hcached := hzero.resolve_left hevery
    rw [show s.cachedDepth = some (k + 1) from hk] at hcached
    exact nomatch hcached
  fresh _ hr := nomatch hr

/-- The answer comes from the cache, which is positive and not too old. -/
theorem Inv.cached (h : Inv every s) (hnot : ¬ s.MustProbe every) :
    Inv every { s with
      depthProbeCounter := s.depthProbeCounter + 1
      age := s.age + 1
      report := some ⟨s.cachedDepth.getD 0, s.depth, s.age + 1⟩ } := by
  obtain ⟨hopen, hcounter⟩ := not_or.1 hnot
  rw [not_not] at hopen
  have hevery : every ≠ 1 := by omega
  obtain ⟨k, hk⟩ := Option.ne_none_iff_exists'.1 hopen.1
  obtain ⟨k, rfl⟩ : ∃ j, k = j + 1 := Nat.exists_eq_succ_of_ne_zero fun hzero ↦ hopen.2 (hzero ▸ hk)
  have hage := h.age_le hevery k hk
  refine ⟨h.le_depth, fun _ _ _ ↦ Nat.succ_le_succ hage, fun r hr ↦ ?_⟩
  obtain rfl := Option.some.inj hr
  have hdepth := h.le_depth hevery _ hk
  constructor
  · intro _
    exact (Nat.succ_pos k).trans_le hdepth
  · change s.age + 1 ≤ every
    omega

theorem Inv.step {l : Label} (h : Inv every s) (hl : Sampled every s l) (ht : s.step every l = some t) :
    Inv every t := by
  rcases l with - | (- | - | -) | answers | - <;> unfold State.step at ht
  · obtain rfl := Option.some.inj ht
    exact h.pushed
  · obtain ⟨-, ht⟩ := Option.ite_none_right_eq_some.1 ht
    obtain rfl := Option.some.inj ht
    exact h.delivered
  · obtain ⟨-, ht⟩ := Option.ite_none_right_eq_some.1 ht
    obtain rfl := Option.some.inj ht
    exact h.discarded hl
  · obtain rfl := Option.some.inj ht
    exact h
  · obtain rfl := Option.some.inj ht
    unfold State.probeDepth
    split_ifs with hmust hanswers
    · exact inv_answered
    · rw [Bool.not_eq_true] at hanswers
      rw [hanswers] at hl
      exact h.unanswered (hl.imp_right fun hzero ↦ hzero hmust)
    · exact h.cached hmust
  · obtain rfl := Option.some.inj ht
    exact ⟨fun _ _ hk ↦ (nomatch hk), fun _ _ hk ↦ (nomatch hk), h.fresh⟩

/-- As long as what is discarded was not counted and the backend answers, the reported depths are
fresh. -/
theorem depth_fresh (configured : ℤ) (depth : ℕ) (ls : List Label)
    (h : (machine configured depth).Along (Sampled (sampleEvery configured)) (.new depth) ls) :
    (machine configured depth).Always (Fresh (sampleEvery configured)) (.new depth) ls := by
  have hinv : (machine configured depth).Always (Inv (sampleEvery configured)) (.new depth) ls :=
    h.always (fun s l t hs hl ht ↦ hs.step hl ht) (inv_new depth)
  exact hinv.mono fun s hs ↦ hs.fresh

/-- A message is pushed after the depth was sampled, and a poison one is discarded. -/
theorem depth_fresh_discarded :
    (machine 100 1).Always (Fresh (sampleEvery 100)) (.new 1)
      [.probe true, .push, .pop .discarded, .probe true] := by
  refine depth_fresh 100 1 _ ⟨trivial, ?_⟩
  rintro - ⟨⟩
  refine ⟨trivial, ?_⟩
  rintro - ⟨⟩
  refine ⟨.inr fun k hk ↦ .inr ?_, ?_⟩
  · obtain rfl := Option.some.inj hk
    exact Nat.lt_succ_self 1
  · rintro - ⟨⟩
    refine ⟨trivial, ?_⟩
    rintro - ⟨⟩
    trivial

/-- One message is counted and then discarded, and the empty queue is reported to have one. -/
theorem stale_depth_reported :
    ∃ s, (machine 100 1).run (.new 1) [.probe true, .pop .discarded, .probe true] = some s ∧
      s.depth = 0 ∧ s.report = some ⟨1, 0, 1⟩ ∧ ¬ Fresh (sampleEvery 100) s :=
  ⟨_, rfl, rfl, rfl, fun h ↦ absurd ((h _ rfl).1 Nat.one_pos) (lt_irrefl 0)⟩

end DepthProbe

end ScrapyExtension
