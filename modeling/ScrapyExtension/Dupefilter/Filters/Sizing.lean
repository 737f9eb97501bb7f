import Mathlib.Data.Prod.Lex
import ScrapyExtension.Dupefilter.Filters.Bloom
import ScrapyExtension.Machine.Bisection

/-!
# The sizing of the Bloom filter

The constructor looks for the smallest vector that meets the configured rate of false positives, and for
the fewest hashes among those of that size. `_minimum_num_bits` finds the size for one number of hashes,
by bisection, and `_select_sizing` takes the least result.

The bound on the rate is computed with floats; it is a parameter here, with values in any linear order.
It decreases in the number of bits where the search evaluates it, which is between the number of hashes
and the limit.
-/

namespace ScrapyExtension

namespace Bloom

variable {L : Type*} [LinearOrder L]

section Definitions

variable (logBound : (capacity numBits numHashes : ℕ) → L) (capacity : ℕ) (logErrorRate : L)

/-- `_minimum_num_bits`, where `logBound` is `_log_false_positive_bound`. -/
def minimumNumBits (numHashes maxBits : ℕ) : ℕ :=
  let overBudget := maxBits + 1
  if maxBits ≤ numHashes then overBudget
  else if capacity > maxHashes * maxBits then overBudget
  else if logBound capacity maxBits numHashes > logErrorRate then overBudget
  else Bisection.search (fun midpoint ↦ decide (logBound capacity midpoint numHashes ≤ logErrorRate))
    (numHashes + 1) maxBits

/-- `_select_sizing`. Pairs are compared by their first components and then by their second ones. -/
def selectSizing (maxBits : ℕ) : ℕ ×ₗ ℕ :=
  (List.range' 1 maxHashes).foldl
    (fun best numHashes ↦
      min best (toLex (minimumNumBits logBound capacity logErrorRate numHashes maxBits, numHashes)))
    (toLex (maxBits + 1, 1))

/-- The size is within the limits, and meets the rate. -/
structure Fits (maxBits numHashes numBits : ℕ) : Prop where
  lt : numHashes < numBits
  le : numBits ≤ maxBits
  met : logBound capacity numBits numHashes ≤ logErrorRate

/-- The pairs among which the constructor chooses. -/
def candidates (maxBits : ℕ) : Set (ℕ ×ₗ ℕ) :=
  {p | 1 ≤ (ofLex p).2 ∧ (ofLex p).2 ≤ maxHashes ∧
    Fits logBound capacity logErrorRate maxBits (ofLex p).2 (ofLex p).1}

end Definitions

variable {logBound : (capacity numBits numHashes : ℕ) → L} {capacity : ℕ} {logErrorRate : L}
  {maxBits numHashes : ℕ}

theorem isLeast_foldl_min {α β : Type*} [LinearOrder β] (f : α → β) (l : List α) (first : β) :
    IsLeast {x | x = first ∨ ∃ a ∈ l, f a = x} (l.foldl (fun best a ↦ min best (f a)) first) := by
  induction l generalizing first with
  | nil => simp
  | cons a l ih =>
    obtain ⟨hmem, hle⟩ := ih (min first (f a))
    rw [List.foldl_cons]
    constructor
    · rcases hmem with hmin | ⟨b, hb, heq⟩
      · rcases min_choice first (f a) with h | h
        · exact .inl (hmin.trans h)
        · exact .inr ⟨a, List.mem_cons_self, (hmin.trans h).symm⟩
      · exact .inr ⟨b, List.mem_cons_of_mem a hb, heq⟩
    · have hmin := hle (.inl rfl)
      rintro x (rfl | ⟨b, hb, rfl⟩)
      · exact hmin.trans (min_le_left _ _)
      · rcases List.mem_cons.mp hb with rfl | hb
        · exact hmin.trans (min_le_right _ _)
        · exact hle (.inr ⟨b, hb, rfl⟩)

/-- The size for one number of hashes: the least one that fits, or the sentinel if there is none. -/
theorem minimumNumBits_cases (hcapacity : capacity ≤ maxHashes * maxBits)
    (hanti : AntitoneOn (fun bits ↦ logBound capacity bits numHashes) (Set.Ioc numHashes maxBits)) :
    IsLeast {bits | Fits logBound capacity logErrorRate maxBits numHashes bits}
      (minimumNumBits logBound capacity logErrorRate numHashes maxBits) ∨
    (minimumNumBits logBound capacity logErrorRate numHashes maxBits = maxBits + 1 ∧
      ∀ bits, ¬ Fits logBound capacity logErrorRate maxBits numHashes bits) := by
  rw [minimumNumBits]
  split_ifs with hsmall hlarge hmiss
  · refine .inr ⟨rfl, fun bits hfits ↦ ?_⟩
    have := hfits.lt.trans_le hfits.le
    omega
  · omega
  · -- with fewer bits the rate is no better
    refine .inr ⟨rfl, fun bits hfits ↦ ?_⟩
    have hmax := hanti ⟨hfits.lt, hfits.le⟩ ⟨hfits.lt.trans_le hfits.le, le_rfl⟩ hfits.le
    exact absurd (hmax.trans hfits.met) (not_le.mpr hmiss)
  · obtain ⟨⟨hlower, hupper, hmet⟩, hleast⟩ := @Bisection.isLeast_search
      (fun bits ↦ decide (logBound capacity bits numHashes ≤ logErrorRate)) (numHashes + 1) maxBits
      (by omega)
      (fun a b ha hab hb hmet ↦ by
        rw [decide_eq_true_eq] at hmet ⊢
        exact (hanti ⟨ha, hab.trans hb⟩ ⟨ha.trans hab, hb⟩ hab).trans hmet)
      (decide_eq_true (not_lt.mp hmiss))
    refine .inl ⟨⟨hlower, hupper, of_decide_eq_true hmet⟩, fun bits hfits ↦ ?_⟩
    exact hleast ⟨hfits.lt, hfits.le, decide_eq_true hfits.met⟩

section Search

variable (hcapacity : capacity ≤ maxHashes * maxBits)
  (hanti : ∀ numHashes, AntitoneOn (fun bits ↦ logBound capacity bits numHashes)
    (Set.Ioc numHashes maxBits))
include hcapacity hanti

theorem minimumNumBits_spec (numHashes : ℕ) :
    ((∃ bits, Fits logBound capacity logErrorRate maxBits numHashes bits) →
      IsLeast {bits | Fits logBound capacity logErrorRate maxBits numHashes bits}
        (minimumNumBits logBound capacity logErrorRate numHashes maxBits)) ∧
    (minimumNumBits logBound capacity logErrorRate numHashes maxBits = maxBits + 1 ↔
      ¬ ∃ bits, Fits logBound capacity logErrorRate maxBits numHashes bits) := by
  rcases @minimumNumBits_cases L _ logBound capacity logErrorRate maxBits numHashes hcapacity
    (hanti numHashes) with hleast | ⟨hover, hnone⟩
  · refine ⟨fun _ ↦ hleast, fun hover ↦ ?_, fun hnone ↦ absurd ⟨_, hleast.1⟩ hnone⟩
    have := hleast.1.le
    omega
  · exact ⟨fun ⟨bits, hfits⟩ ↦ absurd hfits (hnone bits),
      fun _ ⟨bits, hfits⟩ ↦ hnone bits hfits, fun _ ↦ hover⟩

/-- The result is not above a candidate, since the size for its number of hashes is not. -/
theorem selectSizing_le {p : ℕ ×ₗ ℕ} (hp : p ∈ candidates logBound capacity logErrorRate maxBits) :
    selectSizing logBound capacity logErrorRate maxBits ≤ p := by
  obtain ⟨hpos, hmax, hfits⟩ := hp
  have hleast := (minimumNumBits_spec hcapacity hanti (ofLex p).2).1 ⟨_, hfits⟩
  refine ((isLeast_foldl_min _ _ _).2 (.inr ⟨(ofLex p).2, ?_, rfl⟩)).trans ?_
  · exact List.mem_range'_1.mpr ⟨hpos, by omega⟩
  · rcases (hleast.2 hfits).lt_or_eq with hlt | heq
    · exact (Prod.Lex.lt_iff.mpr (.inl hlt)).le
    · exact Prod.Lex.le_iff.mpr (.inr ⟨heq, le_rfl⟩)

/-- The result is a candidate or the sentinel. -/
theorem selectSizing_mem_or :
    selectSizing logBound capacity logErrorRate maxBits ∈
      candidates logBound capacity logErrorRate maxBits ∨
    selectSizing logBound capacity logErrorRate maxBits = toLex (maxBits + 1, 1) := by
  obtain ⟨hmem, hle⟩ := isLeast_foldl_min
    (fun numHashes ↦ toLex (minimumNumBits logBound capacity logErrorRate numHashes maxBits, numHashes))
    (List.range' 1 maxHashes) (toLex (maxBits + 1, 1))
  rcases hmem with hsentinel | ⟨numHashes, hrange, heq⟩
  · exact .inr hsentinel
  · obtain ⟨hpos, hlt⟩ := List.mem_range'_1.mp hrange
    have hmax : numHashes ≤ maxHashes := by omega
    rcases @minimumNumBits_cases L _ logBound capacity logErrorRate maxBits numHashes hcapacity
      (hanti numHashes) with hleast | ⟨hover, -⟩
    · refine .inl ?_
      rw [selectSizing, ← heq]
      exact ⟨hpos, hmax, hleast.1⟩
    · -- the sentinel has the fewest hashes
      refine .inr (le_antisymm (hle (.inl rfl)) ?_)
      rw [selectSizing, ← heq, hover]
      exact Prod.Lex.le_iff.mpr (.inr ⟨rfl, hpos⟩)

/-- **The sizing search.** For one number of hashes the search returns the least size that fits, and for
all of them the least candidate, by size and then by the number of hashes. Where there is none, and only
there, it returns the sentinel. -/
theorem bloom_sizing :
    (∀ numHashes,
      ((∃ bits, Fits logBound capacity logErrorRate maxBits numHashes bits) →
        IsLeast {bits | Fits logBound capacity logErrorRate maxBits numHashes bits}
          (minimumNumBits logBound capacity logErrorRate numHashes maxBits)) ∧
      (minimumNumBits logBound capacity logErrorRate numHashes maxBits = maxBits + 1 ↔
        ¬ ∃ bits, Fits logBound capacity logErrorRate maxBits numHashes bits)) ∧
    ((candidates logBound capacity logErrorRate maxBits).Nonempty →
      IsLeast (candidates logBound capacity logErrorRate maxBits)
        (selectSizing logBound capacity logErrorRate maxBits)) ∧
    (selectSizing logBound capacity logErrorRate maxBits = toLex (maxBits + 1, 1) ↔
      ¬ (candidates logBound capacity logErrorRate maxBits).Nonempty) := by
  have hcase := @selectSizing_mem_or L _ logBound capacity logErrorRate maxBits hcapacity hanti
  -- a candidate has fewer bits than the sentinel
  have hne : ∀ p ∈ candidates logBound capacity logErrorRate maxBits,
      selectSizing logBound capacity logErrorRate maxBits ≠ toLex (maxBits + 1, 1) := by
    intro p hp
    have hlt : p < toLex (maxBits + 1, 1) := Prod.Lex.lt_iff.mpr (.inl (Nat.lt_succ_of_le hp.2.2.le))
    exact ((selectSizing_le hcapacity hanti hp).trans_lt hlt).ne
  refine ⟨minimumNumBits_spec hcapacity hanti, fun ⟨p, hp⟩ ↦ ?_, fun heq ⟨p, hp⟩ ↦ ?_, fun hnone ↦ ?_⟩
  · exact ⟨hcase.resolve_right (hne p hp), fun q hq ↦ selectSizing_le hcapacity hanti hq⟩
  · exact hne p hp heq
  · exact hcase.resolve_left fun h ↦ hnone ⟨_, h⟩

end Search

/-- Ten items in at most twenty bits, with a bound that is best for two hashes. -/
theorem bloom_sizing_ten :
    selectSizing (fun capacity numBits numHashes ↦ (capacity : ℤ) + ((numHashes : ℤ) - 2) ^ 2 - numBits)
      10 (-2) 20 = toLex (12, 2) := by
  let logBound : ℕ → ℕ → ℕ → ℤ := fun capacity numBits numHashes ↦
    (capacity : ℤ) + ((numHashes : ℤ) - 2) ^ 2 - numBits
  have hanti : ∀ numHashes, AntitoneOn (fun bits ↦ logBound 10 bits numHashes) (Set.Ioc numHashes 20) := by
    intro numHashes a _ b _ hab
    simp only [logBound]
    omega
  have hmem : toLex (12, 2) ∈ candidates logBound 10 (-2) 20 :=
    ⟨by decide, by decide, by decide, by decide, by decide⟩
  obtain ⟨-, hleast, -⟩ := bloom_sizing (by decide : 10 ≤ maxHashes * 20) hanti
  refine (hleast ⟨_, hmem⟩).unique ⟨hmem, fun p hp ↦ ?_⟩
  obtain ⟨-, -, -, -, hmet⟩ := hp
  have hmet : 12 + (((ofLex p).2 : ℤ) - 2) ^ 2 ≤ ((ofLex p).1 : ℤ) := by
    simp only [logBound, Nat.cast_ofNat] at hmet
    linarith
  have hsquare := sq_nonneg (((ofLex p).2 : ℤ) - 2)
  have hle : 12 ≤ (ofLex p).1 := by exact_mod_cast (by linarith : (12 : ℤ) ≤ ((ofLex p).1 : ℤ))
  rcases hle.lt_or_eq with hlt | heq
  · exact (Prod.Lex.lt_iff.mpr (.inl hlt)).le
  · rw [← heq, Nat.cast_ofNat] at hmet
    have hzero : ((ofLex p).2 : ℤ) - 2 = 0 := pow_eq_zero_iff two_ne_zero |>.mp (by linarith)
    refine Prod.Lex.le_iff.mpr (.inr ⟨heq, ?_⟩)
    change 2 ≤ (ofLex p).2
    omega

end Bloom

end ScrapyExtension
