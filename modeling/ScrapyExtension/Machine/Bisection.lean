import Mathlib.Order.Bounds.Basic
import Mathlib.Tactic

/-!
# Bisection

The search for the least number of an interval with a property that the greatest one has, and that every
number above one with the property has as well. The loop keeps an interval whose upper end has the
property, and below which no number has it.
-/

namespace Bisection

/-- The loop, from `lower` and `upper`. -/
def search (p : ℕ → Bool) (lower upper : ℕ) : ℕ :=
  if lower < upper then
    let midpoint := (lower + upper) / 2
    if p midpoint then search p lower midpoint else search p (midpoint + 1) upper
  else lower
termination_by upper - lower
decreasing_by
  all_goals omega

variable {p : ℕ → Bool} {lower upper : ℕ}

/-- The property is kept within the interval. -/
def UpwardOn (p : ℕ → Bool) (lower upper : ℕ) : Prop :=
  ∀ a b, lower ≤ a → a ≤ b → b ≤ upper → p a = true → p b = true

/-- **The loop finds the least number.** -/
theorem isLeast_search (hle : lower ≤ upper) (hup : UpwardOn p lower upper) (hupper : p upper = true) :
    IsLeast {n | lower ≤ n ∧ n ≤ upper ∧ p n = true} (search p lower upper) := by
  induction lower, upper using search.induct p with
  | case1 lower upper hlt midpoint hmid ih =>
    have hmle : midpoint ≤ upper := by omega
    have hlow := ih (by omega) (fun a b ha hab hb ↦ hup a b ha hab (hb.trans hmle)) hmid
    have hstep : search p lower upper = search p lower midpoint := by
      rw [search, if_pos hlt]
      exact if_pos hmid
    rw [hstep]
    refine ⟨⟨hlow.1.1, hlow.1.2.1.trans hmle, hlow.1.2.2⟩, fun n hn ↦ ?_⟩
    rcases le_total n midpoint with hnm | hnm
    · exact hlow.2 ⟨hn.1, hnm, hn.2.2⟩
    · exact hlow.1.2.1.trans hnm
  | case2 lower upper hlt midpoint hmid ih =>
    have hhigh := ih (by omega) (fun a b ha ↦ hup a b (by omega)) hupper
    have hstep : search p lower upper = search p (midpoint + 1) upper := by
      rw [search, if_pos hlt]
      exact if_neg hmid
    rw [hstep]
    have hlower : lower ≤ midpoint + 1 := by omega
    refine ⟨⟨hlower.trans hhigh.1.1, hhigh.1.2⟩, fun n hn ↦ ?_⟩
    refine hhigh.2 ⟨?_, hn.2⟩
    -- below the midpoint the property would be that of the midpoint
    by_contra hnm
    exact hmid (hup n midpoint hn.1 (by omega) (by omega) hn.2.2)
  | case3 lower upper hlt =>
    obtain rfl : lower = upper := by omega
    rw [search, if_neg hlt]
    exact ⟨⟨le_rfl, le_rfl, hupper⟩, fun n hn ↦ hn.1⟩

end Bisection
