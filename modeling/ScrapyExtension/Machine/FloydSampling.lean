import Mathlib.Data.Fin.Tuple.Basic
import Mathlib.Data.Fintype.BigOperators
import Mathlib.Data.List.OfFn
import Mathlib.Tactic

/-!
# Floyd's sampling of subsets

A subset of `range (low + k)` with `k` elements, from `k` draws. The `i`-th draw is at most `low + i`, and a
draw that has been selected already is replaced by `low + i`, which has not.

`card_sample_eq` is the uniformity of the scheme: every subset comes from `k!` tuples of draws. The
induction is on `k`, and it takes the last draw away. Let `t` be a subset with `k + 1` elements and `top`
the greatest number of its range. If `top` is in `t`, then it was selected last, for the draw `top` or a
draw that was selected already, so that the draw is in `t`. If not, the last draw was selected itself. In
both cases the draws in question are the elements of `t`, and each of them leaves one subset to be sampled
by the other draws.
-/

namespace FloydSampling

/-- What is selected for a draw, whose greatest value is `top`. -/
def position (draw top : ℕ) (selected : List ℕ) : ℕ := if draw ∈ selected then top else draw

/-- The positions for some draws, the first of which is at most `top`. -/
def positions : (draws : List ℕ) → (top : ℕ) → (selected : List ℕ) → List ℕ
  | [], _, _ => []
  | draw :: draws, top, selected =>
    position draw top selected :: positions draws (top + 1) (position draw top selected :: selected)

/-- One more draw. -/
theorem positions_concat (draws : List ℕ) (draw top : ℕ) (selected : List ℕ) :
    positions (draws ++ [draw]) top selected = positions draws top selected ++
      [position draw (top + draws.length) ((positions draws top selected).reverse ++ selected)] := by
  induction draws generalizing top selected with
  | nil => rfl
  | cons first draws ih =>
    rw [List.cons_append, positions, positions, ih, List.length_cons]
    simp [Nat.add_assoc, Nat.add_comm 1]

/-- The draws, each within its range. -/
abbrev Draws (low k : ℕ) := ∀ i : Fin k, Fin (low + i + 1)

/-- The subset for some draws. -/
def sample {low k : ℕ} (draws : Draws low k) : Finset ℕ :=
  (positions (List.ofFn fun i ↦ (draws i : ℕ)) low []).toFinset

variable {low k : ℕ}

/-- The other draws. -/
def Draws.init (draws : Draws low (k + 1)) : Draws low k := fun i ↦ draws i.castSucc

/-- The last draw. -/
def Draws.last (draws : Draws low (k + 1)) : Fin (low + k + 1) := draws (Fin.last k)

theorem sample_succ (draws : Draws low (k + 1)) : sample draws =
    insert (if (draws.last : ℕ) ∈ sample draws.init then low + k else (draws.last : ℕ))
      (sample draws.init) := by
  rw [sample, List.ofFn_succ_last, positions_concat]
  simp only [List.length_ofFn, position, List.append_nil, List.mem_reverse, List.toFinset_append,
    List.toFinset_cons, List.toFinset_nil, sample, List.mem_toFinset]
  exact Finset.union_comm _ _

theorem sample_subset (draws : Draws low k) : sample draws ⊆ Finset.range (low + k) := by
  induction k with
  | zero => simp [sample, positions]
  | succ k ih =>
    rw [sample_succ]
    refine Finset.insert_subset ?_ ((ih draws.init).trans ?_)
    · rw [Finset.mem_range]
      have := draws.last.isLt
      split_ifs <;> omega
    · exact Finset.range_subset_range.mpr (by omega)

/-- What was sampled before the last draw, from what is sampled with it. -/
theorem insert_eq_iff {top draw : ℕ} {s t : Finset ℕ} (hs : s ⊆ Finset.range top) :
    insert (if draw ∈ s then top else draw) s = t ↔
      draw ∈ t ∧ s = t.erase (if top ∈ t then top else draw) := by
  have htop : top ∉ s := fun h ↦ by simpa using hs h
  constructor
  · rintro rfl
    by_cases hmem : draw ∈ s
    · rw [if_pos hmem, if_pos (Finset.mem_insert_self top s)]
      exact ⟨Finset.mem_insert_of_mem hmem, (Finset.erase_insert htop).symm⟩
    · rw [if_neg hmem]
      refine ⟨Finset.mem_insert_self draw s, ?_⟩
      have hlast : (if top ∈ insert draw s then top else draw) = draw := by
        split_ifs with h
        · exact (Finset.mem_insert.mp h).resolve_right htop
        · rfl
      rw [hlast, Finset.erase_insert hmem]
  · rintro ⟨hmem, rfl⟩
    by_cases htopt : top ∈ t
    · rw [if_pos htopt] at htop ⊢
      have hlast : (if draw ∈ t.erase top then top else draw) = top := by
        split_ifs with h
        · rfl
        · by_contra hne
          exact h (Finset.mem_erase.mpr ⟨hne, hmem⟩)
      rw [hlast, Finset.insert_erase htopt]
    · rw [if_neg htopt, if_neg (Finset.notMem_erase draw t), Finset.insert_erase hmem]

/-- The tuples of draws that give the subset. -/
def tuples (low k : ℕ) (t : Finset ℕ) : Finset (Draws low k) := {draws | sample draws = t}

/-- One last draw. -/
theorem card_tuples_succ (low k : ℕ) (t : Finset ℕ) :
    (tuples low (k + 1) t).card = ∑ draw : Fin (low + k + 1),
      if (draw : ℕ) ∈ t then (tuples low k (t.erase (if low + k ∈ t then low + k else draw))).card
      else 0 := by
  have hsplit : ∀ p : Fin (low + k + 1) × Draws low k,
      sample (Fin.snocEquiv (fun i : Fin (k + 1) ↦ Fin (low + i + 1)) p) = t ↔
        (p.1 : ℕ) ∈ t ∧ sample p.2 = t.erase (if low + k ∈ t then low + k else (p.1 : ℕ)) := by
    intro p
    have hinit : Draws.init (Fin.snocEquiv (fun i : Fin (k + 1) ↦ Fin (low + i + 1)) p) = p.2 := by
      funext i
      simp [Draws.init, Fin.snocEquiv]
    have hlast : Draws.last (Fin.snocEquiv (fun i : Fin (k + 1) ↦ Fin (low + i + 1)) p) = p.1 := by
      simp [Draws.last, Fin.snocEquiv]
    rw [sample_succ, hinit, hlast]
    exact insert_eq_iff (sample_subset p.2)
  calc (tuples low (k + 1) t).card
    _ = ∑ draws : Draws low (k + 1), if sample draws = t then 1 else 0 := by
      rw [tuples, Finset.card_filter]
    _ = ∑ p : Fin (low + k + 1) × Draws low k, if sample
          (Fin.snocEquiv (fun i : Fin (k + 1) ↦ Fin (low + i + 1)) p) = t then 1 else 0 :=
      (Equiv.sum_comp (Fin.snocEquiv fun i : Fin (k + 1) ↦ Fin (low + i + 1)) _).symm
    _ = ∑ draw : Fin (low + k + 1), ∑ draws : Draws low k,
          if (draw : ℕ) ∈ t ∧ sample draws = t.erase (if low + k ∈ t then low + k else (draw : ℕ))
          then 1 else 0 := by
      simp only [hsplit]
      exact Fintype.sum_prod_type _
    _ = _ := by
      refine Finset.sum_congr rfl fun draw _ ↦ ?_
      by_cases hmem : (draw : ℕ) ∈ t
      · simp only [hmem, true_and, if_true, tuples, Finset.card_filter]
      · simp [hmem]

/-- **Uniformity.** Every subset comes from the same number of tuples. -/
theorem card_tuples (low : ℕ) {k : ℕ} {t : Finset ℕ} (ht : t ⊆ Finset.range (low + k))
    (hcard : t.card = k) : (tuples low k t).card = k.factorial := by
  induction k generalizing t with
  | zero =>
    obtain rfl : t = ∅ := Finset.card_eq_zero.mp hcard
    simp [tuples, sample, positions]
  | succ k ih =>
    rw [← Nat.add_assoc] at ht
    -- each element leaves one subset for the other draws
    have hrest : ∀ draw ∈ t,
        (tuples low k (t.erase (if low + k ∈ t then low + k else draw))).card = k.factorial := by
      intro draw hdraw
      have hlast : (if low + k ∈ t then low + k else draw) ∈ t := by
        split_ifs with h
        · exact h
        · exact hdraw
      refine ih (fun n hn ↦ ?_) ?_
      · have hlt := Finset.mem_range.mp (ht (Finset.mem_of_mem_erase hn))
        have hne : n ≠ low + k := by
          rintro rfl
          rw [if_pos (Finset.mem_of_mem_erase hn)] at hn
          exact Finset.notMem_erase _ t hn
        exact Finset.mem_range.mpr (by omega)
      · rw [Finset.card_erase_of_mem hlast, hcard, Nat.add_sub_cancel]
    calc (tuples low (k + 1) t).card
      _ = ∑ draw : Fin (low + k + 1), if (draw : ℕ) ∈ t then k.factorial else 0 := by
        rw [card_tuples_succ]
        exact Finset.sum_congr rfl fun draw _ ↦ ite_congr rfl (hrest draw) fun _ ↦ rfl
      _ = ∑ draw ∈ Finset.range (low + k + 1), if draw ∈ t then k.factorial else 0 :=
        (Finset.sum_range fun draw ↦ if draw ∈ t then k.factorial else 0).symm
      _ = ∑ _draw ∈ t, k.factorial := by
        rw [Finset.sum_ite_mem, Finset.inter_eq_right.mpr ht]
      _ = (k + 1).factorial := by
        rw [Finset.sum_const, hcard, smul_eq_mul, Nat.factorial_succ]

end FloydSampling
