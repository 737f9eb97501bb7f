import ScrapyExtension.Dupefilter.Filters.Bloom
import ScrapyExtension.Machine.FloydSampling

/-!
# The sampling of the Bloom filter

The positions of an item are uniform in its hashes. There are two stages. A hash is accepted below the
largest multiple of the bound, so that each index is the residue of as many accepted values
(`card_accept`). And the draws are turned into positions by Floyd's scheme, which yields each subset from
as many tuples of draws (`FloydSampling.card_tuples`).
-/

namespace ScrapyExtension

open Py

namespace Bloom

variable {sha256 : Bytes → Bytes} {item : Bytes}

/-- What `_uniform_index` makes of a raw value, unless it draws again. -/
def accept (upperBound x : ℕ) : Option ℕ := if x < limit upperBound then some (x % upperBound) else none

/-- One attempt. -/
theorem uniformLoop_succ (hashIndex upperBound left attempt : ℕ) :
    uniformLoop sha256 item hashIndex upperBound (left + 1) attempt =
      (sample sha256 item hashIndex attempt).bind fun x ↦
        (accept upperBound x).or (uniformLoop sha256 item hashIndex upperBound left (attempt + 1)) := by
  rw [uniformLoop]
  rcases sample sha256 item hashIndex attempt with _ | x
  · rfl
  · by_cases h : x < limit upperBound <;> simp [accept, h]

/-- A draw is made of an accepted value. -/
theorem exists_accept {hashIndex upperBound draw : ℕ} (left : ℕ) {attempt : ℕ}
    (h : uniformLoop sha256 item hashIndex upperBound left attempt = some draw) :
    ∃ n x, sample sha256 item hashIndex n = some x ∧ accept upperBound x = some draw := by
  induction left generalizing attempt with
  | zero => simp [uniformLoop] at h
  | succ left ih =>
    rw [uniformLoop_succ] at h
    obtain ⟨x, hx, hdraw⟩ := Option.bind_eq_some_iff.mp h
    rcases Option.or_eq_some_iff.mp hdraw with haccept | ⟨-, hrest⟩
    · exact ⟨attempt, x, hx, haccept⟩
    · exact ih hrest

theorem limit_eq (upperBound : ℕ) : limit upperBound = upperBound * (hashRange / upperBound) := by
  have := Nat.div_add_mod hashRange upperBound
  rw [limit]
  omega

/-- The accepted values of an index, one in each block. -/
theorem card_accept {upperBound index : ℕ} (h : index < upperBound) :
    ((Finset.range hashRange).filter fun x ↦ accept upperBound x = some index).card =
      hashRange / upperBound := by
  have hblocks : ((Finset.range hashRange).filter fun x ↦ accept upperBound x = some index) =
      (Finset.range (hashRange / upperBound)).image fun j ↦ upperBound * j + index := by
    ext x
    have hlimit : limit upperBound ≤ hashRange := Nat.sub_le _ _
    simp only [Finset.mem_filter, Finset.mem_range, Finset.mem_image, accept, Option.ite_none_right_eq_some,
      Option.some.injEq]
    constructor
    · rintro ⟨-, hx, rfl⟩
      rw [limit_eq] at hx
      exact ⟨x / upperBound, Nat.div_lt_of_lt_mul hx, Nat.div_add_mod x upperBound⟩
    · rintro ⟨j, hj, rfl⟩
      have hx : upperBound * j + index < limit upperBound := by
        rw [limit_eq]
        calc upperBound * j + index
          _ < upperBound * j + upperBound := Nat.add_lt_add_left h _
          _ = upperBound * (j + 1) := (Nat.mul_succ _ _).symm
          _ ≤ upperBound * (hashRange / upperBound) := Nat.mul_le_mul_left _ hj
      refine ⟨hx.trans_le hlimit, hx, ?_⟩
      rw [Nat.mul_add_mod, Nat.mod_eq_of_lt h]
  rw [hblocks, Finset.card_image_of_injective, Finset.card_range]
  intro i j hij
  exact Nat.eq_of_mul_eq_mul_left (Nat.zero_lt_of_lt h) (Nat.add_right_cancel hij)

/-- The generator is the scheme, for the draws that it is given. -/
theorem indicesLoop_eq_positions (draws : List ℕ) {hashIndex upperIndex : ℕ} {selected : List ℕ}
    (hdraws : ∀ i (hi : i < draws.length),
      uniformIndex sha256 item (hashIndex + i) (upperIndex + i + 1) = some draws[i]) :
    indicesLoop sha256 item draws.length hashIndex upperIndex selected =
      ⟨FloydSampling.positions draws upperIndex selected, false⟩ := by
  induction draws generalizing hashIndex upperIndex selected with
  | nil => rfl
  | cons draw draws ih =>
    have hfirst : uniformIndex sha256 item hashIndex (upperIndex + 1) = some draw :=
      hdraws 0 (Nat.succ_pos _)
    have hrest := @ih (hashIndex + 1) (upperIndex + 1)
      (FloydSampling.position draw upperIndex selected :: selected) fun i hi ↦ by
        rw [Nat.add_assoc hashIndex, Nat.add_assoc upperIndex, Nat.add_comm 1 i]
        exact hdraws (i + 1) (Nat.succ_lt_succ hi)
    rw [List.length_cons, indicesLoop, hfirst]
    simp only
    rw [← FloydSampling.position, hrest, FloydSampling.positions]

end Bloom

end ScrapyExtension
