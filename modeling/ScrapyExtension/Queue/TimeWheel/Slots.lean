import Mathlib.Tactic
import ScrapyExtension.Queue.TimeWheel.State

/-!
# Slots and ticks

What a slot holds is a list of numbered entries: `Slot.ofHeld` lays such a list out as the two deques and
the minimum, and each operation of the code on a slot is an operation on that list.

The entry at a time `r` is due at the tick `⌈r * t⌉`, and the tick of `now` is `⌊now * t⌋`. So an entry
that is due has `r ≤ now`, and an entry with `r` after `now` is due at a later tick than that of `now`.
-/

namespace ScrapyExtension

open Py

namespace TimeWheel

variable {α : Type*}

/-! ## Slots -/

/-- A slot that holds a list of entries. -/
def Slot.ofHeld (hs : List (Held α)) : Slot α :=
  ⟨hs.map Held.entry, hs.map Held.sequence, (hs.map Held.readyAt).min?⟩

@[simp] theorem Slot.contents_ofHeld (hs : List (Held α)) : (Slot.ofHeld hs).contents = hs := by
  induction hs with
  | nil => rfl
  | cons h hs ih =>
    simp only [contents, ofHeld, List.map_cons, List.zipWith_cons_cons] at ih ⊢
    rw [ih]
    rfl

theorem lower_min? (l : List ℚ) (r : ℚ) : lower l.min? r = (l ++ [r]).min? := by
  cases l with
  | nil => rfl
  | cons x xs =>
    rw [List.cons_append, List.min?_cons', List.min?_cons', List.foldl_append]
    simp only [lower, List.foldl_cons, List.foldl_nil]
    split_ifs with h
    · rw [min_eq_right h.le]
    · rw [min_eq_left (not_lt.mp h)]

theorem Slot.append_ofHeld (hs : List (Held α)) (h : Held α) :
    (Slot.ofHeld hs).append h.entry h.sequence none = .ofHeld (hs ++ [h]) := by
  simp only [append, ofHeld, List.map_append, List.map_cons, List.map_nil]
  congr 1
  exact lower_min? _ _

/-- The handler undoes an append, wherever the signal comes. -/
theorem Slot.rollback_append (s : Slot α) (e : Entry α) (seq : ℕ) (signal : Option Stop) :
    s.rollback (s.append e seq signal) = s := by
  rcases signal with - | stop
  · simp [rollback, append]
  · cases stop <;> simp [rollback, append]

@[simp] theorem Slot.recompute_ofHeld (hs : List (Held α)) : (Slot.ofHeld hs).recompute = .ofHeld hs := by
  simp only [recompute, ofHeld, List.map_map]
  rfl

/-- A deletion, with the minimum that is computed after it. -/
theorem Slot.delete_ofHeld (hs : List (Held α)) (i : ℕ) :
    ((Slot.ofHeld hs).delete i).recompute = .ofHeld (hs.eraseIdx i) := by
  simp only [delete, recompute, ofHeld, ← List.eraseIdx_map, List.map_map]
  rfl

/-! ## Ticks -/

section Ticks

variable (c : Config)

theorem Config.wheelSize_pos : (0 : ℤ) < c.wheelSize := by exact_mod_cast c.size_pos

theorem Config.slotOf_lt (tick : ℤ) : c.slotOf tick < c.wheelSize := by
  have h := Int.emod_lt_of_pos tick c.wheelSize_pos
  have h₀ := Int.emod_nonneg tick c.wheelSize_pos.ne'
  unfold slotOf
  omega

theorem Config.slotOf_eq_iff (a b : ℤ) : c.slotOf a = c.slotOf b ↔ a % c.wheelSize = b % c.wheelSize := by
  have ha := Int.emod_nonneg a c.wheelSize_pos.ne'
  have hb := Int.emod_nonneg b c.wheelSize_pos.ne'
  unfold slotOf
  omega

variable {c}

theorem Config.tickAt_mono {a b : ℚ} (h : a ≤ b) : c.tickAt a ≤ c.tickAt b := by
  apply Int.floor_le_floor
  exact mul_le_mul_of_nonneg_right h c.ticks_pos.le

/-- What is not due yet is due at a later tick. -/
theorem Config.tickAt_lt_readyTick {now r : ℚ} (h : now < r) : c.tickAt now < c.readyTick r := by
  have hmul : now * c.ticksPerSecond < r * c.ticksPerSecond := mul_lt_mul_of_pos_right h c.ticks_pos
  have hfloor := Int.floor_le (now * c.ticksPerSecond)
  have hceil := Int.le_ceil (r * c.ticksPerSecond)
  unfold tickAt readyTick
  exact_mod_cast lt_of_le_of_lt hfloor (lt_of_lt_of_le hmul hceil)

/-- What is due at the tick of `now` is due at `now`. -/
theorem Config.le_of_readyTick_le {now r : ℚ} (h : c.readyTick r ≤ c.tickAt now) : r ≤ now := by
  by_contra hlt
  have := tickAt_lt_readyTick (c := c) (not_le.mp hlt)
  omega

variable {lastTick nowTick : ℤ}

/-- A tick that has come since the last one is scanned, after any number of turns. -/
theorem Config.slotOf_mem_slotsToScan {tick : ℤ} (h : lastTick < tick) (h' : tick ≤ nowTick) :
    c.slotOf tick ∈ c.slotsToScan lastTick nowTick := by
  have hpos := c.wheelSize_pos
  have hmod := Int.emod_lt_of_pos (tick - lastTick - 1) hpos
  have hmod₀ := Int.emod_nonneg (tick - lastTick - 1) hpos.ne'
  have hspan : (tick - lastTick - 1) % c.wheelSize < min (nowTick - lastTick) c.wheelSize := by
    rcases lt_or_ge (tick - lastTick - 1) c.wheelSize with hlt | hge
    · rw [Int.emod_eq_of_lt (by omega) hlt]
      omega
    · omega
  refine List.mem_map.mpr ⟨((tick - lastTick - 1) % c.wheelSize).toNat, ?_, ?_⟩
  · rw [List.mem_range]
    omega
  · rw [slotOf_eq_iff, Int.toNat_of_nonneg hmod₀, Int.add_emod_emod]
    congr 1
    omega

theorem Config.lt_of_mem_slotsToScan {i : ℕ} (h : i ∈ c.slotsToScan lastTick nowTick) :
    i < c.wheelSize := by
  obtain ⟨_, -, rfl⟩ := List.mem_map.mp h
  exact c.slotOf_lt _

/-- No slot is scanned twice. -/
theorem Config.nodup_slotsToScan : (c.slotsToScan lastTick nowTick).Nodup := by
  refine List.Nodup.map_on ?_ List.nodup_range
  intro a ha b hb hab
  rw [List.mem_range] at ha hb
  rw [slotOf_eq_iff] at hab
  -- the two offsets differ by a multiple of the size, and both are below it
  have hdvd : (c.wheelSize : ℤ) ∣ a - b := by
    rw [Int.emod_eq_emod_iff_emod_sub_eq_zero] at hab
    have hsub : lastTick + 1 + (a : ℤ) - (lastTick + 1 + (b : ℤ)) = a - b := by ring
    rw [hsub] at hab
    exact Int.dvd_of_emod_eq_zero hab
  have hzero : (a - b : ℤ) = 0 := by
    refine Int.eq_zero_of_abs_lt_dvd hdvd ?_
    rw [abs_lt]
    omega
  omega

end Ticks

end TimeWheel

end ScrapyExtension
