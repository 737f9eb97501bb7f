import Mathlib.Data.Finset.Card
import Mathlib.Data.Finset.Dedup
import Mathlib.Data.List.Dedup
import Mathlib.Data.List.DropRight
import Mathlib.Tactic

/-!
# Keys by recency

A bounded list of distinct keys, the key that was touched last at its end. Touching a key moves it to the
end, or appends it, and then the first key is dropped if there is no room. Keys may be removed as well.

Two things are proved about histories. Without removals the list is a function of the touches: it is the
end of the touches once all but the last one of each key are deleted, which is `List.dedup`
(`Recent.touch`). And whatever happens to the others, a key is dropped only after as many keys were
touched as there is room for: the keys behind it were all touched since (`Behind.touch`).
-/

namespace Recency

variable {α : Type*} [DecidableEq α] {size : ℕ} {keys touches : List α} {x y : α}

/-- The key is touched, in a list with room for `size` keys. -/
def touch (size : ℕ) (keys : List α) (x : α) : List α :=
  if x ∈ keys then keys.filter (· ≠ x) ++ [x]
  else if size ≤ keys.length then keys.tail ++ [x]
  else keys ++ [x]

theorem length_filter_ne (hx : x ∈ keys) (hnodup : keys.Nodup) :
    (keys.filter (· ≠ x)).length + 1 = keys.length := by
  have herase : keys.filter (· ≠ x) = keys.erase x := by
    rw [hnodup.erase_eq_filter]
    exact List.filter_congr fun y _ ↦ by rw [bne, beq_eq_decide, decide_not]
  rw [herase, List.length_erase_of_mem hx]
  exact Nat.sub_add_cancel (List.length_pos_of_mem hx)

theorem filter_ne_of_notMem (hx : x ∉ keys) : keys.filter (· ≠ x) = keys := by
  refine List.filter_eq_self.mpr fun y hy ↦ decide_eq_true ?_
  rintro rfl
  exact hx hy

theorem length_touch_le (hsize : 0 < size) (hnodup : keys.Nodup) (h : keys.length ≤ size) :
    (touch size keys x).length ≤ size := by
  rw [touch]
  split_ifs with hx
  · have := length_filter_ne hx hnodup
    rw [List.length_append, List.length_singleton]
    omega
  · rw [List.length_append, List.length_tail, List.length_singleton]
    omega
  · rw [List.length_append, List.length_singleton]
    omega

/-! ## The most recent keys -/

/-- One more touch. -/
theorem dedup_concat (l : List α) (x : α) : (l ++ [x]).dedup = l.dedup.filter (· ≠ x) ++ [x] := by
  induction l with
  | nil => simp
  | cons y l ih =>
    rw [List.cons_append]
    by_cases hy : y ∈ l
    · rw [List.dedup_cons_of_mem (List.mem_append_left _ hy), List.dedup_cons_of_mem hy, ih]
    · rw [List.dedup_cons_of_notMem hy]
      by_cases hyx : y = x
      · subst hyx
        rw [List.dedup_cons_of_mem (by simp), ih, List.filter_cons_of_neg (by simp)]
      · rw [List.dedup_cons_of_notMem (by simp [hy, hyx]), ih, List.filter_cons_of_pos (by simpa using hyx),
          List.cons_append]

/-- The keys are the last ones that were touched: there is room for no other, or there is no other. -/
structure Recent (size : ℕ) (touches keys : List α) : Prop where
  length_le : keys.length ≤ size
  older : ∃ older, touches.dedup = older ++ keys ∧ (older = [] ∨ keys.length = size)

theorem recent_nil : Recent size ([] : List α) [] := ⟨Nat.zero_le _, [], rfl, .inl rfl⟩

theorem Recent.nodup (h : Recent size touches keys) : keys.Nodup := by
  obtain ⟨older, hdedup, -⟩ := h.older
  exact (hdedup ▸ touches.nodup_dedup).of_append_right

theorem Recent.touch (hsize : 0 < size) (h : Recent size touches keys) (x : α) :
    Recent size (touches ++ [x]) (touch size keys x) := by
  refine ⟨length_touch_le hsize h.nodup h.length_le, ?_⟩
  obtain ⟨older, hdedup, hfull⟩ := h.older
  have hdisjoint : older.Disjoint keys := List.disjoint_of_nodup_append (hdedup ▸ touches.nodup_dedup)
  rw [dedup_concat, hdedup, List.filter_append, Recency.touch]
  split_ifs with hx hroom
  · -- a key that is there: the older ones stay
    have hlength := length_filter_ne hx h.nodup
    refine ⟨older, ?_, hfull.imp_right fun hfull ↦ ?_⟩
    · rw [filter_ne_of_notMem fun hold ↦ hdisjoint hold hx, List.append_assoc]
    · rw [List.length_append, List.length_singleton, hlength, hfull]
  · -- the first key is older from now on
    rw [filter_ne_of_notMem hx]
    rcases keys with _ | ⟨first, keys⟩
    · simp only [List.length_nil] at hroom
      omega
    · have hlength := h.length_le
      rw [List.length_cons] at hroom hlength
      refine ⟨older.filter (· ≠ x) ++ [first], by simp, .inr ?_⟩
      rw [List.tail_cons, List.length_append, List.length_singleton]
      omega
  · -- there is room, so that no key is older
    rw [filter_ne_of_notMem hx]
    obtain rfl : older = [] := hfull.resolve_right fun hfull ↦ hroom hfull.ge
    exact ⟨[], rfl, .inl rfl⟩

/-- **The most recent keys**, in the order of their last touches. -/
theorem Recent.eq_rtake (h : Recent size touches keys) : keys = touches.dedup.rtake size := by
  obtain ⟨older, hdedup, rfl | hfull⟩ := h.older
  · rw [hdedup, List.nil_append, List.rtake, Nat.sub_eq_zero_of_le h.length_le, List.drop_zero]
  · rw [hdedup, List.rtake, List.length_append, hfull, Nat.add_sub_cancel, List.drop_left]

/-! ## The keys behind one -/

/-- The key is there, and the keys behind it are among those that were touched since. -/
def Behind (since : Finset α) (keys : List α) (x : α) : Prop :=
  ∃ front back, keys = front ++ x :: back ∧ ∀ y ∈ back, y ∈ since

omit [DecidableEq α] in
theorem Behind.mem {since : Finset α} (h : Behind since keys x) : x ∈ keys := by
  obtain ⟨front, back, rfl, -⟩ := h
  simp

theorem behind_touch_self (since : Finset α) : Behind since (touch size keys x) x := by
  rw [touch]
  split_ifs
  · exact ⟨_, [], rfl, by simp⟩
  · exact ⟨_, [], rfl, by simp⟩
  · exact ⟨_, [], rfl, by simp⟩

omit [DecidableEq α] in
theorem Behind.mono {since later : Finset α} (h : Behind since keys x) (hsub : since ⊆ later) :
    Behind later keys x := by
  obtain ⟨front, back, rfl, hback⟩ := h
  exact ⟨front, back, rfl, fun y hy ↦ hsub (hback y hy)⟩

/-- Another key is removed. -/
theorem Behind.filter {since : Finset α} (h : Behind since keys x) (hne : x ≠ y) :
    Behind since (keys.filter (· ≠ y)) x := by
  obtain ⟨front, back, rfl, hback⟩ := h
  refine ⟨front.filter (· ≠ y), back.filter (· ≠ y), ?_, fun z hz ↦ hback z (List.mem_of_mem_filter hz)⟩
  rw [List.filter_append, List.filter_cons_of_pos (by simpa using hne)]

/-- Another key is touched. The list is full of keys that were touched since when `x` is dropped. -/
theorem Behind.touch {since : Finset α} (h : Behind since keys x) (hnodup : keys.Nodup) (hne : x ≠ y)
    (hcard : (insert y since).card < size) : Behind (insert y since) (touch size keys y) x := by
  have hinsert := h.mono (Finset.subset_insert y since)
  rw [Recency.touch]
  split_ifs with hy hroom
  · obtain ⟨front, back, heq, hback⟩ := hinsert.filter hne
    refine ⟨front, back ++ [y], by rw [heq]; simp, fun z hz ↦ ?_⟩
    rcases List.mem_append.mp hz with hz | hz
    · exact hback z hz
    · rw [List.mem_singleton.mp hz]
      exact Finset.mem_insert_self y since
  · obtain ⟨front, back, rfl, hback⟩ := h
    rcases front with _ | ⟨first, front⟩
    · -- `x` is the first key
      have hbacknodup : back.Nodup := (List.nodup_cons.mp hnodup).2
      have hsub : insert y back.toFinset ⊆ insert y since :=
        Finset.insert_subset_insert y fun z hz ↦ hback z (List.mem_toFinset.mp hz)
      have hcard' : (insert y back.toFinset).card = back.length + 1 := by
        rw [Finset.card_insert_of_notMem, List.toFinset_card_of_nodup hbacknodup]
        exact fun h ↦ hy (by simp [List.mem_toFinset.mp h])
      have := Finset.card_le_card hsub
      simp only [List.nil_append, List.length_cons] at hroom
      omega
    · refine ⟨front, back ++ [y], by simp, fun z hz ↦ ?_⟩
      rcases List.mem_append.mp hz with hz | hz
      · exact Finset.mem_insert_of_mem (hback z hz)
      · rw [List.mem_singleton.mp hz]
        exact Finset.mem_insert_self y since
  · obtain ⟨front, back, rfl, hback⟩ := hinsert
    refine ⟨front, back ++ [y], by simp, fun z hz ↦ ?_⟩
    rcases List.mem_append.mp hz with hz | hz
    · exact hback z hz
    · rw [List.mem_singleton.mp hz]
      exact Finset.mem_insert_self y since

end Recency
