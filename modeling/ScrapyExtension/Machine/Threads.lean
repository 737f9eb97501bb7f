import Mathlib

/-!
# Invocations in a list

A component with any number of calls under way keeps them in a list: a new call is appended, and a
step of a call replaces its entry. Flags and counters of the code then count entries. The lemmas here
say how a count changes with one entry, with `Bool.toNat` so that `omega` can go on.
-/

namespace List

variable {α : Type*} {l : List α} {i : ℕ} {a b : α} (p : α → Bool)

/-- A count after one entry is replaced. -/
theorem countP_set_add (h : l[i]? = some a) :
    (l.set i b).countP p + (p a).toNat = l.countP p + (p b).toNat := by
  induction l generalizing i with
  | nil => simp at h
  | cons x l ih =>
    cases i with
    | zero =>
      obtain rfl : x = a := by simpa using h
      cases hx : p x <;> cases hb : p b <;> simp [hx, hb]
    | succ i =>
      have := ih (by simpa using h)
      simp only [set_cons_succ, countP_cons]
      omega

theorem countP_concat (l : List α) (a : α) :
    (l ++ [a]).countP p = l.countP p + (p a).toNat := by
  cases h : p a <;> simp [h]

/-- A sum after one entry is replaced. -/
theorem sum_map_set_add (f : α → ℕ) (h : l[i]? = some a) :
    ((l.set i b).map f).sum + f a = (l.map f).sum + f b := by
  induction l generalizing i with
  | nil => simp at h
  | cons x l ih =>
    cases i with
    | zero =>
      obtain rfl : x = a := by simpa using h
      simp only [set_cons_zero, map_cons, sum_cons]
      omega
    | succ i =>
      have := ih (by simpa using h)
      simp only [set_cons_succ, map_cons, sum_cons]
      omega

/-- An entry is part of the sum. -/
theorem le_sum_map (f : α → ℕ) (h : l[i]? = some a) : f a ≤ (l.map f).sum := by
  induction l generalizing i with
  | nil => simp at h
  | cons x l ih =>
    rw [map_cons, sum_cons]
    cases i with
    | zero =>
      obtain rfl : x = a := by simpa using h
      exact Nat.le_add_right _ _
    | succ i => exact Nat.le_trans (ih (by simpa using h)) (Nat.le_add_left _ _)

/-- A sum that is not zero has an entry that is not. -/
theorem exists_of_sum_map_pos (f : α → ℕ) (h : 0 < (l.map f).sum) :
    ∃ (i : ℕ) (a : α), l[i]? = some a ∧ 0 < f a := by
  induction l with
  | nil => simp at h
  | cons x l ih =>
    rw [map_cons, sum_cons] at h
    by_cases hx : 0 < f x
    · exact ⟨0, x, rfl, hx⟩
    · obtain ⟨i, a, hi, ha⟩ := ih (by omega)
      exact ⟨i + 1, a, hi, ha⟩

theorem toNat_le_countP (h : l[i]? = some a) : (p a).toNat ≤ l.countP p := by
  have hmem : a ∈ l := mem_of_getElem? h
  cases hp : p a with
  | false => exact Nat.zero_le _
  | true => exact countP_pos_iff.2 ⟨a, hmem, hp⟩

/-- Of what is counted once there is one entry. -/
theorem eq_of_countP_le_one {j : ℕ} (h : l.countP p ≤ 1) (hi : l[i]? = some a) (hj : l[j]? = some b)
    (ha : p a) (hb : p b) : i = j := by
  induction l generalizing i j with
  | nil => simp at hi
  | cons x l ih =>
    rw [countP_cons] at h
    -- An entry of the tail leaves no room for the head.
    have htail : ∀ {k : ℕ} {c : α}, l[k]? = some c → p c → 0 < l.countP p :=
      fun hk hc ↦ countP_pos_iff.2 ⟨_, mem_of_getElem? hk, hc⟩
    cases i with
    | zero =>
      obtain rfl : x = a := by simpa using hi
      cases j with
      | zero => rfl
      | succ j =>
        have := htail (by simpa using hj) hb
        simp only [ha, if_true] at h
        omega
    | succ i =>
      cases j with
      | zero =>
        obtain rfl : x = b := by simpa using hj
        have := htail (by simpa using hi) ha
        simp only [hb, if_true] at h
        omega
      | succ j => exact congrArg _ (ih (by omega) (by simpa using hi) (by simpa using hj))

/-- An entry after one entry was replaced is the new one or an old one. -/
theorem getElem?_set_some {c : α} {j : ℕ} (h : (l.set i b)[j]? = some c) :
    (j = i ∧ c = b) ∨ (j ≠ i ∧ l[j]? = some c) := by
  rw [getElem?_set] at h
  split at h
  · rename_i hij
    split at h
    · exact .inl ⟨hij.symm, (Option.some.inj h).symm⟩
    · simp at h
  · rename_i hij
    exact .inr ⟨fun hji ↦ hij hji.symm, h⟩

/-- An entry of an extended list is the new one or an old one. -/
theorem getElem?_concat_some {c : α} {j : ℕ} (h : (l ++ [b])[j]? = some c) :
    (j = l.length ∧ c = b) ∨ l[j]? = some c := by
  rcases Nat.lt_trichotomy j l.length with hj | hj | hj
  · exact .inr ((getElem?_append_left hj).symm.trans h)
  · subst hj
    simp at h
    exact .inl ⟨rfl, h.symm⟩
  · rw [getElem?_eq_none (by simp; omega)] at h
    simp at h

/-- A view of the entries that the change of an entry does not touch. -/
theorem map_modify_eq {β : Type*} {f : α → β} {g : α → α} (h : ∀ x, f (g x) = f x) (l : List α)
    (i : ℕ) : (l.modify i g).map f = l.map f := by
  refine ext_getElem? fun j ↦ ?_
  rw [getElem?_map, getElem?_modify, getElem?_map]
  cases l[j]? with
  | none => rfl
  | some x =>
    by_cases hij : i = j
    · simp [hij, h]
    · simp [hij]

/-- A view of the entries that the replacement of an entry does not touch. -/
theorem map_set_of_eq {β : Type*} {f : α → β} (h : l[i]? = some a) (hf : f b = f a) :
    (l.set i b).map f = l.map f := by
  rw [map_set, hf]
  refine ext_getElem? fun j ↦ ?_
  by_cases hij : i = j
  · subst hij
    rw [getElem?_set_self (by simpa using (getElem?_eq_some_iff.1 h).1), getElem?_map, h]
    rfl
  · rw [getElem?_set_ne hij]

theorem modify_eq_set_of_getElem? {f : α → α} (h : l[i]? = some a) : l.modify i f = l.set i (f a) := by
  refine ext_getElem? fun j ↦ ?_
  by_cases hij : i = j
  · subst hij
    rw [getElem?_modify_eq, h, getElem?_set_self (getElem?_eq_some_iff.1 h).1]
    rfl
  · rw [getElem?_modify_ne f l hij, getElem?_set_ne hij]

/-- Entries stay where they are when a list grows. -/
theorem getElem?_of_grown {l' : List α} (h : l <+: l') (hi : l[i]? = some a) : l'[i]? = some a := by
  obtain ⟨l'', rfl⟩ := h
  rw [getElem?_append_left (getElem?_eq_some_iff.1 hi).1, hi]

/-- What holds of every entry and of the new one holds of every entry afterwards. -/
theorem forall_mem_set {P : α → Prop} (h : ∀ x ∈ l, P x) (hb : P b) : ∀ x ∈ l.set i b, P x := by
  intro x hx
  rcases mem_or_eq_of_mem_set hx with hx | rfl
  · exact h x hx
  · exact hb

end List
