import Mathlib.Data.List.Nodup

/-!
# Ordered dictionaries

Python's `OrderedDict`: a map that remembers the order in which its keys were inserted, and in which
a key can be moved to either end. The entries are a list without repeated keys, first to last.

A value that is an object can be mutated while it is in the map, which does not move its key: that is
`OrderedDict.modify`.
-/

namespace Py

/-- A map with ordered keys. -/
@[ext] structure OrderedDict (κ ν : Type*) where
  /-- The items, in the order of iteration. -/
  entries : List (κ × ν)
  /-- No key occurs twice. -/
  nodup : (entries.map Prod.fst).Nodup

namespace OrderedDict

variable {κ ν : Type*}

/-- The keys, in the order of iteration. -/
def keys (d : OrderedDict κ ν) : List κ := d.entries.map Prod.fst

/-- `OrderedDict()` -/
def empty : OrderedDict κ ν := ⟨[], List.nodup_nil⟩

@[simp] theorem entries_empty : (empty : OrderedDict κ ν).entries = [] := rfl

/-- The last items, from the first one on that does not satisfy `p`. -/
def dropWhile (d : OrderedDict κ ν) (p : κ × ν → Bool) : OrderedDict κ ν :=
  ⟨d.entries.dropWhile p, d.nodup.sublist ((List.dropWhile_sublist p).map _)⟩

/-- `d.popitem(last=False)`, without the item; for a map that may be empty. -/
def popFirst (d : OrderedDict κ ν) : OrderedDict κ ν :=
  ⟨d.entries.tail, d.nodup.sublist ((List.tail_sublist _).map _)⟩

@[simp] theorem keys_popFirst (d : OrderedDict κ ν) : d.popFirst.keys = d.keys.tail := List.map_tail

theorem length_keys (d : OrderedDict κ ν) : d.keys.length = d.entries.length := List.length_map _

variable [DecidableEq κ]

/-- `d.get(k)` -/
def get? (d : OrderedDict κ ν) (k : κ) : Option ν := d.entries.lookup k

/-- `del d[k]`, for a key that may be absent. -/
def erase (d : OrderedDict κ ν) (k : κ) : OrderedDict κ ν :=
  ⟨d.entries.filter fun e ↦ e.1 ≠ k, d.nodup.sublist (List.filter_sublist.map _)⟩

theorem map_fst_update (l : List (κ × ν)) (k : κ) (f : ν → ν) :
    (l.map fun e ↦ if e.1 = k then (e.1, f e.2) else e).map Prod.fst = l.map Prod.fst := by
  rw [List.map_map]
  refine List.map_congr_left fun e _ ↦ ?_
  by_cases h : e.1 = k <;> simp [h]

/-- The value at `k` is mutated. -/
def modify (d : OrderedDict κ ν) (k : κ) (f : ν → ν) : OrderedDict κ ν :=
  ⟨d.entries.map fun e ↦ if e.1 = k then (e.1, f e.2) else e,
    by rw [map_fst_update]; exact d.nodup⟩

/-- `d[k] = v` -/
def set (d : OrderedDict κ ν) (k : κ) (v : ν) : OrderedDict κ ν :=
  if h : k ∈ d.keys then d.modify k fun _ ↦ v
  else ⟨d.entries ++ [(k, v)], by
    rw [List.map_append]
    exact d.nodup.append (List.nodup_singleton _) (List.disjoint_singleton.mpr h)⟩

theorem not_mem_keys_erase (d : OrderedDict κ ν) (k : κ) : k ∉ (d.erase k).keys := by
  simp [keys, erase]

/-- `d.move_to_end(k)`, for a key that may be absent. -/
def moveToEnd (d : OrderedDict κ ν) (k : κ) : OrderedDict κ ν :=
  match d.get? k with
  | none => d
  | some v => (d.erase k).set k v

/-- `d.move_to_end(k, last=False)`, for a key that may be absent. -/
def moveToFront (d : OrderedDict κ ν) (k : κ) : OrderedDict κ ν :=
  match d.get? k with
  | none => d
  | some v => ⟨(k, v) :: (d.erase k).entries,
      List.nodup_cons.mpr ⟨d.not_mem_keys_erase k, (d.erase k).nodup⟩⟩

/-! ## Entries -/

theorem entries_modify (d : OrderedDict κ ν) (k : κ) (f : ν → ν) :
    (d.modify k f).entries = d.entries.map fun e ↦ if e.1 = k then (e.1, f e.2) else e := rfl

theorem entries_erase (d : OrderedDict κ ν) (k : κ) : (d.erase k).entries = d.entries.filter fun e ↦ e.1 ≠ k := rfl

theorem entries_set_of_not_mem {d : OrderedDict κ ν} {k : κ} (h : k ∉ d.keys) (v : ν) :
    (d.set k v).entries = d.entries ++ [(k, v)] := by
  rw [set, dif_neg h]

/-! ## Keys and values -/

theorem lookup_cons_eq_ite (i j : κ) (v : ν) (l : List (κ × ν)) :
    ((i, v) :: l).lookup j = if j = i then some v else l.lookup j := by
  rw [List.lookup_cons]
  by_cases h : j = i
  · simp [h]
  · rw [if_neg h, beq_eq_false_iff_ne.mpr h]

theorem lookup_update (l : List (κ × ν)) (k j : κ) (f : ν → ν) :
    (l.map fun e ↦ if e.1 = k then (e.1, f e.2) else e).lookup j =
      if j = k then (l.lookup k).map f else l.lookup j := by
  induction l with
  | nil => simp
  | cons e l ih =>
    obtain ⟨i, v⟩ := e
    rw [List.map_cons]
    by_cases hi : i = k
    · subst hi
      by_cases hj : j = i
      · simp [hj]
      · simpa [lookup_cons_eq_ite, hj] using ih
    · rw [if_neg hi, lookup_cons_eq_ite, lookup_cons_eq_ite, lookup_cons_eq_ite, ih]
      split_ifs <;> simp_all

theorem lookup_filter_ne (l : List (κ × ν)) (k j : κ) :
    (l.filter fun e ↦ e.1 ≠ k).lookup j = if j = k then none else l.lookup j := by
  induction l with
  | nil => simp
  | cons e l ih =>
    obtain ⟨i, v⟩ := e
    rw [List.filter_cons]
    by_cases hi : i = k
    · rw [if_neg (by simpa using hi), ih, lookup_cons_eq_ite, hi]
      split_ifs <;> rfl
    · rw [if_pos (by simpa using hi), lookup_cons_eq_ite, lookup_cons_eq_ite, ih]
      split_ifs <;> simp_all

theorem lookup_of_mem {l : List (κ × ν)} (h : (l.map Prod.fst).Nodup) {e : κ × ν} (he : e ∈ l) :
    l.lookup e.1 = some e.2 := by
  induction l with
  | nil => simp at he
  | cons f l ih =>
    rw [List.map_cons, List.nodup_cons] at h
    rw [show f = (f.1, f.2) from rfl, lookup_cons_eq_ite]
    rcases List.mem_cons.mp he with rfl | he
    · rw [if_pos rfl]
    · have hne : e.1 ≠ f.1 := fun heq ↦ h.1 (heq ▸ List.mem_map_of_mem he)
      rw [if_neg hne, ih h.2 he]

section Lemmas

variable (d : OrderedDict κ ν) (k j : κ) (v : ν) (f : ν → ν)

theorem get?_of_mem {e : κ × ν} (he : e ∈ d.entries) : d.get? e.1 = some e.2 :=
  lookup_of_mem d.nodup he

theorem mem_keys_iff : k ∈ d.keys ↔ (d.get? k).isSome := by
  constructor
  · intro h
    obtain ⟨e, he, rfl⟩ := List.mem_map.mp h
    rw [d.get?_of_mem he]
    rfl
  · intro h
    by_contra hk
    have hnone : d.get? k = none :=
      List.lookup_eq_none_iff.mpr fun e he ↦ by
        simpa using fun heq ↦ hk (List.mem_map.mpr ⟨e, he, heq.symm⟩)
    simp [hnone] at h

/-- The items, from the keys and their values. -/
theorem entries_eq_filterMap : d.entries = d.keys.filterMap fun i ↦ (d.get? i).map (Prod.mk i) := by
  rw [keys, List.filterMap_map]
  refine (List.filterMap_some).symm.trans (List.filterMap_congr fun e he ↦ ?_)
  simp [d.get?_of_mem he]

variable {d} in
theorem ext_get? {d' : OrderedDict κ ν} (hkeys : d.keys = d'.keys)
    (hget : ∀ i, d.get? i = d'.get? i) : d = d' := by
  ext1
  rw [entries_eq_filterMap d, entries_eq_filterMap d', hkeys]
  simp only [hget]

@[simp] theorem keys_modify : (d.modify k f).keys = d.keys := map_fst_update d.entries k f

@[simp] theorem get?_modify :
    (d.modify k f).get? j = if j = k then (d.get? k).map f else d.get? j :=
  lookup_update d.entries k j f

@[simp] theorem keys_erase : (d.erase k).keys = d.keys.filter (· ≠ k) := by
  simp [keys, erase, List.filter_map, Function.comp_def]

@[simp] theorem get?_erase : (d.erase k).get? j = if j = k then none else d.get? j :=
  lookup_filter_ne d.entries k j

theorem keys_set : (d.set k v).keys = if k ∈ d.keys then d.keys else d.keys ++ [k] := by
  unfold set
  split_ifs with h
  · simp
  · simp [keys]

@[simp] theorem get?_set : (d.set k v).get? j = if j = k then some v else d.get? j := by
  unfold set
  split_ifs with h hj hj
  · obtain ⟨w, hw⟩ := Option.isSome_iff_exists.mp ((d.mem_keys_iff k).mp h)
    simp [hj, hw]
  · simp [hj]
  · subst hj
    have hnone : d.get? j = none := by simpa [d.mem_keys_iff] using h
    rw [get?] at hnone ⊢
    simp [List.lookup_append, hnone]
  · simp [get?, List.lookup_append, lookup_cons_eq_ite, hj]

variable {d k} in
theorem keys_moveToEnd (h : k ∈ d.keys) : (d.moveToEnd k).keys = d.keys.filter (· ≠ k) ++ [k] := by
  obtain ⟨w, hw⟩ := Option.isSome_iff_exists.mp ((d.mem_keys_iff k).mp h)
  simp [moveToEnd, hw, keys_set]

@[simp] theorem get?_moveToEnd : (d.moveToEnd k).get? j = d.get? j := by
  cases hw : d.get? k with
  | none => simp [moveToEnd, hw]
  | some w =>
    by_cases hj : j = k
    · simp [moveToEnd, hw, hj]
    · simp [moveToEnd, hw, hj]

variable {d k} in
theorem keys_moveToFront (h : k ∈ d.keys) : (d.moveToFront k).keys = k :: d.keys.filter (· ≠ k) := by
  obtain ⟨w, hw⟩ := Option.isSome_iff_exists.mp ((d.mem_keys_iff k).mp h)
  rw [← keys_erase]
  simp [moveToFront, hw, keys]

@[simp] theorem get?_moveToFront : (d.moveToFront k).get? j = d.get? j := by
  cases hw : d.get? k with
  | none => simp [moveToFront, hw]
  | some w =>
    have hfront : (d.moveToFront k).get? j = ((k, w) :: (d.erase k).entries).lookup j := by
      rw [moveToFront, hw]
      rfl
    rw [hfront, lookup_cons_eq_ite]
    split_ifs with hj
    · rw [hj, hw]
    · exact (d.get?_erase k j).trans (if_neg hj)

end Lemmas

end OrderedDict

end Py
