import Mathlib.Data.List.Sort
import ScrapyExtension.Py.Heapq

/-!
# The items of a heap in order

A heap whose keys differ has one order in which its items come out: the sorted list of its items. Taking
the root takes the head of this list, and an item that is pushed goes in front of the first one with a larger
key.

`heapify` of a heap gives a heap. An item that is moved down from its place, through the smaller children,
comes back up to this place at most, since its parent is not larger. So the loop of `_siftdown` that stops at
that place does what the one that stops at the root does.
-/

namespace Py

namespace Heapq

variable {α κ : Type*} [LinearOrder κ] {key : α → κ} {l hs : List α}

/-! ## Sorting -/

/-- `sorted(heap)`, by the key. -/
def sorted (key : α → κ) (l : List α) : List α := l.insertionSort fun a b ↦ key a ≤ key b

theorem sorted_perm (key : α → κ) (l : List α) : (sorted key l).Perm l := List.perm_insertionSort _ _

@[simp] theorem mem_sorted {a : α} : a ∈ sorted key l ↔ a ∈ l := (sorted_perm key l).mem_iff

theorem pairwise_sorted (key : α → κ) (l : List α) : (sorted key l).Pairwise fun a b ↦ key a ≤ key b := by
  have : Std.Total fun a b : α ↦ key a ≤ key b := ⟨fun a b ↦ le_total _ _⟩
  have : IsTrans α fun a b ↦ key a ≤ key b := ⟨fun a b c ↦ le_trans⟩
  exact List.pairwise_insertionSort _ _

theorem pairwise_lt_sorted (hnodup : (l.map key).Nodup) : (sorted key l).Pairwise fun a b ↦ key a < key b := by
  have hkeys := ((sorted_perm key l).map key).nodup_iff.mpr hnodup
  refine ((pairwise_sorted key l).and (List.pairwise_map.mp hkeys)).imp ?_
  rintro a b ⟨hle, hne⟩
  exact lt_of_le_of_ne hle hne

/-- Two lists in order are one if they have the same items. -/
theorem eq_of_pairwise_lt {l₁ l₂ : List α} (h₁ : l₁.Pairwise fun a b ↦ key a < key b)
    (h₂ : l₂.Pairwise fun a b ↦ key a < key b) (hperm : l₁.Perm l₂) : l₁ = l₂ :=
  hperm.eq_of_pairwise (fun _ _ _ _ hab hba ↦ absurd hab hba.asymm) h₁ h₂

/-- A list in order is the sorted one. -/
theorem sorted_eq (hl : l.Pairwise fun a b ↦ key a < key b) (hperm : l.Perm hs) : sorted key hs = l := by
  have hkeys : (l.map key).Nodup := (List.pairwise_map.mpr hl).imp fun h ↦ h.ne
  exact eq_of_pairwise_lt (pairwise_lt_sorted ((hperm.map key).nodup_iff.mp hkeys)) hl
    ((sorted_perm key hs).trans hperm.symm)

theorem sorted_congr (h : hs.Perm l) (hnodup : (l.map key).Nodup) : sorted key hs = sorted key l :=
  sorted_eq (pairwise_lt_sorted hnodup) ((sorted_perm key l).trans h.symm)

/-- Where a new item goes. -/
theorem sorted_cons (key : α → κ) (a : α) (l : List α) : sorted key (a :: l) =
    (sorted key l).takeWhile (fun b ↦ key b < key a) ++ a :: (sorted key l).dropWhile fun b ↦ key b < key a := by
  rw [sorted, List.insertionSort_cons, List.orderedInsert_eq_take_drop]
  simp only [not_le]
  rfl

/-- In a list in order, what is in front of the first item without `p` are all items with `p`, when no item
without `p` is followed by one with it. -/
theorem takeWhile_eq_filter {p : α → Bool} (hl : l.Pairwise fun a b ↦ key a ≤ key b)
    (hp : ∀ a b, key a ≤ key b → p b = true → p a = true) :
    l.takeWhile p = l.filter p ∧ l.dropWhile p = l.filter (!p ·) := by
  induction l with
  | nil => exact ⟨rfl, rfl⟩
  | cons a l ih =>
    rw [List.pairwise_cons] at hl
    obtain ⟨htake, hdrop⟩ := ih hl.2
    rcases hpa : p a with - | -
    · have hnone : ∀ b ∈ a :: l, p b = false := by
        intro b hb
        rcases List.mem_cons.mp hb with rfl | hb
        · exact hpa
        · by_contra hpb
          rw [hp a b (hl.1 b hb) (by simpa using hpb)] at hpa
          exact Bool.false_ne_true hpa.symm
      rw [List.takeWhile_cons_of_neg (by simp [hpa]), List.dropWhile_cons_of_neg (by simp [hpa])]
      constructor
      · exact (List.filter_eq_nil_iff.mpr fun b hb ↦ by simp [hnone b hb]).symm
      · exact (List.filter_eq_self.mpr fun b hb ↦ by simp [hnone b hb]).symm
    · rw [List.takeWhile_cons_of_pos hpa, List.dropWhile_cons_of_pos hpa, List.filter_cons_of_pos hpa,
        List.filter_cons_of_neg (by simp [hpa]), htake, hdrop]
      exact ⟨rfl, rfl⟩

theorem sorted_filter {p : α → Bool} (hnodup : (l.map key).Nodup)
    (hp : ∀ a b, key a ≤ key b → p b = true → p a = true) :
    sorted key (l.filter p) = (sorted key l).takeWhile p := by
  rw [(takeWhile_eq_filter (pairwise_sorted key l) hp).1]
  exact sorted_eq ((pairwise_lt_sorted hnodup).filter _) ((sorted_perm key l).filter p)

/-- The root is the head of the sorted list. -/
theorem Ordered.sorted_cons {root : α} {rest : List α} (h : Ordered key (root :: rest))
    (hnodup : ((root :: rest).map key).Nodup) : sorted key (root :: rest) = root :: sorted key rest := by
  rw [List.map_cons, List.nodup_cons] at hnodup
  refine sorted_eq (List.pairwise_cons.mpr ⟨fun a ha ↦ ?_, pairwise_lt_sorted hnodup.2⟩)
    ((sorted_perm key rest).cons root)
  rw [mem_sorted] at ha
  exact lt_of_le_of_ne (h.le_of_mem (List.mem_cons_of_mem root ha))
    fun heq ↦ hnodup.1 (heq ▸ List.mem_map_of_mem ha)

theorem Ordered.of_pairwise (h : l.Pairwise fun a b ↦ key a ≤ key b) : Ordered key l := by
  intro i a b hi ha hb
  obtain ⟨hlt, rfl⟩ := List.getElem?_eq_some_iff.mp ha
  obtain ⟨hlt', rfl⟩ := List.getElem?_eq_some_iff.mp hb
  exact List.pairwise_iff_getElem.mp h _ _ hlt' hlt (by omega)

/-! ## `heapify` -/

/-- The positions below a position of the tree. -/
inductive Under (top : ℕ) : ℕ → Prop
  | self : Under top top
  | child {parent child : ℕ} (h : Under top parent) (hpos : 0 < child) (hparent : (child - 1) / 2 = parent) :
    Under top child

theorem Under.le {top pos : ℕ} (h : Under top pos) : top ≤ pos := by
  induction h with
  | self => exact le_rfl
  | child _ hpos hparent ih => omega

theorem Under.parent {top pos : ℕ} (h : Under top pos) (hlt : top < pos) : Under top ((pos - 1) / 2) := by
  rcases h with - | ⟨h, hpos, rfl⟩
  · exact absurd hlt (lt_irrefl _)
  · exact h

variable {heap : List α} {item : α} {top hole : ℕ}

/-- The loop stops at a place whose parent is not larger than the item. -/
theorem siftdownLoop_eq (fuel : ℕ) (hunder : Under top hole)
    (habove : ∀ b, 0 < top → heap[(top - 1) / 2]? = some b → key b ≤ key item) :
    siftdownLoop key item top fuel hole heap = siftdownLoop key item 0 fuel hole heap := by
  induction fuel generalizing hole heap with
  | zero => rfl
  | succ fuel ih =>
    rw [siftdownLoop, siftdownLoop]
    rcases hunder.le.eq_or_lt with rfl | hlt
    · rw [if_neg (lt_irrefl _)]
      split_ifs with hpos
      · rcases hparent : heap[(top - 1) / 2]? with - | parent
        · rfl
        · dsimp only
          rw [if_neg (not_lt.mpr (habove parent hpos hparent))]
      · rfl
    · rw [if_pos hlt, if_pos (lt_of_le_of_lt (Nat.zero_le top) hlt)]
      rcases heap[(hole - 1) / 2]? with - | parent
      · rfl
      · dsimp only
        split_ifs
        · refine ih (hunder.parent hlt) fun b hpos hb ↦ habove b hpos ?_
          rwa [List.getElem?_set_ne (by omega)] at hb
        · rfl

/-- The hole moves down, and what is above its first place stays. -/
theorem siftupLoop_under (fuel : ℕ) (hunder : Under top hole) :
    Under top (siftupLoop key fuel hole heap).2 ∧
      ∀ j < top, (siftupLoop key fuel hole heap).1[j]? = heap[j]? := by
  induction fuel generalizing hole heap with
  | zero => exact ⟨hunder, fun _ _ ↦ rfl⟩
  | succ fuel ih =>
    rw [siftupLoop]
    rcases hsmaller : smallerChild key heap hole with - | ⟨childpos, child⟩
    · exact ⟨hunder, fun _ _ ↦ rfl⟩
    · obtain ⟨hpos, hparent, -, -⟩ := smallerChild_spec hsmaller
      obtain ⟨hunder', hsame⟩ := @ih (heap.set hole child) _ (hunder.child hpos hparent)
      refine ⟨hunder', fun j hj ↦ (hsame j hj).trans ?_⟩
      have := hunder.le
      rw [List.getElem?_set_ne (by omega)]

/-- **`_siftup`** at any place keeps a heap. -/
theorem siftup_spec (h : Ordered key heap) (hlt : top < heap.length) :
    Ordered key (siftup key heap top) ∧ (siftup key heap top).Perm heap := by
  obtain ⟨item, hitem⟩ : ∃ item, heap[top]? = some item := ⟨_, List.getElem?_eq_getElem hlt⟩
  obtain ⟨hholed, hlt', hbelow, hperm⟩ := siftupLoop_spec item heap.length (by omega) hlt (h.holed top)
  obtain ⟨hunder, hsame⟩ := @siftupLoop_under _ _ _ key heap _ _ heap.length (@Under.self top)
  have hself : heap.set top item = heap := by
    obtain ⟨_, rfl⟩ := List.getElem?_eq_some_iff.mp hitem
    exact List.set_getElem_self _
  rw [hself] at hperm
  obtain ⟨hordered, hperm'⟩ := siftdown_set_spec hlt' hholed hbelow
  have hloop : siftup key heap top =
      siftdown key ((siftupLoop key heap.length top heap).1.set (siftupLoop key heap.length top heap).2 item) 0
        (siftupLoop key heap.length top heap).2 := by
    have hget : ((siftupLoop key heap.length top heap).1.set (siftupLoop key heap.length top heap).2
        item)[(siftupLoop key heap.length top heap).2]? = some item := by simp [hlt']
    rw [siftup, hitem]
    dsimp only
    rw [siftdown, siftdown, hget]
    dsimp only
    rw [siftdownLoop_eq _ hunder]
    intro b hpos hb
    have hle := hunder.le
    rw [List.getElem?_set_ne (by omega), hsame _ (by omega)] at hb
    exact h top item b hpos hitem hb
  rw [hloop]
  exact ⟨hordered, hperm'.trans hperm⟩

/-- **`heapify`** of a heap. -/
theorem heapify_spec (h : Ordered key heap) : Ordered key (heapify key heap) ∧ (heapify key heap).Perm heap := by
  have hloop : ∀ (places : List ℕ) (heap : List α), Ordered key heap → (∀ i ∈ places, i < heap.length) →
      Ordered key (places.foldl (siftup key) heap) ∧ (places.foldl (siftup key) heap).Perm heap := by
    intro places
    induction places with
    | nil => exact fun heap h _ ↦ ⟨h, List.Perm.refl _⟩
    | cons i places ih =>
      intro heap h hlt
      obtain ⟨hordered, hperm⟩ := siftup_spec h (hlt i List.mem_cons_self)
      obtain ⟨hordered', hperm'⟩ := ih _ hordered fun j hj ↦
        hperm.length_eq.symm ▸ hlt j (List.mem_cons_of_mem i hj)
      exact ⟨hordered', hperm'.trans hperm⟩
  refine hloop _ heap h fun i hi ↦ ?_
  rw [List.mem_reverse, List.mem_range] at hi
  omega

end Heapq

end Py
