import Mathlib.Data.List.Perm.Basic
import Mathlib.Order.Defs.LinearOrder
import Mathlib.Tactic

/-!
# Heaps

The list operations of `heapq`, for items that are compared by a key. An item is moved through the list
by a hole: its neighbours are written over the hole until the place of the item is found, and then the
item is written there.

## The hole

What is at the hole does not count. `Holed` says that all pairs which do not touch the hole are in order,
and that the pairs around it, its parent and its children, are too; so that the hole can be closed, or
moved to either side.
-/

namespace Py

namespace Heapq

variable {α κ : Type*} [LinearOrder κ] (key : α → κ)

/-- The loop of `_siftdown`: the hole moves to the root as long as the parent is larger. -/
def siftdownLoop (newitem : α) (startpos : ℕ) : (fuel pos : ℕ) → List α → List α × ℕ
  | 0, pos, heap => (heap, pos)
  | fuel + 1, pos, heap =>
    if startpos < pos then
      match heap[(pos - 1) / 2]? with
      | none => (heap, pos)
      | some parent =>
        if key newitem < key parent then
          siftdownLoop newitem startpos fuel ((pos - 1) / 2) (heap.set pos parent)
        else (heap, pos)
    else (heap, pos)

/-- `_siftdown` -/
def siftdown (heap : List α) (startpos pos : ℕ) : List α :=
  match heap[pos]? with
  | none => heap
  | some newitem =>
    let r := siftdownLoop key newitem startpos pos pos heap
    r.1.set r.2 newitem

/-- The position of the smaller child, and the child. -/
def smallerChild (heap : List α) (pos : ℕ) : Option (ℕ × α) :=
  match heap[2 * pos + 1]?, heap[2 * pos + 2]? with
  | none, _ => none
  | some child, none => some (2 * pos + 1, child)
  | some child, some right =>
    if key child < key right then some (2 * pos + 1, child) else some (2 * pos + 2, right)

/-- The loop of `_siftup`: the hole moves to a leaf, past the smaller children. -/
def siftupLoop : (fuel pos : ℕ) → List α → List α × ℕ
  | 0, pos, heap => (heap, pos)
  | fuel + 1, pos, heap =>
    match smallerChild key heap pos with
    | none => (heap, pos)
    | some (childpos, child) => siftupLoop fuel childpos (heap.set pos child)

/-- `_siftup` -/
def siftup (heap : List α) (pos : ℕ) : List α :=
  match heap[pos]? with
  | none => heap
  | some newitem =>
    let r := siftupLoop key heap.length pos heap
    siftdown key (r.1.set r.2 newitem) pos r.2

/-- `heappush` -/
def heappush (heap : List α) (item : α) : List α := siftdown key (heap ++ [item]) 0 heap.length

/-- `heappop`, for a heap that may be empty. -/
def heappop (heap : List α) : Option (α × List α) :=
  match heap.getLast?, heap.dropLast with
  | none, _ => none
  | some lastelt, [] => some (lastelt, [])
  | some lastelt, root :: rest => some (root, siftup key (lastelt :: rest) 0)

/-- `heapify` -/
def heapify (heap : List α) : List α :=
  (List.range (heap.length / 2)).reverse.foldl (siftup key) heap

/-! ## Order -/

/-- No item is before its parent. -/
def Ordered (heap : List α) : Prop :=
  ∀ i a b, 0 < i → heap[i]? = some a → heap[(i - 1) / 2]? = some b → key b ≤ key a

/-- Everything is in order but what is at the hole. -/
structure Holed (heap : List α) (hole : ℕ) : Prop where
  off : ∀ i a b, 0 < i → i ≠ hole → (i - 1) / 2 ≠ hole → heap[i]? = some a →
    heap[(i - 1) / 2]? = some b → key b ≤ key a
  around : ∀ c a b, 0 < hole → 0 < c → (c - 1) / 2 = hole → heap[c]? = some a →
    heap[(hole - 1) / 2]? = some b → key b ≤ key a

/-- An item is not after the children of the hole. -/
def Below (heap : List α) (hole : ℕ) (item : α) : Prop :=
  ∀ c a, 0 < c → (c - 1) / 2 = hole → heap[c]? = some a → key item ≤ key a

variable {key} {heap : List α} {hole : ℕ} {item : α}

theorem Ordered.holed (h : Ordered key heap) (hole : ℕ) : Holed key heap hole := by
  refine ⟨fun i a b hi _ _ ↦ h i a b hi, fun c a b hpos hc hparent ha hb ↦ ?_⟩
  have hlt : hole < heap.length := by
    have := (List.getElem?_eq_some_iff.mp ha).1
    omega
  obtain ⟨d, hd⟩ : ∃ d, heap[hole]? = some d := ⟨_, List.getElem?_eq_getElem hlt⟩
  exact (h hole d b hpos hd hb).trans (h c a d hc ha (hparent ▸ hd))

theorem of_getElem?_set {l : List α} {i j : ℕ} {x a : α} (h : (l.set i x)[j]? = some a) :
    (i = j ∧ x = a) ∨ (i ≠ j ∧ l[j]? = some a) := by
  rw [List.getElem?_set] at h
  split_ifs at h with hij
  · exact .inl ⟨hij, Option.some.inj h⟩
  · exact .inr ⟨hij, h⟩

/-- The hole is closed by an item that is between its parent and its children. -/
theorem Holed.close (h : Holed key heap hole) (hbelow : Below key heap hole item)
    (habove : ∀ b, 0 < hole → heap[(hole - 1) / 2]? = some b → key b ≤ key item) :
    Ordered key (heap.set hole item) := by
  intro i a b hi ha hb
  rcases of_getElem?_set ha with ⟨rfl, rfl⟩ | ⟨hih, ha⟩
  · rcases of_getElem?_set hb with ⟨hph, -⟩ | ⟨-, hb⟩
    · omega
    · exact habove b hi hb
  · rcases of_getElem?_set hb with ⟨hph, rfl⟩ | ⟨hph, hb⟩
    · exact hbelow i a hi hph.symm ha
    · exact h.off i a b hi (Ne.symm hih) (Ne.symm hph) ha hb

/-- The parent is written over the hole, which moves there. -/
theorem Holed.up (h : Holed key heap hole) {parent : α} (hpos : 0 < hole)
    (hparent : heap[(hole - 1) / 2]? = some parent) :
    Holed key (heap.set hole parent) ((hole - 1) / 2) := by
  refine ⟨fun i a b hi hih hph ha hb ↦ ?_, fun c a b hup hc hch ha hb ↦ ?_⟩
  · rcases of_getElem?_set ha with ⟨rfl, -⟩ | ⟨hi', ha⟩
    · exact absurd rfl hph
    · rcases of_getElem?_set hb with ⟨hp', rfl⟩ | ⟨hp', hb⟩
      · exact h.around i a parent hpos hi hp'.symm ha hparent
      · exact h.off i a b hi (Ne.symm hi') (Ne.symm hp') ha hb
  · rcases of_getElem?_set hb with ⟨hgrand, -⟩ | ⟨-, hb⟩
    · omega
    have hle : key b ≤ key parent :=
      h.off ((hole - 1) / 2) parent b hup (by omega) (by omega) hparent hb
    rcases of_getElem?_set ha with ⟨-, rfl⟩ | ⟨hc', ha⟩
    · exact hle
    · exact hle.trans (h.off c a parent hc (Ne.symm hc') (by omega) ha (hch ▸ hparent))

theorem Holed.below_up (h : Holed key heap hole) {parent : α} (hpos : 0 < hole)
    (hparent : heap[(hole - 1) / 2]? = some parent) (hlt : key item < key parent) :
    Below key (heap.set hole parent) ((hole - 1) / 2) item := by
  intro c a hc hch ha
  rcases of_getElem?_set ha with ⟨-, rfl⟩ | ⟨hc', ha⟩
  · exact hlt.le
  · exact hlt.le.trans (h.off c a parent hc (Ne.symm hc') (by omega) ha (hch ▸ hparent))

/-- The smaller child is written over the hole, which moves there. -/
theorem Holed.down (h : Holed key heap hole) {child : α} {pos : ℕ} (hpos : 0 < pos)
    (hparent : (pos - 1) / 2 = hole) (hchild : heap[pos]? = some child)
    (hsmaller : Below key heap hole child) : Holed key (heap.set hole child) pos := by
  refine ⟨fun i a b hi hih hph ha hb ↦ ?_, fun c a b _ hc hch ha hb ↦ ?_⟩
  · rcases of_getElem?_set ha with ⟨rfl, rfl⟩ | ⟨hi', ha⟩
    · rcases of_getElem?_set hb with ⟨hp', -⟩ | ⟨-, hb⟩
      · omega
      · exact h.around pos child b hi hpos hparent hchild hb
    · rcases of_getElem?_set hb with ⟨hp', rfl⟩ | ⟨hp', hb⟩
      · exact hsmaller i a hi hp'.symm ha
      · exact h.off i a b hi (Ne.symm hi') (Ne.symm hp') ha hb
  · rcases of_getElem?_set ha with ⟨hc', -⟩ | ⟨-, ha⟩
    · omega
    rcases of_getElem?_set hb with ⟨-, rfl⟩ | ⟨hb', -⟩
    · exact h.off c a child hc (by omega) (by omega) ha (hch ▸ hchild)
    · exact absurd hparent.symm hb'

theorem smallerChild_spec {pos : ℕ} {childpos : ℕ} {child : α}
    (h : smallerChild key heap pos = some (childpos, child)) :
    0 < childpos ∧ (childpos - 1) / 2 = pos ∧ heap[childpos]? = some child ∧ Below key heap pos child := by
  unfold smallerChild at h
  split at h
  · simp at h
  · next left hleft hright =>
    obtain ⟨rfl, rfl⟩ := Prod.mk.inj (Option.some.inj h)
    refine ⟨by omega, by omega, hleft, fun c a hc hch ha ↦ ?_⟩
    obtain rfl | rfl : c = 2 * pos + 1 ∨ c = 2 * pos + 2 := by omega
    · rw [hleft, Option.some.injEq] at ha
      rw [ha]
    · simp [hright] at ha
  · next left right hleft hright =>
    split_ifs at h with hlt
    · obtain ⟨rfl, rfl⟩ := Prod.mk.inj (Option.some.inj h)
      refine ⟨by omega, by omega, hleft, fun c a hc hch ha ↦ ?_⟩
      obtain rfl | rfl : c = 2 * pos + 1 ∨ c = 2 * pos + 2 := by omega
      · rw [hleft, Option.some.injEq] at ha
        rw [ha]
      · rw [hright, Option.some.injEq] at ha
        rw [← ha]
        exact hlt.le
    · obtain ⟨rfl, rfl⟩ := Prod.mk.inj (Option.some.inj h)
      refine ⟨by omega, by omega, hright, fun c a hc hch ha ↦ ?_⟩
      obtain rfl | rfl : c = 2 * pos + 1 ∨ c = 2 * pos + 2 := by omega
      · rw [hleft, Option.some.injEq] at ha
        rw [← ha]
        exact not_lt.mp hlt
      · rw [hright, Option.some.injEq] at ha
        rw [ha]

theorem smallerChild_eq_none {pos : ℕ} (h : smallerChild key heap pos = none) :
    heap.length ≤ 2 * pos + 1 := by
  unfold smallerChild at h
  split at h
  · next hleft => simpa using hleft
  · simp at h
  · split_ifs at h

/-! ## Permutation -/

/-- Moving the hole exchanges two places. -/
theorem perm_set_set {l : List α} {p q : ℕ} {x a : α} (hp : p < l.length) (hpq : p ≠ q)
    (hq : l[q]? = some a) : ((l.set p a).set q x).Perm (l.set p x) := by
  obtain ⟨hlt, rfl⟩ := List.getElem?_eq_some_iff.mp hq
  have hswap := @List.set_set_perm _ (l.set p x) p q (by simpa using hp) (by simpa using hlt)
  rwa [List.getElem_set_ne hpq, List.getElem_set_self, List.set_set] at hswap

/-! ## The operations -/

theorem siftdownLoop_spec (fuel : ℕ) (hfuel : hole ≤ fuel) (hlt : hole < heap.length)
    (h : Holed key heap hole) (hbelow : Below key heap hole item) :
    Ordered key ((siftdownLoop key item 0 fuel hole heap).1.set (siftdownLoop key item 0 fuel hole heap).2
      item) ∧
    ((siftdownLoop key item 0 fuel hole heap).1.set (siftdownLoop key item 0 fuel hole heap).2 item).Perm
      (heap.set hole item) := by
  induction fuel generalizing hole heap with
  | zero =>
    obtain rfl : hole = 0 := by omega
    exact ⟨h.close hbelow fun _ hpos ↦ absurd hpos (lt_irrefl 0), List.Perm.refl _⟩
  | succ fuel ih =>
    rw [siftdownLoop]
    split_ifs with hpos
    · obtain ⟨parent, hparent⟩ : ∃ parent, heap[(hole - 1) / 2]? = some parent :=
        ⟨_, List.getElem?_eq_getElem (by omega)⟩
      simp only [hparent]
      split_ifs with hless
      · obtain ⟨hordered, hperm⟩ := @ih (heap.set hole parent) ((hole - 1) / 2)
          (by omega) (by rw [List.length_set]; omega) (h.up hpos hparent)
          (h.below_up hpos hparent hless)
        exact ⟨hordered, hperm.trans (perm_set_set hlt (by omega) hparent)⟩
      · refine ⟨h.close hbelow fun b _ hb ↦ ?_, List.Perm.refl _⟩
        obtain rfl : parent = b := Option.some.inj (hparent.symm.trans hb)
        exact not_lt.mp hless
    · obtain rfl : hole = 0 := by omega
      exact ⟨h.close hbelow fun _ hpos ↦ absurd hpos (lt_irrefl 0), List.Perm.refl _⟩

/-- `_siftdown` closes the hole at which the item has been written. -/
theorem siftdown_set_spec (hlt : hole < heap.length) (h : Holed key heap hole)
    (hbelow : Below key heap hole item) :
    Ordered key (siftdown key (heap.set hole item) 0 hole) ∧
      (siftdown key (heap.set hole item) 0 hole).Perm (heap.set hole item) := by
  have hget : (heap.set hole item)[hole]? = some item := by simp [hlt]
  -- what has been written at the hole does not count
  have hholed : Holed key (heap.set hole item) hole := by
    refine ⟨fun i a b hi hih hph ha hb ↦ ?_, fun c a b hpos hc hch ha hb ↦ ?_⟩
    · rw [List.getElem?_set_ne (Ne.symm hih)] at ha
      rw [List.getElem?_set_ne (Ne.symm hph)] at hb
      exact h.off i a b hi hih hph ha hb
    · rw [List.getElem?_set_ne (by omega)] at ha hb
      exact h.around c a b hpos hc hch ha hb
  have hbelow' : Below key (heap.set hole item) hole item := by
    intro c a hc hch ha
    rw [List.getElem?_set_ne (by omega)] at ha
    exact hbelow c a hc hch ha
  have hspec := siftdownLoop_spec hole le_rfl (by rwa [List.length_set]) hholed hbelow'
  rw [siftdown, hget]
  rwa [List.set_set] at hspec

/-- **`heappush`** keeps the order and adds the item. -/
theorem heappush_spec (h : Ordered key heap) (item : α) :
    Ordered key (heappush key heap item) ∧ (heappush key heap item).Perm (item :: heap) := by
  have hholed : Holed key (heap ++ [item]) heap.length := by
    refine ⟨fun i a b hi hih hph ha hb ↦ ?_, fun c a b hpos hc hch ha hb ↦ ?_⟩
    · have hi' : i < heap.length := by
        have := (List.getElem?_eq_some_iff.mp ha).1
        simp only [List.length_append, List.length_singleton] at this
        omega
      rw [List.getElem?_append_left hi'] at ha
      rw [List.getElem?_append_left (by omega)] at hb
      exact h i a b hi ha hb
    · have := (List.getElem?_eq_some_iff.mp ha).1
      simp only [List.length_append, List.length_singleton] at this
      omega
  have hbelow : Below key (heap ++ [item]) heap.length item := by
    intro c a hc hch ha
    have := (List.getElem?_eq_some_iff.mp ha).1
    simp only [List.length_append, List.length_singleton] at this
    omega
  have hself : (heap ++ [item]).set heap.length item = heap ++ [item] := by
    rw [List.set_append_right _ _ le_rfl, Nat.sub_self, List.set_cons_zero]
  have hspec := siftdown_set_spec (by simp) hholed hbelow
  rw [hself] at hspec
  exact ⟨hspec.1, hspec.2.trans (List.perm_append_singleton item heap)⟩

theorem siftupLoop_spec (item : α) (fuel : ℕ) (hfuel : heap.length ≤ hole + fuel) (hlt : hole < heap.length)
    (h : Holed key heap hole) :
    Holed key (siftupLoop key fuel hole heap).1 (siftupLoop key fuel hole heap).2 ∧
    (siftupLoop key fuel hole heap).2 < (siftupLoop key fuel hole heap).1.length ∧
    Below key (siftupLoop key fuel hole heap).1 (siftupLoop key fuel hole heap).2 item ∧
    ((siftupLoop key fuel hole heap).1.set (siftupLoop key fuel hole heap).2 item).Perm
      (heap.set hole item) := by
  induction fuel generalizing hole heap with
  | zero => omega
  | succ fuel ih =>
    rw [siftupLoop]
    cases hsmaller : smallerChild key heap hole with
    | none =>
      refine ⟨h, hlt, fun c a hc hch ha ↦ ?_, List.Perm.refl _⟩
      -- there are no children
      have hnone := smallerChild_eq_none hsmaller
      have hc' : (c - 1) / 2 = hole := hch
      have hclt : c < heap.length := (List.getElem?_eq_some_iff.mp ha).1
      omega
    | some r =>
      obtain ⟨childpos, child⟩ := r
      obtain ⟨hpos, hparent, hchild, hbelow⟩ := smallerChild_spec hsmaller
      have hchildlt := (List.getElem?_eq_some_iff.mp hchild).1
      obtain ⟨hholed, hlt', hbelow', hperm⟩ := @ih (heap.set hole child) childpos
        (by rw [List.length_set]; omega) (by rw [List.length_set]; omega)
        (h.down hpos hparent hchild hbelow)
      exact ⟨hholed, hlt', hbelow', hperm.trans (perm_set_set hlt (by omega) hchild)⟩

/-- **`heappop`** takes the root, and keeps the order. -/
theorem heappop_spec {root : α} {rest : List α} (h : Ordered key (root :: rest)) :
    ∃ heap, heappop key (root :: rest) = some (root, heap) ∧ Ordered key heap ∧ heap.Perm rest := by
  rcases List.eq_nil_or_concat rest with rfl | ⟨front, lastelt, rfl⟩
  · exact ⟨[], rfl, fun i a b _ ha ↦ by simp at ha, List.Perm.refl _⟩
  · rw [List.concat_eq_append] at h ⊢
    have hlast : (root :: (front ++ [lastelt])).getLast? = some lastelt := by
      rw [← List.cons_append, List.getLast?_concat]
    have hdrop : (root :: (front ++ [lastelt])).dropLast = root :: front := by
      rw [← List.cons_append, List.dropLast_concat]
    -- the last item is written over the root, where the hole is
    have hholed : Holed key (lastelt :: front) 0 := by
      refine ⟨fun i a b hi hih hph ha hb ↦ ?_, fun c a b hpos ↦ absurd hpos (lt_irrefl 0)⟩
      have hfront : ∀ j a, 0 < j → (lastelt :: front)[j]? = some a →
          (root :: (front ++ [lastelt]))[j]? = some a := by
        intro j a hj ha
        obtain ⟨j, rfl⟩ := Nat.exists_eq_succ_of_ne_zero hj.ne'
        rw [List.getElem?_cons_succ] at ha ⊢
        rw [List.getElem?_append_left (List.getElem?_eq_some_iff.mp ha).1]
        exact ha
      exact h i a b hi (hfront i a hi ha) (hfront _ b (Nat.pos_of_ne_zero hph) hb)
    obtain ⟨hholed', hlt, hbelow, hperm⟩ := siftupLoop_spec lastelt (lastelt :: front).length
      (by omega) (by simp) hholed
    obtain ⟨hordered, hperm'⟩ := siftdown_set_spec hlt hholed' hbelow
    refine ⟨siftup key (lastelt :: front) 0, ?_, ?_, ?_⟩
    · simp only [heappop, hlast, hdrop]
    · rw [siftup]
      exact hordered
    · rw [siftup]
      refine (hperm'.trans hperm).trans ?_
      rw [List.set_cons_zero]
      exact (List.perm_append_singleton lastelt front).symm

/-- The root is the least item. -/
theorem Ordered.le_of_mem {root : α} {rest : List α} (h : Ordered key (root :: rest)) {a : α}
    (ha : a ∈ root :: rest) : key root ≤ key a := by
  obtain ⟨i, hi, rfl⟩ := List.mem_iff_getElem.mp ha
  induction i using Nat.strongRecOn with
  | ind i ih =>
    rcases Nat.eq_zero_or_pos i with rfl | hpos
    · exact le_rfl
    · have hparent : (i - 1) / 2 < (root :: rest).length := by omega
      exact (ih _ (by omega) hparent (List.getElem_mem hparent)).trans
        (h i _ _ hpos (List.getElem?_eq_getElem hi) (List.getElem?_eq_getElem hparent))

end Heapq

end Py
