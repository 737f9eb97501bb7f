import Mathlib.Data.List.Perm.Basic
import ScrapyExtension.Py.HeapSort

/-!
# Collections without order

A collection without order is written as the list of the forms of its items, sorted by their texts. Two
such lists have the same texts exactly if the texts are the same up to order, and then the items can be
matched: the items of the one, in some order, have the texts of the items of the other, one by one.

Matching is stated for any relation of an item to its form, so that it covers forms that may not exist.
-/

namespace Py

namespace Heapq

variable {α β κ : Type*} {key : β → κ} {as bs : List β}

/-- Sorted texts are the same if the texts are, up to order. -/
theorem map_sorted_eq_iff [LinearOrder κ] :
    (sorted key as).map key = (sorted key bs).map key ↔ (as.map key).Perm (bs.map key) := by
  constructor
  · intro h
    have ha := (sorted_perm key as).map key
    rw [h] at ha
    exact ha.symm.trans ((sorted_perm key bs).map key)
  · intro h
    have hperm : ((sorted key as).map key).Perm ((sorted key bs).map key) :=
      ((sorted_perm key as).map key).trans (h.trans ((sorted_perm key bs).map key).symm)
    exact hperm.eq_of_pairwise (fun _ _ _ _ hab hba ↦ le_antisymm hab hba)
      (List.pairwise_map.2 (pairwise_sorted key as)) (List.pairwise_map.2 (pairwise_sorted key bs))

variable {R : α → β → Prop} {S : α → α → Prop} {xs ys : List α}

/-- The texts of two lists are the same if those of their items are, one by one. -/
theorem map_eq_iff_forall₂ (hxs : List.Forall₂ R xs as) (hys : List.Forall₂ R ys bs)
    (h : ∀ x ∈ xs, ∀ a y b, R x a → R y b → (key a = key b ↔ S x y)) :
    as.map key = bs.map key ↔ List.Forall₂ S xs ys := by
  induction hxs generalizing ys bs with
  | nil =>
    rcases hys with - | ⟨hy, hys⟩
    · exact iff_of_true rfl .nil
    · exact iff_of_false (by simp) nofun
  | cons hx hxs ih =>
    rcases hys with - | ⟨hy, hys⟩
    · exact iff_of_false (by simp) nofun
    · rw [List.map_cons, List.map_cons, List.cons.injEq, List.forall₂_cons,
        h _ List.mem_cons_self _ _ _ hx hy, ih hys fun x hx ↦ h x (List.mem_cons_of_mem _ hx)]

/-- The texts of two lists are the same up to order if the items can be matched. -/
theorem map_perm_iff_forall₂ (hxs : List.Forall₂ R xs as) (hys : List.Forall₂ R ys bs)
    (h : ∀ x ∈ xs, ∀ a y b, R x a → R y b → (key a = key b ↔ S x y)) :
    (as.map key).Perm (bs.map key) ↔ ∃ zs, ys.Perm zs ∧ List.Forall₂ S xs zs := by
  constructor
  · intro hperm
    obtain ⟨cs, hcs, hbs⟩ : ∃ cs : List β, as.map key = cs.map key ∧ cs.Perm bs :=
      (congrFun (congrFun (List.eq_map_comp_perm key) (as.map key)) bs).mpr hperm
    obtain ⟨zs, hzs, hyz⟩ := List.perm_comp_forall₂ hbs hys.flip
    exact ⟨zs, hyz.symm, (map_eq_iff_forall₂ hxs hzs.flip h).1 hcs⟩
  · rintro ⟨zs, hyz, hzs⟩
    obtain ⟨cs, hcs, hbs⟩ := List.perm_comp_forall₂ hyz.symm hys
    rw [(map_eq_iff_forall₂ hxs hcs h).2 hzs]
    exact hbs.map key

end Heapq

end Py
