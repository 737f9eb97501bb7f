import Mathlib.Data.List.Forall2

/-!
# Checks that raise

A validation is a sequence of steps in `Except`, each of which may raise. Whether it succeeds, and with
what, is a conjunction over the steps; the lemmas here turn the one into the other.
-/

namespace Program

universe u v

variable {ε : Type u} {α β : Type v}

theorem bind_ok_iff {x : Except ε α} {f : α → Except ε β} {b : β} :
    x >>= f = .ok b ↔ ∃ a, x = .ok a ∧ f a = .ok b := by
  rcases x with e | a
  · exact ⟨fun h ↦ (nomatch h), fun ⟨a, h, _⟩ ↦ (nomatch h)⟩
  · exact ⟨fun h ↦ ⟨a, rfl, h⟩, fun ⟨a', h, hf⟩ ↦ by rwa [← Except.ok.inj h] at hf⟩

/-- A step that only checks. -/
theorem check_bind_ok_iff {x : Except ε PUnit.{v + 1}} {f : PUnit.{v + 1} → Except ε β} {b : β} :
    x >>= f = .ok b ↔ x = .ok ⟨⟩ ∧ f ⟨⟩ = .ok b := by
  rw [bind_ok_iff]
  exact ⟨fun ⟨⟨⟩, h, hf⟩ ↦ ⟨h, hf⟩, fun ⟨h, hf⟩ ↦ ⟨⟨⟩, h, hf⟩⟩

theorem forM_ok_iff {γ : Type*} {f : γ → Except ε PUnit.{v + 1}} {l : List γ} :
    l.forM f = .ok ⟨⟩ ↔ ∀ x ∈ l, f x = .ok ⟨⟩ := by
  induction l with
  | nil => exact ⟨fun _ _ h ↦ absurd h List.not_mem_nil, fun _ ↦ rfl⟩
  | cons x l ih =>
    rw [List.forall_mem_cons, ← ih]
    change (f x >>= fun _ ↦ l.forM f) = .ok ⟨⟩ ↔ _
    rw [check_bind_ok_iff]

/-- Every element passes, and the results are in order. -/
theorem mapM_ok_iff {γ : Type*} {f : γ → Except ε β} {l : List γ} {out : List β} :
    l.mapM f = .ok out ↔ List.Forall₂ (fun x y ↦ f x = .ok y) l out := by
  induction l generalizing out with
  | nil =>
    rw [List.forall₂_nil_left_iff]
    exact ⟨fun h ↦ (Except.ok.inj h).symm, fun h ↦ congrArg Except.ok h.symm⟩
  | cons x l ih =>
    rw [List.mapM_cons, bind_ok_iff, List.forall₂_cons_left_iff]
    constructor
    · rintro ⟨y, hy, h⟩
      obtain ⟨ys, hys, h⟩ := bind_ok_iff.1 h
      exact ⟨y, ys, hy, ih.1 hys, (Except.ok.inj h).symm⟩
    · rintro ⟨y, ys, hy, hys, rfl⟩
      exact ⟨y, hy, bind_ok_iff.2 ⟨ys, ih.2 hys, rfl⟩⟩

end Program
