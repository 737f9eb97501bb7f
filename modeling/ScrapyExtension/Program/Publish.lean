import Mathlib.Tactic.TypeStar
import ScrapyExtension.Program.Basic

/-!
# Publishing several fields

A program assigns new values to some fields, one after the other. When an exception comes in between, a
handler puts the old values back, and raises again: the fields change together or not at all.
-/

namespace Program

variable {σ ε : Type}

/-- Assignments, one after the other; `stop` says after how many of them an exception comes, and which. -/
def assignAll : (stop : Option (ℕ × ε)) → List (σ → σ) → Program σ ε Unit
  | some (0, e), _ => raise e
  | some (_ + 1, _), [] => pure ()
  | some (n + 1, e), w :: ws => do
    change w
    assignAll (some (n, e)) ws
  | none, [] => pure ()
  | none, w :: ws => do
    change w
    assignAll none ws

/-- Assignments with a handler: `putBack previous` assigns the values in `previous`. -/
def publish (putBack : σ → σ → σ) (stop : Option (ℕ × ε)) (ws : List (σ → σ)) : Program σ ε Unit := do
  let previous ← state
  handle (assignAll stop ws) fun e ↦ do
    change (putBack previous)
    raise e

/-- The fields that are assigned are those that are put back. -/
structure PutBack (putBack : σ → σ → σ) (ws : List (σ → σ)) : Prop where
  same : ∀ s, putBack s s = s
  assigned : ∀ w ∈ ws, ∀ p s, putBack p (w s) = putBack p s

variable {putBack : σ → σ → σ} {ws : List (σ → σ)}

theorem wp_assignAll (stop : Option (ℕ × ε)) (s p : σ) (h : ∀ w ∈ ws, ∀ s, putBack p (w s) = putBack p s) :
    wp (assignAll stop ws) (fun _ t ↦ t = ws.foldl (fun s w ↦ w s) s)
      (fun _ t ↦ stop.isSome ∧ putBack p t = putBack p s) s := by
  induction ws generalizing stop s with
  | nil =>
    rcases stop with - | ⟨- | n, e⟩
    · exact rfl
    · exact ⟨rfl, rfl⟩
    · exact rfl
  | cons w ws ih =>
    have hw := h w List.mem_cons_self s
    have hws := fun v hv ↦ h v (List.mem_cons_of_mem w hv)
    rcases stop with - | ⟨- | n, e⟩
    · rw [assignAll, wp_bind, wp_change]
      exact (ih none (w s) hws).mono (fun _ _ ht ↦ ht) fun _ _ ht ↦ ⟨ht.1, ht.2.trans hw⟩
    · exact ⟨rfl, rfl⟩
    · rw [assignAll, wp_bind, wp_change]
      exact (ih _ (w s) hws).mono (fun _ _ ht ↦ ht) fun _ _ ht ↦ ⟨rfl, ht.2.trans hw⟩

/-- **Publishing** assigns everything, or raises and leaves everything. -/
theorem wp_publish (h : PutBack putBack ws) (stop : Option (ℕ × ε)) (s : σ) :
    wp (publish putBack stop ws) (fun _ t ↦ t = ws.foldl (fun s w ↦ w s) s)
      (fun _ t ↦ stop.isSome ∧ t = s) s := by
  rw [publish, wp_bind, wp_state, wp_handle]
  refine (wp_assignAll stop s s fun w hw ↦ h.assigned w hw s).mono (fun _ _ ht ↦ ht) fun e t ht ↦ ?_
  rw [wp_bind, wp_change, wp_raise]
  exact ⟨ht.1, ht.2.trans (h.same s)⟩

end Program
