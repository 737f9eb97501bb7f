import Mathlib.Data.List.Perm.Basic
import Mathlib.Data.List.Perm.Subperm
import Mathlib.Order.Basic
import Mathlib.Tactic

/-!
# Stable priority queues

The entries of a queue are kept in the order of their pushes. The next entry is the first one of those
whose priority is highest. A history is a list of events, each with what the caller was told; it is the
history of a queue when every event is one that the queue allows.
-/

namespace StableQueue

variable {P α : Type*}

/-- The entry at `i` is the next one. -/
structure IsNext [LinearOrder P] (q : List (P × α)) (i : ℕ) (x : P × α) : Prop where
  at_index : q[i]? = some x
  le : ∀ (j : ℕ) (y : P × α), q[j]? = some y → y.1 ≤ x.1
  lt : ∀ (j : ℕ) (y : P × α), j < i → q[j]? = some y → y.1 < x.1

/-- What happens to a queue, with the answer. -/
inductive Event (P α : Type*)
  | push (priority : P) (item : α)
  | pop (result : Option α)
  | queueLen (n : ℕ)
  | clear
  /-- The call was refused. -/
  | refused

/-- An event that the queue allows, and the queue afterwards. -/
def Allows [LinearOrder P] (q : List (P × α)) : Event P α → List (P × α) → Prop
  | .push priority item, q' => q' = q ++ [(priority, item)]
  | .pop none, q' => q = [] ∧ q' = []
  | .pop (some item), q' => ∃ i x, IsNext q i x ∧ x.2 = item ∧ q' = q.eraseIdx i
  | .queueLen n, q' => n = q.length ∧ q' = q
  | .clear, q' => q' = []
  | .refused, _ => False

/-- A history of a queue. -/
inductive History [LinearOrder P] : List (P × α) → List (Event P α) → List (P × α) → Prop
  | nil {q} : History q [] q
  | concat {q q' q''} {es : List (Event P α)} {e : Event P α} (h : History q es q') (he : Allows q' e q'') :
    History q (es ++ [e]) q''

/-- The items that were pushed. -/
def pushed : List (Event P α) → List α :=
  List.filterMap fun e ↦
    match e with
    | .push _ item => some item
    | _ => none

/-- The items that were popped. -/
def popped : List (Event P α) → List α :=
  List.filterMap fun e ↦
    match e with
    | .pop result => result
    | _ => none

/-- How many items were pushed, less those that were popped, since the last clear. -/
def pending (es : List (Event P α)) : ℕ :=
  es.foldl (fun n e ↦
    match e with
    | .push .. => n + 1
    | .pop (some _) => n - 1
    | .clear => 0
    | .pop none | .queueLen _ | .refused => n) 0

variable [LinearOrder P] {q q' : List (P × α)} {es : List (Event P α)}

/-- Every item that is popped was pushed, and each as often at most. -/
theorem History.popped_subperm (h : History q es q') :
    List.Subperm (popped es ++ q'.map Prod.snd) (q.map Prod.snd ++ pushed es) := by
  induction h with
  | nil => simpa [popped, pushed] using List.Subperm.refl _
  | concat h he ih =>
    rename_i q₁ q₂ es e
    rw [popped, pushed, List.filterMap_append, List.filterMap_append, ← popped, ← pushed]
    cases e with
    | push priority item =>
      obtain rfl : q₂ = q₁ ++ [(priority, item)] := he
      have hlast := ih.append (List.Subperm.refl [item])
      simpa [popped, pushed] using hlast
    | pop result =>
      cases result with
      | none =>
        obtain ⟨rfl, rfl⟩ : q₁ = [] ∧ q₂ = [] := he
        simpa [popped, pushed] using ih
      | some item =>
        obtain ⟨i, x, hnext, rfl, rfl⟩ :
            ∃ i x, IsNext q₁ i x ∧ x.2 = item ∧ q₂ = q₁.eraseIdx i := he
        -- The entry goes from the queue to the items that were popped.
        have hi := (List.getElem?_eq_some_iff.mp hnext.at_index)
        have hperm : (q₁.map Prod.snd).Perm (x.2 :: (q₁.eraseIdx i).map Prod.snd) := by
          obtain ⟨hlt, hx⟩ := hi
          rw [← List.map_cons (f := Prod.snd), ← hx]
          exact (List.getElem_cons_eraseIdx_perm hlt).symm.map _
        have hmove : (popped es ++ [x.2] ++ (q₁.eraseIdx i).map Prod.snd).Perm
            (popped es ++ q₁.map Prod.snd) := by
          rw [List.append_assoc]
          exact (List.Perm.append_left _ hperm.symm)
        have := hmove.subperm.trans ih
        simpa [popped, pushed] using this
    | queueLen n =>
      obtain ⟨-, rfl⟩ : n = q₁.length ∧ q₂ = q₁ := he
      simpa [popped, pushed] using ih
    | clear =>
      obtain rfl : q₂ = [] := he
      have hless : List.Subperm (popped es) (popped es ++ q₁.map Prod.snd) :=
        (List.sublist_append_left _ _).subperm
      simpa [popped, pushed] using hless.trans ih
    | refused => exact he.elim

/-- The length of a queue that began empty. -/
theorem History.length_eq (h : History [] es q') : q'.length = pending es := by
  generalize hq : ([] : List (P × α)) = q at h
  induction h with
  | nil =>
    subst hq
    rfl
  | concat h he ih =>
    rename_i q₁ q₂ es e
    have hlength := ih
    rw [pending, List.foldl_append, List.foldl_cons, List.foldl_nil, ← pending]
    cases e with
    | push priority item =>
      obtain rfl : q₂ = q₁ ++ [(priority, item)] := he
      rw [List.length_append, hlength]
      rfl
    | pop result =>
      cases result with
      | none =>
        obtain ⟨rfl, rfl⟩ : q₁ = [] ∧ q₂ = [] := he
        exact hlength
      | some item =>
        obtain ⟨i, x, hnext, -, rfl⟩ :
            ∃ i x, IsNext q₁ i x ∧ x.2 = item ∧ q₂ = q₁.eraseIdx i := he
        rw [List.length_eraseIdx, if_pos (List.getElem?_eq_some_iff.mp hnext.at_index).1, hlength]
    | queueLen n =>
      obtain ⟨-, rfl⟩ : n = q₁.length ∧ q₂ = q₁ := he
      exact hlength
    | clear =>
      obtain rfl : q₂ = [] := he
      rfl
    | refused => exact he.elim

end StableQueue
