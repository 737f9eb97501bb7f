import Mathlib.Logic.Function.Basic

/-!
# Storage whose calls may fail

A key-value storage together with a *script* that says how its next calls come out. A call may
succeed, raise without effect, or take effect and then raise, and what is raised is either an
ordinary exception or a process-control one. A script that is used up stands for calls that
succeed, so the empty script is the failure-free storage, and every finite run over an arbitrarily
failing storage is the run of some script.

Programs over the storage are functions from a storage to a `Result` and a storage. The lemmas
say what a call can do to the contents; nothing else is ever used about scripts.
-/

namespace Faulty

variable {κ ν : Type}

/-- How one call comes out. The flag of a failing call says whether it took effect. -/
inductive Outcome where
  /-- The call returns. -/
  | success
  /-- The call raises an ordinary exception. -/
  | failure (effect : Bool)
  /-- The call raises a process-control exception. -/
  | interrupt (effect : Bool)
deriving DecidableEq

/-- What a program over the storage ends with. -/
inductive Result (α : Type) where
  /-- It returned. -/
  | returned (a : α)
  /-- It raised an ordinary exception. -/
  | raised
  /-- It raised a process-control exception. -/
  | interrupted
deriving DecidableEq

/-- Continue after a return. -/
def Result.bind {α β σ : Type} (r : Result α × σ) (f : α → σ → Result β × σ) : Result β × σ :=
  match r with
  | (.returned a, s) => f a s
  | (.raised, s) => (.raised, s)
  | (.interrupted, s) => (.interrupted, s)

/-- The contents of a storage and the outcomes of its next calls. -/
structure Storage (κ ν : Type) where
  /-- What is stored. -/
  contents : κ → Option ν
  /-- The outcomes of the next calls; calls beyond it succeed. -/
  script : List Outcome

namespace Storage

/-- The same contents without failures. -/
def healthy (s : Storage κ ν) : Storage κ ν := { s with script := [] }

@[simp] theorem healthy_contents (s : Storage κ ν) : s.healthy.contents = s.contents := rfl

@[simp] theorem healthy_script (s : Storage κ ν) : s.healthy.script = [] := rfl

/-- A call that would change the contents to `after` and return `a`. -/
def call {α : Type} (a : α) (after : κ → Option ν) (s : Storage κ ν) : Result α × Storage κ ν :=
  match s.script with
  | [] => (.returned a, ⟨after, []⟩)
  | .success :: script => (.returned a, ⟨after, script⟩)
  | .failure effect :: script => (.raised, ⟨if effect then after else s.contents, script⟩)
  | .interrupt effect :: script => (.interrupted, ⟨if effect then after else s.contents, script⟩)

/-- Look up a key. -/
def retrieve (k : κ) (s : Storage κ ν) : Result (Option ν) × Storage κ ν :=
  s.call (s.contents k) s.contents

/-- Bind a key to a value. -/
def store [DecidableEq κ] (k : κ) (v : ν) (s : Storage κ ν) : Result Unit × Storage κ ν :=
  s.call () (Function.update s.contents k (some v))

/-- Remove a key. -/
def delete [DecidableEq κ] (k : κ) (s : Storage κ ν) : Result Unit × Storage κ ν :=
  s.call () (Function.update s.contents k none)

/-- A call that returns has taken effect; one that raises may have. -/
theorem call_cases {α : Type} (a : α) (after : κ → Option ν) (s : Storage κ ν) :
    ((s.call a after).1 = .returned a ∧ (s.call a after).2.contents = after) ∨
    (((s.call a after).1 = .raised ∨ (s.call a after).1 = .interrupted) ∧
      ((s.call a after).2.contents = after ∨ (s.call a after).2.contents = s.contents)) := by
  rw [call]
  split
  · exact .inl ⟨rfl, rfl⟩
  · exact .inl ⟨rfl, rfl⟩
  · next effect _ _ =>
    refine .inr ⟨.inl rfl, ?_⟩
    cases effect
    · exact .inr rfl
    · exact .inl rfl
  · next effect _ _ =>
    refine .inr ⟨.inr rfl, ?_⟩
    cases effect
    · exact .inr rfl
    · exact .inl rfl

@[simp] theorem retrieve_contents (k : κ) (s : Storage κ ν) :
    (s.retrieve k).2.contents = s.contents := by
  rcases s.call_cases (s.contents k) s.contents with ⟨-, h⟩ | ⟨-, h | h⟩ <;> exact h

/-- What a lookup returns is what is stored. -/
theorem retrieve_returned {k : κ} {s : Storage κ ν} {o : Option ν}
    (h : (s.retrieve k).1 = .returned o) : o = s.contents k := by
  rcases s.call_cases (s.contents k) s.contents with ⟨hr, -⟩ | ⟨hr | hr, -⟩
  · exact (Result.returned.inj (hr.symm.trans h)).symm
  · exact absurd (hr.symm.trans h) (by simp)
  · exact absurd (hr.symm.trans h) (by simp)

theorem delete_contents_of_ne [DecidableEq κ] {k k' : κ} (h : k' ≠ k) (s : Storage κ ν) :
    (s.delete k).2.contents k' = s.contents k' := by
  rw [delete]
  rcases s.call_cases () (Function.update s.contents k none) with ⟨-, hc⟩ | ⟨-, hc | hc⟩
  · rw [hc, Function.update_of_ne h]
  · rw [hc, Function.update_of_ne h]
  · rw [hc]

/-- A removal that fails may have removed the key or not. -/
theorem delete_contents_self [DecidableEq κ] (k : κ) (s : Storage κ ν) :
    (s.delete k).2.contents k = s.contents k ∨ (s.delete k).2.contents k = none := by
  rw [delete]
  rcases s.call_cases () (Function.update s.contents k none) with ⟨-, hc⟩ | ⟨-, hc | hc⟩
  · rw [hc, Function.update_self]
    exact .inr rfl
  · rw [hc, Function.update_self]
    exact .inr rfl
  · rw [hc]
    exact .inl rfl

theorem retrieve_of_script_nil {s : Storage κ ν} (h : s.script = []) (k : κ) :
    s.retrieve k = (.returned (s.contents k), s) := by
  obtain ⟨contents, script⟩ := s
  obtain rfl : script = [] := h
  rfl

theorem store_of_script_nil [DecidableEq κ] {s : Storage κ ν} (h : s.script = []) (k : κ) (v : ν) :
    s.store k v = (.returned (), ⟨Function.update s.contents k (some v), []⟩) := by
  obtain ⟨contents, script⟩ := s
  obtain rfl : script = [] := h
  rfl

end Storage

end Faulty
