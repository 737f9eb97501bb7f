import Mathlib.Data.List.Basic
import Mathlib.Order.Monotone.Basic
import Mathlib.Order.WellFounded

/-!
# Deterministic labelled machines

Every concurrent component of this development is a machine whose labels name the atomic
sections of the code: a label picks the thread, the section and the outcome of whatever the
section calls, and the state moves deterministically once it is picked. A schedule is then a
list of labels, and "for every interleaving" is "for every list".

## Two ways to quantify over runs

`Machine.Reachable` forgets the run and keeps its last state; it is the right notion for plain
safety. `Machine.Along` and `Machine.Always` keep the run, because a property that holds only
while every step meets a side condition has to mention the steps. Both come with one induction
rule, and no other module of the development does induction over schedules by hand.
-/

/-- A machine over states `σ` whose steps are named by labels `ι`. A label that is not enabled
has no successor. -/
structure Machine (σ ι : Type*) where
  /-- The state the machine starts in. -/
  init : σ
  /-- The successor under a label, if the label is enabled. -/
  step : σ → ι → Option σ

namespace Machine

variable {σ ι : Type*} (M : Machine σ ι)

/-- Execute a schedule; `none` once a label is not enabled. -/
def run : σ → List ι → Option σ
  | s, [] => some s
  | s, a :: as => (M.step s a).bind fun t ↦ run t as

/-- The states the machine can get into from its initial state. -/
def Reachable (s : σ) : Prop := ∃ as, M.run M.init as = some s

/-- Every step of the schedule `as` from `s` meets the side condition `G`. -/
def Along (G : σ → ι → Prop) : σ → List ι → Prop
  | _, [] => True
  | s, a :: as => G s a ∧ ∀ t, M.step s a = some t → Along G t as

/-- Every state the schedule `as` visits from `s`, both ends included, satisfies `P`. -/
def Always (P : σ → Prop) : σ → List ι → Prop
  | s, [] => P s
  | s, a :: as => P s ∧ ∀ t, M.step s a = some t → Always P t as

instance decidableAlong (G : σ → ι → Prop) [∀ s, DecidablePred (G s)] :
    ∀ s as, Decidable (M.Along G s as)
  | _, [] => isTrue trivial
  | s, a :: as =>
    match h : M.step s a with
    | none => decidable_of_iff (G s a) (by simp [Along, h])
    | some t =>
      haveI := decidableAlong G t as
      decidable_of_iff (G s a ∧ M.Along G t as) (by simp [Along, h])

variable {M}

@[simp] theorem run_nil (s : σ) : M.run s [] = some s := rfl

@[simp] theorem run_cons (s : σ) (a : ι) (as : List ι) :
    M.run s (a :: as) = (M.step s a).bind fun t ↦ M.run t as := rfl

theorem run_append (s : σ) (as bs : List ι) :
    M.run s (as ++ bs) = (M.run s as).bind fun t ↦ M.run t bs := by
  induction as generalizing s with
  | nil => rfl
  | cons a as ih =>
    simp only [List.cons_append, run_cons]
    cases M.step s a with
    | none => rfl
    | some t => exact ih t

theorem Reachable.init : M.Reachable M.init := ⟨[], rfl⟩

theorem Reachable.step {s t : σ} {a : ι} (h : M.Reachable s) (ht : M.step s a = some t) :
    M.Reachable t := by
  obtain ⟨as, has⟩ := h
  refine ⟨as ++ [a], ?_⟩
  rw [run_append, has]
  simp [ht]

/-- A step-preserved property survives a whole run. -/
theorem run_invariant {I : σ → Prop} (hstep : ∀ s a t, I s → M.step s a = some t → I t)
    {s t : σ} {as : List ι} (hs : I s) (h : M.run s as = some t) : I t := by
  induction as generalizing s with
  | nil =>
    obtain rfl : s = t := by simpa using h
    exact hs
  | cons a as ih =>
    obtain ⟨u, hu, hrest⟩ := Option.bind_eq_some_iff.mp h
    exact ih (hstep s a u hs hu) hrest

/-- **Invariant rule.** What holds initially and is preserved by every step holds in every
reachable state. -/
theorem Reachable.invariant {I : σ → Prop} (h₀ : I M.init)
    (hstep : ∀ s a t, I s → M.step s a = some t → I t) {s : σ} (h : M.Reachable s) : I s := by
  obtain ⟨as, has⟩ := h
  exact run_invariant hstep h₀ has

/-- **Guarded invariant rule.** What is preserved by every step that meets `G` holds in every
state of a run whose steps all meet `G`. -/
theorem Along.always {G : σ → ι → Prop} {I : σ → Prop}
    (hstep : ∀ s a t, I s → G s a → M.step s a = some t → I t)
    {s : σ} {as : List ι} (hs : I s) (h : M.Along G s as) : M.Always I s as := by
  induction as generalizing s with
  | nil => exact hs
  | cons a as ih => exact ⟨hs, fun t ht ↦ ih (hstep s a t hs h.1 ht) (h.2 t ht)⟩

theorem Always.head {P : σ → Prop} {s : σ} {as : List ι} (h : M.Always P s as) : P s := by
  cases as with
  | nil => exact h
  | cons a as => exact h.1

/-- **Exact side condition.** If, as long as `P` has held, a step keeps `P` exactly when it meets
`G`, then `P` holds all along a run exactly when every step meets `G`. -/
theorem always_iff_along {G : σ → ι → Prop} {I P : σ → Prop}
    (hstep : ∀ s a t, I s → P s → M.step s a = some t → I t ∧ (P t ↔ G s a))
    (hdisabled : ∀ s a, I s → P s → M.step s a = none → G s a)
    {s : σ} {as : List ι} (hI : I s) (hP : P s) : M.Always P s as ↔ M.Along G s as := by
  induction as generalizing s with
  | nil => exact iff_of_true hP trivial
  | cons a as ih =>
    cases ht : M.step s a with
    | none => simp [Always, Along, ht, hP, hdisabled s a hI hP ht]
    | some t =>
      obtain ⟨hIt, hiff⟩ := hstep s a t hI hP ht
      simp only [Always, Along, ht, Option.some.injEq, forall_eq']
      constructor
      · rintro ⟨-, hrest⟩
        exact ⟨hiff.mp hrest.head, (ih hIt hrest.head).mp hrest⟩
      · rintro ⟨hG, hrest⟩
        exact ⟨hP, (ih hIt (hiff.mpr hG)).mpr hrest⟩

theorem Always.mono {P Q : σ → Prop} (hPQ : ∀ s, P s → Q s) {s : σ} {as : List ι}
    (h : M.Always P s as) : M.Always Q s as := by
  induction as generalizing s with
  | nil => exact hPQ s h
  | cons a as ih => exact ⟨hPQ s h.1, fun t ht ↦ ih (h.2 t ht)⟩

/-- The last state of a run is one of its states. -/
theorem Always.of_run {P : σ → Prop} {s t : σ} {as : List ι} (h : M.Always P s as)
    (hrun : M.run s as = some t) : P t := by
  induction as generalizing s with
  | nil =>
    obtain rfl : s = t := by simpa using hrun
    exact h
  | cons a as ih =>
    obtain ⟨u, hu, hrest⟩ := Option.bind_eq_some_iff.mp hrun
    exact ih (h.2 u hu) hrest

/-- A side condition on labels alone. -/
theorem Along.of_forall {G : ι → Prop} {s : σ} {as : List ι} (h : ∀ a ∈ as, G a) :
    M.Along (fun _ ↦ G) s as := by
  induction as generalizing s with
  | nil => trivial
  | cons a as ih =>
    rw [List.forall_mem_cons] at h
    exact ⟨h.1, fun t _ ↦ ih h.2⟩

theorem Along.and {G H : σ → ι → Prop} {s : σ} {as : List ι} (hG : M.Along G s as)
    (hH : M.Along H s as) : M.Along (fun s a ↦ G s a ∧ H s a) s as := by
  induction as generalizing s with
  | nil => trivial
  | cons a as ih => exact ⟨⟨hG.1, hH.1⟩, fun t ht ↦ ih (hG.2 t ht) (hH.2 t ht)⟩

theorem along_append {G : σ → ι → Prop} {s : σ} {as bs : List ι} :
    M.Along G s (as ++ bs) ↔
      M.Along G s as ∧ ∀ t, M.run s as = some t → M.Along G t bs := by
  induction as generalizing s with
  | nil => simp [Along]
  | cons a as ih =>
    rw [List.cons_append, Along, Along, and_assoc]
    refine and_congr_right fun _ ↦ ?_
    simp only [ih, run_cons, Option.bind_eq_some_iff]
    constructor
    · intro h
      exact ⟨fun t ht ↦ (h t ht).1, fun u ⟨t, ht, hu⟩ ↦ (h t ht).2 u hu⟩
    · rintro ⟨hhead, hrest⟩ t ht
      exact ⟨hhead t ht, fun u hu ↦ hrest u ⟨t, ht, hu⟩⟩

/-! ## Progress -/

/-- Whoever takes the turns is never stuck before `P`, and is there after `k` of them, whatever comes in
between. -/
structure Within (M : Machine σ ι) (turn : ι → Bool) (P : σ → Prop) (k : ℕ) (s : σ) : Prop where
  goesOn : ∀ as t, M.run s as = some t → P t ∨ ∀ a, turn a = true → (M.step t a).isSome = true
  arrives : ∀ as t, M.run s as = some t → k ≤ as.countP turn → P t

/-- **Countdown rule.** What a turn brings down by one, and everything else leaves where it is. -/
theorem Within.of_countdown {I : ℕ → σ → Prop} {turn : ι → Bool} {P : σ → Prop}
    (hstep : ∀ k s a t, I k s → M.step s a = some t → I (if turn a then k - 1 else k) t)
    (hturn : ∀ k s, I k s → P s ∨ ∀ a, turn a = true → (M.step s a).isSome = true)
    (hzero : ∀ s, I 0 s → P s) {k : ℕ} {s : σ} (hs : I k s) : M.Within turn P k s := by
  have hrun : ∀ as k s t, I k s → M.run s as = some t → I (k - as.countP turn) t := by
    intro as
    induction as with
    | nil =>
      intro k s t hs ht
      obtain rfl : s = t := by simpa using ht
      exact hs
    | cons a as ih =>
      intro k s t hs ht
      obtain ⟨u, hu, ht⟩ := Option.bind_eq_some_iff.mp ht
      have hnext := ih _ u t (hstep k s a u hs hu) ht
      rw [List.countP_cons]
      split_ifs at hnext ⊢
      · rwa [Nat.sub_sub, Nat.add_comm 1] at hnext
      · exact hnext
  refine ⟨fun as t ht ↦ hturn _ t (hrun as k s t hs ht), fun as t ht hk ↦ hzero t ?_⟩
  have hend := hrun as k s t hs ht
  rwa [Nat.sub_eq_zero_of_le hk] at hend

/-- Every run of the labels `L` comes to `P`, and none is stuck before. -/
inductive Inevitable (M : Machine σ ι) (L : ι → Prop) (P : σ → Prop) : σ → Prop
  | now {s : σ} (h : P s) : Inevitable M L P s
  | later {s : σ} (hsome : ∃ a, L a ∧ (M.step s a).isSome = true)
      (hnext : ∀ a t, L a → M.step s a = some t → Inevitable M L P t) : Inevitable M L P s

/-- **Ranking rule.** Whatever is done before `P`, there is less to do afterwards, and always something. -/
theorem Inevitable.of_rank {I : σ → Prop} {L : ι → Prop} {P : σ → Prop} (rank : σ → ℕ)
    (hsome : ∀ s, I s → ¬ P s → ∃ a, L a ∧ (M.step s a).isSome = true)
    (hstep : ∀ s a t, I s → ¬ P s → L a → M.step s a = some t → P t ∨ (I t ∧ rank t < rank s))
    {s : σ} (hs : I s) : M.Inevitable L P s := by
  induction hk : rank s using Nat.strongRecOn generalizing s with
  | ind k ih =>
    subst hk
    by_cases hP : P s
    · exact .now hP
    refine .later (hsome s hs hP) fun a t ha ht ↦ ?_
    rcases hstep s a t hs hP ha ht with hP | ⟨hI, hlt⟩
    · exact .now hP
    · exact ih _ hlt hI rfl

/-! ## Infinite runs -/

/-- A run without end. -/
structure Stream (M : Machine σ ι) (states : ℕ → σ) (labels : ℕ → ι) : Prop where
  start : states 0 = M.init
  step : ∀ n, M.step (states n) (labels n) = some (states (n + 1))

theorem Stream.reachable {states : ℕ → σ} {labels : ℕ → ι} (h : M.Stream states labels) (n : ℕ) :
    M.Reachable (states n) := by
  induction n with
  | zero => exact h.start ▸ .init
  | succ n ih => exact ih.step (h.step n)

/-- **Descent.** What a turn brings down and nothing else brings up leaves finitely many turns. -/
theorem settles {α : Type*} [Preorder α] [WellFoundedLT α] {states : ℕ → σ} {labels : ℕ → ι}
    {turn : ι → Bool} (rank : σ → α) (hle : ∀ n, rank (states (n + 1)) ≤ rank (states n))
    (hlt : ∀ n, turn (labels n) = true → rank (states (n + 1)) < rank (states n)) :
    ∃ N, ∀ n, N ≤ n → turn (labels n) = false := by
  have hanti : Antitone fun n ↦ rank (states n) := antitone_nat_of_succ_le hle
  have hfrom : ∀ r m, rank (states m) = r → ∃ N, ∀ n, N ≤ n → turn (labels n) = false := by
    intro r
    induction r using WellFoundedLT.induction with
    | ind r ih =>
      rintro m rfl
      by_cases h : ∃ n, m ≤ n ∧ turn (labels n) = true
      · obtain ⟨n, hmn, hturn⟩ := h
        exact ih _ ((hlt n hturn).trans_le (hanti hmn)) (n + 1) rfl
      · push Not at h
        exact ⟨m, fun n hn ↦ Bool.eq_false_of_not_eq_true (h n hn)⟩
  exact hfrom _ 0 rfl

end Machine
