import Mathlib.Tactic.Common

/-!
# Programs with state and exceptions

The sequential components of this development are programs that change a state and may raise. An
exception does not undo what was done before it, so the state comes back in both cases, and a
handler goes on from the state at the raise.

## Reasoning

`Program.wp p Q E s` says that `p`, started in `s`, returns in a state that meets `Q` or raises in a
state that meets `E`. Its equations for the constructs of the language are `simp` lemmas, which
amounts to symbolic execution; a called program is replaced by its specification with `wp.mono`.
-/

/-- A program over states `σ` that returns an `α` or raises an `ε`. -/
def Program (σ ε α : Type) := σ → Except ε α × σ

namespace Program

variable {σ ε α β : Type}

/-- Run a program. -/
def run (p : Program σ ε α) (s : σ) : Except ε α × σ := p s

/-- Return a value. -/
protected def pure (a : α) : Program σ ε α := fun s ↦ (.ok a, s)

/-- Sequential composition. -/
protected def bind (p : Program σ ε α) (f : α → Program σ ε β) : Program σ ε β := fun s ↦
  match p s with
  | (.ok a, t) => f a t
  | (.error e, t) => (.error e, t)

instance : Monad (Program σ ε) where
  pure := Program.pure
  bind := Program.bind

/-- Raise an exception. -/
def raise (e : ε) : Program σ ε α := fun s ↦ (.error e, s)

/-- Run a handler on an exception. -/
def handle (p : Program σ ε α) (h : ε → Program σ ε α) : Program σ ε α := fun s ↦
  match p s with
  | (.ok a, t) => (.ok a, t)
  | (.error e, t) => h e t

/-- The state. -/
def state : Program σ ε σ := fun s ↦ (.ok s, s)

/-- Change the state. -/
def change (f : σ → σ) : Program σ ε Unit := fun s ↦ (.ok (), f s)

/-- Run a program under a condition. -/
def onlyIf (c : Prop) [Decidable c] (p : Program σ ε Unit) : Program σ ε Unit :=
  if c then p else pure ()

/-- Weakest precondition: what has to hold of the start so that `p` ends well. -/
def wp (p : Program σ ε α) (Q : α → σ → Prop) (E : ε → σ → Prop) (s : σ) : Prop :=
  match p s with
  | (.ok a, t) => Q a t
  | (.error e, t) => E e t

variable {Q R : α → σ → Prop} {E F : ε → σ → Prop} {s : σ}

@[simp] theorem wp_pure (a : α) : wp (pure a : Program σ ε α) Q E s ↔ Q a s := Iff.rfl

@[simp] theorem wp_bind (p : Program σ ε α) (f : α → Program σ ε β) {Q : β → σ → Prop} :
    wp (p >>= f) Q E s ↔ wp p (fun a t ↦ wp (f a) Q E t) E s := by
  simp only [wp, bind, Program.bind]
  split
  · rename_i a t h
    split at h <;> simp_all
  · rename_i e t h
    split at h <;> simp_all

@[simp] theorem wp_raise (e : ε) : wp (raise e : Program σ ε α) Q E s ↔ E e s := Iff.rfl

@[simp] theorem wp_handle (p : Program σ ε α) (h : ε → Program σ ε α) :
    wp (handle p h) Q E s ↔ wp p Q (fun e t ↦ wp (h e) Q E t) s := by
  simp only [wp, handle]
  split
  · rename_i a t heq
    split at heq <;> simp_all
  · rename_i e t heq
    split at heq <;> simp_all

@[simp] theorem wp_state {Q : σ → σ → Prop} : wp (state : Program σ ε σ) Q E s ↔ Q s s := Iff.rfl

@[simp] theorem wp_change (f : σ → σ) {Q : Unit → σ → Prop} :
    wp (change f : Program σ ε Unit) Q E s ↔ Q () (f s) := Iff.rfl

@[simp] theorem wp_ite (c : Prop) [Decidable c] (p q : Program σ ε α) :
    wp (if c then p else q) Q E s ↔ (c → wp p Q E s) ∧ (¬ c → wp q Q E s) := by
  by_cases h : c <;> simp [h]

@[simp] theorem wp_onlyIf (c : Prop) [Decidable c] (p : Program σ ε Unit)
    {Q : Unit → σ → Prop} :
    wp (onlyIf c p) Q E s ↔ (c → wp p Q E s) ∧ (¬ c → Q () s) := wp_ite c p (pure ())

theorem wp.mono {p : Program σ ε α} (h : wp p R F s) (hQ : ∀ a t, R a t → Q a t)
    (hE : ∀ e t, F e t → E e t) : wp p Q E s := by
  unfold wp at h ⊢
  split at h
  · exact hQ _ _ h
  · exact hE _ _ h

theorem wp.and {p : Program σ ε α} (h : wp p Q E s) (h' : wp p R F s) :
    wp p (fun a t ↦ Q a t ∧ R a t) (fun e t ↦ E e t ∧ F e t) s := by
  unfold wp at h h' ⊢
  split
  · rename_i heq
    rw [heq] at h h'
    exact ⟨h, h'⟩
  · rename_i heq
    rw [heq] at h h'
    exact ⟨h, h'⟩

/-- A program that may raise anything anywhere. -/
theorem wp_of_forall (p : Program σ ε α) (h : ∀ a t, Q a t) : wp p Q (fun _ _ ↦ True) s := by
  unfold wp
  split
  · exact h _ _
  · trivial

/-- What the weakest precondition says about a run. -/
theorem wp_iff {p : Program σ ε α} :
    wp p Q E s ↔ (∀ a t, p.run s = (.ok a, t) → Q a t) ∧
      ∀ e t, p.run s = (.error e, t) → E e t := by
  unfold wp run
  split
  · rename_i a t h
    simp [h]
  · rename_i e t h
    simp [h]

/-! ## Relations that a program stays in -/

/-- However `p` ends, its end is related to its start. -/
def Within (R : σ → σ → Prop) (p : Program σ ε α) : Prop :=
  ∀ s, wp p (fun _ t ↦ R s t) (fun _ t ↦ R s t) s

section Within

variable {R : σ → σ → Prop} [Std.Refl R] [IsTrans σ R]

theorem within_pure (a : α) : Within R (pure a : Program σ ε α) := fun s ↦ Std.Refl.refl s

theorem within_raise (e : ε) : Within R (raise e : Program σ ε α) := fun s ↦ Std.Refl.refl s

theorem Within.bind {p : Program σ ε α} {f : α → Program σ ε β} (hp : Within R p)
    (hf : ∀ a, Within R (f a)) : Within R (p >>= f) := by
  intro s
  rw [wp_bind]
  refine (hp s).mono (fun a t hst ↦ ?_) (fun _ _ hst ↦ hst)
  exact (hf a t).mono (fun _ u htu ↦ IsTrans.trans s t u hst htu)
    fun _ u htu ↦ IsTrans.trans s t u hst htu

theorem Within.handle {p : Program σ ε α} {h : ε → Program σ ε α} (hp : Within R p)
    (hh : ∀ e, Within R (h e)) : Within R (handle p h) := by
  intro s
  rw [wp_handle]
  refine (hp s).mono (fun _ _ hst ↦ hst) (fun e t hst ↦ ?_)
  exact (hh e t).mono (fun _ u htu ↦ IsTrans.trans s t u hst htu)
    fun _ u htu ↦ IsTrans.trans s t u hst htu

theorem within_ite {c : Prop} [Decidable c] {p q : Program σ ε α} (hp : Within R p)
    (hq : Within R q) : Within R (if c then p else q) := by
  split
  · exact hp
  · exact hq

theorem within_onlyIf {c : Prop} [Decidable c] {p : Program σ ε Unit} (hp : Within R p) :
    Within R (onlyIf c p) :=
  within_ite hp (within_pure ())

end Within

theorem within_change {R : σ → σ → Prop} {f : σ → σ} (h : ∀ s, R s (f s)) :
    Within R (change f : Program σ ε Unit) := h

end Program
