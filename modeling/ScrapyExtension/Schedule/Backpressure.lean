import Mathlib.Data.List.Chain
import Mathlib.Tactic

/-!
# The backpressure gate

`next_request` looks up the depth of the queue before it pops. At a depth of `_pause_at` the gate is
paused, and until the depth is down to `_resume_at` every other call returns `None` without a `pop`: the
calls between them pop, so that a consumer that is alone can lower the depth itself.

A lookup that fails with a `QueueError` or a `NotImplementedError` is skipped, and the call pops. Any other
exception of the lookup leaves the `try` statement of the gate for the one around it, whose handlers are
those of `pop`: a `SerializationError`, a `BackendConnectionError` or a `CircuitBreakerOpenError` becomes a
call that returns `None`, and the queue is not popped. `has_pending_requests` does not make this
difference, and the comments of the gate do not either.

So the calls alternate exactly when no lookup fails in one of these three ways (`backpressure_gate`).
-/

namespace ScrapyExtension

namespace Backpressure

/-- An exception, by the handlers that catch it. -/
inductive Failure
  | queueError
  | notImplementedError
  | serializationError
  | backendConnectionError
  | circuitBreakerOpenError
  | other
deriving DecidableEq, Repr

/-- The arguments of the scheduler. -/
structure Config where
  /-- `backpressure_pause_at` -/
  pauseAt : Option ℤ
  /-- `backpressure_resume_at` -/
  resumeAt : Option ℤ
deriving DecidableEq, Repr

/-- The state of the gate. -/
structure Gate where
  /-- `_backpressure_paused` -/
  paused : Bool
  /-- `_backpressure_probe_due` -/
  probeDue : Bool
deriving DecidableEq, Repr

/-- What a call of `next_request` comes to. -/
structure Reply (ρ : Type*) where
  /-- What the call returns or raises. -/
  returned : Except Failure (Option ρ)
  /-- Whether the queue was popped. -/
  polled : Bool
  /-- The counters that are increased. -/
  stats : List String
  /-- The error that is logged. -/
  logged : Option String
deriving Repr

section Definitions

variable {ρ : Type*}

/-- The outer handlers of `next_request`; an exception without a message leaves the call. -/
def fallbackDiagnostic : Failure → Option (String × Option String)
  | .serializationError =>
    some ("Failed to deserialize queued request", some "scheduler/deserialization_errors")
  | .queueError => some ("Failed to get next request", none)
  | .backendConnectionError => some ("Failed to get next request", none)
  | .circuitBreakerOpenError => some ("Failed to get next request", none)
  | .notImplementedError => none
  | .other => none

/-- The end of a call in which an exception came to the outer handlers. -/
def Reply.fallback (polled : Bool) (stats : List String) (e : Failure) : Reply ρ :=
  match fallbackDiagnostic e with
  | none => ⟨.error e, polled, stats, none⟩
  | some (message, stat) => ⟨.ok none, polled, stats ++ stat.toList, some message⟩

/-- The part of a call behind the gate. -/
def Reply.pop (stats : List String) : Except Failure (Option ρ) → Reply ρ
  | .ok none => ⟨.ok none, true, stats, none⟩
  | .ok (some request) => ⟨.ok (some request), true, stats ++ ["scheduler/dequeued"], none⟩
  | .error e => .fallback true stats e

/-- `return None`, from the gate. -/
def Reply.pause (stats : List String) : Reply ρ := ⟨.ok none, false, stats, none⟩

/-- `next_request` of an open scheduler, for what `len(queue)` and `queue.pop` do. -/
def nextRequest (c : Config) (g : Gate) (depth : Except Failure ℤ) (pop : Except Failure (Option ρ)) :
    Gate × Reply ρ :=
  match c.pauseAt with
  | none => (g, .pop [] pop)
  | some pauseAt =>
    match depth with
    | .error .queueError => (g, .pop [] pop)
    | .error .notImplementedError => (g, .pop [] pop)
    | .error e => (g, .fallback false [] e)
    | .ok depth =>
      let resumeAt := c.resumeAt.getD pauseAt
      if ¬ g.paused ∧ depth ≥ pauseAt then (⟨true, true⟩, .pause ["scheduler/backpressure_pause"])
      else if g.paused then
        if depth ≤ resumeAt then (⟨false, false⟩, .pop ["scheduler/backpressure_resume"] pop)
        else if g.probeDue then ({ g with probeDue := false }, .pop [] pop)
        else ({ g with probeDue := true }, .pause [])
      else (g, .pop [] pop)

/-- The queue was not popped, and no exception says so. -/
def Reply.Suppressed (r : Reply ρ) : Prop := r.polled = false ∧ ∃ request, r.returned = .ok request

/-- A call within a run. -/
structure Step (ρ : Type*) where
  before : Gate
  depth : Except Failure ℤ
  after : Gate
  reply : Reply ρ

/-- The calls of a run, for what the lookups and the pops do. -/
def run (c : Config) : Gate → List (Except Failure ℤ × Except Failure (Option ρ)) → List (Step ρ)
  | _, [] => []
  | g, (depth, pop) :: polls =>
    let result := nextRequest c g depth pop
    ⟨g, depth, result.1, result.2⟩ :: run c result.1 polls

/-- The promises of the gate. -/
structure Regular (c : Config) (steps : List (Step ρ)) : Prop where
  alternate : steps.IsChain fun s t ↦ ¬ (s.reply.Suppressed ∧ t.reply.Suppressed)
  pause : ∀ s ∈ steps, s.before.paused = false → s.after.paused = true →
    ∃ pauseAt depth, c.pauseAt = some pauseAt ∧ s.depth = .ok depth ∧ pauseAt ≤ depth
  resume : ∀ s ∈ steps, s.before.paused = true → s.after.paused = false →
    ∃ pauseAt depth, c.pauseAt = some pauseAt ∧ s.depth = .ok depth ∧ depth ≤ c.resumeAt.getD pauseAt
  failed : ∀ s ∈ steps, ∀ e, s.depth = .error e → s.after = s.before

/-- The lookup fails, and the outer handlers make `None` of it. -/
def Failure.Swallowed (e : Failure) : Prop :=
  e ≠ .queueError ∧ fallbackDiagnostic e ≠ none

end Definitions

variable {ρ : Type*} {c : Config} {g : Gate} {depth : Except Failure ℤ}
  {pop : Except Failure (Option ρ)} {pauseAt : ℤ}

@[simp] theorem polled_pop (stats : List String) (pop : Except Failure (Option ρ)) :
    (Reply.pop stats pop).polled = true := by
  rcases pop with e | _ | request
  · simp only [Reply.pop, Reply.fallback]
    split <;> rfl
  · rfl
  · rfl

theorem not_suppressed_pop (stats : List String) (pop : Except Failure (Option ρ)) :
    ¬ (Reply.pop stats pop).Suppressed := fun h ↦ by simp [Reply.Suppressed] at h

theorem suppressed_fallback_iff {e : Failure} :
    (Reply.fallback false [] e : Reply ρ).Suppressed ↔ fallbackDiagnostic e ≠ none := by
  rw [Reply.Suppressed, Reply.fallback]
  rcases fallbackDiagnostic e with _ | ⟨message, stat⟩ <;> simp

/-! ## One call -/

theorem nextRequest_of_none (h : c.pauseAt = none) : nextRequest c g depth pop = (g, .pop [] pop) := by
  rw [nextRequest, h]

/-- A lookup that fails. -/
theorem nextRequest_error (h : c.pauseAt = some pauseAt) (e : Failure) :
    nextRequest c g (.error e) pop =
      (g, if e = .queueError ∨ e = .notImplementedError then .pop [] pop else .fallback false [] e) := by
  rw [nextRequest, h]
  rcases e <;> rfl

/-- A lookup that does not fail: the gate is paused, resumed, or stays as it is but for the probe. -/
theorem nextRequest_ok_cases (h : c.pauseAt = some pauseAt) (depth : ℤ) (pop : Except Failure (Option ρ)) :
    (g.paused = false ∧ pauseAt ≤ depth ∧ nextRequest c g (.ok depth) pop =
      (⟨true, true⟩, .pause ["scheduler/backpressure_pause"])) ∨
    (g.paused = false ∧ nextRequest c g (.ok depth) pop = (g, .pop [] pop)) ∨
    (g.paused = true ∧ depth ≤ c.resumeAt.getD pauseAt ∧ nextRequest c g (.ok depth) pop =
      (⟨false, false⟩, .pop ["scheduler/backpressure_resume"] pop)) ∨
    (g = ⟨true, true⟩ ∧ nextRequest c g (.ok depth) pop = (⟨true, false⟩, .pop [] pop)) ∨
    (g = ⟨true, false⟩ ∧ nextRequest c g (.ok depth) pop = (⟨true, true⟩, .pause [])) := by
  rcases g with ⟨_ | _, probeDue⟩
  · by_cases hdepth : pauseAt ≤ depth
    · exact .inl ⟨rfl, hdepth, by simp [nextRequest, h, hdepth]⟩
    · exact .inr (.inl ⟨rfl, by simp [nextRequest, h, hdepth]⟩)
  · by_cases hdepth : depth ≤ c.resumeAt.getD pauseAt
    · exact .inr (.inr (.inl ⟨rfl, hdepth, by simp [nextRequest, h, hdepth]⟩))
    · rcases probeDue with _ | _
      · exact .inr (.inr (.inr (.inr ⟨rfl, by simp [nextRequest, h, hdepth]⟩)))
      · exact .inr (.inr (.inr (.inl ⟨rfl, by simp [nextRequest, h, hdepth]⟩)))

/-- The calls in which no lookup is swallowed. -/
def Clear (c : Config) (depth : Except Failure ℤ) : Prop :=
  c.pauseAt = none ∨ ∀ e, depth = .error e → ¬ e.Swallowed

/-- A call is suppressed by the gate, if it is not one that the gate owes a probe, and the next one is. -/
theorem Reply.Suppressed.gate (h : (nextRequest c g depth pop).2.Suppressed) (hclear : Clear c depth) :
    g ≠ ⟨true, true⟩ ∧ (nextRequest c g depth pop).1 = ⟨true, true⟩ := by
  rcases hpause : c.pauseAt with _ | pauseAt
  · rw [nextRequest_of_none hpause] at h
    exact absurd h (not_suppressed_pop [] pop)
  rcases depth with e | depth
  · have hnot := hclear.resolve_left (by simp [hpause]) e rfl
    rw [nextRequest_error hpause] at h
    split_ifs at h with hskip
    · exact absurd h (not_suppressed_pop [] pop)
    · exact absurd ⟨fun heq ↦ hskip (.inl heq), suppressed_fallback_iff.mp h⟩ hnot
  · obtain ⟨hg, -, heq⟩ | ⟨-, heq⟩ | ⟨-, -, heq⟩ | ⟨-, heq⟩ | ⟨rfl, heq⟩ :=
      @nextRequest_ok_cases ρ c g pauseAt hpause depth pop
    · rw [heq]
      exact ⟨fun hdue ↦ by simp [hdue] at hg, rfl⟩
    · rw [heq] at h
      exact absurd h (not_suppressed_pop _ pop)
    · rw [heq] at h
      exact absurd h (not_suppressed_pop _ pop)
    · rw [heq] at h
      exact absurd h (not_suppressed_pop _ pop)
    · rw [heq]
      exact ⟨by simp, rfl⟩

/-- A lookup that fails leaves the gate as it is. -/
theorem gate_error (c : Config) (g : Gate) (e : Failure) (pop : Except Failure (Option ρ)) :
    (nextRequest c g (.error e) pop).1 = g := by
  rcases hpause : c.pauseAt with _ | pauseAt
  · rw [nextRequest_of_none hpause]
  · rw [nextRequest_error hpause]

/-- The gate is switched at a depth that is on the side of its threshold. -/
theorem paused_cases (h : (nextRequest c g depth pop).1.paused ≠ g.paused) :
    ∃ pauseAt n, c.pauseAt = some pauseAt ∧ depth = .ok n ∧
      ((g.paused = false ∧ pauseAt ≤ n) ∨ (g.paused = true ∧ n ≤ c.resumeAt.getD pauseAt)) := by
  rcases hpause : c.pauseAt with _ | pauseAt
  · rw [nextRequest_of_none hpause] at h
    exact absurd rfl h
  rcases depth with e | n
  · rw [gate_error] at h
    exact absurd rfl h
  · refine ⟨pauseAt, n, rfl, rfl, ?_⟩
    obtain ⟨hg, hn, -⟩ | ⟨-, heq⟩ | ⟨hg, hn, -⟩ | ⟨rfl, heq⟩ | ⟨rfl, heq⟩ :=
      @nextRequest_ok_cases ρ c g pauseAt hpause n pop
    · exact .inl ⟨hg, hn⟩
    · exact absurd (by rw [heq]) h
    · exact .inr ⟨hg, hn⟩
    · exact absurd (by rw [heq]) h
    · exact absurd (by rw [heq]) h

/-! ## Runs -/

/-- One more call in front. -/
theorem Regular.cons {polls : List (Except Failure ℤ × Except Failure (Option ρ))}
    (hclear : ∀ p ∈ (depth, pop) :: polls, Clear c p.1)
    (h : Regular c (run c (nextRequest c g depth pop).1 polls)) :
    Regular c (run c g ((depth, pop) :: polls)) := by
  rw [run]
  constructor
  · refine List.isChain_cons.mpr ⟨fun t ht ⟨hs, ht'⟩ ↦ ?_, h.alternate⟩
    rcases polls with _ | ⟨⟨depth', pop'⟩, polls⟩
    · simp [run] at ht
    · obtain rfl : _ = t := by simpa [run] using ht
      obtain ⟨-, hdue⟩ := Reply.Suppressed.gate hs (hclear _ List.mem_cons_self)
      have hsecond : Clear c depth' := hclear (depth', pop') (List.mem_cons_of_mem _ List.mem_cons_self)
      exact (Reply.Suppressed.gate ht' hsecond).1 hdue
  · refine List.forall_mem_cons.mpr ⟨fun hbefore hafter ↦ ?_, h.pause⟩
    obtain ⟨pauseAt, n, hpause, hdepth, ⟨-, hn⟩ | ⟨hg, -⟩⟩ :=
      @paused_cases ρ c g depth pop fun heq ↦ by simp [heq.symm.trans hafter] at hbefore
    · exact ⟨pauseAt, n, hpause, hdepth, hn⟩
    · exact absurd (hbefore.symm.trans hg) Bool.false_ne_true
  · refine List.forall_mem_cons.mpr ⟨fun hbefore hafter ↦ ?_, h.resume⟩
    obtain ⟨pauseAt, n, hpause, hdepth, ⟨hg, -⟩ | ⟨-, hn⟩⟩ :=
      @paused_cases ρ c g depth pop fun heq ↦ by simp [heq.symm.trans hafter] at hbefore
    · exact absurd (hg.symm.trans hbefore) Bool.false_ne_true
    · exact ⟨pauseAt, n, hpause, hdepth, hn⟩
  · refine List.forall_mem_cons.mpr ⟨fun e he ↦ ?_, h.failed⟩
    obtain rfl : depth = .error e := he
    exact gate_error c g e pop

theorem regular_run (g : Gate) (polls : List (Except Failure ℤ × Except Failure (Option ρ)))
    (hclear : ∀ p ∈ polls, Clear c p.1) : Regular c (run c g polls) := by
  induction polls generalizing g with
  | nil => constructor <;> simp [run]
  | cons p polls ih => exact .cons hclear (ih _ fun q hq ↦ hclear q (List.mem_cons_of_mem p hq))

/-- Two swallowed lookups. -/
theorem not_regular_of_swallowed {e : Failure} (hpause : c.pauseAt = some pauseAt) (he : e.Swallowed)
    (hskip : e ≠ .notImplementedError) (g : Gate) (pop : Except Failure (Option ρ)) :
    ¬ Regular c (run c g [(.error e, pop), (.error e, pop)]) := by
  intro h
  have hreply : nextRequest c g (.error e) pop = (g, .fallback false [] e) := by
    rw [nextRequest_error hpause, if_neg]
    rintro (heq | heq)
    · exact he.1 heq
    · exact hskip heq
  have hchain := h.alternate
  simp only [run, hreply, List.isChain_cons_cons] at hchain
  exact hchain.1 ⟨suppressed_fallback_iff.mpr he.2, suppressed_fallback_iff.mpr he.2⟩

/-- **The backpressure gate.** For the exceptions that the lookups of a run may raise: every run keeps the
promises of the gate exactly when the gate is disabled, or the outer handlers swallow none of these
exceptions but `QueueError`. -/
theorem backpressure_gate (c : Config) (g : Gate) (raised : Failure → Prop) :
    (∀ polls : List (Except Failure ℤ × Except Failure (Option ρ)),
      (∀ p ∈ polls, ∀ e, p.1 = .error e → raised e) → Regular c (run c g polls)) ↔
    c.pauseAt = none ∨ ∀ e, raised e → ¬ e.Swallowed := by
  constructor
  · intro h
    rcases hpause : c.pauseAt with _ | pauseAt
    · exact .inl rfl
    · refine .inr fun e he hswallowed ↦ ?_
      have hskip : e ≠ .notImplementedError := by
        rintro rfl
        exact hswallowed.2 rfl
      refine not_regular_of_swallowed hpause hswallowed hskip g (.ok none) (h _ ?_)
      simp only [List.mem_cons, List.not_mem_nil, or_false, or_self]
      rintro p rfl e' heq
      exact Except.error.inj heq ▸ he
  · rintro h polls hraised
    refine regular_run g polls fun p hp ↦ h.imp_right fun hclear e he ↦ ?_
    exact hclear e (hraised p hp e he)

/-- The connection fails during two lookups: neither call pops the queue. -/
theorem gate_stalls : ¬ Regular ⟨some 10, none⟩ (run ⟨some 10, none⟩ ⟨false, false⟩
    [(.error .backendConnectionError, .ok (some ())), (.error .backendConnectionError, .ok (some ()))]) := by
  refine not_regular_of_swallowed rfl ⟨by decide, by decide⟩ (by decide) _ _

end Backpressure

end ScrapyExtension
