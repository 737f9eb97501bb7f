import ScrapyExtension.Queue.HandOver
import ScrapyExtension.Schedule.Enqueue

/-!
# The commit order of an enqueue

Whatever happens in `enqueue_request`, a marker follows the push that it stands for, a failed call
leaves neither a marker nor a reservation, and only a terminal rejection returns `False`.

The push touches nothing that the handlers read (`Calm`). The `try` suite ends in one of a few ways
(`Ended`, `Interrupted`), and each handler is followed from there.
-/

namespace ScrapyExtension

namespace Enqueue

open Program

/-! ## The push of either queue -/

variable (token : Bool)

theorem calm_pushTo (queue : Queue) : Within Calm (pushTo token queue) := by
  cases queue with
  | bundled q => exact (calm_pushWithDurability token q).bind fun _ ↦ within_pure _
  | custom raised accepted =>
    refine (within_onlyIf (calm_emit (e := .accepted) trivial)).bind fun _ ↦ ?_
    exact (calm_call _).bind fun _ ↦ within_pure _

/-- A queue of the package. -/
def Queue.Bundled : Queue → Prop
  | .bundled _ => True
  | .custom _ _ => False

/-- A push that returns was accepted. A bundled queue returns a source's replacement only when it is
durable, and has then settled the source. -/
structure Handed (queue : Queue) (token : Bool) (durable : Option Bool) (w : World) : Prop where
  accepted : .accepted ∈ w.trace
  durable : queue.Bundled → token = true → durable = some true
  source : queue.Bundled → token = true → .sourceAck ∈ w.trace

theorem Handed.mono {queue : Queue} {durable : Option Bool} {w w' : World} {l : List Effect}
    (h : Handed queue token durable w) (hl : w'.trace = w.trace ++ l) :
    Handed queue token durable w' := by
  refine ⟨?_, h.durable, fun hb ht ↦ ?_⟩
  · rw [hl]
    exact List.mem_append_left _ h.accepted
  · rw [hl]
    exact List.mem_append_left _ (h.source hb ht)

theorem wp_pushTo (queue : Queue) (s : World) :
    wp (pushTo token queue) (fun durable t ↦ Handed queue token durable t) (fun _ _ ↦ True) s := by
  cases queue with
  | bundled q =>
    unfold pushTo
    rw [wp_bind]
    refine (wp_pushWithDurability token q s).mono (fun durable t h ↦ ?_) fun _ _ h ↦ h
    exact ⟨h.accepted, fun _ ht ↦ congrArg some (h.durable ht), fun _ ht ↦ h.source ht⟩
  | custom raised accepted =>
    unfold pushTo
    rw [wp_bind, wp_onlyIf]
    cases raised with
    | none => exact ⟨fun _ ↦ ⟨by simp, False.elim, False.elim⟩, fun h ↦ absurd (.inr rfl) h⟩
    | some e => exact ⟨fun _ ↦ trivial, fun _ ↦ trivial⟩

/-- A push with its records, from `s` on, the last of which is `last`. -/
structure Observed (s : World) (last : Effect) (w : World) : Prop where
  phasePush : w.phasePush = s.phasePush
  reservation : w.reservation = s.reservation
  intent : w.intent = s.intent
  reserved : w.reserved = s.reserved
  trace : ∃ l : List Effect, (∀ e ∈ l, e.OfPush) ∧ w.trace = s.trace ++ .pushCalled :: l ++ [last]

theorem Calm.observed {s w : World} {last : Effect}
    (h : Calm { s with trace := s.trace ++ [.pushCalled] } w) :
    Observed s last { w with trace := w.trace ++ [last] } := by
  obtain ⟨l, hl, hw⟩ := h.trace
  refine ⟨h.phasePush, h.reservation, h.intent, h.reserved, l, hl, ?_⟩
  simp only [hw, List.append_assoc, List.cons_append, List.nil_append]

theorem wp_observed {p : Act (Option Bool)} {Q : Option Bool → World → Prop} (hp : Within Calm p)
    (hQ : ∀ s, wp p Q (fun _ _ ↦ True) s) (s : World) :
    wp (observed p) (fun durable t ↦ Observed s (.pushReturned durable) t ∧
      ∃ u, Q durable u ∧ t.trace = u.trace ++ [.pushReturned durable])
      (fun e t ↦ Observed s (.pushRaised e) t) s := by
  unfold observed emit
  rw [wp_bind, wp_change, wp_bind, wp_handle]
  refine ((hp _).and (hQ _)).mono (fun durable u hu ↦ ?_) fun e u hu ↦ ?_
  · rw [wp_bind, wp_change]
    exact ⟨hu.1.observed, u, hu.2, rfl⟩
  · rw [wp_bind, wp_change]
    exact hu.1.observed

theorem wp_pushQueueWithDurability (queue : Queue) (s : World) :
    wp (pushQueueWithDurability token queue) (fun durable t ↦
      Observed s (.pushReturned durable) t ∧ Handed queue token durable t)
      (fun e t ↦ Observed s (.pushRaised e) t) s := by
  refine (wp_observed (calm_pushTo token queue) (wp_pushTo token queue) s).mono
    (fun durable t ht ↦ ?_) fun _ _ h ↦ h
  obtain ⟨ho, u, hu, htu⟩ := ht
  exact ⟨ho, hu.mono token htu⟩

theorem wp_pushQueue (queue : Queue) (s : World) :
    wp (pushQueue token queue) (fun durable t ↦ Observed s (.pushReturned durable) t)
      (fun e t ↦ Observed s (.pushRaised e) t) s := by
  refine (wp_observed (Q := fun _ _ ↦ True) ?_ (fun _ ↦ wp_of_forall _ fun _ _ ↦ trivial) s).mono
    (fun _ _ h ↦ h.1) fun _ _ h ↦ h
  exact (calm_pushTo token queue).bind fun _ ↦ within_pure _

/-! ## The `try` suite -/

/-- What the end of a reservation may record after a push with the given durability. -/
def Marked (durable : Option Bool) (m : List Effect) : Prop :=
  m = [] ∨ (m = [.persistentMarker] ∧ durable = some true) ∨
    (m = [.volatileMarker] ∧ durable ≠ some true)

/-- The reservation came to an end, or process control interrupted that. -/
structure Finished (durable : Option Bool) (w w' : World) : Prop where
  phasePush : w'.phasePush = w.phasePush
  intent : w'.intent = w.intent
  trace : ∃ m, Marked durable m ∧ w'.trace = w.trace ++ m

variable (env : Env)

theorem wp_commitReservation (f : Finish) (s : World) :
    wp (commitReservation f) (fun _ t ↦ Finished (some true) s t)
      (fun _ t ↦ Finished (some true) s t) s := by
  have unmarked : ∀ b, Finished (some true) s { s with reserved := b } :=
    fun b ↦ ⟨rfl, rfl, [], .inl rfl, by simp⟩
  have marked : Finished (some true) s
      { s with trace := s.trace ++ [.persistentMarker], reserved := false } :=
    ⟨rfl, rfl, [.persistentMarker], .inr (.inl ⟨rfl, rfl⟩), rfl⟩
  cases f with
  | notAdmitted => exact unmarked false
  | interrupted => exact unmarked s.reserved
  | admitted add telemetry =>
    unfold commitReservation
    rw [wp_bind]
    refine wp.mono (R := fun _ t ↦ Finished (some true) s t)
      (F := fun _ t ↦ Finished (some true) s t) ?_ (fun _ t ht ↦ wp_call ht) fun _ _ h ↦ h
    cases add with
    | added => exact marked
    | present => exact unmarked false
    | filterFull => exact unmarked false
    | backendError written =>
      unfold publish
      rw [wp_bind, wp_onlyIf]
      exact ⟨fun _ ↦ marked, fun _ ↦ unmarked false⟩
    | raised e written =>
      unfold publish
      rw [wp_bind, wp_onlyIf]
      exact ⟨fun _ ↦ marked, fun _ ↦ unmarked false⟩

theorem wp_commitVolatileReservation {durable : Option Bool} (hd : durable ≠ some true) (f : Finish)
    (s : World) :
    wp (commitVolatileReservation f) (fun _ t ↦ Finished durable s t)
      (fun _ t ↦ Finished durable s t) s := by
  cases f with
  | notAdmitted => exact ⟨rfl, rfl, [], .inl rfl, by simp⟩
  | interrupted => exact ⟨rfl, rfl, [], .inl rfl, by simp⟩
  | admitted add telemetry =>
    refine wp_call (s := { s with trace := s.trace ++ [.volatileMarker], reserved := false }) ?_
    exact ⟨rfl, rfl, [.volatileMarker], .inr (.inr ⟨rfl, hd⟩), rfl⟩

/-- A rollback has no say in the trace. It discards the reservation, unless process control comes
first. -/
structure RolledBack (rollback : Rollback) (w w' : World) : Prop where
  phasePush : w'.phasePush = w.phasePush
  intent : w'.intent = w.intent
  trace : w'.trace = w.trace
  keeps : w.reserved = false → w'.reserved = false
  reserved : rollback ≠ .interrupted → w'.reserved = false

theorem wp_rollbackReservation (rollback : Rollback) (s : World) :
    wp (rollbackReservation rollback) (fun _ t ↦ RolledBack rollback s t)
      (fun _ t ↦ RolledBack rollback s t) s := by
  cases rollback with
  | discarded telemetry =>
    exact wp_call (s := { s with reserved := false }) ⟨rfl, rfl, rfl, fun _ ↦ rfl, fun _ ↦ rfl⟩
  | interrupted => exact ⟨rfl, rfl, rfl, id, fun h ↦ absurd rfl h⟩

theorem wp_rollbackAtomicReservation (preservePrimary : Bool) (rollback : Rollback) (s : World) :
    wp (rollbackAtomicReservation preservePrimary rollback) (fun _ t ↦ RolledBack rollback s t)
      (fun e t ↦ e = .control ∧ RolledBack rollback s t) s := by
  unfold rollbackAtomicReservation
  rw [wp_handle]
  refine (wp_rollbackReservation rollback s).mono (fun _ _ h ↦ h) fun e t ht ↦ ?_
  rw [wp_ite, wp_pure, wp_raise]
  exact ⟨fun _ ↦ ht, fun he ↦ ⟨not_not.1 fun h ↦ he (.inl h), ht⟩⟩

theorem wp_finishReservation (durable : Option Bool) (s : World) :
    wp (finishReservation env durable) (fun _ t ↦ Finished durable s t)
      (fun e t ↦ e = .control ∧ Finished durable s t) s := by
  unfold finishReservation
  split
  · rename_i hd
    subst hd
    exact wp_quietly (wp_commitReservation env.finish s)
  · rename_i hd
    split
    · exact wp_quietly (wp_commitVolatileReservation hd env.finish s)
    · refine (wp_rollbackAtomicReservation false env.rollback s).mono (fun _ t ht ↦ ?_)
        fun e t ht ↦ ⟨ht.1, ?_⟩
      · exact ⟨ht.phasePush, ht.intent, [], .inl rfl, by simp [ht.trace]⟩
      · exact ⟨ht.2.phasePush, ht.2.intent, [], .inl rfl, by simp [ht.2.trace]⟩

/-- The trace of a push that returned, and of the end of its reservation. -/
def Story (durable : Option Bool) (t : List Effect) : Prop :=
  ∃ l m : List Effect, (∀ e ∈ l, e.OfPush) ∧ Marked durable m ∧
    t = .pushCalled :: l ++ .pushReturned durable :: m

/-- How the `try` suite returns. -/
inductive Ended : Bool → World → Prop
  /-- A duplicate that is not pushed. -/
  | duplicate (w : World)
      (hd : env.decision = .observational ∨ (env.decision = .seen ∧ env.token = false))
      (ht : w.trace = []) : Ended false w
  /-- The push returned. -/
  | pushed (w : World) (durable : Option Bool) (ht : Story durable w.trace)
      (hq : Handed env.queue env.token durable w) : Ended true w

/-- How the `try` suite raises. In each case the owner intent is still there. -/
inductive Interrupted (e : Exn) (w : World) : Prop
  /-- The duplicate filter raised. -/
  | dedup (hd : ¬ (env.decision = .seen ∧ env.token = true)) (ht : w.trace = [.dedupRaised e])
      (hp : w.phasePush = false) (hi : w.intent = true)
  /-- The push raised. -/
  | push (l : List Effect) (hl : ∀ e ∈ l, e.OfPush)
      (ht : w.trace = .pushCalled :: l ++ [.pushRaised e])
      (hp : w.phasePush = true) (hi : w.intent = true)
  /-- Process control interrupted the end of the reservation. -/
  | finish (he : e = .control) (durable : Option Bool) (ht : Story durable w.trace)
      (ha : .accepted ∈ w.trace) (hi : w.intent = true)

/-- The part of the `try` suite from the push on. -/
theorem wp_attempt_push (d : Decision) (s : World) (ht : s.trace = []) (hp : s.phasePush = true)
    (hi : s.intent = true) :
    wp (do
      let durable ← pushQueueWithDurability env.token env.queue
      onlyIf (d = .unseen) do
        change fun w ↦ { w with reservation := false }
        finishReservation env durable
        change fun w ↦ { w with intent := false }
      pure true) (fun b w ↦ Ended env b w) (fun e w ↦ Interrupted env e w) s := by
  rw [wp_bind]
  refine (wp_pushQueueWithDurability env.token env.queue s).mono (fun durable t h ↦ ?_)
    fun e t h ↦ ?_
  · obtain ⟨ho, hq⟩ := h
    obtain ⟨l, hl, hlt⟩ := ho.trace
    rw [ht, List.nil_append] at hlt
    rw [wp_bind, wp_onlyIf]
    refine ⟨fun _ ↦ ?_, fun _ ↦ ?_⟩
    · rw [wp_bind, wp_change, wp_bind]
      refine (wp_finishReservation env durable _).mono (fun _ u hu ↦ ?_) fun e u hu ↦ ?_
      · obtain ⟨m, hm, hum⟩ := hu.trace
        refine .pushed _ durable ⟨l, m, hl, hm, ?_⟩ (hq.mono env.token hum)
        simp [hum, hlt]
      · obtain ⟨m, hm, hum⟩ := hu.2.trace
        refine .finish hu.1 durable ⟨l, m, hl, hm, ?_⟩ (hq.mono env.token hum).accepted ?_
        · simp [hum, hlt]
        · rw [hu.2.intent]
          exact ho.intent.trans hi
    · exact .pushed _ durable ⟨l, [], hl, .inl rfl, by simp [hlt]⟩ hq
  · obtain ⟨l, hl, hlt⟩ := h.trace
    exact .push l hl (by simp [hlt, ht]) (h.phasePush.trans hp) (h.intent.trans hi)

theorem wp_attempt :
    wp (attempt env) (fun b w ↦ Ended env b w) (fun e w ↦ Interrupted env e w) World.start := by
  unfold attempt consulting
  rw [wp_bind, wp_change, wp_bind, wp_handle]
  cases hd : env.decision with
  | observational => exact .duplicate _ (.inl hd) rfl
  | seen =>
    by_cases ht : env.token = false
    · simp only [requestSeenWithReservation, wp_pure, ht]
      cases hl : env.log with
      | none => exact .duplicate _ (.inr ⟨hd, ht⟩) rfl
      | some e => exact .dedup (by simp [ht]) rfl rfl rfl
    · have hn : ¬ (True ∧ env.token = false) := fun h ↦ ht h.2
      simp only [requestSeenWithReservation, wp_pure]
      rw [if_neg (by decide), if_neg hn]
      exact wp_attempt_push env .seen _ rfl rfl rfl
  | unseen => exact wp_attempt_push env .unseen _ rfl rfl rfl
  | unreserved => exact wp_attempt_push env .unreserved _ rfl rfl rfl
  | raised e left => exact .dedup (by simp [hd]) rfl rfl rfl

/-! ## The handlers -/

variable {env} {w : World}

theorem wp_compensate (hi : w.intent = true) :
    wp (compensate env) (fun _ t ↦ RolledBack env.rollback w t)
      (fun e t ↦ e = .control ∧ RolledBack env.rollback w t) w := by
  unfold compensate
  rw [wp_bind, wp_state, wp_onlyIf]
  exact ⟨fun _ ↦ wp_rollbackAtomicReservation false env.rollback w, fun h ↦ absurd (.inr hi) h⟩

/-- What a failed call leaves: its trace, and no reservation unless process control came before the
rollback. -/
structure Compensated (env : Env) (w w' : World) : Prop where
  trace : w'.trace = w.trace
  reserved : env.rollback ≠ .interrupted → w'.reserved = false

theorem RolledBack.compensated {w' : World} (h : RolledBack env.rollback w w') :
    Compensated env w w' :=
  ⟨h.trace, h.reserved⟩

theorem wp_cleanup (postCommit : Bool) (hi : w.intent = true) :
    wp (cleanup env postCommit) (fun _ t ↦ Compensated env w t)
      (fun _ t ↦ Compensated env w t) w := by
  have h := wp_rollbackReservation env.rollback w
  unfold cleanup
  rw [wp_bind, wp_state]
  cases postCommit with
  | true =>
    simp only [hi, if_true, wp_bind, wp_onlyIf, wp_change, not_true_eq_false, false_imp_iff,
      and_true, forall_const]
    exact h.mono (fun _ t ht ↦ ⟨ht.trace, ht.reserved⟩) fun _ t ht ↦ ht.compensated
  | false =>
    simp only [hi, if_true, Bool.false_eq_true, if_false]
    exact h.mono (fun _ t ht ↦ ht.compensated) fun _ t ht ↦ ht.compensated

theorem wp_onBaseException (e : Exn) (hi : w.intent = true) :
    wp (onBaseException env e) (fun _ _ ↦ False) (fun _ t ↦ Compensated env w t) w := by
  have hcleanup : ∀ (postCommit : Bool) (v : World), v.intent = true → v.trace = w.trace →
      wp (do
        handle (cleanup env postCommit) fun _ ↦ do
          let w ← state
          onlyIf w.intent (handle (rollbackReservation env.rollbackAgain) fun _ ↦ pure ())
        raise e) (fun (_ : Bool) _ ↦ False) (fun _ t ↦ Compensated env w t) v := by
    intro postCommit v hv htv
    rw [wp_bind, wp_handle]
    refine (wp_cleanup postCommit hv).mono (fun _ t ht ↦ ?_) fun _ t ht ↦ ?_
    · exact ⟨ht.trace.trans htv, ht.reserved⟩
    · have hagain : ∀ u, RolledBack env.rollbackAgain t u → Compensated env w u := by
        intro u hu
        exact ⟨hu.trace.trans (ht.trace.trans htv), fun h ↦ hu.keeps (ht.reserved h)⟩
      rw [wp_bind, wp_state, wp_onlyIf]
      refine ⟨fun _ ↦ ?_, fun _ ↦ ⟨ht.trace.trans htv, ht.reserved⟩⟩
      rw [wp_handle]
      exact (wp_rollbackReservation _ t).mono (fun _ u hu ↦ hagain u hu) fun _ u hu ↦ hagain u hu
  unfold onBaseException consumePostCommitPush
  rw [wp_bind, wp_bind, wp_state]
  cases env.queue with
  | bundled q => exact hcleanup _ _ hi rfl
  | custom raised accepted => exact hcleanup _ _ hi rfl

/-! ## The order -/

/-- The call failed before its push returned. -/
def Failed (t : List Effect) : Prop :=
  ∃ e, .dedupRaised e ∈ t ∨ .pushRaised e ∈ t

/-- What holds of every call, where `r` is its result and `w` the world after it. -/
structure Guarantees (env : Env) (r : Except Exn Bool) (w : World) : Prop where
  /-- A persistent marker follows a push that returned literal `True`. -/
  persistent : Precedes (· = .pushReturned (some true)) .persistentMarker w.trace
  /-- A volatile marker follows an accepted push that returned something else. -/
  volatile : Precedes (fun x ↦ ∃ d, d ≠ some true ∧ x = .pushReturned d) .volatileMarker w.trace ∧
    Precedes (· = .accepted) .volatileMarker w.trace
  /-- A failure before that leaves no marker, and no reservation unless process control interrupts
  the rollback itself. -/
  failed : Failed w.trace → .persistentMarker ∉ w.trace ∧ .volatileMarker ∉ w.trace ∧
    (env.rollback ≠ .interrupted → w.reserved = false)
  /-- `False` is for telemetry, for a duplicate without a source and for a serialization error. -/
  rejected : r = .ok false → env.decision = .observational ∨
    (env.decision = .seen ∧ env.token = false) ∨
    .pushRaised .serialization ∈ w.trace ∨ .dedupRaised .serialization ∈ w.trace
  /-- A duplicate with a source is pushed, and a bundled queue that returns has settled the
  source. -/
  pushed : env.decision = .seen → env.token = true → .pushCalled ∈ w.trace ∧
    (env.queue.Bundled → r = .ok true → .sourceAck ∈ w.trace)
  /-- Other failures of the push surface. -/
  surfaced : ∀ e, .pushRaised e ∈ w.trace → e ≠ .serialization → ∃ e', r = .error e'

/-- The guarantees of a call whose trace has no marker. -/
theorem Guarantees.of_unmarked {r : Except Exn Bool} (hp : .persistentMarker ∉ w.trace)
    (hv : .volatileMarker ∉ w.trace)
    (hr : Failed w.trace → env.rollback ≠ .interrupted → w.reserved = false)
    (rejected : r = .ok false → env.decision = .observational ∨
      (env.decision = .seen ∧ env.token = false) ∨
      .pushRaised .serialization ∈ w.trace ∨ .dedupRaised .serialization ∈ w.trace)
    (pushed : env.decision = .seen → env.token = true → .pushCalled ∈ w.trace ∧
      (env.queue.Bundled → r = .ok true → .sourceAck ∈ w.trace))
    (surfaced : ∀ e, .pushRaised e ∈ w.trace → e ≠ .serialization → ∃ e', r = .error e') :
    Guarantees env r w :=
  ⟨precedes_of_notMem hp, ⟨precedes_of_notMem hv, precedes_of_notMem hv⟩,
    fun hf ↦ ⟨hp, hv, hr hf⟩, rejected, pushed, surfaced⟩

/-- The guarantees of a call whose push returned. -/
theorem Guarantees.of_story {r : Except Exn Bool} {durable : Option Bool}
    (ht : Story durable w.trace) (ha : .accepted ∈ w.trace) (hr : r ≠ .ok false)
    (hs : env.token = true → env.queue.Bundled → r = .ok true → .sourceAck ∈ w.trace) :
    Guarantees env r w := by
  obtain ⟨l, m, hl, hm, hw⟩ := ht
  have hw' : w.trace = (.pushCalled :: l ++ [.pushReturned durable]) ++ m := by simp [hw]
  have head : ∀ e : Effect, ¬ e.OfPush → e ≠ .pushCalled → e ≠ .pushReturned durable →
      e ∉ Effect.pushCalled :: l ++ [.pushReturned durable] := by
    intro e he h₁ h₂
    simp [h₁, h₂, notMem_ofPush hl he]
  have hlast : Effect.pushReturned durable ∈ Effect.pushCalled :: l ++ [.pushReturned durable] := by
    simp
  have hfail : ¬ Failed w.trace := by
    rw [hw']
    rintro ⟨e, h | h⟩
    all_goals
      rcases List.mem_append.1 h with h | h
      · exact absurd h (head _ id nofun nofun)
      · rcases hm with rfl | ⟨rfl, -⟩ | ⟨rfl, -⟩ <;> simp at h
  refine ⟨?_, ⟨?_, ?_⟩, fun hf ↦ absurd hf hfail, fun h ↦ absurd h hr, ?_, ?_⟩
  · rw [hw']
    refine precedes_append (head _ id nofun nofun) fun h ↦ ⟨_, hlast, ?_⟩
    rcases hm with rfl | ⟨rfl, rfl⟩ | ⟨rfl, -⟩
    · simp at h
    · rfl
    · simp at h
  · rw [hw']
    refine precedes_append (head _ id nofun nofun) fun h ↦ ⟨_, hlast, ?_⟩
    rcases hm with rfl | ⟨rfl, -⟩ | ⟨rfl, hd⟩
    · simp at h
    · simp at h
    · exact ⟨durable, hd, rfl⟩
  · rw [hw'] at ha ⊢
    refine precedes_append (head _ id nofun nofun) fun h ↦ ⟨.accepted, ?_, rfl⟩
    rcases List.mem_append.1 ha with ha | ha
    · exact ha
    · rcases hm with rfl | ⟨rfl, -⟩ | ⟨rfl, -⟩ <;> simp at ha
  · intro _ hk
    exact ⟨by simp [hw], hs hk⟩
  · intro e he
    exact absurd ⟨e, .inr he⟩ hfail

/-- The guarantees of a call that ended where the push raised, or was compensated there. -/
theorem Guarantees.of_pushRaised {w' : World} {e : Exn} {l : List Effect} {r : Except Exn Bool}
    (hl : ∀ e ∈ l, e.OfPush) (ht : w.trace = .pushCalled :: l ++ [.pushRaised e])
    (hc : Compensated env w w') (hr : r ≠ .ok true) (hf : e ≠ .serialization → r ≠ .ok false) :
    Guarantees env r w' := by
  have hw : w'.trace = .pushCalled :: l ++ [.pushRaised e] := hc.trace.trans ht
  refine .of_unmarked ?_ ?_ (fun _ ↦ hc.reserved) (fun h ↦ ?_) (fun _ _ ↦ ?_) fun e' he' hne ↦ ?_
  · simp [hw, notMem_ofPush hl (e := .persistentMarker) id]
  · simp [hw, notMem_ofPush hl (e := .volatileMarker) id]
  · have he : e = .serialization := by
      by_contra he
      exact hf he h
    simp [hw, he]
  · exact ⟨by simp [hw], fun _ h ↦ absurd h hr⟩
  · have he : e' = e := by simpa [hw, notMem_ofPush hl (e := .pushRaised e') id] using he'
    subst he
    have hf := hf hne
    rcases r with e'' | (_ | _)
    · exact ⟨e'', rfl⟩
    · exact absurd rfl hf
    · exact absurd rfl hr

/-- The guarantees of a call whose duplicate filter raised, and that did not push. -/
theorem Guarantees.of_dedupRaised {w' : World} {e : Exn} {r : Except Exn Bool}
    (hd : ¬ (env.decision = .seen ∧ env.token = true)) (ht : w.trace = [.dedupRaised e])
    (hc : Compensated env w w') (hr : r = .ok false → e = .serialization) :
    Guarantees env r w' := by
  have hw : w'.trace = [.dedupRaised e] := hc.trace.trans ht
  refine .of_unmarked (by simp [hw]) (by simp [hw]) (fun _ ↦ hc.reserved) (fun h ↦ ?_)
    (fun h₁ h₂ ↦ absurd ⟨h₁, h₂⟩ hd) fun e' he' ↦ ?_
  · simp [hw, hr h]
  · simp [hw] at he'

/-- The guarantees of a call that pushed after its duplicate filter had raised. -/
theorem Guarantees.of_retry {w' w'' : World} {e : Exn} {last : Effect} {r : Except Exn Bool}
    (hd : ¬ (env.decision = .seen ∧ env.token = true)) (ht : w.trace = [.dedupRaised e])
    (hc : Compensated env w w') (ho : Observed w' last w'')
    (hlast : (∃ d, last = .pushReturned d ∧ r = .ok true) ∨
      ∃ e', last = .pushRaised e' ∧ (r = .ok false → e' = .serialization) ∧ r ≠ .ok true) :
    Guarantees env r w'' := by
  obtain ⟨l, hl, hw⟩ := ho.trace
  rw [hc.trace, ht] at hw
  have hmark : last ≠ .persistentMarker ∧ last ≠ .volatileMarker := by
    rcases hlast with ⟨d, rfl, -⟩ | ⟨e', rfl, -⟩ <;> exact ⟨nofun, nofun⟩
  refine .of_unmarked ?_ ?_ (fun _ h ↦ ?_) (fun h ↦ ?_) (fun h₁ h₂ ↦ absurd ⟨h₁, h₂⟩ hd)
    fun e' he' hne ↦ ?_
  · simp [hw, notMem_ofPush hl (e := .persistentMarker) id, hmark.1.symm]
  · simp [hw, notMem_ofPush hl (e := .volatileMarker) id, hmark.2.symm]
  · rw [ho.reserved]
    exact hc.reserved h
  · rcases hlast with ⟨d, -, hr⟩ | ⟨e', rfl, hr, -⟩
    · simp [h] at hr
    · simp [hw, hr h]
  · have he : last = .pushRaised e' := by
      simpa [hw, notMem_ofPush hl (e := .pushRaised e') id, eq_comm] using he'
    rcases hlast with ⟨d, rfl, -⟩ | ⟨e'', rfl, hr, hr'⟩
    · simp at he
    · obtain rfl : e'' = e' := by simpa using he
      rcases r with e | (_ | _)
      · exact ⟨e, rfl⟩
      · exact absurd (hr rfl) hne
      · exact absurd rfl hr'

theorem wp_onSerializationError (h : Interrupted env .serialization w) :
    wp (onSerializationError env) (fun b t ↦ Guarantees env (.ok b) t)
      (fun e t ↦ Guarantees env (.error e) t) w := by
  cases h with
  | dedup hd ht hp hi =>
    unfold onSerializationError
    rw [wp_bind]
    refine (wp_compensate hi).mono (fun _ t hc ↦ ?_) fun e t hc ↦ ?_
    · exact .of_dedupRaised hd ht hc.compensated fun _ ↦ rfl
    · exact .of_dedupRaised hd ht hc.2.compensated fun h ↦ nomatch h
  | push l hl ht hp hi =>
    unfold onSerializationError
    rw [wp_bind]
    refine (wp_compensate hi).mono (fun _ t hc ↦ ?_) fun e t hc ↦ ?_
    · exact .of_pushRaised hl ht hc.compensated nofun fun h ↦ absurd rfl h
    · exact .of_pushRaised hl ht hc.2.compensated nofun fun _ ↦ nofun
  | finish he durable ht ha hi => exact absurd he nofun

theorem wp_onBackendError (h : Interrupted env .backend w) :
    wp (onBackendError env) (fun b t ↦ Guarantees env (.ok b) t)
      (fun e t ↦ Guarantees env (.error e) t) w := by
  cases h with
  | dedup hd ht hp hi =>
    unfold onBackendError retryPush
    rw [wp_bind]
    refine (wp_compensate hi).mono (fun _ t hc ↦ ?_) fun e t hc ↦ ?_
    · rw [wp_bind, wp_state, if_neg (by simp [hc.phasePush, hp]), wp_handle, wp_bind]
      refine (wp_pushQueue env.token env.retry t).mono (fun durable u hu ↦ ?_) fun e u hu ↦ ?_
      · exact .of_retry hd ht hc.compensated hu (.inl ⟨durable, rfl, rfl⟩)
      · rw [wp_ite]
        refine ⟨fun he ↦ ?_, fun he ↦ ?_⟩
        · exact .of_retry hd ht hc.compensated hu (.inr ⟨e, rfl, fun _ ↦ he, nofun⟩)
        · exact .of_retry hd ht hc.compensated hu (.inr ⟨e, rfl, nofun, nofun⟩)
    · exact .of_dedupRaised hd ht hc.2.compensated fun h ↦ nomatch h
  | push l hl ht hp hi =>
    unfold onBackendError
    rw [wp_bind]
    refine (wp_compensate hi).mono (fun _ t hc ↦ ?_) fun e t hc ↦ ?_
    · rw [wp_bind, wp_state, if_pos (by simp [hc.phasePush, hp])]
      exact .of_pushRaised hl ht hc.compensated nofun fun _ ↦ nofun
    · exact .of_pushRaised hl ht hc.2.compensated nofun fun _ ↦ nofun
  | finish he durable ht ha hi => exact absurd he nofun

theorem guarantees_onBaseException {e : Exn} (h : Interrupted env e w) :
    wp (onBaseException env e) (fun b t ↦ Guarantees env (.ok b) t)
      (fun e t ↦ Guarantees env (.error e) t) w := by
  cases h with
  | dedup hd ht hp hi =>
    exact (wp_onBaseException e hi).mono (fun _ _ h ↦ h.elim) fun _ t hc ↦
      .of_dedupRaised hd ht hc fun h ↦ nomatch h
  | push l hl ht hp hi =>
    exact (wp_onBaseException e hi).mono (fun _ _ h ↦ h.elim) fun _ t hc ↦
      .of_pushRaised hl ht hc nofun fun _ ↦ nofun
  | finish he durable ht ha hi =>
    refine (wp_onBaseException e hi).mono (fun _ _ h ↦ h.elim) fun _ t hc ↦ ?_
    rw [← hc.trace] at ht ha
    exact .of_story ht ha nofun fun _ _ h ↦ nomatch h

/-- For every outcome at every step of `enqueue_request`. -/
theorem enqueueRequest_guarantees (env : Env) :
    Guarantees env ((enqueueRequest env).run World.start).1
      ((enqueueRequest env).run World.start).2 := by
  have h : wp (enqueueRequest env) (fun b t ↦ Guarantees env (.ok b) t)
      (fun e t ↦ Guarantees env (.error e) t) World.start := by
    unfold enqueueRequest
    rw [wp_handle]
    refine (wp_attempt env).mono (fun b t ht ↦ ?_) fun e t ht ↦ ?_
    · cases ht with
      | duplicate _ hd ht =>
        refine .of_unmarked (by simp [ht]) (by simp [ht]) (by simp [Failed, ht])
          (fun _ ↦ ?_) (fun h₁ h₂ ↦ ?_) (by simp [ht])
        · rcases hd with hd | hd
          · exact .inl hd
          · exact .inr (.inl hd)
        · simp [h₁, h₂] at hd
      | pushed _ durable ht hq =>
        exact .of_story ht hq.accepted nofun fun hk hb _ ↦ hq.source hb hk
    · cases e with
      | serialization => exact wp_onSerializationError ht
      | backend => exact wp_onBackendError ht
      | other => exact guarantees_onBaseException ht
      | control => exact guarantees_onBaseException ht
  rcases hr : (enqueueRequest env).run World.start with ⟨r, w⟩
  rw [wp_iff, hr] at h
  cases r with
  | ok b => exact h.1 b w rfl
  | error e => exact h.2 e w rfl

/-- A `DedupDecision` with `seen`. -/
def Decision.Seen (d : Decision) : Prop := d = .seen ∨ d = .observational

/-- Without the two reservations the guarantees fail: a request that a monitor callback hands in is a
duplicate with a source that is turned away, and process control can keep a rollback from
happening. -/
theorem enqueueRequest_not_strict :
    ¬ (∀ env, ((enqueueRequest env).run World.start).1 = .ok false →
      (env.decision.Seen ∧ env.token = false) ∨
      .pushRaised .serialization ∈ ((enqueueRequest env).run World.start).2.trace ∨
      .dedupRaised .serialization ∈ ((enqueueRequest env).run World.start).2.trace) ∧
    ¬ (∀ env, env.decision.Seen → env.token = true →
      .pushCalled ∈ ((enqueueRequest env).run World.start).2.trace) ∧
    ¬ (∀ env, Failed ((enqueueRequest env).run World.start).2.trace →
      ((enqueueRequest env).run World.start).2.reserved = false) := by
  refine ⟨fun h ↦ ?_, fun h ↦ ?_, fun h ↦ ?_⟩
  · have := h ⟨true, .observational, none, .bundled smoothPush, true, .admitted .added none,
      .discarded none, .discarded none, .bundled smoothPush⟩ (by decide)
    revert this
    simp only [Decision.Seen]
    decide
  · have := h ⟨true, .observational, none, .bundled smoothPush, true, .admitted .added none,
      .discarded none, .discarded none, .bundled smoothPush⟩ (.inr rfl) rfl
    revert this
    decide
  · have := h ⟨false, .unseen, none, .bundled { smoothPush with commit := .raised .backend false },
      true, .admitted .added none, .interrupted, .discarded none, .bundled smoothPush⟩
      ⟨.backend, .inr (by decide)⟩
    revert this
    decide

end Enqueue

end ScrapyExtension
