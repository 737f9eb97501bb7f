import ScrapyExtension.Queue.Push

/-!
# What a push hands over

A push that returns was accepted, and the replacement of a source delivery is settled at its source
only when the replacement is durable or invalid for good. The proofs follow the suite of the push
with weakest preconditions.

The scheduler needs one more thing of the push, that it touches nothing that the handlers of the
scheduler read (`Calm`).
-/

namespace ScrapyExtension

namespace Enqueue

open Program

/-! ## Traces -/

/-- Every `e` of the trace comes after something that meets `P`. -/
def Precedes (P : Effect → Prop) (e : Effect) (t : List Effect) : Prop :=
  ∀ pre post, t = pre ++ e :: post → ∃ x ∈ pre, P x

theorem precedes_of_notMem {P : Effect → Prop} {e : Effect} {t : List Effect} (h : e ∉ t) :
    Precedes P e t := by
  rintro pre post rfl
  exact absurd (by simp) h

theorem precedes_append {P : Effect → Prop} {e : Effect} {t m : List Effect} (h : e ∉ t)
    (hP : e ∈ m → ∃ x ∈ t, P x) : Precedes P e (t ++ m) := by
  intro pre post heq
  rcases List.append_eq_append_iff.1 heq with ⟨l, rfl, hm⟩ | ⟨l, rfl, hl⟩
  · obtain ⟨x, hx, hPx⟩ := hP (by rw [hm]; simp)
    exact ⟨x, List.mem_append_left _ hx, hPx⟩
  · cases l with
    | nil =>
      obtain ⟨x, hx, hPx⟩ := hP (by rw [← List.nil_append m, ← hl]; simp)
      exact ⟨x, by simpa using hx, hPx⟩
    | cons a l =>
      obtain ⟨rfl, -⟩ := List.cons.inj hl
      exact absurd (by simp) h

/-! ## Calls -/

theorem wp_quietly {p : Act Unit} {Q : World → Prop} {s : World}
    (h : wp p (fun _ t ↦ Q t) (fun _ t ↦ Q t) s) :
    wp (quietly p) (fun _ t ↦ Q t) (fun e t ↦ e = .control ∧ Q t) s := by
  unfold quietly
  rw [wp_handle]
  refine h.mono (fun _ _ ht ↦ ht) fun e t ht ↦ ?_
  rw [wp_ite, wp_pure, wp_raise]
  exact ⟨fun _ ↦ ht, fun he ↦ ⟨not_not.1 he, ht⟩⟩

theorem wp_call {Q : World → Prop} {e : Option Exn} {s : World} (h : Q s) :
    wp (call e) (fun _ t ↦ Q t) (fun _ t ↦ Q t) s := by
  cases e <;> exact h

/-- What comes before does not matter to a program that returns. -/
theorem wp_skip {α β : Type} {p : Act α} {f : α → Act β} {Q : β → World → Prop}
    (h : ∀ a t, wp (f a) Q (fun _ _ ↦ True) t) (s : World) :
    wp (p >>= f) Q (fun _ _ ↦ True) s := by
  rw [wp_bind]
  exact wp_of_forall p h

/-! ## What a push touches -/

/-- Records of the push. -/
def Effect.OfPush : Effect → Prop
  | .invalid | .heldLocally | .accepted | .durableReceipt | .sourceAck => True
  | _ => False

/-- The push has its own records only, and leaves the handlers' variables alone. -/
structure Calm (w w' : World) : Prop where
  phasePush : w'.phasePush = w.phasePush
  reservation : w'.reservation = w.reservation
  intent : w'.intent = w.intent
  reserved : w'.reserved = w.reserved
  trace : ∃ l : List Effect, (∀ e ∈ l, e.OfPush) ∧ w'.trace = w.trace ++ l

instance : Std.Refl Calm where
  refl _ := ⟨rfl, rfl, rfl, rfl, [], by simp, by simp⟩

instance : IsTrans World Calm where
  trans u v w huv hvw := by
    obtain ⟨l, hl, hul⟩ := huv.trace
    obtain ⟨m, hm, hvm⟩ := hvw.trace
    refine ⟨hvw.phasePush.trans huv.phasePush, hvw.reservation.trans huv.reservation,
      hvw.intent.trans huv.intent, hvw.reserved.trans huv.reserved, l ++ m, ?_, ?_⟩
    · intro e he
      rcases List.mem_append.1 he with he | he
      · exact hl e he
      · exact hm e he
    · rw [hvm, hul, List.append_assoc]

theorem Calm.mem {w w' : World} (h : Calm w w') {e : Effect} (he : e ∈ w.trace) :
    e ∈ w'.trace := by
  obtain ⟨l, -, hl⟩ := h.trace
  rw [hl]
  exact List.mem_append_left _ he

theorem calm_emit {e : Effect} (h : e.OfPush) : Within Calm (emit e) :=
  within_change fun _ ↦ ⟨rfl, rfl, rfl, rfl, [e], by simpa using h, rfl⟩

theorem calm_call (e : Option Exn) : Within Calm (call e) := by
  cases e with
  | none => exact within_pure ()
  | some e => exact within_raise e

theorem calm_quietly {p : Act Unit} (h : Within Calm p) : Within Calm (quietly p) :=
  h.handle fun e ↦ within_ite (within_pure ()) (within_raise e)

theorem notMem_ofPush {l : List Effect} (hl : ∀ e ∈ l, e.OfPush) {e : Effect}
    (he : ¬ e.OfPush) : e ∉ l :=
  fun h ↦ he (hl e h)

variable (token : Bool) (q : Push)

theorem calm_terminateInvalidReplacement : Within Calm (terminateInvalidReplacement token q) := by
  refine (calm_emit (e := .invalid) trivial).bind fun _ ↦ within_onlyIf ?_
  refine (calm_emit (e := .sourceAck) trivial).bind fun _ ↦ ?_
  split
  · exact Within.bind (within_change fun _ ↦ ⟨rfl, rfl, rfl, rfl, [], by simp, by simp⟩) fun _ ↦
      calm_quietly (calm_call _)
  · exact within_onlyIf (within_raise _)

theorem calm_requireValid (check : Check) : Within Calm (requireValid check token q) := by
  cases check with
  | valid => exact within_pure ()
  | invalid => exact (calm_terminateInvalidReplacement token q).bind fun _ ↦ within_raise _
  | raised e => exact within_raise e

theorem calm_serialize : Within Calm (serialize token q) := by
  unfold serialize
  split
  · exact within_pure ()
  · exact (calm_quietly (calm_call _)).bind fun _ ↦
      (calm_terminateInvalidReplacement token q).bind fun _ ↦ within_raise _
  · exact within_ite ((calm_terminateInvalidReplacement token q).bind fun _ ↦ within_raise _)
      (within_raise _)

theorem calm_prepare : Within Calm (prepare q) := by
  unfold prepare
  split
  · exact within_raise _
  · exact within_pure ()

theorem calm_publishItem : Within Calm (publishItem q) := by
  unfold publishItem
  split
  · exact (calm_emit (e := .accepted) trivial).bind fun _ ↦ within_pure _
  · exact (within_onlyIf (calm_emit (e := .accepted) trivial)).bind fun _ ↦ within_raise _

theorem calm_commitPush : Within Calm (commitPush token q) := by
  unfold commitPush
  split
  · exact within_raise _
  · refine within_ite (within_raise _) ((calm_emit (e := .heldLocally) trivial).bind fun _ ↦ ?_)
    exact (calm_publishItem q).bind fun _ ↦ within_pure _
  · exact (calm_publishItem q).bind fun _ ↦ (within_onlyIf (within_raise _)).bind fun _ ↦
      within_pure _
  · exact calm_publishItem q

theorem calm_rejectVolatileReplacement : Within Calm (rejectVolatileReplacement q) :=
  (calm_quietly (calm_call _)).bind fun _ ↦ within_raise _

theorem calm_ackSource : Within Calm (ackSource q) := by
  refine (calm_emit (e := .sourceAck) trivial).bind fun _ ↦ within_ite (calm_call _) ?_
  split
  · exact within_change fun _ ↦ ⟨rfl, rfl, rfl, rfl, [], by simp, by simp⟩
  · exact (within_onlyIf (within_raise _)).bind fun _ ↦ calm_quietly (calm_call _)

theorem calm_handOver (durable : Bool) : Within Calm (handOver token q durable) := by
  refine Within.bind (within_change fun _ ↦ ⟨rfl, rfl, rfl, rfl, [], by simp, by simp⟩) fun _ ↦ ?_
  refine (within_onlyIf (calm_emit (e := .durableReceipt) trivial)).bind fun _ ↦ ?_
  refine (within_onlyIf (calm_rejectVolatileReplacement q)).bind fun _ ↦ ?_
  refine Within.bind (within_change fun _ ↦ ⟨rfl, rfl, rfl, rfl, [], by simp, by simp⟩) fun _ ↦ ?_
  exact within_onlyIf (calm_ackSource q)

theorem calm_push : Within Calm (push token q) := by
  refine (calm_requireValid token q _).bind fun _ ↦ ?_
  refine (calm_requireValid token q _).bind fun _ ↦ ?_
  refine (calm_requireValid token q _).bind fun _ ↦ ?_
  refine (calm_prepare q).bind fun _ ↦ ?_
  refine (within_onlyIf (calm_rejectVolatileReplacement q)).bind fun _ ↦ ?_
  refine (calm_serialize token q).bind fun _ ↦ ?_
  refine (calm_commitPush token q).bind fun durable ↦ ?_
  exact (calm_handOver token q durable).bind fun _ ↦ within_pure _

theorem calm_pushWithDurability : Within Calm (pushWithDurability token q) := by
  refine Within.bind (within_change fun w ↦ ?_) fun _ ↦ Within.handle ?_ fun e ↦ ?_
  · exact ⟨rfl, rfl, rfl, rfl, [], by simp, by simp⟩
  · refine (within_onlyIf (within_raise _)).bind fun _ ↦ (calm_push token q).bind fun _ ↦ ?_
    exact (calm_quietly (calm_call _)).bind fun _ ↦ within_pure _
  · refine Within.bind (within_change fun w ↦ ?_) fun _ ↦ ?_
    · exact ⟨rfl, rfl, rfl, rfl, [], by simp, by simp⟩
    · exact (within_onlyIf (calm_quietly (calm_call _))).bind fun _ ↦ within_raise _

/-! ## What a push that returns has done -/

/-- A push that returns was accepted. The replacement of a source is durable, and the source was
settled. -/
structure Pushed (token durable : Bool) (w : World) : Prop where
  accepted : .accepted ∈ w.trace
  durable : token = true → durable = true
  source : token = true → .sourceAck ∈ w.trace

variable {token} in
theorem Pushed.calm {durable : Bool} {w w' : World} (h : Pushed token durable w)
    (hc : Calm w w') : Pushed token durable w' :=
  ⟨hc.mem h.accepted, h.durable, fun ht ↦ hc.mem (h.source ht)⟩

theorem wp_publishItem (s : World) :
    wp (publishItem q) (fun _ t ↦ .accepted ∈ t.trace) (fun _ _ ↦ True) s := by
  unfold publishItem
  split <;> simp [emit]

theorem wp_commitPush (s : World) :
    wp (commitPush token q) (fun _ t ↦ .accepted ∈ t.trace) (fun _ _ ↦ True) s := by
  unfold commitPush
  split
  · trivial
  · rw [wp_ite]
    refine ⟨fun _ ↦ trivial, fun _ ↦ wp_skip (fun _ t ↦ ?_) s⟩
    rw [wp_bind]
    exact wp_publishItem q t
  · rw [wp_bind]
    refine (wp_publishItem q s).mono (fun durable t ht ↦ ?_) fun _ _ _ ↦ trivial
    rw [wp_bind, wp_onlyIf]
    exact ⟨fun _ ↦ trivial, fun _ ↦ ht⟩
  · exact wp_publishItem q s

theorem wp_rejectVolatileReplacement {Q : Unit → World → Prop} (s : World) :
    wp (rejectVolatileReplacement q) Q (fun _ _ ↦ True) s := by
  refine wp_skip (fun _ t ↦ ?_) s
  rw [wp_raise]
  trivial

theorem wp_ackSource (s : World) :
    wp (ackSource q) (fun _ t ↦ .sourceAck ∈ t.trace) (fun _ _ ↦ True) s := by
  have mem : .sourceAck ∈ s.trace ++ [Effect.sourceAck] := by simp
  unfold ackSource emit
  rw [wp_bind, wp_change, wp_ite]
  refine ⟨fun _ ↦ ?_, fun _ ↦ ?_⟩
  · exact (calm_call q.ack _).mono (fun _ t ht ↦ ht.mem mem) fun _ _ _ ↦ trivial
  · split
    · exact mem
    · rw [wp_bind, wp_onlyIf]
      refine ⟨fun _ ↦ trivial, fun _ ↦ ?_⟩
      exact (calm_quietly (calm_call _) _).mono (fun _ t ht ↦ ht.mem mem) fun _ _ _ ↦ trivial

theorem wp_handOver (durable : Bool) (s : World) :
    wp (handOver token q durable) (fun _ t ↦ token = true → durable = true ∧ .sourceAck ∈ t.trace)
      (fun _ _ ↦ True) s := by
  refine wp_skip (fun _ _ ↦ wp_skip (fun _ t ↦ ?_) _) s
  rw [wp_bind, wp_onlyIf]
  refine ⟨fun _ ↦ wp_rejectVolatileReplacement q t, fun hd ↦ wp_skip (fun _ u ↦ ?_) t⟩
  rw [wp_onlyIf]
  refine ⟨fun ht ↦ ?_, fun ht h ↦ absurd h ht⟩
  exact (wp_ackSource q u).mono (fun _ _ h _ ↦ ⟨by simpa [ht] using hd, h⟩) fun _ _ _ ↦ trivial

theorem wp_push (s : World) :
    wp (push token q) (fun durable t ↦ Pushed token durable t) (fun _ _ ↦ True) s := by
  unfold push
  -- Nothing before the commit has a say in a push that returns.
  refine wp_skip (fun _ _ ↦ wp_skip (fun _ _ ↦ wp_skip (fun _ _ ↦ wp_skip (fun _ _ ↦ wp_skip
    (fun _ _ ↦ wp_skip (fun _ t ↦ ?_) _) _) _) _) _) _
  rw [wp_bind]
  refine (wp_commitPush token q t).mono (fun durable u hu ↦ ?_) fun _ _ _ ↦ trivial
  rw [wp_bind]
  refine ((wp_handOver token q durable u).and (calm_handOver token q durable u)).mono
    (fun _ v hv ↦ ?_) fun _ _ _ ↦ trivial
  exact ⟨hv.2.mem hu, fun ht ↦ (hv.1 ht).1, fun ht ↦ (hv.1 ht).2⟩

theorem wp_pushWithDurability (s : World) :
    wp (pushWithDurability token q) (fun durable t ↦ Pushed token durable t)
      (fun _ _ ↦ True) s := by
  unfold pushWithDurability
  rw [wp_bind, wp_change, wp_handle]
  refine wp.mono (R := fun durable t ↦ Pushed token durable t)
    (F := fun _ _ ↦ True) ?_ (fun _ _ h ↦ h) fun e t _ ↦ ?_
  · refine wp_skip (fun _ t ↦ ?_) _
    rw [wp_bind]
    refine (wp_push token q t).mono (fun durable u hu ↦ ?_) fun _ _ _ ↦ trivial
    rw [wp_bind]
    exact (calm_quietly (calm_call _) u).mono (fun _ _ hv ↦ hu.calm hv) fun _ _ _ ↦ trivial
  · refine wp_skip (fun _ _ ↦ wp_skip (fun _ _ ↦ ?_) _) _
    rw [wp_raise]
    trivial

/-! ## The replacement of a source delivery -/

variable {q}

/-- Nothing was done, except that the item may have been accepted. -/
structure Unsettled (w : World) : Prop where
  trace : w.trace = [] ∨ w.trace = [.accepted]
  tokenPopped : w.tokenPopped = false
  routingPopped : w.routingPopped = false

/-- The source was settled because its replacement is invalid for good. -/
structure Terminated (w : World) : Prop where
  trace : w.trace = [.invalid, .sourceAck]
  routingPopped : w.routingPopped = false

/-- The source was settled after its replacement. -/
def Replaced (w : World) : Prop := w.trace = [.accepted, .durableReceipt, .sourceAck]

theorem wp_terminateInvalidReplacement {s : World} (ht : s.trace = []) (hs : Unsettled s) :
    wp (terminateInvalidReplacement true q) (fun _ t ↦ Terminated t)
      (fun _ t ↦ Terminated t) s := by
  unfold terminateInvalidReplacement emit
  rw [wp_bind, wp_change, wp_onlyIf]
  refine ⟨fun _ ↦ ?_, fun h ↦ absurd rfl h⟩
  rw [wp_bind, wp_change]
  have terminated : ∀ b, Terminated
      { s with trace := s.trace ++ [.invalid] ++ [.sourceAck], tokenPopped := b } :=
    fun b ↦ ⟨by simp [ht], hs.routingPopped⟩
  split
  · rw [wp_bind, wp_change]
    exact (wp_quietly (wp_call (terminated true))).mono (fun _ _ h ↦ h) fun _ _ h ↦ h.2
  · rw [wp_onlyIf]
    exact ⟨fun _ ↦ terminated s.tokenPopped, fun _ ↦ terminated s.tokenPopped⟩

/-- A step before the commit: it goes on with nothing done, or ends the push with the source not
settled or settled for good. -/
def Guards (p : Act Unit) : Prop :=
  ∀ s, Unsettled s → s.trace = [] → wp p (fun _ t ↦ Unsettled t ∧ t.trace = [])
    (fun _ t ↦ Unsettled t ∨ Terminated t) s

variable (q)

theorem guards_requireValid (check : Check) : Guards (requireValid check true q) := by
  intro s hs ht
  cases check with
  | valid => exact ⟨hs, ht⟩
  | raised e => exact .inl hs
  | invalid =>
    unfold requireValid
    rw [wp_bind]
    exact (wp_terminateInvalidReplacement ht hs).mono (fun _ _ h ↦ .inr h) fun _ _ h ↦ .inr h

theorem guards_prepare : Guards (prepare q) := by
  intro s hs ht
  unfold prepare
  split
  · exact .inl hs
  · exact ⟨hs, ht⟩

theorem guards_serialize : Guards (serialize true q) := by
  intro s hs ht
  unfold serialize
  split
  · exact ⟨hs, ht⟩
  · rw [wp_bind]
    refine (wp_quietly (wp_call (Q := fun t ↦ t = s) rfl)).mono (fun _ t h ↦ ?_)
      fun _ t h ↦ .inl (h.2 ▸ hs)
    subst h
    rw [wp_bind]
    exact (wp_terminateInvalidReplacement ht hs).mono (fun _ _ h ↦ .inr h) fun _ _ h ↦ .inr h
  · rw [wp_ite]
    refine ⟨fun _ ↦ ?_, fun _ ↦ .inl hs⟩
    rw [wp_bind]
    exact (wp_terminateInvalidReplacement ht hs).mono (fun _ _ h ↦ .inr h) fun _ _ h ↦ .inr h

theorem wp_rejectVolatile_unsettled {s : World} (hs : Unsettled s) {Q : Unit → World → Prop} :
    wp (rejectVolatileReplacement q) Q (fun _ t ↦ Unsettled t) s := by
  unfold rejectVolatileReplacement
  rw [wp_bind]
  exact (wp_quietly (wp_call hs)).mono (fun _ _ h ↦ h) fun _ _ h ↦ h.2

theorem Guards.then {α : Type} {p : Act Unit} {f : Unit → Act α} {Q : α → World → Prop}
    {E : Exn → World → Prop} {s : World} (hp : Guards p) (hs : Unsettled s) (ht : s.trace = [])
    (hE : ∀ e t, Unsettled t ∨ Terminated t → E e t)
    (hf : ∀ t, Unsettled t → t.trace = [] → wp (f ()) Q E t) : wp (p >>= f) Q E s := by
  rw [wp_bind]
  exact (hp s hs ht).mono (fun _ t h ↦ hf t h.1 h.2) hE

theorem wp_publish_unsettled {s : World} (hs : Unsettled s) (ht : s.trace = []) :
    wp (publishItem q) (fun _ t ↦ Unsettled t ∧ t.trace = [.accepted])
      (fun _ t ↦ Unsettled t) s := by
  have accepted : Unsettled { s with trace := s.trace ++ [.accepted] } :=
    ⟨.inr (by simp [ht]), hs.tokenPopped, hs.routingPopped⟩
  unfold publishItem
  split
  · exact ⟨accepted, by simp [ht]⟩
  · rw [wp_bind, wp_onlyIf]
    exact ⟨fun _ ↦ accepted, fun _ ↦ hs⟩

theorem wp_commit_unsettled {s : World} (hs : Unsettled s) (ht : s.trace = []) :
    wp (commitPush true q) (fun _ t ↦ Unsettled t ∧ t.trace = [.accepted])
      (fun _ t ↦ Unsettled t) s := by
  unfold commitPush
  split
  · exact hs
  · exact hs
  · rw [wp_bind]
    refine (wp_publish_unsettled q hs ht).mono (fun durable t h ↦ ?_) fun _ _ h ↦ h
    rw [wp_bind, wp_onlyIf]
    exact ⟨fun _ ↦ h.1, fun _ ↦ h⟩
  · exact wp_publish_unsettled q hs ht

theorem wp_ackSource_replaced {s : World} (ht : s.trace = [.accepted, .durableReceipt]) :
    wp (ackSource q) (fun _ t ↦ Replaced t) (fun _ t ↦ Replaced t) s := by
  have replaced : ∀ b, Replaced { s with trace := s.trace ++ [.sourceAck], tokenPopped := b } :=
    fun b ↦ by simp [Replaced, ht]
  unfold ackSource emit
  rw [wp_bind, wp_change, wp_ite]
  refine ⟨fun _ ↦ wp_call (replaced s.tokenPopped), fun _ ↦ ?_⟩
  split
  · exact replaced true
  · rw [wp_bind, wp_onlyIf]
    refine ⟨fun _ ↦ replaced s.tokenPopped, fun _ ↦ ?_⟩
    exact (wp_quietly (wp_call (replaced s.tokenPopped))).mono (fun _ _ h ↦ h) fun _ _ h ↦ h.2

theorem wp_handOver_replaced (durable : Bool) {s : World} (hs : Unsettled s)
    (ht : s.trace = [.accepted]) :
    wp (handOver true q durable) (fun _ t ↦ Replaced t) (fun _ t ↦ Unsettled t ∨ Replaced t) s := by
  unfold handOver emit
  rw [wp_bind, wp_change, wp_bind, wp_onlyIf]
  cases durable with
  | false =>
    refine ⟨nofun, fun _ ↦ ?_⟩
    rw [wp_bind, wp_onlyIf]
    refine ⟨fun _ ↦ ?_, fun h ↦ absurd ⟨rfl, rfl⟩ h⟩
    refine (wp_rejectVolatile_unsettled (Q := fun _ _ ↦ False) q ?_).mono (fun _ _ h ↦ h.elim)
      fun _ _ h ↦ .inl h
    exact ⟨hs.trace, hs.tokenPopped, hs.routingPopped⟩
  | true =>
    refine ⟨fun _ ↦ ?_, fun h ↦ absurd rfl h⟩
    rw [wp_change, wp_bind, wp_onlyIf]
    refine ⟨fun h ↦ absurd h.2 (by decide), fun _ ↦ ?_⟩
    rw [wp_bind, wp_change, wp_onlyIf]
    refine ⟨fun _ ↦ ?_, fun h ↦ absurd rfl h⟩
    exact (wp_ackSource_replaced q (by simp [ht])).mono (fun _ _ h ↦ h) fun _ _ h ↦ .inr h

/-- How the push of a replacement ends. -/
theorem wp_push_replacement :
    wp (push true q) (fun _ t ↦ Replaced t) (fun _ t ↦ (Unsettled t ∨ Terminated t) ∨ Replaced t)
      World.start := by
  have start : Unsettled World.start := ⟨.inl rfl, rfl, rfl⟩
  unfold push
  refine (guards_requireValid q _).then start rfl (fun _ _ ↦ .inl) fun s hs ht ↦ ?_
  refine (guards_requireValid q _).then hs ht (fun _ _ ↦ .inl) fun s hs ht ↦ ?_
  refine (guards_requireValid q _).then hs ht (fun _ _ ↦ .inl) fun s hs ht ↦ ?_
  refine (guards_prepare q).then hs ht (fun _ _ ↦ .inl) fun s hs ht ↦ ?_
  rw [wp_bind, wp_onlyIf]
  refine ⟨fun _ ↦ (wp_rejectVolatile_unsettled (Q := fun _ _ ↦ False) q hs).mono
    (fun _ _ h ↦ h.elim) fun _ _ h ↦ .inl (.inl h), fun _ ↦ ?_⟩
  refine (guards_serialize q).then hs ht (fun _ _ ↦ .inl) fun s hs ht ↦ ?_
  rw [wp_bind]
  refine (wp_commit_unsettled q hs ht).mono (fun durable t h ↦ ?_) fun _ _ h ↦ .inl (.inl h)
  rw [wp_bind]
  refine (wp_handOver_replaced q durable h.1 h.2).mono (fun _ _ h ↦ h) fun _ _ h ↦ ?_
  rcases h with h | h
  · exact .inl (.inl h)
  · exact .inr h

/-- What holds of the push of a replacement, where `r` is its result and `w` the world after it. -/
structure HandsOver (r : Except Exn Bool) (w : World) : Prop where
  /-- An acknowledgement of the source follows a receipt of durability, or the finding that the
  replacement is invalid for good. -/
  settled : Precedes (fun x ↦ x = .durableReceipt ∨ x = .invalid) .sourceAck w.trace
  /-- The replacement is not held in process-local state. -/
  notLocal : .heldLocally ∉ w.trace
  /-- A push that fails otherwise, before the receipt, leaves the source and the request alone. -/
  failed : (∃ e, r = .error e) → .invalid ∉ w.trace → .durableReceipt ∉ w.trace →
    .sourceAck ∉ w.trace ∧ w.tokenPopped = false ∧ w.routingPopped = false
  /-- A replacement found invalid keeps its routing controls. -/
  invalid : .invalid ∈ w.trace → w.routingPopped = false
  /-- A push that returns has the receipt. -/
  returned : (∃ d, r = .ok d) → .durableReceipt ∈ w.trace

theorem Unsettled.handsOver {w : World} (h : Unsettled w) (e : Exn) : HandsOver (.error e) w := by
  rcases h.trace with ht | ht
  all_goals
    refine ⟨precedes_of_notMem (by simp [ht]), by simp [ht], fun _ _ _ ↦ ?_, by simp [ht],
      fun ⟨d, hd⟩ ↦ nomatch hd⟩
    exact ⟨by simp [ht], h.tokenPopped, h.routingPopped⟩

theorem Terminated.handsOver {w : World} (h : Terminated w) (e : Exn) :
    HandsOver (.error e) w := by
  refine ⟨?_, by simp [h.trace], fun _ hn ↦ absurd (by simp [h.trace]) hn,
    fun _ ↦ h.routingPopped, fun ⟨d, hd⟩ ↦ nomatch hd⟩
  rw [h.trace]
  exact precedes_append (t := [.invalid]) (by simp) fun _ ↦ ⟨_, by simp, .inr rfl⟩

theorem Replaced.handsOver {w : World} (h : Replaced w) (r : Except Exn Bool) : HandsOver r w := by
  have ht : w.trace = [.accepted, .durableReceipt, .sourceAck] := h
  refine ⟨?_, by simp [ht], fun _ _ hn ↦ absurd (by simp [ht]) hn, by simp [ht], by simp [ht]⟩
  rw [ht]
  exact precedes_append (t := [.accepted, .durableReceipt]) (by simp) fun _ ↦
    ⟨.durableReceipt, by simp, .inl rfl⟩

/-- For every outcome of every step of the push of a replacement. -/
theorem push_handsOver (q : Push) :
    HandsOver ((push true q).run World.start).1 ((push true q).run World.start).2 := by
  have h := wp_push_replacement q
  rcases hr : (push true q).run World.start with ⟨r, w⟩
  rw [wp_iff, hr] at h
  cases r with
  | ok d => exact (h.1 d w rfl).handsOver _
  | error e =>
    rcases h.2 e w rfl with (h | h) | h
    · exact h.handsOver e
    · exact h.handsOver e
    · exact h.handsOver _

/-- A push that reaches the backend, and everything after it goes well. -/
def smoothPush : Push :=
  ⟨true, .valid, .valid, .valid, .backend, .fits, .returned true, false, none, none, none, none⟩

/-- Not every failed push leaves the source alone: a replacement with an invalid delay ends its source,
and process control after the commit finds the routing controls consumed. -/
theorem push_not_always_unsettled :
    ¬ (∀ q, (∃ e, ((push true q).run World.start).1 = .error e) →
      .sourceAck ∉ ((push true q).run World.start).2.trace ∧
      ((push true q).run World.start).2.tokenPopped = false) ∧
    ¬ (∀ q, (∃ e, ((push true q).run World.start).1 = .error e) →
      ((push true q).run World.start).2.routingPopped = false) := by
  refine ⟨fun h ↦ ?_, fun h ↦ ?_⟩
  · have := h { smoothPush with delay := .invalid } ⟨.backend, rfl⟩
    revert this
    decide
  · have := h { smoothPush with ack := some .control } ⟨.control, rfl⟩
    revert this
    decide

end Enqueue

end ScrapyExtension
