import ScrapyExtension.Backends.Kafka.Cohort

/-!
# Generations, and the window of an SDK call

The invariant of the backend. `Wf` is about generations, consumers and epochs; `Cohort.Sound` is
about one topic-partition at a time. The two meet in `Inv`.

## What may happen during a call

An operation leaves the delivery lock for its SDK call and comes back to a state that others have
worked on. There are only two cases (`Wf.events`): nothing happened to the deliveries, at most the
legacy slot was copied (`rearm`), or the epoch is over and nothing is delivered in the new one
(`Fresh`). `Window` keeps the books of an operation that left a change of its own behind before it
went into the call.
-/

namespace ScrapyExtension

namespace Kafka

namespace State

variable {s : State}

/-! ## Views of a state -/

/-- The legacy slot of the accepting generation. -/
def currentLegacy (s : State) : Option Record := (s.handles s.current).bind Handles.legacyRecord

/-- A record in a legacy slot. -/
def Armed (s : State) (r : Record) : Prop := s.lastRecord = some r ∨ s.currentLegacy = some r

/-- The live deliveries of a topic-partition. -/
def cohort (s : State) (tp : TopicPartition) : Cohort where
  active := s.maps.activeAttempts tp
  attempts := s.maps.activeAttemptsByPartition tp
  pending := s.maps.pending tp
  base := s.maps.watermarks tp
  high := s.maps.highWater tp
  position := s.position tp
  delivered := s.delivered tp
  acked := s.acked tp
  armed := { o | ∃ r, s.Armed r ∧ r.topicPartition = tp ∧ r.offset = o }

/-- Nothing is delivered in the live epoch, and nothing remembered. -/
structure Fresh (s : State) : Prop where
  maps : s.maps = .empty
  delivered : s.delivered = fun _ ↦ ∅
  lastRecord : s.lastRecord = none
  currentLegacy : s.currentLegacy = none

/-- Generations, consumers and epochs fit together. -/
structure Wf (s : State) : Prop where
  current : ∀ i, s.current = some i → ∃ g, s.generations[i]? = some g ∧ g.retired = false ∧
    g.consumer = s.consumer ∧ (s.consumer ≠ none → g.assignmentEpoch = s.assignmentEpoch)
  stale : ∀ i g, s.generations[i]? = some g → s.current ≠ some i →
    g.retired = true ∨ g.consumer = none
  orphan : s.current = none → s.consumer = none
  slot : ∀ r, s.lastRecord = some r → s.currentLegacy = none ∨ s.currentLegacy = some r
  idle : s.consumer = none → s.Fresh ∧ s.position = fun _ ↦ none

/-- The invariant of the backend. -/
structure Inv (log : TopicPartition → ℕ → Bool) (s : State) : Prop where
  wf : s.Wf
  sound : ∀ tp, (s.cohort tp).Sound (log tp) s.nextDeliveryAttempt
  clean : ∀ c ∈ s.commits, c.skipped = ∅

theorem Fresh.blank (h : s.Fresh) (tp : TopicPartition) : (s.cohort tp).Blank where
  delivered := by simp [cohort, h.delivered]
  active := by simp [cohort, h.maps, Maps.empty]
  pending := by simp [cohort, h.maps, Maps.pending, Maps.empty]
  base := by simp [cohort, h.maps, Maps.empty]
  high := by simp [cohort, h.maps, Maps.empty]
  armed := by simp [cohort, Armed, h.lastRecord, h.currentLegacy]

theorem Wf.inv_of_fresh (w : s.Wf) (h : s.Fresh) (hclean : ∀ c ∈ s.commits, c.skipped = ∅)
    (log : TopicPartition → ℕ → Bool) : s.Inv log :=
  ⟨w, fun tp ↦ (h.blank tp).sound _ _, hclean⟩

/-! ## Generations under a change -/

section modifyHandles

variable (s) (h : Option ℕ) (f : Handles → Handles)

theorem modifyHandles_none : s.modifyHandles none f = s := rfl

theorem generations_modifyHandles (i : ℕ) :
    (s.modifyHandles h f).generations[i]? =
      if h = some i then s.generations[i]?.map f else s.generations[i]? := by
  cases h with
  | none => simp [modifyHandles]
  | some j =>
    simp only [modifyHandles, List.getElem?_modify, Option.some.injEq]
    split <;> simp

theorem handles_modifyHandles (h' : Option ℕ) :
    (s.modifyHandles h f).handles h' =
      if h = h' then (s.handles h').map f else s.handles h' := by
  cases h' with
  | none => simp [handles]
  | some i => simp [handles, generations_modifyHandles]

end modifyHandles

theorem currentLegacy_modifyHandles (s : State) (h : Option ℕ) (f : Handles → Handles) :
    (s.modifyHandles h f).currentLegacy =
      if h = s.current then (s.handles s.current).bind (Handles.legacyRecord ∘ f)
      else s.currentLegacy := by
  simp only [currentLegacy, handles_modifyHandles, modifyHandles_current]
  split
  · rw [Option.bind_map]
  · rfl

/-- A change of one generation that keeps its consumer, epoch and retirement. -/
structure Mild (f : Handles → Handles) : Prop where
  consumer : ∀ g, (f g).consumer = g.consumer
  assignmentEpoch : ∀ g, (f g).assignmentEpoch = g.assignmentEpoch
  retired : ∀ g, (f g).retired = g.retired

theorem retiredOf_modifyHandles (s : State) (h i : Option ℕ) {f : Handles → Handles} (hf : Mild f) :
    (s.modifyHandles h f).retiredOf i = s.retiredOf i := by
  rw [retiredOf, retiredOf, handles_modifyHandles]
  by_cases hi : h = i <;> cases s.handles i <;> simp [hi, hf.retired]

theorem Wf.linked_modifyHandles (w : s.Wf) (h : Option ℕ) {f : Handles → Handles} (hf : Mild f) :
    (∀ i, s.current = some i → ∃ g, (s.modifyHandles h f).generations[i]? = some g ∧
      g.retired = false ∧ g.consumer = s.consumer ∧
      (s.consumer ≠ none → g.assignmentEpoch = s.assignmentEpoch)) ∧
    ∀ i g, (s.modifyHandles h f).generations[i]? = some g → s.current ≠ some i →
      g.retired = true ∨ g.consumer = none := by
  constructor
  · intro i hi
    obtain ⟨g, hg, hrest⟩ := w.current i hi
    rw [generations_modifyHandles]
    split
    · refine ⟨f g, by simp [hg], ?_⟩
      rw [hf.retired, hf.consumer, hf.assignmentEpoch]
      exact hrest
    · exact ⟨g, hg, hrest⟩
  · intro i g hg hne
    rw [generations_modifyHandles] at hg
    split at hg
    · obtain ⟨g', hg', rfl⟩ := Option.map_eq_some_iff.mp hg
      rw [hf.retired, hf.consumer]
      exact w.stale i g' hg' hne
    · exact w.stale i g hg hne

theorem Wf.modifyHandles (w : s.Wf) (h : Option ℕ) {f : Handles → Handles} (hf : Mild f)
    (hslot : ∀ r, s.lastRecord = some r → (s.modifyHandles h f).currentLegacy = none ∨
      (s.modifyHandles h f).currentLegacy = some r)
    (hidle : s.consumer = none → (s.modifyHandles h f).currentLegacy = none) :
    (s.modifyHandles h f).Wf where
  current := (w.linked_modifyHandles h hf).1
  stale := (w.linked_modifyHandles h hf).2
  orphan := w.orphan
  slot := hslot
  idle := by
    intro hc
    obtain ⟨hfresh, hpos⟩ := w.idle hc
    exact ⟨⟨hfresh.maps, hfresh.delivered, hfresh.lastRecord, hidle hc⟩, hpos⟩

/-! ## What may happen during a call -/

/-- The admission of an operation copies the backend's legacy slot to an empty one of the accepting
generation. -/
def rearm (s : State) : State :=
  s.modifyHandles s.current fun g ↦ { g with legacyRecord := g.legacyRecord.or s.lastRecord }

theorem currentLegacy_rearm (s : State) (hcur : s.current ≠ none) (w : s.Wf) :
    s.rearm.currentLegacy = s.currentLegacy.or s.lastRecord := by
  obtain ⟨i, hi⟩ := Option.ne_none_iff_exists'.mp hcur
  obtain ⟨g, hg, -⟩ := w.current i hi
  rw [rearm, currentLegacy_modifyHandles, if_pos rfl]
  simp [currentLegacy, hi, handles, hg]

theorem Wf.rearm (w : s.Wf) : s.rearm.Wf := by
  by_cases hcur : s.current = none
  · have : s.rearm = s := by rw [State.rearm, hcur, modifyHandles_none]
    rwa [this]
  · refine w.modifyHandles _ ⟨fun _ ↦ rfl, fun _ ↦ rfl, fun _ ↦ rfl⟩ ?_ ?_
    · intro r hr
      have hcopy := currentLegacy_rearm s hcur w
      rw [State.rearm] at hcopy
      rw [hcopy]
      rcases w.slot r hr with h | h <;> simp [h, hr]
    · intro hc
      obtain ⟨hfresh, -⟩ := w.idle hc
      have hcopy := currentLegacy_rearm s hcur w
      rw [State.rearm] at hcopy
      rw [hcopy, hfresh.currentLegacy, hfresh.lastRecord]
      rfl

theorem Wf.armed_rearm (w : s.Wf) (r : Record) : s.rearm.Armed r ↔ s.Armed r := by
  by_cases hcur : s.current = none
  · rw [State.rearm, hcur, modifyHandles_none]
  · rw [Armed, Armed, currentLegacy_rearm s hcur w]
    cases hl : s.currentLegacy <;> simp [State.rearm]

theorem Wf.cohort_rearm (w : s.Wf) (tp : TopicPartition) : s.rearm.cohort tp = s.cohort tp := by
  simp only [cohort, w.armed_rearm]
  rfl

theorem Wf.lease_cases (w : s.Wf) : s.lease = s ∨ s.lease = s.rearm := by
  have hpub : s.publish false = s := by
    rw [publish, if_pos]
    by_cases hcur : s.current = none
    · exact .inr ⟨w.orphan hcur, rfl⟩
    · exact .inl (Option.isSome_iff_ne_none.mpr hcur)
  rw [lease, hpub]
  split
  · rename_i g hg
    split
    · rename_i hnone
      right
      cases hcur : s.current with
      | none => simp [hcur, handles] at hg
      | some i =>
        have hi : s.generations[i]? = some g := by simpa [handles, hcur] using hg
        simp only [State.rearm, State.modifyHandles, hcur]
        congr 1
        apply List.ext_getElem?
        intro j
        simp only [List.getElem?_modify]
        split
        · rename_i hij
          subst hij
          simp [hi, hnone]
        · rfl
    · exact .inl rfl
  · exact .inl rfl

theorem fresh_advanceAssignmentEpoch (s : State) : s.advanceAssignmentEpoch.Fresh where
  maps := rfl
  delivered := rfl
  lastRecord := rfl
  currentLegacy := by
    rw [advanceAssignmentEpoch, currentLegacy_modifyHandles]
    split
    · exact Option.bind_eq_none_iff.mpr fun _ _ ↦ rfl
    · rename_i hne
      exact absurd rfl hne

/-- The epoch advances, and the accepting generation with it. -/
def renewEpoch (s : State) : State :=
  s.advanceAssignmentEpoch.modifyHandles s.current
    ({ · with assignmentEpoch := s.assignmentEpoch + 1 })

theorem fresh_renewEpoch (s : State) : s.renewEpoch.Fresh where
  maps := rfl
  delivered := rfl
  lastRecord := rfl
  currentLegacy := by
    rw [renewEpoch, currentLegacy_modifyHandles]
    split
    · exact (fresh_advanceAssignmentEpoch s).currentLegacy
    · exact (fresh_advanceAssignmentEpoch s).currentLegacy

theorem generations_renewEpoch (s : State) (i : ℕ) :
    s.renewEpoch.generations[i]? =
      if s.current = some i then s.generations[i]?.map
        ({ · with legacyRecord := none, assignmentEpoch := s.assignmentEpoch + 1 })
      else s.generations[i]? := by
  rw [renewEpoch, generations_modifyHandles, advanceAssignmentEpoch, generations_modifyHandles]
  split
  · rw [Option.map_map]
    rfl
  · rfl

theorem Wf.renewEpoch (w : s.Wf) : s.renewEpoch.Wf where
  current := by
    intro i hi
    have hcur : s.current = some i := hi
    obtain ⟨g, hg, hret, hcons, -⟩ := w.current i hcur
    rw [generations_renewEpoch, if_pos hcur, hg]
    exact ⟨_, rfl, hret, hcons, fun _ ↦ rfl⟩
  stale := by
    intro i g hg hne
    have hcur : s.current ≠ some i := hne
    rw [generations_renewEpoch, if_neg hcur] at hg
    exact w.stale i g hg hcur
  orphan := w.orphan
  slot := by
    intro r hr
    rw [(fresh_renewEpoch s).lastRecord] at hr
    cases hr
  idle := fun hc ↦ ⟨fresh_renewEpoch s, (w.idle hc).2⟩

theorem Wf.rebalance (w : s.Wf) (assignment : TopicPartition → Option ℕ) :
    (s.rebalance assignment).Wf ∧
      (s.rebalance assignment = s ∨ (s.rebalance assignment).Fresh) := by
  rw [State.rebalance]
  split
  · rename_i hlive
    rw [onAssignmentChanged, if_pos hlive]
    have hw := w.renewEpoch
    have hfresh := fresh_renewEpoch s
    refine ⟨⟨hw.current, hw.stale, hw.orphan, hw.slot, ?_⟩, .inr ?_⟩
    · intro hc
      have hnone : s.consumer = none := hc
      simp [hnone] at hlive
    · exact ⟨hfresh.maps, hfresh.delivered, hfresh.lastRecord, hfresh.currentLegacy⟩
  · exact ⟨w, .inl rfl⟩

theorem fresh_disconnect (s : State) : s.disconnect.Fresh :=
  ⟨rfl, rfl, rfl, rfl⟩

theorem Wf.disconnect (w : s.Wf) : s.disconnect.Wf where
  current := by
    intro i hi
    cases hi
  stale := by
    intro i g hg _
    have hg : (s.modifyHandles s.current _).generations[i]? = some g := hg
    rw [generations_modifyHandles] at hg
    split at hg
    · obtain ⟨g', -, rfl⟩ := Option.map_eq_some_iff.mp hg
      exact .inl rfl
    · rename_i hne
      exact w.stale i g hg hne
  orphan := fun _ ↦ rfl
  slot := by
    intro r hr
    cases hr
  idle := fun _ ↦ ⟨fresh_disconnect s, rfl⟩

theorem Wf.publish (w : s.Wf) (hasClients : Bool) :
    (s.publish hasClients).Wf ∧ (s.publish hasClients = s ∨ (s.publish hasClients).Fresh) := by
  rw [State.publish]
  split
  · exact ⟨w, .inl rfl⟩
  · rename_i hnew
    have hcur : s.current = none := by
      by_contra hne
      exact hnew (.inl (Option.isSome_iff_ne_none.mpr hne))
    have hcons := w.orphan hcur
    obtain ⟨hfresh, hpos⟩ := w.idle hcons
    have hfresh' : State.Fresh
        { s with
          generations := s.generations ++ [⟨s.consumer, hasClients, s.consumerGeneration,
            s.assignmentEpoch, false, none, .empty⟩]
          current := some s.generations.length } :=
      ⟨hfresh.maps, hfresh.delivered, hfresh.lastRecord, by simp [currentLegacy, handles]⟩
    refine ⟨⟨?_, ?_, ?_, ?_, fun _ ↦ ⟨hfresh', hpos⟩⟩, .inr hfresh'⟩
    · intro i hi
      obtain rfl : s.generations.length = i := by simpa using hi
      exact ⟨_, List.getElem?_concat_length, rfl, rfl, fun _ ↦ rfl⟩
    · intro i g hg hne
      have hne' : i ≠ s.generations.length := fun h ↦ hne (h ▸ rfl)
      rw [List.getElem?_append] at hg
      split at hg
      · exact w.stale i g hg (by simp [hcur])
      · rw [List.getElem?_singleton] at hg
        split at hg
        · omega
        · cases hg
    · intro hnone
      cases hnone
    · intro r hr
      rw [hfresh'.lastRecord] at hr
      cases hr

/-- One event: the deliveries are as before, or over. -/
theorem Wf.happen (w : s.Wf) (e : Event) :
    (s.happen e).Wf ∧ (s.happen e = s ∨ s.happen e = s.rearm ∨ (s.happen e).Fresh) := by
  cases e with
  | rebalance assignment =>
    obtain ⟨hw, h⟩ := w.rebalance assignment
    exact ⟨hw, h.imp_right .inr⟩
  | disconnect => exact ⟨w.disconnect, .inr (.inr (fresh_disconnect s))⟩
  | connect =>
    obtain ⟨hw, h⟩ := w.publish true
    exact ⟨hw, h.imp_right .inr⟩
  | lease =>
    rcases w.lease_cases with h | h
    · exact ⟨by rw [State.happen, h]; exact w, .inl h⟩
    · exact ⟨by rw [State.happen, h]; exact w.rearm, .inr (.inl h)⟩

theorem Fresh.rearm (w : s.Wf) (h : s.Fresh) : s.rearm.Fresh := by
  refine ⟨h.maps, h.delivered, h.lastRecord, ?_⟩
  by_cases hcur : s.current = none
  · rw [State.rearm, hcur, modifyHandles_none]
    exact h.currentLegacy
  · rw [currentLegacy_rearm s hcur w, h.currentLegacy, h.lastRecord]
    rfl

theorem rearm_rearm (s : State) : s.rearm.rearm = s.rearm := by
  cases hcur : s.current with
  | none => simp [State.rearm, hcur, modifyHandles_none]
  | some i =>
    have hcur' : s.rearm.current = some i := hcur
    simp only [State.rearm, State.modifyHandles, hcur]
    congr 1
    apply List.ext_getElem?
    intro j
    simp only [List.getElem?_modify]
    split
    · cases s.generations[j]? with
      | none => rfl
      | some g => cases hl : g.legacyRecord <;> cases s.lastRecord <;> simp [hl]
    · simp

/-- What may happen during a call: the deliveries are as before, up to a copy of the legacy slot,
or over. -/
theorem Wf.events (w : s.Wf) (es : List Event) :
    (s.events es).Wf ∧ (s.events es = s ∨ s.events es = s.rearm ∨ (s.events es).Fresh) := by
  induction es generalizing s with
  | nil => exact ⟨w, .inl rfl⟩
  | cons e es ih =>
    obtain ⟨hw, h⟩ := w.happen e
    obtain ⟨hw', h'⟩ := ih hw
    refine ⟨hw', ?_⟩
    have hcons : s.events (e :: es) = (s.happen e).events es := rfl
    rw [hcons]
    rcases h with h | h | h
    · rw [h] at h' ⊢
      exact h'
    · rw [h] at h' ⊢
      rw [rearm_rearm] at h'
      exact h'.elim (fun h ↦ .inr (.inl h)) (fun h ↦ h.elim (fun h ↦ .inr (.inl h)) (.inr ∘ .inr))
    · refine .inr (.inr ?_)
      rcases h' with h' | h' | h'
      · rw [h']
        exact h
      · rw [h']
        exact h.rearm hw
      · exact h'

theorem happen_commits (s : State) (e : Event) : (s.happen e).commits = s.commits := by
  cases e with
  | rebalance assignment =>
    rw [happen, State.rebalance, onAssignmentChanged]
    split <;> rfl
  | disconnect => rfl
  | connect =>
    rw [happen, State.publish]
    split <;> rfl
  | lease =>
    rw [happen, lease, State.publish]
    split <;> split <;> (try split) <;> rfl

@[simp] theorem events_commits (s : State) (es : List Event) :
    (s.events es).commits = s.commits := by
  induction es generalizing s with
  | nil => rfl
  | cons e es ih =>
    have hcons : s.events (e :: es) = (s.happen e).events es := rfl
    rw [hcons, ih, happen_commits]

theorem Wf.delivered_events (w : s.Wf) (es : List Event) (tp : TopicPartition) :
    (s.events es).delivered tp ⊆ s.delivered tp := by
  rcases (w.events es).2 with h | h | h
  · rw [h]
  · rw [h]
    exact subset_rfl
  · rw [h.delivered]
    exact Finset.empty_subset _

theorem Inv.rearm {log : TopicPartition → ℕ → Bool} (hs : s.Inv log) : s.rearm.Inv log := by
  refine ⟨hs.wf.rearm, fun tp ↦ ?_, hs.clean⟩
  rw [hs.wf.cohort_rearm]
  exact hs.sound tp

theorem Inv.events {log : TopicPartition → ℕ → Bool} (hs : s.Inv log) (es : List Event) :
    (s.events es).Inv log := by
  obtain ⟨hw, h⟩ := hs.wf.events es
  rcases h with h | h | h
  · rw [h]
    exact hs
  · rw [h]
    exact hs.rearm
  · exact hw.inv_of_fresh h (by rw [events_commits]; exact hs.clean) log

/-! ## Retired and live generations -/

theorem retiredOf_eq_true {h : Option ℕ} (hret : s.retiredOf h = true) :
    ∃ i g, h = some i ∧ s.generations[i]? = some g ∧ g.retired = true := by
  cases h with
  | none => simp [retiredOf, handles] at hret
  | some i =>
    cases hg : s.generations[i]? with
    | none => simp [retiredOf, handles, hg] at hret
    | some g => exact ⟨i, g, rfl, hg, by simpa [retiredOf, handles, hg] using hret⟩

theorem Wf.ne_current (w : s.Wf) {h : Option ℕ} (hret : s.retiredOf h = true) : h ≠ s.current := by
  obtain ⟨i, g, rfl, hg, hretired⟩ := retiredOf_eq_true hret
  intro hcur
  obtain ⟨g', hg', hlive, -⟩ := w.current i hcur.symm
  obtain rfl : g = g' := by simpa [hg] using hg'
  rw [hretired] at hlive
  cases hlive

/-- Nothing that happens touches a retired generation. -/
theorem Wf.handles_happen (w : s.Wf) {h : Option ℕ} (hret : s.retiredOf h = true) (e : Event) :
    (s.happen e).handles h = s.handles h := by
  have hne := w.ne_current hret
  cases e with
  | rebalance assignment =>
    rw [State.happen, State.rebalance]
    split
    · rename_i hlive
      rw [onAssignmentChanged, if_pos hlive]
      have hrenew : s.renewEpoch.handles h = s.handles h := by
        rw [State.renewEpoch, handles_modifyHandles, if_neg (Ne.symm hne),
          advanceAssignmentEpoch, handles_modifyHandles, if_neg (Ne.symm hne)]
        rfl
      exact hrenew
    · rfl
  | disconnect =>
    have hmod := handles_modifyHandles s s.current (fun g ↦
      { g with
        retired := true, assignmentEpoch := s.assignmentEpoch, legacyRecord := s.lastRecord,
        maps := s.maps }) h
    rw [if_neg (Ne.symm hne)] at hmod
    exact hmod
  | connect =>
    obtain ⟨i, g, rfl, hg, -⟩ := retiredOf_eq_true hret
    rw [State.happen, State.publish]
    split
    · rfl
    · obtain ⟨hi, -⟩ := List.getElem?_eq_some_iff.mp hg
      simp [handles, List.getElem?_append_left hi]
  | lease =>
    rcases w.lease_cases with hl | hl
    · rw [State.happen, hl]
    · rw [State.happen, hl, State.rearm, handles_modifyHandles, if_neg (Ne.symm hne)]

theorem retiredOf_congr {t : State} {h : Option ℕ} (heq : t.handles h = s.handles h) :
    t.retiredOf h = s.retiredOf h := by
  rw [retiredOf, retiredOf, heq]

theorem Wf.retiredOf_events (w : s.Wf) {h : Option ℕ} (hret : s.retiredOf h = true)
    (es : List Event) : (s.events es).retiredOf h = true := by
  induction es generalizing s with
  | nil => exact hret
  | cons e es ih =>
    refine ih (w.happen e).1 ?_
    rw [retiredOf_congr (w.handles_happen hret e)]
    exact hret

theorem mapsOf_of_not_retired {h : Option ℕ} (hret : s.retiredOf h = false) :
    s.mapsOf h = s.maps := by
  rw [retiredOf] at hret
  rw [mapsOf]
  cases hg : s.handles h with
  | none => rfl
  | some g =>
    rw [hg] at hret
    simp [hret]

theorem setMaps_of_not_retired {h : Option ℕ} (hret : s.retiredOf h = false) (m : Maps) :
    s.setMaps h m = { s with maps := m } := by
  rw [retiredOf] at hret
  rw [setMaps]
  cases hg : s.handles h with
  | none => rfl
  | some g =>
    rw [hg] at hret
    simp [hret]

theorem setMaps_of_retired {h : Option ℕ} (hret : s.retiredOf h = true) (m : Maps) :
    s.setMaps h m = s.modifyHandles h ({ · with maps := m }) := by
  obtain ⟨i, g, rfl, hg, hretired⟩ := retiredOf_eq_true hret
  simp [setMaps, handles, hg, hretired]

/-- An operation on a live generation works on the live consumer, in the live epoch. -/
theorem Wf.live (w : s.Wf) {h : Option ℕ} (hret : s.retiredOf h = false)
    (hc : s.consumerOf h ≠ none) :
    s.consumer ≠ none ∧ s.epochOf h = s.assignmentEpoch ∧
      (s.handles h = none ∨ h = s.current) := by
  cases hg : s.handles h with
  | none =>
    rw [consumerOf, hg] at hc
    exact ⟨hc, by rw [epochOf, hg], .inl rfl⟩
  | some g =>
    obtain ⟨i, rfl⟩ : ∃ i, h = some i := by
      cases h with
      | none => simp [handles] at hg
      | some i => exact ⟨i, rfl⟩
    have hgen : s.generations[i]? = some g := hg
    have hretired : g.retired = false := by simpa [retiredOf, hg] using hret
    have hcons : g.consumer ≠ none := by simpa [consumerOf, hg] using hc
    have hcur : s.current = some i := by
      by_contra hne
      rcases w.stale i g hgen hne with h | h
      · rw [hretired] at h
        cases h
      · exact hcons h
    obtain ⟨g', hg', -, hsame, hepoch⟩ := w.current i hcur
    obtain rfl : g = g' := by simpa [hgen] using hg'
    refine ⟨hsame ▸ hcons, ?_, .inr hcur.symm⟩
    rw [epochOf, hg]
    exact hepoch (hsame ▸ hcons)

/-! ## Changes that keep the invariant -/

section changes

variable {log : TopicPartition → ℕ → Bool}

/-- With a consumer, only generations, epochs and legacy slots matter to `Wf`. -/
theorem Wf.of_live (w : s.Wf) (hc : s.consumer ≠ none) {t : State}
    (hgen : t.generations = s.generations) (hcur : t.current = s.current)
    (hcons : t.consumer = s.consumer) (hepoch : t.assignmentEpoch = s.assignmentEpoch)
    (hlast : t.lastRecord = s.lastRecord) : t.Wf where
  current := by
    rw [hgen, hcur, hcons, hepoch]
    exact w.current
  stale := by
    rw [hgen, hcur]
    exact w.stale
  orphan := by
    rw [hcur, hcons]
    exact w.orphan
  slot := by
    have hlegacy : t.currentLegacy = s.currentLegacy := by
      simp [currentLegacy, handles, hgen, hcur]
    rw [hlast, hlegacy]
    exact w.slot
  idle := by
    rw [hcons]
    exact fun h ↦ absurd h hc

/-- A change of the bookkeeping of one topic-partition. -/
theorem Inv.withMaps (hs : s.Inv log) (hc : s.consumer ≠ none) {m : Maps} (tp : TopicPartition)
    (hagree : ∀ tp' ≠ tp, Cohort.Agree s.maps m tp')
    (hsound : ((s.cohort tp).withMaps m tp).Sound (log tp) s.nextDeliveryAttempt) :
    { s with maps := m }.Inv log where
  wf := hs.wf.of_live hc rfl rfl rfl rfl rfl
  sound := by
    intro tp'
    by_cases h : tp' = tp
    · subst h
      exact hsound
    · have hsame : { s with maps := m }.cohort tp' = s.cohort tp' := hagree tp' h (s.cohort tp')
      rw [hsame]
      exact hs.sound tp'
  clean := hs.clean

theorem Inv.acknowledge (hs : s.Inv log) (epoch : ℕ) (tp : TopicPartition) (o : ℕ) :
    (s.acknowledge epoch tp o).Inv log := by
  rw [State.acknowledge]
  split
  · refine ⟨⟨hs.wf.current, hs.wf.stale, hs.wf.orphan, hs.wf.slot, ?_⟩, ?_, hs.clean⟩
    · intro hc
      obtain ⟨hfresh, hpos⟩ := hs.wf.idle hc
      exact ⟨⟨hfresh.maps, hfresh.delivered, hfresh.lastRecord, hfresh.currentLegacy⟩, hpos⟩
    · intro tp'
      by_cases h : tp' = tp
      · subst h
        have hack := (hs.sound tp').acknowledge o
        simpa [cohort, Armed, currentLegacy, handles] using hack
      · have hsame := hs.sound tp'
        simpa [cohort, Armed, currentLegacy, handles, Function.update_of_ne h] using hsame
  · exact hs

/-- A commit that passes over nothing. -/
theorem Inv.commit (hs : s.Inv log) {tp : TopicPartition} {offset own : ℕ}
    (h : (s.cohort tp).skipped offset own = ∅) : (s.commit tp offset own).Inv log where
  wf := by
    refine ⟨hs.wf.current, hs.wf.stale, hs.wf.orphan, hs.wf.slot, fun hc ↦ ?_⟩
    obtain ⟨hfresh, hpos⟩ := hs.wf.idle hc
    exact ⟨⟨hfresh.maps, hfresh.delivered, hfresh.lastRecord, hfresh.currentLegacy⟩, hpos⟩
  sound := hs.sound
  clean := by
    intro c hc
    rcases List.mem_cons.mp hc with rfl | hc
    · exact h
    · exact hs.clean c hc

/-- Bookkeeping of a retired generation is nobody else's. -/
theorem Inv.setMaps_of_retired (hs : s.Inv log) {h : Option ℕ} (hret : s.retiredOf h = true)
    (m : Maps) : (s.setMaps h m).Inv log := by
  rw [State.setMaps_of_retired hret]
  have hlegacy : ∀ f, (s.modifyHandles h f).currentLegacy = s.currentLegacy := by
    intro f
    rw [currentLegacy_modifyHandles, if_neg (hs.wf.ne_current hret)]
  refine ⟨hs.wf.modifyHandles h ⟨fun _ ↦ rfl, fun _ ↦ rfl, fun _ ↦ rfl⟩ ?_ ?_, ?_, hs.clean⟩
  · rw [hlegacy]
    exact hs.wf.slot
  · rw [hlegacy]
    exact fun hc ↦ (hs.wf.idle hc).1.currentLegacy
  · intro tp
    have hsame : (s.modifyHandles h ({ · with maps := m })).cohort tp = s.cohort tp := by
      simp only [cohort, Armed, hlegacy]
      rfl
    rw [hsame]
    exact hs.sound tp

end changes

/-! ## The window of an SDK call -/

section window

variable {log : TopicPartition → ℕ → Bool}

/-- To an operation that left `s` for an SDK call, `u` looks like `s`, whatever generation it was
admitted on. -/
structure Still (s u : State) : Prop where
  maps : u.maps = s.maps
  delivered : u.delivered = s.delivered
  position : u.position = s.position
  consumer : u.consumer = s.consumer
  current : u.current = s.current
  assignmentEpoch : u.assignmentEpoch = s.assignmentEpoch
  nextDeliveryAttempt : u.nextDeliveryAttempt = s.nextDeliveryAttempt
  generationOf : ∀ h, u.generationOf h = s.generationOf h
  epochOf : ∀ h, u.epochOf h = s.epochOf h
  retiredOf : ∀ h, u.retiredOf h = s.retiredOf h
  armed : ∀ r, u.Armed r ↔ s.Armed r

theorem Still.refl (s : State) : Still s s :=
  ⟨rfl, rfl, rfl, rfl, rfl, rfl, rfl, fun _ ↦ rfl, fun _ ↦ rfl, fun _ ↦ rfl, fun _ ↦ .rfl⟩

theorem Still.trans {u v : State} (h : Still s u) (h' : Still u v) : Still s v where
  maps := h'.maps.trans h.maps
  delivered := h'.delivered.trans h.delivered
  position := h'.position.trans h.position
  consumer := h'.consumer.trans h.consumer
  current := h'.current.trans h.current
  assignmentEpoch := h'.assignmentEpoch.trans h.assignmentEpoch
  nextDeliveryAttempt := h'.nextDeliveryAttempt.trans h.nextDeliveryAttempt
  generationOf := fun i ↦ (h'.generationOf i).trans (h.generationOf i)
  epochOf := fun i ↦ (h'.epochOf i).trans (h.epochOf i)
  retiredOf := fun i ↦ (h'.retiredOf i).trans (h.retiredOf i)
  armed := fun r ↦ (h'.armed r).trans (h.armed r)

theorem Wf.still_rearm (w : s.Wf) : Still s s.rearm where
  maps := rfl
  delivered := rfl
  position := rfl
  consumer := rfl
  current := rfl
  assignmentEpoch := rfl
  nextDeliveryAttempt := rfl
  generationOf := by
    intro h
    rw [State.generationOf, State.generationOf, State.rearm, handles_modifyHandles]
    by_cases hcur : s.current = h <;> cases hg : s.handles h <;> simp [hcur]
  epochOf := by
    intro h
    rw [State.epochOf, State.epochOf, State.rearm, handles_modifyHandles]
    by_cases hcur : s.current = h <;> cases hg : s.handles h <;> simp [hcur]
  retiredOf := by
    intro h
    exact retiredOf_modifyHandles s _ h ⟨fun _ ↦ rfl, fun _ ↦ rfl, fun _ ↦ rfl⟩
  armed := w.armed_rearm

theorem still_commit (s : State) (tp : TopicPartition) (offset own : ℕ) :
    Still s (s.commit tp offset own) :=
  ⟨rfl, rfl, rfl, rfl, rfl, rfl, rfl, fun _ ↦ rfl, fun _ ↦ rfl, fun _ ↦ rfl, fun _ ↦ .rfl⟩

theorem still_acknowledge (s : State) (epoch : ℕ) (tp : TopicPartition) (o : ℕ) :
    Still s (s.acknowledge epoch tp o) := by
  rw [acknowledge]
  split
  · exact ⟨rfl, rfl, rfl, rfl, rfl, rfl, rfl, fun _ ↦ rfl, fun _ ↦ rfl, fun _ ↦ rfl, fun _ ↦ .rfl⟩
  · exact .refl s

/-- An operation leaves its own bookkeeping `m` behind when it goes into an SDK call. It comes back
to a fresh epoch, or to `m` over a state that keeps the invariant and looks the same. -/
theorem Inv.events_window (hs : s.Inv log) (hc : s.consumer ≠ none) (m : Maps) (es : List Event) :
    ({ s with maps := m }.events es).Wf ∧
      (({ s with maps := m }.events es).Fresh ∨ ∃ u : State, u.Inv log ∧ Still s u ∧
        u.acked = s.acked ∧ { s with maps := m }.events es = { u with maps := m }) := by
  have w : { s with maps := m }.Wf := hs.wf.of_live hc rfl rfl rfl rfl rfl
  obtain ⟨hw, h⟩ := w.events es
  refine ⟨hw, ?_⟩
  rcases h with h | h | h
  · exact .inr ⟨s, hs, .refl s, rfl, h⟩
  · exact .inr ⟨s.rearm, hs.rearm, hs.wf.still_rearm, rfl, h⟩
  · exact .inl h

theorem Fresh.events (w : s.Wf) (h : s.Fresh) (es : List Event) : (s.events es).Fresh := by
  rcases (w.events es).2 with heq | heq | hfresh
  · rw [heq]
    exact h
  · rw [heq]
    exact h.rearm w
  · exact hfresh

theorem Fresh.acknowledge (h : s.Fresh) (epoch : ℕ) (tp : TopicPartition) (o : ℕ) :
    (s.acknowledge epoch tp o).Fresh := by
  rw [State.acknowledge]
  split
  · exact ⟨h.maps, h.delivered, h.lastRecord, h.currentLegacy⟩
  · exact h

/-- In a fresh epoch there are no active attempts but those of retired generations. -/
theorem Fresh.retiredOf_of_active (h : s.Fresh) {i : Option ℕ} {token : Token}
    (hpos : token.deliveryAttempt ≠ 0) (hact : s.TokenIsActive i token) :
    s.retiredOf i = true := by
  by_contra hret
  obtain ⟨-, -, hmatch⟩ := hact
  rw [mapsOf_of_not_retired (Bool.eq_false_iff.mpr hret), h.maps] at hmatch
  exact hpos hmatch.1

theorem stillActive_iff {h : Option ℕ} {token : Token} {compatibility : Prop}
    (hcompat : ¬ compatibility) :
    s.StillActive h token compatibility ↔ s.TokenIsActive h token :=
  ⟨fun hact ↦ hact.resolve_right fun hc ↦ hcompat hc.1, .inl⟩

/-- A real token is active by its attempt. -/
theorem TokenIsActive.attempt {h : Option ℕ} {token : Token} (hact : s.TokenIsActive h token)
    (hpos : token.deliveryAttempt ≠ 0) :
    (s.mapsOf h).activeAttempts token.topicPartition token.offset = some token.deliveryAttempt := by
  obtain ⟨-, -, hmatch⟩ := hact
  split at hmatch
  · rename_i attempt heq
    rw [heq, hmatch]
  · exact absurd hmatch.1 hpos

/-- An operation that went into its SDK call from `s` and left its bookkeeping `m` behind finds `t`:
a fresh epoch, or `m` over a state that keeps the invariant, looks like `s`, and whose
acknowledgements meet `Q`. -/
structure Window (log : TopicPartition → ℕ → Bool) (s : State) (m : Maps)
    (Q : (TopicPartition → Finset ℕ) → Prop) (t : State) : Prop where
  wf : t.Wf
  clean : ∀ c ∈ t.commits, c.skipped = ∅
  cases : t.Fresh ∨ ∃ u : State, u.Inv log ∧ Still s u ∧ Q u.acked ∧ t = { u with maps := m }

variable {m : Maps} {Q Q' : (TopicPartition → Finset ℕ) → Prop} {t : State}

theorem Inv.window (hs : s.Inv log) (hc : s.consumer ≠ none) (m : Maps) (hQ : Q s.acked) :
    Window log s m Q { s with maps := m } where
  wf := hs.wf.of_live hc rfl rfl rfl rfl rfl
  clean := hs.clean
  cases := .inr ⟨s, hs, .refl s, hQ, rfl⟩

theorem Window.events (h : Window log s m Q t) (hc : s.consumer ≠ none) (es : List Event) :
    Window log s m Q (t.events es) := by
  have hclean : ∀ c ∈ (t.events es).commits, c.skipped = ∅ := by
    rw [events_commits]
    exact h.clean
  rcases h.cases with hfresh | ⟨u, hu, hstill, hQ, rfl⟩
  · exact ⟨(h.wf.events es).1, hclean, .inl (hfresh.events h.wf es)⟩
  · have hcu : u.consumer ≠ none := by
      rw [hstill.consumer]
      exact hc
    obtain ⟨hw, hcases⟩ := hu.events_window hcu m es
    refine ⟨hw, hclean, hcases.imp_right ?_⟩
    rintro ⟨v, hv, hstill', hacked, heq⟩
    exact ⟨v, hv, hstill.trans hstill', by rw [hacked]; exact hQ, heq⟩

theorem Window.commit (h : Window log s m Q t) {tp : TopicPartition} {offset own : ℕ}
    (hskip : ∀ u : State, u.Inv log → Still s u → Q u.acked →
      (u.cohort tp).skipped offset own = ∅) :
    Window log s m Q (t.commit tp offset own) := by
  rcases h.cases with hfresh | ⟨u, hu, hstill, hQ, rfl⟩
  · have ht := h.wf.inv_of_fresh hfresh h.clean log
    have hcommit : (t.commit tp offset own).Inv log :=
      ht.commit (by simp [Cohort.skipped, cohort, hfresh.delivered])
    refine ⟨hcommit.wf, hcommit.clean, .inl ?_⟩
    exact ⟨hfresh.maps, hfresh.delivered, hfresh.lastRecord, hfresh.currentLegacy⟩
  · have hcommit := hu.commit (hskip u hu hstill hQ)
    have hw := h.wf
    refine ⟨⟨hw.current, hw.stale, hw.orphan, hw.slot, fun hc ↦ ?_⟩, hcommit.clean, .inr
      ⟨_, hcommit, hstill.trans (still_commit u tp offset own), hQ, rfl⟩⟩
    obtain ⟨hfresh, hpos⟩ := hw.idle hc
    exact ⟨⟨hfresh.maps, hfresh.delivered, hfresh.lastRecord, hfresh.currentLegacy⟩, hpos⟩

theorem acknowledge_setMaps (s : State) (m : Maps) (epoch : ℕ) (tp : TopicPartition) (o : ℕ) :
    { s with maps := m }.acknowledge epoch tp o =
      { s.acknowledge epoch tp o with maps := m } := by
  by_cases he : s.assignmentEpoch = epoch
  · simp only [acknowledge, if_pos he]
  · simp only [acknowledge, if_neg he]

theorem mem_acked_acknowledge {epoch : ℕ} (he : s.assignmentEpoch = epoch) (tp : TopicPartition)
    (o : ℕ) : o ∈ (s.acknowledge epoch tp o).acked tp := by
  simp [acknowledge, he]

theorem Wf.acknowledge (w : s.Wf) (epoch : ℕ) (tp : TopicPartition) (o : ℕ) :
    (s.acknowledge epoch tp o).Wf := by
  rw [State.acknowledge]
  split
  · refine ⟨w.current, w.stale, w.orphan, w.slot, fun hc ↦ ?_⟩
    obtain ⟨hfresh, hpos⟩ := w.idle hc
    exact ⟨⟨hfresh.maps, hfresh.delivered, hfresh.lastRecord, hfresh.currentLegacy⟩, hpos⟩
  · exact w

theorem acknowledge_commits (s : State) (epoch : ℕ) (tp : TopicPartition) (o : ℕ) :
    (s.acknowledge epoch tp o).commits = s.commits := by
  rw [State.acknowledge]
  split <;> rfl

/-- After the acknowledgement of an offset of the live epoch. -/
theorem Window.acknowledge (h : Window log s m Q t) {epoch : ℕ} (he : epoch = s.assignmentEpoch)
    (tp : TopicPartition) (o : ℕ) :
    Window log s m (fun acked ↦ o ∈ acked tp) (t.acknowledge epoch tp o) where
  wf := h.wf.acknowledge _ _ _
  clean := by
    rw [acknowledge_commits]
    exact h.clean
  cases := by
    rcases h.cases with hfresh | ⟨u, hu, hstill, -, rfl⟩
    · exact .inl (hfresh.acknowledge _ _ _)
    · exact .inr ⟨_, hu.acknowledge epoch tp o, hstill.trans (still_acknowledge _ _ _ _),
        mem_acked_acknowledge (hstill.assignmentEpoch.trans he.symm) tp o,
        acknowledge_setMaps _ _ _ _ _⟩

theorem Window.inv_of_fresh (h : Window log s m Q t) (hfresh : t.Fresh) : t.Inv log :=
  h.wf.inv_of_fresh hfresh h.clean log

end window

end State

end Kafka

end ScrapyExtension
