import ScrapyExtension.Backends.Kafka.Settlement

/-!
# No commit passes over an unacknowledged delivery

The pops keep the invariant too, and with them every run does.

## Where the property fails

An operation admitted on a generation keeps working on that generation's maps after `disconnect`
has retired it. A legacy acknowledgement of a retired generation with an empty legacy slot falls
back to the *live* slot, checks it against the *retired* maps, and commits past live deliveries
(`staleLegacyAck`). `Admissible` excludes acknowledgements on a retired generation that meet live
deliveries.
-/

namespace ScrapyExtension

namespace Kafka

namespace State

variable {s : State}

/-! ## Polls -/

section poll

variable {log : TopicPartition → ℕ → Bool} {i : ℕ}

theorem Wf.consumerOf_current (w : s.Wf) : s.consumerOf s.current = s.consumer := by
  cases hcur : s.current with
  | none => rfl
  | some i =>
    obtain ⟨g, hg, -, hcons, -⟩ := w.current i hcur
    simp [consumerOf, handles, hg, hcons]

theorem Wf.attachConsumer_current (w : s.Wf) : s.attachConsumer s.current = s := by
  rw [attachConsumer, if_neg]
  rintro ⟨hnone, hsome⟩
  rw [w.consumerOf_current] at hnone
  exact hsome hnone

theorem Inv.lease (hs : s.Inv log) : s.lease.Inv log := by
  rcases hs.wf.lease_cases with h | h
  · rw [h]
    exact hs
  · rw [h]
    exact hs.rearm

/-- A new consumer joins the accepting generation. -/
theorem Wf.adoptConsumer_some (w : s.Wf) (hc : s.consumer = none) (hcur : s.current = some i) :
    s.adoptConsumer.Wf ∧ s.adoptConsumer.Fresh := by
  obtain ⟨hfresh, -⟩ := w.idle hc
  obtain ⟨g, hg, hret, -⟩ := w.current i hcur
  have heq : s.adoptConsumer = s.newConsumer.modifyHandles (some i) ({ · with
      consumer := some s.nextConsumer
      consumerGeneration := s.consumerGeneration + 1
      assignmentEpoch := s.assignmentEpoch }) := by
    simp only [State.adoptConsumer, hcur]
  have hlegacy : s.adoptConsumer.currentLegacy = s.currentLegacy := by
    have hcur' : some i = s.newConsumer.current := hcur.symm
    rw [heq, currentLegacy_modifyHandles, if_pos hcur', currentLegacy]
    cases hg : s.handles s.current with
    | none =>
      have hg' : s.newConsumer.handles s.newConsumer.current = none := hg
      rw [hg']
      rfl
    | some g =>
      have hg' : s.newConsumer.handles s.newConsumer.current = some g := hg
      rw [hg']
      rfl
  rw [hfresh.currentLegacy] at hlegacy
  rw [heq] at hlegacy ⊢
  refine ⟨⟨?_, ?_, ?_, ?_, ?_⟩, ⟨hfresh.maps, hfresh.delivered, hfresh.lastRecord, hlegacy⟩⟩
  · intro j hj
    have hj : s.current = some j := hj
    obtain rfl : i = j := by simpa [hcur] using hj
    have hg' : s.newConsumer.generations[i]? = some g := hg
    rw [generations_modifyHandles, if_pos rfl, hg']
    exact ⟨_, rfl, hret, rfl, fun _ ↦ rfl⟩
  · intro j g' hg' hne
    have hne' : s.current ≠ some j := hne
    rw [generations_modifyHandles, if_neg (hcur ▸ hne')] at hg'
    exact w.stale j g' hg' hne'
  · intro hnone
    have hnone : s.current = none := hnone
    rw [hcur] at hnone
    cases hnone
  · intro r hr
    have hr : s.lastRecord = some r := hr
    rw [hfresh.lastRecord] at hr
    cases hr
  · intro hnone
    cases hnone

/-- A new consumer is published with a generation of its own. -/
theorem Wf.adoptConsumer_none (w : s.Wf) (hcur : s.current = none) :
    s.adoptConsumer.Wf ∧ s.adoptConsumer.Fresh ∧
      s.adoptConsumer.current = some s.generations.length := by
  obtain ⟨hfresh, -⟩ := w.idle (w.orphan hcur)
  have heq : s.adoptConsumer =
      { s.newConsumer with
        generations := s.generations ++ [⟨some s.nextConsumer, false, s.consumerGeneration + 1,
          s.assignmentEpoch, false, none, .empty⟩]
        current := some s.generations.length } := by
    simp only [State.adoptConsumer, hcur]
    rw [State.publish, if_neg (by simp [newConsumer, hcur])]
    rfl
  rw [heq]
  refine ⟨⟨?_, ?_, ?_, ?_, ?_⟩, ⟨hfresh.maps, hfresh.delivered, hfresh.lastRecord, ?_⟩, rfl⟩
  · intro j hj
    obtain rfl : s.generations.length = j := by simpa using hj
    exact ⟨_, List.getElem?_concat_length, rfl, rfl, fun _ ↦ rfl⟩
  · intro j g' hg' hne
    have hne' : j ≠ s.generations.length := fun h ↦ hne (h ▸ rfl)
    rw [List.getElem?_append] at hg'
    split at hg'
    · exact w.stale j g' hg' (by simp [hcur])
    · rw [List.getElem?_singleton] at hg'
      split at hg'
      · omega
      · cases hg'
  · intro hnone
    cases hnone
  · intro r hr
    have hr : s.lastRecord = some r := hr
    rw [hfresh.lastRecord] at hr
    cases hr
  · intro hnone
    cases hnone
  · simp [currentLegacy, handles]

/-- The backend with a new consumer. -/
theorem Wf.adoptConsumer (w : s.Wf) (hc : s.consumer = none) :
    s.adoptConsumer.Wf ∧ s.adoptConsumer.Fresh ∧ ∃ i, s.adoptConsumer.current = some i := by
  cases hcur : s.current with
  | none =>
    obtain ⟨hw, hfresh, hcur'⟩ := w.adoptConsumer_none hcur
    exact ⟨hw, hfresh, _, hcur'⟩
  | some i =>
    obtain ⟨hw, hfresh⟩ := w.adoptConsumer_some hc hcur
    refine ⟨hw, hfresh, i, ?_⟩
    simp only [State.adoptConsumer, hcur]
    exact hcur

theorem adoptConsumer_commits (s : State) : s.adoptConsumer.commits = s.commits := by
  rw [adoptConsumer]
  split
  · rfl
  · rw [State.publish]
    split <;> rfl

theorem Wf.retireEmpty (w : s.Wf) (hfresh : s.Fresh) : s.retireEmpty.Wf ∧ s.retireEmpty.Fresh := by
  rw [State.retireEmpty]
  split
  · rename_i g hg
    split
    · rename_i hempty
      obtain ⟨i, hcur⟩ : ∃ i, s.current = some i := by
        cases hcur : s.current with
        | none => simp [handles, hcur] at hg
        | some i => exact ⟨i, rfl⟩
      obtain ⟨g', hg', -, hcons, -⟩ := w.current i hcur
      have hhandles : s.handles s.current = some g' := by
        rw [hcur]
        exact hg'
      obtain rfl : g = g' := by simpa [hg] using hhandles
      have hc : s.consumer = none := hcons.symm.trans hempty.2
      have hfresh' : { s with current := none }.Fresh :=
        ⟨hfresh.maps, hfresh.delivered, hfresh.lastRecord, rfl⟩
      refine ⟨⟨?_, ?_, fun _ ↦ hc, ?_, fun _ ↦ ⟨hfresh', (w.idle hc).2⟩⟩, hfresh'⟩
      · intro j hj
        cases hj
      · intro j gj hgj _
        by_cases hij : s.current = some j
        · right
          obtain rfl : i = j := by simpa [hcur] using hij
          obtain rfl : g = gj := by simpa [hg'] using hgj
          exact hempty.2
        · exact w.stale j gj hgj hij
      · intro r hr
        rw [hfresh'.lastRecord] at hr
        cases hr
    · exact ⟨w, hfresh⟩
  · exact ⟨w, hfresh⟩

/-- The accepting generation and the backend give up the backend's consumer. -/
theorem Wf.detach_drop (w : s.Wf) (hfresh : s.Fresh) (hcur : s.current = some i) {c : ℕ}
    (hc : s.consumer = some c) :
    ((s.dropConsumer c).detachConsumer (some i) c).Wf ∧
      ((s.dropConsumer c).detachConsumer (some i) c).Fresh := by
  obtain ⟨g, hg, hret, hcons, -⟩ := w.current i hcur
  have hdrop : s.dropConsumer c = { s with
      consumer := none
      subscribedTopic := none
      consumerGeneration := s.consumerGeneration + 1
      assignmentEpoch := s.assignmentEpoch + 1
      position := fun _ ↦ none }.clearDeliveryState := by
    rw [dropConsumer, if_pos hc]
  have hhandles : (s.dropConsumer c).handles (some i) = some g := by
    rw [hdrop]
    exact hg
  have hcond : (s.dropConsumer c).consumerOf (some i) = some c ∧
      (s.dropConsumer c).retiredOf (some i) = false := by
    simp only [consumerOf, retiredOf, hhandles]
    exact ⟨hcons.trans hc, hret⟩
  rw [detachConsumer, if_pos hcond, hdrop]
  have hlegacy : (State.modifyHandles { s with
      consumer := none
      subscribedTopic := none
      consumerGeneration := s.consumerGeneration + 1
      assignmentEpoch := s.assignmentEpoch + 1
      position := fun _ ↦ none }.clearDeliveryState (some i)
      ({ · with consumer := none })).currentLegacy = none := by
    have hnone : g.legacyRecord = none := by
      have := hfresh.currentLegacy
      simpa [currentLegacy, handles, hcur, hg] using this
    simp only [currentLegacy, modifyHandles_current, handles_modifyHandles]
    split
    · have hcur' : s.handles s.current = some g := by
        rw [hcur]
        exact hg
      have hold : s.handles (some i) = some g := hg
      rename_i heq
      simp [clearDeliveryState, forgetEpoch, hcur, handles, hg, hnone]
    · rename_i hne
      exact absurd hcur.symm hne
  refine ⟨⟨?_, ?_, ?_, ?_, ?_⟩, ⟨rfl, rfl, rfl, hlegacy⟩⟩
  · intro j hj
    have hj : s.current = some j := hj
    obtain rfl : i = j := by simpa [hcur] using hj
    rw [generations_modifyHandles, if_pos rfl]
    refine ⟨{ g with consumer := none }, ?_, hret, rfl, fun h ↦ absurd rfl h⟩
    simp [clearDeliveryState, forgetEpoch, hg]
  · intro j g' hg' hne
    have hne' : s.current ≠ some j := hne
    rw [generations_modifyHandles, if_neg (hcur ▸ hne')] at hg'
    exact w.stale j g' hg' hne'
  · exact fun _ ↦ rfl
  · intro r hr
    cases hr
  · exact fun _ ↦ ⟨⟨rfl, rfl, rfl, hlegacy⟩, rfl⟩

theorem cleanupPartialConsumer_commits (s : State) (h : Option ℕ) (c : ℕ) :
    (s.cleanupPartialConsumer h c).commits = s.commits := by
  have hdrop : (s.dropConsumer c).commits = s.commits := by
    rw [dropConsumer]
    split <;> rfl
  have hdetach : ∀ t : State, (t.detachConsumer h c).commits = t.commits := by
    intro t
    rw [detachConsumer]
    split <;> rfl
  have hretire : ∀ t : State, t.retireEmpty.commits = t.commits := by
    intro t
    rw [State.retireEmpty]
    split
    · split <;> rfl
    · rfl
  rw [cleanupPartialConsumer, hretire, hdetach, hdrop]

/-- The exit of a poll on the generation `i`, which is accepting or retired: a consumer that the
operation made goes, before it has delivered anything. -/
theorem Inv.abandonPoll (hs : s.Inv log) {created : Option ℕ}
    (hgen : s.current = some i ∨ (s.retiredOf (some i) = true ∧ s.consumer = none))
    (hfresh : created ≠ none → s.Fresh) : (s.abandonPoll (some i) created).Inv log := by
  cases created with
  | none => exact hs
  | some c =>
    have hfresh := hfresh (by simp)
    have hmid : ((s.dropConsumer c).detachConsumer (some i) c).Wf ∧
        ((s.dropConsumer c).detachConsumer (some i) c).Fresh := by
      by_cases hc : s.consumer = some c
      · rcases hgen with hcur | ⟨-, hnone⟩
        · exact hs.wf.detach_drop hfresh hcur hc
        · rw [hc] at hnone
          cases hnone
      · rw [dropConsumer, if_neg hc, detachConsumer, if_neg]
        · exact ⟨hs.wf, hfresh⟩
        · rintro ⟨hcons, hlive⟩
          rcases hgen with hcur | ⟨hret, -⟩
          · rw [← hcur, hs.wf.consumerOf_current] at hcons
            exact hc hcons
          · rw [hret] at hlive
            cases hlive
    obtain ⟨hw, hf⟩ := hmid.1.retireEmpty hmid.2
    refine hw.inv_of_fresh hf ?_ log
    have := cleanupPartialConsumer_commits s (some i) c
    rw [cleanupPartialConsumer] at this
    rw [this]
    exact hs.clean

theorem Wf.subscribed (w : s.Wf) (hfresh : s.Fresh) (hcur : s.current = some i) (topic : String) :
    { s.modifyHandles (some i) ({ · with assignmentEpoch := s.assignmentEpoch }) with
      subscribedTopic := some topic }.Wf ∧
    { s.modifyHandles (some i) ({ · with assignmentEpoch := s.assignmentEpoch }) with
      subscribedTopic := some topic }.Fresh := by
  obtain ⟨g, hg, hret, hcons, -⟩ := w.current i hcur
  have hlegacy : (s.modifyHandles (some i)
      ({ · with assignmentEpoch := s.assignmentEpoch })).currentLegacy = none := by
    have hnone := hfresh.currentLegacy
    rw [currentLegacy_modifyHandles, if_pos hcur.symm]
    exact hnone
  refine ⟨⟨?_, ?_, w.orphan, ?_, ?_⟩, ⟨hfresh.maps, hfresh.delivered, hfresh.lastRecord, hlegacy⟩⟩
  · intro j hj
    have hj : s.current = some j := hj
    obtain rfl : i = j := by simpa [hcur] using hj
    refine ⟨{ g with assignmentEpoch := s.assignmentEpoch }, ?_, hret, hcons, fun _ ↦ rfl⟩
    exact (generations_modifyHandles s (some i) _ i).trans (by rw [if_pos rfl, hg]; rfl)
  · intro j g' hg' hne
    have hne' : s.current ≠ some j := hne
    have hg' : (s.modifyHandles (some i)
        ({ · with assignmentEpoch := s.assignmentEpoch })).generations[j]? = some g' := hg'
    rw [generations_modifyHandles, if_neg (hcur ▸ hne')] at hg'
    exact w.stale j g' hg' hne'
  · intro r hr
    have hr : s.lastRecord = some r := hr
    rw [hfresh.lastRecord] at hr
    cases hr
  · intro hc
    exact ⟨⟨hfresh.maps, hfresh.delivered, hfresh.lastRecord, hlegacy⟩, (w.idle hc).2⟩

theorem Inv.subscribe (hs : s.Inv log) (hcur : s.current = some i) (p : Poll) :
    (s.subscribe (some i) p).1.Inv log ∧
      ((s.subscribe (some i) p).1.current = some i ∨
        ((s.subscribe (some i) p).2 = false ∧
          (s.subscribe (some i) p).1.retiredOf (some i) = true ∧
          (s.subscribe (some i) p).1.consumer = none)) ∧
      (s.Fresh → (s.subscribe (some i) p).1.Fresh) := by
  rw [State.subscribe]
  split
  · exact ⟨hs, .inl hcur, id⟩
  · have hrenew : s.advanceAssignmentEpoch.modifyHandles (some i)
        ({ · with assignmentEpoch := s.assignmentEpoch + 1 }) = s.renewEpoch := by
      rw [State.renewEpoch, hcur]
    dsimp only
    rw [hrenew]
    have hw := hs.wf.renewEpoch
    have hw' := (hw.events p.subscribing).1
    have hfresh := (fresh_renewEpoch s).events hw p.subscribing
    have hclean : ∀ c ∈ (s.renewEpoch.events p.subscribing).commits, c.skipped = ∅ := by
      rw [events_commits]
      exact hs.clean
    have hcases := hw.current_events hcur p.subscribing
    split
    · refine ⟨hw'.inv_of_fresh hfresh hclean log, ?_, fun _ ↦ hfresh⟩
      rcases hcases with ⟨h, -⟩ | ⟨h, hc⟩
      · exact .inl h
      · exact .inr ⟨rfl, h, hc⟩
    · rename_i hgo
      simp only [not_or, Bool.not_eq_true] at hgo
      rcases hcases with ⟨h, -⟩ | ⟨h, -⟩
      · obtain ⟨hws, hfs⟩ := hw'.subscribed hfresh h p.topic
        exact ⟨hws.inv_of_fresh hfs hclean log, .inl h, fun _ ↦ hfs⟩
      · rw [hgo.2] at h
        cases h

/-- A poll ends well: without a record the invariant holds, and a record comes from a state with the
invariant, as the next one of its topic-partition, for the accepting generation. -/
def EndsWell (log : TopicPartition → ℕ → Bool) : Polled → Prop
  | .nothing t => t.Inv log
  | .delivered t h record => ∃ u : State, u.Inv log ∧ (h = u.current ∧ h ≠ none) ∧
      u.Delivers log record.topicPartition record.offset ∧
      t = u.deliver record.topicPartition record.offset

theorem Inv.fetch (hs : s.Inv log) (hcur : s.current = some i) {created : Option ℕ}
    (hfresh : created ≠ none → s.Fresh) {p : Poll} {polled : Polled}
    (h : s.fetch log (some i) created p = some polled) : EndsWell log polled := by
  have hend := hs.events p.polling
  have hcases := hs.wf.current_events hcur p.polling
  have habandon : ((s.events p.polling).abandonPoll (some i) created).Inv log := by
    refine hend.abandonPoll (hcases.imp_left And.left) fun hcreated ↦ ?_
    exact (hfresh hcreated).events hs.wf p.polling
  rw [State.fetch] at h
  split at h
  · obtain rfl := Option.some.inj h
    exact habandon
  · obtain rfl := Option.some.inj h
    split
    · exact habandon
    · exact hend
  · split at h
    · obtain rfl := Option.some.inj h
      exact habandon
    · rename_i hlive
      split at h
      · rename_i hdel
        obtain rfl := Option.some.inj h
        refine ⟨_, hend, ⟨?_, by simp⟩, hdel, rfl⟩
        rcases hcases with ⟨hcur', -⟩ | ⟨hret, -⟩
        · exact hcur'.symm
        · exact absurd hret hlive
      · cases h

theorem Inv.pollSubscribed (hs : s.Inv log) (hcur : s.current = some i) {created : Option ℕ}
    (hfresh : created ≠ none → s.Fresh) {p : Poll} {polled : Polled}
    (h : s.pollSubscribed log (some i) created p = some polled) : EndsWell log polled := by
  obtain ⟨hinv, hgen, hkeeps⟩ := hs.subscribe hcur p
  rw [State.pollSubscribed] at h
  split at h
  · rename_i hgo
    rcases hgen with hcur' | ⟨hstop, -⟩
    · exact hinv.fetch hcur' (fun hcreated ↦ hkeeps (hfresh hcreated)) h
    · rw [hgo] at hstop
      cases hstop
  · obtain rfl := Option.some.inj h
    exact hinv.abandonPoll (hgen.imp_right And.right) fun hcreated ↦ hkeeps (hfresh hcreated)

theorem Inv.pollRecord (hs : s.Inv log) {p : Poll} {polled : Polled}
    (h : s.pollRecord log p = some polled) : EndsWell log polled := by
  have hlease := hs.lease
  rw [State.pollRecord, hlease.wf.attachConsumer_current, hlease.wf.consumerOf_current] at h
  split at h
  · rename_i c hc
    cases hcur : s.lease.current with
    | none =>
      rw [hlease.wf.orphan hcur] at hc
      cases hc
    | some i =>
      rw [hcur] at h
      exact hlease.pollSubscribed hcur (by simp) h
  · rename_i hc
    split at h
    · obtain rfl := Option.some.inj h
      exact hlease
    · obtain rfl := Option.some.inj h
      exact hlease.wf.disconnect.inv_of_fresh (fresh_disconnect _) hlease.clean log
    · obtain ⟨hw, hfresh, i, hcur⟩ := hlease.wf.adoptConsumer hc
      dsimp only at h
      rw [hcur] at h
      have hinv : s.lease.adoptConsumer.Inv log := by
        refine hw.inv_of_fresh hfresh ?_ log
        rw [adoptConsumer_commits]
        exact hlease.clean
      exact hinv.pollSubscribed hcur (fun _ ↦ hfresh) h

end poll

/-! ## Pops -/

section pop

variable {log : TopicPartition → ℕ → Bool} {h : Option ℕ} {record : Record}

theorem Delivers.next {tp : TopicPartition} {o : ℕ} (hdel : s.Delivers log tp o) :
    ∃ p, s.position tp = some p ∧ Cohort.Next (log tp) p o := by
  obtain ⟨p, hp, hle, hlog, hfirst⟩ := hdel
  exact ⟨p, hp, hle, hlog, hfirst⟩

theorem Wf.consumer_of_delivers (w : s.Wf) {tp : TopicPartition} {o : ℕ}
    (hdel : s.Delivers log tp o) : s.consumer ≠ none := by
  intro hc
  obtain ⟨p, hp, -⟩ := hdel.next
  rw [(w.idle hc).2] at hp
  cases hp

/-- The slot of the accepting generation after it is set. -/
theorem Wf.currentLegacy_set (w : s.Wf) (hcur : h = s.current) (hne : h ≠ none)
    (slot : Option Record) :
    (s.modifyHandles h ({ · with legacyRecord := slot })).currentLegacy = slot := by
  subst hcur
  obtain ⟨i, hi⟩ := Option.ne_none_iff_exists'.mp hne
  obtain ⟨g, hg, -⟩ := w.current i hi
  have hhandles : s.handles s.current = some g := by
    rw [hi]
    exact hg
  rw [currentLegacy_modifyHandles, if_pos rfl, hhandles]
  rfl

theorem cohort_deliver_of_ne {tp tp' : TopicPartition} (hne : tp' ≠ tp) (o : ℕ) :
    (s.deliver tp o).cohort tp' = s.cohort tp' := by
  simp only [cohort, deliver, Function.update_of_ne hne]
  rfl

/-- The cohort of a delivery, in maps where it is registered. -/
theorem withMaps_deliver (tp : TopicPartition) (o : ℕ) :
    ((s.deliver tp o).cohort tp).withMaps (s.maps.register tp o) tp = (s.cohort tp).track o := by
  rw [Cohort.withMaps_register]
  simp only [cohort, deliver, Cohort.withMaps, Cohort.track, Function.update_self]
  rfl

/-- A legacy pop keeps the invariant. -/
theorem Inv.registerLegacyRecord (hs : s.Inv log) (hcur : h = s.current) (hne : h ≠ none)
    (hdel : s.Delivers log record.topicPartition record.offset) :
    ((s.deliver record.topicPartition record.offset).registerLegacyRecord h record).Inv log := by
  have hc := hs.wf.consumer_of_delivers hdel
  have hlegacy : ((s.deliver record.topicPartition record.offset).registerLegacyRecord h
      record).currentLegacy = some record := hs.wf.currentLegacy_set hcur hne (some record)
  have harmed : ∀ r, ((s.deliver record.topicPartition record.offset).registerLegacyRecord h
      record).Armed r → r = record := by
    rintro r (hr | hr)
    · exact (Option.some.inj hr).symm
    · rw [hlegacy] at hr
      exact (Option.some.inj hr).symm
  have hlinked := hs.wf.linked_modifyHandles h
    (f := fun g ↦ { g with legacyRecord := some record }) ⟨fun _ ↦ rfl, fun _ ↦ rfl, fun _ ↦ rfl⟩
  refine ⟨⟨hlinked.1, hlinked.2, hs.wf.orphan, ?_, fun hnone ↦ absurd hnone hc⟩, ?_, hs.clean⟩
  · intro r hr
    right
    rw [hlegacy]
    exact hr
  · intro tp'
    by_cases htp : tp' = record.topicPartition
    · subst htp
      obtain ⟨p, hp, hnext⟩ := hdel.next
      have hsound := hs.sound record.topicPartition
      have htrack := hsound.track hp hnext
      rw [← withMaps_deliver] at htrack
      refine htrack.setArmed ?_ ?_
      · rw [withMaps_deliver]
        exact hsound.allPending_track hp hnext
      · rintro o ⟨r, hr, -, rfl⟩
        rw [harmed r hr]
        simp [Cohort.withMaps, cohort, deliver]
    · have hsame := Cohort.agree_register s.maps htp record.offset (s.cohort tp')
      have hold : ((s.cohort tp').withMaps (s.maps.register record.topicPartition record.offset)
          tp').Sound (log tp') s.nextDeliveryAttempt := by
        rw [hsame]
        exact hs.sound tp'
      rw [← cohort_deliver_of_ne htp record.offset] at hold
      refine hold.disarm ?_
      rintro o ⟨r, hr, hrtp, -⟩
      rw [harmed r hr] at hrtp
      exact absurd hrtp.symm htp

theorem Inv.beginDelivery (hs : s.Inv log)
    (hdel : s.Delivers log record.topicPartition record.offset) :
    ((s.deliver record.topicPartition record.offset).beginDelivery record).Inv log := by
  have hc := hs.wf.consumer_of_delivers hdel
  refine ⟨hs.wf.of_live hc rfl rfl rfl rfl rfl, ?_, hs.clean⟩
  intro tp'
  by_cases htp : tp' = record.topicPartition
  · subst htp
    obtain ⟨p, hp, hnext⟩ := hdel.next
    have hsound := hs.sound record.topicPartition
    have hbegin := (hsound.track hp hnext).beginAttempt (hsound.allPending_track hp hnext)
      (o := record.offset) (Finset.mem_insert_self _ _)
    rw [← withMaps_deliver, ← Cohort.withMaps_beginAttempt] at hbegin
    exact hbegin
  · have hsame := ((Cohort.agree_register s.maps htp record.offset).trans
      (Cohort.agree_beginAttempt _ htp record.offset (s.nextDeliveryAttempt + 1))) (s.cohort tp')
    have hold := (hs.sound tp').mono (Nat.le_succ s.nextDeliveryAttempt)
    have hold' : ((s.cohort tp').withMaps
        ((s.maps.register record.topicPartition record.offset).beginAttempt record.topicPartition
          record.offset (s.nextDeliveryAttempt + 1)) tp').Sound (log tp')
        (s.nextDeliveryAttempt + 1) := by
      rw [hsame]
      exact hold
    rw [← cohort_deliver_of_ne htp record.offset] at hold'
    exact hold'

/-- A pop with a token keeps the invariant. -/
theorem Inv.registerToken (hs : s.Inv log) (hcur : h = s.current) (hne : h ≠ none)
    (hdel : s.Delivers log record.topicPartition record.offset) :
    ((s.deliver record.topicPartition record.offset).registerToken h record).Inv log := by
  have hbegin := hs.beginDelivery hdel
  rw [State.registerToken]
  split
  · rename_i last hlast
    have hlegacy := hbegin.wf.currentLegacy_set hcur hne (some last)
    have hlast : s.lastRecord = some last := hlast
    refine ⟨hbegin.wf.modifyHandles h ⟨fun _ ↦ rfl, fun _ ↦ rfl, fun _ ↦ rfl⟩ ?_ ?_, ?_, hs.clean⟩
    · intro r hr
      have hr : s.lastRecord = some r := hr
      right
      rw [hlegacy, ← hlast, hr]
    · intro hnone
      exact absurd hnone (hs.wf.consumer_of_delivers hdel)
    · intro tp'
      refine (hbegin.sound tp').disarm ?_
      rintro o ⟨r, hr, hrest⟩
      refine ⟨r, .inl ?_, hrest⟩
      rcases hr with hr | hr
      · exact hr
      · rw [hlegacy] at hr
        exact hlast.trans hr
  · exact hbegin

theorem Inv.pop (hs : s.Inv log) {p : Poll} {t : State} (h : s.pop log p = some t) : t.Inv log := by
  obtain ⟨polled, hpoll, rfl⟩ := Option.map_eq_some_iff.mp h
  have hend := hs.pollRecord hpoll
  cases polled with
  | nothing t => exact hend
  | delivered t h record =>
    obtain ⟨u, hu, ⟨hcur, hne⟩, hdel, rfl⟩ := hend
    exact hu.registerLegacyRecord hcur hne hdel

theorem Inv.popWithAck (hs : s.Inv log) {p : Poll} {t : State} (h : s.popWithAck log p = some t) :
    t.Inv log := by
  obtain ⟨polled, hpoll, rfl⟩ := Option.map_eq_some_iff.mp h
  have hend := hs.pollRecord hpoll
  cases polled with
  | nothing t => exact hend
  | delivered t h record =>
    obtain ⟨u, hu, ⟨hcur, hne⟩, hdel, rfl⟩ := hend
    exact hu.registerToken hcur hne hdel

end pop

theorem inv_new (log : TopicPartition → ℕ → Bool) : State.new.Inv log := by
  have hfresh : State.new.Fresh := ⟨rfl, rfl, rfl, rfl⟩
  refine Wf.inv_of_fresh ⟨?_, ?_, fun _ ↦ rfl, ?_, fun _ ↦ ⟨hfresh, rfl⟩⟩ hfresh ?_ log
  · intro i hi
    cases hi
  · intro i g hg
    cases hg
  · intro r hr
    cases hr
  · intro c hc
    cases hc

end State

/-! ## Every run -/

/-- An acknowledgement on a retired generation meets no live delivery on the topic-partition that
it commits. Everything else is free. -/
def Admissible (s : State) : Label → Prop
  | .ackToken h token _ => s.retiredOf h = true → s.delivered token.topicPartition = ∅
  | .ackLegacy h _ => s.retiredOf h = true →
      ∀ record, s.legacyRecordOf h = some record → s.delivered record.topicPartition = ∅
  | _ => True

instance (s : State) : DecidablePred (Admissible s)
  | .ackToken h token _ =>
    inferInstanceAs (Decidable (s.retiredOf h = true → s.delivered token.topicPartition = ∅))
  | .ackLegacy h _ => inferInstanceAs (Decidable (s.retiredOf h = true →
      ∀ record ∈ s.legacyRecordOf h, s.delivered record.topicPartition = ∅))
  | .event _ | .pop _ | .popWithAck _ | .nackToken .. | .nackLegacy .. => isTrue trivial

theorem inv_step {log : TopicPartition → ℕ → Bool} {s t : State} {a : Label} (hs : s.Inv log)
    (hguard : Admissible s a) (h : step log s a = some t) : t.Inv log := by
  cases a with
  | event e =>
    obtain rfl := Option.some.inj h
    exact hs.events [e]
  | pop p => exact hs.pop h
  | popWithAck p => exact hs.popWithAck h
  | ackToken g token call =>
    obtain ⟨⟨-, hpos⟩, ⟨⟩⟩ := Option.ite_none_right_eq_some.mp h
    cases hret : s.retiredOf g with
    | true => exact hs.ackToken_retired hret (hguard hret) call
    | false => exact hs.ackToken_live hret hpos call
  | ackLegacy g call =>
    obtain ⟨-, ⟨⟩⟩ := Option.ite_none_right_eq_some.mp h
    exact hs.ackLegacy hguard call
  | nackToken g token call =>
    obtain ⟨⟨-, hpos⟩, ⟨⟩⟩ := Option.ite_none_right_eq_some.mp h
    exact hs.nackToken hpos call
  | nackLegacy g call =>
    obtain ⟨hpub, ⟨⟩⟩ := Option.ite_none_right_eq_some.mp h
    exact hs.nackLegacy hpub call

/-- Every commit so far passed over acknowledged deliveries only. -/
def NothingSkipped (s : State) : Prop := ∀ c ∈ s.commits, c.skipped = ∅

/-- A poll of one topic that ends with a record of its partition 0. -/
def pollOf (topic : String) (polling : List Event) (offset : ℕ) : Poll :=
  ⟨topic, .returned, [], false, polling, .record ⟨topic, 0⟩ offset⟩

/-- Two tokens acknowledged out of order, with a failed commit and its repetition. -/
def outOfOrder : List Label :=
  [.event .connect, .popWithAck (pollOf "t" [.rebalance fun _ ↦ some 4] 4),
    .popWithAck (pollOf "t" [] 5),
    .ackToken (some 0) ⟨⟨"t", 0⟩, 5, 1, 2, 2⟩ ⟨[], [], .returned⟩,
    .ackToken (some 0) ⟨⟨"t", 0⟩, 4, 1, 2, 1⟩ ⟨[], [], .kafkaError⟩,
    .ackToken (some 0) ⟨⟨"t", 0⟩, 4, 1, 2, 1⟩ ⟨[], [], .returned⟩]

/-- A legacy acknowledgement is admitted on a generation whose deliveries are settled, and runs only
after a disconnect, when offset 5 is out with a token and offset 6 in the legacy slot of the next
generation. -/
def staleLegacyAck : List Label :=
  [.event .connect, .popWithAck (pollOf "t" [.rebalance fun _ ↦ some 4] 4),
    .ackToken (some 0) ⟨⟨"t", 0⟩, 4, 1, 2, 1⟩ ⟨[], [], .returned⟩,
    .event .lease, .event .disconnect,
    .popWithAck (pollOf "t" [.rebalance fun _ ↦ some 5] 5), .pop (pollOf "t" [] 6),
    .ackLegacy (some 0) ⟨[], [], .returned⟩]

end Kafka

end ScrapyExtension
