import ScrapyExtension.Backends.Kafka.Generations

/-!
# Settlements keep the invariant

`ack` and `nack`, with tokens and without. An operation on a retired generation works on the maps
that the generation took along, so it does not touch the live ones (`Inv.setMaps_of_retired`); an
operation on a live generation works on the live cohort.
-/

namespace ScrapyExtension

namespace Kafka

namespace State

variable {s : State}

/-! ## Token acknowledgements -/

section ackToken

variable {log : TopicPartition → ℕ → Bool} {h : Option ℕ} {token : Token}

theorem Inv.commitToken_retired (hs : s.Inv log) (hret : s.retiredOf h = true)
    (hempty : s.delivered token.topicPartition = ∅) (compatibility : Prop)
    [Decidable compatibility] (watermark : ℕ) (call : CommitCall) :
    (s.commitToken h token compatibility watermark call).Inv log := by
  have hbefore := hs.events call.before
  have hnone : (s.events call.before).delivered token.topicPartition = ∅ := by
    have := hs.wf.delivered_events call.before token.topicPartition
    rw [hempty] at this
    exact Finset.subset_empty.mp this
  have hsent : ((s.events call.before).commit token.topicPartition watermark token.offset).Inv
      log := hbefore.commit (by simp [Cohort.skipped, cohort, hnone])
  have hretSent : ((s.events call.before).commit token.topicPartition watermark
      token.offset).retiredOf h = true := hs.wf.retiredOf_events hret call.before
  have hacked := hsent.acknowledge token.assignmentEpoch token.topicPartition token.offset
  have hretAcked := ((still_acknowledge _ token.assignmentEpoch token.topicPartition
    token.offset).retiredOf h).trans hretSent
  rw [commitToken]
  split
  · dsimp only
    split
    · exact (hsent.events call.after).setMaps_of_retired
        (hsent.wf.retiredOf_events hretSent call.after) _
    · exact hsent.events call.after
  · exact hacked.events call.after
  · dsimp only
    split
    · exact (hacked.events call.after).setMaps_of_retired
        (hacked.wf.retiredOf_events hretAcked call.after) _
    · exact hacked.events call.after

theorem Inv.ackToken_retired (hs : s.Inv log) (hret : s.retiredOf h = true)
    (hempty : s.delivered token.topicPartition = ∅) (call : CommitCall) :
    (s.ackToken h token call).Inv log := by
  have hset := hs.setMaps_of_retired hret
  rw [ackToken]
  dsimp only
  split
  · exact hs
  · split
    · exact (hset _).acknowledge _ _ _
    · split
      · exact (hset _).acknowledge _ _ _
      · refine (hset _).commitToken_retired ?_ ?_ _ _ _
        · rw [State.setMaps_of_retired hret, retiredOf, handles_modifyHandles, if_pos rfl]
          obtain ⟨i, g, rfl, hg, hretired⟩ := retiredOf_eq_true hret
          simp [handles, hg, hretired]
        · rw [State.setMaps_of_retired hret]
          exact hempty

/-- While the commit of an active token is under way, the bookkeeping without its offset. -/
structure Committing (log : TopicPartition → ℕ → Bool) (s : State) (h : Option ℕ) (token : Token)
    (base watermark : ℕ) : Prop where
  inv : s.Inv log
  live : s.retiredOf h = false
  consumer : s.consumerOf h ≠ none
  active : s.TokenIsActive h token
  positive : token.deliveryAttempt ≠ 0
  pending : token.offset ∈ s.maps.pending token.topicPartition
  seeded : s.maps.watermarks token.topicPartition = some base
  walk : WalkEnds ((s.maps.pending token.topicPartition).erase token.offset) base
    ((s.maps.highWater token.topicPartition).getD base) watermark

/-- The bookkeeping without the offset of a token. -/
def settledMaps (s : State) (token : Token) (base : ℕ) : Maps :=
  (s.maps.settle token.topicPartition token.offset).setWatermark token.topicPartition base

theorem agree_settledMaps (s : State) {token : Token} {base : ℕ} {tp' : TopicPartition}
    (hne : tp' ≠ token.topicPartition) : Cohort.Agree s.maps (s.settledMaps token base) tp' :=
  (Cohort.agree_settle _ hne _).trans (Cohort.agree_setWatermark _ hne _)

namespace Committing

variable {base watermark : ℕ} (hc : Committing log s h token base watermark)

include hc

theorem consumer_ne : s.consumer ≠ none := (hc.inv.wf.live hc.live hc.consumer).1

theorem epoch_eq : token.assignmentEpoch = s.assignmentEpoch :=
  hc.active.2.1.trans (hc.inv.wf.live hc.live hc.consumer).2.1

theorem attempt : s.maps.activeAttempts token.topicPartition token.offset =
    some token.deliveryAttempt := by
  have := hc.active.attempt hc.positive
  rwa [mapsOf_of_not_retired hc.live] at this

theorem skipped_eq {u : State} (hu : u.Inv log) (hstill : Still s u) :
    (u.cohort token.topicPartition).skipped watermark token.offset = ∅ := by
  have hactive : (u.cohort token.topicPartition).active token.offset =
      some token.deliveryAttempt := by
    rw [cohort, hstill.maps]
    exact hc.attempt
  have hbase : (u.cohort token.topicPartition).base = some base := by
    rw [cohort, hstill.maps]
    exact hc.seeded
  have hwalk : WalkEnds ((u.cohort token.topicPartition).pending.erase token.offset) base
      ((s.maps.highWater token.topicPartition).getD base) watermark := by
    rw [cohort, hstill.maps]
    exact hc.walk
  exact (hu.sound token.topicPartition).skipped_walk hactive hbase hwalk

/-- The token is still active where the window shows its own bookkeeping. -/
theorem still_active {u : State} (hstill : Still s u) :
    { u with maps := s.settledMaps token base }.TokenIsActive h token := by
  obtain ⟨hgen, hepoch, -⟩ := hc.active
  have hret : { u with maps := s.settledMaps token base }.retiredOf h = false :=
    (hstill.retiredOf h).trans hc.live
  refine ⟨hgen.trans (hstill.generationOf h).symm, hepoch.trans (hstill.epochOf h).symm, ?_⟩
  rw [mapsOf_of_not_retired hret]
  have hattempt : (s.settledMaps token base).activeAttempts token.topicPartition token.offset =
      some token.deliveryAttempt := hc.attempt
  simp only [hattempt]

theorem inv_settled {u : State} (hu : u.Inv log) (hstill : Still s u)
    (hacked : token.offset ∈ u.acked token.topicPartition) :
    { u with maps := s.settledMaps token base }.Inv log := by
  have hsound := hu.sound token.topicPartition
  have hcons : u.consumer ≠ none := by
    rw [hstill.consumer]
    exact hc.consumer_ne
  refine hu.withMaps hcons token.topicPartition ?_ ?_
  · rw [hstill.maps]
    exact fun _ hne ↦ s.agree_settledMaps hne
  · rw [settledMaps, ← hstill.maps]
    exact Cohort.Sound.settle_maps (c := u.cohort token.topicPartition) hsound hacked
      (by rw [hstill.maps]; exact hc.seeded)

theorem inv_restored {u : State} (hu : u.Inv log) (hstill : Still s u) :
    { u with
      maps := (s.settledMaps token base).restore token.topicPartition token.offset }.Inv log := by
  have hcons : u.consumer ≠ none := by
    rw [hstill.consumer]
    exact hc.consumer_ne
  refine hu.withMaps hcons token.topicPartition ?_ ?_
  · intro tp' hne
    rw [hstill.maps]
    exact (s.agree_settledMaps hne).trans (Cohort.agree_restore _ hne _)
  · rw [settledMaps, Cohort.withMaps_restore_settle _ _ hc.pending hc.seeded, ← hstill.maps]
    exact hu.sound token.topicPartition

theorem watermark_le (hlt : base < watermark) {u : State} (hu : u.Inv log) (hstill : Still s u) :
    ∃ d ∈ u.delivered token.topicPartition, watermark ≤ d + 1 := by
  have hhigh := (hc.walk.2.2 (watermark - 1) (by omega) (by omega)).1
  cases hw : s.maps.highWater token.topicPartition with
  | none =>
    rw [hw, Option.getD_none] at hhigh
    omega
  | some high =>
    rw [hw, Option.getD_some] at hhigh
    obtain ⟨d, hd, hle⟩ := (hu.sound token.topicPartition).high_le high
      (by rw [cohort, hstill.maps]; exact hw)
    exact ⟨d, hd, by omega⟩

theorem inv_committed (hlt : base < watermark) {u : State} (hu : u.Inv log) (hstill : Still s u)
    (hacked : token.offset ∈ u.acked token.topicPartition) :
    { u with
      maps := (((s.settledMaps token base).setWatermark token.topicPartition
        watermark).finishAttempt token).prune token.topicPartition }.Inv log := by
  have hsettled := (hc.inv_settled hu hstill hacked).sound token.topicPartition
  have hcons : u.consumer ≠ none := by
    rw [hstill.consumer]
    exact hc.consumer_ne
  refine hu.withMaps hcons token.topicPartition ?_ (Cohort.Sound.finish_maps ?_ hc.attempt)
  · intro tp' hne
    rw [hstill.maps]
    exact (((s.agree_settledMaps hne).trans (Cohort.agree_setWatermark _ hne _)).trans
      (Cohort.agree_finishAttempt _ hne)).trans (Cohort.agree_prune _ hne)
  · rw [Cohort.withMaps_setWatermark]
    refine Cohort.Sound.setWatermark hsettled ?_ (hc.watermark_le hlt hu hstill)
    -- What the walk passed over is acknowledged, the offset of the token by this very call.
    intro x hx hxlt
    by_contra hnot
    have hskip := hc.skipped_eq hu hstill
    rw [Cohort.skipped, Finset.filter_eq_empty_iff] at hskip
    refine hskip hx ⟨hxlt, hnot, ?_⟩
    rintro rfl
    exact hnot hacked

/-- The commit of a live token keeps the invariant, however it ends. -/
theorem inv_commitToken (hlt : base < watermark) {compatibility : Prop} [Decidable compatibility]
    (hcompat : ¬ compatibility) (call : CommitCall) :
    ({ s with maps := s.settledMaps token base }.commitToken h token compatibility watermark
      call).Inv log := by
  have hcons := hc.consumer_ne
  have hsent : Window log s (s.settledMaps token base) (fun _ ↦ True)
      (({ s with maps := s.settledMaps token base }.events call.before).commit
        token.topicPartition watermark token.offset) :=
    ((hc.inv.window hcons _ trivial).events hcons call.before).commit
      fun u hu hstill _ ↦ hc.skipped_eq hu hstill
  have hacked := (hsent.acknowledge hc.epoch_eq token.topicPartition token.offset).events hcons
    call.after
  rw [State.commitToken]
  split
  · -- A failed commit restores the offset, or the epoch is over.
    have hend := hsent.events hcons call.after
    dsimp only
    rcases hend.cases with hfresh | ⟨u, hu, hstill, -, heq⟩
    · split
      · rename_i hact
        rw [stillActive_iff hcompat] at hact
        exact (hend.inv_of_fresh hfresh).setMaps_of_retired
          (hfresh.retiredOf_of_active hc.positive hact) _
      · exact hend.inv_of_fresh hfresh
    · rw [heq, if_pos ((stillActive_iff hcompat).mpr (hc.still_active hstill))]
      have hret : { u with maps := s.settledMaps token base }.retiredOf h = false :=
        (hstill.retiredOf h).trans hc.live
      rw [setMaps_of_not_retired hret, mapsOf_of_not_retired hret]
      have hinv := hc.inv_restored hu hstill
      exact hinv
  · rcases hacked.cases with hfresh | ⟨u, hu, hstill, hmem, heq⟩
    · exact hacked.inv_of_fresh hfresh
    · rw [heq]
      exact hc.inv_settled hu hstill hmem
  · dsimp only
    rcases hacked.cases with hfresh | ⟨u, hu, hstill, hmem, heq⟩
    · split
      · rename_i hact
        rw [stillActive_iff hcompat] at hact
        exact (hacked.inv_of_fresh hfresh).setMaps_of_retired
          (hfresh.retiredOf_of_active hc.positive hact) _
      · exact hacked.inv_of_fresh hfresh
    · rw [heq, if_pos ((stillActive_iff hcompat).mpr (hc.still_active hstill))]
      have hret : { u with maps := s.settledMaps token base }.retiredOf h = false :=
        (hstill.retiredOf h).trans hc.live
      rw [setMaps_of_not_retired hret, mapsOf_of_not_retired hret]
      have hinv := hc.inv_committed hlt hu hstill hmem
      exact hinv

end Committing

theorem Inv.ackToken_live (hs : s.Inv log) (hlive : s.retiredOf h = false)
    (hpos : token.deliveryAttempt ≠ 0) (call : CommitCall) :
    (s.ackToken h token call).Inv log := by
  rw [ackToken]
  dsimp only
  rw [mapsOf_of_not_retired hlive]
  split
  · exact hs
  · rename_i hgo
    obtain ⟨hcons, hact⟩ := not_or.mp hgo
    rw [not_not] at hact
    have hcne := (hs.wf.live hlive hcons).1
    have hattempt := hact.attempt hpos
    rw [mapsOf_of_not_retired hlive] at hattempt
    have hepoch : token.assignmentEpoch = s.assignmentEpoch :=
      hact.2.1.trans (hs.wf.live hlive hcons).2.1
    have hacked := hs.acknowledge token.assignmentEpoch token.topicPartition token.offset
    have hstill := still_acknowledge s token.assignmentEpoch token.topicPartition token.offset
    have hcAcked := hstill.consumer.trans_ne hcne
    split
    · rw [setMaps_of_not_retired hlive, acknowledge_setMaps]
      refine hacked.withMaps hcAcked token.topicPartition ?_ (Cohort.Sound.finish_maps ?_ hattempt)
      · intro tp' hne
        rw [hstill.maps]
        exact (Cohort.agree_finishAttempt _ hne).trans (Cohort.agree_prune _ hne)
      · rw [← hstill.maps]
        exact hacked.sound token.topicPartition
    · rename_i hmem
      rw [not_not] at hmem
      obtain ⟨base, hbase⟩ : ∃ base, s.maps.watermarks token.topicPartition = some base := by
        by_contra hnone
        have hempty := (hs.sound token.topicPartition).pending_eq
          (Option.eq_none_iff_forall_ne_some.mpr fun b hb ↦ hnone ⟨b, hb⟩)
        have hempty : s.maps.pending token.topicPartition = ∅ := hempty
        rw [hempty] at hmem
        exact absurd hmem (Finset.notMem_empty _)
      have hpending : ((s.maps.settle token.topicPartition token.offset).setWatermark
          token.topicPartition base).pending token.topicPartition =
          (s.maps.pending token.topicPartition).erase token.offset := by
        simp [Maps.settle, Maps.setWatermark, Maps.pending]
      rw [hbase, Option.getD_some, hpending]
      have hc : Committing log s h token base _ := ⟨hs, hlive, hcons, hact, hpos, hmem, hbase,
        walkEnds_watermarkFrom _ _ _⟩
      split
      · rw [setMaps_of_not_retired hlive, acknowledge_setMaps]
        refine hacked.withMaps hcAcked token.topicPartition ?_
          (Cohort.Sound.finish_maps ?_ hattempt)
        · intro tp' hne
          rw [hstill.maps]
          exact ((s.agree_settledMaps hne).trans (Cohort.agree_finishAttempt _ hne)).trans
            (Cohort.agree_prune _ hne)
        · exact (hc.inv_settled hacked hstill (mem_acked_acknowledge hepoch.symm _ _)).sound
            token.topicPartition
      · rename_i hle
        rw [setMaps_of_not_retired hlive]
        exact hc.inv_commitToken (not_le.mp hle) (fun hcompat ↦ hpos hcompat.1) call

end ackToken

/-! ## Legacy acknowledgements -/

section legacy

variable {log : TopicPartition → ℕ → Bool} {h : Option ℕ} {record : Record}

theorem currentLegacy_disarm (s : State) (h : Option ℕ) (record : Record) :
    (s.disarm h record).currentLegacy =
      if h = s.current ∧ s.currentLegacy = some record then none else s.currentLegacy := by
  have hmod := currentLegacy_modifyHandles s h fun g ↦
    if g.legacyRecord = some record then { g with legacyRecord := none } else g
  have hsame : (s.disarm h record).currentLegacy = (s.modifyHandles h fun g ↦
    if g.legacyRecord = some record then { g with legacyRecord := none } else g).currentLegacy :=
    rfl
  rw [hsame, hmod]
  by_cases hcur : h = s.current
  · rw [if_pos hcur, currentLegacy]
    cases hg : s.handles s.current with
    | none => simp
    | some g => by_cases hl : g.legacyRecord = some record <;> simp [hl, hcur]
  · simp [hcur]

theorem armed_of_armed_disarm {r : Record} (harmed : (s.disarm h record).Armed r) : s.Armed r := by
  rcases harmed with hr | hr
  · left
    simp only [disarm] at hr
    split at hr
    · cases hr
    · exact hr
  · right
    rw [currentLegacy_disarm] at hr
    split at hr
    · cases hr
    · exact hr

theorem mild_disarm (record : Record) :
    Mild fun g ↦ if g.legacyRecord = some record then { g with legacyRecord := none } else g := by
  constructor <;> intro g <;> split <;> rfl

theorem Inv.disarm (hs : s.Inv log) (h : Option ℕ) (record : Record) :
    (s.disarm h record).Inv log where
  wf := by
    have hlegacy : (s.disarm h record).currentLegacy = none ∨
        (s.disarm h record).currentLegacy = s.currentLegacy := by
      rw [currentLegacy_disarm]
      split
      · exact .inl rfl
      · exact .inr rfl
    have hslot : ∀ r, s.lastRecord = some r → (s.disarm h record).currentLegacy = none ∨
        (s.disarm h record).currentLegacy = some r := by
      intro r hr
      rcases hlegacy with hl | hl
      · exact .inl hl
      · rw [hl]
        exact hs.wf.slot r hr
    have hidle : s.consumer = none → (s.disarm h record).currentLegacy = none := by
      intro hc
      rcases hlegacy with hl | hl
      · exact hl
      · rw [hl]
        exact (hs.wf.idle hc).1.currentLegacy
    have hmod := hs.wf.modifyHandles h (mild_disarm record) hslot hidle
    refine ⟨hmod.current, hmod.stale, hmod.orphan, ?_, ?_⟩
    · intro r hr
      refine hslot r ?_
      simp only [State.disarm] at hr
      split at hr
      · cases hr
      · exact hr
    · intro hc
      obtain ⟨hfresh, hpos⟩ := hmod.idle hc
      refine ⟨⟨hfresh.maps, hfresh.delivered, ?_, hfresh.currentLegacy⟩, hpos⟩
      have hlast : s.lastRecord = none := hfresh.lastRecord
      simp [State.disarm, hlast]
  sound := by
    intro tp
    refine (hs.sound tp).disarm ?_
    rintro o ⟨r, hr, hrest⟩
    exact ⟨r, armed_of_armed_disarm hr, hrest⟩
  clean := hs.clean

theorem retiredOf_disarm (s : State) (h i : Option ℕ) (record : Record) :
    (s.disarm h record).retiredOf i = s.retiredOf i := by
  have hsame : (s.disarm h record).retiredOf i = (s.modifyHandles h fun g ↦
    if g.legacyRecord = some record then { g with legacyRecord := none } else g).retiredOf i := rfl
  rw [hsame, retiredOf_modifyHandles s h i (mild_disarm record)]

/-- Dropping a legacy offset in a fresh epoch. -/
theorem Inv.dropLegacy_of_fresh (hs : s.Inv log) (hfresh : s.Fresh) (h : Option ℕ)
    (record : Record) : (s.dropLegacy h record).Inv log := by
  rw [dropLegacy]
  cases hret : s.retiredOf h with
  | true => exact hs.setMaps_of_retired hret _
  | false =>
    have hempty := Cohort.prune_settle_empty record.topicPartition record.offset
    rw [setMaps_of_not_retired hret, mapsOf_of_not_retired hret, hfresh.maps, hempty, ← hfresh.maps]
    exact hs

/-- Dropping a legacy offset whose departure is sound. -/
theorem Inv.dropLegacy (hs : s.Inv log) (hc : s.consumer ≠ none) (hlive : s.retiredOf h = false)
    (hsound : Cohort.Sound (log record.topicPartition) s.nextDeliveryAttempt
      { s.cohort record.topicPartition with
        pending := (s.maps.pending record.topicPartition).erase record.offset }) :
    (s.dropLegacy h record).Inv log := by
  rw [State.dropLegacy, setMaps_of_not_retired hlive, mapsOf_of_not_retired hlive]
  refine hs.withMaps hc record.topicPartition ?_ (Cohort.Sound.drop_maps hsound)
  intro tp' hne
  exact (Cohort.agree_settle _ hne _).trans (Cohort.agree_prune _ hne)

theorem Inv.commitLegacy_retired (hs : s.Inv log) (hret : s.retiredOf h = true)
    (hempty : s.delivered record.topicPartition = ∅) (call : CommitCall) :
    (s.commitLegacy h record call).Inv log := by
  have hbefore := hs.events call.before
  have hnone : (s.events call.before).delivered record.topicPartition = ∅ := by
    have := hs.wf.delivered_events call.before record.topicPartition
    rw [hempty] at this
    exact Finset.subset_empty.mp this
  have hsent : ((s.events call.before).commit record.topicPartition (record.offset + 1)
      record.offset).Inv log := hbefore.commit (by simp [Cohort.skipped, cohort, hnone])
  have hretSent : ((s.events call.before).commit record.topicPartition (record.offset + 1)
      record.offset).retiredOf h = true := hs.wf.retiredOf_events hret call.before
  have hacked := hsent.acknowledge (s.epochOf h) record.topicPartition record.offset
  have hretAcked := ((still_acknowledge _ (s.epochOf h) record.topicPartition
    record.offset).retiredOf h).trans hretSent
  rw [State.commitLegacy]
  dsimp only
  split
  · split
    · have hdisarm := (hacked.events call.after).disarm h record
      split
      · refine hdisarm.setMaps_of_retired ?_ _
        rw [retiredOf_disarm]
        exact hacked.wf.retiredOf_events hretAcked call.after
      · exact hdisarm
    · exact hacked.events call.after
  · exact hsent.events call.after

/-- The record of a legacy operation on a live generation is in a legacy slot. -/
theorem Wf.armed_of_legacyRecordOf (w : s.Wf) (hlive : s.retiredOf h = false)
    (hcons : s.consumerOf h ≠ none) (hrec : s.legacyRecordOf h = some record) :
    s.Armed record := by
  rw [legacyRecordOf] at hrec
  rcases (w.live hlive hcons).2.2 with hnone | hcur
  · rw [hnone] at hrec
    exact .inl hrec
  · cases hg : s.handles h with
    | none =>
      rw [hg] at hrec
      exact .inl hrec
    | some g =>
      rw [hg] at hrec
      cases hl : g.legacyRecord with
      | none =>
        simp only [hl, Option.none_or] at hrec
        exact .inl hrec
      | some r =>
        right
        rw [currentLegacy, ← hcur, hg]
        simpa [hl] using hrec

theorem Inv.commitLegacy_live (hs : s.Inv log) (hlive : s.retiredOf h = false)
    (hcons : s.consumerOf h ≠ none) (hrec : s.legacyRecordOf h = some record)
    (hpending : s.maps.pending record.topicPartition ⊆ {record.offset}) (call : CommitCall) :
    (s.commitLegacy h record call).Inv log := by
  obtain ⟨hcne, hepoch, -⟩ := hs.wf.live hlive hcons
  have harmed := hs.wf.armed_of_legacyRecordOf hlive hcons hrec
  have hsent : Window log s s.maps (fun _ ↦ True)
      ((s.events call.before).commit record.topicPartition (record.offset + 1) record.offset) := by
    refine ((hs.window hcne s.maps trivial).events hcne call.before).commit ?_
    intro u hu hstill _
    refine (hu.sound record.topicPartition).skipped_legacy ?_ ?_
    · exact ⟨record, (hstill.armed record).mpr harmed, rfl, rfl⟩
    · rw [cohort, hstill.maps]
      exact hpending
  have hacked := (hsent.acknowledge hepoch record.topicPartition record.offset).events hcne
    call.after
  rw [State.commitLegacy]
  dsimp only
  split
  · rcases hacked.cases with hfresh | ⟨u, hu, hstill, hmem, heq⟩
    · have hinv := hacked.inv_of_fresh hfresh
      split
      · split
        · have hdisarm := hinv.disarm h record
          refine hdisarm.dropLegacy_of_fresh ⟨hfresh.maps, hfresh.delivered, ?_, ?_⟩ h record
          · simp [State.disarm, hfresh.lastRecord]
          · rw [currentLegacy_disarm, hfresh.currentLegacy]
            simp
        · exact hinv.disarm h record
      · exact hinv
    · have hsame : { u with maps := s.maps } = u := by rw [← hstill.maps]
      rw [heq, hsame]
      have hdisarm := hu.disarm h record
      split
      · split
        · refine hdisarm.dropLegacy ?_ ?_ ?_
          · exact hstill.consumer.trans_ne hcne
          · rw [retiredOf_disarm, hstill.retiredOf]
            exact hlive
          · exact (hdisarm.sound record.topicPartition).settle hmem
        · exact hdisarm
      · exact hu
  · have hend := hsent.events hcne call.after
    rcases hend.cases with hfresh | ⟨u, hu, hstill, -, heq⟩
    · exact hend.inv_of_fresh hfresh
    · have hsame : { u with maps := s.maps } = u := by rw [← hstill.maps]
      rw [heq, hsame]
      exact hu

theorem Inv.ackLegacy (hs : s.Inv log)
    (hguard : s.retiredOf h = true → ∀ r, s.legacyRecordOf h = some r →
      s.delivered r.topicPartition = ∅) (call : CommitCall) :
    (s.ackLegacy h call).Inv log := by
  rw [State.ackLegacy]
  split
  · rename_i c record hcons hrec
    dsimp only
    split
    · exact hs
    · split
      · exact hs
      · rename_i hpend
        cases hret : s.retiredOf h with
        | true => exact hs.commitLegacy_retired hret (hguard hret record hrec) call
        | false =>
          refine hs.commitLegacy_live hret (by simp [hcons]) hrec ?_ call
          rw [mapsOf_of_not_retired hret] at hpend
          rw [Maps.pending]
          cases hf : s.maps.inFlight record.topicPartition with
          | none => exact Finset.empty_subset _
          | some pending =>
            rw [hf] at hpend
            have : pending = {record.offset} := by
              by_contra hne
              exact hpend ⟨by simp, by simpa using hne⟩
            rw [this]
            exact subset_rfl
  · exact hs

end legacy

/-! ## Negative acknowledgements -/

section nack

variable {log : TopicPartition → ℕ → Bool} {h : Option ℕ}

/-- What is delivered is delivered by a consumer. -/
theorem Wf.consumer_of_delivered (w : s.Wf) {tp : TopicPartition} {o : ℕ}
    (ho : o ∈ s.delivered tp) : s.consumer ≠ none := by
  intro hc
  rw [(w.idle hc).1.delivered] at ho
  exact absurd ho (Finset.notMem_empty o)

theorem Inv.seek (hs : s.Inv log) {tp : TopicPartition} {o : ℕ} (ho : o ∈ s.delivered tp)
    (haw : ∀ x, (s.cohort tp).Awaited x → x = o) : (s.seek tp o).Inv log where
  wf := hs.wf.of_live (hs.wf.consumer_of_delivered ho) rfl rfl rfl rfl rfl
  sound := by
    intro tp'
    by_cases hne : tp' = tp
    · subst hne
      obtain ⟨p, hp, -⟩ := (hs.sound tp').assigned o ho
      have hp : s.position tp' = some p := hp
      have hcohort : (s.seek tp' o).cohort tp' = { s.cohort tp' with position := some o } := by
        simp only [cohort, State.seek, hp, Function.update_self]
        rfl
      rw [hcohort]
      exact (hs.sound tp').seek ho haw
    · have hcohort : (s.seek tp o).cohort tp' = s.cohort tp' := by
        simp only [cohort, State.seek, Function.update_of_ne hne]
        rfl
      rw [hcohort]
      exact hs.sound tp'
  clean := hs.clean

theorem Inv.setNacked (hs : s.Inv log) (nacked : TopicPartition → Finset ℕ) :
    { s with nacked := nacked }.Inv log where
  wf := by
    refine ⟨hs.wf.current, hs.wf.stale, hs.wf.orphan, hs.wf.slot, fun hc ↦ ?_⟩
    obtain ⟨hfresh, hpos⟩ := hs.wf.idle hc
    exact ⟨⟨hfresh.maps, hfresh.delivered, hfresh.lastRecord, hfresh.currentLegacy⟩, hpos⟩
  sound := hs.sound
  clean := hs.clean

/-- A live active attempt, as the cohort sees it. -/
theorem Inv.attempt_delivered (hs : s.Inv log) (hlive : s.retiredOf h = false) {token : Token}
    (hpos : token.deliveryAttempt ≠ 0) (hact : s.TokenIsActive h token) :
    s.maps.activeAttempts token.topicPartition token.offset = some token.deliveryAttempt ∧
      token.offset ∈ s.delivered token.topicPartition := by
  have hattempt := hact.attempt hpos
  rw [mapsOf_of_not_retired hlive] at hattempt
  exact ⟨hattempt, (hs.sound token.topicPartition).active_delivered _ _ hattempt⟩

theorem Inv.finishNack (hs : s.Inv log) (hlive : s.retiredOf h = false) {token : Token}
    (hpos : token.deliveryAttempt ≠ 0) (hact : s.TokenIsActive h token) :
    (s.finishNack h token).Inv log := by
  obtain ⟨hattempt, hdel⟩ := hs.attempt_delivered hlive hpos hact
  rw [State.finishNack, setMaps_of_not_retired hlive, mapsOf_of_not_retired hlive]
  refine (hs.withMaps (hs.wf.consumer_of_delivered hdel) token.topicPartition ?_ ?_).setNacked _
  · exact fun tp' hne ↦ Cohort.agree_finishAttempt _ hne
  · rw [Cohort.withMaps_finishAttempt _ _ hattempt]
    exact (hs.sound token.topicPartition).finishAttempt hattempt

theorem Inv.nackToken (hs : s.Inv log) {token : Token} (hpos : token.deliveryAttempt ≠ 0)
    (call : SeekCall) : (s.nackToken h token call).Inv log := by
  have hbefore := hs.events call.before
  rw [State.nackToken]
  split
  · exact hs
  · dsimp only
    split
    · exact hbefore
    · rename_i hgo
      simp only [not_or, Bool.not_eq_true, not_not] at hgo
      obtain ⟨-, hlive, hact⟩ := hgo
      obtain ⟨hattempt, hdel⟩ := hbefore.attempt_delivered hlive hpos hact
      have hseek := hbefore.seek hdel (by
        intro x hx
        have hmem := (hbefore.sound token.topicPartition).active_mem _ _ hattempt
        rw [hx.2.1] at hmem
        exact absurd hmem (Finset.notMem_empty _))
      have hafter := hseek.events call.after
      split
      · exact hafter
      · rename_i hend
        simp only [not_or, Bool.not_eq_true, not_not] at hend
        exact hafter.finishNack hend.1 hpos hend.2

theorem Wf.consumer_happen (w : s.Wf) (e : Event) :
    (s.happen e).consumer = s.consumer ∨ (s.happen e).consumer = none := by
  cases e with
  | rebalance assignment =>
    left
    rw [State.happen, State.rebalance, onAssignmentChanged]
    split <;> rfl
  | disconnect => exact .inr rfl
  | connect =>
    left
    rw [State.happen, State.publish]
    split <;> rfl
  | lease =>
    left
    rcases w.lease_cases with h | h
    · rw [State.happen, h]
    · rw [State.happen, h]
      rfl

theorem Wf.current_happen (w : s.Wf) {i : ℕ} (hcur : s.current = some i) (e : Event) :
    ((s.happen e).current = some i ∧ (s.happen e).consumer = s.consumer) ∨
      ((s.happen e).retiredOf (some i) = true ∧ (s.happen e).consumer = none) := by
  cases e with
  | rebalance assignment =>
    left
    rw [State.happen, State.rebalance, onAssignmentChanged]
    split
    · exact ⟨hcur, rfl⟩
    · exact ⟨hcur, rfl⟩
  | disconnect =>
    right
    obtain ⟨g, hg, -⟩ := w.current i hcur
    have hmod := handles_modifyHandles s s.current (fun g ↦
      { g with
        retired := true, assignmentEpoch := s.assignmentEpoch, legacyRecord := s.lastRecord,
        maps := s.maps }) (some i)
    have hhandles : s.handles (some i) = some g := hg
    rw [if_pos hcur, hhandles] at hmod
    have hdis : s.disconnect.handles (some i) = some _ := hmod
    refine ⟨?_, rfl⟩
    rw [State.happen, retiredOf, hdis]
  | connect =>
    left
    rw [State.happen, State.publish, if_pos (.inl (by simp [hcur]))]
    exact ⟨hcur, rfl⟩
  | lease =>
    left
    rcases w.lease_cases with h | h
    · rw [State.happen, h]
      exact ⟨hcur, rfl⟩
    · rw [State.happen, h]
      exact ⟨hcur, rfl⟩

/-- The accepting generation stays so, or is retired and its consumer is gone. -/
theorem Wf.current_events (w : s.Wf) {i : ℕ} (hcur : s.current = some i) (es : List Event) :
    ((s.events es).current = some i ∧ (s.events es).consumer = s.consumer) ∨
      ((s.events es).retiredOf (some i) = true ∧ (s.events es).consumer = none) := by
  have hgone : ∀ (es : List Event) (t : State), t.Wf → t.consumer = none →
      (t.events es).consumer = none := by
    intro es
    induction es with
    | nil => exact fun t _ hc ↦ hc
    | cons e es ih =>
      intro t ht hc
      refine ih _ (ht.happen e).1 ?_
      exact (ht.consumer_happen e).elim (fun h ↦ h.trans hc) id
  induction es generalizing s with
  | nil => exact .inl ⟨hcur, rfl⟩
  | cons e es ih =>
    have hcons : s.events (e :: es) = (s.happen e).events es := rfl
    have hw := (w.happen e).1
    rw [hcons]
    rcases w.current_happen hcur e with ⟨hcur', hcon⟩ | ⟨hret, hcon⟩
    · rw [← hcon]
      exact ih hw hcur'
    · exact .inr ⟨hw.retiredOf_events hret es, hgone es _ hw hcon⟩

/-- An operation on no generation or on the accepting one. -/
def Accepting (s : State) (h : Option ℕ) : Prop := h = none ∨ (h = s.current ∧ s.handles h ≠ none)

theorem Wf.accepting (w : s.Wf) (hpub : s.Published h) (hlive : s.retiredOf h = false)
    (hcons : s.consumerOf h ≠ none) : s.Accepting h := by
  cases h with
  | none => exact .inl rfl
  | some i =>
    have hsome : s.handles (some i) ≠ none := by
      have hlt := hpub i rfl
      simp [handles, hlt]
    rcases (w.live hlive hcons).2.2 with hnone | hcur
    · exact absurd hnone hsome
    · exact .inr ⟨hcur, hsome⟩

theorem Accepting.events (w : s.Wf) (hacc : s.Accepting h) {es : List Event}
    (hlive : (s.events es).retiredOf h = false) : (s.events es).Accepting h := by
  rcases hacc with rfl | ⟨hcur, hsome⟩
  · exact .inl rfl
  · cases h with
    | none => simp [handles] at hsome
    | some i =>
      rcases w.current_events hcur.symm es with ⟨hcur', -⟩ | ⟨hret, -⟩
      · obtain ⟨g, hg, -⟩ := (w.events es).1.current i hcur'
        exact .inr ⟨hcur'.symm, by simp [handles, hg]⟩
      · rw [hlive] at hret
        cases hret

theorem armed_of_holdsLegacy {epoch : ℕ} {record : Record} (hacc : s.Accepting h)
    (hold : s.HoldsLegacy h epoch record) : s.Armed record := by
  obtain ⟨-, hmatch⟩ := hold
  rcases hacc with rfl | ⟨rfl, hsome⟩
  · exact .inl hmatch
  · obtain ⟨g, hg⟩ := Option.ne_none_iff_exists'.mp hsome
    rw [hg] at hmatch
    right
    rw [currentLegacy, hg]
    exact hmatch

/-- After a legacy nack has given up its record, no other record is in a slot. -/
theorem Wf.armed_disarm (w : s.Wf) {epoch : ℕ} {record r : Record} (hacc : s.Accepting h)
    (hold : s.HoldsLegacy h epoch record) (hr : (s.disarm h record).Armed r) : r = record := by
  obtain ⟨-, hmatch⟩ := hold
  rcases hacc with rfl | ⟨rfl, hsome⟩
  · have hlast : s.lastRecord = some record := hmatch
    rcases armed_of_armed_disarm hr with h | h
    · rw [hlast] at h
      exact (Option.some.inj h).symm
    · rcases w.slot record hlast with hslot | hslot
      · rw [hslot] at h
        cases h
      · rw [hslot] at h
        exact (Option.some.inj h).symm
  · obtain ⟨g, hg⟩ := Option.ne_none_iff_exists'.mp hsome
    rw [hg] at hmatch
    have hlegacy : s.currentLegacy = some record := by
      rw [currentLegacy, hg]
      exact hmatch
    rcases armed_of_armed_disarm hr with h | h
    · rcases w.slot r h with hslot | hslot
      · rw [hlegacy] at hslot
        cases hslot
      · rw [hlegacy] at hslot
        exact (Option.some.inj hslot).symm
    · rw [hlegacy] at h
      exact (Option.some.inj h).symm

theorem Inv.finishNackLegacy (hs : s.Inv log) (hlive : s.retiredOf h = false) {epoch : ℕ}
    {record : Record} (hacc : s.Accepting h) (hold : s.HoldsLegacy h epoch record)
    (hpos : s.position record.topicPartition = some record.offset) (wasPending : Bool) :
    (s.finishNackLegacy h record wasPending).Inv log := by
  have hdisarm := hs.disarm h record
  have hlive' : (s.disarm h record).retiredOf h = false := by
    rw [retiredOf_disarm]
    exact hlive
  have hdel : record.offset ∈ s.delivered record.topicPartition :=
    (hs.sound record.topicPartition).armed_delivered _
      ⟨record, armed_of_holdsLegacy hacc hold, rfl, rfl⟩
  rw [State.finishNackLegacy]
  split
  · rename_i hdrop
    rw [mapsOf_of_not_retired hlive'] at hdrop
    refine hdisarm.dropLegacy (hdisarm.wf.consumer_of_delivered hdel) hlive' ?_
    refine (hdisarm.sound record.topicPartition).release hpos hdrop.2 ?_
    rintro a ⟨r, hr, -, rfl⟩
    rw [hs.wf.armed_disarm hacc hold hr]
  · exact hdisarm

/-- A seek holds until the epoch is over. -/
theorem Wf.position_events (w : s.Wf) {tp : TopicPartition} {o : ℕ} (hpos : s.position tp = some o)
    (es : List Event) : (s.events es).position tp = some o ∨ (s.events es).Fresh := by
  rcases (w.events es).2 with h | h | h
  · left
    rw [h]
    exact hpos
  · left
    rw [h]
    exact hpos
  · exact .inr h

theorem Inv.nackLegacy (hs : s.Inv log) (hpub : s.Published h) (call : SeekCall) :
    (s.nackLegacy h call).Inv log := by
  have hbefore := hs.events call.before
  rw [State.nackLegacy]
  split
  · rename_i c record hcons hrec
    dsimp only
    split
    · exact hbefore
    · rename_i hgo
      simp only [not_or, Bool.not_eq_true, not_not] at hgo
      obtain ⟨-, hlive, hold⟩ := hgo
      have hliveStart : s.retiredOf h = false := by
        by_contra hret
        have hret := hs.wf.retiredOf_events (Bool.not_eq_false _ ▸ hret) call.before
        rw [hlive] at hret
        cases hret
      have hacc := (hs.wf.accepting hpub hliveStart (by simp [hcons])).events hs.wf hlive
      have harmed := armed_of_holdsLegacy hacc hold
      have hdel := (hbefore.sound record.topicPartition).armed_delivered _
        ⟨record, harmed, rfl, rfl⟩
      have hseek := hbefore.seek hdel fun x hx ↦
        (hx.2.2 record.offset ⟨record, harmed, rfl, rfl⟩).symm
      have hafter := hseek.events call.after
      split
      · exact hafter
      · rename_i hend
        simp only [not_or, Bool.not_eq_true, not_not] at hend
        obtain ⟨hliveEnd, holdEnd⟩ := hend
        have haccSeek : ((s.events call.before).seek record.topicPartition
            record.offset).Accepting h := hacc
        have haccEnd := haccSeek.events hseek.wf hliveEnd
        obtain ⟨p, hp, -⟩ := (hbefore.sound record.topicPartition).assigned _ hdel
        have hpos : ((s.events call.before).seek record.topicPartition
            record.offset).position record.topicPartition = some record.offset := by
          have hp : (s.events call.before).position record.topicPartition = some p := hp
          simp [State.seek, hp]
        rcases hseek.wf.position_events hpos call.after with hpos' | hfresh
        · exact hafter.finishNackLegacy hliveEnd haccEnd holdEnd hpos' _
        · rcases armed_of_holdsLegacy haccEnd holdEnd with hlast | hlegacy
          · rw [hfresh.lastRecord] at hlast
            cases hlast
          · rw [hfresh.currentLegacy] at hlegacy
            cases hlegacy
  · exact hs

end nack

end State

end Kafka

end ScrapyExtension
