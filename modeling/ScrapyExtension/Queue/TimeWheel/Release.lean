import ScrapyExtension.Queue.TimeWheel.Drain

/-!
# What the time wheel releases

Each call keeps `Consistent`, and what it accepts, releases and drops accounts for the difference between
what was held before and after. A drain that returns leaves nothing whose tick has come: an entry that is
due at a tick up to the current one, and not before the last one that was processed, is in one of the slots
that are scanned.
-/

namespace ScrapyExtension

open Py

namespace TimeWheel

variable {α : Type*} {c : Config} {s : State α}

/-! ## Calls that add an entry -/

theorem flatMap_modify_perm {β γ : Type*} {l : List β} {i : ℕ} {f : β → β} {g : β → List γ} {x : γ}
    (hi : i < l.length) (hg : ∀ r ∈ l[i]?, (g (f r)).Perm (x :: g r)) :
    ((l.modify i f).flatMap g).Perm (x :: l.flatMap g) := by
  induction l generalizing i with
  | nil => simp at hi
  | cons r l ih =>
    cases i with
    | zero =>
      rw [List.modify_zero_cons, List.flatMap_cons, List.flatMap_cons, ← List.cons_append]
      exact (hg r rfl).append_right _
    | succ i =>
      rw [List.modify_succ_cons, List.flatMap_cons, List.flatMap_cons]
      refine (List.Perm.append_left _ (ih (by simpa using hi) ?_)).trans List.perm_middle
      simpa using hg

theorem Consistent.numbered_append (hc : Consistent c s) (h : Held α) (hseq : h.sequence = s.seq) :
    ((s.issued ++ [h]).map Held.sequence).Pairwise (· < ·) ∧ ∀ a ∈ s.issued ++ [h], a.sequence < s.seq + 1 := by
  constructor
  · rw [List.map_append, List.pairwise_append]
    refine ⟨hc.numbered, by simp, ?_⟩
    intro a ha b hb
    obtain ⟨x, hx, rfl⟩ := List.mem_map.mp ha
    obtain rfl : b = h.sequence := by simpa using hb
    exact hseq ▸ hc.fresh x hx
  · intro a ha
    rcases List.mem_append.mp ha with ha | ha
    · exact (hc.fresh a ha).trans (Nat.lt_succ_self _)
    · obtain rfl : a = h := by simpa using ha
      omega

/-- An entry goes into the slot of its tick. -/
theorem Consistent.add_wheel (hc : Consistent c s) {h : Held α} (hseq : h.sequence = s.seq)
    (hlater : s.lastTick < c.readyTick h.readyAt) :
    let t : State α := { s with
      wheel := s.wheel.modify (c.slotAt h.readyAt) fun r ↦ r.append h.entry h.sequence none
      seq := s.seq + 1
      issued := s.issued ++ [h] }
    Consistent c t ∧ (held t).Perm (h :: held s) := by
  intro t
  have hlt : c.slotAt h.readyAt < s.wheel.length := by
    rw [hc.size]
    exact c.slotOf_lt _
  -- an entry of a slot is an old one, or the new one in its slot
  have hmem : ∀ j r, t.wheel[j]? = some r → ∃ r', s.wheel[j]? = some r' ∧
      ((r = r' ∧ c.slotAt h.readyAt ≠ j) ∨ (r = .ofHeld (r'.contents ++ [h]) ∧ c.slotAt h.readyAt = j)) := by
    intro j r hr
    rw [List.getElem?_modify] at hr
    obtain ⟨r', hr', hif⟩ := Option.map_eq_some_iff.mp hr
    refine ⟨r', hr', ?_⟩
    rw [← hif]
    split_ifs with hj
    · refine .inr ⟨?_, hj⟩
      rw [← Slot.append_ofHeld, ← hc.slots r' (List.mem_of_getElem? hr')]
    · exact .inl ⟨rfl, hj⟩
  have hheld : (held t).Perm (h :: held s) := by
    refine List.Perm.append_right _ (flatMap_modify_perm hlt ?_)
    intro r hr
    rw [hc.slots r (List.mem_of_getElem? hr), Slot.append_ofHeld, Slot.contents_ofHeld, Slot.contents_ofHeld]
    exact List.perm_append_singleton _ _
  have hnumbered := hc.numbered_append h hseq
  refine ⟨⟨?_, ?_, ?_, ?_, ?_, hc.heap, ?_, hnumbered.1, hnumbered.2, hc.tick⟩, hheld⟩
  · rw [List.length_modify]
    exact hc.size
  · intro r hr
    obtain ⟨j, hj⟩ := List.mem_iff_getElem?.mp hr
    obtain ⟨r', hr', ⟨rfl, -⟩ | ⟨rfl, -⟩⟩ := hmem j r hj
    · exact hc.slots r (List.mem_of_getElem? hr')
    · rw [Slot.contents_ofHeld]
  · intro r hr
    obtain ⟨j, hj⟩ := List.mem_iff_getElem?.mp hr
    obtain ⟨r', hr', ⟨rfl, -⟩ | ⟨rfl, -⟩⟩ := hmem j r hj
    · exact hc.ascending r (List.mem_of_getElem? hr')
    · have hr'' := List.mem_of_getElem? hr'
      have hold := hc.ascending r' hr''
      rw [hc.slots r' hr''] at hold
      simp only [Slot.ofHeld, List.map_append, List.map_cons, List.map_nil]
      rw [List.pairwise_append]
      refine ⟨hold, by simp, ?_⟩
      intro a ha b hb
      obtain ⟨x, hx, rfl⟩ := List.mem_map.mp ha
      obtain rfl : b = h.sequence := by simpa using hb
      have hx' : x ∈ held s := List.mem_append_left _ (List.mem_flatMap.mpr ⟨r', hr'', hx⟩)
      exact hseq ▸ hc.fresh x (hc.issued.subset hx')
  · intro r hr x hx
    obtain ⟨j, hj⟩ := List.mem_iff_getElem?.mp hr
    obtain ⟨r', hr', ⟨rfl, -⟩ | ⟨rfl, -⟩⟩ := hmem j r hj
    · exact hc.later r (List.mem_of_getElem? hr') x hx
    · rw [Slot.contents_ofHeld] at hx
      rcases List.mem_append.mp hx with hx | hx
      · exact hc.later r' (List.mem_of_getElem? hr') x hx
      · obtain rfl : x = h := by simpa using hx
        exact hlater
  · intro j x hx
    cases hj : t.wheel[j]? with
    | none =>
      rw [contents_slot_of_le (List.getElem?_eq_none_iff.mp hj)] at hx
      exact absurd hx List.not_mem_nil
    | some r =>
      have hslot : slot t.wheel j = r := by rw [slot, List.getD_eq_getElem?_getD, hj, Option.getD_some]
      rw [hslot] at hx
      obtain ⟨r', hr', ⟨rfl, -⟩ | ⟨rfl, hij⟩⟩ := hmem j r hj
      · apply hc.placed j x
        rw [slot, List.getD_eq_getElem?_getD, hr', Option.getD_some]
        exact hx
      · rw [Slot.contents_ofHeld] at hx
        rcases List.mem_append.mp hx with hx | hx
        · apply hc.placed j x
          rw [slot, List.getD_eq_getElem?_getD, hr', Option.getD_some]
          exact hx
        · obtain rfl : x = h := by simpa using hx
          exact hij
  · refine hheld.subperm.trans ?_
    exact ((List.subperm_cons h).mpr hc.issued).trans (List.perm_append_singleton h s.issued).symm.subperm

/-- An entry goes into the heap. -/
theorem Consistent.add_overflow (hc : Consistent c s) {h : Held α} (hseq : h.sequence = s.seq) :
    let t : State α := { s with
      overflow := Heapq.heappush Held.key s.overflow h
      seq := s.seq + 1
      issued := s.issued ++ [h] }
    Consistent c t ∧ (held t).Perm (h :: held s) := by
  intro t
  obtain ⟨hordered, hperm⟩ := Heapq.heappush_spec hc.heap h
  have hheld : (held t).Perm (h :: held s) := (List.Perm.append_left _ hperm).trans List.perm_middle
  have hnumbered := hc.numbered_append h hseq
  refine ⟨⟨hc.size, hc.slots, hc.ascending, hc.later, hc.placed, hordered, ?_, hnumbered.1, hnumbered.2,
    hc.tick⟩, hheld⟩
  refine hheld.subperm.trans ?_
  exact ((List.subperm_cons h).mpr hc.issued).trans (List.perm_append_singleton h s.issued).symm.subperm

/-! ## Each call -/

theorem Consistent.read (hc : Consistent c s) {now : ℚ} {t : State α} (h : s.read now = some t) :
    Consistent c t ∧ t = { s with clock := now } := by
  unfold State.read at h
  split_ifs at h with hle
  obtain rfl := Option.some.inj h
  exact ⟨{ hc with tick := hc.tick.trans (Config.tickAt_mono hle) }, rfl⟩

/-- What a call took in is what it gave out and what it holds more. -/
def Balanced (s t : State α) (e : Effect α) : Prop :=
  (held s ++ e.accepted).Perm (e.released ++ e.dropped ++ held t)

theorem Balanced.none (s : State α) : Balanced s s .none := by
  simp [Balanced, Effect.none]

theorem Balanced.accepted {t : State α} {h : Held α} (hperm : (held t).Perm (h :: held s)) :
    Balanced s t { Effect.none with accepted := [h] } := by
  refine (List.perm_append_singleton h (held s)).trans ?_
  simpa [Effect.none] using hperm.symm

theorem set_eq_modify (wheel : List (Slot α)) (i : ℕ) (f : Slot α → Slot α) :
    wheel.set i (f (slot wheel i)) = wheel.modify i f := by
  apply List.ext_getElem?
  intro j
  rw [List.getElem?_modify, List.getElem?_set, slot, List.getD_eq_getElem?_getD]
  by_cases hij : i = j
  · subst hij
    rw [if_pos rfl]
    cases hi : wheel[i]? with
    | none =>
      rw [if_neg (not_lt.mpr (List.getElem?_eq_none_iff.mp hi))]
      rfl
    | some r =>
      rw [if_pos (List.getElem?_eq_some_iff.mp hi).1]
      simp
  · simp [hij]

/-- An interrupted append, which is rolled back, leaves the wheel. -/
theorem set_rollback (wheel : List (Slot α)) (i : ℕ) (e : Entry α) (seq : ℕ) (signal : Option Stop) :
    wheel.set i ((slot wheel i).rollback ((slot wheel i).append e seq signal)) = wheel := by
  rw [Slot.rollback_append]
  apply List.ext_getElem?
  intro j
  rw [List.getElem?_set]
  split_ifs with hij hlt
  · subst hij
    rw [slot, List.getD_eq_getElem _ _ hlt, List.getElem?_eq_getElem hlt]
  · subst hij
    exact (List.getElem?_eq_none_iff.mpr (not_lt.mp hlt)).symm
  · rfl

theorem Consistent.push (hc : Consistent c s) (item : α) (priority delay : ℚ) (signal : Option Stop) :
    Consistent c (c.push s item priority delay signal).1 ∧
      Balanced s (c.push s item priority delay signal).1 (c.push s item priority delay signal).2 := by
  unfold Config.push
  by_cases hneg : delay < 0
  · rw [if_pos hneg]
    exact ⟨hc, .none s⟩
  rw [if_neg hneg]
  generalize (if 0 < delay then delay else c.defaultDelay) = effective
  by_cases hpos : effective ≤ 0
  · simp only [if_pos hpos]
    exact ⟨hc, .none s⟩
  simp only [if_neg hpos]
  by_cases hwheel : effective ≤ c.wheelDuration
  · simp only [if_pos hwheel]
    have hready : s.clock < s.clock + effective := by linarith
    have hlater : s.lastTick < c.readyTick (s.clock + effective) :=
      lt_of_le_of_lt hc.tick (Config.tickAt_lt_readyTick hready)
    cases signal with
    | none =>
      have hadd := hc.add_wheel (h := ⟨s.clock + effective, s.seq, item, priority⟩) rfl hlater
      simp only [← set_eq_modify s.wheel] at hadd
      exact ⟨hadd.1, Balanced.accepted hadd.2⟩
    | some stop =>
      simp only [set_rollback]
      refine ⟨{ hc with fresh := fun h hh ↦ (hc.fresh h hh).trans_le ?_ }, .none s⟩
      split_ifs
      · exact le_rfl
      · exact Nat.le_succ _
  · simp only [if_neg hwheel]
    have hadd := hc.add_overflow (h := ⟨s.clock + effective, s.seq, item, priority⟩) rfl
    exact ⟨hadd.1, Balanced.accepted hadd.2⟩

theorem push_issued (s : State α) (c : Config) (item : α) (priority delay : ℚ) (signal : Option Stop) :
    (c.push s item priority delay signal).2.dropped = [] ∧
      (c.push s item priority delay signal).1.issued =
        s.issued ++ (c.push s item priority delay signal).2.accepted := by
  unfold Config.push
  by_cases hneg : delay < 0
  · simp [if_pos hneg, Effect.none]
  rw [if_neg hneg]
  generalize (if 0 < delay then delay else c.defaultDelay) = effective
  by_cases hpos : effective ≤ 0
  · simp [if_pos hpos, Effect.none]
  simp only [if_neg hpos]
  by_cases hwheel : effective ≤ c.wheelDuration
  · simp only [if_pos hwheel]
    cases signal <;> simp [Effect.none]
  · simp [if_neg hwheel, Effect.none]

theorem contents_emptyWheel : (c.emptyWheel : List (Slot α)).flatMap Slot.contents = [] := by
  rw [List.flatMap_eq_nil_iff]
  intro r hr
  rw [List.eq_of_mem_replicate hr]
  rfl

theorem slot_emptyWheel (i : ℕ) : slot (c.emptyWheel : List (Slot α)) i = ⟨[], [], none⟩ := by
  rw [slot, Config.emptyWheel, List.getD_eq_getElem?_getD, List.getElem?_replicate]
  split_ifs <;> rfl

/-- Nothing is held, and the numbers go on. -/
theorem Consistent.empty {t : State α} (hwheel : t.wheel = c.emptyWheel) (hover : t.overflow = [])
    (hnumbered : (t.issued.map Held.sequence).Pairwise (· < ·)) (hfresh : ∀ h ∈ t.issued, h.sequence < t.seq)
    (htick : t.lastTick ≤ c.tickAt t.clock) : Consistent c t := by
  have hslot : ∀ r ∈ t.wheel, r = ⟨[], [], none⟩ := by
    intro r hr
    rw [hwheel] at hr
    exact List.eq_of_mem_replicate hr
  refine ⟨?_, ?_, ?_, ?_, ?_, ?_, ?_, hnumbered, hfresh, htick⟩
  · rw [hwheel, Config.emptyWheel, List.length_replicate]
  · intro r hr
    rw [hslot r hr]
    rfl
  · intro r hr
    rw [hslot r hr]
    exact List.Pairwise.nil
  · intro r hr h hh
    rw [hslot r hr] at hh
    exact absurd hh List.not_mem_nil
  · intro i h hh
    rw [hwheel, slot_emptyWheel] at hh
    exact absurd hh List.not_mem_nil
  · rw [hover]
    intro i a b _ ha
    simp at ha
  · rw [held, hwheel, hover, contents_emptyWheel]
    exact List.nil_subperm

theorem held_eq_nil {t : State α} (hwheel : t.wheel = c.emptyWheel) (hover : t.overflow = []) :
    held t = [] := by
  rw [held, hwheel, hover, contents_emptyWheel, List.append_nil]

theorem Consistent.initial (c : Config) (now : ℚ) : Consistent c (c.initial now : State α) :=
  .empty rfl rfl List.Pairwise.nil (fun _ h ↦ absurd h List.not_mem_nil) le_rfl

theorem Consistent.clear (hc : Consistent c s) :
    Consistent c (c.clear s).1 ∧ Balanced s (c.clear s).1 (c.clear s).2 := by
  refine ⟨.empty rfl rfl hc.numbered hc.fresh hc.tick, ?_⟩
  have hheld : held (c.clear s).1 = [] := held_eq_nil rfl rfl
  rw [Balanced, hheld]
  simp [Config.clear, Effect.none]

/-- The recovered containers, after some of the entries. -/
theorem Consistent.recover {now : ℚ} (hc : Consistent c s) (hclock : s.clock = now)
    (htick : s.lastTick = c.tickAt now) (e : Staged α) :
    Consistent c (c.recover now s e) ∧ (c.recover now s e).clock = now ∧
      (c.recover now s e).lastTick = c.tickAt now := by
  unfold Config.recover
  split_ifs with hwheel
  · have hlater : s.lastTick < c.readyTick e.readyAt := htick ▸ Config.tickAt_lt_readyTick hwheel.1
    exact ⟨(hc.add_wheel (h := ⟨e.readyAt, s.seq, e.item, e.priority⟩) rfl hlater).1, hclock, htick⟩
  · exact ⟨(hc.add_overflow (h := ⟨e.readyAt, s.seq, e.item, e.priority⟩) rfl).1, hclock, htick⟩

theorem Consistent.foldl_recover {now : ℚ} (staged : List (Staged α)) (hc : Consistent c s)
    (hclock : s.clock = now) (htick : s.lastTick = c.tickAt now) :
    Consistent c (staged.foldl (c.recover now) s) := by
  induction staged generalizing s with
  | nil => exact hc
  | cons e es ih =>
    obtain ⟨hc', hclock', htick'⟩ := hc.recover hclock htick e
    exact ih hc' hclock' htick'

theorem Consistent.restore (hc : Consistent c s) (wallTime : ℚ) (saved : Option (Snapshot α)) :
    Consistent c (c.restore s wallTime saved).1 ∧
      Balanced s (c.restore s wallTime saved).1 (c.restore s wallTime saved).2 := by
  unfold Config.restore
  cases saved with
  | none => exact ⟨hc, .none s⟩
  | some saved =>
    dsimp only
    split
    · exact ⟨hc, .none s⟩
    · refine ⟨Consistent.foldl_recover _ (Consistent.initial c s.clock) rfl rfl, ?_⟩
      rw [Balanced, Effect.none, List.nil_append]

/-! ## Drains -/

section

variable [DecidableEq α] {t : State α} {released left : List (Held α)} {completed : Bool}

/-- What a complete drain leaves in the wheel is due at a later tick. -/
theorem Drained.later (hc : Consistent c s) (hd : Drained c s t released left true) {r : Slot α}
    (hr : r ∈ t.wheel) {h : Held α} (hh : h ∈ r.contents) : c.tickAt s.clock < c.readyTick h.readyAt := by
  by_contra hle
  rw [hd.wheel] at hr
  obtain ⟨r', hr', rfl⟩ := List.mem_map.mp hr
  rw [Slot.contents_ofHeld, List.mem_filter, decide_eq_true_eq] at hh
  obtain ⟨i, hi, rfl⟩ := List.getElem_of_mem hr'
  have hslot : slot s.wheel i = s.wheel[i] := by rw [slot, List.getD_eq_getElem _ _ hi]
  exact hh.2 (hd.mem_released_of_slot hc (hslot ▸ hh.1) (not_lt.mp hle))

theorem Drained.consistent (hc : Consistent c s) (hd : Drained c s t released left completed) :
    Consistent c t := by
  obtain ⟨hseq, hclock, hissued⟩ := hd.frame
  -- a slot is one of the start, without some entries
  have hslots : ∀ r ∈ t.wheel, ∃ r' ∈ s.wheel, r = .ofHeld (r'.contents.filter (· ∉ released)) := by
    intro r hr
    rw [hd.wheel] at hr
    obtain ⟨r', hr', rfl⟩ := List.mem_map.mp hr
    exact ⟨r', hr', rfl⟩
  refine ⟨?_, ?_, ?_, ?_, ?_, hd.heap, ?_, ?_, ?_, ?_⟩
  · rw [hd.wheel, List.length_map]
    exact hc.size
  · intro r hr
    obtain ⟨r', -, rfl⟩ := hslots r hr
    rw [Slot.contents_ofHeld]
  · intro r hr
    obtain ⟨r', hr', rfl⟩ := hslots r hr
    have hold := hc.ascending r' hr'
    rw [hc.slots r' hr'] at hold
    exact hold.sublist (List.filter_sublist.map _)
  · intro r hr h hh
    rw [hd.lastTick]
    cases completed with
    | true => exact hd.later hc hr hh
    | false =>
      obtain ⟨r', hr', rfl⟩ := hslots r hr
      rw [Slot.contents_ofHeld] at hh
      exact hc.later r' hr' h (List.mem_of_mem_filter hh)
  · intro i h hh
    rw [hd.wheel, slot_map rfl, Slot.contents_ofHeld] at hh
    exact hc.placed i h (List.mem_of_mem_filter hh)
  · rw [hissued]
    exact hd.remaining.subperm.trans (List.filter_sublist.subperm.trans hc.issued)
  · rw [hissued]
    exact hc.numbered
  · rw [hissued, hseq]
    exact hc.fresh
  · rw [hd.lastTick, hclock]
    split_ifs
    · exact le_rfl
    · exact hc.tick

end

/-! ## Runs -/

section Runs

variable [DecidableEq α]

/-- **A call** keeps the invariant, and accounts for all entries. -/
theorem Consistent.call (hc : Consistent c s) {a : Call α} {t : State α} {e : Effect α}
    (h : c.call s a = some (t, e)) : Consistent c t ∧ Balanced s t e := by
  cases a with
  | push now item priority delay signal =>
    obtain ⟨s', hread, heq⟩ := Option.map_eq_some_iff.mp h
    obtain ⟨hc', rfl⟩ := hc.read hread
    have hpush := hc'.push item priority delay signal
    rw [heq] at hpush
    exact hpush
  | drain now taken =>
    obtain ⟨s', hread, heq⟩ := Option.map_eq_some_iff.mp h
    obtain ⟨hc', rfl⟩ := hc.read hread
    obtain ⟨u, released, left, completed, hdrain, hd⟩ := drain_spec hc' taken
    rw [hdrain, Prod.mk.injEq] at heq
    obtain ⟨rfl, rfl⟩ := heq
    refine ⟨hd.consistent hc', ?_⟩
    have hperm := hd.perm hc'
    rw [Balanced, List.append_nil, List.append_nil]
    exact hperm
  | clear cleared =>
    obtain heq := Option.some.inj h
    cases cleared with
    | false =>
      rw [if_neg Bool.false_ne_true, Prod.mk.injEq] at heq
      obtain ⟨rfl, rfl⟩ := heq
      exact ⟨hc, .none s⟩
    | true =>
      rw [if_pos rfl] at heq
      have hclear := hc.clear
      rw [heq] at hclear
      exact hclear
  | restore now wallTime saved =>
    obtain ⟨s', hread, heq⟩ := Option.map_eq_some_iff.mp h
    obtain ⟨hc', rfl⟩ := hc.read hread
    have hrestore := hc'.restore wallTime saved
    rw [heq] at hrestore
    exact hrestore

theorem Consistent.of_reachable {start : ℚ} (h : (machine c start).Reachable s) : Consistent c s := by
  refine h.invariant (Consistent.initial c start) ?_
  intro s a t hc hstep
  obtain ⟨⟨t, e⟩, hcall, rfl⟩ := Option.map_eq_some_iff.mp hstep
  exact (hc.call hcall).1

/-- The four containers fit together. -/
structure WellFormed (c : Config) (s : State α) : Prop where
  size : s.wheel.length = c.wheelSize
  lengths : ∀ r ∈ s.wheel, r.entries.length = r.sequences.length
  /-- The number at an index is the one that was issued for the entry at this index. -/
  matching : ∀ r ∈ s.wheel, ∀ h ∈ r.contents, h ∈ s.issued
  /-- The entries are in the order of their numbers, which are issued once. -/
  ascending : ∀ r ∈ s.wheel, r.sequences.Pairwise (· < ·)
  numbered : (s.issued.map Held.sequence).Nodup
  minimum : ∀ r ∈ s.wheel, r.minimum = (r.entries.map Entry.readyAt).min?
  later : ∀ r ∈ s.wheel, ∀ e ∈ r.entries, s.lastTick < c.readyTick e.readyAt
  placed : ∀ i < c.wheelSize, ∀ e ∈ (slot s.wheel i).entries, c.readyTick e.readyAt % c.wheelSize = i
  heap : Heapq.Ordered Held.key s.overflow

/-- **The time wheel is well formed** after every run of pushes, drains that return or raise, clears and
restores. -/
theorem time_wheel_invariant (c : Config) (start : ℚ) {s : State α} (hs : (machine c start).Reachable s) :
    WellFormed c s := by
  have hc := Consistent.of_reachable hs
  -- an entry of a slot has a number beside it
  have hmem : ∀ r ∈ s.wheel, ∀ e ∈ r.entries, ∃ h ∈ r.contents, h.readyAt = e.readyAt := by
    intro r hr e he
    rw [hc.slots r hr] at he
    obtain ⟨h, hh, rfl⟩ := List.mem_map.mp he
    exact ⟨h, hh, rfl⟩
  refine ⟨hc.size, ?_, ?_, hc.ascending, hc.numbered.imp fun h ↦ h.ne, ?_, ?_, ?_, hc.heap⟩
  · intro r hr
    rw [hc.slots r hr]
    simp [Slot.ofHeld]
  · intro r hr h hh
    exact hc.issued.subset (List.mem_append_left _ (List.mem_flatMap.mpr ⟨r, hr, hh⟩))
  · intro r hr
    rw [hc.slots r hr]
    exact (congrArg Slot.minimum (Slot.recompute_ofHeld r.contents)).symm
  · intro r hr e he
    obtain ⟨h, hh, hready⟩ := hmem r hr e he
    exact hready ▸ hc.later r hr h hh
  · intro i hi e he
    obtain ⟨h, hh, hready⟩ := hmem _ (slot_mem (hc.size ▸ hi)) e he
    have hplaced := hc.placed i h hh
    rw [hready, Config.slotAt, Config.slotOf] at hplaced
    have := Int.emod_nonneg (c.readyTick e.readyAt) c.wheelSize_pos.ne'
    omega

/-- Four slots, a tick each second. -/
def fourSlots : Config := ⟨4, by decide, 1, by decide, 0, by decide⟩

/-- A short delay and a long one, and a drain in which the backend raises. -/
def shortAndLong : List (Call ℕ) :=
  [.push 0 7 0 (3 / 2) none, .push 0 8 1 6 none, .push (1 / 2) 9 0 4 none, .drain 3 fun _ ↦ false]

theorem isSome_shortAndLong :
    ((machine fourSlots 0).run (machine fourSlots 0).init shortAndLong).isSome = true := by decide +kernel

/-- The state after it. -/
def afterFailure : State ℕ := Option.get _ isSome_shortAndLong

theorem time_wheel_invariant_afterFailure :
    (slot afterFailure.wheel 2).sequences = [0] ∧ (slot afterFailure.wheel 1).minimum = some (9 / 2) ∧
      afterFailure.overflow.map Held.item = [8] ∧ WellFormed fourSlots afterFailure := by
  refine ⟨?_, ?_, ?_, ?_⟩
  · decide +kernel
  · decide +kernel
  · decide +kernel
  · exact time_wheel_invariant fourSlots 0 ⟨shortAndLong, (Option.some_get isSome_shortAndLong).symm⟩

/-- What a drain at `now` that returns has done. -/
structure CompleteDrain (c : Config) (s t : State α) (now : ℚ) (released : List (Held α)) : Prop where
  wheel : ∀ r ∈ s.wheel, ∀ h ∈ r.contents, c.readyTick h.readyAt ≤ c.tickAt now → h ∈ released
  overflow : ∀ h ∈ s.overflow, h.readyAt ≤ now → h ∈ released
  due : ∀ h ∈ released, h.readyAt ≤ now
  order : released.Pairwise fun a b ↦ a.key < b.key
  once : (held s).Perm (released ++ held t)
  gone : ∀ h ∈ released, h ∉ held t
  remaining : ∀ h ∈ held t, c.tickAt now < c.readyTick h.readyAt

theorem Consistent.completeDrain (hc : Consistent c s) {now : ℚ} {taken : ℕ → Bool} {s' t : State α}
    {e : Effect α} (hread : s.read now = some s') (hdrain : c.drain s' taken = (t, e, true)) :
    CompleteDrain c s t now e.released := by
  obtain ⟨hc', rfl⟩ := hc.read hread
  obtain ⟨u, released, left, completed, heq, hd⟩ := drain_spec hc' taken
  rw [hdrain] at heq
  obtain ⟨rfl, rfl, rfl⟩ := by simpa only [Prod.mk.injEq] using heq
  have hperm := hd.perm hc'
  have honce : (held s).Perm (released ++ held t) := hperm
  refine ⟨?_, ?_, ?_, hd.pairwise_released hc', honce, ?_, ?_⟩
  · intro r hr h hh htick
    obtain ⟨i, hi, rfl⟩ := List.getElem_of_mem hr
    have hslot : slot s.wheel i = s.wheel[i] := by rw [slot, List.getD_eq_getElem _ _ hi]
    exact hd.mem_released_of_slot hc' (hslot ▸ hh) htick
  · intro h hh hdue
    exact hd.mem_released_of_overflow hh hdue
  · intro h hh
    exact (hd.of_mem_released hh).1
  · intro h hh hheld
    exact List.disjoint_of_nodup_append (honce.nodup_iff.mp hc.nodup_held) hh hheld
  · intro h hh
    rcases List.mem_append.mp hh with hh | hh
    · obtain ⟨r, hr, hh⟩ := List.mem_flatMap.mp hh
      exact hd.later hc' hr hh
    · -- what is left in the heap is not due
      rw [hd.overflow.mem_iff, List.mem_filter, decide_eq_true_eq] at hh
      apply Config.tickAt_lt_readyTick
      by_contra hle
      exact hh.2 (hd.mem_released_of_overflow hh.1 (not_lt.mp hle))

/-- Whether a call leaves alone what is held, but for a drain. -/
def Call.keeps : Call α → Bool
  | .push .. | .drain .. => true
  | .clear _ | .restore .. => false

variable {start : ℚ}

theorem effects_cons {a : Call α} {as : List (Call α)} {u : State α} {e : Effect α}
    (h : c.call s a = some (u, e)) : c.effects s (a :: as) = e :: c.effects u as := by
  rw [Config.effects, h]

theorem effects_append {as bs : List (Call α)} {t : State α} (h : (machine c start).run s as = some t) :
    c.effects s (as ++ bs) = c.effects s as ++ c.effects t bs := by
  induction as generalizing s with
  | nil =>
    obtain rfl : s = t := by simpa using h
    rfl
  | cons a as ih =>
    obtain ⟨u, hu, hrest⟩ := Option.bind_eq_some_iff.mp h
    obtain ⟨⟨u, e⟩, hcall, rfl⟩ := Option.map_eq_some_iff.mp hu
    rw [List.cons_append, effects_cons hcall, effects_cons hcall, ih hrest, List.cons_append]

/-- **A run** accounts for all entries. -/
theorem Consistent.run_balanced (hc : Consistent c s) {as : List (Call α)} {t : State α}
    (h : (machine c start).run s as = some t) :
    Consistent c t ∧ (held s ++ (c.effects s as).flatMap Effect.accepted).Perm
      ((c.effects s as).flatMap Effect.released ++ (c.effects s as).flatMap Effect.dropped ++ held t) := by
  induction as generalizing s with
  | nil =>
    obtain rfl : s = t := by simpa using h
    exact ⟨hc, by simp [Config.effects]⟩
  | cons a as ih =>
    obtain ⟨u, hu, hrest⟩ := Option.bind_eq_some_iff.mp h
    obtain ⟨⟨u, e⟩, hcall, rfl⟩ := Option.map_eq_some_iff.mp hu
    obtain ⟨hcu, hstep⟩ := hc.call hcall
    obtain ⟨hct, hperm⟩ := ih hcu hrest
    refine ⟨hct, ?_⟩
    rw [effects_cons hcall]
    simp only [List.flatMap_cons]
    rw [Balanced] at hstep
    rw [← Multiset.coe_eq_coe] at hstep hperm ⊢
    simp only [← Multiset.coe_add] at hstep hperm ⊢
    calc _ = ((held s : Multiset (Held α)) + e.accepted) + ((c.effects u as).flatMap Effect.accepted) := by abel
      _ = (e.released : Multiset (Held α)) + e.dropped +
          (held u + ((c.effects u as).flatMap Effect.accepted)) := by rw [hstep]; abel
      _ = _ := by rw [hperm]; abel

/-- In a run of pushes and drains the numbers go on, and nothing is dropped. -/
theorem run_keeps {as : List (Call α)} {t : State α} (h : (machine c start).run s as = some t)
    (hc : Consistent c s) (hkeeps : ∀ a ∈ as, a.keeps = true) :
    (c.effects s as).flatMap Effect.dropped = [] ∧
      t.issued = s.issued ++ (c.effects s as).flatMap Effect.accepted := by
  induction as generalizing s with
  | nil =>
    obtain rfl : s = t := by simpa using h
    exact ⟨rfl, (List.append_nil _).symm⟩
  | cons a as ih =>
    obtain ⟨u, hu, hrest⟩ := Option.bind_eq_some_iff.mp h
    obtain ⟨⟨u, e⟩, hcall, rfl⟩ := Option.map_eq_some_iff.mp hu
    rw [List.forall_mem_cons] at hkeeps
    obtain ⟨hdropped, hissued⟩ := ih hrest (hc.call hcall).1 hkeeps.2
    have hone : e.dropped = [] ∧ u.issued = s.issued ++ e.accepted := by
      cases a with
      | push now item priority delay signal =>
        obtain ⟨s', hread, heq⟩ := Option.map_eq_some_iff.mp hcall
        obtain ⟨-, rfl⟩ := hc.read hread
        have hpush := push_issued { s with clock := now } c item priority delay signal
        rw [heq] at hpush
        exact hpush
      | drain now taken =>
        obtain ⟨s', hread, heq⟩ := Option.map_eq_some_iff.mp hcall
        obtain ⟨-, rfl⟩ := hc.read hread
        obtain ⟨rfl, rfl⟩ := Prod.mk.inj heq
        simp [Config.drain, Effect.none]
      | clear cleared => exact absurd hkeeps.1 Bool.false_ne_true
      | restore now wallTime saved => exact absurd hkeeps.1 Bool.false_ne_true
    rw [effects_cons hcall, List.flatMap_cons, List.flatMap_cons, hone.1, hdropped, hissued, hone.2]
    exact ⟨rfl, List.append_assoc _ _ _⟩

/-- In a run of pushes and drains nothing is released twice. -/
theorem Consistent.nodup_released (hc : Consistent c s) {as : List (Call α)} {t : State α}
    (h : (machine c start).run s as = some t) (hkeeps : ∀ a ∈ as, a.keeps = true) :
    ((c.effects s as).flatMap Effect.released).Nodup := by
  obtain ⟨hct, hperm⟩ := hc.run_balanced h
  obtain ⟨hdropped, hissued⟩ := run_keeps h hc hkeeps
  rw [hdropped, List.append_nil] at hperm
  have hnumbers : (t.issued.map Held.sequence).Nodup := hct.numbered.imp fun hlt ↦ hlt.ne
  have hall := hnumbers.of_map
  rw [hissued] at hall
  have hsub : List.Subperm (held s ++ (c.effects s as).flatMap Effect.accepted)
      (s.issued ++ (c.effects s as).flatMap Effect.accepted) := hc.issued.append (List.Subperm.refl _)
  obtain ⟨l, hl, hsub⟩ := hsub
  exact (hperm.nodup_iff.mp (hl.nodup_iff.mp (hall.sublist hsub))).of_append_left

end Runs

end TimeWheel

end ScrapyExtension
