import ScrapyExtension.Queue.TimeWheel.Release

/-!
# A drain that fails

The backend refuses the item that is pushed after `k` others. What it has taken then are the first `k`
entries that are due, in the order of release, and everything else is where it was: in its slot, between
the same neighbours, or in the heap.

The cursor has not moved. So an entry that was due is due for every later drain, until one of them hands
it over; and since new entries come after the ones that are due already, these go out in the order in which
the drain that failed would have handed them over.
-/

namespace ScrapyExtension

open Py

namespace TimeWheel

variable {α : Type*} {c : Config} {s : State α}

/-- The entries that a drain hands over, in order, as long as the backend takes them. -/
def Config.due (c : Config) (s : State α) : List (Held α) :=
  (candidates s.wheel s.overflow s.clock (c.slotsToScan s.lastTick (c.tickAt s.clock))).map Candidate.held

theorem mem_due {h : Held α} : h ∈ c.due s ↔ h.readyAt ≤ s.clock ∧
    ((∃ i ∈ c.slotsToScan s.lastTick (c.tickAt s.clock), h ∈ (slot s.wheel i).contents) ∨ h ∈ s.overflow) := by
  constructor
  · intro hmem
    obtain ⟨a, ha, rfl⟩ := List.mem_map.mp hmem
    obtain ⟨hdue, ⟨i, hi, hslot, -⟩ | ⟨hover, -⟩⟩ := mem_candidates.mp ha
    · exact ⟨hdue, .inl ⟨i, hi, hslot⟩⟩
    · exact ⟨hdue, .inr hover⟩
  · rintro ⟨hdue, ⟨i, hi, hslot⟩ | hover⟩
    · exact List.mem_map.mpr ⟨⟨h, some i⟩, mem_candidates.mpr ⟨hdue, .inl ⟨i, hi, hslot, rfl⟩⟩, rfl⟩
    · exact List.mem_map.mpr ⟨⟨h, none⟩, mem_candidates.mpr ⟨hdue, .inr ⟨hover, rfl⟩⟩, rfl⟩

/-- With the cursor in its place, what is scanned grows with the clock. -/
theorem Config.slotsToScan_mono {lastTick a b : ℤ} (h : a ≤ b) :
    c.slotsToScan lastTick a ⊆ c.slotsToScan lastTick b := by
  intro i hi
  obtain ⟨offset, hoffset, rfl⟩ := List.mem_map.mp hi
  rw [List.mem_range] at hoffset
  refine List.mem_map.mpr ⟨offset, ?_, rfl⟩
  rw [List.mem_range]
  omega

section Drain

variable [DecidableEq α] {t : State α} {released left : List (Held α)} {completed : Bool}

theorem Drained.due_eq (hd : Drained c s t released left completed) : c.due s = released ++ left := hd.split

/-- What a round does with the backend's answer. -/
theorem release_cases {origin : List ((ℕ × ℕ) × ℕ)} {p q : Progress α} {taken : Bool} {a : Candidate α}
    (h : release origin p taken a = (q, completed)) :
    (q.pushed = p.pushed ∧ completed = true) ∨
      (q.pushed = p.pushed ++ [a.held] ∧ completed = true ∧ taken = true) ∨
      (q.pushed = p.pushed ∧ completed = false ∧ taken = false) := by
  obtain ⟨x, - | i⟩ := a
  · simp only [release] at h
    cases taken with
    | true =>
      simp only [if_true] at h
      split at h
      · split at h <;> obtain ⟨rfl, rfl⟩ := Prod.mk.inj h <;> simp
      · split at h <;> obtain ⟨rfl, rfl⟩ := Prod.mk.inj h <;> simp
    | false =>
      simp only [Bool.false_eq_true, if_false] at h
      split at h
      · obtain ⟨rfl, rfl⟩ := Prod.mk.inj h
        simp
      · split at h <;> obtain ⟨rfl, rfl⟩ := Prod.mk.inj h <;> simp
  · simp only [release] at h
    split at h
    · obtain ⟨rfl, rfl⟩ := Prod.mk.inj h
      simp
    · cases taken with
      | true =>
        simp only [if_true] at h
        split_ifs at h <;> obtain ⟨rfl, rfl⟩ := Prod.mk.inj h <;> simp
      | false =>
        simp only [Bool.false_eq_true, if_false] at h
        split_ifs at h <;> obtain ⟨rfl, rfl⟩ := Prod.mk.inj h <;> simp

/-- The backend has taken all items before the one at which the loop stops. -/
theorem releaseAll_taken {origin : List ((ℕ × ℕ) × ℕ)} {taken : ℕ → Bool} {as : List (Candidate α)}
    {p q : Progress α} (h : releaseAll origin taken as p = (q, completed)) :
    (∀ n, p.pushed.length ≤ n → n < q.pushed.length → taken n = true) ∧
      (completed = false → taken q.pushed.length = false ∧ q.pushed.length < p.pushed.length + as.length) := by
  induction as generalizing p with
  | nil =>
    obtain ⟨rfl, rfl⟩ := Prod.mk.inj h
    exact ⟨fun n hle hlt ↦ absurd hlt (not_lt.mpr hle), fun hfalse ↦ absurd hfalse (by decide)⟩
  | cons a as ih =>
    rw [releaseAll] at h
    rcases hr : release origin p (taken p.pushed.length) a with ⟨u, more⟩
    rw [hr] at h
    rw [List.length_cons]
    rcases release_cases hr with ⟨hpushed, rfl⟩ | ⟨hpushed, rfl, htaken⟩ | ⟨hpushed, rfl, htaken⟩
    · rw [if_pos rfl] at h
      obtain ⟨htook, hstop⟩ := ih h
      rw [hpushed] at htook hstop
      refine ⟨htook, fun hfalse ↦ ⟨(hstop hfalse).1, ?_⟩⟩
      have := (hstop hfalse).2
      omega
    · rw [if_pos rfl] at h
      obtain ⟨htook, hstop⟩ := ih h
      rw [hpushed, List.length_append, List.length_singleton] at htook hstop
      constructor
      · intro n hle hlt
        rcases hle.eq_or_lt with rfl | hlt'
        · exact htaken
        · exact htook n hlt' hlt
      · intro hfalse
        have := (hstop hfalse).2
        exact ⟨(hstop hfalse).1, by omega⟩
    · rw [if_neg Bool.false_ne_true] at h
      obtain ⟨rfl, rfl⟩ := Prod.mk.inj h
      rw [hpushed]
      exact ⟨fun n hle hlt ↦ absurd hlt (not_lt.mpr hle), fun _ ↦ ⟨htaken, by omega⟩⟩

theorem drain_taken {taken : ℕ → Bool} {e : Effect α} (h : c.drain s taken = (t, e, completed)) :
    (∀ n < e.released.length, taken n = true) ∧
      (completed = false → taken e.released.length = false ∧ e.released.length < (c.due s).length) := by
  rcases hr : releaseAll (origins s.wheel s.clock (c.slotsToScan s.lastTick (c.tickAt s.clock))) taken
    (candidates s.wheel s.overflow s.clock (c.slotsToScan s.lastTick (c.tickAt s.clock)))
    ⟨s.wheel, s.overflow, fun _ ↦ [], []⟩ with ⟨q, more⟩
  rw [Config.drain, hr] at h
  obtain ⟨-, rfl, rfl⟩ := by simpa only [Prod.mk.injEq] using h
  obtain ⟨htook, hstop⟩ := releaseAll_taken hr
  rw [List.length_nil, Nat.zero_add] at hstop
  rw [Config.due, List.length_map]
  exact ⟨fun n hn ↦ htook n (Nat.zero_le n) hn, hstop⟩

/-- **A drain** hands over what is due, up to the item that the backend refuses. -/
theorem drain_cut (hc : Consistent c s) {taken : ℕ → Bool} {k : ℕ} (htaken : ∀ n < k, taken n = true)
    (hstop : k < (c.due s).length → taken k = false) :
    ∃ t, c.drain s taken = (t, ⟨[], (c.due s).take k, []⟩, decide ((c.due s).length ≤ k)) ∧
      Drained c s t ((c.due s).take k) ((c.due s).drop k) (decide ((c.due s).length ≤ k)) := by
  obtain ⟨t, released, left, completed, hdrain, hd⟩ := drain_spec hc taken
  obtain ⟨htook, hrefused⟩ := drain_taken hdrain
  dsimp only at htook hrefused
  have hdue : c.due s = released ++ left := hd.split
  have hlength : (c.due s).length = released.length + left.length := by rw [hdue, List.length_append]
  have hsplit : released = (c.due s).take k ∧ left = (c.due s).drop k ∧
      completed = decide ((c.due s).length ≤ k) := by
    cases completed with
    | true =>
      obtain rfl := hd.all rfl
      rw [List.append_nil] at hdue
      have hle : (c.due s).length ≤ k := by
        by_contra hlt
        have htrue := htook k (hdue ▸ not_le.mp hlt)
        rw [hstop (not_le.mp hlt)] at htrue
        exact Bool.false_ne_true htrue
      exact ⟨by rw [List.take_of_length_le hle, hdue], (List.drop_of_length_le hle).symm, (decide_eq_true hle).symm⟩
    | false =>
      obtain ⟨hfalse, hlt⟩ := hrefused rfl
      have hk : released.length = k := by
        refine le_antisymm ?_ ?_
        · by_contra hgt
          have htrue := htook k (not_le.mp hgt)
          rw [hstop ((not_le.mp hgt).trans hlt)] at htrue
          exact Bool.false_ne_true htrue
        · by_contra hgt
          rw [htaken _ (not_le.mp hgt)] at hfalse
          exact Bool.false_ne_true hfalse.symm
      subst hk
      refine ⟨?_, ?_, (decide_eq_false (not_le.mpr hlt)).symm⟩
      · rw [hdue, List.take_left]
      · rw [hdue, List.drop_left]
  obtain ⟨rfl, rfl, rfl⟩ := hsplit
  exact ⟨t, hdrain, hd⟩

/-- The order of release, without a repetition. -/
theorem Consistent.pairwise_due (hc : Consistent c s) : (c.due s).Pairwise fun a b ↦ a.key < b.key := by
  obtain ⟨t, -, hd⟩ := @drain_cut _ _ _ _ hc (fun _ ↦ true) (c.due s).length (fun _ _ ↦ rfl)
    (fun hlt ↦ absurd hlt (lt_irrefl _))
  rw [List.take_length] at hd
  exact hd.pairwise_released hc

end Drain

/-! ## The drains that come after it -/

section Later

/-- Entries that every drain hands over next, in this order. -/
structure Owed (c : Config) (s : State α) (left : List (Held α)) : Prop where
  order : left.Pairwise fun a b ↦ a.key < b.key
  due : ∀ h ∈ left, h ∈ c.due s
theorem Owed.read {left : List (Held α)} (ho : Owed c s left) {now : ℚ} {t : State α}
    (h : s.read now = some t) : Owed c t left := by
  unfold State.read at h
  split_ifs at h with hle
  obtain rfl := Option.some.inj h
  refine ⟨ho.order, fun x hx ↦ ?_⟩
  obtain ⟨hdue, hwhere⟩ := mem_due.mp (ho.due x hx)
  refine mem_due.mpr ⟨hdue.trans hle, ?_⟩
  rcases hwhere with ⟨i, hi, hslot⟩ | hover
  · exact .inl ⟨i, Config.slotsToScan_mono (Config.tickAt_mono hle) hi, hslot⟩
  · exact .inr hover

/-- An entry stays in its slot when another one is appended somewhere. -/
theorem Consistent.mem_slot_append (hc : Consistent c s) (x : Held α) {i j : ℕ} {h : Held α}
    (hmem : h ∈ (slot s.wheel i).contents) :
    h ∈ (slot (s.wheel.set j ((slot s.wheel j).append x.entry x.sequence none)) i).contents := by
  have hlt : i < s.wheel.length := by
    by_contra hge
    rw [contents_slot_of_le (not_lt.mp hge)] at hmem
    exact List.not_mem_nil hmem
  rw [slot, List.getD_eq_getElem _ _ (by rwa [List.length_set]), List.getElem_set]
  have hslot : slot s.wheel i = s.wheel[i] := by rw [slot, List.getD_eq_getElem _ _ hlt]
  split_ifs with hij
  · subst hij
    rw [hc.slots _ (slot_mem hlt), Slot.append_ofHeld, Slot.contents_ofHeld]
    exact List.mem_append_left _ hmem
  · rwa [← hslot]

/-- A push leaves what is due. -/
theorem Consistent.due_push (hc : Consistent c s) (item : α) (priority delay : ℚ) (signal : Option Stop)
    {h : Held α} (hh : h ∈ c.due s) : h ∈ c.due (c.push s item priority delay signal).1 := by
  unfold Config.push
  by_cases hneg : delay < 0
  · rw [if_pos hneg]
    exact hh
  rw [if_neg hneg]
  generalize (if 0 < delay then delay else c.defaultDelay) = effective
  by_cases hpos : effective ≤ 0
  · simpa only [if_pos hpos] using hh
  simp only [if_neg hpos]
  rw [mem_due] at hh
  obtain ⟨hdue, hwhere⟩ := hh
  by_cases hwheel : effective ≤ c.wheelDuration
  · simp only [if_pos hwheel]
    cases signal with
    | none =>
      refine mem_due.mpr ⟨hdue, hwhere.imp_left ?_⟩
      rintro ⟨i, hi, hslot⟩
      exact ⟨i, hi, hc.mem_slot_append ⟨s.clock + effective, s.seq, item, priority⟩ hslot⟩
    | some stop =>
      simp only [set_rollback]
      exact mem_due.mpr ⟨hdue, hwhere⟩
  · simp only [if_neg hwheel]
    obtain ⟨-, hperm⟩ := Heapq.heappush_spec hc.heap ⟨s.clock + effective, s.seq, item, priority⟩
    refine mem_due.mpr ⟨hdue, hwhere.imp_right fun hover ↦ ?_⟩
    exact hperm.mem_iff.mpr (List.mem_cons_of_mem _ hover)

theorem push_released (s : State α) (c : Config) (item : α) (priority delay : ℚ) (signal : Option Stop) :
    (c.push s item priority delay signal).2.released = [] := by
  unfold Config.push
  by_cases hneg : delay < 0
  · simp [if_pos hneg, Effect.none]
  rw [if_neg hneg]
  generalize (if 0 < delay then delay else c.defaultDelay) = effective
  by_cases hpos : effective ≤ 0
  · simp [if_pos hpos, Effect.none]
  simp only [if_neg hpos]
  by_cases hwheel : effective ≤ c.wheelDuration
  · simp only [if_pos hwheel]
    cases signal <;> rfl
  · simp [if_neg hwheel, Effect.none]

/-- Two lists in the order of release, with the same entries. -/
theorem eq_of_order {l₁ l₂ : List (Held α)} (h₁ : l₁.Pairwise fun a b ↦ a.key < b.key)
    (h₂ : l₂.Pairwise fun a b ↦ a.key < b.key) (h : ∀ x, x ∈ l₁ ↔ x ∈ l₂) : l₁ = l₂ := by
  have hnodup : ∀ {l : List (Held α)}, l.Pairwise (fun a b ↦ a.key < b.key) → l.Nodup := by
    intro l hl
    refine hl.imp ?_
    rintro a b hlt rfl
    exact lt_irrefl _ hlt
  refine ((List.perm_ext_iff_of_nodup (hnodup h₁) (hnodup h₂)).mpr h).eq_of_pairwise ?_ h₁ h₂
  intro a b _ _ hab hba
  exact absurd (hab.trans hba) (lt_irrefl _)

variable [DecidableEq α]

/-- **A later drain** hands over what it owes from the front. -/
theorem Owed.drain (hc : Consistent c s) {left : List (Held α)} (ho : Owed c s left) {t : State α}
    {released rest : List (Held α)} {completed : Bool} (hd : Drained c s t released rest completed) :
    ∃ out still, left = out ++ still ∧ released.filter (· ∈ left) = out ∧ Owed c t still ∧
      (completed = true → still = []) := by
  have hdue : c.due s = released ++ rest := hd.split
  have horder := hc.pairwise_due
  rw [hdue] at horder
  have hsplit := List.pairwise_append.mp horder
  refine ⟨left.filter (· ∈ released), left.filter (· ∉ released), ?_, ?_, ⟨ho.order.filter _, ?_⟩, ?_⟩
  · -- what is released comes before what is left
    apply eq_of_order ho.order
    · refine List.pairwise_append.mpr ⟨ho.order.filter _, ho.order.filter _, ?_⟩
      intro a ha b hb
      rw [List.mem_filter, decide_eq_true_eq] at ha hb
      refine hsplit.2.2 a ha.2 b ?_
      have hmem := ho.due b hb.1
      rw [hdue, List.mem_append] at hmem
      exact hmem.resolve_left hb.2
    · intro x
      by_cases hx : x ∈ released <;> simp [hx]
  · apply eq_of_order (hsplit.1.filter _) (ho.order.filter _)
    intro x
    simp [and_comm]
  · -- the cursor stays, unless nothing is left
    intro x hx
    rw [List.mem_filter, decide_eq_true_eq] at hx
    have hmem := ho.due x hx.1
    cases completed with
    | true =>
      rw [hdue, hd.all rfl, List.append_nil] at hmem
      exact absurd hmem hx.2
    | false =>
      obtain ⟨hready, hwhere⟩ := mem_due.mp hmem
      have htick : t.lastTick = s.lastTick := hd.lastTick
      refine mem_due.mpr ⟨hd.frame.2.1.symm ▸ hready, ?_⟩
      rw [hd.frame.2.1, htick]
      rcases hwhere with ⟨i, hi, hslot⟩ | hover
      · refine .inl ⟨i, hi, ?_⟩
        rw [hd.wheel, slot_map rfl, Slot.contents_ofHeld]
        exact List.mem_filter.mpr ⟨hslot, by simpa using hx.2⟩
      · refine .inr (hd.overflow.mem_iff.mpr ?_)
        exact List.mem_filter.mpr ⟨hover, by simpa using hx.2⟩
  · intro hcompleted
    rw [List.filter_eq_nil_iff]
    intro x hx
    have hmem := ho.due x hx
    rw [hdue, hd.all hcompleted, List.append_nil] at hmem
    simpa using hmem

/-- One call. -/
theorem Owed.call (hc : Consistent c s) {left : List (Held α)} (ho : Owed c s left) {a : Call α}
    {t : State α} {e : Effect α} (h : c.call s a = some (t, e)) (hkeeps : a.keeps = true) :
    ∃ out still, left = out ++ still ∧ e.released.filter (· ∈ left) = out ∧ Owed c t still := by
  cases a with
  | push now item priority delay signal =>
    obtain ⟨s', hread, heq⟩ := Option.map_eq_some_iff.mp h
    have ho' := ho.read hread
    obtain ⟨hc', rfl⟩ := hc.read hread
    have hnone := push_released { s with clock := now } c item priority delay signal
    rw [heq] at hnone
    rw [hnone]
    refine ⟨[], left, rfl, rfl, ho.order, fun x hx ↦ ?_⟩
    have hdue := hc'.due_push item priority delay signal (ho'.due x hx)
    rwa [heq] at hdue
  | drain now taken =>
    obtain ⟨s', hread, heq⟩ := Option.map_eq_some_iff.mp h
    have ho' := ho.read hread
    obtain ⟨hc', rfl⟩ := hc.read hread
    obtain ⟨u, released, rest, completed, hdrain, hd⟩ := drain_spec hc' taken
    rw [hdrain, Prod.mk.injEq] at heq
    obtain ⟨rfl, rfl⟩ := heq
    obtain ⟨out, still, hleft, hout, hstill, -⟩ := ho'.drain hc' hd
    exact ⟨out, still, hleft, hout, hstill⟩
  | clear cleared => exact absurd hkeeps Bool.false_ne_true
  | restore now wallTime saved => exact absurd hkeeps Bool.false_ne_true

/-- **Over a run** of pushes and drains, what was owed goes out from the front. -/
theorem Owed.run {start : ℚ} (hc : Consistent c s) {left : List (Held α)} (ho : Owed c s left)
    {as : List (Call α)} {t : State α} (h : (machine c start).run s as = some t)
    (hkeeps : ∀ a ∈ as, a.keeps = true) :
    ∃ out still, left = out ++ still ∧
      ((c.effects s as).flatMap Effect.released).filter (· ∈ left) = out ∧ Owed c t still := by
  induction as generalizing s left with
  | nil =>
    obtain rfl : s = t := by simpa using h
    exact ⟨[], left, rfl, rfl, ho⟩
  | cons a as ih =>
    have hnodup := hc.nodup_released h hkeeps
    obtain ⟨u, hu, hrest⟩ := Option.bind_eq_some_iff.mp h
    obtain ⟨⟨u, e⟩, hcall, rfl⟩ := Option.map_eq_some_iff.mp hu
    rw [effects_cons hcall, List.flatMap_cons] at hnodup ⊢
    rw [List.forall_mem_cons] at hkeeps
    obtain ⟨first, still, rfl, hfirst, hstill⟩ := ho.call hc hcall hkeeps.1
    obtain ⟨next, rest, rfl, hnext, howed⟩ := ih (hc.call hcall).1 hstill hrest hkeeps.2
    refine ⟨first ++ next, rest, (List.append_assoc _ _ _).symm, ?_, howed⟩
    rw [List.filter_append, hfirst]
    congr 1
    refine Eq.trans ?_ hnext
    -- what went out first does not go out again
    apply List.filter_congr
    intro x hx
    have hnot : x ∉ first := by
      intro hmem
      rw [← hfirst] at hmem
      exact List.disjoint_of_nodup_append hnodup (List.mem_of_mem_filter hmem) hx
    simp [hnot]

/-- A drain that returns leaves nothing that is due. -/
theorem Drained.due_eq_nil {t : State α} {released left : List (Held α)}
    (hd : Drained c s t released left true) : c.due t = [] := by
  have htick : t.lastTick = c.tickAt t.clock := by rw [hd.lastTick, hd.frame.2.1, if_pos rfl]
  refine List.eq_nil_iff_forall_not_mem.mpr fun h hh ↦ ?_
  obtain ⟨hready, ⟨i, hi, -⟩ | hover⟩ := mem_due.mp hh
  · -- nothing is scanned
    rw [htick] at hi
    simp [Config.slotsToScan] at hi
  · rw [hd.overflow.mem_iff, List.mem_filter, decide_eq_true_eq] at hover
    exact hover.2 (hd.mem_released_of_overflow hover.1 (hd.frame.2.1 ▸ hready))

/-- What is due in a state: what a drain hands over when the backend takes everything. -/
structure Due (c : Config) (s : State α) (due : List (Held α)) : Prop where
  order : due.Pairwise fun a b ↦ a.key < b.key
  held : ∀ h ∈ due, h ∈ held s ∧ h.readyAt ≤ s.clock
  wheel : ∀ r ∈ s.wheel, ∀ h ∈ r.contents, c.readyTick h.readyAt ≤ c.tickAt s.clock → h ∈ due
  overflow : ∀ h ∈ s.overflow, h.readyAt ≤ s.clock → h ∈ due
  whole : ∃ t, c.drain s (fun _ ↦ true) = (t, ⟨[], due, []⟩, true)

theorem Consistent.due (hc : Consistent c s) : Due c s (c.due s) := by
  obtain ⟨t, hdrain, hd⟩ := @drain_cut _ _ _ _ hc (fun _ ↦ true) (c.due s).length (fun _ _ ↦ rfl)
    (fun hlt ↦ absurd hlt (lt_irrefl _))
  rw [List.take_length] at hdrain hd
  rw [decide_eq_true le_rfl] at hdrain hd
  refine ⟨hc.pairwise_due, ?_, ?_, ?_, t, hdrain⟩
  · intro h hh
    exact (hd.of_mem_released hh).symm
  · intro r hr h hh htick
    obtain ⟨i, hi, rfl⟩ := List.getElem_of_mem hr
    have hslot : slot s.wheel i = s.wheel[i] := by rw [slot, List.getD_eq_getElem _ _ hi]
    exact hd.mem_released_of_slot hc (hslot ▸ hh) htick
  · intro h hh hready
    exact hd.mem_released_of_overflow hh hready

/-- What a drain of `s` has left when the backend took the items in `out`, and no other one. -/
structure Kept (s t : State α) (out : List (Held α)) : Prop where
  /-- The entries of a slot, their numbers and the minimum, are those of the others, in the same order. -/
  slots : ∀ i, slot t.wheel i = .ofHeld ((slot s.wheel i).contents.filter (· ∉ out))
  size : t.wheel.length = s.wheel.length
  overflow : t.overflow.Perm (s.overflow.filter (· ∉ out))
  heap : Heapq.Ordered Held.key t.overflow
  lastTick : t.lastTick = s.lastTick
  seq : t.seq = s.seq

theorem Drained.kept {t : State α} {out left : List (Held α)} (hd : Drained c s t out left false) :
    Kept s t out := by
  refine ⟨fun i ↦ ?_, ?_, hd.overflow, hd.heap, hd.lastTick, hd.frame.1⟩
  · rw [hd.wheel, slot_map rfl]
  · rw [hd.wheel, List.length_map]

/-- What the runs of pushes and drains from `t` do with entries that are due. -/
structure Later (c : Config) (start : ℚ) (t : State α) (left : List (Held α)) : Prop where
  /-- They go out from the front, and those that have not are held. -/
  order : ∀ as u, (machine c start).run t as = some u → (∀ a ∈ as, a.keeps = true) →
    ∃ out still, left = out ++ still ∧
      ((c.effects t as).flatMap Effect.released).filter (· ∈ left) = out ∧ ∀ h ∈ still, h ∈ held u
  /-- Once a drain returns, they are out. -/
  delivered : ∀ as u now taken u' v e, (machine c start).run t as = some u → (∀ a ∈ as, a.keeps = true) →
    u.read now = some u' → c.drain u' taken = (v, e, true) →
      ((c.effects t (as ++ [.drain now taken])).flatMap Effect.released).filter (· ∈ left) = left
  /-- No other entry is lost either. -/
  kept : ∀ as u, (machine c start).run t as = some u → (∀ a ∈ as, a.keeps = true) →
    (held t ++ (c.effects t as).flatMap Effect.accepted).Perm
      ((c.effects t as).flatMap Effect.released ++ held u)

theorem Owed.later {start : ℚ} (hc : Consistent c s) {left : List (Held α)} (ho : Owed c s left) :
    Later c start s left := by
  constructor
  · intro as u hrun hkeeps
    obtain ⟨out, still, hleft, hout, howed⟩ := ho.run hc hrun hkeeps
    refine ⟨out, still, hleft, hout, fun h hh ↦ ?_⟩
    obtain ⟨-, ⟨i, -, hslot⟩ | hover⟩ := mem_due.mp (howed.due h hh)
    · exact mem_held_of_slot hslot
    · exact mem_held_of_overflow hover
  · intro as u now taken u' v e hrun hkeeps hread hdrain
    have hcall : c.call u (.drain now taken) = some (v, e) := by
      rw [Config.call, hread, Option.map_some, hdrain]
    have hrun' : (machine c start).run s (as ++ [.drain now taken]) = some v := by
      rw [Machine.run_append, hrun, Option.bind_some, Machine.run_cons]
      simp [machine, hcall]
    have hkeeps' : ∀ a ∈ as ++ [.drain now taken], a.keeps = true := by
      intro a ha
      rcases List.mem_append.mp ha with ha | ha
      · exact hkeeps a ha
      · rw [List.mem_singleton.mp ha]
        rfl
    obtain ⟨out, still, hleft, hout, howed⟩ := ho.run hc hrun' hkeeps'
    obtain rfl : still = [] := by
      obtain ⟨hcu', rfl⟩ := (hc.run_balanced hrun).1.read hread
      obtain ⟨w, released, rest, completed, heq, hd⟩ := drain_spec hcu' taken
      rw [hdrain] at heq
      obtain ⟨rfl, -, rfl⟩ := by simpa only [Prod.mk.injEq] using heq
      refine List.eq_nil_iff_forall_not_mem.mpr fun h hh ↦ ?_
      exact List.not_mem_nil (hd.due_eq_nil ▸ howed.due h hh)
    rw [hout, hleft, List.append_nil]
  · intro as u hrun hkeeps
    have hperm := (hc.run_balanced hrun).2
    rwa [(run_keeps hrun hc hkeeps).1, List.append_nil] at hperm

/-- **A drain whose push number `k` raises**, counted from zero: the backend has the first `k` entries that
are due, in their order, and all other entries are where they were. Later drains hand over the rest of them in
the same order. -/
theorem drain_failure (c : Config) (start : ℚ) {s s' : State α} (hs : (machine c start).Reachable s) {now : ℚ}
    (hread : s.read now = some s') {taken : ℕ → Bool} {k : ℕ} (hlt : k < (c.due s').length)
    (htaken : ∀ n < k, taken n = true) (hrefused : taken k = false) :
    ∃ t, c.drain s' taken = (t, ⟨[], (c.due s').take k, []⟩, false) ∧ Due c s' (c.due s') ∧
      Kept s' t ((c.due s').take k) ∧ Later c start t ((c.due s').drop k) := by
  obtain ⟨hc, -⟩ := (Consistent.of_reachable hs).read hread
  obtain ⟨t, hdrain, hd⟩ := drain_cut hc htaken fun _ ↦ hrefused
  rw [decide_eq_false (not_le.mpr hlt)] at hdrain hd
  refine ⟨t, hdrain, hc.due, hd.kept, Owed.later (hd.consistent hc) ⟨hc.pairwise_due.drop, fun h hh ↦ ?_⟩⟩
  -- an entry that was not reached is due still
  have hsplit : c.due s' = (c.due s').take k ++ (c.due s').drop k := (List.take_append_drop _ _).symm
  have hnodup : (c.due s').Nodup := by
    refine hc.pairwise_due.imp ?_
    rintro a b hab rfl
    exact lt_irrefl _ hab
  obtain ⟨out, still, hall, hout, howed, -⟩ := Owed.drain hc ⟨hc.pairwise_due, fun h hh ↦ hh⟩ hd
  have hfilter : ((c.due s').take k).filter (· ∈ c.due s') = (c.due s').take k :=
    List.filter_eq_self.mpr fun x hx ↦ by simpa using List.mem_of_mem_take hx
  rw [hfilter] at hout
  rw [← hout] at hall
  rw [List.append_cancel_left (hsplit.symm.trans hall)] at hh
  exact howed.due h hh

/-- Half an hour after the first failure, with the short delays and the long one due: the second push raises. -/
def longAfter : State ℕ := { afterFailure with clock := 1800 }

theorem drain_failure_second : (fourSlots.due longAfter).map Held.item = [7, 9, 8] ∧
    ∃ t, fourSlots.drain longAfter (fun n ↦ n ≠ 1) = (t, ⟨[], (fourSlots.due longAfter).take 1, []⟩, false) ∧
      Due fourSlots longAfter (fourSlots.due longAfter) ∧ Kept longAfter t ((fourSlots.due longAfter).take 1) ∧
      Later fourSlots 0 t ((fourSlots.due longAfter).drop 1) := by
  have hitems : (fourSlots.due longAfter).map Held.item = [7, 9, 8] := by decide +kernel
  have hlength : (fourSlots.due longAfter).length = 3 := by
    rw [← List.length_map (f := Held.item), hitems]
    rfl
  have hreachable : (machine fourSlots 0).Reachable afterFailure :=
    ⟨shortAndLong, (Option.some_get isSome_shortAndLong).symm⟩
  have hread : afterFailure.read 1800 = some longAfter := if_pos (by decide +kernel)
  refine ⟨hitems, drain_failure fourSlots 0 hreachable hread (by omega) ?_ (by decide)⟩
  intro n hn
  obtain rfl : n = 0 := by omega
  rfl


end Later

end TimeWheel

end ScrapyExtension
