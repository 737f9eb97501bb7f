import ScrapyExtension.Queue.TimeWheel.Failure

/-!
# Waiting for a release

A pop that finds nothing waits until the next release: the least deadline in the heap, or the tick of the
least deadline of a slot. The two are rounded differently, since an entry of the wheel goes out at a tick and
one of the heap at any time.

After a drain that returned, the next release is in the future. A drain at that time finds the entry it was
computed from; and no entry could go out earlier.
-/

namespace ScrapyExtension

namespace TimeWheel

variable {α : Type*} {c : Config} {s : State α}

/-- `_wheel_release_at` -/
def Config.wheelReleaseAt (c : Config) (readyAt : ℚ) : ℚ := c.readyTick readyAt / c.ticksPerSecond

/-- `_next_release_at` -/
def Config.nextReleaseAt (c : Config) (s : State α) : Option ℚ :=
  s.wheel.foldl
    (fun next r ↦ match r.minimum with
      | none => next
      | some readyAt => lower next (c.wheelReleaseAt readyAt))
    (s.overflow.head?.map Held.readyAt)

theorem State.le_of_read {now : ℚ} {t : State α} (h : s.read now = some t) : s.clock ≤ now := by
  unfold State.read at h
  split_ifs at h with hle
  exact hle

/-! ## The next release -/

theorem Config.wheelReleaseAt_mono {a b : ℚ} (h : a ≤ b) : c.wheelReleaseAt a ≤ c.wheelReleaseAt b := by
  have hceil : c.readyTick a ≤ c.readyTick b :=
    Int.ceil_le_ceil (mul_le_mul_of_nonneg_right h c.ticks_pos.le)
  exact div_le_div_of_nonneg_right (by exact_mod_cast hceil) c.ticks_pos.le

/-- The tick of the release is the tick of the entry. -/
theorem Config.tickAt_wheelReleaseAt (c : Config) (r : ℚ) : c.tickAt (c.wheelReleaseAt r) = c.readyTick r := by
  rw [tickAt, wheelReleaseAt, div_mul_cancel₀ _ c.ticks_pos.ne', Int.floor_intCast]

/-- An entry of a later tick is released in the future. -/
theorem Config.lt_wheelReleaseAt {now r : ℚ} (h : c.tickAt now < c.readyTick r) :
    now < c.wheelReleaseAt r := by
  rw [wheelReleaseAt, lt_div_iff₀ c.ticks_pos]
  exact Int.floor_lt.mp h

theorem foldl_lower (c : Config) (wheel : List (Slot α)) (l : List ℚ) :
    wheel.foldl (fun next r ↦ match r.minimum with
      | none => next
      | some readyAt => lower next (c.wheelReleaseAt readyAt)) l.min? =
    (l ++ wheel.filterMap fun r ↦ r.minimum.map c.wheelReleaseAt).min? := by
  induction wheel generalizing l with
  | nil => rw [List.foldl_nil, List.filterMap_nil, List.append_nil]
  | cons r wheel ih =>
    rw [List.foldl_cons]
    rcases hr : r.minimum with - | m
    · rw [List.filterMap_cons_none (by rw [hr]; rfl)]
      exact ih l
    · rw [List.filterMap_cons_some (by rw [hr]; rfl), List.append_cons]
      simp only [lower_min?]
      exact ih _

/-- The values that are compared. -/
theorem nextReleaseAt_eq (c : Config) (s : State α) : c.nextReleaseAt s =
    ((s.overflow.head?.map Held.readyAt).toList ++
      s.wheel.filterMap fun r ↦ r.minimum.map c.wheelReleaseAt).min? := by
  rw [← foldl_lower, Config.nextReleaseAt]
  congr 1
  rcases s.overflow.head? with - | h <;> rfl

/-- When an entry can go out: at its tick from the wheel, at its deadline from the heap. -/
def Boundary (c : Config) (s : State α) (b : ℚ) : Prop :=
  (∃ r ∈ s.wheel, ∃ h ∈ r.contents, b = c.wheelReleaseAt h.readyAt) ∨ ∃ h ∈ s.overflow, b = h.readyAt

/-- The values that `_next_release_at` compares. -/
def releases (c : Config) (s : State α) : List ℚ :=
  (s.overflow.head?.map Held.readyAt).toList ++ s.wheel.filterMap fun r ↦ r.minimum.map c.wheelReleaseAt

theorem Consistent.minimum_eq (hc : Consistent c s) {r : Slot α} (hr : r ∈ s.wheel) :
    r.minimum = (r.contents.map Held.readyAt).min? := by
  conv_lhs => rw [hc.slots r hr]
  rfl

/-- A value is the boundary of the entry that it comes from. -/
theorem Consistent.boundary_of_releases (hc : Consistent c s) {b : ℚ} (h : b ∈ releases c s) :
    Boundary c s b := by
  rcases List.mem_append.mp h with hover | hwheel
  · obtain ⟨x, hx, rfl⟩ := Option.map_eq_some_iff.mp (Option.mem_toList.mp hover)
    exact .inr ⟨x, List.mem_of_mem_head? hx, rfl⟩
  · obtain ⟨r, hr, hmap⟩ := List.mem_filterMap.mp hwheel
    obtain ⟨m, hm, rfl⟩ := Option.map_eq_some_iff.mp hmap
    rw [hc.minimum_eq hr, List.min?_eq_some_iff] at hm
    obtain ⟨x, hx, rfl⟩ := List.mem_map.mp hm.1
    exact .inl ⟨r, hr, x, hx, rfl⟩

/-- No boundary comes before all values. -/
theorem Consistent.exists_releases_le (hc : Consistent c s) {b : ℚ} (h : Boundary c s b) :
    ∃ r ∈ releases c s, r ≤ b := by
  rcases h with ⟨r, hr, x, hx, rfl⟩ | ⟨x, hx, rfl⟩
  · have hmem : x.readyAt ∈ r.contents.map Held.readyAt := List.mem_map_of_mem hx
    rcases hmin : (r.contents.map Held.readyAt).min? with - | m
    · rw [List.min?_eq_none_iff.mp hmin] at hmem
      exact absurd hmem List.not_mem_nil
    · refine ⟨c.wheelReleaseAt m, List.mem_append_right _ (List.mem_filterMap.mpr ⟨r, hr, ?_⟩), ?_⟩
      · rw [hc.minimum_eq hr, hmin]
        rfl
      · exact Config.wheelReleaseAt_mono ((List.min?_eq_some_iff.mp hmin).2 _ hmem)
  · obtain ⟨root, rest, hover⟩ := List.exists_cons_of_ne_nil (List.ne_nil_of_mem hx)
    have hheap := hc.heap
    rw [hover] at hheap hx
    refine ⟨root.readyAt, List.mem_append_left _ (Option.mem_toList.mpr ?_), ?_⟩
    · rw [hover]
      rfl
    · exact (Prod.Lex.le_iff.mp (hheap.le_of_mem hx)).elim le_of_lt fun e ↦ e.1.le

/-- **The next release** is the first boundary of what is held. -/
theorem Consistent.nextReleaseAt_eq_some_iff (hc : Consistent c s) {r : ℚ} :
    c.nextReleaseAt s = some r ↔ Boundary c s r ∧ ∀ b, Boundary c s b → r ≤ b := by
  have heq : c.nextReleaseAt s = (releases c s).min? := nextReleaseAt_eq c s
  rw [heq, List.min?_eq_some_iff]
  constructor
  · rintro ⟨hmem, hle⟩
    refine ⟨hc.boundary_of_releases hmem, fun b hb ↦ ?_⟩
    obtain ⟨x, hx, hxb⟩ := hc.exists_releases_le hb
    exact (hle x hx).trans hxb
  · rintro ⟨hboundary, hle⟩
    obtain ⟨x, hx, hxr⟩ := hc.exists_releases_le hboundary
    obtain rfl := le_antisymm hxr (hle x (hc.boundary_of_releases hx))
    exact ⟨hx, fun b hb ↦ hle b (hc.boundary_of_releases hb)⟩

theorem Consistent.nextReleaseAt_eq_none_iff (hc : Consistent c s) :
    c.nextReleaseAt s = none ↔ held s = [] := by
  have heq : c.nextReleaseAt s = (releases c s).min? := nextReleaseAt_eq c s
  rw [heq, List.min?_eq_none_iff, List.eq_nil_iff_forall_not_mem, List.eq_nil_iff_forall_not_mem]
  constructor
  · intro hnone h hh
    have hboundary : ∃ b, Boundary c s b := by
      rcases List.mem_append.mp hh with hwheel | hover
      · obtain ⟨r, hr, hmem⟩ := List.mem_flatMap.mp hwheel
        exact ⟨_, .inl ⟨r, hr, h, hmem, rfl⟩⟩
      · exact ⟨_, .inr ⟨h, hover, rfl⟩⟩
    obtain ⟨b, hb⟩ := hboundary
    obtain ⟨x, hx, -⟩ := hc.exists_releases_le hb
    exact hnone x hx
  · intro hnone b hb
    rcases hc.boundary_of_releases hb with ⟨r, hr, h, hh, -⟩ | ⟨h, hh, -⟩
    · exact hnone h (List.mem_append_left _ (List.mem_flatMap.mpr ⟨r, hr, hh⟩))
    · exact hnone h (List.mem_append_right _ hh)

/-! ## After a drain -/

section Drain

variable [DecidableEq α]

/-- A drain at a boundary, or after it, hands the entry over. -/
theorem Consistent.due_ne_nil (hc : Consistent c s) {b : ℚ} (hb : Boundary c s b) (hle : b ≤ s.clock) :
    c.due s ≠ [] := by
  rcases hb with ⟨r, hr, h, hh, rfl⟩ | ⟨h, hh, rfl⟩
  · refine List.ne_nil_of_mem (hc.due.wheel r hr h hh ?_)
    rw [← c.tickAt_wheelReleaseAt]
    exact Config.tickAt_mono hle
  · exact List.ne_nil_of_mem (hc.due.overflow h hh hle)

/-- A drain in which the backend takes the first item hands over at least one entry, if any is due. -/
theorem released_ne_nil {taken : ℕ → Bool} {t : State α} {e : Effect α} {completed : Bool}
    (hc : Consistent c s) (h : c.drain s taken = (t, e, completed)) (hdue : c.due s ≠ [])
    (htaken : completed = false → taken 0 = true) : e.released ≠ [] := by
  intro hnone
  obtain ⟨u, released, left, done, hdrain, hd⟩ := drain_spec hc taken
  obtain ⟨-, hrefused⟩ := drain_taken h
  rw [h] at hdrain
  obtain ⟨rfl, rfl, rfl⟩ := by simpa only [Prod.mk.injEq] using hdrain
  dsimp only at hnone hrefused
  subst hnone
  have hsplit : c.due s = [] ++ left := hd.split
  cases completed with
  | true =>
    rw [hd.all rfl] at hsplit
    exact hdue hsplit
  | false =>
    have hfalse := (hrefused rfl).1
    rw [List.length_nil, htaken rfl] at hfalse
    exact Bool.false_ne_true hfalse.symm

theorem Consistent.drain (hc : Consistent c s) {taken : ℕ → Bool} {t : State α} {e : Effect α}
    {completed : Bool} (h : c.drain s taken = (t, e, completed)) : Consistent c t := by
  obtain ⟨u, released, left, done, hdrain, hd⟩ := drain_spec hc taken
  rw [h] at hdrain
  obtain ⟨rfl, -, rfl⟩ := by simpa only [Prod.mk.injEq] using hdrain
  exact hd.consistent hc

/-- After a drain that returned, every boundary is in the future. -/
theorem Drained.lt_boundary {t : State α} {released left : List (Held α)} (hc : Consistent c s)
    (hd : Drained c s t released left true) {b : ℚ} (hb : Boundary c t b) : s.clock < b := by
  rcases hb with ⟨r, hr, h, hh, rfl⟩ | ⟨h, hh, rfl⟩
  · exact Config.lt_wheelReleaseAt (hd.later hc hr hh)
  · rw [hd.overflow.mem_iff, List.mem_filter, decide_eq_true_eq] at hh
    by_contra hle
    exact hh.2 (hd.mem_released_of_overflow hh.1 (not_lt.mp hle))

end Drain
/-! ## The loop of a pop -/

section Pop

variable {β : Type*}

/-- What a turn of `_pop_until_deadline` reads: the clock in the drain, what the backend takes there, the
clock before and after the pop of the backend, and what that returns. -/
structure Turn (β : Type*) where
  now : ℚ
  taken : ℕ → Bool
  before : ℚ
  result : Option β
  after : ℚ

/-- What a turn has done. -/
structure Turned (α β : Type*) where
  /-- The state after the drain. -/
  state : State α
  released : List (Held α)
  before : ℚ
  /-- The budget of the pop of the backend. -/
  wait : ℚ
  result : Option β
  after : ℚ

/-- `wait` -/
def Config.wait (c : Config) (s : State α) (deadline before : ℚ) : ℚ :=
  let remaining := max 0 (deadline - before)
  match c.nextReleaseAt s with
  | none => remaining
  | some nextRelease => min remaining (max 0 (nextRelease - before))

/-- The budget ends at the first boundary at the latest. -/
theorem Consistent.wait_le (hc : Consistent c s) (limit before : ℚ) {b : ℚ} (hb : Boundary c s b) :
    before + c.wait s limit before ≤ max before b := by
  rcases hnext : c.nextReleaseAt s with - | r
  · obtain ⟨x, hx, -⟩ := hc.exists_releases_le hb
    have hnone : (releases c s).min? = none := (nextReleaseAt_eq c s).symm.trans hnext
    rw [List.min?_eq_none_iff.mp hnone] at hx
    exact absurd hx List.not_mem_nil
  · have hle := (hc.nextReleaseAt_eq_some_iff.mp hnext).2 b hb
    have hmin : c.wait s limit before ≤ max 0 (r - before) := by
      simp only [Config.wait, hnext]
      exact min_le_right _ _
    rcases le_total (r - before) 0 with hpast | hfuture
    · rw [max_eq_left hpast] at hmin
      exact le_max_of_le_left (by linarith)
    · rw [max_eq_right hfuture] at hmin
      exact le_max_of_le_right (by linarith)

/-- A budget that is used up before the deadline of the pop ends at a boundary, or after it. -/
theorem Consistent.boundary_of_wait (hc : Consistent c s) {limit before after : ℚ}
    (hwait : before + c.wait s limit before ≤ after) (hlimit : after < limit) :
    ∃ b, Boundary c s b ∧ b ≤ after := by
  have hremaining : after < before + max 0 (limit - before) := by
    have := le_max_right 0 (limit - before)
    linarith
  rcases hnext : c.nextReleaseAt s with - | r
  · simp only [Config.wait, hnext] at hwait
    exact absurd hwait (not_le.mpr hremaining)
  · refine ⟨r, (hc.nextReleaseAt_eq_some_iff.mp hnext).1, ?_⟩
    simp only [Config.wait, hnext] at hwait
    by_contra hlt
    have hmax : r - before ≤ max 0 (r - before) := le_max_right _ _
    rcases min_choice (max 0 (limit - before)) (max 0 (r - before)) with hmin | hmin
    · rw [hmin] at hwait
      linarith
    · rw [hmin] at hwait
      linarith

variable [DecidableEq α]

/-- The turns of `_pop_until_deadline`, up to the one in which it returns or a drain raises. -/
def Config.popUntilDeadline (c : Config) (timeout : ℚ) :
    State α → (deadline : Option ℚ) → List (Turn β) → List (Turned α β)
  | _, _, [] => []
  | s, deadline, a :: as =>
    match s.read a.now with
    | none => []
    | some s' =>
      match c.drain s' a.taken with
      | (_, _, false) => []
      | (t, e, true) =>
        match (t.read a.before).bind (State.read · a.after) with
        | none => []
        | some u =>
          let limit := deadline.getD (a.before + timeout)
          ⟨t, e.released, a.before, c.wait t limit a.before, a.result, a.after⟩ ::
            if a.result.isSome ∨ timeout = 0 ∨ limit ≤ a.after ∨ a.after ≤ a.before then []
            else Config.popUntilDeadline c timeout u (some limit) as

variable {timeout : ℚ} {deadline : Option ℚ} {as : List (Turn β)}

/-- A turn that is not the last one has its drain, its readings and its budget. -/
theorem popUntilDeadline_cases {a : Turn β} (h : c.popUntilDeadline timeout s deadline (a :: as) ≠ []) :
    ∃ s' t e u, s.read a.now = some s' ∧ c.drain s' a.taken = (t, e, true) ∧
      (t.read a.before).bind (State.read · a.after) = some u ∧
      c.popUntilDeadline timeout s deadline (a :: as) =
        ⟨t, e.released, a.before, c.wait t (deadline.getD (a.before + timeout)) a.before, a.result, a.after⟩ ::
          if a.result.isSome ∨ timeout = 0 ∨ deadline.getD (a.before + timeout) ≤ a.after ∨ a.after ≤ a.before
          then [] else c.popUntilDeadline timeout u (some (deadline.getD (a.before + timeout))) as := by
  rcases hread : s.read a.now with - | s'
  · simp [Config.popUntilDeadline, hread] at h
  rcases hdrain : c.drain s' a.taken with ⟨t, e, - | -⟩
  · simp [Config.popUntilDeadline, hread, hdrain] at h
  rcases hafter : (t.read a.before).bind (State.read · a.after) with - | u
  · simp [Config.popUntilDeadline, hread, hdrain, hafter] at h
  · refine ⟨s', t, e, u, rfl, hdrain, hafter, ?_⟩
    simp only [Config.popUntilDeadline, hread, hdrain, hafter]

/-- What holds of the turns of a pop. -/
structure Wakes (c : Config) (turns : List (Turned α β)) : Prop where
  /-- No budget goes past the boundary of an entry. -/
  early : ∀ w ∈ turns, ∀ b, Boundary c w.state b → w.before + w.wait ≤ max w.before b
  /-- A drain after the first one hands something over. -/
  progress : turns.IsChain fun _ w ↦ w.released ≠ []

theorem Consistent.popUntilDeadline (hc : Consistent c s) (timeout : ℚ) (deadline : Option ℚ)
    (as : List (Turn β))
    (hwaits : ∀ w ∈ c.popUntilDeadline timeout s deadline as, w.result = none → w.before + w.wait ≤ w.after) :
    Wakes c (c.popUntilDeadline timeout s deadline as) ∧
      ∀ b, Boundary c s b → b ≤ s.clock →
        ∀ w ∈ (c.popUntilDeadline timeout s deadline as).head?, w.released ≠ [] := by
  induction as generalizing s deadline with
  | nil =>
    exact ⟨⟨fun w hw ↦ absurd hw List.not_mem_nil, List.IsChain.nil⟩, fun b _ _ w hw ↦ nomatch hw⟩
  | cons a as ih =>
    by_cases hne : c.popUntilDeadline timeout s deadline (a :: as) = []
    · rw [hne]
      exact ⟨⟨fun w hw ↦ absurd hw List.not_mem_nil, List.IsChain.nil⟩, fun b _ _ w hw ↦ nomatch hw⟩
    obtain ⟨s', t, e, u, hread, hdrain, hafter, heq⟩ := popUntilDeadline_cases hne
    obtain ⟨hc', rfl⟩ := hc.read hread
    have hct := hc'.drain hdrain
    obtain ⟨v, hbefore, hv⟩ := Option.bind_eq_some_iff.mp hafter
    obtain ⟨hcv, rfl⟩ := hct.read hbefore
    obtain ⟨hcu, rfl⟩ := hcv.read hv
    -- the entry of a boundary that has passed goes out in this turn
    have hhead : ∀ b, Boundary c s b → b ≤ s.clock → e.released ≠ [] := by
      intro b hb hle
      have hdue := hc'.due_ne_nil (b := b) hb (hle.trans (State.le_of_read hread))
      exact released_ne_nil hc' hdrain hdue fun hfalse ↦ absurd hfalse.symm Bool.false_ne_true
    rw [heq] at hwaits ⊢
    by_cases hend : a.result.isSome ∨ timeout = 0 ∨ deadline.getD (a.before + timeout) ≤ a.after ∨
        a.after ≤ a.before
    · rw [if_pos hend]
      refine ⟨⟨?_, List.IsChain.singleton _⟩, ?_⟩
      · intro w hw b hb
        obtain rfl := List.mem_singleton.mp hw
        exact hct.wait_le _ _ hb
      · intro b hb hle w hw
        obtain rfl := Option.some.inj hw
        exact hhead b hb hle
    · rw [if_neg hend] at hwaits ⊢
      obtain ⟨⟨hearly, hprogress⟩, hnext⟩ := ih hcu (some (deadline.getD (a.before + timeout)))
        fun w hw ↦ hwaits w (List.mem_cons_of_mem _ hw)
      simp only [not_or, not_le, Bool.not_eq_true, Option.isSome_eq_false_iff, Option.isNone_iff_eq_none] at hend
      obtain ⟨hresult, -, hlimit, -⟩ := hend
      obtain ⟨b, hb, hle⟩ := hct.boundary_of_wait (hwaits _ List.mem_cons_self hresult) hlimit
      refine ⟨⟨?_, List.isChain_cons.mpr ⟨hnext b hb hle, hprogress⟩⟩, ?_⟩
      · intro w hw b hb
        rcases List.mem_cons.mp hw with rfl | hw
        · exact hct.wait_le _ _ hb
        · exact hearly w hw b hb
      · intro b hb hle w hw
        obtain rfl := Option.some.inj hw
        exact hhead b hb hle
/-- What the next release is after a drain at `now` that returned. -/
structure Waiting (c : Config) (t : State α) (now : ℚ) : Prop where
  none_iff : c.nextReleaseAt t = none ↔ held t = []
  future : ∀ r, c.nextReleaseAt t = some r → now < r
  wheel : ∀ r, c.nextReleaseAt t = some r → ∀ q ∈ t.wheel, ∀ h ∈ q.contents, r ≤ c.wheelReleaseAt h.readyAt
  overflow : ∀ r, c.nextReleaseAt t = some r → ∀ h ∈ t.overflow, r ≤ h.readyAt
  /-- A drain at this time hands over an entry, unless the backend refuses the first one. -/
  progress : ∀ r, c.nextReleaseAt t = some r → ∀ taken, taken 0 = true →
    ∃ t' u e completed, t.read r = some t' ∧ c.drain t' taken = (u, e, completed) ∧ e.released ≠ []

theorem Drained.waiting {t : State α} {released left : List (Held α)} (hc : Consistent c s)
    (hd : Drained c s t released left true) : Waiting c t s.clock := by
  have hct := hd.consistent hc
  have hfuture : ∀ r, c.nextReleaseAt t = some r → s.clock < r := by
    intro r hr
    exact hd.lt_boundary hc (hct.nextReleaseAt_eq_some_iff.mp hr).1
  refine ⟨hct.nextReleaseAt_eq_none_iff, hfuture, ?_, ?_, ?_⟩
  · intro r hr q hq h hh
    exact (hct.nextReleaseAt_eq_some_iff.mp hr).2 _ (.inl ⟨q, hq, h, hh, rfl⟩)
  · intro r hr h hh
    exact (hct.nextReleaseAt_eq_some_iff.mp hr).2 _ (.inr ⟨h, hh, rfl⟩)
  · intro r hr taken htaken
    have hread : t.read r = some { t with clock := r } := if_pos (hd.frame.2.1 ▸ (hfuture r hr).le)
    obtain ⟨hcr, -⟩ := hct.read hread
    have hdue := hcr.due_ne_nil (b := r) (hct.nextReleaseAt_eq_some_iff.mp hr).1 le_rfl
    obtain ⟨u, out, rest, completed, hdrain, -⟩ := drain_spec hcr taken
    exact ⟨_, u, _, completed, hread, hdrain, released_ne_nil hcr hdrain hdue fun _ ↦ htaken⟩

/-- **The next release** after a drain that returned, and the turns of a pop: no budget goes past the time at
which an entry can go out, and each turn before the deadline hands something over, if the backend waits as long
as it is told when it has nothing. -/
theorem next_release (c : Config) (start : ℚ) {s : State α} (hs : (machine c start).Reachable s) :
    (∀ now s' taken t e, s.read now = some s' → c.drain s' taken = (t, e, true) → Waiting c t now) ∧
    ∀ (timeout : ℚ) (as : List (Turn β)),
      (∀ w ∈ c.popUntilDeadline timeout s none as, w.result = none → w.before + w.wait ≤ w.after) →
        Wakes c (c.popUntilDeadline timeout s none as) := by
  have hc := Consistent.of_reachable hs
  constructor
  · intro now s' taken t e hread hdrain
    obtain ⟨hc', rfl⟩ := hc.read hread
    obtain ⟨u, released, left, completed, heq, hd⟩ := drain_spec hc' taken
    rw [hdrain] at heq
    obtain ⟨rfl, -, rfl⟩ := by simpa only [Prod.mk.injEq] using heq
    exact hd.waiting hc'
  · intro timeout as hwaits
    exact (hc.popUntilDeadline timeout none as hwaits).1

/-- A pop that sleeps from three to five, when the second short delay is over. -/
def twoTurns : List (Turn ℕ) := [⟨3, fun _ ↦ true, 3, none, 5⟩, ⟨5, fun _ ↦ true, 5, some 9, 5⟩]

theorem next_release_twoTurns :
    (fourSlots.popUntilDeadline 10 afterFailure none twoTurns).map (fun w ↦ (w.released.map Held.item, w.wait)) =
      [([7], 2), ([9], 1)] ∧ Wakes fourSlots (fourSlots.popUntilDeadline 10 afterFailure none twoTurns) := by
  have hreachable : (machine fourSlots 0).Reachable afterFailure :=
    ⟨shortAndLong, (Option.some_get isSome_shortAndLong).symm⟩
  have hwaits : (fourSlots.popUntilDeadline 10 afterFailure none twoTurns).all
      (fun w ↦ w.result.isSome || decide (w.before + w.wait ≤ w.after)) = true := by
    decide +kernel
  refine ⟨by decide +kernel, (next_release fourSlots 0 hreachable).2 10 twoTurns fun w hw hnone ↦ ?_⟩
  simpa [hnone] using List.all_eq_true.mp hwaits w hw


end Pop

end TimeWheel

end ScrapyExtension
