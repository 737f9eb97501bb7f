import ScrapyExtension.Backends.Kafka.Delivery

/-!
# One topic-partition's deliveries

The bookkeeping of one topic-partition beside the history of what was delivered and acknowledged
on it. `Cohort.Sound` is what keeps a commit from passing over a delivery.

## The invariant

Two facts do the work. A delivered, unacknowledged offset is in flight (`tracked`), and nothing
unacknowledged lies below the base of the walk (`settled`). A walk that starts at the base and stops
at the first offset in flight then passes over acknowledged offsets only.

The exception to `tracked` is a legacy nack: it takes its offset out of flight at once, because no
token will settle it. That is harmless as long as the next record delivered is that very offset,
hence `Awaited`.

`settled` survives redeliveries because the deliveries of one epoch have no gaps: the position
starts somewhere, moves over existing records only, and goes back only to a delivered one
(`convex`, `filled`). A redelivered offset below the base was therefore delivered before, and is
acknowledged.
-/

namespace ScrapyExtension

namespace Kafka

/-! ## The walk -/

private theorem walk_zero (inFlight : Finset ℕ) (watermark : ℕ) : walk inFlight 0 watermark = watermark := rfl

private theorem walk_succ (inFlight : Finset ℕ) (fuel watermark : ℕ) :
    walk inFlight (fuel + 1) watermark =
      if watermark ∈ inFlight then watermark else walk inFlight fuel (watermark + 1) := rfl

theorem le_walk (inFlight : Finset ℕ) (fuel watermark : ℕ) :
    watermark ≤ walk inFlight fuel watermark := by
  induction fuel generalizing watermark with
  | zero => exact le_rfl
  | succ fuel ih =>
    rw [walk_succ]
    split
    · exact le_rfl
    · exact (Nat.le_succ _).trans (ih _)

theorem walk_le (inFlight : Finset ℕ) (fuel watermark : ℕ) :
    walk inFlight fuel watermark ≤ watermark + fuel := by
  induction fuel generalizing watermark with
  | zero => exact le_rfl
  | succ fuel ih =>
    rw [walk_succ]
    split
    · omega
    · have := ih (watermark + 1)
      omega

theorem notMem_of_lt_walk {inFlight : Finset ℕ} {fuel watermark x : ℕ} (hx : watermark ≤ x)
    (h : x < walk inFlight fuel watermark) : x ∉ inFlight := by
  induction fuel generalizing watermark with
  | zero =>
    rw [walk_zero] at h
    omega
  | succ fuel ih =>
    rw [walk_succ] at h
    split at h
    · omega
    · rename_i hfree
      rcases hx.eq_or_lt with rfl | hlt
      · exact hfree
      · exact ih hlt h

/-- The walk stops where the loop does. -/
theorem walk_stops (inFlight : Finset ℕ) (fuel watermark : ℕ) :
    walk inFlight fuel watermark = watermark + fuel ∨ walk inFlight fuel watermark ∈ inFlight := by
  induction fuel generalizing watermark with
  | zero => exact .inl rfl
  | succ fuel ih =>
    rw [walk_succ]
    split
    · rename_i hmem
      exact .inr hmem
    · rcases ih (watermark + 1) with h | h
      · left
        omega
      · exact .inr h

/-- The watermark is where `while watermark < high and watermark not in in_flight` ends when it
starts at `base`: it gets there, and not earlier. -/
def WalkEnds (inFlight : Finset ℕ) (base high watermark : ℕ) : Prop :=
  base ≤ watermark ∧ ¬ (watermark < high ∧ watermark ∉ inFlight) ∧
    ∀ x, base ≤ x → x < watermark → x < high ∧ x ∉ inFlight

theorem walkEnds_watermarkFrom (inFlight : Finset ℕ) (base high : ℕ) :
    WalkEnds inFlight base high (watermarkFrom inFlight base high) := by
  refine ⟨le_walk _ _ _, ?_, ?_⟩
  · rintro ⟨hlt, hfree⟩
    rcases walk_stops inFlight (high - base) base with h | h
    · have hle : base ≤ watermarkFrom inFlight base high := le_walk _ _ _
      rw [watermarkFrom] at hlt hle
      omega
    · exact hfree h
  · intro x hx hlt
    refine ⟨?_, notMem_of_lt_walk hx hlt⟩
    have := walk_le inFlight (high - base) base
    rw [watermarkFrom] at hlt
    omega

/-! ## Cohorts -/

/-- What there is to say about the deliveries of one topic-partition in the live epoch. -/
structure Cohort where
  /-- The active attempt of an offset. -/
  active : ℕ → Option ℕ
  /-- The active attempts. -/
  attempts : Finset ℕ
  /-- The offsets in flight. -/
  pending : Finset ℕ
  /-- The base of the walk. -/
  base : Option ℕ
  /-- The pop frontier. -/
  high : Option ℕ
  /-- The fetch position. -/
  position : Option ℕ
  /-- The delivered offsets. -/
  delivered : Finset ℕ
  /-- The acknowledged offsets. -/
  acked : Finset ℕ
  /-- The offsets in a legacy slot. -/
  armed : Set ℕ

namespace Cohort

/-- The offset has left the flight by a legacy nack and comes next. -/
def Awaited (c : Cohort) (o : ℕ) : Prop :=
  c.position = some o ∧ c.attempts = ∅ ∧ ∀ a ∈ c.armed, a = o

/-- The invariant of a cohort, on the records `log` and with attempts up to `next`. -/
structure Sound (log : ℕ → Bool) (next : ℕ) (c : Cohort) : Prop where
  inLog : ∀ o ∈ c.delivered, log o = true
  assigned : ∀ o ∈ c.delivered, ∃ p ∈ c.position, ∃ a ∈ c.delivered, a ≤ p
  convex : ∀ a ∈ c.delivered, ∀ b ∈ c.delivered, ∀ x, a ≤ x → x ≤ b → log x = true →
    x ∈ c.delivered
  filled : ∀ p ∈ c.position, ∀ a ∈ c.delivered, ∀ x, a ≤ x → x < p → log x = true →
    x ∈ c.delivered
  tracked : ∀ o ∈ c.delivered, o ∉ c.acked → o ∈ c.pending ∨ c.Awaited o
  settled : ∀ b ∈ c.base, ∀ o ∈ c.delivered, o < b → o ∈ c.acked
  base_le : ∀ b ∈ c.base, ∃ d ∈ c.delivered, b ≤ d + 1
  high_le : ∀ h ∈ c.high, ∃ d ∈ c.delivered, h ≤ d + 1
  pending_eq : c.base = none → c.pending = ∅
  active_mem : ∀ o n, c.active o = some n → n ∈ c.attempts
  active_inj : ∀ o o' n, c.active o = some n → c.active o' = some n → o = o'
  active_le : ∀ o n, c.active o = some n → n ≤ next
  active_delivered : ∀ o n, c.active o = some n → o ∈ c.delivered
  armed_delivered : ∀ o ∈ c.armed, o ∈ c.delivered

/-- Nothing delivered and nothing remembered. -/
structure Blank (c : Cohort) : Prop where
  delivered : c.delivered = ∅
  active : c.active = fun _ ↦ none
  pending : c.pending = ∅
  base : c.base = none
  high : c.high = none
  armed : c.armed = ∅

theorem Blank.sound {c : Cohort} (h : c.Blank) (log : ℕ → Bool) (next : ℕ) : c.Sound log next := by
  constructor <;> simp [h.delivered, h.active, h.pending, h.base, h.high, h.armed]

variable {log : ℕ → Bool} {next : ℕ} {c : Cohort}

theorem Sound.mono {next' : ℕ} (h : c.Sound log next) (hle : next ≤ next') : c.Sound log next' :=
  { h with active_le := fun o n ho ↦ (h.active_le o n ho).trans hle }

/-- Every delivered and unacknowledged offset is in flight: nothing is awaited. -/
def AllPending (c : Cohort) : Prop := ∀ x ∈ c.delivered, x ∉ c.acked → x ∈ c.pending

/-- With an attempt active, nothing is awaited. -/
theorem Sound.allPending_of_active (h : c.Sound log next) {o n : ℕ} (hact : c.active o = some n) :
    c.AllPending := by
  intro x hx hacked
  rcases h.tracked x hx hacked with hp | ⟨-, hnone, -⟩
  · exact hp
  · have hmem := h.active_mem o n hact
    rw [hnone] at hmem
    exact absurd hmem (Finset.notMem_empty n)

/-! ### Commits -/

/-- The deliveries that a commit passes over. -/
def skipped (c : Cohort) (watermark own : ℕ) : Finset ℕ :=
  c.delivered.filter fun o ↦ o < watermark ∧ o ∉ c.acked ∧ o ≠ own

theorem Sound.skipped_walk (h : c.Sound log next) {o n b watermark high : ℕ}
    (hact : c.active o = some n) (hb : c.base = some b)
    (hw : WalkEnds (c.pending.erase o) b high watermark) : c.skipped watermark o = ∅ := by
  rw [skipped, Finset.filter_eq_empty_iff]
  rintro x hx ⟨hlt, hacked, hne⟩
  have hpending := h.allPending_of_active hact x hx hacked
  have hbase : b ≤ x := by
    by_contra hcon
    exact hacked (h.settled b hb x hx (by omega))
  exact (hw.2.2 x hbase hlt).2 (Finset.mem_erase.mpr ⟨hne, hpending⟩)

theorem Sound.skipped_legacy (h : c.Sound log next) {o : ℕ} (harmed : o ∈ c.armed)
    (hpending : c.pending ⊆ {o}) : c.skipped (o + 1) o = ∅ := by
  rw [skipped, Finset.filter_eq_empty_iff]
  rintro x hx ⟨-, hacked, hne⟩
  rcases h.tracked x hx hacked with hp | ⟨-, -, hall⟩
  · exact hne (Finset.mem_singleton.mp (hpending hp))
  · exact hne (hall o harmed).symm

/-! ### Deliveries -/

/-- A delivered offset enters the cohort. -/
def track (c : Cohort) (o : ℕ) : Cohort :=
  { c with
    position := some (o + 1)
    delivered := insert o c.delivered
    pending := insert o c.pending
    base := some (c.base.getD o)
    high := some (max (c.high.getD 0) (o + 1)) }

/-- The next record at or above a position. -/
def Next (log : ℕ → Bool) (p o : ℕ) : Prop :=
  p ≤ o ∧ log o = true ∧ ∀ x < o, p ≤ x → log x = false

/-- A delivery from the position is a redelivery or goes beyond all deliveries. -/
theorem Sound.mem_or_lt (h : c.Sound log next) {p o : ℕ} (hp : c.position = some p)
    (ho : Next log p o) {d : ℕ} (hd : d ∈ c.delivered) : o ∈ c.delivered ∨ d < o := by
  by_cases hle : o ≤ d
  · left
    obtain ⟨p', hp', a, ha, hap⟩ := h.assigned d hd
    obtain rfl : p = p' := by simpa [hp] using hp'
    exact h.convex a ha d hd o (hap.trans ho.1) hle ho.2.1
  · right
    omega

/-- After a delivery nothing is awaited any more. -/
theorem Sound.allPending_track (h : c.Sound log next) {p o : ℕ} (hp : c.position = some p)
    (ho : Next log p o) : (c.track o).AllPending := by
  intro x hx hacked
  simp only [track, Finset.mem_insert] at hx ⊢
  rcases hx with rfl | hx
  · exact .inl rfl
  · rcases h.tracked x hx hacked with hpend | ⟨hpos, -, -⟩
    · exact .inr hpend
    · left
      obtain rfl : p = x := by simpa [hp] using hpos
      -- The awaited offset exists, so it is the next record.
      by_contra hne
      have hlt : p < o := lt_of_le_of_ne ho.1 hne
      have := ho.2.2 p hlt le_rfl
      rw [h.inLog p hx] at this
      exact absurd this (by decide)

theorem Sound.settled_track (h : c.Sound log next) {p o : ℕ} (hp : c.position = some p)
    (ho : Next log p o) :
    ∀ b ∈ (c.track o).base, ∀ x ∈ (c.track o).delivered, x < b → x ∈ c.acked := by
  intro b hb x hx hlt
  simp only [track, Option.mem_def, Option.some.injEq] at hb
  simp only [track, Finset.mem_insert] at hx
  cases hbase : c.base with
  | none =>
    obtain rfl : o = b := by simpa [hbase] using hb
    have hx : x ∈ c.delivered := hx.resolve_left hlt.ne
    by_contra hacked
    have hpend := h.allPending_track hp ho x (by simp [track, hx]) hacked
    rw [track, h.pending_eq hbase] at hpend
    exact hlt.ne (by simpa using hpend)
  | some b' =>
    obtain rfl : b' = b := by simpa [hbase] using hb
    rcases hx with rfl | hx
    · -- A delivery below the base is a redelivery.
      obtain ⟨d, hd, hle⟩ := h.base_le b' hbase
      rcases h.mem_or_lt hp ho hd with hmem | hdlt
      · exact h.settled b' hbase x hmem hlt
      · omega
    · exact h.settled b' hbase x hx hlt

theorem Sound.track (h : c.Sound log next) {p o : ℕ} (hp : c.position = some p)
    (ho : Next log p o) : (c.track o).Sound log next where
  inLog := by
    intro x hx
    rcases Finset.mem_insert.mp hx with rfl | hx
    · exact ho.2.1
    · exact h.inLog x hx
  assigned := fun x hx ↦ ⟨o + 1, rfl, o, Finset.mem_insert_self _ _, Nat.le_succ o⟩
  convex := by
    intro a ha b hb x hax hxb hlog
    simp only [Cohort.track, Finset.mem_insert] at ha hb ⊢
    rcases ha with rfl | ha
    · rcases hb with rfl | hb
      · exact .inl (le_antisymm hxb hax)
      · rcases h.mem_or_lt hp ho hb with hmem | hlt
        · exact .inr (h.convex a hmem b hb x hax hxb hlog)
        · omega
    · rcases hb with rfl | hb
      · by_cases hxp : x < p
        · exact .inr (h.filled p hp a ha x hax hxp hlog)
        · rcases hxb.eq_or_lt with rfl | hlt
          · exact .inl rfl
          · have := ho.2.2 x hlt (by omega)
            rw [hlog] at this
            exact absurd this (by decide)
      · exact .inr (h.convex a ha b hb x hax hxb hlog)
  filled := by
    intro p' hp' a ha x hax hlt hlog
    obtain rfl : o + 1 = p' := by simpa [Cohort.track] using hp'
    simp only [Cohort.track, Finset.mem_insert] at ha ⊢
    rcases (Nat.lt_succ_iff.mp hlt).eq_or_lt with rfl | hlt
    · exact .inl rfl
    · rcases ha with rfl | ha
      · omega
      · by_cases hxp : x < p
        · exact .inr (h.filled p hp a ha x hax hxp hlog)
        · have := ho.2.2 x hlt (by omega)
          rw [hlog] at this
          exact absurd this (by decide)
  tracked := fun x hx hacked ↦ .inl (h.allPending_track hp ho x hx hacked)
  settled := h.settled_track hp ho
  base_le := by
    intro b hb
    simp only [Cohort.track, Option.mem_def, Option.some.injEq] at hb
    cases hbase : c.base with
    | none =>
      obtain rfl : o = b := by simpa [hbase] using hb
      exact ⟨o, Finset.mem_insert_self _ _, Nat.le_succ o⟩
    | some b' =>
      obtain rfl : b' = b := by simpa [hbase] using hb
      obtain ⟨d, hd, hle⟩ := h.base_le b' hbase
      exact ⟨d, Finset.mem_insert_of_mem hd, hle⟩
  high_le := by
    intro w hw
    obtain rfl : max (c.high.getD 0) (o + 1) = w := by simpa [Cohort.track] using hw
    rcases le_total (c.high.getD 0) (o + 1) with hle | hle
    · exact ⟨o, Finset.mem_insert_self _ _, by omega⟩
    · cases hhigh : c.high with
      | none => exact ⟨o, Finset.mem_insert_self _ _, by simp⟩
      | some w =>
        obtain ⟨d, hd, hwd⟩ := h.high_le w hhigh
        refine ⟨d, Finset.mem_insert_of_mem hd, ?_⟩
        simp only [hhigh, Option.getD_some] at hle ⊢
        omega
  pending_eq := by simp [Cohort.track]
  active_mem := h.active_mem
  active_inj := h.active_inj
  active_le := h.active_le
  active_delivered := fun x n hx ↦ Finset.mem_insert_of_mem (h.active_delivered x n hx)
  armed_delivered := fun x hx ↦ Finset.mem_insert_of_mem (h.armed_delivered x hx)

/-- With nothing awaited, the legacy slots are free to change. -/
theorem Sound.setArmed (h : c.Sound log next) (hall : c.AllPending) {A : Set ℕ}
    (hA : ∀ x ∈ A, x ∈ c.delivered) : { c with armed := A }.Sound log next :=
  { h with
    tracked := fun x hx hacked ↦ .inl (hall x hx hacked)
    armed_delivered := hA }

theorem Sound.disarm (h : c.Sound log next) {A : Set ℕ} (hA : A ⊆ c.armed) :
    { c with armed := A }.Sound log next :=
  { h with
    tracked := by
      intro x hx hacked
      rcases h.tracked x hx hacked with hp | ⟨hpos, hatt, harm⟩
      · exact .inl hp
      · exact .inr ⟨hpos, hatt, fun a ha ↦ harm a (hA ha)⟩
    armed_delivered := fun x hx ↦ h.armed_delivered x (hA hx) }

/-! ### Attempts -/

/-- An attempt begins, in place of an earlier one on the offset. -/
def beginAttempt (c : Cohort) (o n : ℕ) : Cohort :=
  { c with
    active := Function.update c.active o (some n)
    attempts := insert n (match c.active o with
      | none => c.attempts
      | some previous => c.attempts.erase previous) }

theorem Sound.beginAttempt (h : c.Sound log next) (hall : c.AllPending) {o : ℕ}
    (ho : o ∈ c.delivered) : (c.beginAttempt o (next + 1)).Sound log (next + 1) where
  inLog := h.inLog
  assigned := h.assigned
  convex := h.convex
  filled := h.filled
  tracked := fun x hx hacked ↦ .inl (hall x hx hacked)
  settled := h.settled
  base_le := h.base_le
  high_le := h.high_le
  pending_eq := h.pending_eq
  active_mem := by
    intro x n hx
    simp only [Cohort.beginAttempt, Function.update_apply] at hx ⊢
    split at hx
    · obtain rfl : next + 1 = n := by simpa using hx
      exact Finset.mem_insert_self _ _
    · rename_i hne
      refine Finset.mem_insert_of_mem ?_
      cases hprev : c.active o with
      | none => exact h.active_mem x n hx
      | some previous =>
        refine Finset.mem_erase.mpr ⟨?_, h.active_mem x n hx⟩
        rintro rfl
        exact hne (h.active_inj x o n hx hprev)
  active_inj := by
    intro x y n hx hy
    simp only [Cohort.beginAttempt, Function.update_apply] at hx hy
    split at hx <;> split at hy
    · simp_all
    · have := h.active_le y n hy
      simp only [Option.some.injEq] at hx
      omega
    · have := h.active_le x n hx
      simp only [Option.some.injEq] at hy
      omega
    · exact h.active_inj x y n hx hy
  active_le := by
    intro x n hx
    simp only [Cohort.beginAttempt, Function.update_apply] at hx
    split at hx
    · simp only [Option.some.injEq] at hx
      omega
    · exact (h.active_le x n hx).trans (Nat.le_succ _)
  active_delivered := by
    intro x n hx
    simp only [Cohort.beginAttempt, Function.update_apply] at hx
    split at hx
    · rename_i heq
      exact heq ▸ ho
    · exact h.active_delivered x n hx
  armed_delivered := h.armed_delivered

/-- An attempt ends. -/
def finishAttempt (c : Cohort) (o n : ℕ) : Cohort :=
  { c with active := Function.update c.active o none, attempts := c.attempts.erase n }

theorem Sound.finishAttempt (h : c.Sound log next) {o n : ℕ} (hact : c.active o = some n) :
    (c.finishAttempt o n).Sound log next :=
  { h with
    tracked := fun x hx hacked ↦ .inl (h.allPending_of_active hact x hx hacked)
    active_mem := by
      intro x m hx
      simp only [Cohort.finishAttempt, Function.update_apply] at hx ⊢
      split at hx
      · cases hx
      · rename_i hne
        refine Finset.mem_erase.mpr ⟨?_, h.active_mem x m hx⟩
        rintro rfl
        exact hne (h.active_inj x o m hx hact)
    active_inj := by
      intro x y m hx hy
      simp only [Cohort.finishAttempt, Function.update_apply] at hx hy
      split at hx
      · cases hx
      · split at hy
        · cases hy
        · exact h.active_inj x y m hx hy
    active_le := by
      intro x m hx
      simp only [Cohort.finishAttempt, Function.update_apply] at hx
      split at hx
      · cases hx
      · exact h.active_le x m hx
    active_delivered := by
      intro x m hx
      simp only [Cohort.finishAttempt, Function.update_apply] at hx
      split at hx
      · cases hx
      · exact h.active_delivered x m hx }

/-! ### Settlements -/

theorem Sound.acknowledge (h : c.Sound log next) (o : ℕ) :
    { c with acked := insert o c.acked }.Sound log next :=
  { h with
    tracked := fun x hx hacked ↦
      h.tracked x hx fun hmem ↦ hacked (Finset.mem_insert_of_mem hmem)
    settled := fun b hb x hx hlt ↦ Finset.mem_insert_of_mem (h.settled b hb x hx hlt) }

/-- An acknowledged offset may leave the flight. -/
theorem Sound.settle (h : c.Sound log next) {o : ℕ} (ho : o ∈ c.acked) :
    { c with pending := c.pending.erase o }.Sound log next :=
  { h with
    tracked := by
      intro x hx hacked
      rcases h.tracked x hx hacked with hp | haw
      · refine .inl (Finset.mem_erase.mpr ⟨?_, hp⟩)
        rintro rfl
        exact hacked ho
      · exact .inr haw
    pending_eq := fun hb ↦ by simp [h.pending_eq hb] }

/-- A nacked legacy offset may leave the flight when it comes next. -/
theorem Sound.release (h : c.Sound log next) {o : ℕ} (hpos : c.position = some o)
    (hatt : c.attempts = ∅) (harm : ∀ a ∈ c.armed, a = o) :
    { c with pending := c.pending.erase o }.Sound log next :=
  { h with
    tracked := by
      intro x hx hacked
      by_cases hxo : x = o
      · subst hxo
        exact .inr ⟨hpos, hatt, harm⟩
      · rcases h.tracked x hx hacked with hp | haw
        · exact .inl (Finset.mem_erase.mpr ⟨hxo, hp⟩)
        · exact .inr haw
    pending_eq := fun hb ↦ by simp [h.pending_eq hb] }

/-- The base may move over acknowledged offsets, up to the frontier. -/
theorem Sound.setWatermark (h : c.Sound log next) {w : ℕ}
    (hw : ∀ x ∈ c.delivered, x < w → x ∈ c.acked) (hle : ∃ d ∈ c.delivered, w ≤ d + 1) :
    { c with base := some w }.Sound log next :=
  { h with
    settled := by
      rintro b ⟨⟩
      exact hw
    base_le := by
      rintro b ⟨⟩
      exact hle
    pending_eq := fun hb ↦ by cases hb }

/-- Drop base and frontier of a cohort with nothing in flight. -/
def prune (c : Cohort) : Cohort :=
  if c.pending = ∅ then { c with base := none, high := none } else c

theorem Sound.prune (h : c.Sound log next) : c.prune.Sound log next := by
  rw [Cohort.prune]
  split
  · rename_i hempty
    exact { h with
      settled := by simp
      base_le := by simp
      high_le := by simp
      pending_eq := fun _ ↦ hempty }
  · exact h

/-- The position may go back to a delivered offset that is not above an awaited one. -/
theorem Sound.seek (h : c.Sound log next) {o : ℕ} (ho : o ∈ c.delivered)
    (haw : ∀ x, c.Awaited x → x = o) : { c with position := some o }.Sound log next :=
  { h with
    assigned := fun _ _ ↦ ⟨o, rfl, o, ho, le_rfl⟩
    filled := by
      rintro p ⟨⟩ a ha x hax hlt hlog
      exact h.convex a ha o ho x hax hlt.le hlog
    tracked := by
      intro x hx hacked
      rcases h.tracked x hx hacked with hp | hawaited
      · exact .inl hp
      · obtain rfl := haw x hawaited
        exact .inr ⟨rfl, hawaited.2⟩ }

/-! ### The maps of a cohort -/

/-- The cohort with the bookkeeping of other maps. -/
def withMaps (c : Cohort) (m : Maps) (tp : TopicPartition) : Cohort :=
  { c with
    active := m.activeAttempts tp
    attempts := m.activeAttemptsByPartition tp
    pending := m.pending tp
    base := m.watermarks tp
    high := m.highWater tp }

variable (c) (m : Maps) {tp tp' : TopicPartition}

/-- The two maps agree on a topic-partition. -/
def Agree (m m' : Maps) (tp : TopicPartition) : Prop :=
  ∀ c : Cohort, c.withMaps m' tp = c.withMaps m tp

section frame

variable (h : tp' ≠ tp) (o n : ℕ)

include h

theorem agree_register : Agree m (m.register tp o) tp' := by
  intro c
  simp [withMaps, Maps.register, Maps.pending, h]

theorem agree_beginAttempt : Agree m (m.beginAttempt tp o n) tp' := by
  intro c
  simp [withMaps, Maps.beginAttempt, Maps.pending, h]

theorem agree_prune : Agree m (m.prune tp) tp' := by
  intro c
  rw [Maps.prune]
  split
  · simp [withMaps, Maps.pending, h]
  · rfl

theorem agree_settle : Agree m (m.settle tp o) tp' := by
  intro c
  simp [withMaps, Maps.settle, Maps.pending, h]

theorem agree_restore : Agree m (m.restore tp o) tp' := by
  intro c
  simp [withMaps, Maps.restore, Maps.pending, h]

theorem agree_setWatermark : Agree m (m.setWatermark tp n) tp' := by
  intro c
  simp [withMaps, Maps.setWatermark, Maps.pending, h]

end frame

theorem agree_finishAttempt {token : Token} (h : tp' ≠ token.topicPartition) :
    Agree m (m.finishAttempt token) tp' := by
  intro c
  rw [Maps.finishAttempt]
  split
  · simp [withMaps, Maps.pending, h]
  · rfl

theorem Agree.trans {m m' m'' : Maps} (h : Agree m m' tp) (h' : Agree m' m'' tp) :
    Agree m m'' tp := fun c ↦ (h' c).trans (h c)

theorem withMaps_register (tp : TopicPartition) (o : ℕ) :
    c.withMaps (m.register tp o) tp =
      { c.withMaps m tp with
        pending := insert o (m.pending tp)
        base := some ((m.watermarks tp).getD o)
        high := some (max ((m.highWater tp).getD 0) (o + 1)) } := by
  simp [withMaps, Maps.register, Maps.pending]

theorem withMaps_beginAttempt (tp : TopicPartition) (o n : ℕ) :
    c.withMaps (m.beginAttempt tp o n) tp = (c.withMaps m tp).beginAttempt o n := by
  simp only [withMaps, Maps.beginAttempt, Cohort.beginAttempt, Function.update_self]
  rfl

theorem withMaps_finishAttempt {token : Token}
    (h : m.activeAttempts token.topicPartition token.offset = some token.deliveryAttempt) :
    c.withMaps (m.finishAttempt token) token.topicPartition =
      (c.withMaps m token.topicPartition).finishAttempt token.offset token.deliveryAttempt := by
  rw [Maps.finishAttempt, if_pos h]
  simp [withMaps, Cohort.finishAttempt, Maps.pending]

theorem withMaps_prune (tp : TopicPartition) :
    c.withMaps (m.prune tp) tp = (c.withMaps m tp).prune := by
  rw [Maps.prune]
  by_cases h : m.pending tp = ∅
  · have hpending : (c.withMaps m tp).pending = ∅ := h
    rw [if_pos h, Cohort.prune, if_pos hpending]
    simp only [withMaps, Function.update_self, h]
    simp [Maps.pending]
  · have hpending : (c.withMaps m tp).pending ≠ ∅ := h
    rw [if_neg h, Cohort.prune, if_neg hpending]

theorem withMaps_settle (tp : TopicPartition) (o : ℕ) :
    c.withMaps (m.settle tp o) tp =
      { c.withMaps m tp with pending := (m.pending tp).erase o } := by
  simp [withMaps, Maps.settle, Maps.pending]

theorem withMaps_setWatermark (tp : TopicPartition) (w : ℕ) :
    c.withMaps (m.setWatermark tp w) tp = { c.withMaps m tp with base := some w } := by
  simp [withMaps, Maps.setWatermark, Maps.pending]

/-- Settle and restore cancel out, up to the seed of the base. -/
theorem withMaps_restore_settle {tp : TopicPartition} {o b : ℕ} (ho : o ∈ m.pending tp)
    (hb : m.watermarks tp = some b) :
    c.withMaps (((m.settle tp o).setWatermark tp b).restore tp o) tp = c.withMaps m tp := by
  have hpending : insert o ((m.pending tp).erase o) = m.pending tp := Finset.insert_erase ho
  simp only [withMaps, Maps.settle, Maps.setWatermark, Maps.restore, Maps.pending,
    Function.update_self, Option.getD_some, hb]
  simp only [Maps.pending] at hpending
  rw [hpending]

variable {c} {m} {log : ℕ → Bool} {next : ℕ}

/-- The bookkeeping while the commit of an acknowledged offset is under way. -/
theorem Sound.settle_maps {o b : ℕ} (h : (c.withMaps m tp).Sound log next) (ho : o ∈ c.acked)
    (hb : m.watermarks tp = some b) :
    (c.withMaps ((m.settle tp o).setWatermark tp b) tp).Sound log next := by
  have hsettle := h.settle ho
  rw [withMaps_setWatermark, withMaps_settle]
  simpa [withMaps, hb] using hsettle

/-- The bookkeeping after an attempt has ended. -/
theorem Sound.finish_maps {token : Token} (h : (c.withMaps m token.topicPartition).Sound log next)
    (hact : m.activeAttempts token.topicPartition token.offset = some token.deliveryAttempt) :
    (c.withMaps ((m.finishAttempt token).prune token.topicPartition)
      token.topicPartition).Sound log next := by
  rw [withMaps_prune, withMaps_finishAttempt c m hact]
  exact (h.finishAttempt hact).prune

/-- The bookkeeping after an offset has left the flight for good. -/
theorem Sound.drop_maps {o : ℕ} (h : { c.withMaps m tp with
    pending := (m.pending tp).erase o }.Sound log next) :
    (c.withMaps ((m.settle tp o).prune tp) tp).Sound log next := by
  rw [withMaps_prune, withMaps_settle]
  exact h.prune

theorem prune_settle_empty (tp : TopicPartition) (o : ℕ) :
    (Maps.empty.settle tp o).prune tp = Maps.empty := by
  have hpending : (Maps.empty.settle tp o).pending tp = ∅ := by
    simp [Maps.settle, Maps.pending, Maps.empty]
  rw [Maps.prune, if_pos hpending]
  simp [Maps.settle, Maps.empty]

end Cohort

end Kafka

end ScrapyExtension
