import ScrapyExtension.Dupefilter.Filters.Cuckoo

/-!
# The displacement loop of the cuckoo filter

`_insert` once more, a statement at a time, for an exception may come between any two of them: a signal,
or what the generator, the hash or an index raises. A `Displacement` is the table together with the
variables of the loop, and `Displacement.step` executes the next statement.

The handler reads three variables: the journal, the bucket that is appended to and its size before that.
`recover` is what it leaves in the table. It is the table before the insertion at each of the statements,
which is the invariant `Undoable`: a slot is journaled while the replaced fingerprint is still in it, so
that writing it back has no effect before the slot is overwritten, and the right one after. The order
matters where a chain comes back to a slot, and the journal is a list whose first entry is the last
replacement.

`kickLoop` and `add` are among the runs of these statements (`inserts_kickLoop`, `adds_add`).
-/

namespace ScrapyExtension

open Py

namespace Cuckoo

/-- The statement of the loop that is executed next. -/
inductive Line
  /-- `for _ in range(self._MAX_KICKS)`, `slot = self._rng.randrange(b)` -/
  | draw
  /-- `evicted = buckets[index][slot]` -/
  | read
  /-- `kick_path.append((index, slot, evicted))` -/
  | journal
  /-- `buckets[index][slot] = fp` -/
  | replace
  /-- `fp = evicted` -/
  | take
  /-- `index = self._alt_index(index, fp)` -/
  | locate
  /-- `if len(buckets[index]) < b` -/
  | test
  /-- `destination_bucket = buckets[index]`, `appended_size = len(destination_bucket)` -/
  | measure
  /-- `appended_bucket = destination_bucket` -/
  | mark
  /-- `appended_bucket.append(fp)` -/
  | append
  /-- `return True` -/
  | leave
deriving DecidableEq, Repr

/-- The variables of `_insert` within the loop, and the table. -/
structure Displacement where
  line : Line
  /-- `buckets` -/
  table : Table
  /-- The replacements to go. -/
  left : ℕ
  fp : Bytes
  index : ℕ
  slot : ℕ
  evicted : Bytes
  /-- `kick_path`, the last entry first. -/
  kickPath : List (ℕ × ℕ × Bytes)
  /-- `appended_bucket`, by its index. -/
  appendedBucket : Option ℕ
  appendedSize : ℕ
deriving DecidableEq, Repr

namespace Displacement

/-- Before the loop. -/
def start (kicks : ℕ) (table : Table) (fp : Bytes) (index : ℕ) : Displacement where
  line := .draw
  table
  left := kicks
  fp
  index
  slot := 0
  evicted := []
  kickPath := []
  appendedBucket := none
  appendedSize := 0

section Hash

variable (sha256 : Bytes → Bytes) (z : Sizing)

/-- One statement, for the number that `randrange` returns. There is no next state where the statement
raises, and where the loop is left. -/
def step (drawn : ℕ) (d : Displacement) : Option Displacement :=
  match d.line with
  | .draw =>
    match d.left with
    | 0 => none
    | left + 1 => some { d with line := .read, left, slot := drawn }
  | .read =>
    (d.table[d.index]?.bind fun b ↦ b[d.slot]?).map fun evicted ↦ { d with line := .journal, evicted }
  | .journal =>
    some { d with line := .replace, kickPath := (d.index, d.slot, d.evicted) :: d.kickPath }
  | .replace => some { d with line := .take, table := write d.table d.index d.slot d.fp }
  | .take => some { d with line := .locate, fp := d.evicted }
  | .locate => some { d with line := .test, index := altIndex sha256 z d.index d.fp }
  | .test =>
    d.table[d.index]?.map fun b ↦ { d with line := if b.length < bucketSize then .measure else .draw }
  | .measure => d.table[d.index]?.map fun b ↦ { d with line := .mark, appendedSize := b.length }
  | .mark => some { d with line := .append, appendedBucket := some d.index }
  | .append => some { d with line := .leave, table := Cuckoo.append d.table d.index d.fp }
  | .leave => none

/-- The states of the loop. -/
inductive Reaches (d : Displacement) : Displacement → Prop
  | refl : Reaches d d
  | tail {e f : Displacement} (drawn : ℕ) : Reaches d e → e.step sha256 z drawn = some f → Reaches d f

end Hash

/-- The handler, `appended_bucket.pop()`. -/
def retract (d : Displacement) : Table :=
  match d.appendedBucket with
  | none => d.table
  | some index =>
    if d.appendedSize < (bucket d.table index).length then d.table.modify index List.dropLast
    else d.table

/-- The handler: what was appended is removed, and the journal is written back. -/
def recover (d : Displacement) : Table := undo d.kickPath d.retract

/-- After the loop, the journal is written back. -/
def restore (d : Displacement) : Table := undo d.kickPath d.table

theorem recover_of_none {d : Displacement} (h : d.appendedBucket = none) : d.recover = d.restore := by
  rw [recover, retract, h, restore]

theorem recover_of_some {d : Displacement} {index : ℕ} (h : d.appendedBucket = some index) :
    d.recover = undo d.kickPath (if d.appendedSize < (bucket d.table index).length then
      d.table.modify index List.dropLast else d.table) := by
  rw [recover, retract, h]

/-! ## The handler undoes the insertion -/

/-- The invariant of the loop, for the table before it. -/
structure Undoable (before : Table) (d : Displacement) : Prop where
  recovered : d.recover = before
  unmarked : d.line ≠ .append → d.line ≠ .leave → d.appendedBucket = none
  occupied : d.line = .journal ∨ d.line = .replace → (bucket d.table d.index)[d.slot]? = some d.evicted
  journaled : d.line = .replace → ∃ path, d.kickPath = (d.index, d.slot, d.evicted) :: path ∧
    undo path d.table = before
  measured : d.line = .mark ∨ d.line = .append →
    d.index < d.table.length ∧ d.appendedSize = (bucket d.table d.index).length
  marked : d.line = .append → d.appendedBucket = some d.index

variable {before : Table} {d e : Displacement}

theorem Undoable.start (kicks : ℕ) (table : Table) (fp : Bytes) (index : ℕ) :
    Undoable table (start kicks table fp index) := by
  constructor <;> simp [Displacement.start, recover, retract, undo]

/-- The line is one at which nothing is appended, and nothing is known of the other variables. -/
def Plain (l : Line) : Prop :=
  l ≠ .journal ∧ l ≠ .replace ∧ l ≠ .mark ∧ l ≠ .append ∧ l ≠ .leave

theorem Undoable.of_restore (hline : Plain d.line) (hnone : d.appendedBucket = none)
    (hrestore : d.restore = before) : Undoable before d := by
  obtain ⟨hjournal, hreplace, hmark, happend, -⟩ := hline
  refine ⟨?_, fun _ _ ↦ hnone, ?_, ?_, ?_, ?_⟩
  · rw [recover_of_none hnone, hrestore]
  · rintro (h | h)
    · exact absurd h hjournal
    · exact absurd h hreplace
  · exact fun h ↦ absurd h hreplace
  · rintro (h | h)
    · exact absurd h hmark
    · exact absurd h happend
  · exact fun h ↦ absurd h happend

theorem Undoable.restore (h : Undoable before d) (happend : d.line ≠ .append) (hleave : d.line ≠ .leave) :
    d.restore = before := by
  rw [← recover_of_none (h.unmarked happend hleave)]
  exact h.recovered

theorem getElem?_bucket {table : Table} {index : ℕ} {b : List Bytes} (h : table[index]? = some b) :
    bucket table index = b := by
  rw [bucket, List.getD_eq_getElem?_getD, h, Option.getD_some]

/-- Writing back what the slot holds. -/
theorem write_self {table : Table} {index slot : ℕ} {fp : Bytes}
    (h : (bucket table index)[slot]? = some fp) : write table index slot fp = table := by
  obtain ⟨hlt, heq⟩ := List.getElem?_eq_some_iff.mp h
  apply modify_eq_self
  rw [← heq, List.set_getElem_self]

section Step

variable {sha256 : Bytes → Bytes} {z : Sizing} {drawn : ℕ}

/-- One statement. -/
theorem Undoable.step (h : Undoable before d) (hstep : d.step sha256 z drawn = some e) :
    Undoable before e := by
  rcases hline : d.line <;> simp only [Displacement.step, hline] at hstep
  case draw =>
    have hrestore := h.restore (by simp [hline]) (by simp [hline])
    have hnone := h.unmarked (by simp [hline]) (by simp [hline])
    rcases hleft : d.left with _ | left
    · simp [hleft] at hstep
    · simp only [hleft, Option.some.injEq] at hstep
      subst hstep
      exact .of_restore (by simp [Plain]) hnone hrestore
  case read =>
    have hrestore := h.restore (by simp [hline]) (by simp [hline])
    have hnone := h.unmarked (by simp [hline]) (by simp [hline])
    obtain ⟨evicted, hevicted, rfl⟩ := Option.map_eq_some_iff.mp hstep
    obtain ⟨b, hb, hslot⟩ := Option.bind_eq_some_iff.mp hevicted
    constructor
    · rw [recover_of_none]
      · exact hrestore
      · exact hnone
    · exact fun _ _ ↦ hnone
    · intro _
      rw [getElem?_bucket hb]
      exact hslot
    · simp
    · simp
    · simp
  case journal =>
    have hrestore := h.restore (by simp [hline]) (by simp [hline])
    have hnone := h.unmarked (by simp [hline]) (by simp [hline])
    have hslot := h.occupied (.inl hline)
    obtain rfl := Option.some.inj hstep
    constructor
    · -- the slot still holds what is written back
      rw [recover_of_none, Displacement.restore, undo, write_self hslot]
      · exact hrestore
      · exact hnone
    · exact fun _ _ ↦ hnone
    · exact fun _ ↦ hslot
    · exact fun _ ↦ ⟨d.kickPath, rfl, hrestore⟩
    · simp
    · simp
  case replace =>
    have hnone := h.unmarked (by simp [hline]) (by simp [hline])
    have hslot := h.occupied (.inr hline)
    obtain ⟨path, hpath, hundo⟩ := h.journaled hline
    obtain rfl := Option.some.inj hstep
    refine .of_restore (by simp [Plain]) hnone ?_
    rw [Displacement.restore, hpath, undo, write_write hslot]
    exact hundo
  case take =>
    have hrestore := h.restore (by simp [hline]) (by simp [hline])
    have hnone := h.unmarked (by simp [hline]) (by simp [hline])
    obtain rfl := Option.some.inj hstep
    exact .of_restore (by simp [Plain]) hnone hrestore
  case locate =>
    have hrestore := h.restore (by simp [hline]) (by simp [hline])
    have hnone := h.unmarked (by simp [hline]) (by simp [hline])
    obtain rfl := Option.some.inj hstep
    exact .of_restore (by simp [Plain]) hnone hrestore
  case test =>
    have hrestore := h.restore (by simp [hline]) (by simp [hline])
    have hnone := h.unmarked (by simp [hline]) (by simp [hline])
    obtain ⟨b, -, rfl⟩ := Option.map_eq_some_iff.mp hstep
    refine .of_restore ?_ hnone hrestore
    by_cases hroom : b.length < bucketSize <;> simp [Plain, hroom]
  case measure =>
    have hrestore := h.restore (by simp [hline]) (by simp [hline])
    have hnone := h.unmarked (by simp [hline]) (by simp [hline])
    obtain ⟨b, hb, rfl⟩ := Option.map_eq_some_iff.mp hstep
    constructor
    · rw [recover_of_none]
      · exact hrestore
      · exact hnone
    · exact fun _ _ ↦ hnone
    · simp
    · simp
    · intro _
      rw [getElem?_bucket hb]
      exact ⟨(List.getElem?_eq_some_iff.mp hb).1, rfl⟩
    · simp
  case mark =>
    have hrestore := h.restore (by simp [hline]) (by simp [hline])
    obtain ⟨hlt, hsize⟩ := h.measured (.inl hline)
    obtain rfl := Option.some.inj hstep
    constructor
    · -- the bucket is no longer than before the append
      rw [recover_of_some rfl, if_neg (by simp [hsize])]
      exact hrestore
    · simp
    · simp
    · simp
    · exact fun _ ↦ ⟨hlt, hsize⟩
    · exact fun _ ↦ rfl
  case append =>
    obtain ⟨hlt, hsize⟩ := h.measured (.inr hline)
    have hmarked := h.marked hline
    have hrecovered := h.recovered
    rw [recover_of_some hmarked, if_neg (by simp [hsize])] at hrecovered
    have he := Option.some.inj hstep
    have hmarked' : e.appendedBucket = some d.index := by
      rw [← he]
      exact hmarked
    constructor
    · have hlonger : d.appendedSize < (bucket (Cuckoo.append d.table d.index d.fp) d.index).length := by
        rw [Cuckoo.append, bucket_modify _ hlt, if_pos rfl, List.length_append, hsize]
        exact Nat.lt_succ_self _
      rw [recover_of_some hmarked', ← he, if_pos hlonger, dropLast_append]
      exact hrecovered
    · simp [← he]
    · simp [← he]
    · simp [← he]
    · simp [← he]
    · simp [← he]
  case leave => simp at hstep

theorem Undoable.of_reaches (h : Undoable before d) (hr : Reaches sha256 z d e) : Undoable before e := by
  induction hr with
  | refl => exact h
  | tail drawn _ hstep ih => exact ih.step hstep

end Step

end Displacement

/-! ## Insertions -/

section Insertion

variable (sha256 : Bytes → Bytes) (z : Sizing)

/-- How `_insert` may end. -/
inductive Inserts (kicks : ℕ) (table : Table) (fp : Bytes) (i₁ i₂ : ℕ) : Table → Outcome → Prop
  | first {b₁ : List Bytes} (h₁ : table[i₁]? = some b₁) (room : b₁.length < bucketSize) :
    Inserts kicks table fp i₁ i₂ (append table i₁ fp) .placed
  | second {b₁ b₂ : List Bytes} (h₁ : table[i₁]? = some b₁) (full₁ : ¬ b₁.length < bucketSize)
    (h₂ : table[i₂]? = some b₂) (room : b₂.length < bucketSize) :
    Inserts kicks table fp i₁ i₂ (append table i₂ fp) .placed
  | placed {b₁ b₂ : List Bytes} (h₁ : table[i₁]? = some b₁) (full₁ : ¬ b₁.length < bucketSize)
    (h₂ : table[i₂]? = some b₂) (full₂ : ¬ b₂.length < bucketSize) {d : Displacement}
    (reaches : (Displacement.start kicks table fp i₁).Reaches sha256 z d) (leave : d.line = .leave) :
    Inserts kicks table fp i₁ i₂ d.table .placed
  | full {b₁ b₂ : List Bytes} (h₁ : table[i₁]? = some b₁) (full₁ : ¬ b₁.length < bucketSize)
    (h₂ : table[i₂]? = some b₂) (full₂ : ¬ b₂.length < bucketSize) {d : Displacement}
    (reaches : (Displacement.start kicks table fp i₁).Reaches sha256 z d) (draw : d.line = .draw)
    (exhausted : d.left = 0) : Inserts kicks table fp i₁ i₂ d.restore .full
  /-- An exception, wherever the loop is. -/
  | raised {b₁ b₂ : List Bytes} (h₁ : table[i₁]? = some b₁) (full₁ : ¬ b₁.length < bucketSize)
    (h₂ : table[i₂]? = some b₂) (full₂ : ¬ b₂.length < bucketSize) {d : Displacement}
    (reaches : (Displacement.start kicks table fp i₁).Reaches sha256 z d) :
    Inserts kicks table fp i₁ i₂ d.recover .raised

/-- How `add` may end. The outcome is absent where it returns `False`; with `.full` it raises
`FilterFull`, and with `.raised` the exception of the loop. -/
inductive Adds (kicks : ℕ) (s : State) (item : Bytes) : State → Option Outcome → Prop
  | known (h : contains sha256 z s item = true) : Adds kicks s item s none
  | placed (h : contains sha256 z s item = false) {table : Table}
    (inserts : Inserts sha256 z kicks s.table (fingerprint sha256 z item) (primary sha256 z item)
      (altIndex sha256 z (primary sha256 z item) (fingerprint sha256 z item)) table .placed) :
    Adds kicks s item ⟨table, s.count + 1⟩ (some .placed)
  | refused (h : contains sha256 z s item = false) {table : Table} {outcome : Outcome}
    (inserts : Inserts sha256 z kicks s.table (fingerprint sha256 z item) (primary sha256 z item)
      (altIndex sha256 z (primary sha256 z item) (fingerprint sha256 z item)) table outcome)
    (not_placed : outcome ≠ .placed) :
    Adds kicks s item ⟨table, s.count⟩ (some outcome)

variable {sha256 z} {kicks : ℕ} {table table' : Table} {fp : Bytes} {i₁ i₂ : ℕ}

theorem Inserts.unchanged {outcome : Outcome} (h : Inserts sha256 z kicks table fp i₁ i₂ table' outcome)
    (hrefused : outcome ≠ .placed) : table' = table := by
  have hstart := Displacement.Undoable.start kicks table fp i₁
  rcases h with _ | _ | _ | ⟨-, -, -, -, hreaches, hdraw, -⟩ | ⟨-, -, -, -, hreaches⟩
  · exact absurd rfl hrefused
  · exact absurd rfl hrefused
  · exact absurd rfl hrefused
  · exact (hstart.of_reaches hreaches).restore (by simp [hdraw]) (by simp [hdraw])
  · exact (hstart.of_reaches hreaches).recovered

/-! ## The insertion as a function -/

section Function

variable {d : Displacement} {choices : ℕ → Choice}

theorem getElem?_of_lt {index : ℕ} (h : index < table.length) :
    table[index]? = some (bucket table index) := by
  rw [bucket, List.getD_eq_getElem?_getD, List.getElem?_eq_getElem h, Option.getD_some]

/-- A round of the loop as far as the replaced fingerprint is in hand. -/
theorem reaches_take {start : Displacement} (hreaches : start.Reaches sha256 z d) {slot left : ℕ}
    {evicted : Bytes} (hline : d.line = .draw) (hleft : d.left = left + 1) (hlt : d.index < d.table.length)
    (hslot : (bucket d.table d.index)[slot]? = some evicted) :
    start.Reaches sha256 z { d with line := .read, left, slot } ∧
    start.Reaches sha256 z { d with
      line := .replace, left, slot, evicted, kickPath := (d.index, slot, evicted) :: d.kickPath } ∧
    start.Reaches sha256 z { d with
      line := .take, left, slot, evicted, kickPath := (d.index, slot, evicted) :: d.kickPath
      table := write d.table d.index slot d.fp } := by
  have hbucket := getElem?_of_lt hlt
  have hread : start.Reaches sha256 z { d with line := .read, left, slot } :=
    .tail slot hreaches (by simp [Displacement.step, hline, hleft])
  have hjournal : start.Reaches sha256 z { d with line := .journal, left, slot, evicted } :=
    .tail 0 hread (by simp [Displacement.step, hbucket, hslot])
  have hreplace : start.Reaches sha256 z { d with
      line := .replace, left, slot, evicted, kickPath := (d.index, slot, evicted) :: d.kickPath } :=
    .tail 0 hjournal rfl
  exact ⟨hread, hreplace, .tail 0 hreplace rfl⟩

/-- The test of the other bucket. -/
theorem reaches_test {start : Displacement} (hreaches : start.Reaches sha256 z d) (hline : d.line = .test)
    (hlt : d.index < d.table.length) : start.Reaches sha256 z { d with
      line := if (bucket d.table d.index).length < bucketSize then .measure else .draw } :=
  .tail 0 hreaches (by simp [Displacement.step, hline, getElem?_of_lt hlt])

/-- The statements after the test, in a bucket with room. -/
theorem reaches_leave {start : Displacement} (hreaches : start.Reaches sha256 z d)
    (hline : d.line = .test) (hlt : d.index < d.table.length)
    (hroom : (bucket d.table d.index).length < bucketSize) :
    start.Reaches sha256 z { d with
      line := .leave, table := append d.table d.index d.fp, appendedBucket := some d.index
      appendedSize := (bucket d.table d.index).length } := by
  have hbucket := getElem?_of_lt hlt
  have hmeasure := reaches_test hreaches hline hlt
  rw [if_pos hroom] at hmeasure
  have hmark : start.Reaches sha256 z { d with
      line := .mark, appendedSize := (bucket d.table d.index).length } :=
    .tail 0 hmeasure (by simp [Displacement.step, hbucket])
  have happend : start.Reaches sha256 z { d with
      line := .append, appendedBucket := some d.index
      appendedSize := (bucket d.table d.index).length } := .tail 0 hmark rfl
  exact .tail 0 happend rfl

/-- The loop as a function of the choices executes these statements. -/
theorem inserts_kickLoop {b₁ b₂ : List Bytes} (h₁ : table[i₁]? = some b₁)
    (full₁ : ¬ b₁.length < bucketSize) (h₂ : table[i₂]? = some b₂) (full₂ : ¬ b₂.length < bucketSize)
    {left : ℕ} (n : ℕ) (hreaches : (Displacement.start kicks table fp i₁).Reaches sha256 z d)
    (hline : d.line = .draw) (hleft : d.left = left) (hnone : d.appendedBucket = none)
    (hlength : d.table.length = z.numBuckets) (hlt : d.index < z.numBuckets) :
    Inserts sha256 z kicks table fp i₁ i₂
      (kickLoop sha256 z choices left n d.table d.fp d.index d.kickPath).1
      (kickLoop sha256 z choices left n d.table d.fp d.index d.kickPath).2 := by
  induction left generalizing d n with
  | zero => exact .full h₁ full₁ h₂ full₂ hreaches hline hleft
  | succ left ih =>
    have hraised : ∀ {e : Displacement}, (Displacement.start kicks table fp i₁).Reaches sha256 z e →
        e.appendedBucket = none → Inserts sha256 z kicks table fp i₁ i₂ (undo e.kickPath e.table) .raised := by
      intro e he hnone
      have := Inserts.raised h₁ full₁ h₂ full₂ he
      rwa [Displacement.recover_of_none hnone] at this
    have hdraw := hraised hreaches hnone
    rw [kickLoop]
    by_cases hdrawn : (choices n).signal = some .drawn
    · rw [if_pos hdrawn]
      exact hdraw
    rw [if_neg hdrawn]
    cases hslot : (bucket d.table d.index)[(choices n).slot.val]? with
    | none => exact hdraw
    | some evicted =>
      obtain ⟨-, hreplace, htake⟩ := reaches_take hreaches hline hleft (by omega) hslot
      let other := altIndex sha256 z d.index evicted
      have hother : other < (write d.table d.index (choices n).slot.val d.fp).length := by
        rw [length_write, hlength]
        exact altIndex_lt hlt evicted
      have htest : (Displacement.start kicks table fp i₁).Reaches sha256 z { d with
          line := .test, left, slot := (choices n).slot.val, evicted, fp := evicted, index := other
          kickPath := (d.index, (choices n).slot.val, evicted) :: d.kickPath
          table := write d.table d.index (choices n).slot.val d.fp } := .tail 0 (.tail 0 htake rfl) rfl
      simp only
      split_ifs with hjournaled hreplaced hroom happended
      · exact hraised hreplace hnone
      · exact hraised htake hnone
      · have := Inserts.raised h₁ full₁ h₂ full₂ (reaches_leave htest rfl hother hroom)
        rwa [Displacement.recover_of_some rfl, if_pos] at this
        rw [append, bucket_modify _ hother, if_pos rfl, List.length_append]
        exact Nat.lt_succ_self _
      · exact .placed h₁ full₁ h₂ full₂ (reaches_leave htest rfl hother hroom) rfl
      · have hnext := reaches_test htest rfl hother
        rw [if_neg hroom] at hnext
        exact ih (n + 1) hnext rfl rfl hnone (by simpa using hlength) (altIndex_lt hlt evicted)

theorem inserts_insert (choices : ℕ → Choice) (hlength : table.length = z.numBuckets)
    (hlt₁ : i₁ < z.numBuckets) (hlt₂ : i₂ < z.numBuckets) :
    Inserts sha256 z maxKicks table fp i₁ i₂ (insert sha256 z choices table fp i₁ i₂).1
      (insert sha256 z choices table fp i₁ i₂).2 := by
  have h₁ : table[i₁]? = some (bucket table i₁) := getElem?_of_lt (by omega)
  have h₂ : table[i₂]? = some (bucket table i₂) := getElem?_of_lt (by omega)
  rw [insert]
  split_ifs with hroom₁ hroom₂
  · exact .first h₁ hroom₁
  · exact .second h₁ hroom₁ h₂ hroom₂
  · exact inserts_kickLoop h₁ hroom₁ h₂ hroom₂ 0 .refl rfl rfl rfl hlength hlt₁

end Function

/-- The states of the loop, by the numbers that are drawn, one for each statement. -/
theorem reaches_of_foldlM {d e : Displacement} (draws : List ℕ)
    (h : draws.foldlM (fun d drawn ↦ d.step sha256 z drawn) d = some e) : d.Reaches sha256 z e := by
  induction draws using List.reverseRecOn generalizing e with
  | nil =>
    obtain rfl : d = e := by simpa using h
    exact .refl
  | append_singleton draws drawn ih =>
    rw [List.foldlM_append] at h
    obtain ⟨f, hf, hstep⟩ := Option.bind_eq_some_iff.mp h
    exact .tail drawn (ih hf) (by simpa using hstep)

/-- **Atomicity.** An insertion that gives up, or whose loop an exception leaves at any of its
statements, leaves every bucket, the order of its slots and the count as they were, whatever the table,
the item, the number of replacements and the slots that are drawn. -/
theorem insert_atomic {s s' : State} {item : Bytes} {outcome : Outcome}
    (h : Adds sha256 z kicks s item s' (some outcome)) (hrefused : outcome = .full ∨ outcome = .raised) :
    s' = s := by
  rcases h with _ | _ | ⟨-, hinserts, hplaced⟩
  · simp at hrefused
  · obtain rfl := hinserts.unchanged hplaced
    rfl

end Insertion

/-- One bucket, and three replacements of which the first two draw one slot. The insertion gives up, or an
exception comes when the third replacement is not in hand yet. -/
theorem insert_atomic_revisited :
    let sha256 : Bytes → Bytes := fun b ↦ b ++ List.replicate 31 0
    let z : Sizing := ⟨0, 1⟩
    let s : State := ⟨[[[1], [2], [3], [4]]], 4⟩
    ∃ d e : Displacement, d.kickPath = [(0, 2, [3]), (0, 0, [9]), (0, 0, [1])] ∧
      d.table = [[[1], [2], [9], [4]]] ∧ e.line = .take ∧ e.kickPath = d.kickPath ∧ e.table = d.table ∧
      Adds sha256 z 3 s [9] ⟨d.restore, 4⟩ (some .full) ∧ (⟨d.restore, 4⟩ : State) = s ∧
      Adds sha256 z 3 s [9] ⟨e.recover, 4⟩ (some .raised) ∧ (⟨e.recover, 4⟩ : State) = s := by
  intro sha256 z s
  let table : Table := [[[1], [2], [9], [4]]]
  let path : List (ℕ × ℕ × Bytes) := [(0, 2, [3]), (0, 0, [9]), (0, 0, [1])]
  let d : Displacement := ⟨.draw, table, 0, [3], 0, 2, [3], path, none, 0⟩
  let e : Displacement := ⟨.take, table, 0, [9], 0, 2, [3], path, none, 0⟩
  let fp := fingerprint sha256 z [9]
  let i₁ := primary sha256 z [9]
  let i₂ := altIndex sha256 z i₁ fp
  have hd : (Displacement.start 3 s.table fp i₁).Reaches sha256 z d :=
    reaches_of_foldlM (List.replicate 14 0 ++ List.replicate 7 2) (by decide)
  have he : (Displacement.start 3 s.table fp i₁).Reaches sha256 z e :=
    reaches_of_foldlM (List.replicate 14 0 ++ List.replicate 4 2) (by decide)
  have h₁ : s.table[i₁]? = some [[1], [2], [3], [4]] := by decide
  have h₂ : s.table[i₂]? = some [[1], [2], [3], [4]] := by decide
  have hfull₄ : ¬ [[1], [2], [3], [4]].length < bucketSize := by decide
  have habsent : contains sha256 z s [9] = false := by decide
  have hfull : Adds sha256 z 3 s [9] ⟨d.restore, 4⟩ (some .full) :=
    .refused habsent (.full h₁ hfull₄ h₂ hfull₄ hd rfl rfl) (by decide)
  have hraised : Adds sha256 z 3 s [9] ⟨e.recover, 4⟩ (some .raised) :=
    .refused habsent (.raised h₁ hfull₄ h₂ hfull₄ he) (by decide)
  exact ⟨d, e, rfl, rfl, rfl, rfl, rfl, hfull, insert_atomic hfull (.inl rfl), hraised,
    insert_atomic hraised (.inr rfl)⟩

end Cuckoo

end ScrapyExtension
