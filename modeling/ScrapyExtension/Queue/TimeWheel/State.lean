import Mathlib.Data.List.Sort
import Mathlib.Data.Prod.Lex
import Mathlib.Data.Rat.Floor
import ScrapyExtension.Machine.Basic
import ScrapyExtension.Py.Heapq

/-!
# The time wheel

`TimeWheelQueueStrategy` holds delayed items in process: those with a short delay in a wheel, at the slot
of the tick at which they are due, the others in a heap. `_drain_ready` moves what is due to the backend.
An entry stays where it is until the backend has taken its item, so a push that raises leaves it, and all
that come after it, to the next drain.

A slot has two deques, of entries and of their sequence numbers, and the least deadline of the entries.
Deletions shift the indices within a slot while a drain goes on: it remembers where it found an entry,
and how many were removed in front of it.

The clock is exact here, and reads rationals that do not decrease. A push of the backend that raises has
not taken the item.
-/

namespace ScrapyExtension

open Py

namespace TimeWheel

/-- What the constructor has accepted. -/
structure Config where
  /-- `_wheel_size` -/
  wheelSize : ℕ
  size_pos : 1 ≤ wheelSize
  /-- `_ticks_per_second` -/
  ticksPerSecond : ℚ
  ticks_pos : 0 < ticksPerSecond
  /-- `_default_delay` -/
  defaultDelay : ℚ
  delay_nonneg : 0 ≤ defaultDelay

/-- `_wheel_duration` -/
def Config.wheelDuration (c : Config) : ℚ := c.wheelSize / c.ticksPerSecond

/-- `_tick_at` -/
def Config.tickAt (c : Config) (timestamp : ℚ) : ℤ := ⌊timestamp * c.ticksPerSecond⌋

/-- The tick at which an entry is due. -/
def Config.readyTick (c : Config) (readyAt : ℚ) : ℤ := ⌈readyAt * c.ticksPerSecond⌉

/-- The slot of a tick. -/
def Config.slotOf (c : Config) (tick : ℤ) : ℕ := (tick % c.wheelSize).toNat

/-- `_slot_at` -/
def Config.slotAt (c : Config) (readyAt : ℚ) : ℕ := c.slotOf (c.readyTick readyAt)

variable {α : Type*}

/-- An entry of a slot. -/
structure Entry (α : Type*) where
  readyAt : ℚ
  item : α
  priority : ℚ
deriving DecidableEq

/-- An entry with its sequence number, as the heap has it. -/
structure Held (α : Type*) where
  readyAt : ℚ
  sequence : ℕ
  item : α
  priority : ℚ
deriving DecidableEq

/-- The entry without the number. -/
def Held.entry (h : Held α) : Entry α := ⟨h.readyAt, h.item, h.priority⟩

/-- The order of release. Sequence numbers differ, so that a comparison never gets to the items. -/
def Held.key (h : Held α) : ℚ ×ₗ ℕ := toLex (h.readyAt, h.sequence)

/-- A slot of `_wheel`, `_wheel_sequences` and `_slot_min_deadlines`. -/
structure Slot (α : Type*) where
  entries : List (Entry α)
  sequences : List ℕ
  minimum : Option ℚ
deriving DecidableEq

/-- What the strategy holds. -/
structure State (α : Type*) where
  wheel : List (Slot α)
  /-- `_overflow` -/
  overflow : List (Held α)
  /-- The next number of `_seq`. -/
  seq : ℕ
  /-- `_last_tick` -/
  lastTick : ℤ
  /-- The last reading of the clock. -/
  clock : ℚ
  /-- The entries that sequence numbers were issued for, since the numbers began. -/
  issued : List (Held α)

/-- The slot at an index. -/
def slot (wheel : List (Slot α)) (i : ℕ) : Slot α := wheel.getD i ⟨[], [], none⟩

/-- Empty slots. -/
def Config.emptyWheel (c : Config) : List (Slot α) := List.replicate c.wheelSize ⟨[], [], none⟩

/-! ## Push -/

/-- Where a signal comes in `_append_wheel_entry`. -/
inductive Stop
  /-- After the entry was appended. -/
  | appended
  /-- After the number was taken. -/
  | numbered
  /-- After the number was appended. -/
  | recorded
  /-- After the minimum was updated. -/
  | updated
deriving DecidableEq, Repr

/-- The minimum with another deadline. -/
def lower (minimum : Option ℚ) (readyAt : ℚ) : Option ℚ :=
  match minimum with
  | none => some readyAt
  | some m => if readyAt < m then some readyAt else some m

/-- The `try` of `_append_wheel_entry`, up to a signal. -/
def Slot.append (s : Slot α) (e : Entry α) (seq : ℕ) : Option Stop → Slot α
  | some .appended | some .numbered => { s with entries := s.entries ++ [e] }
  | some .recorded => { s with entries := s.entries ++ [e], sequences := s.sequences ++ [seq] }
  | some .updated | none =>
    { entries := s.entries ++ [e], sequences := s.sequences ++ [seq],
      minimum := lower s.minimum e.readyAt }

/-- The handler of `_append_wheel_entry`. -/
def Slot.rollback (before now : Slot α) : Slot α :=
  { entries := now.entries.take before.entries.length
    sequences := now.sequences.take before.sequences.length
    minimum := before.minimum }

/-- What a call did with entries. -/
structure Effect (α : Type*) where
  /-- The entries that are held from now on. -/
  accepted : List (Held α)
  /-- The entries whose items the backend took, in that order. -/
  released : List (Held α)
  /-- The entries that were thrown away. -/
  dropped : List (Held α)

/-- No entry was touched. -/
def Effect.none : Effect α := ⟨[], [], []⟩

/-- `push`. A delay that is not positive after the default is applied goes to the backend at once. -/
def Config.push (c : Config) (s : State α) (item : α) (priority delay : ℚ) (signal : Option Stop) :
    State α × Effect α :=
  if delay < 0 then (s, .none) else
  let effective := if 0 < delay then delay else c.defaultDelay
  if effective ≤ 0 then (s, .none) else
  let h : Held α := ⟨s.clock + effective, s.seq, item, priority⟩
  if effective ≤ c.wheelDuration then
    let i := c.slotAt h.readyAt
    let before := slot s.wheel i
    let appended := before.append h.entry s.seq signal
    match signal with
    | .none =>
      ({ s with wheel := s.wheel.set i appended, seq := s.seq + 1, issued := s.issued ++ [h] },
        { Effect.none with accepted := [h] })
    | .some stop =>
      ({ s with
          wheel := s.wheel.set i (before.rollback appended)
          seq := if stop = .appended then s.seq else s.seq + 1 }, .none)
  else
    ({ s with
        overflow := Heapq.heappush Held.key s.overflow h
        seq := s.seq + 1
        issued := s.issued ++ [h] },
      { Effect.none with accepted := [h] })

/-! ## Drain -/

/-- An entry that is due, with the slot it was found in, unless it is in the heap. -/
structure Candidate (α : Type*) where
  held : Held α
  slot : Option ℕ
deriving DecidableEq

/-- `slots_to_scan` -/
def Config.slotsToScan (c : Config) (lastTick nowTick : ℤ) : List ℕ :=
  let span := (max 0 (min (nowTick - lastTick) c.wheelSize)).toNat
  (List.range span).map fun offset : ℕ ↦ c.slotOf (lastTick + 1 + offset)

/-- The entries of a slot with their numbers. -/
def Slot.contents (s : Slot α) : List (Held α) :=
  s.entries.zipWith (fun e seq ↦ ⟨e.readyAt, seq, e.item, e.priority⟩) s.sequences

/-- The entries of a slot that are due, with their indices. -/
def Slot.due (s : Slot α) (now : ℚ) : List (Held α × ℕ) :=
  s.contents.zipIdx.filter fun e ↦ e.1.readyAt ≤ now

/-- `candidates`, in the order in which they are found. -/
def found (wheel : List (Slot α)) (overflow : List (Held α)) (now : ℚ) (scanned : List ℕ) :
    List (Candidate α) :=
  (scanned.flatMap fun i ↦ ((slot wheel i).due now).map fun e ↦ ⟨e.1, some i⟩) ++
    (overflow.filter fun h ↦ h.readyAt ≤ now).map fun h ↦ ⟨h, none⟩

/-- `candidates`, sorted. -/
def candidates (wheel : List (Slot α)) (overflow : List (Held α)) (now : ℚ) (scanned : List ℕ) :
    List (Candidate α) :=
  (found wheel overflow now scanned).insertionSort fun a b ↦ a.held.key ≤ b.held.key

/-- `wheel_origin` -/
def origins (wheel : List (Slot α)) (now : ℚ) (scanned : List ℕ) : List ((ℕ × ℕ) × ℕ) :=
  scanned.flatMap fun i ↦ ((slot wheel i).due now).map fun e ↦ ((i, e.1.sequence), e.2)

/-- `bisect_left` on a sorted list -/
def bisectLeft (l : List ℕ) (x : ℕ) : ℕ := (l.takeWhile (· < x)).length

/-- What a drain has done. -/
structure Progress (α : Type*) where
  wheel : List (Slot α)
  overflow : List (Held α)
  /-- `removed_origins` -/
  removed : ℕ → List ℕ
  /-- What the backend took. -/
  pushed : List (Held α)

/-- `_recompute_slot_min_deadline` -/
def Slot.recompute (s : Slot α) : Slot α := { s with minimum := (s.entries.map Entry.readyAt).min? }

/-- The deletions at an index. -/
def Slot.delete (s : Slot α) (i : ℕ) : Slot α :=
  { s with entries := s.entries.eraseIdx i, sequences := s.sequences.eraseIdx i }

/-- One candidate, which the backend takes or not; the second component is `false` when that raises. -/
def release [DecidableEq α] (origin : List ((ℕ × ℕ) × ℕ)) (p : Progress α) (taken : Bool) :
    Candidate α → Progress α × Bool
  | ⟨h, some i⟩ =>
    -- the last assignment to a key counts
    match origin.reverse.lookup (i, h.sequence) with
    | none => (p, true)
    | some o =>
      let index := o - bisectLeft (p.removed i) o
      if (slot p.wheel i).sequences[index]? = some h.sequence then
        if taken then
          ({ p with
              wheel := p.wheel.modify i fun s ↦ (s.delete index).recompute
              removed := Function.update p.removed i
                ((p.removed i).insertIdx (bisectLeft (p.removed i) o) o)
              pushed := p.pushed ++ [h] }, true)
        else ({ p with wheel := p.wheel.modify i Slot.recompute }, false)
      else (p, true)
  | ⟨h, none⟩ =>
    if p.overflow.head? = some h then
      if taken then
        match Heapq.heappop Held.key p.overflow with
        | none => (p, true)
        | some (_, rest) => ({ p with overflow := rest, pushed := p.pushed ++ [h] }, true)
      else (p, false)
    else
      -- the heap is not in order: the entry is looked for
      match p.overflow.idxOf? h with
      | none => (p, true)
      | some index =>
        if taken then
          ({ p with
              overflow := Heapq.heapify Held.key (p.overflow.eraseIdx index)
              pushed := p.pushed ++ [h] }, true)
        else (p, false)

/-- The loop over the candidates; `taken n` says whether the backend takes the `n`-th item that is pushed. -/
def releaseAll [DecidableEq α] (origin : List ((ℕ × ℕ) × ℕ)) (taken : ℕ → Bool) :
    List (Candidate α) → Progress α → Progress α × Bool
  | [], p => (p, true)
  | a :: as, p =>
    let r := release origin p (taken p.pushed.length) a
    if r.2 then releaseAll origin taken as r.1 else (r.1, false)

/-- `_drain_ready`; the last component says whether it returned. -/
def Config.drain [DecidableEq α] (c : Config) (s : State α) (taken : ℕ → Bool) :
    State α × Effect α × Bool :=
  let nowTick := c.tickAt s.clock
  let scanned := c.slotsToScan s.lastTick nowTick
  let r := releaseAll (origins s.wheel s.clock scanned) taken
    (candidates s.wheel s.overflow s.clock scanned) ⟨s.wheel, s.overflow, fun _ ↦ [], []⟩
  ({ s with
      wheel := r.1.wheel
      overflow := r.1.overflow
      lastTick := if r.2 then nowTick else s.lastTick },
    { Effect.none with released := r.1.pushed }, r.2)

/-! ## Clear and restore -/

/-- What the strategy holds. -/
def held (s : State α) : List (Held α) := s.wheel.flatMap Slot.contents ++ s.overflow

/-- `clear`, when the backend has cleared its queue. -/
def Config.clear (c : Config) (s : State α) : State α × Effect α :=
  ({ s with wheel := c.emptyWheel, overflow := [] }, { Effect.none with dropped := held s })

/-- The version of a snapshot. -/
inductive Version
  | one
  | two
deriving DecidableEq, Repr

/-- An entry of a snapshot, with the fields that it has. -/
structure Saved (α : Type*) where
  readyAt : Option ℚ
  remaining : Option ℚ
  deadline : Option ℚ
  sequence : Option ℤ
  /-- The decoded item. -/
  item : Option α
  priority : Option ℚ

/-- A snapshot whose text is well formed. -/
structure Snapshot (α : Type*) where
  version : Version
  wallTime : ℚ
  /-- `slots_flat`, and then `overflow` -/
  entries : List (Saved α)

/-- An entry of `staged`. -/
structure Staged (α : Type*) where
  readyAt : ℚ
  deadline : ℚ
  order : ℕ
  sequence : Option ℕ
  item : α
  priority : ℚ

/-- `restored_timing` -/
def restoredTiming (v : Version) (now downtime : ℚ) (e : Saved α) : Option (ℚ × ℚ) :=
  match v with
  | .one => some (now, e.readyAt.getD now)
  | .two => do
    let remaining ← e.remaining
    if remaining < 0 then none
    else
      let deadline := e.deadline.getD remaining
      some (now + max 0 (deadline - downtime), deadline)

/-- Whether a sequence number is refused, after those that were seen. -/
def badSequence (seen : List ℕ) : Option ℤ → Bool
  | none => false
  | some raw => decide (raw < 0) || decide (raw.toNat ∈ seen)

/-- The loop that stages the entries, with the numbers seen so far; `none` when an entry is invalid. -/
def stage (v : Version) (now downtime : ℚ) : (order : ℕ) → (seen : List ℕ) → List (Saved α) →
    Option (List (Staged α))
  | _, _, [] => some []
  | order, seen, e :: es =>
    match restoredTiming v now downtime e, e.item, e.priority with
    | some (readyAt, deadline), some item, some priority =>
      if badSequence seen e.sequence then none
      else
        let sequence := e.sequence.map Int.toNat
        (stage v now downtime (order + 1) (sequence.toList ++ seen) es).map fun rest ↦
          ⟨readyAt, deadline, order, sequence, item, priority⟩ :: rest
    | _, _, _ => none

/-- The key by which `staged` is sorted. -/
def Staged.key (e : Staged α) : ℚ ×ₗ ℕ ×ₗ ℕ :=
  match e.sequence with
  | some n => toLex (e.deadline, toLex (0, n))
  | none => toLex (e.deadline, toLex (1, e.order))

/-- One entry goes into the recovered containers. -/
def Config.recover (c : Config) (now : ℚ) (s : State α) (e : Staged α) : State α :=
  let h : Held α := ⟨e.readyAt, s.seq, e.item, e.priority⟩
  if now < e.readyAt ∧ e.readyAt - now ≤ c.wheelDuration then
    { s with
      wheel := s.wheel.modify (c.slotAt e.readyAt) fun r ↦ r.append h.entry s.seq none
      seq := s.seq + 1
      issued := s.issued ++ [h] }
  else
    { s with
      overflow := Heapq.heappush Held.key s.overflow h
      seq := s.seq + 1
      issued := s.issued ++ [h] }

/-- `restore`; a snapshot that is rejected, here or before it is decoded, changes nothing. -/
def Config.restore (c : Config) (s : State α) (wallTime : ℚ) : Option (Snapshot α) → State α × Effect α
  | none => (s, .none)
  | some saved =>
    let downtime := match saved.version with
      | .one => 0
      | .two => max 0 (wallTime - saved.wallTime)
    match stage saved.version s.clock downtime 0 [] saved.entries with
    | none => (s, .none)
    | some staged =>
      let recovered := (staged.insertionSort fun a b ↦ a.key ≤ b.key).foldl (c.recover s.clock)
        ⟨c.emptyWheel, [], 0, c.tickAt s.clock, s.clock, []⟩
      (recovered, { Effect.none with accepted := held recovered, dropped := held s })

/-! ## Runs -/

/-- A call, with the reading of the clock. -/
inductive Call (α : Type*)
  | push (now : ℚ) (item : α) (priority delay : ℚ) (signal : Option Stop)
  | drain (now : ℚ) (taken : ℕ → Bool)
  /-- The backend may refuse to clear its queue. -/
  | clear (cleared : Bool)
  | restore (now wallTime : ℚ) (saved : Option (Snapshot α))

/-- The clock is read. -/
def State.read (s : State α) (now : ℚ) : Option (State α) :=
  if s.clock ≤ now then some { s with clock := now } else none

/-- One call; `none` for a clock that goes back. -/
def Config.call [DecidableEq α] (c : Config) (s : State α) : Call α → Option (State α × Effect α)
  | .push now item priority delay signal => (s.read now).map fun s ↦ c.push s item priority delay signal
  | .drain now taken => (s.read now).map fun s ↦ ((c.drain s taken).1, (c.drain s taken).2.1)
  | .clear cleared => some (if cleared then c.clear s else (s, .none))
  | .restore now wallTime saved => (s.read now).map fun s ↦ c.restore s wallTime saved

/-- A new strategy. -/
def Config.initial (c : Config) (now : ℚ) : State α := ⟨c.emptyWheel, [], 0, c.tickAt now, now, []⟩

/-- The strategy as a machine. -/
def machine [DecidableEq α] (c : Config) (now : ℚ) : Machine (State α) (Call α) where
  init := c.initial now
  step s a := (c.call s a).map Prod.fst

/-- What a run did with entries. -/
def Config.effects [DecidableEq α] (c : Config) : State α → List (Call α) → List (Effect α)
  | _, [] => []
  | s, a :: as =>
    match c.call s a with
    | none => []
    | some (t, e) => e :: Config.effects c t as

end TimeWheel

end ScrapyExtension
