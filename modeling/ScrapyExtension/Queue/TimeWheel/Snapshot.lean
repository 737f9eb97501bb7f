import ScrapyExtension.Json.Load
import ScrapyExtension.Program.Publish
import ScrapyExtension.Py.HeapSort
import ScrapyExtension.Queue.TimeWheel.Waiting

/-!
# The snapshot of a time wheel

A snapshot has every entry with its delay, which is negative when the entry is overdue, and its number. The
slots are flattened: a restore computes them from the delays, for a wheel of its own size and a clock of its
own, after subtracting the time between the two readings of the wall clock.

Entries of different deadlines can become due at one time, when the downtime is longer than both delays. So a
restore sorts by the deadlines as they were written, and then by the old numbers, and issues the new numbers in
this order.

The text is written and read by the `json` module. All of it is checked before the first field is assigned.
-/

namespace ScrapyExtension

open Py Json

namespace TimeWheel

/-! ## Writing -/

/-- The object of an entry. -/
def savedValue (F : Floats) (now : ℚ) (h : Held Bytes) : Value :=
  .obj [(str "remaining", .float (F.repr (max 0 (h.readyAt - now)))),
    (str "deadline", .float (F.repr (h.readyAt - now))),
    (str "item_b64", .str (Base64.encode h.item)),
    (str "priority", .float (F.repr h.priority)),
    (str "sequence", .int h.sequence)]

/-- The object of a snapshot. The entries of the heap are sorted; their numbers differ, so that no comparison gets
to the items. -/
def Config.snapshotValue (c : Config) (F : Floats) (s : State Bytes) (wallTime : ℚ) : Value :=
  .obj [(str "version", .int 2),
    (str "strategy", .str (str "time_wheel")),
    (str "snapshot_wall_time", .float (F.repr wallTime)),
    (str "wheel_size", .int c.wheelSize),
    (str "slots_flat", .arr ((s.wheel.flatMap Slot.contents).map (savedValue F s.clock))),
    (str "overflow", .arr ((Heapq.sorted Held.key s.overflow).map (savedValue F s.clock)))]

/-- `snapshot`, with the readings of both clocks. -/
def Config.snapshot (c : Config) (F : Floats) (s : State Bytes) (wallTime : ℚ) : Option Bytes :=
  if (s.wheel.map fun r ↦ r.entries.length).sum = 0 ∧ s.overflow = [] then none
  else some (dumpBytes .default (c.snapshotValue F s wallTime))

/-! ## Reading -/

/-- The number of an entry, if it has one. -/
def readSequence (ms : List (Str × Loaded)) : Option (Option ℤ) :=
  match ms.lookup (str "sequence") with
  | none | some .none => some none
  | some (.int i) => some (some i)
  | _ => none

/-- A field that may be missing. -/
def readOptional (ms : List (Str × Loaded)) (key : Str) (convert : Loaded → Option ℚ) : Option (Option ℚ) :=
  match ms.lookup key with
  | none => some none
  | some x => (convert x).map some

/-- One entry. -/
def readSaved (F : Floats) (v : Version) : Loaded → Option (Saved Bytes)
  | .dict ms => do
    let item ← (ms.lookup (str "item_b64")).bind Loaded.base64
    let priority ← (ms.lookup (str "priority")).bind (Loaded.toFloat F)
    let sequence ← readSequence ms
    match v with
    | .one =>
      let readyAt ← readOptional ms (str "ready_at") (Loaded.toFloat F)
      some ⟨readyAt, none, none, sequence, some item, some priority⟩
    | .two =>
      let remaining ← (ms.lookup (str "remaining")).bind (Loaded.finiteNumber F)
      let deadline ← readOptional ms (str "deadline") (Loaded.finiteNumber F)
      some ⟨none, some remaining, deadline, sequence, some item, some priority⟩
  | _ => none

/-- The part of `restore` that reads the text; `wallTime` is the reading of the wall clock, if it is finite. -/
def readSnapshot (F : Floats) (limit : ℕ) (wallTime : Option ℚ) (state : Bytes) : Option (Snapshot Bytes) :=
  match loadBytes F limit state with
  | some (.dict ms) =>
    match ms.lookup (str "strategy"), ms.lookup (str "version"), ms.lookup (str "slots_flat"),
      ms.lookup (str "overflow") with
    | some (.str strategy), some (.int version), some (.list slotsFlat), some (.list overflow) =>
      if strategy ≠ str "time_wheel" then none
      else if version = 1 then do
        let entries ← (slotsFlat ++ overflow).mapM (readSaved F .one)
        some ⟨.one, 0, entries⟩
      else if version = 2 then do
        let snapshotWallTime ← (ms.lookup (str "snapshot_wall_time")).bind (Loaded.toFloat F)
        let _ ← wallTime
        let entries ← (slotsFlat ++ overflow).mapM (readSaved F .two)
        some ⟨.two, snapshotWallTime, entries⟩
      else none
    | _, _, _, _ => none
  | _ => none

/-! ## Restoring -/

/-- The containers that `restore` builds; `none` when an entry is invalid. -/
def Config.recovered {α : Type*} (c : Config) (now wallTime : ℚ) (saved : Snapshot α) : Option (State α) :=
  let downtime := match saved.version with
    | .one => 0
    | .two => max 0 (wallTime - saved.wallTime)
  (stage saved.version now downtime 0 [] saved.entries).map fun staged ↦
    (staged.insertionSort fun a b ↦ a.key ≤ b.key).foldl (c.recover now)
      ⟨c.emptyWheel, [], 0, c.tickAt now, now, []⟩

/-- What a restore raises. -/
inductive Raised
  /-- `QueueStrategyRestoreError` -/
  | restoreError
  /-- A signal. -/
  | signal
deriving DecidableEq, Repr

/-- The slots with other entries, numbers or minima. -/
def replace {α : Type*} (f : Slot α → Slot α → Slot α) (wheel : List (Slot α)) (s : State α) : State α :=
  { s with wheel := s.wheel.zipWith f wheel }

/-- The assignments at the end of `restore`, in their order. The counter comes with the numbers it has issued. -/
def assignments {α : Type*} (t : State α) : List (State α → State α) :=
  [replace (fun r q ↦ { r with entries := q.entries }) t.wheel,
    replace (fun r q ↦ { r with sequences := q.sequences }) t.wheel,
    replace (fun r q ↦ { r with minimum := q.minimum }) t.wheel,
    fun s ↦ { s with overflow := t.overflow },
    fun s ↦ { s with seq := t.seq, issued := t.issued },
    fun s ↦ { s with lastTick := t.lastTick }]

/-- The handler of these assignments. -/
def putBack {α : Type*} (previous s : State α) : State α :=
  { previous with clock := s.clock }

/-- `restore`, after the clock was read: `stop` says where an exception comes between the assignments. -/
def Config.restoreBytes (c : Config) (F : Floats) (limit : ℕ) (wallTime : Option ℚ) (stop : Option (ℕ × Raised)) :
    Option Bytes → Program (State Bytes) Raised Unit
  | none => pure ()
  | some state => do
    let s ← Program.state
    match (readSnapshot F limit wallTime state).bind fun saved ↦ c.recovered s.clock (wallTime.getD 0) saved with
    | none => Program.raise .restoreError
    | some t => Program.publish putBack stop (assignments t)

/-! ## The order of a restore -/

section Order

variable {α : Type*} {c : Config} {s : State α}

theorem restore_eq (c : Config) (s : State α) (wallTime : ℚ) (saved : Snapshot α) :
    c.restore s wallTime (some saved) = match c.recovered s.clock wallTime saved with
      | none => (s, .none)
      | some t => (t, { Effect.none with accepted := held t, dropped := held s }) := by
  rw [Config.restore, Config.recovered]
  dsimp only
  rcases stage saved.version s.clock _ 0 [] saved.entries with - | staged <;> rfl

/-- What a snapshot says of an entry. -/
def Held.saved (now : ℚ) (h : Held α) : Saved α :=
  ⟨none, some (max 0 (h.readyAt - now)), some (h.readyAt - now), some h.sequence, some h.item, some h.priority⟩

/-- What a restore makes of it, for another clock and after a downtime. -/
def Held.staged (now now' downtime : ℚ) (h : Held α) (order : ℕ) : Staged α :=
  ⟨now' + max 0 (h.readyAt - now - downtime), h.readyAt - now, order, some h.sequence, h.item, h.priority⟩

theorem stage_saved (now now' downtime : ℚ) (hs : List (Held α)) (order : ℕ) (seen : List ℕ)
    (hnodup : (hs.map Held.sequence).Nodup) (hseen : ∀ h ∈ hs, h.sequence ∉ seen) :
    stage .two now' downtime order seen (hs.map (Held.saved now)) =
      some ((hs.zipIdx order).map fun e ↦ e.1.staged now now' downtime e.2) := by
  induction hs generalizing order seen with
  | nil => rfl
  | cons h hs ih =>
    rw [List.map_cons, List.nodup_cons] at hnodup
    have hbad : badSequence seen (some (h.sequence : ℤ)) = false := by
      simpa [badSequence] using hseen h List.mem_cons_self
    have htiming : restoredTiming .two now' downtime (h.saved now) =
        some (now' + max 0 (h.readyAt - now - downtime), h.readyAt - now) := by
      have hneg : ¬ max 0 (h.readyAt - now) < 0 := not_lt.mpr (le_max_left _ _)
      simp only [restoredTiming, Held.saved, Option.bind_eq_bind, Option.bind_some, if_neg hneg, Option.getD_some]
    have hrest := ih (order + 1) (h.sequence :: seen) hnodup.2 fun x hx ↦ by
      rw [List.mem_cons, not_or]
      exact ⟨fun heq ↦ hnodup.1 (heq ▸ List.mem_map_of_mem hx), hseen x (List.mem_cons_of_mem _ hx)⟩
    rw [List.map_cons, stage, htiming]
    simp only [Held.saved] at hrest ⊢
    simp only [hbad, Bool.false_eq_true, if_false, Option.map_some, Int.toNat_natCast, Option.toList_some,
      List.singleton_append, hrest, List.zipIdx_cons, List.map_cons]
    rfl

/-- The recovered entries: the numbers are issued in order. -/
def renumber : ℕ → List (Staged α) → List (Held α)
  | _, [] => []
  | n, e :: es => ⟨e.readyAt, n, e.item, e.priority⟩ :: renumber (n + 1) es

theorem foldl_recover_held {now : ℚ} (staged : List (Staged α)) (hc : Consistent c s) (hclock : s.clock = now)
    (htick : s.lastTick = c.tickAt now) :
    (held (staged.foldl (c.recover now) s)).Perm (held s ++ renumber s.seq staged) := by
  induction staged generalizing s with
  | nil =>
    rw [renumber, List.append_nil]
    rfl
  | cons e es ih =>
    obtain ⟨hc', hclock', htick'⟩ := hc.recover hclock htick e
    have hone : (held (c.recover now s e)).Perm (⟨e.readyAt, s.seq, e.item, e.priority⟩ :: held s) ∧
        (c.recover now s e).seq = s.seq + 1 := by
      unfold Config.recover
      split_ifs with hwheel
      · have hlater : s.lastTick < c.readyTick e.readyAt := htick ▸ Config.tickAt_lt_readyTick hwheel.1
        exact ⟨(hc.add_wheel (h := ⟨e.readyAt, s.seq, e.item, e.priority⟩) rfl hlater).2, rfl⟩
      · exact ⟨(hc.add_overflow (h := ⟨e.readyAt, s.seq, e.item, e.priority⟩) rfl).2, rfl⟩
    have hrest := ih hc' hclock' htick'
    rw [hone.2] at hrest
    rw [List.foldl_cons, renumber]
    exact hrest.trans ((hone.1.append_right _).trans List.perm_middle.symm)

theorem clock_foldl_recover {now : ℚ} (staged : List (Staged α)) (s : State α) (hclock : s.clock = now) :
    (staged.foldl (c.recover now) s).clock = now := by
  induction staged generalizing s with
  | nil => exact hclock
  | cons e es ih =>
    apply ih
    unfold Config.recover
    split_ifs <;> exact hclock

theorem mem_renumber {n : ℕ} {es : List (Staged α)} {h : Held α} (hmem : h ∈ renumber n es) :
    n ≤ h.sequence ∧ ∃ e ∈ es, h.readyAt = e.readyAt := by
  induction es generalizing n with
  | nil => exact absurd hmem List.not_mem_nil
  | cons e es ih =>
    rcases List.mem_cons.mp hmem with rfl | hmem
    · exact ⟨le_rfl, e, List.mem_cons_self, rfl⟩
    · obtain ⟨hle, x, hx, hready⟩ := ih hmem
      exact ⟨(Nat.le_succ n).trans hle, x, List.mem_cons_of_mem _ hx, hready⟩

/-- Entries whose deadlines ascend are released in the order of their new numbers. -/
theorem pairwise_renumber {es : List (Staged α)} (h : es.Pairwise fun a b ↦ a.readyAt ≤ b.readyAt) (n : ℕ) :
    (renumber n es).Pairwise fun a b ↦ a.key < b.key := by
  induction es generalizing n with
  | nil => exact List.Pairwise.nil
  | cons e es ih =>
    rw [List.pairwise_cons] at h
    refine List.pairwise_cons.mpr ⟨fun x hx ↦ ?_, ih h.2 (n + 1)⟩
    obtain ⟨hle, y, hy, hready⟩ := mem_renumber hx
    rw [Held.key, Held.key, Prod.Lex.lt_iff]
    rcases (h.1 y hy).lt_or_eq with hlt | heq
    · exact .inl (hready ▸ hlt)
    · exact .inr ⟨heq.trans hready.symm, hle⟩

theorem map_renumber {β : Type*} (g : ℚ → α → ℚ → β) (n : ℕ) (es : List (Staged α)) :
    (renumber n es).map (fun h ↦ g h.readyAt h.item h.priority) =
      es.map fun e ↦ g e.readyAt e.item e.priority := by
  induction es generalizing n with
  | nil => rfl
  | cons e es ih => rw [renumber, List.map_cons, List.map_cons, ih]

/-- The entry that a staged one was written from. -/
def Staged.origin (now : ℚ) (e : Staged α) : Held α :=
  ⟨e.deadline + now, e.sequence.getD 0, e.item, e.priority⟩

theorem origin_staged (now now' downtime : ℚ) (h : Held α) (order : ℕ) :
    (h.staged now now' downtime order).origin now = h := by
  simp [Staged.origin, Held.staged]

/-- The staged entries are sorted like those they were written from. -/
theorem key_staged_le_iff (now now' downtime : ℚ) (a b : Held α) (m n : ℕ) :
    (a.staged now now' downtime m).key ≤ (b.staged now now' downtime n).key ↔ a.key ≤ b.key := by
  simp only [Staged.key, Held.staged, Held.key, Prod.Lex.le_iff, ofLex_toLex]
  constructor
  · rintro (hlt | ⟨heq, hlt | ⟨-, hle⟩⟩)
    · exact .inl (by linarith)
    · exact absurd hlt (lt_irrefl _)
    · exact .inr ⟨by linarith, hle⟩
  · rintro (hlt | ⟨heq, hle⟩)
    · exact .inl (by linarith)
    · exact .inr ⟨by linarith, .inr ⟨trivial, hle⟩⟩

/-- The entries that are due at the same or at a later time stay in this order. -/
theorem readyAt_le_of_key_le {now now' downtime : ℚ} {a b : Held α} (h : a.key ≤ b.key) (m n : ℕ) :
    (a.staged now now' downtime m).readyAt ≤ (b.staged now now' downtime n).readyAt := by
  have hle : a.readyAt ≤ b.readyAt := (Prod.Lex.le_iff.mp h).elim le_of_lt fun e ↦ e.1.le
  simp only [Held.staged]
  have hmax : max 0 (a.readyAt - now - downtime) ≤ max 0 (b.readyAt - now - downtime) :=
    max_le_max_left 0 (by linarith)
  linarith

/-- **A restore** of what was written: the same items with the same priorities, in the same order, and the
delays without the downtime. -/
theorem recovered_saved {hs : List (Held α)} (hnodup : (hs.map Held.sequence).Nodup) (c : Config)
    (now wallTime now' wallTime' : ℚ) :
    ∃ t, c.recovered now' wallTime' ⟨.two, wallTime, hs.map (Held.saved now)⟩ = some t ∧ Consistent c t ∧
      t.clock = now' ∧ (Heapq.sorted Held.key (held t)).map (fun h ↦ (h.item, h.priority, h.readyAt - now')) =
        (Heapq.sorted Held.key hs).map fun h ↦
          (h.item, h.priority, max 0 (h.readyAt - now - max 0 (wallTime' - wallTime))) := by
  have hstage := stage_saved now now' (max 0 (wallTime' - wallTime)) hs 0 [] hnodup
    fun _ _ ↦ List.not_mem_nil
  set downtime := max 0 (wallTime' - wallTime) with hdowntime
  set staged := (hs.zipIdx 0).map fun e ↦ e.1.staged now now' downtime e.2 with hstaged
  set order := staged.insertionSort fun a b ↦ a.key ≤ b.key with horder
  have hmem : ∀ e ∈ staged, ∃ (h : Held α) (n : ℕ), e = h.staged now now' downtime n := by
    intro e he
    obtain ⟨x, -, rfl⟩ := List.mem_map.mp he
    exact ⟨x.1, x.2, rfl⟩
  have hmem' : ∀ e ∈ order, ∃ (h : Held α) (n : ℕ), e = h.staged now now' downtime n := fun e he ↦
    hmem e ((List.perm_insertionSort _ _).mem_iff.mp he)
  have hsorted : order.map (Staged.origin now) = Heapq.sorted Held.key hs := by
    rw [horder, List.map_insertionSort _ (fun a b : Held α ↦ a.key ≤ b.key) (Staged.origin now), Heapq.sorted]
    · congr 1
      rw [hstaged, List.map_map]
      refine Eq.trans (List.map_congr_left fun e _ ↦ ?_) (List.zipIdx_map_fst 0 hs)
      exact origin_staged now now' downtime e.1 e.2
    · intro a ha b hb
      obtain ⟨x, m, rfl⟩ := hmem a ha
      obtain ⟨y, n, rfl⟩ := hmem b hb
      rw [origin_staged, origin_staged]
      exact key_staged_le_iff now now' downtime x y m n
  have hready : order.Pairwise fun a b ↦ a.readyAt ≤ b.readyAt := by
    have hkeys : order.Pairwise fun a b ↦ a.key ≤ b.key := by
      have : Std.Total fun a b : Staged α ↦ a.key ≤ b.key := ⟨fun a b ↦ le_total _ _⟩
      have : IsTrans (Staged α) fun a b ↦ a.key ≤ b.key := ⟨fun a b c ↦ le_trans⟩
      exact List.pairwise_insertionSort _ _
    refine hkeys.imp_of_mem fun {a b} ha hb hle ↦ ?_
    obtain ⟨x, m, rfl⟩ := hmem' a ha
    obtain ⟨y, n, rfl⟩ := hmem' b hb
    exact readyAt_le_of_key_le ((key_staged_le_iff now now' downtime x y m n).mp hle) m n
  have hinitial : Consistent c (c.initial now' : State α) := .initial c now'
  have hheld : (held (order.foldl (c.recover now') (c.initial now'))).Perm (renumber 0 order) := by
    have hperm := foldl_recover_held order hinitial rfl rfl
    rwa [held_eq_nil (t := (c.initial now' : State α)) rfl rfl, List.nil_append] at hperm
  have hnew : Heapq.sorted Held.key (held (order.foldl (c.recover now') (c.initial now'))) = renumber 0 order :=
    Heapq.sorted_eq (pairwise_renumber hready 0) hheld.symm
  refine ⟨order.foldl (c.recover now') (c.initial now'), ?_, Consistent.foldl_recover _ hinitial rfl rfl, ?_, ?_⟩
  · simp only [Config.recovered, ← hdowntime, hstage, Option.map_some]
    rfl
  · exact clock_foldl_recover order _ rfl
  · rw [hnew, map_renumber (fun r item priority ↦ (item, priority, r - now')), ← hsorted, List.map_map]
    apply List.map_congr_left
    intro e he
    obtain ⟨x, n, rfl⟩ := hmem' e he
    rw [Function.comp_apply, origin_staged]
    simp [Held.staged]

end Order

/-! ## The text of a snapshot -/

section Text

variable {F : Floats}

/-- An entry as it comes from `json.loads`. -/
def loadedEntry (now : ℚ) (h : Held Bytes) : Loaded :=
  .dict [(str "remaining", .float (some (max 0 (h.readyAt - now)))),
    (str "deadline", .float (some (h.readyAt - now))),
    (str "item_b64", .str (Base64.encode h.item)),
    (str "priority", .float (some h.priority)),
    (str "sequence", .int h.sequence)]

theorem isScalar_savedValue (F : Floats) (now : ℚ) (h : Held Bytes) : (savedValue F now h).IsScalar := by
  have hitem : (Base64.encode h.item).IsScalar := fun c hc ↦ (Base64.encode_isAscii h.item c hc).isScalar
  exact ⟨by decide, trivial, by decide, trivial, by decide, hitem, by decide, trivial, by decide, trivial, trivial⟩

theorem fold_savedValue (hF : F.Faithful) (now : ℚ) (h : Held Bytes) :
    (savedValue F now h).fold (loadHooks F) = some (loadedEntry now h) := by
  rw [savedValue, Value.fold]
  simp only [foldMembers, Value.fold, loadHooks, hF _, Option.bind_eq_bind, Option.bind_some]
  rw [dictOf_eq (by simp only [List.map_cons, List.map_nil]; decide), loadedEntry]

theorem readSaved_loadedEntry (now : ℚ) (h : Held Bytes) :
    readSaved F .two (loadedEntry now h) = some (h.saved now) := by
  have hitem : (List.lookup (str "item_b64") [(str "remaining", Loaded.float (some (max 0 (h.readyAt - now)))),
      (str "deadline", .float (some (h.readyAt - now))), (str "item_b64", .str (Base64.encode h.item)),
      (str "priority", .float (some h.priority)), (str "sequence", .int h.sequence)]).bind Loaded.base64 =
        some h.item := Base64.decode_encode h.item
  rw [loadedEntry, readSaved, hitem]
  rfl

/-- The entries of a snapshot, in the order in which they are written. -/
def written (s : State Bytes) : List (Held Bytes) :=
  s.wheel.flatMap Slot.contents ++ Heapq.sorted Held.key s.overflow

theorem written_perm (s : State Bytes) : (written s).Perm (held s) := (Heapq.sorted_perm Held.key _).append_left _

/-- **What is read** from the text of a snapshot. -/
theorem readSnapshot_snapshotValue (hF : F.Faithful) {limit : ℕ} (hlimit : 3 ≤ limit) (c : Config)
    (s : State Bytes) (wallTime wallTime' : ℚ) :
    readSnapshot F limit (some wallTime') (dumpBytes .default (c.snapshotValue F s wallTime)) =
      some ⟨.two, wallTime, (written s).map (Held.saved s.clock)⟩ := by
  have hscalar : (c.snapshotValue F s wallTime).IsScalar := by
    have hitems : ∀ hs : List (Held Bytes), ItemsScalar (hs.map (savedValue F s.clock)) := fun hs ↦
      itemsScalar_map fun h _ ↦ isScalar_savedValue F s.clock h
    exact ⟨by decide, trivial, by decide, (by decide : (str "time_wheel").IsScalar), by decide, trivial, by decide,
      trivial, by decide, hitems _, by decide, hitems _, trivial⟩
  have hdepth : (c.snapshotValue F s wallTime).depth ≤ limit := by
    have hitems : ∀ hs : List (Held Bytes), itemsDepth (hs.map (savedValue F s.clock)) ≤ 1 := fun hs ↦
      itemsDepth_map_le fun h _ ↦ le_rfl
    refine le_trans ?_ hlimit
    simp only [Config.snapshotValue, Value.depth, membersDepth]
    have h₁ := hitems (s.wheel.flatMap Slot.contents)
    have h₂ := hitems (Heapq.sorted Held.key s.overflow)
    omega
  have hfold : (c.snapshotValue F s wallTime).fold (loadHooks F) = some (.dict
      [(str "version", .int 2), (str "strategy", .str (str "time_wheel")),
        (str "snapshot_wall_time", .float (some wallTime)), (str "wheel_size", .int c.wheelSize),
        (str "slots_flat", .list ((s.wheel.flatMap Slot.contents).map (loadedEntry s.clock))),
        (str "overflow", .list ((Heapq.sorted Held.key s.overflow).map (loadedEntry s.clock)))]) := by
    rw [Config.snapshotValue, Value.fold]
    simp only [foldMembers, Value.fold, foldItems_map fun h _ ↦ fold_savedValue hF s.clock h]
    simp only [loadHooks, hF _, Option.bind_eq_bind, Option.bind_some, Option.map_some]
    rw [dictOf_eq (by simp only [List.map_cons, List.map_nil]; decide)]
  have hentries : ((s.wheel.flatMap Slot.contents).map (loadedEntry s.clock) ++
      (Heapq.sorted Held.key s.overflow).map (loadedEntry s.clock)).mapM (readSaved F .two) =
        some ((written s).map (Held.saved s.clock)) := by
    rw [← List.map_append]
    exact mapM_map_eq fun h _ ↦ readSaved_loadedEntry s.clock h
  rw [readSnapshot, loadBytes_dumpBytes rfl hdepth, Value.readBack_of_isScalar _ hscalar, hfold]
  have hversion : ¬ (2 : ℤ) = 1 := by decide
  have hstrategy : ¬ str "time_wheel" ≠ str "time_wheel" := fun h ↦ h rfl
  change (if str "time_wheel" ≠ str "time_wheel" then none else if (2 : ℤ) = 1 then _ else if (2 : ℤ) = 2 then _
    else none) = _
  rw [if_neg hstrategy, if_neg hversion, if_pos rfl, hentries]
  rfl

theorem Consistent.nodup_keys {α : Type*} {c : Config} {s : State α} (hc : Consistent c s) :
    ((held s).map Held.key).Nodup := by
  refine List.Nodup.of_map (fun k : ℚ ×ₗ ℕ ↦ (ofLex k).2) ?_
  rw [List.map_map]
  exact hc.nodup_sequences

theorem Consistent.snapshot_eq_none_iff {c : Config} {s : State Bytes} (hc : Consistent c s) (F : Floats)
    (wallTime : ℚ) : c.snapshot F s wallTime = none ↔ held s = [] := by
  have hsum : (s.wheel.map fun r ↦ r.entries.length).sum = (s.wheel.flatMap Slot.contents).length := by
    rw [List.length_flatMap]
    congr 1
    refine List.map_congr_left fun r hr ↦ ?_
    conv_lhs => rw [hc.slots r hr]
    rw [Slot.ofHeld, List.length_map]
  have hiff : ((s.wheel.map fun r ↦ r.entries.length).sum = 0 ∧ s.overflow = []) ↔ held s = [] := by
    rw [hsum, List.length_eq_zero_iff, held, List.append_eq_nil_iff]
  rw [← hiff, Config.snapshot]
  split_ifs with hempty
  · exact iff_of_true rfl hempty
  · exact iff_of_false (by rintro ⟨⟩) hempty

end Text

/-! ## Publication -/

section Publish

variable {α : Type} {c : Config}

theorem putBack_assignments (t : State α) : Program.PutBack putBack (assignments t) where
  same _ := rfl
  assigned := by
    intro w hw p s
    simp only [assignments, List.mem_cons, List.not_mem_nil, or_false] at hw
    rcases hw with rfl | rfl | rfl | rfl | rfl | rfl <;> rfl

theorem zipWith_assigned {l m : List (Slot α)} (h : l.length = m.length) :
    ((l.zipWith (fun r q ↦ { r with entries := q.entries }) m).zipWith
      (fun r q ↦ { r with sequences := q.sequences }) m).zipWith
        (fun r q ↦ { r with minimum := q.minimum }) m = m := by
  induction l generalizing m with
  | nil =>
    rw [List.length_nil] at h
    rw [List.eq_nil_of_length_eq_zero h.symm]
    rfl
  | cons r l ih =>
    rcases m with - | ⟨q, m⟩
    · exact absurd h (Nat.succ_ne_zero _)
    · simp only [List.zipWith_cons_cons, ih (Nat.succ.inj h)]

/-- The assignments leave nothing of the state before. -/
theorem foldl_assignments {s t : State α} (hwheel : s.wheel.length = t.wheel.length)
    (hclock : s.clock = t.clock) : (assignments t).foldl (fun s w ↦ w s) s = t := by
  simp only [assignments, List.foldl_cons, List.foldl_nil, replace, zipWith_assigned hwheel, hclock]

/-- **A restore** that returns has published what it read; one that raises has published nothing. -/
theorem wp_restoreBytes (c : Config) (F : Floats) (limit : ℕ) (wallTime : Option ℚ)
    (stop : Option (ℕ × Raised)) (state : Bytes) (s : State Bytes) :
    Program.wp (c.restoreBytes F limit wallTime stop (some state))
      (fun _ t ↦ ∃ saved u, readSnapshot F limit wallTime state = some saved ∧
        c.recovered s.clock (wallTime.getD 0) saved = some u ∧ t = (assignments u).foldl (fun s w ↦ w s) s)
      (fun _ t ↦ t = s ∧ (stop = none → (readSnapshot F limit wallTime state).bind
        (fun saved ↦ c.recovered s.clock (wallTime.getD 0) saved) = none)) s := by
  rw [Config.restoreBytes, Program.wp_bind, Program.wp_state]
  rcases hread : (readSnapshot F limit wallTime state).bind
      fun saved ↦ c.recovered s.clock (wallTime.getD 0) saved with - | u
  · exact ⟨rfl, fun _ ↦ rfl⟩
  · obtain ⟨saved, hsaved, hu⟩ := Option.bind_eq_some_iff.mp hread
    refine (Program.wp_publish (putBack_assignments u) stop s).mono ?_ ?_
    · rintro _ t rfl
      exact ⟨saved, u, hsaved, hu, rfl⟩
    · rintro _ t ⟨hstop, rfl⟩
      refine ⟨rfl, fun hnone ↦ ?_⟩
      rw [hnone] at hstop
      exact absurd hstop Bool.false_ne_true

end Publish

/-! ## Round trip -/

section RoundTrip

variable {c c' : Config} {s t : State Bytes}

/-- When all boundaries have passed, a drain hands over everything, in order. -/
theorem Consistent.due_eq_sorted (hc : Consistent c s) (hpast : ∀ b, Boundary c s b → b ≤ s.clock) :
    c.due s = Heapq.sorted Held.key (held s) := by
  refine (Heapq.sorted_eq hc.due.order ?_).symm
  have hnodup : (c.due s).Nodup := hc.due.order.imp fun h heq ↦ (heq ▸ h).ne rfl
  refine (List.perm_ext_iff_of_nodup hnodup hc.nodup_held).mpr fun h ↦ ⟨fun hh ↦ (hc.due.held h hh).1, fun hh ↦ ?_⟩
  rcases List.mem_append.mp hh with hwheel | hover
  · obtain ⟨r, hr, hmem⟩ := List.mem_flatMap.mp hwheel
    refine hc.due.wheel r hr h hmem ?_
    rw [← c.tickAt_wheelReleaseAt]
    exact Config.tickAt_mono (hpast _ (.inl ⟨r, hr, h, hmem, rfl⟩))
  · exact hc.due.overflow h hover (hpast _ (.inr ⟨h, hover, rfl⟩))

/-- What a restore makes of the snapshot of `s`, after the downtime. -/
structure Restored (c c' : Config) (s t : State Bytes) (downtime : ℚ) : Prop where
  /-- The same items, with their priorities. -/
  items : ((held t).map fun h ↦ (h.item, h.priority)).Perm ((held s).map fun h ↦ (h.item, h.priority))
  /-- In the order of release, with the delays: what is overdue has none. -/
  order : (Heapq.sorted Held.key (held t)).map (fun h ↦ (h.item, h.priority, h.readyAt - t.clock)) =
    (Heapq.sorted Held.key (held s)).map fun h ↦ (h.item, h.priority, max 0 (h.readyAt - s.clock - downtime))
  /-- Drains at times at which everything is due. -/
  drained : ∀ now now' u u', s.read now = some u → (∀ b, Boundary c u b → b ≤ now) →
    t.read now' = some u' → (∀ b, Boundary c' u' b → b ≤ now') →
      (c'.due u').map (fun h ↦ (h.item, h.priority)) = (c.due u).map fun h ↦ (h.item, h.priority)

theorem Restored.of_order {downtime : ℚ} (hc : Consistent c s) (hc' : Consistent c' t)
    (horder : (Heapq.sorted Held.key (held t)).map (fun h ↦ (h.item, h.priority, h.readyAt - t.clock)) =
      (Heapq.sorted Held.key (held s)).map fun h ↦ (h.item, h.priority, max 0 (h.readyAt - s.clock - downtime))) :
    Restored c c' s t downtime := by
  have hitems : (Heapq.sorted Held.key (held t)).map (fun h ↦ (h.item, h.priority)) =
      (Heapq.sorted Held.key (held s)).map fun h ↦ (h.item, h.priority) := by
    have hfst := congrArg (List.map fun e : Bytes × ℚ × ℚ ↦ (e.1, e.2.1)) horder
    simpa only [List.map_map, Function.comp_def] using hfst
  refine ⟨?_, horder, ?_⟩
  · refine (((Heapq.sorted_perm Held.key _).map _).symm.trans ?_).trans ((Heapq.sorted_perm Held.key _).map _)
    rw [hitems]
  · intro now now' u u' hu hpast hu' hpast'
    obtain ⟨hcu, rfl⟩ := hc.read hu
    obtain ⟨hcu', rfl⟩ := hc'.read hu'
    rw [hcu.due_eq_sorted hpast, hcu'.due_eq_sorted hpast']
    exact hitems

/-- Two entries of one deadline, one of them in the heap. -/
def equalDeadlines : List (Call Bytes) :=
  [.push 0 [byte 7] 0 1 none, .push 0 [byte 8] 1 6 none, .push 2 [byte 9] 0 4 none]

theorem isSome_equalDeadlines :
    ((machine fourSlots 0).run (machine fourSlots 0).init equalDeadlines).isSome = true := by decide +kernel

/-- The state after it. -/
def pushed : State Bytes := Option.get _ isSome_equalDeadlines

/-- A time at which the first entry is overdue. -/
def overdue : State Bytes := { pushed with clock := 3 }

/-- Another wheel. -/
def twoSlots : Config := ⟨2, Nat.zero_lt_two, 1, fourSlots.ticks_pos, 0, fourSlots.delay_nonneg⟩

end RoundTrip

end TimeWheel

end ScrapyExtension
