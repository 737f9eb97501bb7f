import ScrapyExtension.Machine.Basic
import ScrapyExtension.Queue.SnapshotRepository

/-!
# The checkpoints of a queue

A queue restores the state of its strategy when it is built (`_restore_snapshot`) and commits it when
it is closed (`_persist_snapshot`). Three keys of the storage take part: the current one, whose manifest
is authoritative; the one of the layout before, which is only read while the current key is empty; and a
tombstone, which says that the old value was migrated to an empty state.

## Authority

Startup may fail to read what is stored. It then fences the close, or, for an old value, defers its
retirement. The question is which stored value a close may replace or delete: `Startup.permitsCurrent`
and `Startup.permitsLegacy` answer it by how the startup of that lifecycle ended.

Every storage call of a startup and of a close fails as the script of that call says.
-/

namespace ScrapyExtension

open Py Json

namespace Snapshot

open Faulty (Result Storage Outcome)

/-! ## Keys -/

/-- What identifies a queue. -/
structure Identity where
  /-- `_snapshot_owner` -/
  owner : Option Str
  /-- The name of the spider, or nothing. -/
  spider : Str
  /-- `queue_name` -/
  queue : Str

namespace Identity

/-- `_SNAPSHOT_KEY_PREFIX` -/
def keyPrefix : Str := Py.str "queue:snapshot:"

/-- `_SNAPSHOT_TOMBSTONE_KEY_PREFIX` -/
def tombstonePrefix : Str := Py.str "queue:snapshot-tombstone:"

/-- A length, a colon, and the text. -/
def sized (s : Str) : Str := decimal s.length ++ Py.str ":" ++ s

/-- The key after its prefix. -/
def logical (q : Identity) : Str :=
  match q.owner with
  | some owner => Py.str "v2:" ++ sized owner ++ Py.str ":" ++ sized q.spider ++ Py.str ":" ++ q.queue
  | none => Py.str "v3:" ++ sized q.spider ++ Py.str ":" ++ sized q.queue

/-- `_snapshot_key` -/
def snapshotKey (q : Identity) : Str := keyPrefix ++ q.logical

/-- `_legacy_snapshot_key` -/
def legacyKey (q : Identity) : Option Str :=
  if q.owner.isSome ∨ q.spider ≠ [] ∨ chr ':' ∈ q.queue then none else some (keyPrefix ++ q.queue)

/-- `_empty_snapshot_tombstone_key` -/
def tombstoneKey (q : Identity) : Str := tombstonePrefix ++ q.logical

end Identity

/-- `_EMPTY_SNAPSHOT_TOMBSTONE_MARKER` -/
def tombstoneMarker : Bytes := ascii "1"

/-! ## Startup -/

/-- How `_snapshot_storage` comes out. -/
inductive Resolution
  /-- There is a storage. -/
  | available
  /-- There is none by design. -/
  | incapable
  /-- The resolution failed. -/
  | failed
  /-- It was interrupted. -/
  | interrupted
deriving DecidableEq

/-- Where a snapshot was found. -/
inductive Source
  | current
  | legacy
deriving DecidableEq

/-- How a startup ended. -/
inductive Startup
  /-- There is no storage. -/
  | incapable
  /-- The storage could not be resolved. -/
  | unresolved
  /-- The current snapshot could not be read. -/
  | unreadable
  /-- The current value is no snapshot. -/
  | unusable
  /-- A tombstone hides the old value. -/
  | hidden
  /-- The old value could not be read. -/
  | legacyUnread
  /-- There was nothing to be read. -/
  | absent
  /-- The snapshot has no state. -/
  | empty (source : Source)
  /-- The strategy has the state. -/
  | restored (source : Source) (state : Bytes)
  /-- The strategy has refused the state. -/
  | refused (source : Source)
deriving DecidableEq

/-- The flags of a queue that its close consults. -/
structure Flags where
  /-- `_snapshot_persistence_fenced` -/
  fenced : Bool
  /-- `_defer_legacy_retirement` -/
  defersRetirement : Bool
  /-- `_legacy_snapshot_retirement_pending` -/
  retirementPending : Bool
deriving DecidableEq

variable (P : Platform) (L : Limits) (q : Identity)

/-- The end of `_restore_snapshot`, with what was read; `restore` is how `strategy.restore` comes
out. -/
def applySnapshot (source : Source) (r : SnapshotRead) (restore : Result Unit) :
    Result (Flags × Startup) :=
  let pending := r.found && source = .legacy
  match r.state with
  | none =>
    .returned (⟨false, false, pending⟩, if r.found then .empty source else .absent)
  | some state =>
    if ¬ r.manifest ∧ state = [] then .returned (⟨false, false, pending⟩, .empty source)
    else
      match restore with
      | .returned _ => .returned (⟨false, false, pending⟩, .restored source state)
      | .raised => .returned (⟨true, false, pending⟩, .refused source)
      | .interrupted => .interrupted

/-- The fallback to the old value. -/
def restoreLegacy (key : Str) (restore : Result Unit) (s : Store) : Result (Flags × Startup) × Store :=
  match read P L key s with
  | (.returned (.error _), s) => (.returned (⟨false, true, false⟩, .legacyUnread), s)
  | (.returned (.ok r), s) => (applySnapshot .legacy r restore, s)
  | (.raised, s) => (.raised, s)
  | (.interrupted, s) => (.interrupted, s)

/-- `_restore_snapshot` -/
def restoreSnapshot (resolution : Resolution) (restore : Result Unit) (s : Store) :
    Result (Flags × Startup) × Store :=
  match resolution with
  | .failed => (.returned (⟨true, false, false⟩, .unresolved), s)
  | .incapable => (.returned (⟨false, false, false⟩, .incapable), s)
  | .interrupted => (.interrupted, s)
  | .available =>
    match read P L q.snapshotKey s with
    | (.returned (.error e), s) =>
      if e = manifestBufferMessage .invalid then (.returned (⟨false, false, false⟩, .unusable), s)
      else (.returned (⟨true, false, false⟩, .unreadable), s)
    | (.returned (.ok r), s) =>
      if r.found then (applySnapshot .current r restore, s)
      else
        match q.legacyKey with
        | none => (.returned (⟨false, false, false⟩, .absent), s)
        | some key =>
          match s.retrieve q.tombstoneKey with
          | (.returned (some _), s) => (.returned (⟨false, false, false⟩, .hidden), s)
          | (.returned none, s) => restoreLegacy P L key restore s
          -- The failure errs on the side of a replay.
          | (.raised, s) => restoreLegacy P L key restore s
          | (.interrupted, s) => (.interrupted, s)
    | (.raised, s) => (.raised, s)
    | (.interrupted, s) => (.interrupted, s)

/-! ## Close -/

/-- The retirement of the old value, after a commit. -/
def retireLegacy (s : Store) : Result (Except String Unit) × Store :=
  match q.legacyKey with
  | none => (.returned (.ok ()), s)
  | some key =>
    match s.delete key with
    | (.interrupted, s) => (.interrupted, s)
    | (.raised, s) => (.returned (.ok ()), s)
    | (.returned _, s) =>
      match s.delete q.tombstoneKey with
      | (.interrupted, s) => (.interrupted, s)
      | (_, s) => (.returned (.ok ()), s)

/-- The commit, and what comes after it. -/
def commitSnapshot (flags : Flags) (state : Option Stored) (generation : Generation) (s : Store) :
    Result (Except String Unit) × Flags × Store :=
  match commit P L q.snapshotKey generation state s with
  | (.returned (.error _), s) => (.returned (.error "Strategy snapshot commit failed."), flags, s)
  | (.returned (.ok _), s) => ((retireLegacy q s).1, { flags with defersRetirement := false },
      (retireLegacy q s).2)
  | (.raised, s) => (.raised, flags, s)
  | (.interrupted, s) => (.interrupted, flags, s)

/-- `_persist_snapshot` with the storage at hand. -/
def persistState (flags : Flags) (state : Option Stored) (generation : Generation) (s : Store) :
    Result (Except String Unit) × Flags × Store :=
  if flags.defersRetirement ∧ state = none then
    match s.delete q.tombstoneKey with
    | (.returned _, s) => (.returned (.ok ()), { flags with defersRetirement := false }, s)
    | (.raised, s) =>
      (.returned (.error "Unread legacy strategy snapshot cannot be preserved."), flags, s)
    | (.interrupted, s) => (.interrupted, flags, s)
  else if state = none ∧ flags.retirementPending then
    match store q.tombstoneKey tombstoneMarker s with
    | (.returned true, s) => commitSnapshot P L q flags state generation s
    | (.returned false, s) => (.returned (.error "Strategy snapshot commit failed."), flags, s)
    | (.raised, s) => (.raised, flags, s)
    | (.interrupted, s) => (.interrupted, flags, s)
  else commitSnapshot P L q flags state generation s

/-- `_persist_snapshot`; `snapshot` is how `strategy.snapshot` comes out. -/
def persistSnapshot (flags : Flags) (snapshot : Result (Option Stored)) (resolution : Resolution)
    (generation : Generation) (s : Store) : Result (Except String Unit) × Flags × Store :=
  if flags.fenced then
    (.returned (.error ("Strategy snapshot persistence is fenced; call reset_snapshot() " ++
      "after verifying the replacement state.")), flags, s)
  else
    match snapshot with
    | .raised => (.returned (.error "Strategy snapshot creation failed."), flags, s)
    | .interrupted => (.interrupted, flags, s)
    | .returned state =>
      match resolution with
      | .interrupted => (.interrupted, flags, s)
      | .failed => (.returned (.error "Strategy snapshot storage is unavailable."), flags, s)
      | .incapable =>
        (.returned (if state = none ∧ ¬ flags.defersRetirement then .ok ()
          else if state ≠ none then .error "Nonempty strategy state requires snapshot storage."
          else .error "Strategy snapshot storage is unavailable."), flags, s)
      | .available => persistState P L q flags state generation s

/-! ## Lifecycles -/

/-- A queue that is in use. -/
structure Live where
  flags : Flags
  /-- `_checkpoint_complete` -/
  checkpointComplete : Bool
  /-- What was stored when it started. -/
  before : Str → Option Stored
  startup : Startup
  /-- `reset_snapshot` was called. -/
  reset : Bool
  /-- An ordinary close has taken a state that is not `None`. -/
  replaced : Bool

/-- The storage, and the queue that uses it. -/
structure World where
  contents : Str → Option Stored
  /-- The state of the last ordinary close that returned, if no close after it got past the fence. -/
  captured : Option Bytes
  live : Option Live

/-- What can happen. -/
inductive Label
  /-- A queue is built. What was in use before is gone, closed or not. -/
  | start (resolution : Resolution) (restore : Result Unit) (script : List Outcome)
  /-- The checkpoint of an ordinary `close`. -/
  | close (snapshot : Result (Option Stored)) (resolution : Resolution) (generation : Generation)
    (script : List Outcome)
  /-- A lossy `close` goes past the checkpoint. -/
  | lossy
  /-- `reset_snapshot` -/
  | reset

namespace World

/-- `BackendQueue.__init__`, as far as the checkpoint goes -/
def start (w : World) (resolution : Resolution) (restore : Result Unit) (script : List Outcome) :
    World :=
  match restoreSnapshot P L q resolution restore ⟨w.contents, script⟩ with
  | (.returned (flags, startup), s) =>
    ⟨s.contents, w.captured, some ⟨flags, false, w.contents, startup, false, false⟩⟩
  | (.raised, s) => ⟨s.contents, w.captured, none⟩
  | (.interrupted, s) => ⟨s.contents, w.captured, none⟩

/-- The bytes of a state. -/
def bytesOf : Result (Option Stored) → Option Bytes
  | .returned (some (.bytes b)) => some b
  | _ => none

/-- The strategy has a state. -/
def nonempty : Result (Option Stored) → Bool
  | .returned (some _) => true
  | _ => false

/-- The checkpoint of an ordinary close. A complete one is not repeated. -/
def close (w : World) (l : Live) (snapshot : Result (Option Stored)) (resolution : Resolution)
    (generation : Generation) (script : List Outcome) : World :=
  if l.checkpointComplete then w
  else
    let (result, flags, s) :=
      persistSnapshot P L q l.flags snapshot resolution generation ⟨w.contents, script⟩
    let l' := { l with flags, replaced := l.replaced || nonempty snapshot }
    match result with
    | .returned (.ok _) =>
      ⟨s.contents, bytesOf snapshot, some { l' with checkpointComplete := true }⟩
    | _ => ⟨s.contents, if l.flags.fenced then w.captured else none, some l'⟩

/-- One step. -/
def step (w : World) : Label → Option World
  | .start resolution restore script => some (w.start P L q resolution restore script)
  | .close snapshot resolution generation script =>
    w.live.map fun l ↦ w.close P L q l snapshot resolution generation script
  | .lossy => w.live.map fun l ↦ { w with live := some { l with checkpointComplete := true } }
  | .reset => w.live.map fun l ↦
      { w with live := some { l with flags := { l.flags with fenced := false }, reset := true } }

end World

/-- A queue over a storage, lifecycle after lifecycle. -/
def checkpoints (contents : Str → Option Stored) : Machine World Label where
  init := ⟨contents, none, none⟩
  step := World.step P L q

/-! ## Distinct keys -/

namespace Identity

variable {q : Identity}

theorem tombstoneKey_ne_append (q : Identity) (x : Str) : q.tombstoneKey ≠ keyPrefix ++ x :=
  append_ne_append 15 (by decide) (by decide) (by decide) _ _

theorem tombstoneKey_ne_snapshotKey (q : Identity) : q.tombstoneKey ≠ q.snapshotKey :=
  q.tombstoneKey_ne_append _

theorem tombstoneKey_ne_chunkKey (q : Identity) (sha : Sha256) (key generation : Str) (i : ℕ) :
    q.tombstoneKey ≠ chunkKey sha key generation i := by
  rw [chunkKey, tombstoneKey]
  exact append_ne_append 16 (by decide) (by decide) (by decide) _ _

theorem legacyKey_eq {key : Str} (h : q.legacyKey = some key) :
    q.owner = none ∧ key = keyPrefix ++ q.queue ∧ chr ':' ∉ q.queue := by
  rw [legacyKey] at h
  obtain ⟨hnot, heq⟩ := Option.ite_none_left_eq_some.1 h
  push Not at hnot
  refine ⟨by simpa using hnot.1, (Option.some.inj heq).symm, hnot.2.2⟩

theorem legacyKey_ne_tombstoneKey {key : Str} (h : q.legacyKey = some key) : key ≠ q.tombstoneKey := by
  rw [(legacyKey_eq h).2.1]
  exact (q.tombstoneKey_ne_append _).symm

theorem legacyKey_ne_chunkKey {key : Str} (h : q.legacyKey = some key) (sha : Sha256)
    (key' generation : Str) (i : ℕ) : key ≠ chunkKey sha key' generation i := by
  rw [(legacyKey_eq h).2.1, chunkKey]
  exact append_ne_append 15 (by decide) (by decide) (by decide) _ _

/-- The current key has a colon after the prefix. -/
theorem legacyKey_ne_snapshotKey {key : Str} (h : q.legacyKey = some key) : key ≠ q.snapshotKey := by
  obtain ⟨howner, rfl, hcolon⟩ := legacyKey_eq h
  intro heq
  have hqueue : q.queue = q.logical := List.append_cancel_left heq
  refine hcolon ?_
  rw [hqueue, logical, howner]
  exact List.mem_append_left _ (List.mem_append_left _ (List.mem_append_left _ (by decide)))

end Identity

/-! ## What a close may touch -/

/-- The part of the storage that a close may change: with `writes` the two values, with `marks` the
tombstone, and always the chunks of its own generation. It may remove a tombstone. -/
structure Touches (generation : Generation) (writes marks : Prop)
    (before after : Str → Option Stored) : Prop where
  current : after q.snapshotKey = before q.snapshotKey ∨ writes
  legacy : ∀ key, q.legacyKey = some key → after key = before key ∨ writes
  tombstone : after q.tombstoneKey = before q.tombstoneKey ∨ after q.tombstoneKey = none ∨ marks
  other : ∀ k, k ≠ q.snapshotKey → k ≠ q.tombstoneKey → q.legacyKey ≠ some k →
    (∀ i, k ≠ chunkKey P.sha256 q.snapshotKey generation.text i) → after k = before k

variable {P L q} {generation : Generation} {writes marks : Prop}
  {a b c : Str → Option Stored}

namespace Touches

protected theorem refl : Touches P q generation writes marks a a where
  current := .inl rfl
  legacy _ _ := .inl rfl
  tombstone := .inl rfl
  other _ _ _ _ _ := rfl

protected theorem trans (hab : Touches P q generation writes marks a b)
    (hbc : Touches P q generation writes marks b c) : Touches P q generation writes marks a c where
  current := by
    rcases hbc.current with h | h
    · rw [h]
      exact hab.current
    · exact .inr h
  legacy key hkey := by
    rcases hbc.legacy key hkey with h | h
    · rw [h]
      exact hab.legacy key hkey
    · exact .inr h
  tombstone := by
    rcases hbc.tombstone with h | h
    · rw [h]
      exact hab.tombstone
    · exact .inr h
  other k h₁ h₂ h₃ h₄ := (hbc.other k h₁ h₂ h₃ h₄).trans (hab.other k h₁ h₂ h₃ h₄)

/-- Removing the tombstone is always within bounds. -/
theorem delete_tombstone (s : Store) :
    Touches P q generation writes marks s.contents (s.delete q.tombstoneKey).2.contents where
  current := .inl (Storage.delete_contents_of_ne q.tombstoneKey_ne_snapshotKey.symm s)
  legacy _ hkey := .inl (Storage.delete_contents_of_ne (Identity.legacyKey_ne_tombstoneKey hkey) s)
  tombstone := by
    rcases Storage.delete_contents_self q.tombstoneKey s with h | h
    · exact .inl h
    · exact .inr (.inl h)
  other _ _ hk _ _ := Storage.delete_contents_of_ne hk s

/-- A commit leaves the tombstone, and whatever is not of its generation. -/
theorem commit (hwrites : writes) (state : Option Stored) (s : Store) :
    Touches P q generation writes marks s.contents
      (Snapshot.commit P L q.snapshotKey generation state s).2.contents where
  current := .inr hwrites
  legacy _ _ := .inr hwrites
  tombstone := .inl <|
    commit_contents_of_ne q.tombstoneKey_ne_snapshotKey (q.tombstoneKey_ne_chunkKey _ _ _) state s
  other _ hk _ _ hchunk := commit_contents_of_ne hk hchunk state s

theorem store_tombstone (hmarks : marks) (value : Bytes) (s : Store) :
    Touches P q generation writes marks s.contents (store q.tombstoneKey value s).2.contents where
  current := .inl (store_contents_of_ne q.tombstoneKey_ne_snapshotKey.symm value s)
  legacy _ hkey := .inl (store_contents_of_ne (Identity.legacyKey_ne_tombstoneKey hkey) value s)
  tombstone := .inr (.inr hmarks)
  other _ _ hk _ _ := store_contents_of_ne hk value s

end Touches

/-! ## The close, as a whole -/

theorem retireLegacy_contents_of_ne {k : Str} (hT : k ≠ q.tombstoneKey) (hL : q.legacyKey ≠ some k)
    (s : Store) : (retireLegacy q s).2.contents k = s.contents k := by
  rw [retireLegacy]
  split
  · rfl
  · next key hkey =>
    have hne : k ≠ key := by
      rintro rfl
      exact hL hkey
    have hdelete := Storage.delete_contents_of_ne hne s
    split
    · next t ht =>
      rw [ht] at hdelete
      exact hdelete
    · next t ht =>
      rw [ht] at hdelete
      exact hdelete
    · next _ t ht =>
      rw [ht] at hdelete
      have htomb := Storage.delete_contents_of_ne hT t
      split
      · next u hu =>
        rw [hu] at htomb
        exact htomb.trans hdelete
      · next u _ hu =>
        rw [hu] at htomb
        exact htomb.trans hdelete

theorem Touches.retireLegacy (hwrites : writes) (s : Store) :
    Touches P q generation writes marks s.contents (Snapshot.retireLegacy q s).2.contents where
  current := .inr hwrites
  legacy _ _ := .inr hwrites
  tombstone := by
    rw [Snapshot.retireLegacy]
    split
    · exact .inl rfl
    · next key hkey =>
      have hdelete := Storage.delete_contents_of_ne (Identity.legacyKey_ne_tombstoneKey hkey).symm s
      split
      · next t ht =>
        rw [ht] at hdelete
        exact .inl hdelete
      · next t ht =>
        rw [ht] at hdelete
        exact .inl hdelete
      · next _ t ht =>
        rw [ht] at hdelete
        have htomb := Storage.delete_contents_self q.tombstoneKey t
        rw [hdelete] at htomb
        split
        · next u hu =>
          rw [hu] at htomb
          exact htomb.imp id .inl
        · next u _ hu =>
          rw [hu] at htomb
          exact htomb.imp id .inl
  other _ _ hT hL _ := retireLegacy_contents_of_ne hT hL s

theorem Touches.commitSnapshot (hwrites : writes) (flags : Flags) (state : Option Stored) (s : Store) :
    Touches P q generation writes marks s.contents
      (Snapshot.commitSnapshot P L q flags state generation s).2.2.contents := by
  have hcommit : Touches P q generation writes marks s.contents
      (Snapshot.commit P L q.snapshotKey generation state s).2.contents :=
    Touches.commit hwrites state s
  rw [Snapshot.commitSnapshot]
  split
  · next t ht =>
    rw [ht] at hcommit
    exact hcommit
  · next t ht =>
    rw [ht] at hcommit
    exact hcommit.trans (Touches.retireLegacy hwrites t)
  · next t ht =>
    rw [ht] at hcommit
    exact hcommit
  · next t ht =>
    rw [ht] at hcommit
    exact hcommit

/-- A close writes if it is not fenced and has something to put in the place of an unread value. -/
def Flags.mayWrite (flags : Flags) (snapshot : Result (Option Stored)) : Prop :=
  flags.fenced = false ∧ (flags.defersRetirement = true → World.nonempty snapshot = true)

/-- It leaves a tombstone only for an old value that it has read. -/
def Flags.mayMark (flags : Flags) (snapshot : Result (Option Stored)) : Prop :=
  flags.mayWrite snapshot ∧ flags.retirementPending = true

theorem Touches.persistState (flags : Flags) (hfenced : flags.fenced = false) (state : Option Stored)
    (s : Store) :
    Touches P q generation (flags.mayWrite (.returned state)) (flags.mayMark (.returned state)) s.contents
      (Snapshot.persistState P L q flags state generation s).2.2.contents := by
  rw [Snapshot.persistState]
  by_cases hdefers : flags.defersRetirement ∧ state = none
  · rw [if_pos hdefers]
    have hdelete : Touches P q generation (flags.mayWrite (.returned state))
        (flags.mayMark (.returned state)) s.contents (s.delete q.tombstoneKey).2.contents :=
      Touches.delete_tombstone s
    split <;> rename_i t ht <;> rw [ht] at hdelete <;> exact hdelete
  rw [if_neg hdefers]
  have hwrites : flags.mayWrite (.returned state) := by
    refine ⟨hfenced, fun hd ↦ ?_⟩
    cases state with
    | none => exact absurd ⟨hd, rfl⟩ hdefers
    | some value => rfl
  by_cases hmark : state = none ∧ flags.retirementPending
  · rw [if_pos hmark]
    have hstore : Touches P q generation (flags.mayWrite (.returned state))
        (flags.mayMark (.returned state)) s.contents
          (store q.tombstoneKey tombstoneMarker s).2.contents :=
      Touches.store_tombstone ⟨hwrites, hmark.2⟩ _ s
    split
    · next t ht =>
      rw [ht] at hstore
      exact hstore.trans (Touches.commitSnapshot hwrites flags state t)
    all_goals
      rename_i t ht
      rw [ht] at hstore
      exact hstore
  · rw [if_neg hmark]
    exact Touches.commitSnapshot hwrites flags state s

/-- **What a close may touch**, however its calls come out. -/
theorem Touches.persistSnapshot (flags : Flags) (snapshot : Result (Option Stored))
    (resolution : Resolution) (s : Store) :
    Touches P q generation (flags.mayWrite snapshot) (flags.mayMark snapshot) s.contents
      (Snapshot.persistSnapshot P L q flags snapshot resolution generation s).2.2.contents := by
  unfold Snapshot.persistSnapshot
  split_ifs with hfenced
  · exact Touches.refl
  split
  · exact Touches.refl
  · exact Touches.refl
  · next state =>
    cases resolution with
    | interrupted => exact Touches.refl
    | failed => exact Touches.refl
    | incapable => exact Touches.refl
    | available => exact Touches.persistState flags (by simpa using hfenced) state s

/-- The flags after a close: an unread value is given up only for a replacement, or by a close that
returns and leaves it where it is. -/
structure Flags.Next (snapshot : Result (Option Stored)) (result : Result (Except String Unit))
    (flags after : Flags) : Prop where
  fenced : after.fenced = flags.fenced
  retirementPending : after.retirementPending = flags.retirementPending
  defersRetirement : flags.defersRetirement = true → after.defersRetirement = true ∨
    World.nonempty snapshot = true ∨ result = .returned (.ok ())

theorem Flags.Next.refl (snapshot : Result (Option Stored)) (result : Result (Except String Unit))
    (flags : Flags) : flags.Next snapshot result flags := ⟨rfl, rfl, .inl⟩

theorem commitSnapshot_flags {flags : Flags} {state : Option Stored}
    (hstate : flags.defersRetirement = true → state ≠ none) (s : Store) :
    flags.Next (.returned state) (commitSnapshot P L q flags state generation s).1
      (commitSnapshot P L q flags state generation s).2.1 := by
  rw [commitSnapshot]
  split
  · exact Flags.Next.refl _ _ _
  · refine ⟨rfl, rfl, fun hdefers ↦ .inr (.inl ?_)⟩
    obtain ⟨value, rfl⟩ := Option.ne_none_iff_exists'.1 (hstate hdefers)
    rfl
  · exact Flags.Next.refl _ _ _
  · exact Flags.Next.refl _ _ _

theorem persistSnapshot_flags (flags : Flags) (snapshot : Result (Option Stored))
    (resolution : Resolution) (s : Store) :
    flags.Next snapshot (persistSnapshot P L q flags snapshot resolution generation s).1
      (persistSnapshot P L q flags snapshot resolution generation s).2.1 := by
  unfold persistSnapshot
  split_ifs with hfenced
  · exact Flags.Next.refl _ _ _
  split
  · exact Flags.Next.refl _ _ _
  · exact Flags.Next.refl _ _ _
  · next state =>
    cases resolution with
    | interrupted => exact Flags.Next.refl _ _ _
    | failed => exact Flags.Next.refl _ _ _
    | incapable => exact Flags.Next.refl _ _ _
    | available =>
      dsimp only
      rw [persistState]
      by_cases hdefers : flags.defersRetirement ∧ state = none
      · rw [if_pos hdefers]
        split
        · exact ⟨rfl, rfl, fun _ ↦ .inr (.inr rfl)⟩
        · exact Flags.Next.refl _ _ _
        · exact Flags.Next.refl _ _ _
      rw [if_neg hdefers]
      have hstate : flags.defersRetirement = true → state ≠ none := fun hd hnone ↦
        hdefers ⟨hd, hnone⟩
      split_ifs with hmark
      · split
        · exact commitSnapshot_flags hstate _
        · exact Flags.Next.refl _ _ _
        · exact Flags.Next.refl _ _ _
        · exact Flags.Next.refl _ _ _
      · exact commitSnapshot_flags hstate s

/-- A close that returns has committed the state it took. -/
theorem readHealthy_of_persistSnapshot {flags : Flags} {snapshot : Result (Option Stored)}
    {resolution : Resolution} {s : Store} {state : Bytes}
    (hok : (persistSnapshot P L q flags snapshot resolution generation s).1 = .returned (.ok ()))
    (hstate : World.bytesOf snapshot = some state) :
    readHealthy P L q.snapshotKey
        (persistSnapshot P L q flags snapshot resolution generation s).2.2 =
      .returned (.ok ⟨true, some state, true, some generation.text⟩) := by
  obtain rfl : snapshot = .returned (some (.bytes state)) := by
    unfold World.bytesOf at hstate
    split at hstate
    · rw [Option.some.inj hstate]
    · cases hstate
  unfold persistSnapshot at hok ⊢
  split_ifs at hok ⊢ with hfenced
  · simp at hok
  cases resolution with
  | interrupted => simp at hok
  | failed => simp at hok
  | incapable => simp at hok
  | available =>
    dsimp only at hok ⊢
    have hpersist : persistState P L q flags (some (.bytes state)) generation s =
        commitSnapshot P L q flags (some (.bytes state)) generation s := by
      rw [persistState, if_neg (fun h ↦ by cases h.2), if_neg (fun h ↦ by cases h.1)]
    rw [hpersist] at hok ⊢
    rw [commitSnapshot] at hok ⊢
    split at hok
    · simp at hok
    · next t ht =>
      -- the retirement leaves the manifest and its chunks where they are
      refine readHealthy_of_commit (s := s) (by rw [ht]) ?_ fun i ↦ ?_
      · rw [ht]
        exact retireLegacy_contents_of_ne q.tombstoneKey_ne_snapshotKey.symm
          (fun h ↦ Identity.legacyKey_ne_snapshotKey h rfl) t
      · rw [ht]
        exact retireLegacy_contents_of_ne (q.tombstoneKey_ne_chunkKey _ _ _ i).symm
          (fun h ↦ Identity.legacyKey_ne_chunkKey h _ _ _ i rfl) t
    · simp at hok
    · simp at hok

/-! ## What a startup knows -/

variable (q) in
/-- The key of a source. -/
def Source.key : Source → Option Str
  | .current => some q.snapshotKey
  | .legacy => q.legacyKey

/-- The flags that a startup leaves. -/
def Startup.flags : Startup → Flags
  | .unresolved | .unreadable | .refused .current => ⟨true, false, false⟩
  | .refused .legacy => ⟨true, false, true⟩
  | .legacyUnread => ⟨false, true, false⟩
  | .empty .legacy | .restored .legacy _ => ⟨false, false, true⟩
  | _ => ⟨false, false, false⟩

variable (P L q) in
/-- What the end of a startup says about the storage: a state that was restored is the one that is
stored, and an old value is only consulted if there is no current one. -/
def Startup.Sees (contents : Str → Option Stored) : Startup → Prop
  | .incapable | .unresolved | .unreadable | .refused _ => True
  | .unusable => contents q.snapshotKey = some .object
  | .hidden | .legacyUnread => contents q.snapshotKey = none
  | .absent => contents q.snapshotKey = none ∧ ∀ key, q.legacyKey = some key → contents key = none
  | .empty source => (source = .legacy → contents q.snapshotKey = none) ∧
      ∃ key manifest generation, source.key q = some key ∧
        (readHealthy P L key ⟨contents, []⟩ = .returned (.ok ⟨true, none, manifest, generation⟩) ∨
          readHealthy P L key ⟨contents, []⟩ = .returned (.ok ⟨true, some [], false, generation⟩))
  | .restored source state => (source = .legacy → contents q.snapshotKey = none) ∧
      ∃ key manifest generation, source.key q = some key ∧
        readHealthy P L key ⟨contents, []⟩ =
          .returned (.ok ⟨true, some state, manifest, generation⟩)

/-- A startup that went well has the flags of its outcome, and what it says is so. -/
def Informed (P : Platform) (L : Limits) (q : Identity) (contents : Str → Option Stored)
    (result : Result (Flags × Startup)) : Prop :=
  ∀ flags startup, result = .returned (flags, startup) →
    flags = startup.flags ∧ startup.Sees P L q contents

theorem informed_of_eq {contents : Str → Option Stored} {t : Startup} (h : t.Sees P L q contents) :
    Informed P L q contents (.returned (t.flags, t)) := by
  rintro _ _ ⟨⟩
  exact ⟨rfl, h⟩

theorem informed_applySnapshot {source : Source} {r : SnapshotRead} {restore : Result Unit} {s : Store}
    {key : Str} (hread : readHealthy P L key s = .returned (.ok r)) (hkey : source.key q = some key)
    (hlegacy : source = .legacy → s.contents q.snapshotKey = none)
    (hfound : source = .current → r.found = true) :
    Informed P L q s.contents (applySnapshot source r restore) := by
  obtain ⟨found, state, manifest, generation⟩ := r
  rw [applySnapshot]
  cases state with
  | none =>
    cases found with
    | true =>
      have hsees : (Startup.empty source).Sees P L q s.contents :=
        ⟨hlegacy, key, manifest, generation, hkey, .inl hread⟩
      cases source with
      | current => exact informed_of_eq hsees
      | legacy => exact informed_of_eq hsees
    | false =>
      -- only the old value is read without knowing that it is there
      cases source with
      | current => exact absurd (hfound rfl) (by simp)
      | legacy =>
        refine informed_of_eq (t := .absent) ⟨hlegacy rfl, fun key' hkey' ↦ ?_⟩
        obtain rfl : key' = key := Option.some.inj (hkey'.symm.trans hkey)
        exact contents_of_not_found hread rfl
  | some state =>
    have hfound : found = true := by
      cases hf : found with
      | true => rfl
      | false => exact absurd (state_of_not_found hread hf) (by simp)
    subst hfound
    dsimp only
    split_ifs with hraw
    · obtain ⟨hmanifest, rfl⟩ := hraw
      obtain rfl : manifest = false := by simpa using hmanifest
      have hsees : (Startup.empty source).Sees P L q s.contents :=
        ⟨hlegacy, key, false, generation, hkey, .inr hread⟩
      cases source with
      | current => exact informed_of_eq hsees
      | legacy => exact informed_of_eq hsees
    · have hsees : (Startup.restored source state).Sees P L q s.contents :=
        ⟨hlegacy, key, manifest, generation, hkey, hread⟩
      cases restore with
      | returned _ =>
        cases source with
        | current => exact informed_of_eq hsees
        | legacy => exact informed_of_eq hsees
      | raised =>
        cases source with
        | current => exact informed_of_eq (t := .refused .current) trivial
        | legacy => exact informed_of_eq (t := .refused .legacy) trivial
      | interrupted => exact fun _ _ h ↦ by cases h

theorem restoreLegacy_spec {key : Str} (hkey : q.legacyKey = some key) (restore : Result Unit)
    {s : Store} (hnone : s.contents q.snapshotKey = none) :
    (restoreLegacy P L key restore s).2.contents = s.contents ∧
      Informed P L q s.contents (restoreLegacy P L key restore s).1 := by
  have hcontents := read_contents (P := P) (L := L) key s
  rw [restoreLegacy]
  split
  · next t ht =>
    rw [ht] at hcontents
    exact ⟨hcontents, informed_of_eq (t := .legacyUnread) hnone⟩
  · next r t ht =>
    rw [ht] at hcontents
    have hread : readHealthy P L key s = .returned (.ok r) := readHealthy_of_read (by rw [ht])
    exact ⟨hcontents, informed_applySnapshot hread hkey (fun _ ↦ hnone) (fun h ↦ by cases h)⟩
  all_goals
    rename_i t ht
    rw [ht] at hcontents
    exact ⟨hcontents, fun _ _ h ↦ by cases h⟩

/-- **A startup** changes nothing, and what it says is so. -/
theorem restoreSnapshot_spec (resolution : Resolution) (restore : Result Unit) (s : Store) :
    (restoreSnapshot P L q resolution restore s).2.contents = s.contents ∧
      Informed P L q s.contents (restoreSnapshot P L q resolution restore s).1 := by
  unfold restoreSnapshot
  cases resolution with
  | failed => exact ⟨rfl, informed_of_eq (t := .unresolved) trivial⟩
  | incapable => exact ⟨rfl, informed_of_eq (t := .incapable) trivial⟩
  | interrupted => exact ⟨rfl, fun _ _ h ↦ by cases h⟩
  | available =>
    have hcontents := read_contents (P := P) (L := L) q.snapshotKey s
    dsimp only
    split
    · next t ht =>
      rw [ht] at hcontents
      split_ifs with hinvalid
      · subst hinvalid
        exact ⟨hcontents, informed_of_eq (t := .unusable) (contents_of_invalid_type (by rw [ht]))⟩
      · exact ⟨hcontents, informed_of_eq (t := .unreadable) trivial⟩
    · next r t ht =>
      rw [ht] at hcontents
      have hread : readHealthy P L q.snapshotKey s = .returned (.ok r) :=
        readHealthy_of_read (by rw [ht])
      by_cases hfound : r.found = true
      · rw [if_pos hfound]
        refine ⟨hcontents, informed_applySnapshot hread rfl (fun h ↦ by cases h) fun _ ↦ hfound⟩
      rw [if_neg hfound]
      have hnone : s.contents q.snapshotKey = none :=
        contents_of_not_found hread (by simpa using hfound)
      cases hlegacy : q.legacyKey with
      | none =>
        refine ⟨hcontents, informed_of_eq (t := .absent) ⟨hnone, fun key hkey ↦ ?_⟩⟩
        rw [hlegacy] at hkey
        cases hkey
      | some key =>
        have hretrieve := Storage.retrieve_contents q.tombstoneKey t
        -- whatever becomes of the tombstone, the storage is as it was
        have hfallback : ∀ u : Store, u.contents = t.contents →
            (restoreLegacy P L key restore u).2.contents = s.contents ∧
              Informed P L q s.contents (restoreLegacy P L key restore u).1 := by
          intro u hu
          have hu' : u.contents = s.contents := hu.trans hcontents
          have hspec := restoreLegacy_spec hlegacy restore (P := P) (L := L) (s := u)
            (by rw [hu']; exact hnone)
          rw [hu'] at hspec
          exact hspec
        dsimp only
        split
        · next u hu =>
          rw [hu] at hretrieve
          exact ⟨hretrieve.trans hcontents, informed_of_eq (t := .hidden) hnone⟩
        · next u hu =>
          rw [hu] at hretrieve
          exact hfallback u hretrieve
        · next u hu =>
          rw [hu] at hretrieve
          exact hfallback u hretrieve
        · next u hu =>
          rw [hu] at hretrieve
          exact ⟨hretrieve.trans hcontents, fun _ _ h ↦ by cases h⟩
    all_goals
      rename_i t ht
      rw [ht] at hcontents
      exact ⟨hcontents, fun _ _ h ↦ by cases h⟩

/-- A failure-free startup restores what a failure-free read finds. -/
theorem restoreSnapshot_healthy {contents : Str → Option Stored} {state : Bytes}
    {generation : Option Str}
    (h : readHealthy P L q.snapshotKey ⟨contents, []⟩ =
      .returned (.ok ⟨true, some state, true, generation⟩)) :
    (restoreSnapshot P L q .available (.returned ()) ⟨contents, []⟩).1 =
      .returned (⟨false, false, false⟩, .restored .current state) := by
  rw [readHealthy] at h
  have hread : read P L q.snapshotKey ⟨contents, []⟩ =
      (.returned (.ok ⟨true, some state, true, generation⟩),
        (read P L q.snapshotKey ⟨contents, []⟩).2) := Prod.ext h rfl
  rw [restoreSnapshot, hread]
  rfl

/-! ## The invariant -/

namespace Live

/-- A close of this lifecycle may have written. -/
def MayWrite (l : Live) : Prop :=
  (l.reset = true ∨ l.startup.flags.fenced = false) ∧ (l.startup = .legacyUnread → l.replaced = true)

/-- What this lifecycle has left of what was stored when it started. -/
structure Bounded (P : Platform) (L : Limits) (q : Identity) (contents : Str → Option Stored)
    (l : Live) : Prop where
  fenced : l.reset = true ∨ l.flags.fenced = l.startup.flags.fenced
  retirementPending : l.flags.retirementPending = l.startup.flags.retirementPending
  defersRetirement : l.startup = .legacyUnread →
    l.flags.defersRetirement = true ∨ l.replaced = true ∨ l.checkpointComplete = true
  sees : l.startup.Sees P L q l.before
  current : contents q.snapshotKey = l.before q.snapshotKey ∨ l.MayWrite
  legacy : ∀ key, q.legacyKey = some key → contents key = l.before key ∨ l.MayWrite
  tombstone : contents q.tombstoneKey = l.before q.tombstoneKey ∨ contents q.tombstoneKey = none ∨
    (l.MayWrite ∧ l.startup.flags.retirementPending = true)
  other : ∀ k, k ≠ q.snapshotKey → k ≠ q.tombstoneKey → q.legacyKey ≠ some k → l.before k ≠ none →
    contents k = l.before k

/-- A startup has left everything. -/
theorem Bounded.of_start {contents : Str → Option Stored} {t : Startup} (h : t.Sees P L q contents) :
    Bounded P L q contents ⟨t.flags, false, contents, t, false, false⟩ where
  fenced := .inr rfl
  retirementPending := rfl
  defersRetirement := by
    rintro rfl
    exact .inl rfl
  sees := h
  current := .inl rfl
  legacy _ _ := .inl rfl
  tombstone := .inl rfl
  other _ _ _ _ _ := rfl

/-- How a lifecycle goes on. -/
structure Later (l l' : Live) : Prop where
  before : l'.before = l.before
  startup : l'.startup = l.startup
  fenced : l'.reset = true ∨ l'.flags.fenced = l.flags.fenced
  retirementPending : l'.flags.retirementPending = l.flags.retirementPending
  defersRetirement : l.flags.defersRetirement = true →
    l'.flags.defersRetirement = true ∨ l'.replaced = true ∨ l'.checkpointComplete = true
  reset : l.reset = true → l'.reset = true
  replaced : l.replaced = true → l'.replaced = true
  checkpointComplete : l.checkpointComplete = true → l'.checkpointComplete = true

theorem Later.mayWrite {l l' : Live} (h : l.Later l') (hl : l.MayWrite) : l'.MayWrite := by
  rw [MayWrite, h.startup]
  exact ⟨hl.1.imp_left h.reset, fun hunread ↦ h.replaced (hl.2 hunread)⟩

/-- What happens to a lifecycle outside its storage. -/
theorem Bounded.later {contents : Str → Option Stored} {l l' : Live} (h : l.Bounded P L q contents)
    (hl : l.Later l') : l'.Bounded P L q contents := by
  constructor
  · rw [hl.startup]
    rcases hl.fenced with h' | h'
    · exact .inl h'
    · rw [h']
      exact h.fenced.imp_left hl.reset
  · rw [hl.startup, hl.retirementPending]
    exact h.retirementPending
  · rw [hl.startup]
    intro hunread
    rcases h.defersRetirement hunread with hd | hr | hc
    · exact hl.defersRetirement hd
    · exact .inr (.inl (hl.replaced hr))
    · exact .inr (.inr (hl.checkpointComplete hc))
  · rw [hl.startup, hl.before]
    exact h.sees
  · rw [hl.before]
    exact h.current.imp_right hl.mayWrite
  · rw [hl.before]
    exact fun key hkey ↦ (h.legacy key hkey).imp_right hl.mayWrite
  · rw [hl.before, hl.startup]
    exact h.tombstone.imp_right (Or.imp_right (And.imp_left hl.mayWrite))
  · rw [hl.before]
    exact h.other

/-- What happens to the storage. -/
theorem Bounded.touches {contents after : Str → Option Stored} {l : Live}
    (h : l.Bounded P L q contents) (htouches : Touches P q generation writes marks contents after)
    (hwrites : writes → l.MayWrite) (hmarks : marks → l.startup.flags.retirementPending = true)
    (hmarks' : marks → writes)
    (hfresh : ∀ i, contents (chunkKey P.sha256 q.snapshotKey generation.text i) = none) :
    l.Bounded P L q after where
  fenced := h.fenced
  retirementPending := h.retirementPending
  defersRetirement := h.defersRetirement
  sees := h.sees
  current := by
    rcases htouches.current with hsame | hw
    · rw [hsame]
      exact h.current
    · exact .inr (hwrites hw)
  legacy key hkey := by
    rcases htouches.legacy key hkey with hsame | hw
    · rw [hsame]
      exact h.legacy key hkey
    · exact .inr (hwrites hw)
  tombstone := by
    rcases htouches.tombstone with hsame | hnone | hm
    · rw [hsame]
      exact h.tombstone
    · exact .inr (.inl hnone)
    · exact .inr (.inr ⟨hwrites (hmarks' hm), hmarks hm⟩)
  other k h₁ h₂ h₃ hk := by
    have hsame := h.other k h₁ h₂ h₃ hk
    refine (htouches.other k h₁ h₂ h₃ fun i heq ↦ hk ?_).trans hsame
    rw [← hsame, heq]
    exact hfresh i

end Live

/-- Every lifecycle keeps its bounds, and what was captured is what is stored. -/
structure Kept (P : Platform) (L : Limits) (q : Identity) (w : World) : Prop where
  live : ∀ l ∈ w.live, l.Bounded P L q w.contents
  captured : ∀ state, w.captured = some state → ∃ generation,
    readHealthy P L q.snapshotKey ⟨w.contents, []⟩ =
      .returned (.ok ⟨true, some state, true, generation⟩)

variable (P q) in
/-- The generation of a commit is new. -/
def Fresh (w : World) : Label → Prop
  | .close _ _ generation _ =>
    ∀ i, w.contents (chunkKey P.sha256 q.snapshotKey generation.text i) = none
  | _ => True

variable {w : World}

theorem start_contents (w : World) (resolution : Resolution) (restore : Result Unit)
    (script : List Outcome) :
    (w.start P L q resolution restore script).contents = w.contents ∧
      (w.start P L q resolution restore script).captured = w.captured := by
  have hspec := (restoreSnapshot_spec (P := P) (L := L) (q := q) resolution restore
    ⟨w.contents, script⟩).1
  rw [World.start]
  split <;> rename_i h <;> rw [h] at hspec <;> exact ⟨hspec, rfl⟩

theorem Kept.start (h : Kept P L q w) (resolution : Resolution) (restore : Result Unit)
    (script : List Outcome) : Kept P L q (w.start P L q resolution restore script) := by
  obtain ⟨hcontents, hcaptured⟩ := start_contents (P := P) (L := L) (q := q) w resolution restore script
  refine ⟨?_, ?_⟩
  · intro l hl
    rw [hcontents]
    have hspec := (restoreSnapshot_spec (P := P) (L := L) (q := q) resolution restore
      ⟨w.contents, script⟩).2
    rw [World.start] at hl
    split at hl
    · next flags startup s hs =>
      obtain ⟨rfl, hsees⟩ := hspec flags startup (by rw [hs])
      obtain rfl := Option.some.inj hl
      exact Live.Bounded.of_start hsees
    · cases hl
    · cases hl
  · rw [hcontents, hcaptured]
    exact h.captured

theorem persistSnapshot_of_fenced {flags : Flags} (h : flags.fenced = true)
    (snapshot : Result (Option Stored)) (resolution : Resolution) (s : Store) :
    (persistSnapshot P L q flags snapshot resolution generation s).2.2.contents = s.contents := by
  unfold persistSnapshot
  rw [if_pos h]

/-- The specification of `_persist_snapshot`. -/
structure Persisted (P : Platform) (L : Limits) (q : Identity) (generation : Generation) (flags : Flags)
    (snapshot : Result (Option Stored)) (contents : Str → Option Stored)
    (t : Result (Except String Unit) × Flags × Store) : Prop where
  touches : Touches P q generation (flags.mayWrite snapshot) (flags.mayMark snapshot) contents
    t.2.2.contents
  next : flags.Next snapshot t.1 t.2.1
  read : ∀ state, t.1 = .returned (.ok ()) → World.bytesOf snapshot = some state →
    readHealthy P L q.snapshotKey t.2.2 =
      .returned (.ok ⟨true, some state, true, some generation.text⟩)
  fenced : flags.fenced = true → t.2.2.contents = contents

theorem persisted (P : Platform) (L : Limits) (q : Identity) (generation : Generation) (flags : Flags)
    (snapshot : Result (Option Stored)) (resolution : Resolution) (s : Store) :
    Persisted P L q generation flags snapshot s.contents
      (persistSnapshot P L q flags snapshot resolution generation s) where
  touches := Touches.persistSnapshot flags snapshot resolution s
  next := persistSnapshot_flags flags snapshot resolution s
  read _ hok hstate := readHealthy_of_persistSnapshot hok hstate
  fenced hfenced := persistSnapshot_of_fenced hfenced snapshot resolution s

/-- A close that goes past its fence is within the bounds of its lifecycle. -/
theorem Live.Bounded.close {contents : Str → Option Stored} {l l' : Live}
    {snapshot : Result (Option Stored)} {after : Str → Option Stored}
    (h : l.Bounded P L q contents) (hcomplete : l.checkpointComplete = false) (hl : l.Later l')
    (hreplaced : World.nonempty snapshot = true → l'.replaced = true)
    (htouches : Touches P q generation (l.flags.mayWrite snapshot) (l.flags.mayMark snapshot)
      contents after)
    (hfresh : ∀ i, contents (chunkKey P.sha256 q.snapshotKey generation.text i) = none) :
    l'.Bounded P L q after := by
  refine (h.later hl).touches htouches ?_ ?_ And.left hfresh
  · rintro ⟨hopen, hdefers⟩
    rw [MayWrite, hl.startup]
    constructor
    · rcases h.fenced with hreset | hfenced
      · exact .inl (hl.reset hreset)
      · exact .inr (hfenced.symm.trans hopen)
    · intro hunread
      rcases h.defersRetirement hunread with hd | hr | hc
      · exact hreplaced (hdefers hd)
      · exact hl.replaced hr
      · rw [hcomplete] at hc
        cases hc
  · rintro ⟨-, hpending⟩
    rw [hl.startup, ← h.retirementPending]
    exact hpending

theorem Kept.close {l : Live} (h : Kept P L q w) (hlive : w.live = some l)
    (snapshot : Result (Option Stored)) (resolution : Resolution) (script : List Outcome)
    (hfresh : ∀ i, w.contents (chunkKey P.sha256 q.snapshotKey generation.text i) = none) :
    Kept P L q (w.close P L q l snapshot resolution generation script) := by
  have hbounded := h.live l hlive
  unfold World.close
  by_cases hcomplete : l.checkpointComplete = true
  · rw [if_pos hcomplete]
    exact h
  rw [if_neg hcomplete]
  have hopen : l.checkpointComplete = false := by simpa using hcomplete
  have hp := persisted P L q generation l.flags snapshot resolution ⟨w.contents, script⟩
  generalize persistSnapshot P L q l.flags snapshot resolution generation ⟨w.contents, script⟩ = t at hp ⊢
  obtain ⟨result, flags, s⟩ := t
  have hlater : ∀ complete, (result = .returned (.ok ()) → complete = true) → l.Later
      ⟨flags, complete, l.before, l.startup, l.reset, l.replaced || World.nonempty snapshot⟩ := by
    intro complete hresult
    refine ⟨rfl, rfl, .inr hp.next.fenced, hp.next.retirementPending, fun hd ↦ ?_, id, ?_, ?_⟩
    · rcases hp.next.defersRetirement hd with h' | h' | h'
      · exact .inl h'
      · exact .inr (.inl (by simp [h']))
      · exact .inr (.inr (hresult h'))
    · exact fun hr ↦ by simp [hr]
    · exact fun hc ↦ absurd hc hcomplete
  have hlive : ∀ complete, (result = .returned (.ok ()) → complete = true) → Live.Bounded P L q
      s.contents ⟨flags, complete, l.before, l.startup, l.reset,
        l.replaced || World.nonempty snapshot⟩ := fun complete hresult ↦
    hbounded.close hopen (hlater complete hresult) (fun hn ↦ by simp [hn]) hp.touches hfresh
  dsimp only
  split
  · exact ⟨fun _ hl ↦ Option.some.inj hl ▸ hlive true fun _ ↦ rfl,
      fun state hstate ↦ ⟨_, hp.read state rfl hstate⟩⟩
  · next hne =>
    refine ⟨fun _ hl ↦ Option.some.inj hl ▸ hlive l.checkpointComplete fun hok ↦
      absurd hok (hne ()), fun state hstate ↦ ?_⟩
    by_cases hf : l.flags.fenced = true
    · rw [if_pos hf] at hstate
      rw [hp.fenced hf]
      exact h.captured state hstate
    · rw [if_neg hf] at hstate
      cases hstate

theorem Kept.step {t : World} {a : Label} (h : Kept P L q w) (hfresh : Fresh P q w a)
    (ht : w.step P L q a = some t) : Kept P L q t := by
  cases a with
  | start resolution restore script =>
    obtain ⟨⟩ := ht
    exact h.start resolution restore script
  | close snapshot resolution generation script =>
    obtain ⟨l, hl, rfl⟩ := Option.map_eq_some_iff.1 ht
    exact h.close hl snapshot resolution script hfresh
  | lossy =>
    obtain ⟨l, hl, rfl⟩ := Option.map_eq_some_iff.1 ht
    refine ⟨?_, h.captured⟩
    rintro _ ⟨⟩
    exact (h.live l hl).later ⟨rfl, rfl, .inr rfl, rfl, .inl, id, id, fun _ ↦ rfl⟩
  | reset =>
    obtain ⟨l, hl, rfl⟩ := Option.map_eq_some_iff.1 ht
    refine ⟨?_, h.captured⟩
    rintro _ ⟨⟩
    exact (h.live l hl).later ⟨rfl, rfl, .inl rfl, rfl, .inl, fun _ ↦ rfl, id, id⟩

/-! ## Authority -/

namespace Startup

/-- The startup leaves the current value to its close: it has restored it, or there was no state in it,
or no value that could hold one. -/
def permitsCurrent : Startup → Bool
  | .incapable | .unusable | .empty .current | .restored .current _ => true
  | _ => false

/-- The startup leaves the old value to its close: it has restored it, or there was no state in it, or it
was hidden already. -/
def permitsLegacy : Startup → Bool
  | .incapable | .unusable | .hidden | .empty _ | .restored _ _ => true
  | _ => false

end Startup

/-- The old value may go: the operator has decided so, the startup has, or there is a state in the place of
what the startup could not read. -/
def Live.PermitsLegacy (l : Live) : Prop :=
  l.reset = true ∨ l.startup.permitsLegacy = true ∨ (l.startup = .legacyUnread ∧ l.replaced = true)

variable (q) in
/-- A startup would come to the old value. -/
def LegacyReachable (contents : Str → Option Stored) : Prop :=
  contents q.snapshotKey = none ∧ contents q.tombstoneKey = none

theorem Live.Bounded.permitsCurrent {contents : Str → Option Stored} {l : Live}
    (h : l.Bounded P L q contents) (hwrite : l.MayWrite) (hbefore : l.before q.snapshotKey ≠ none) :
    l.reset = true ∨ l.startup.permitsCurrent = true := by
  have hsees := h.sees
  obtain ⟨hopen, -⟩ := hwrite
  rcases hopen with hreset | hfenced
  · exact .inl hreset
  refine .inr ?_
  -- a startup that saw no current value is excluded, and so is one that left a fence
  match hstartup : l.startup with
  | .incapable | .unusable => rfl
  | .empty .current | .restored .current _ => rfl
  | .hidden | .legacyUnread =>
    rw [hstartup] at hsees
    exact absurd hsees hbefore
  | .absent =>
    rw [hstartup] at hsees
    exact absurd hsees.1 hbefore
  | .empty .legacy | .restored .legacy _ =>
    rw [hstartup] at hsees
    exact absurd (hsees.1 rfl) hbefore
  | .unresolved | .unreadable | .refused .current | .refused .legacy =>
    rw [hstartup] at hfenced
    cases hfenced

theorem Live.Bounded.permitsLegacy {contents : Str → Option Stored} {l : Live} {key : Str}
    (h : l.Bounded P L q contents) (hwrite : l.MayWrite) (hkey : q.legacyKey = some key)
    (hbefore : l.before key ≠ none) : l.PermitsLegacy := by
  have hsees := h.sees
  obtain ⟨hopen, hunread⟩ := hwrite
  rcases hopen with hreset | hfenced
  · exact .inl hreset
  refine .inr ?_
  match hstartup : l.startup with
  | .incapable | .unusable | .hidden | .empty _ | .restored _ _ => exact .inl rfl
  | .legacyUnread => exact .inr ⟨rfl, hunread hstartup⟩
  | .absent =>
    rw [hstartup] at hsees
    exact absurd (hsees.2 key hkey) hbefore
  | .unresolved | .unreadable | .refused .current | .refused .legacy =>
    rw [hstartup] at hfenced
    cases hfenced

/-- Which stored value the closes of the lifecycle in use may have replaced, removed or hidden, and what
the next startup finds. -/
structure Authority (P : Platform) (L : Limits) (q : Identity) (w : World) : Prop where
  /-- What a startup has seen was there. -/
  sees : ∀ l ∈ w.live, l.startup.Sees P L q l.before
  current : ∀ l ∈ w.live, l.before q.snapshotKey ≠ none →
    w.contents q.snapshotKey ≠ l.before q.snapshotKey →
      l.reset = true ∨ l.startup.permitsCurrent = true
  legacy : ∀ l ∈ w.live, ∀ key, q.legacyKey = some key → l.before key ≠ none →
    w.contents key ≠ l.before key → l.PermitsLegacy
  hidden : ∀ l ∈ w.live, ∀ key, q.legacyKey = some key → l.before key ≠ none →
    LegacyReachable q l.before → ¬ LegacyReachable q w.contents → l.PermitsLegacy
  /-- The chunks of a manifest, and whatever else is stored. -/
  other : ∀ l ∈ w.live, ∀ k, k ≠ q.snapshotKey → k ≠ q.tombstoneKey → q.legacyKey ≠ some k →
    l.before k ≠ none → w.contents k = l.before k
  /-- A failure-free startup restores the state that the last close has captured. -/
  captured : ∀ state, w.captured = some state →
    (w.start P L q .available (.returned ()) []).live.map Live.startup =
      some (.restored .current state)

theorem Kept.authority (h : Kept P L q w) : Authority P L q w where
  sees l hl := (h.live l hl).sees
  current l hl hbefore hne := by
    rcases (h.live l hl).current with hsame | hwrite
    · exact absurd hsame hne
    · exact (h.live l hl).permitsCurrent hwrite hbefore
  legacy l hl key hkey hbefore hne := by
    rcases (h.live l hl).legacy key hkey with hsame | hwrite
    · exact absurd hsame hne
    · exact (h.live l hl).permitsLegacy hwrite hkey hbefore
  hidden l hl key hkey hbefore hreachable hhidden := by
    obtain ⟨hcurrent, htombstone⟩ := hreachable
    have hwrite : l.MayWrite := by
      by_contra hnot
      refine hhidden ⟨?_, ?_⟩
      · exact ((h.live l hl).current.resolve_right hnot).trans hcurrent
      · rcases (h.live l hl).tombstone with hsame | hnone | ⟨hwrite, -⟩
        · exact hsame.trans htombstone
        · exact hnone
        · exact absurd hwrite hnot
    exact (h.live l hl).permitsLegacy hwrite hkey hbefore
  other l hl := (h.live l hl).other
  captured state hstate := by
    obtain ⟨generation, hread⟩ := h.captured state hstate
    have hstart := restoreSnapshot_healthy hread
    unfold World.start
    split
    · next flags startup s hs =>
      rw [hs] at hstart
      obtain ⟨⟩ := Result.returned.inj hstart
      rfl
    all_goals
      rename_i s hs
      rw [hs] at hstart
      cases hstart

/-- **Checkpoint authority.** Whatever the storage holds at first, over every sequence of startups, closes
and resets, and however their calls come out. -/
theorem authority_of_fresh (P : Platform) (L : Limits) (q : Identity) (contents : Str → Option Stored)
    (as : List Label) (h : (checkpoints P L q contents).Along (Fresh P q) ⟨contents, none, none⟩ as) :
    (checkpoints P L q contents).Always (Authority P L q) ⟨contents, none, none⟩ as := by
  have hinit : Kept P L q ⟨contents, none, none⟩ :=
    ⟨(fun _ hl ↦ by cases hl), (fun _ hc ↦ by cases hc)⟩
  have hkept := h.always (I := Kept P L q) (fun s a t hs hfresh ht ↦ hs.step hfresh ht) hinit
  exact hkept.mono fun _ hw ↦ hw.authority

/-- The queue `q` of a spider without a name. -/
def sampleIdentity : Identity := ⟨none, [], Py.str "q"⟩

/-- A queue that is closed with a state, and started while its manifest cannot be read. -/
def sampleLifecycles : List Label :=
  [.start .available (.returned ()) [],
    .close (.returned (some (.bytes [1, 2]))) .available sampleGeneration [],
    .start .available (.returned ()) [.failure false]]

theorem authority_of_fresh_unread :
    (checkpoints samplePlatform sampleLimits sampleIdentity fun _ ↦ none).Always
      (Authority samplePlatform sampleLimits sampleIdentity) ⟨fun _ ↦ none, none, none⟩
      sampleLifecycles := by
  refine authority_of_fresh _ _ _ _ _ ⟨trivial, fun t ht ↦ ⟨fun i ↦ ?_, fun _ _ ↦ ⟨trivial, fun _ _ ↦
    trivial⟩⟩⟩
  obtain ⟨⟩ := ht
  rw [(start_contents _ _ _ _).1]

/-- A value goes only if it was restored. -/
def OnlyRestored (q : Identity) (w : World) : Prop :=
  ∀ l ∈ w.live, ∀ key, key = q.snapshotKey ∨ q.legacyKey = some key → l.before key ≠ none →
    w.contents key ≠ l.before key → l.reset = true ∨ ∃ source state, l.startup = .restored source state

/-- A lifecycle that is not reset and has restored nothing, and a value that it does not leave. -/
def Takes (q : Identity) (key : Str) (w : World) : Prop :=
  (key = q.snapshotKey ∨ q.legacyKey = some key) ∧ ∃ l ∈ w.live, l.before key ≠ none ∧
    w.contents key ≠ l.before key ∧ l.reset = false ∧
      l.startup ∈ [.incapable, .unusable, .hidden, .legacyUnread, .empty .legacy]

theorem Takes.not_onlyRestored {key : Str} (h : Takes q key w) : ¬ OnlyRestored q w := by
  obtain ⟨hkey, l, hl, hbefore, hne, hreset, hstartup⟩ := h
  intro honly
  rcases honly l hl key hkey hbefore hne with h | ⟨source, state, h⟩
  · rw [hreset] at h
    cases h
  · rw [h] at hstartup
    simp at hstartup

/-- The old value of `sampleIdentity`. -/
def sampleLegacyKey : Str := Identity.keyPrefix ++ Py.str "q"

/-- A storage with one value. -/
def holding (key : Str) (value : Stored) : Str → Option Stored :=
  Function.update (fun _ ↦ none) key (some value)

/-- One lifecycle over a storage. -/
def lifecycle (contents : Str → Option Stored) (resolution : Resolution) (script : List Outcome)
    (state : Option Stored) : Option World :=
  (checkpoints samplePlatform sampleLimits sampleIdentity contents).run ⟨contents, none, none⟩
    [.start resolution (.returned ()) script, .close (.returned state) .available sampleGeneration []]

/-- A close also takes an old value that a tombstone hides, one that could not be read and has a
replacement, one without a state, a current value that is no buffer, and, if there was no storage at
startup, whatever is there when it has appeared. -/
theorem close_not_onlyRestored :
    (∃ w ∈ lifecycle (Function.update (holding sampleLegacyKey (.bytes [1]))
        sampleIdentity.tombstoneKey (some (.bytes tombstoneMarker))) .available [] none,
      ¬ OnlyRestored sampleIdentity w) ∧
    (∃ w ∈ lifecycle (holding sampleLegacyKey (.bytes [1])) .available
        [.success, .success, .failure false] (some (.bytes [2])),
      ¬ OnlyRestored sampleIdentity w) ∧
    (∃ w ∈ lifecycle (holding sampleLegacyKey (.bytes [])) .available [] none,
      ¬ OnlyRestored sampleIdentity w) ∧
    (∃ w ∈ lifecycle (holding sampleIdentity.snapshotKey .object) .available [] none,
      ¬ OnlyRestored sampleIdentity w) ∧
    ∃ w ∈ lifecycle (holding sampleLegacyKey (.bytes [1])) .incapable [] none,
      ¬ OnlyRestored sampleIdentity w := by
  have hkey : sampleIdentity.legacyKey = some sampleLegacyKey := by decide +kernel
  refine ⟨⟨_, rfl, Takes.not_onlyRestored ⟨.inr hkey, _, rfl, ?_⟩⟩,
    ⟨_, rfl, Takes.not_onlyRestored ⟨.inr hkey, _, rfl, ?_⟩⟩,
    ⟨_, rfl, Takes.not_onlyRestored ⟨.inr hkey, _, rfl, ?_⟩⟩,
    ⟨_, rfl, Takes.not_onlyRestored ⟨.inl rfl, _, rfl, ?_⟩⟩,
    ⟨_, rfl, Takes.not_onlyRestored ⟨.inr hkey, _, rfl, ?_⟩⟩⟩
  all_goals decide +kernel

end Snapshot

end ScrapyExtension
