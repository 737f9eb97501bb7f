import ScrapyExtension.Queue.SnapshotRepository

/-!
# Maintenance of the snapshot repository

`SnapshotRepository.gc` deletes the chunks of generations that the manifest of a key no longer refers
to. It learns about them from a listing of the storage, which is not trusted: a listing may repeat
keys, contain keys of others and values that are no keys at all, and may not end.

## What is deleted

A key is only deleted if it parses as a chunk key of this logical key and is the text that the writer
produces for what was parsed. Whatever a read of a snapshot depends on is then out of reach: the
logical keys are not in the namespace of the chunks, the chunks of other versions are not in it, and
the chunks of the current generation are left alone.

A delete may be carried out and raise, and it may claim to have been carried out; every delete is
followed by a read. The only answer that is believed is that there was nothing to delete.
-/

namespace ScrapyExtension

open Py Json

namespace Snapshot

open Faulty (Result Storage)

/-! ## Constants -/

/-- `MAX_SNAPSHOT_GC_GENERATIONS` -/
def maxSnapshotGcGenerations : ℕ := 16

/-- `MAX_SNAPSHOT_GC_DELETIONS` -/
def maxSnapshotGcDeletions : ℕ := maxSnapshotChunks * 2

/-- `MAX_SNAPSHOT_GC_LISTING` -/
def maxSnapshotGcListing : ℕ := maxSnapshotGcDeletions

/-! ## The listing -/

/-- How an iteration ends. -/
inductive Ending
  /-- `StopIteration` -/
  | stop
  | raised
  | interrupted
deriving DecidableEq

/-- What `list_storage_keys` is and returns. A candidate that is not of type `str` is `none`. An
iteration without end is given by as many candidates as are ever looked at. -/
inductive Listing
  /-- It cannot be called. -/
  | missing
  /-- `NotImplementedError` -/
  | unavailable
  | raised
  | interrupted
  /-- `None`, a text or a buffer, or nothing that can be iterated. -/
  | invalid
  | items (candidates : List (Option Str)) (ending : Ending)
deriving DecidableEq

/-- `_bounded_storage_listing`, and the lookup before it -/
def boundedStorageListing : Listing → Result (Except String (List (Option Str)))
  | .missing | .unavailable =>
    .returned (.error "Snapshot maintenance is unavailable for this storage backend.")
  | .raised => .returned (.error "Snapshot maintenance key listing failed.")
  | .interrupted => .interrupted
  | .invalid => .returned (.error "Snapshot maintenance returned an invalid key listing.")
  | .items candidates ending =>
    if maxSnapshotGcListing < candidates.length then
      .returned (.error "Snapshot maintenance key listing exceeds its hard limit.")
    else
      match ending with
      | .stop => .returned (.ok candidates)
      | .raised => .returned (.error "Snapshot maintenance key listing failed.")
      | .interrupted => .interrupted

/-- `prefix` of `gc` -/
def chunkPrefix (sha : Sha256) (key : Str) : Str :=
  currentChunkKeyPrefix ++ ((sha (keyOctets key)).text ++ [chr ':'])

/-- `_parse_current_chunk_key` -/
def parseCurrentChunkKey (key start : Str) : Option (Str × ℕ) :=
  if start <+: key then
    match (key.drop start.length).splitOn (chr ':') with
    | [generation, rawIndex] =>
      if isHexText 32 generation ∧ rawIndex ≠ [] ∧ rawIndex.all isDigit ∧
          readDecimal rawIndex < maxSnapshotChunks ∧ rawIndex = decimal (readDecimal rawIndex) then
        some (generation, readDecimal rawIndex)
      else none
    | _ => none
  else none

/-- The candidates that may be deleted, with their generations, in the order of the listing: `parsed`
is a dict. -/
def parseListing (sha : Sha256) (key current : Str) : List (Option Str) → List (Str × Str)
  | [] => []
  | none :: candidates => parseListing sha key current candidates
  | some candidate :: candidates =>
    let rest := parseListing sha key current candidates
    match parseCurrentChunkKey candidate (chunkPrefix sha key) with
    | none => rest
    | some (generation, index) =>
      if candidate ≠ chunkKey sha key generation index ∨ generation = current then rest
      else (candidate, generation) :: rest.filter (·.1 ≠ candidate)

/-- The keys in the order in which they are deleted: generation after generation. -/
def deletionOrder (parsed : List (Str × Str)) (maxGenerations : ℕ) : List Str :=
  let generations := (parsed.map Prod.snd).dedup.insertionSort (· ≤ ·)
  (generations.take maxGenerations).flatMap fun generation ↦
    (parsed.filter (·.2 = generation)).map Prod.fst

/-! ## Deleting -/

/-- How a call of `storage.delete` comes out. -/
inductive Deletion
  /-- The key is removed. The answer is whether it was there, or `None` in an old plugin. -/
  | removed (answers : Bool)
  /-- It returns, and the key is left as it is. -/
  | kept (answer : Option Bool)
  | raised (effect : Bool)
  | interrupted (effect : Bool)
deriving DecidableEq

/-- A delete that was called. -/
structure Attempt where
  key : Str
  /-- `_delete_and_confirm` has returned `True`. -/
  confirmed : Bool
deriving DecidableEq

/-- A maintenance run: the storage, the outcomes of the next deletes, and the deletes so far. Deletes
beyond the script succeed. -/
structure Run where
  store : Store
  deletions : List Deletion
  attempts : List Attempt

namespace Run

/-- A key is removed, or not. -/
def remove (r : Run) (key : Str) (effect : Bool) : Run :=
  if effect then
    { r with store := { r.store with contents := Function.update r.store.contents key none } }
  else r

/-- `storage.delete`; the outcome is its answer. -/
def delete (r : Run) (key : Str) : Result (Option Bool) × Run :=
  let present := (r.store.contents key).isSome
  match r.deletions with
  | [] => (.returned (some present), r.remove key true)
  | .removed answers :: deletions =>
    (.returned (if answers then some present else none), { r.remove key true with deletions })
  | .kept answer :: deletions => (.returned answer, { r with deletions })
  | .raised effect :: deletions => (.raised, { r.remove key effect with deletions })
  | .interrupted effect :: deletions => (.interrupted, { r.remove key effect with deletions })

/-- The read after a delete; `absent` is the verdict if there is nothing. -/
def confirm (r : Run) (key : Str) (absent : Bool) : Result (Except String Bool) × Run :=
  match retrieve key r.store with
  | (.returned none, store) =>
    (.returned (.error "Snapshot maintenance deletion outcome is indeterminate."), { r with store })
  | (.returned (some (some _)), store) =>
    (.returned (.error "Snapshot maintenance deletion was not confirmed."), { r with store })
  | (.returned (some none), store) => (.returned (.ok absent), { r with store })
  | (.raised, store) => (.raised, { r with store })
  | (.interrupted, store) => (.interrupted, { r with store })

/-- The end of a delete is recorded. -/
def record (key : Str) (x : Result (Except String Bool) × Run) : Result (Except String Bool) × Run :=
  (x.1, { x.2 with attempts := x.2.attempts ++ [⟨key, x.1 = .returned (.ok true)⟩] })

/-- `_delete_and_confirm` -/
def deleteAndConfirm (r : Run) (key : Str) : Result (Except String Bool) × Run :=
  record key <| match r.delete key with
    | (.returned answer, r) => r.confirm key (answer ≠ some false)
    | (.raised, r) => r.confirm key true
    | (.interrupted, r) => (.interrupted, r)

end Run

/-- The exceptions of `gc`. -/
inductive GcError
  /-- `SnapshotRepositoryError` -/
  | repository (message : String) (confirmedDeletions : ℕ)
  /-- `ValueError` -/
  | value (message : String)
deriving DecidableEq

/-- The error of a run that stops at a delete. -/
def partialError (deleted : ℕ) (error : String) : GcError :=
  .repository ("Snapshot maintenance was partial; confirmed deletions=" ++ toString deleted ++ ". " ++
    error) deleted

/-- The loops that delete. -/
def deleteAll (maxDeletions : ℕ) : List Str → ℕ → Run → Result (Except GcError ℕ) × Run
  | [], deleted, r => (.returned (.ok deleted), r)
  | key :: keys, deleted, r =>
    if maxDeletions ≤ deleted then (.returned (.ok deleted), r)
    else
      match r.deleteAndConfirm key with
      | (.returned (.ok confirmed), r) => deleteAll maxDeletions keys (deleted + confirmed.toNat) r
      | (.returned (.error e), r) => (.returned (.error (partialError deleted e)), r)
      | (.raised, r) => (.raised, r)
      | (.interrupted, r) => (.interrupted, r)

variable (P : Platform) (L : Limits)

/-- `gc` from the listing on. -/
def collectGarbage (key current : Str) (maxGenerations maxDeletions : ℕ) (listing : Listing) (r : Run) :
    Result (Except GcError ℕ) × Run :=
  match boundedStorageListing listing with
  | .returned (.error e) => (.returned (.error (.repository e 0)), r)
  | .returned (.ok candidates) =>
    deleteAll maxDeletions
      (deletionOrder (parseListing P.sha256 key current candidates) maxGenerations) 0 r
  | .raised => (.raised, r)
  | .interrupted => (.interrupted, r)

/-- The arguments of `gc`; a limit that is no `int`, or is a `bool`, is `none`. -/
structure GcArguments where
  /-- `quiescent is True` -/
  quiescent : Bool
  maxGenerations : Option ℤ
  maxDeletions : Option ℤ

/-- The checks at the start of `gc`. -/
def checkArguments (key : Str) (arguments : GcArguments) : Except GcError (ℕ × ℕ) :=
  match validateLogicalKey P.keyLimit key with
  | .error e => .error (.repository e 0)
  | .ok () =>
    if ¬ arguments.quiescent then
      .error (.value "Snapshot maintenance requires explicit writer quiescence.")
    else
      match arguments.maxGenerations, arguments.maxDeletions with
      | some generations, some deletions =>
        if generations < 1 ∨ deletions < 1 then
          .error (.value "Snapshot maintenance limits must be positive integers.")
        else if maxSnapshotGcGenerations < generations ∨ maxSnapshotGcDeletions < deletions then
          .error (.repository "Snapshot maintenance limit exceeds its hard cap." 0)
        else .ok (generations.toNat, deletions.toNat)
      | _, _ => .error (.value "Snapshot maintenance limits must be positive integers.")

/-- `gc`, below its lease -/
def gc (key : Str) (arguments : GcArguments) (listing : Listing) (r : Run) :
    Result (Except GcError ℕ) × Run :=
  match checkArguments P key arguments with
  | .error e => (.returned (.error e), r)
  | .ok (maxGenerations, maxDeletions) =>
    match readTerminal P L key r.store with
    | (.returned (.error e), store) => (.returned (.error (.repository e 0)), { r with store })
    | (.returned (.ok read), store) =>
      match read.found, read.generation with
      | true, some current =>
        collectGarbage P key current maxGenerations maxDeletions listing { r with store }
      | _, _ => (.returned (.ok 0), { r with store })
    | (.raised, store) => (.raised, { r with store })
    | (.interrupted, store) => (.interrupted, { r with store })

/-- `maintenance` -/
def maintenance (key : Str) (arguments : GcArguments) (listing : Listing) (r : Run) :
    Result (Except GcError ℕ) × Run :=
  gc P L key arguments listing r

/-! ## What the deletes do -/

namespace Run

theorem remove_contents_of_ne {key k : Str} (h : k ≠ key) (r : Run) (effect : Bool) :
    (r.remove key effect).store.contents k = r.store.contents k := by
  rw [remove]
  split_ifs
  · exact Function.update_of_ne h _ _
  · rfl

theorem remove_contents_self (key : Str) (r : Run) (effect : Bool) :
    (r.remove key effect).store.contents key = r.store.contents key ∨
      (r.remove key effect).store.contents key = none := by
  rw [remove]
  split_ifs
  · exact .inr (Function.update_self _ _ _)
  · exact .inl rfl

theorem remove_attempts (key : Str) (r : Run) (effect : Bool) :
    (r.remove key effect).attempts = r.attempts := by
  rw [remove]
  split_ifs <;> rfl

/-- A run after an operation on one key. -/
structure Within (key : Str) (r t : Run) : Prop where
  other : ∀ k ≠ key, t.store.contents k = r.store.contents k
  self : t.store.contents key = r.store.contents key ∨ t.store.contents key = none
  attempts : t.attempts = r.attempts

theorem within_remove (key : Str) (r : Run) (effect : Bool) (deletions : List Deletion) :
    Within key r { r.remove key effect with deletions } :=
  ⟨fun _ hk ↦ remove_contents_of_ne hk r effect, remove_contents_self key r effect,
    remove_attempts key r effect⟩

/-- A delete that answers `False` has found nothing, or has left everything. -/
theorem delete_spec (r : Run) (key : Str) : Within key r (r.delete key).2 ∧
    ((r.delete key).1 = .returned (some false) → r.store.contents key = none ∨
      (r.delete key).2.store.contents = r.store.contents) := by
  rw [delete]
  dsimp only
  split
  · refine ⟨within_remove key r true r.deletions, fun h ↦ .inl ?_⟩
    have hnone := Option.some.inj (Result.returned.inj h)
    simpa using hnone
  · refine ⟨within_remove key r true _, fun h ↦ .inl ?_⟩
    have hnone := Result.returned.inj h
    split_ifs at hnone
    simpa using Option.some.inj hnone
  · exact ⟨⟨fun _ _ ↦ rfl, .inl rfl, rfl⟩, fun _ ↦ .inr rfl⟩
  · exact ⟨within_remove key r _ _, nofun⟩
  · exact ⟨within_remove key r _ _, nofun⟩

theorem confirm_spec (r : Run) (key : Str) (absent : Bool) :
    (r.confirm key absent).2.store.contents = r.store.contents ∧
      (r.confirm key absent).2.attempts = r.attempts ∧
      ∀ b, (r.confirm key absent).1 = .returned (.ok b) → b = absent ∧ r.store.contents key = none := by
  have hcontents := retrieve_contents key r.store
  have hreturned : ∀ o, (retrieve key r.store).1 = .returned (some o) → o = r.store.contents key :=
    fun _ ↦ retrieve_returned
  rw [confirm]
  split <;> rename_i t ht <;> rw [ht] at hcontents hreturned
  · exact ⟨hcontents, rfl, nofun⟩
  · exact ⟨hcontents, rfl, nofun⟩
  · refine ⟨hcontents, rfl, fun b hb ↦ ⟨?_, (hreturned none rfl).symm⟩⟩
    exact (Except.ok.inj (Result.returned.inj hb)).symm
  · exact ⟨hcontents, rfl, nofun⟩
  · exact ⟨hcontents, rfl, nofun⟩

/-- What `_delete_and_confirm` does to its key, and what its answers say. -/
structure Confirms (key : Str) (r t : Run) (result : Result (Except String Bool)) : Prop where
  other : ∀ k ≠ key, t.store.contents k = r.store.contents k
  self : t.store.contents key = r.store.contents key ∨ t.store.contents key = none
  attempts : t.attempts = r.attempts ++ [⟨key, result = .returned (.ok true)⟩]
  gone : result = .returned (.ok true) → t.store.contents key = none
  absent : result = .returned (.ok false) → r.store.contents key = none

theorem Within.confirm {key : Str} {r t : Run} {absent : Bool} (h : Within key r t)
    (habsent : absent = false → r.store.contents key = none ∨
      t.store.contents = r.store.contents) :
    Confirms key r (record key (t.confirm key absent)).2 (record key (t.confirm key absent)).1 := by
  obtain ⟨hcontents, hattempts, hok⟩ := t.confirm_spec key absent
  constructor
  · intro k hk
    rw [record]
    dsimp only
    rw [hcontents]
    exact h.other k hk
  · rw [record]
    dsimp only
    rw [hcontents]
    exact h.self
  · rw [record]
    dsimp only
    rw [hattempts, h.attempts]
  · intro hr
    rw [record]
    dsimp only
    rw [hcontents]
    exact (hok true hr).2
  · intro hr
    obtain ⟨rfl, hnone⟩ := hok false hr
    rcases habsent rfl with hbefore | hsame
    · exact hbefore
    · rwa [hsame] at hnone

theorem confirms_deleteAndConfirm (r : Run) (key : Str) :
    Confirms key r (r.deleteAndConfirm key).2 (r.deleteAndConfirm key).1 := by
  obtain ⟨hwithin, hfalse⟩ := r.delete_spec key
  rw [deleteAndConfirm]
  split <;> rename_i t ht <;> rw [ht] at hwithin hfalse
  · refine hwithin.confirm fun habsent ↦ hfalse ?_
    simpa using habsent
  · exact hwithin.confirm nofun
  · refine ⟨hwithin.other, hwithin.self, ?_, nofun, nofun⟩
    rw [record]
    dsimp only
    rw [hwithin.attempts]

end Run

/-- The key was there before, and is not there afterwards. -/
def Attempt.removes (before after : Str → Option Stored) (a : Attempt) : Bool :=
  (before a.key).isSome && (after a.key).isNone

/-- What the deletes of a run do, `attempts` of them, however it ends. -/
structure Deletes (keys : List Str) (maxDeletions deleted : ℕ) (r t : Run)
    (result : Result (Except GcError ℕ)) (attempts : List Attempt) : Prop where
  trace : t.attempts = r.attempts ++ attempts
  /-- Each key at most once, and no other. -/
  order : attempts.map Attempt.key <+: keys
  contents : ∀ k, t.store.contents k = r.store.contents k ∨
    (k ∈ attempts.map Attempt.key ∧ t.store.contents k = none)
  returned : ∀ n, result = .returned (.ok n) → n = deleted + attempts.countP Attempt.confirmed
  error : ∀ e, result = .returned (.error e) →
    ∃ m, e = partialError (deleted + attempts.countP Attempt.confirmed) m
  confirmed : ∀ a ∈ attempts, a.confirmed = true → t.store.contents a.key = none
  bound : deleted + attempts.countP Attempt.confirmed ≤ maxDeletions
  removed : deleted +
    attempts.countP (Attempt.removes r.store.contents t.store.contents) ≤ maxDeletions

theorem Deletes.refl {keys : List Str} {maxDeletions deleted : ℕ} (h : deleted ≤ maxDeletions) (r : Run) :
    Deletes keys maxDeletions deleted r r (.returned (.ok deleted)) [] where
  trace := (List.append_nil _).symm
  order := List.nil_prefix
  contents _ := .inl rfl
  returned _ hn := (Except.ok.inj (Result.returned.inj hn)).symm
  error _ he := by cases he
  confirmed _ ha := absurd ha List.not_mem_nil
  bound := h
  removed := h

/-- A run that stops at a delete. -/
theorem Deletes.stop {key : Str} {keys : List Str} {maxDeletions deleted : ℕ} {r t : Run}
    {result : Result (Except GcError ℕ)} {verdict : Result (Except String Bool)}
    (h : Run.Confirms key r t verdict) (hlt : deleted < maxDeletions)
    (hverdict : ∀ b, verdict ≠ .returned (.ok b)) (hreturned : ∀ n, result ≠ .returned (.ok n))
    (herror : ∀ e, result = .returned (.error e) → ∃ m, e = partialError deleted m) :
    Deletes (key :: keys) maxDeletions deleted r t result [⟨key, false⟩] where
  trace := by
    rw [h.attempts]
    simp [hverdict true]
  order := List.cons_prefix_cons.2 ⟨rfl, List.nil_prefix⟩
  contents k := by
    by_cases hk : k = key
    · subst hk
      exact h.self.imp_right fun hnone ↦ ⟨by simp, hnone⟩
    · exact .inl (h.other k hk)
  returned n hn := absurd hn (hreturned n)
  error := herror
  confirmed a ha hc := by
    obtain rfl := List.mem_singleton.1 ha
    cases hc
  bound := hlt.le
  removed := by
    have hle := List.countP_le_length (p := Attempt.removes r.store.contents t.store.contents)
      (l := [⟨key, false⟩])
    simp only [List.length_singleton] at hle
    omega

/-- A run goes on after a delete. -/
theorem Deletes.cons {key : Str} {keys : List Str} {maxDeletions deleted : ℕ} {r t u : Run}
    {result : Result (Except GcError ℕ)} {b : Bool} {attempts : List Attempt}
    (h : Run.Confirms key r t (.returned (.ok b))) (hkey : key ∉ keys)
    (hrest : Deletes keys maxDeletions (deleted + b.toNat) t u result attempts) :
    Deletes (key :: keys) maxDeletions deleted r u result (⟨key, b⟩ :: attempts) := by
  have hne : ∀ a ∈ attempts, a.key ≠ key := by
    rintro a ha rfl
    exact hkey (hrest.order.subset (List.mem_map_of_mem ha))
  -- the rest of the run does not come back to the key
  have hself : u.store.contents key = t.store.contents key := by
    refine (hrest.contents key).resolve_right fun hmem ↦ ?_
    obtain ⟨a, ha, hak⟩ := List.mem_map.1 hmem.1
    exact hne a ha hak
  have hcount : (⟨key, b⟩ :: attempts).countP Attempt.confirmed =
      attempts.countP Attempt.confirmed + b.toNat := by
    cases b <;> simp
  refine ⟨?_, List.cons_prefix_cons.2 ⟨rfl, hrest.order⟩, fun k ↦ ?_, fun n hn ↦ ?_, fun e he ↦ ?_, ?_, ?_,
    ?_⟩
  · rw [hrest.trace, h.attempts, List.append_assoc]
    cases b <;> rfl
  · by_cases hk : k = key
    · subst hk
      rw [hself]
      exact h.self.imp_right fun hnone ↦ ⟨by simp, hnone⟩
    · rcases hrest.contents k with hsame | ⟨hmem, hnone⟩
      · exact .inl (hsame.trans (h.other k hk))
      · exact .inr ⟨List.mem_cons_of_mem _ hmem, hnone⟩
  · rw [hcount, hrest.returned n hn]
    omega
  · obtain ⟨m, hm⟩ := hrest.error e he
    refine ⟨m, ?_⟩
    rw [hm, hcount]
    congr 1
    omega
  · rintro a ha hconfirmed
    rcases List.mem_cons.1 ha with rfl | ha
    · rw [hself]
      refine h.gone ?_
      rw [show b = true from hconfirmed]
    · exact hrest.confirmed a ha hconfirmed
  · have := hrest.bound
    omega
  · have hbound := hrest.removed
    have hsame : attempts.countP (Attempt.removes r.store.contents u.store.contents) =
        attempts.countP (Attempt.removes t.store.contents u.store.contents) := by
      refine List.countP_congr fun a ha ↦ ?_
      rw [Attempt.removes, Attempt.removes, h.other a.key (hne a ha)]
    have hhead : (Attempt.removes r.store.contents u.store.contents ⟨key, b⟩).toNat ≤ b.toNat := by
      cases b with
      | true => exact Bool.toNat_le _
      | false => simp [Attempt.removes, h.absent rfl]
    rw [List.countP_cons, hsame]
    cases hr : Attempt.removes r.store.contents u.store.contents ⟨key, b⟩ with
    | true =>
      rw [hr] at hhead
      simp only [Bool.toNat_true] at hhead
      simp only [if_true]
      omega
    | false =>
      simp only [Bool.false_eq_true, if_false]
      omega

theorem deletes_deleteAll {maxDeletions : ℕ} {keys : List Str} (hkeys : keys.Nodup) {deleted : ℕ}
    (hle : deleted ≤ maxDeletions) (r : Run) :
    ∃ attempts, Deletes keys maxDeletions deleted r (deleteAll maxDeletions keys deleted r).2
      (deleteAll maxDeletions keys deleted r).1 attempts := by
  induction keys generalizing deleted r with
  | nil => exact ⟨[], Deletes.refl hle r⟩
  | cons key keys ih =>
    obtain ⟨hkey, hkeys⟩ := List.nodup_cons.1 hkeys
    have hconfirms := r.confirms_deleteAndConfirm key
    rw [deleteAll]
    split_ifs with hmax
    · exact ⟨[], Deletes.refl hle r⟩
    · split <;> rename_i t ht <;> rw [ht] at hconfirms
      · rename_i b
        have hnext : deleted + b.toNat ≤ maxDeletions := by
          have := Bool.toNat_le b
          omega
        obtain ⟨attempts, hrest⟩ := ih hkeys hnext t
        exact ⟨_, hrest.cons hconfirms hkey⟩
      · rename_i m
        refine ⟨_, Deletes.stop hconfirms (not_le.1 hmax) nofun nofun fun e he ↦ ⟨m, ?_⟩⟩
        exact (Except.error.inj (Result.returned.inj he)).symm
      · exact ⟨_, Deletes.stop hconfirms (not_le.1 hmax) nofun nofun nofun⟩
      · exact ⟨_, Deletes.stop hconfirms (not_le.1 hmax) nofun nofun nofun⟩

/-! ## Which keys are deleted -/

/-- A chunk key of `key` that the writer may have produced, of another generation than `current`. -/
def Stale (sha : Sha256) (key current k : Str) : Prop :=
  ∃ generation index, isHexText 32 generation = true ∧ index < maxSnapshotChunks ∧
    generation ≠ current ∧ k = chunkKey sha key generation index

theorem parseCurrentChunkKey_canonical {k start generation : Str} {index : ℕ}
    (h : parseCurrentChunkKey k start = some (generation, index)) :
    isHexText 32 generation = true ∧ index < maxSnapshotChunks := by
  rw [parseCurrentChunkKey] at h
  obtain ⟨-, h⟩ := Option.ite_none_right_eq_some.1 h
  split at h
  · obtain ⟨⟨hgeneration, -, -, hindex, -⟩, ⟨⟩⟩ := Option.ite_none_right_eq_some.1 h
    exact ⟨hgeneration, hindex⟩
  · cases h

theorem parseListing_spec (sha : Sha256) (key current : Str) (candidates : List (Option Str)) :
    ((parseListing sha key current candidates).map Prod.fst).Nodup ∧
      ∀ x ∈ parseListing sha key current candidates, Stale sha key current x.1 := by
  induction candidates with
  | nil => exact ⟨List.nodup_nil, fun _ hx ↦ absurd hx List.not_mem_nil⟩
  | cons candidate candidates ih =>
    obtain ⟨hnodup, hstale⟩ := ih
    cases candidate with
    | none => exact ⟨hnodup, hstale⟩
    | some candidate =>
      rw [parseListing]
      split
      · exact ⟨hnodup, hstale⟩
      · next generation index hparse =>
        split_ifs with hskip
        · exact ⟨hnodup, hstale⟩
        · push Not at hskip
          obtain ⟨hgeneration, hindex⟩ := parseCurrentChunkKey_canonical hparse
          constructor
          · -- the first occurrence stays, and the later ones go
            rw [List.map_cons, List.nodup_cons]
            refine ⟨fun hmem ↦ ?_, (List.filter_sublist.map _).nodup hnodup⟩
            obtain ⟨x, hx, hxk⟩ := List.mem_map.1 hmem
            exact absurd hxk (by simpa using (List.mem_filter.1 hx).2)
          · intro x hx
            rcases List.mem_cons.1 hx with rfl | hx
            · exact ⟨generation, index, hgeneration, hindex, hskip.2, hskip.1⟩
            · exact hstale x (List.mem_filter.1 hx).1

theorem deletionOrder_spec {parsed : List (Str × Str)} (h : (parsed.map Prod.fst).Nodup)
    (maxGenerations : ℕ) :
    (deletionOrder parsed maxGenerations).Nodup ∧
      ∀ k ∈ deletionOrder parsed maxGenerations, ∃ generation, (k, generation) ∈ parsed := by
  have hmem : ∀ k generation, k ∈ (parsed.filter (·.2 = generation)).map Prod.fst →
      (k, generation) ∈ parsed := by
    intro k generation hk
    obtain ⟨⟨k', generation'⟩, hx, rfl⟩ := List.mem_map.1 hk
    obtain ⟨hparsed, hgeneration⟩ := List.mem_filter.1 hx
    obtain rfl : generation' = generation := by simpa using hgeneration
    exact hparsed
  rw [deletionOrder]
  constructor
  · rw [List.nodup_flatMap]
    refine ⟨fun _ _ ↦ (List.filter_sublist.map _).nodup h, ?_⟩
    have hgenerations : ((parsed.map Prod.snd).dedup.insertionSort (· ≤ ·)).Nodup :=
      (List.perm_insertionSort _ _).nodup_iff.2 (List.nodup_dedup _)
    refine ((List.take_sublist _ _).nodup hgenerations).imp fun {g g'} hne ↦ ?_
    -- a key has one generation
    intro k hk hk'
    have heq := List.inj_on_of_nodup_map h (hmem k g hk) (hmem k g' hk') rfl
    exact hne (Prod.ext_iff.1 heq).2
  · intro k hk
    obtain ⟨generation, -, hk⟩ := List.mem_flatMap.1 hk
    exact ⟨generation, hmem k generation hk⟩

/-! ## What a read does not depend on -/

variable {P L}

/-- No chunk that a manifest names is the current chunk of another key, or of another generation. -/
theorem manifestChunkKey_ne_chunkKey {key other generation : Str} {m : Manifest}
    (hother : validateLogicalKey P.keyLimit other = .ok ()) (hm : isHexText 32 m.generation = true)
    (hgeneration : isHexText 32 generation = true)
    (h : P.sha256 (keyOctets other) ≠ P.sha256 (keyOctets key) ∨ m.generation ≠ generation)
    (i j : ℕ) : manifestChunkKey P other m i ≠ chunkKey P.sha256 key generation j := by
  rw [manifestChunkKey]
  split_ifs
  · exact v4ChunkKey_ne_chunkKey hother _ _ _ _ _ _
  · exact legacyChunkKey_ne_chunkKey _ _ _ _ _ _ _
  · intro heq
    obtain ⟨hsha, heqGeneration⟩ := chunkKey_inj heq
    rcases h with hne | hne
    · exact hne hsha
    · refine hne (heqGeneration ?_)
      rw [length_of_isHexText hm, length_of_isHexText hgeneration]

/-- Stale chunks are not looked at. -/
theorem readHealthy_of_stale {key current other : Str} {s t : Store}
    (hcontents : ∀ k, t.contents k = s.contents k ∨ Stale P.sha256 key current k)
    (h : P.sha256 (keyOctets other) ≠ P.sha256 (keyOctets key) ∨
      ∀ m, HoldsManifest P L s.contents other m → m.generation = current) :
    readHealthy P L other t = readHealthy P L other s := by
  refine readHealthy_agree (fun hvalid ↦ ?_) fun hvalid m hm i _ ↦ ?_
  · refine (hcontents other).resolve_right ?_
    rintro ⟨generation, index, -, -, -, heq⟩
    exact chunkKey_ne hvalid P.sha256 key generation index heq.symm
  · refine (hcontents _).resolve_right ?_
    rintro ⟨generation, index, hgeneration, -, hne, heq⟩
    have hdiffers : P.sha256 (keyOctets other) ≠ P.sha256 (keyOctets key) ∨
        m.generation ≠ generation := by
      rcases h with hsha | hcurrent
      · exact .inl hsha
      · right
        rw [hcurrent m hm]
        exact hne.symm
    exact manifestChunkKey_ne_chunkKey hvalid hm.isHexText hgeneration hdiffers i index heq

variable (P L) in
/-- What `gc` does, with `attempts` the deletes that it calls, however it ends. -/
structure Collects (key : Str) (maxDeletions : ℕ) (r t : Run) (result : Result (Except GcError ℕ))
    (attempts : List Attempt) : Prop where
  trace : t.attempts = r.attempts ++ attempts
  once : (attempts.map Attempt.key).Nodup
  stale : ∀ a ∈ attempts, ∃ m, HoldsManifest P L r.store.contents key m ∧
    Stale P.sha256 key m.generation a.key
  contents : ∀ k, t.store.contents k = r.store.contents k ∨
    (k ∈ attempts.map Attempt.key ∧ t.store.contents k = none)
  removed : attempts.countP (Attempt.removes r.store.contents t.store.contents) ≤ maxDeletions
  bound : attempts.countP Attempt.confirmed ≤ maxDeletions
  confirmed : ∀ a ∈ attempts, a.confirmed = true → t.store.contents a.key = none
  returned : ∀ n, result = .returned (.ok n) → n = attempts.countP Attempt.confirmed
  reported : ∀ m n, result = .returned (.error (.repository m n)) →
    n = attempts.countP Attempt.confirmed
  refused : ∀ m, result = .returned (.error (.value m)) → attempts = []
  /-- The key itself, and every other key that does not collide with it. -/
  read : ∀ other, other = key ∨ P.sha256 (keyOctets other) ≠ P.sha256 (keyOctets key) →
    readHealthy P L other t.store = readHealthy P L other r.store

/-- A call that ends before the first delete. -/
theorem Collects.nothing {key : Str} {maxDeletions : ℕ} {r t : Run} {result : Result (Except GcError ℕ)}
    (hcontents : t.store.contents = r.store.contents) (htrace : t.attempts = r.attempts)
    (hreturned : ∀ n, result = .returned (.ok n) → n = 0)
    (hreported : ∀ m n, result = .returned (.error (.repository m n)) → n = 0) :
    Collects P L key maxDeletions r t result [] where
  trace := by rw [htrace, List.append_nil]
  once := List.nodup_nil
  stale _ ha := absurd ha List.not_mem_nil
  contents k := .inl (congrFun hcontents k)
  removed := Nat.zero_le _
  bound := Nat.zero_le _
  confirmed _ ha := absurd ha List.not_mem_nil
  returned := hreturned
  reported := hreported
  refused _ _ := rfl
  read other _ := readHealthy_agree (fun _ ↦ congrFun hcontents _) fun _ _ _ _ _ ↦ congrFun hcontents _

theorem collects_collectGarbage {key current : Str} {m : Manifest} {r : Run}
    (hm : HoldsManifest P L r.store.contents key m) (hcurrent : m.generation = current)
    (maxGenerations maxDeletions : ℕ) (listing : Listing) :
    ∃ attempts, Collects P L key maxDeletions r
      (collectGarbage P key current maxGenerations maxDeletions listing r).2
      (collectGarbage P key current maxGenerations maxDeletions listing r).1 attempts := by
  rw [collectGarbage]
  split
  · refine ⟨[], .nothing rfl rfl nofun fun _ n hn ↦ ?_⟩
    simp only [Result.returned.injEq, Except.error.injEq, GcError.repository.injEq] at hn
    exact hn.2.symm
  · next candidates _ =>
    obtain ⟨hnodup, hstale⟩ := parseListing_spec P.sha256 key current candidates
    obtain ⟨hkeys, hparsed⟩ := deletionOrder_spec hnodup maxGenerations
    obtain ⟨attempts, h⟩ := deletes_deleteAll hkeys (Nat.zero_le maxDeletions) r
    have hattempts : ∀ k ∈ attempts.map Attempt.key, Stale P.sha256 key current k := by
      intro k hk
      obtain ⟨generation, hmem⟩ := hparsed k (h.order.subset hk)
      exact hstale _ hmem
    have hbound := h.bound
    have hremoved := h.removed
    rw [Nat.zero_add] at hbound hremoved
    refine ⟨attempts, h.trace, h.order.sublist.nodup hkeys, fun a ha ↦ ⟨m, hm, ?_⟩, h.contents,
      hremoved, hbound, h.confirmed, fun n hn ↦ ?_, fun e n hn ↦ ?_, fun e he ↦ ?_, fun other hother ↦ ?_⟩
    · rw [hcurrent]
      exact hattempts a.key (List.mem_map_of_mem ha)
    · rw [h.returned n hn, Nat.zero_add]
    · obtain ⟨text, htext⟩ := h.error _ hn
      rw [partialError, Nat.zero_add] at htext
      exact (GcError.repository.inj htext).2
    · obtain ⟨text, htext⟩ := h.error _ he
      cases htext
    · have hchanged : ∀ k, (deleteAll maxDeletions (deletionOrder
          (parseListing P.sha256 key current candidates) maxGenerations) 0 r).2.store.contents k =
            r.store.contents k ∨ Stale P.sha256 key current k :=
        fun k ↦ (h.contents k).imp_right fun hk ↦ hattempts k hk.1
      refine readHealthy_of_stale hchanged ?_
      rcases hother with rfl | hsha
      · right
        intro m' hm'
        rw [hm'.eq hm, hcurrent]
      · exact .inl hsha
  · exact ⟨[], .nothing rfl rfl nofun nofun⟩
  · exact ⟨[], .nothing rfl rfl nofun nofun⟩

theorem checkArguments_error {key : Str} {arguments : GcArguments} {m : String} {n : ℕ}
    (h : checkArguments P key arguments = .error (.repository m n)) : n = 0 := by
  rw [checkArguments] at h
  split at h
  · exact (GcError.repository.inj (Except.error.inj h)).2.symm
  · split_ifs at h
    · split at h
      · split_ifs at h
        · cases h
        · exact (GcError.repository.inj (Except.error.inj h)).2.symm
      · cases h
    · cases h

theorem checkArguments_ok {key : Str} {arguments : GcArguments} {maxGenerations maxDeletions : ℕ}
    (h : checkArguments P key arguments = .ok (maxGenerations, maxDeletions)) :
    validateLogicalKey P.keyLimit key = .ok () ∧
      (arguments.maxDeletions.getD 0).toNat = maxDeletions := by
  rw [checkArguments] at h
  split at h
  · cases h
  · next hvalid =>
    split_ifs at h
    split at h
    · next hdeletions =>
      split_ifs at h
      rw [hdeletions]
      exact ⟨hvalid, (Prod.ext_iff.1 (Except.ok.inj h)).2⟩
    · cases h

/-- Reading beforehand makes no difference. -/
theorem Collects.of_contents {key : Str} {maxDeletions : ℕ} {r t : Run} {store : Store}
    {result : Result (Except GcError ℕ)} {attempts : List Attempt}
    (h : Collects P L key maxDeletions { r with store } t result attempts)
    (hcontents : store.contents = r.store.contents) :
    Collects P L key maxDeletions r t result attempts := by
  have hread : ∀ other, readHealthy P L other store = readHealthy P L other r.store := fun other ↦
    readHealthy_agree (fun _ ↦ congrFun hcontents _) fun _ _ _ _ _ ↦ congrFun hcontents _
  obtain ⟨trace, once, stale, contents, removed, bound, confirmed, returned, reported, refused, read⟩ := h
  dsimp only at trace stale contents removed read
  rw [hcontents] at stale contents removed
  exact ⟨trace, once, stale, contents, removed, bound, confirmed, returned, reported, refused,
    fun other hother ↦ (read other hother).trans (hread other)⟩

theorem collects_gc (P : Platform) (L : Limits) (key : Str) (arguments : GcArguments)
    (listing : Listing) (r : Run) :
    ∃ attempts, Collects P L key (arguments.maxDeletions.getD 0).toNat r
      (gc P L key arguments listing r).2 (gc P L key arguments listing r).1 attempts := by
  rw [gc]
  split
  · next e hcheck =>
    refine ⟨[], .nothing rfl rfl (by rintro _ ⟨⟩) fun _ n hn ↦ ?_⟩
    obtain rfl := Except.error.inj (Result.returned.inj hn)
    exact checkArguments_error hcheck
  · next maxGenerations maxDeletions hcheck =>
    obtain ⟨hvalid, hmax⟩ := checkArguments_ok hcheck
    have hread : Snapshot.read P L key r.store = readTerminal P L key r.store := by
      rw [Snapshot.read, hvalid]
    have hcontents : (readTerminal P L key r.store).2.contents = r.store.contents := by
      rw [← hread]
      exact read_contents key r.store
    have hhealthy : ∀ x, (readTerminal P L key r.store).1 = .returned (.ok x) →
        readHealthy P L key r.store = .returned (.ok x) := by
      rw [← hread]
      exact fun x ↦ readHealthy_of_read
    rw [hmax]
    split <;> rename_i store hstore <;> rw [hstore] at hcontents hhealthy
    · refine ⟨[], .nothing hcontents rfl (by rintro _ ⟨⟩) fun _ n hn ↦ ?_⟩
      simp only [Result.returned.injEq, Except.error.injEq, GcError.repository.injEq] at hn
      exact hn.2.symm
    · rename_i x
      split
      · next current _ hgeneration =>
        obtain ⟨m, hm, hcurrent⟩ := holdsManifest_of_generation (hhealthy x rfl) hgeneration
        have hm' : HoldsManifest P L store.contents key m := by rwa [hcontents]
        obtain ⟨attempts, h⟩ := collects_collectGarbage (r := { r with store }) hm' hcurrent
          maxGenerations maxDeletions listing
        exact ⟨attempts, h.of_contents hcontents⟩
      · refine ⟨[], .nothing hcontents rfl (fun n hn ↦ ?_) (by rintro _ _ ⟨⟩)⟩
        exact (Except.ok.inj (Result.returned.inj hn)).symm
    · exact ⟨[], .nothing hcontents rfl (by rintro _ ⟨⟩) (by rintro _ _ ⟨⟩)⟩
    · exact ⟨[], .nothing hcontents rfl (by rintro _ ⟨⟩) (by rintro _ _ ⟨⟩)⟩

/-- The calls that change the storage. -/
inductive Operation
  | commit (generation : Generation) (state : Option Stored)
  | gc (arguments : GcArguments) (listing : Listing)
  | maintenance (arguments : GcArguments) (listing : Listing)

variable (P L) in
/-- A call on a key. -/
def Operation.run (key : Str) : Operation → Run → Run
  | .commit generation state, r => { r with store := (Snapshot.commit P L key generation state r.store).2 }
  | .gc arguments listing, r => (Snapshot.gc P L key arguments listing r).2
  | .maintenance arguments listing, r => (Snapshot.maintenance P L key arguments listing r).2

private theorem readHealthy_of_commit_other {key other : Str} {s : Store} (hne : key ≠ other)
    (hsha : P.sha256 (keyOctets other) ≠ P.sha256 (keyOctets key))
    (hv4 : ∀ m, HoldsManifest P L s.contents other m → m.version = 4 →
      ∀ i < m.chunks, v4ChunkKey other m.generation i ≠ key)
    (generation : Generation) (state : Option Stored) :
    readHealthy P L other (Snapshot.commit P L key generation state s).2 = readHealthy P L other s := by
  cases hkey : validateLogicalKey P.keyLimit key with
  | error e =>
    rw [Snapshot.commit, hkey]
  | ok =>
    refine readHealthy_agree (fun hvalid ↦ ?_) fun hvalid m hm i hi ↦ ?_
    · exact commit_contents_of_ne hne.symm (fun j ↦ (chunkKey_ne hvalid _ _ _ _).symm) state s
    · -- a chunk that the other manifest names is neither the key nor a chunk of the key
      have hchunk : ∀ j, manifestChunkKey P other m i ≠ chunkKey P.sha256 key generation.text j :=
        fun j ↦ manifestChunkKey_ne_chunkKey hvalid hm.isHexText (isHexText_text generation) (.inl hsha) i j
      refine commit_contents_of_ne ?_ hchunk state s
      rw [manifestChunkKey]
      split_ifs with hversion
      · exact hv4 m hm hversion i hi
      · exact legacyChunkKey_ne hkey _ _ _ _
      · exact chunkKey_ne hkey _ _ _ _

/-- **Isolation of keys.** Nothing that is done to a key changes what is read under another one, unless
the key itself is a chunk of a version 4 manifest that the other one holds. -/
theorem readHealthy_of_operation {key other : Str} (hne : key ≠ other)
    (hsha : P.sha256 (keyOctets other) ≠ P.sha256 (keyOctets key)) {r : Run}
    (hv4 : ∀ m, HoldsManifest P L r.store.contents other m → m.version = 4 →
      ∀ i < m.chunks, v4ChunkKey other m.generation i ≠ key) (operation : Operation) :
    readHealthy P L other (operation.run P L key r).store = readHealthy P L other r.store := by
  have hcollect : ∀ arguments listing, readHealthy P L other (Snapshot.gc P L key arguments listing r).2.store =
      readHealthy P L other r.store := by
    intro arguments listing
    obtain ⟨attempts, h⟩ := collects_gc P L key arguments listing r
    exact h.read other (.inr hsha)
  cases operation with
  | commit generation state => exact readHealthy_of_commit_other hne hsha hv4 generation state
  | gc arguments listing => exact hcollect arguments listing
  | maintenance arguments listing => exact hcollect arguments listing

/-- A logical key. -/
def agedKey : Str := Py.str "a"

/-- The first chunk of `agedKey` in version 4, which is a logical key as well. -/
def agedChunkKey : Str := v4ChunkKey agedKey sampleGeneration.text 0

/-- SHA-256 at the inputs `x`, the empty text and the two keys. -/
def agedSha256 (b : Bytes) : Hex 64 :=
  if b = ascii "x" then
    ⟨[2, 13, 7, 1, 1, 6, 4, 2, 11, 7, 2, 6, 11, 0, 4, 4, 0, 1, 6, 2, 7, 12, 10, 9, 15, 11, 10, 12, 3, 2,
    15, 5, 12, 8, 5, 3, 0, 15, 11, 1, 9, 0, 3, 12, 12, 4, 13, 11, 0, 2, 2, 5, 8, 7, 1, 7, 9, 2, 1, 10, 4,
    8, 8, 1], rfl⟩
  else if b = [] then
    ⟨[14, 3, 11, 0, 12, 4, 4, 2, 9, 8, 15, 12, 1, 12, 1, 4, 9, 10, 15, 11, 15, 4, 12, 8, 9, 9, 6, 15, 11,
    9, 2, 4, 2, 7, 10, 14, 4, 1, 14, 4, 6, 4, 9, 11, 9, 3, 4, 12, 10, 4, 9, 5, 9, 9, 1, 11, 7, 8, 5, 2,
    11, 8, 5, 5], rfl⟩
  else if b = keyOctets agedKey then
    ⟨[12, 10, 9, 7, 8, 1, 1, 2, 12, 10, 1, 11, 11, 13, 12, 10, 15, 10, 12, 2, 3, 1, 11, 3, 9, 10, 2, 3, 13,
    12, 4, 13, 10, 7, 8, 6, 14, 15, 15, 8, 1, 4, 7, 12, 4, 14, 7, 2, 11, 9, 8, 0, 7, 7, 8, 5, 10, 15, 14,
    14, 4, 8, 11, 11], rfl⟩
  else
    ⟨[7, 11, 0, 6, 7, 11, 1, 11, 14, 1, 0, 15, 3, 15, 9, 2, 3, 15, 1, 11, 5, 10, 15, 1, 0, 3, 9, 1, 4, 14,
    6, 12, 3, 0, 0, 3, 8, 14, 11, 2, 6, 4, 4, 14, 2, 2, 13, 7, 15, 13, 9, 6, 3, 7, 6, 10, 11, 4, 4, 7, 5,
    10, 15, 12], rfl⟩

/-- A manifest of version 4 for the payload `x`. -/
def agedManifest : Bytes :=
  Str.ascii (dumps .compact (.obj [(Py.str "schema", .str manifestSchema), (Py.str "version", .int 4),
    (Py.str "generation", .str sampleGeneration.text), (Py.str "length", .int 1),
    (Py.str "chunk_bytes", .int 1), (Py.str "chunks", .int 1),
    (Py.str "sha256", .str (agedSha256 (ascii "x")).text)]))

/-- A storage without a key limit. -/
def agedPlatform : Platform := ⟨agedSha256, 1000, samplePlatform.one_le_recursionLimit, none⟩

/-- A snapshot of version 4. -/
def agedRun : Run :=
  ⟨⟨fun k ↦ if k = agedKey then some (.bytes agedManifest)
    else if k = agedChunkKey then some (.bytes (ascii "x")) else none, []⟩, [], []⟩

private theorem readHealthy_aged {s : Store} (h : s.contents agedKey = some (.bytes agedManifest)) :
    readHealthy agedPlatform sampleLimits agedKey s =
      (readManifest agedPlatform sampleLimits agedKey
        ⟨4, sampleGeneration.text, 1, 1, 1, (agedSha256 (ascii "x")).text, true⟩ s.healthy).1 := by
  have hkey : validateLogicalKey agedPlatform.keyLimit agedKey = .ok () := by decide
  have hcopy : copyBuffer (some (.bytes agedManifest)) (max sampleLimits.maxBytes maxManifestBytes) =
      .ok agedManifest := by decide +kernel
  have hdecode : decodeManifest agedPlatform.recursionLimit agedManifest =
      .manifest ⟨4, sampleGeneration.text, 1, 1, 1, (agedSha256 (ascii "x")).text, true⟩ := by
    decide +kernel
  rw [readHealthy, Snapshot.read, hkey]
  dsimp only
  rw [readTerminal, retrieve_healthy, h]
  simp only [hcopy, hdecode]

/-- A commit to the logical key that is the chunk of a version 4 snapshot destroys the snapshot. -/
theorem readHealthy_of_operation_aged :
    validateLogicalKey none agedKey = .ok () ∧ validateLogicalKey none agedChunkKey = .ok () ∧
    agedChunkKey ≠ agedKey ∧ agedSha256 (keyOctets agedKey) ≠ agedSha256 (keyOctets agedChunkKey) ∧
    readHealthy agedPlatform sampleLimits agedKey agedRun.store =
      .returned (.ok ⟨true, some (ascii "x"), true, some sampleGeneration.text⟩) ∧
    readHealthy agedPlatform sampleLimits agedKey
        ((Operation.commit sampleGeneration none).run agedPlatform sampleLimits agedChunkKey agedRun).store =
      .returned (.error "Snapshot chunk length validation failed.") := by
  refine ⟨by decide, by decide +kernel, by decide, by decide +kernel, ?_, ?_⟩
  · rw [readHealthy_aged rfl]
    decide +kernel
  · have hkey : validateLogicalKey none agedKey = .ok () := by decide
    have hkept : ((Operation.commit sampleGeneration none).run agedPlatform sampleLimits agedChunkKey
        agedRun).store.contents agedKey = some (.bytes agedManifest) :=
      commit_contents_of_ne (by decide) (fun i ↦ (chunkKey_ne hkey _ _ _ _).symm) none _
    rw [readHealthy_aged hkept]
    decide +kernel

/-- The snapshot survives a commit to another key. -/
theorem readHealthy_of_operation_sample : agedSha256 (keyOctets agedKey) ≠ agedSha256 (keyOctets sampleKey) ∧
    readHealthy agedPlatform sampleLimits agedKey
        ((Operation.commit sampleGeneration none).run agedPlatform sampleLimits sampleKey agedRun).store =
      readHealthy agedPlatform sampleLimits agedKey agedRun.store := by
  have hsha : agedSha256 (keyOctets agedKey) ≠ agedSha256 (keyOctets sampleKey) := by decide +kernel
  have hv4 : ∀ generation i, v4ChunkKey agedKey generation i ≠ sampleKey ++ [] := fun _ _ ↦
    append_ne_append 1 (by decide) (by decide) (by decide) _ _
  exact ⟨hsha, readHealthy_of_operation (by decide) hsha (fun m _ _ i _ ↦ hv4 m.generation i) _⟩

end Snapshot

end ScrapyExtension
