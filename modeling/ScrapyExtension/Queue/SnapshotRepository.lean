import ScrapyExtension.Queue.SnapshotFormat
import ScrapyExtension.Storage.Faulty

/-!
# The snapshot repository

`SnapshotRepository.commit` writes the chunks of a new generation first and the manifest last;
`SnapshotRepository.read` follows the manifest. Every storage call goes through a `Faulty.Storage`,
so the theorems hold for every way the calls may fail.

## Atomicity

A commit changes the storage at the chunk keys of its own generation and, last, at the logical
key. With a fresh generation nothing stored is reached through those chunk keys, so everything a
read of the old value depends on is unchanged until the manifest is written
(`readTerminal_congr`); and the manifest is only written once every chunk has been confirmed, so
from then on a read finds the new state (`readTerminal_committed`).

Leases are not part of this file: they exclude maintenance, not failures.
-/

namespace ScrapyExtension

open Py Json

namespace Snapshot

open Faulty (Result Storage)

/-! ## Stored values -/

/-- What `storage.retrieve` may return, apart from `None`. -/
inductive Stored where
  /-- `bytes` -/
  | bytes (b : Bytes)
  /-- Another byte buffer, a `bytearray` or a `memoryview`. -/
  | buffer (b : Bytes) (contiguous readOnly : Bool)
  /-- A byte buffer of which no view can be taken. -/
  | unviewable
  /-- Anything else. -/
  | object
deriving DecidableEq

/-- The storage of the repository. -/
abbrev Store := Storage Str Stored

/-- The reasons for which a buffer is refused. -/
inductive BufferError where
  /-- `_BUFFER_INVALID` -/
  | invalid
  /-- `_BUFFER_NONCONTIGUOUS` -/
  | noncontiguous
  /-- `_BUFFER_MUTABLE` -/
  | mutable
  /-- `_BUFFER_CONVERSION_FAILED` -/
  | conversionFailed
  /-- `_BUFFER_OVERSIZED` -/
  | oversized
deriving DecidableEq

/-- `_copy_buffer`. A view is read-only in the sense of the code if its root exporter is
`bytes`. -/
def copyBuffer (value : Option Stored) (maximum : ℕ) : Except BufferError Bytes :=
  match value with
  | none | some .object => .error .invalid
  | some .unviewable => .error .conversionFailed
  | some (.bytes b) => if maximum < b.length then .error .oversized else .ok b
  | some (.buffer b contiguous readOnly) =>
    if maximum < b.length then .error .oversized
    else if ¬ contiguous then .error .noncontiguous
    else if ¬ readOnly then .error .mutable
    else .ok b

@[simp] theorem copyBuffer_bytes {b : Bytes} {maximum : ℕ} (h : b.length ≤ maximum) :
    copyBuffer (some (.bytes b)) maximum = .ok b := if_neg (not_lt.mpr h)

/-- What a repository depends on besides its storage contents. -/
structure Platform where
  /-- SHA-256 -/
  sha256 : Sha256
  /-- How deep `json.loads` may recurse. -/
  recursionLimit : ℕ
  one_le_recursionLimit : 1 ≤ recursionLimit
  /-- `_BACKEND_LOGICAL_KEY_LIMITS` for the storage's backend type. -/
  keyLimit : Option ℕ

/-! ## Guarded calls -/

/-- `_retrieve`: `none` is an ordinary failure. -/
def retrieve (key : Str) (s : Store) : Result (Option (Option Stored)) × Store :=
  match s.retrieve key with
  | (.returned value, s) => (.returned (some value), s)
  | (.raised, s) => (.returned none, s)
  | (.interrupted, s) => (.interrupted, s)

/-- `_store`: an ordinary failure is checked by one read. -/
def store (key : Str) (value : Bytes) (s : Store) : Result Bool × Store :=
  match s.store key (.bytes value) with
  | (.returned _, s) => (.returned true, s)
  | (.interrupted, s) => (.interrupted, s)
  | (.raised, s) =>
    match retrieve key s with
    | (.returned (some observed), s) =>
      (.returned (decide (copyBuffer observed value.length = .ok value)), s)
    | (.returned none, s) => (.returned false, s)
    | (.raised, s) => (.raised, s)
    | (.interrupted, s) => (.interrupted, s)

/-! ## Reading -/

/-- `SnapshotRead` -/
structure SnapshotRead where
  /-- `found` -/
  found : Bool
  /-- `state` -/
  state : Option Bytes
  /-- `manifest` -/
  manifest : Bool
  /-- `generation` -/
  generation : Option Str
deriving DecidableEq

variable (P : Platform) (L : Limits)

/-- The key of a chunk under a manifest's version. -/
def manifestChunkKey (key : Str) (m : Manifest) (index : ℕ) : Str :=
  if m.version = 4 then v4ChunkKey key m.generation index
  else if m.version = 5 ∨ m.version = 6 then legacyChunkKey P.sha256 key m.generation index
  else chunkKey P.sha256 key m.generation index

/-- The messages for a chunk that cannot be copied. -/
def chunkBufferMessage : BufferError → String
  | .invalid => "Snapshot chunk is missing or invalid."
  | .noncontiguous => "Snapshot chunk is not contiguous."
  | .mutable => "Snapshot chunk is mutable."
  | .oversized => "Snapshot chunk length validation failed."
  | .conversionFailed => "Snapshot chunk conversion failed."

/-- The messages for a manifest that cannot be copied. -/
def manifestBufferMessage : BufferError → String
  | .invalid => "Snapshot manifest has an invalid type."
  | .noncontiguous => "Snapshot manifest is not contiguous."
  | .mutable => "Snapshot manifest is mutable."
  | .oversized => "Snapshot exceeds the configured size limit."
  | .conversionFailed => "Snapshot manifest conversion failed."

/-- The loop that assembles the chunks, from a list of indices on. -/
def readChunks (key : Str) (m : Manifest) :
    List ℕ → Store → Result (Except String Bytes) × Store
  | [], s => (.returned (.ok []), s)
  | index :: indices, s =>
    match retrieve (manifestChunkKey P key m index) s with
    | (.returned none, s) => (.returned (.error "Snapshot chunk retrieval failed."), s)
    | (.returned (some chunk), s) =>
      let expected := min m.chunkBytes (m.length - index * m.chunkBytes)
      match copyBuffer chunk expected with
      | .error e => (.returned (.error (chunkBufferMessage e)), s)
      | .ok copied =>
        if copied.length ≠ expected then
          (.returned (.error "Snapshot chunk length validation failed."), s)
        else
          match readChunks key m indices s with
          | (.returned (.ok rest), s) => (.returned (.ok (copied ++ rest)), s)
          | (.returned (.error e), s) => (.returned (.error e), s)
          | (.raised, s) => (.raised, s)
          | (.interrupted, s) => (.interrupted, s)
    | (.raised, s) => (.raised, s)
    | (.interrupted, s) => (.interrupted, s)

/-- `empty_state`: a manifest of length zero distinguishes no state from an empty one. -/
def Manifest.emptyState (m : Manifest) : Option Bytes := if m.statePresent then some [] else none

/-- The part of `_read_terminal` that follows a manifest. -/
def readManifest (key : Str) (m : Manifest) (s : Store) :
    Result (Except String SnapshotRead) × Store :=
  if L.maxBytes < m.length ∨ L.chunkBytes < m.chunkBytes ∨
      m.chunkBytes < minimumChunkBytes L.maxBytes ∨ maxSnapshotChunks < m.chunks then
    (.returned (.error "Snapshot exceeds the configured size limit."), s)
  else if m.length = 0 then
    if m.checksum ≠ (P.sha256 []).text then
      (.returned (.error "Snapshot checksum validation failed."), s)
    else
      (.returned (.ok ⟨true, m.emptyState, true, some m.generation⟩), s)
  else
    match readChunks P key m (List.range m.chunks) s with
    | (.returned (.ok state), s) =>
      if state.length ≠ m.length then
        (.returned (.error "Snapshot length validation failed."), s)
      else if (P.sha256 state).text ≠ m.checksum then
        (.returned (.error "Snapshot checksum validation failed."), s)
      else (.returned (.ok ⟨true, some state, true, some m.generation⟩), s)
    | (.returned (.error e), s) => (.returned (.error e), s)
    | (.raised, s) => (.raised, s)
    | (.interrupted, s) => (.interrupted, s)

/-- `_read_terminal` -/
def readTerminal (key : Str) (s : Store) : Result (Except String SnapshotRead) × Store :=
  match retrieve key s with
  | (.returned none, s) => (.returned (.error "Snapshot manifest retrieval failed."), s)
  | (.returned (some none), s) => (.returned (.ok ⟨false, none, false, none⟩), s)
  | (.returned (some value), s) =>
    match copyBuffer value (max L.maxBytes maxManifestBytes) with
    | .error e => (.returned (.error (manifestBufferMessage e)), s)
    | .ok raw =>
      match decodeManifest P.recursionLimit raw with
      | .failure e => (.returned (.error e), s)
      | .raw =>
        if L.maxBytes < raw.length then
          (.returned (.error "Snapshot exceeds the configured size limit."), s)
        else (.returned (.ok ⟨true, some raw, false, none⟩), s)
      | .manifest m => readManifest P L key m s
  | (.raised, s) => (.raised, s)
  | (.interrupted, s) => (.interrupted, s)

/-- `read`: an error message is that of the `SnapshotRepositoryError`. -/
def read (key : Str) (s : Store) : Result (Except String SnapshotRead) × Store :=
  match validateLogicalKey P.keyLimit key with
  | .error e => (.returned (.error e), s)
  | .ok () => readTerminal P L key s

/-- What a failure-free `read` yields. -/
def readHealthy (key : Str) (s : Store) : Result (Except String SnapshotRead) :=
  (read P L key s.healthy).1

/-! ## Committing -/

/-- One chunk of a payload. -/
def chunkAt (payload : Bytes) (chunkBytes index : ℕ) : Bytes :=
  (payload.drop (index * chunkBytes)).take chunkBytes

/-- The loop that stores the chunks, from a list of indices on. -/
def storeChunks (key generation : Str) (payload : Bytes) : List ℕ → Store → Result Bool × Store
  | [], s => (.returned true, s)
  | index :: indices, s =>
    match store (chunkKey P.sha256 key generation index)
        (chunkAt payload L.chunkBytes index) s with
    | (.returned true, s) => storeChunks key generation payload indices s
    | (.returned false, s) => (.returned false, s)
    | (.raised, s) => (.raised, s)
    | (.interrupted, s) => (.interrupted, s)

/-- The manifest of a new generation. -/
def newManifest (generation : Generation) (payload : Bytes) (statePresent : Bool) : Manifest where
  version := manifestVersion
  generation := generation.text
  length := payload.length
  chunkBytes := L.chunkBytes
  chunks := chunkCount payload.length L.chunkBytes
  checksum := (P.sha256 payload).text
  statePresent := statePresent

/-- The part of `_commit_terminal` that writes. -/
def commitPayload (key : Str) (generation : Generation) (payload : Bytes) (statePresent : Bool)
    (s : Store) : Result (Except String Unit) × Store :=
  match storeChunks P L key generation.text payload
      (List.range (chunkCount payload.length L.chunkBytes)) s with
  | (.returned true, s) =>
    match store key (encodeManifest (newManifest P L generation payload statePresent)) s with
    | (.returned true, s) => (.returned (.ok ()), s)
    | (.returned false, s) => (.returned (.error "Snapshot manifest write failed."), s)
    | (.raised, s) => (.raised, s)
    | (.interrupted, s) => (.interrupted, s)
  | (.returned false, s) => (.returned (.error "Snapshot chunk write failed."), s)
  | (.raised, s) => (.raised, s)
  | (.interrupted, s) => (.interrupted, s)

/-- `_commit_terminal`. Only `bytes` passes the type check, so of the buffer errors the size is
the only one left. -/
def commitTerminal (key : Str) (generation : Generation) (state : Option Stored) (s : Store) :
    Result (Except String Unit) × Store :=
  match state with
  | none => commitPayload P L key generation [] false s
  | some (.bytes b) =>
    match copyBuffer (some (.bytes b)) L.maxBytes with
    | .error _ => (.returned (.error "Snapshot exceeds the configured size limit."), s)
    | .ok payload => commitPayload P L key generation payload true s
  | some _ => (.returned (.error "Strategy snapshot has an invalid type."), s)

/-- `commit`: an error message is that of the `SnapshotRepositoryError`. -/
def commit (key : Str) (generation : Generation) (state : Option Stored) (s : Store) :
    Result (Except String Unit) × Store :=
  match validateLogicalKey P.keyLimit key with
  | .error e => (.returned (.error e), s)
  | .ok () => commitTerminal P L key generation state s

/-! ## What the calls do -/

variable {P L}

/-- A stored value that is copied as `b`. -/
def Holds (value : Option Stored) (b : Bytes) : Prop := copyBuffer value b.length = .ok b

private theorem holds_bytes (b : Bytes) : Holds (some (.bytes b)) b := copyBuffer_bytes le_rfl

/-- A copied value is there. -/
private theorem ne_none_of_copyBuffer {value : Option Stored} {maximum : ℕ} {b : Bytes}
    (h : copyBuffer value maximum = .ok b) : value ≠ none := by
  rintro rfl
  cases h

/-- A larger bound copies the same. -/
private theorem Holds.copyBuffer_eq {value : Option Stored} {b : Bytes} (h : Holds value b)
    {maximum : ℕ} (hmax : b.length ≤ maximum) : copyBuffer value maximum = .ok b := by
  rw [Holds] at h
  match value, h with
  | some (.bytes c), h =>
    rw [copyBuffer] at h ⊢
    split_ifs at h with hc
    obtain rfl : c = b := Except.ok.inj h
    exact if_neg (not_lt.mpr hmax)
  | some (.buffer c contiguous readOnly), h =>
    rw [copyBuffer] at h ⊢
    split_ifs at h with h₁ h₂ h₃
    obtain rfl : c = b := Except.ok.inj h
    rw [if_neg (not_lt.mpr hmax), if_neg (not_not.mpr h₂), if_neg (not_not.mpr h₃)]

theorem retrieve_healthy (key : Str) (s : Store) :
    retrieve key s.healthy = (.returned (some (s.contents key)), s.healthy) := by
  rw [retrieve, Storage.retrieve_of_script_nil rfl]
  rfl

theorem retrieve_contents (key : Str) (s : Store) :
    (retrieve key s).2.contents = s.contents := by
  have h := Storage.retrieve_contents key s
  rw [retrieve]
  split <;> simp_all

theorem retrieve_returned {key : Str} {s : Store} {o : Option Stored}
    (h : (retrieve key s).1 = .returned (some o)) : o = s.contents key := by
  rw [retrieve] at h
  split at h
  · next value t hr =>
    obtain rfl : value = o := Option.some.inj (Result.returned.inj h)
    exact Storage.retrieve_returned (by rw [hr])
  · cases h
  · cases h

/-- `_store` leaves the storage as it was or stores the value, and when it reports success the
value is there: because the call returned, or because the read after it found it. -/
private theorem store_spec (key : Str) (value : Bytes) (s : Store) :
    ((store key value s).2.contents = s.contents ∨
      (store key value s).2.contents = Function.update s.contents key (some (.bytes value))) ∧
    ((store key value s).1 = .returned true → Holds ((store key value s).2.contents key) value) := by
  have hcall := s.call_cases () (Function.update s.contents key (some (.bytes value)))
  rw [store]
  split
  · next _ t hr =>
    rw [Storage.store] at hr
    rw [hr] at hcall
    have ht : t.contents = Function.update s.contents key (some (.bytes value)) := by
      rcases hcall with ⟨-, h⟩ | ⟨h | h, -⟩
      · exact h
      · cases h
      · cases h
    refine ⟨.inr ht, fun _ ↦ ?_⟩
    rw [ht, Function.update_self]
    exact holds_bytes value
  · next t hr =>
    rw [Storage.store] at hr
    rw [hr] at hcall
    refine ⟨?_, fun h ↦ by cases h⟩
    rcases hcall with ⟨-, h⟩ | ⟨-, h | h⟩
    · exact .inr h
    · exact .inr h
    · exact .inl h
  · next t hr =>
    rw [Storage.store] at hr
    rw [hr] at hcall
    have ht : t.contents = s.contents ∨
        t.contents = Function.update s.contents key (some (.bytes value)) := by
      rcases hcall with ⟨-, h⟩ | ⟨-, h | h⟩
      · exact .inr h
      · exact .inr h
      · exact .inl h
    have hback := retrieve_contents key t
    split
    · next observed u hu =>
      rw [hu] at hback
      have hobserved : observed = t.contents key := retrieve_returned (by rw [hu])
      refine ⟨hback ▸ ht, fun htrue ↦ ?_⟩
      have hcopy := of_decide_eq_true (Result.returned.inj htrue)
      rw [hback, ← hobserved]
      exact hcopy
    · next u hu =>
      rw [hu] at hback
      exact ⟨hback ▸ ht, fun h ↦ by cases h⟩
    · next u hu =>
      rw [hu] at hback
      exact ⟨hback ▸ ht, fun h ↦ by cases h⟩
    · next u hu =>
      rw [hu] at hback
      exact ⟨hback ▸ ht, fun h ↦ by cases h⟩

theorem store_contents_of_ne {key k : Str} (hne : k ≠ key) (value : Bytes) (s : Store) :
    (store key value s).2.contents k = s.contents k := by
  rcases (store_spec key value s).1 with h | h
  · rw [h]
  · rw [h, Function.update_of_ne hne]

private theorem store_of_script_nil (key : Str) (value : Bytes) {s : Store} (hs : s.script = []) :
    (store key value s).1 = .returned true ∧ (store key value s).2.script = [] := by
  rw [store, Storage.store_of_script_nil hs]
  exact ⟨rfl, rfl⟩

/-! ## The chunks of a payload -/

private theorem flatMap_chunkAt (payload : Bytes) (chunkBytes n : ℕ) :
    (List.range n).flatMap (chunkAt payload chunkBytes) = payload.take (n * chunkBytes) := by
  induction n with
  | zero => simp
  | succ n ih =>
    rw [List.range_succ, List.flatMap_append, ih, List.flatMap_singleton, chunkAt, Nat.succ_mul,
      List.take_add]

private theorem le_chunkCount_mul {length chunkBytes : ℕ} (hpos : 0 < chunkBytes) :
    length ≤ chunkCount length chunkBytes * chunkBytes := by
  have hdiv := Nat.lt_div_mul_add (a := length + chunkBytes - 1) hpos
  rw [chunkCount]
  omega

/-- The chunks, in order, are the payload. -/
private theorem flatMap_chunkAt_eq (payload : Bytes) {chunkBytes : ℕ} (hpos : 0 < chunkBytes) :
    (List.range (chunkCount payload.length chunkBytes)).flatMap (chunkAt payload chunkBytes) =
      payload := by
  rw [flatMap_chunkAt, List.take_of_length_le (le_chunkCount_mul hpos)]

private theorem length_chunkAt (payload : Bytes) (chunkBytes index : ℕ) :
    (chunkAt payload chunkBytes index).length =
      min chunkBytes (payload.length - index * chunkBytes) := by
  rw [chunkAt, List.length_take, List.length_drop]

variable {key : Str} {generation : Generation} {payload : Bytes}

/-- Storing chunks touches only their keys. -/
private theorem storeChunks_contents (indices : List ℕ) (s : Store) {k : Str}
    (hk : ∀ i ∈ indices, k ≠ chunkKey P.sha256 key generation.text i) :
    (storeChunks P L key generation.text payload indices s).2.contents k = s.contents k := by
  induction indices generalizing s with
  | nil => rfl
  | cons index indices ih =>
    have hstore := store_contents_of_ne (hk index List.mem_cons_self)
      (chunkAt payload L.chunkBytes index) s
    rw [storeChunks]
    split <;> rename_i t ht <;> rw [ht] at hstore
    · rw [ih t fun i hi ↦ hk i (List.mem_cons_of_mem index hi), hstore]
    all_goals exact hstore

/-- Once every chunk was confirmed, every chunk is there: storing one leaves those stored before
it alone, because their keys differ. -/
private theorem holds_of_storeChunks {indices : List ℕ} (hnodup : indices.Nodup) {s t : Store}
    (h : storeChunks P L key generation.text payload indices s = (.returned true, t)) :
    ∀ i ∈ indices, Holds (t.contents (chunkKey P.sha256 key generation.text i))
      (chunkAt payload L.chunkBytes i) := by
  induction indices generalizing s with
  | nil => exact fun i hi ↦ absurd hi List.not_mem_nil
  | cons index indices ih =>
    obtain ⟨hnew, hnodup⟩ := List.nodup_cons.mp hnodup
    have hspec := (store_spec (chunkKey P.sha256 key generation.text index)
      (chunkAt payload L.chunkBytes index) s).2
    rw [storeChunks] at h
    split at h <;> rename_i u hu <;> rw [hu] at hspec
    · intro i hi
      rcases List.mem_cons.mp hi with rfl | hi
      · have hkeep : (storeChunks P L key generation.text payload indices u).2.contents
            (chunkKey P.sha256 key generation.text i) =
            u.contents (chunkKey P.sha256 key generation.text i) :=
          storeChunks_contents indices u fun j hj heq ↦
            hnew (chunkKey_injective _ _ _ heq ▸ hj)
        rw [h] at hkeep
        rw [hkeep]
        exact hspec rfl
      · exact ih hnodup h i hi
    all_goals cases h

private theorem storeChunks_of_script_nil (P : Platform) (L : Limits) (key : Str)
    (generation : Generation) (payload : Bytes) (indices : List ℕ) {s : Store}
    (hs : s.script = []) :
    (storeChunks P L key generation.text payload indices s).1 = .returned true ∧
      (storeChunks P L key generation.text payload indices s).2.script = [] := by
  induction indices generalizing s with
  | nil => exact ⟨rfl, hs⟩
  | cons index indices ih =>
    obtain ⟨hr, hscript⟩ := store_of_script_nil (chunkKey P.sha256 key generation.text index)
      (chunkAt payload L.chunkBytes index) hs
    rw [storeChunks]
    split <;> rename_i t ht <;> rw [ht] at hr hscript
    · exact ih hscript
    all_goals cases hr

/-! ## Outcomes of a commit -/

/-- The storage is unchanged except at chunk keys of the new generation. -/
private def Untouched (P : Platform) (key : Str) (generation : Generation) (s t : Store) : Prop :=
  ∀ k, (∀ i, k ≠ chunkKey P.sha256 key generation.text i) → t.contents k = s.contents k

/-- The new generation is complete: every chunk and the manifest are there. -/
private def Complete (P : Platform) (L : Limits) (key : Str) (generation : Generation)
    (payload : Bytes) (statePresent : Bool) (t : Store) : Prop :=
  (∀ i ∈ List.range (chunkCount payload.length L.chunkBytes),
    Holds (t.contents (chunkKey P.sha256 key generation.text i))
      (chunkAt payload L.chunkBytes i)) ∧
  Holds (t.contents key) (encodeManifest (newManifest P L generation payload statePresent))

/-- However the calls come out, the commit has not touched the old snapshot or has completed the
new one, and if it returns normally it has completed it. -/
private theorem commitPayload_spec (hkey : validateLogicalKey P.keyLimit key = .ok ())
    (L : Limits) (generation : Generation) (payload : Bytes) (statePresent : Bool) (s : Store) :
    (Untouched P key generation s (commitPayload P L key generation payload statePresent s).2 ∨
      Complete P L key generation payload statePresent
        (commitPayload P L key generation payload statePresent s).2) ∧
    ((commitPayload P L key generation payload statePresent s).1 = .returned (.ok ()) →
      Complete P L key generation payload statePresent
        (commitPayload P L key generation payload statePresent s).2) := by
  have hframe : Untouched P key generation s (storeChunks P L key generation.text payload
      (List.range (chunkCount payload.length L.chunkBytes)) s).2 := fun k hk ↦
    storeChunks_contents _ s fun i _ ↦ hk i
  rw [commitPayload]
  split
  · next t ht =>
    have hchunks := holds_of_storeChunks List.nodup_range ht
    rw [ht] at hframe
    have hspec := store_spec key
      (encodeManifest (newManifest P L generation payload statePresent)) t
    -- the manifest call leaves the chunks alone, because a chunk key is no logical key
    have hother : ∀ k ≠ key, (store key
        (encodeManifest (newManifest P L generation payload statePresent)) t).2.contents k =
        t.contents k := fun k hk ↦ store_contents_of_ne hk _ t
    have hcomplete : ∀ u : Store, (∀ k ≠ key, u.contents k = t.contents k) →
        Holds (u.contents key)
          (encodeManifest (newManifest P L generation payload statePresent)) →
        Complete P L key generation payload statePresent u := by
      intro u hu hmanifest
      refine ⟨fun i hi ↦ ?_, hmanifest⟩
      rw [hu _ (chunkKey_ne hkey _ _ _ _)]
      exact hchunks i hi
    have heither : ∀ u : Store, (∀ k ≠ key, u.contents k = t.contents k) →
        (u.contents = t.contents ∨ u.contents = Function.update t.contents key
          (some (.bytes (encodeManifest (newManifest P L generation payload statePresent))))) →
        Untouched P key generation s u ∨
          Complete P L key generation payload statePresent u := by
      rintro u hu (hsame | hupdate)
      · refine .inl fun k hk ↦ ?_
        rw [hsame]
        exact hframe k hk
      · refine .inr (hcomplete u hu ?_)
        rw [hupdate, Function.update_self]
        exact holds_bytes _
    split <;> rename_i u hu <;> rw [hu] at hspec hother
    · exact ⟨.inr (hcomplete u hother (hspec.2 rfl)), fun _ ↦ hcomplete u hother (hspec.2 rfl)⟩
    all_goals exact ⟨heither u hother hspec.1, fun h ↦ by cases h⟩
  all_goals
    rename_i t ht
    rw [ht] at hframe
    exact ⟨.inl hframe, fun h ↦ by cases h⟩

/-! ## Reading an untouched snapshot -/

/-- Every key outside the new generation, and every key that holds something, reads the same. -/
private theorem Untouched.contents_eq {s t : Store} (h : Untouched P key generation s t)
    (hfresh : ∀ i, s.contents (chunkKey P.sha256 key generation.text i) = none) {k : Str}
    (hk : s.contents k ≠ none) : t.contents k = s.contents k := by
  refine h k fun i heq ↦ hk ?_
  rw [heq]
  exact hfresh i

private theorem readChunks_congr {s t : Store} {m : Manifest} {indices : List ℕ} {b : Bytes}
    {u : Store} (hsame : ∀ k, s.contents k ≠ none → t.contents k = s.contents k)
    (h : readChunks P key m indices s.healthy = (.returned (.ok b), u)) :
    readChunks P key m indices t.healthy = (.returned (.ok b), t.healthy) := by
  induction indices generalizing b u with
  | nil =>
    rw [readChunks] at h ⊢
    obtain ⟨rfl, -⟩ : b = [] ∧ s.healthy = u := by simpa [eq_comm] using h
    rfl
  | cons index indices ih =>
    rw [readChunks, retrieve_healthy] at h
    simp only at h
    split at h
    · simp at h
    · next copied hcopy =>
      split_ifs at h with hlen
      · simp at h
      · have hread : t.contents (manifestChunkKey P key m index) =
            s.contents (manifestChunkKey P key m index) := hsame _ (ne_none_of_copyBuffer hcopy)
        split at h
        · next rest v hrest =>
          obtain ⟨rfl, -⟩ : copied ++ rest = b ∧ v = u := by simpa using h
          rw [readChunks, retrieve_healthy, hread]
          simp only [hcopy, if_neg hlen, ih hrest]
        all_goals simp at h

private theorem readManifest_congr {s t : Store} {m : Manifest} {r : SnapshotRead} {u : Store}
    (hsame : ∀ k, s.contents k ≠ none → t.contents k = s.contents k)
    (h : readManifest P L key m s.healthy = (.returned (.ok r), u)) :
    readManifest P L key m t.healthy = (.returned (.ok r), t.healthy) := by
  rw [readManifest] at h ⊢
  split_ifs at h with h₁ h₂ h₃
  · simp at h
  · simp at h
  · obtain ⟨rfl, -⟩ : _ = r ∧ _ = u := by simpa using h
    rw [if_neg h₁, if_pos h₂, if_neg h₃]
  · split at h
    · next state v hstate =>
      split_ifs at h with h₄ h₅
      · simp at h
      · simp at h
      · obtain ⟨rfl, -⟩ : _ = r ∧ _ = u := by simpa using h
        rw [if_neg h₁, if_neg h₂, readChunks_congr hsame hstate]
        simp only [if_neg h₄, if_neg h₅]
    all_goals simp at h

/-- A snapshot whose manifest and chunks are all still there reads as before. -/
private theorem readHealthy_congr {s t : Store} {r : SnapshotRead}
    (hsame : ∀ k, s.contents k ≠ none → t.contents k = s.contents k)
    (hkey : t.contents key = s.contents key) (h : readHealthy P L key s = .returned (.ok r)) :
    readHealthy P L key t = .returned (.ok r) := by
  rw [readHealthy, read] at h ⊢
  split at h
  · simp at h
  · rw [readTerminal, retrieve_healthy] at h ⊢
    rw [hkey]
    cases hvalue : s.contents key with
    | none =>
      rw [hvalue] at h
      exact h
    | some value =>
      rw [hvalue] at h
      simp only at h ⊢
      split at h
      · simp at h
      · split at h
        · simp at h
        · split_ifs at h with hlen
          · simp at h
          · rw [if_neg hlen]
            exact h
        · next m hm =>
          have hmanifest : readManifest P L key m s.healthy =
              (.returned (.ok r), (readManifest P L key m s.healthy).2) := Prod.ext h rfl
          rw [readManifest_congr hsame hmanifest]

/-! ## Reading a completed snapshot -/

private theorem hexDigit_isHex (d : Fin 16) :
    (isDigit (hexDigit d) || (97 ≤ (hexDigit d).val && (hexDigit d).val ≤ 102)) = true := by
  revert d
  decide

theorem isHexText_text {n : ℕ} (x : Hex n) : isHexText n x.text = true := by
  simp only [isHexText, Hex.text, List.length_map, List.Vector.toList_length, decide_true,
    Bool.true_and, List.all_map, List.all_eq_true]
  exact fun d _ ↦ hexDigit_isHex d

/-- What `commit` writes is a committable manifest. -/
private theorem newManifest_committable (hlen : payload.length ≤ L.maxBytes) {statePresent : Bool}
    (hnone : statePresent = false → payload = []) :
    (newManifest P L generation payload statePresent).Committable where
  version := rfl
  generation := isHexText_text generation
  checksum := isHexText_text _
  length_le := by
    have hcount := L.chunkCount_le hlen
    calc payload.length ≤ chunkCount payload.length L.chunkBytes * L.chunkBytes :=
          le_chunkCount_mul L.chunkBytes_pos
      _ ≤ maxSnapshotChunks * maxSnapshotChunkBytes := Nat.mul_le_mul hcount L.chunk_le
  chunkBytes_pos := L.chunkBytes_pos
  chunkBytes_le := L.chunk_le
  chunks := rfl
  chunks_le := L.chunkCount_le hlen
  none_empty := fun hp ↦ by rw [newManifest, hnone hp]; rfl

private theorem readChunks_complete {t : Store} {statePresent : Bool} {indices : List ℕ}
    (hchunks : ∀ i ∈ indices, Holds (t.contents (chunkKey P.sha256 key generation.text i))
      (chunkAt payload L.chunkBytes i)) :
    readChunks P key (newManifest P L generation payload statePresent) indices t.healthy =
      (.returned (.ok (indices.flatMap (chunkAt payload L.chunkBytes))), t.healthy) := by
  induction indices with
  | nil => rfl
  | cons index indices ih =>
    have hhead := hchunks index List.mem_cons_self
    have hrest := ih fun i hi ↦ hchunks i (List.mem_cons_of_mem index hi)
    have hchunkKey : manifestChunkKey P key (newManifest P L generation payload statePresent)
        index = chunkKey P.sha256 key generation.text index := by
      have hversion : (newManifest P L generation payload statePresent).version =
          manifestVersion := rfl
      rw [manifestChunkKey, hversion, if_neg (by decide), if_neg (by decide)]
      rfl
    have hlen := length_chunkAt payload L.chunkBytes index
    rw [Holds, hlen] at hhead
    rw [readChunks, retrieve_healthy, hchunkKey]
    simp only [newManifest] at hrest ⊢
    simp only [hhead, hlen, hrest, ne_eq, not_true_eq_false, if_false, List.flatMap_cons]

/-- A completed generation reads as the committed state. -/
private theorem readHealthy_complete {t : Store} {statePresent : Bool}
    (hkey : validateLogicalKey P.keyLimit key = .ok ()) (hlen : payload.length ≤ L.maxBytes)
    (hnone : statePresent = false → payload = [])
    (h : Complete P L key generation payload statePresent t) :
    readHealthy P L key t = .returned (.ok
      ⟨true, if statePresent then some payload else none, true, some generation.text⟩) := by
  obtain ⟨hchunks, hmanifest⟩ := h
  have hcommittable : (newManifest P L generation payload statePresent).Committable :=
    newManifest_committable hlen hnone
  have hbound := (length_encodeManifest_le hcommittable).trans
    (le_max_right L.maxBytes maxManifestBytes)
  have hcopy := hmanifest.copyBuffer_eq hbound
  have hread : readChunks P key (newManifest P L generation payload statePresent)
      (List.range (chunkCount payload.length L.chunkBytes)) t.healthy =
      (.returned (.ok payload), t.healthy) := by
    rw [readChunks_complete hchunks, flatMap_chunkAt_eq payload L.chunkBytes_pos]
  obtain ⟨value, hvalue⟩ := Option.ne_none_iff_exists'.mp (ne_none_of_copyBuffer hmanifest)
  rw [hvalue] at hcopy
  rw [readHealthy, read, hkey]
  simp only
  rw [readTerminal, retrieve_healthy, hvalue]
  simp only [hcopy, decodeManifest_encodeManifest P.one_le_recursionLimit hcommittable]
  have hlength : (newManifest P L generation payload statePresent).length = payload.length := rfl
  have hchunks' : (newManifest P L generation payload statePresent).chunks =
      chunkCount payload.length L.chunkBytes := rfl
  have hchunkBytes : (newManifest P L generation payload statePresent).chunkBytes =
      L.chunkBytes := rfl
  have hchecksum : (newManifest P L generation payload statePresent).checksum =
      (P.sha256 payload).text := rfl
  have hpresent : (newManifest P L generation payload statePresent).statePresent =
      statePresent := rfl
  have hgeneration : (newManifest P L generation payload statePresent).generation =
      generation.text := rfl
  generalize newManifest P L generation payload statePresent = m at *
  have hlimits : ¬(L.maxBytes < m.length ∨ L.chunkBytes < m.chunkBytes ∨
      m.chunkBytes < minimumChunkBytes L.maxBytes ∨ maxSnapshotChunks < m.chunks) := by
    have h₁ := L.minimum_le
    have h₂ := L.chunkCount_le hlen
    omega
  rw [readManifest, if_neg hlimits, hchecksum, hgeneration, hchunks', hread]
  by_cases hzero : m.length = 0
  · obtain rfl : payload = [] := List.length_eq_zero_iff.mp (hlength.symm.trans hzero)
    rw [if_pos hzero, if_neg (not_not.mpr rfl), Manifest.emptyState, hpresent]
  · have hstate : statePresent = true := by
      by_contra hp
      exact hzero (by rw [hlength, hnone (by simpa using hp)]; rfl)
    rw [if_neg hzero]
    simp [hstate, hlength]

/-- **Crash atomicity.** Let `key` be readable and `generation` be fresh: nothing is stored under
its chunk keys. However the storage calls of a commit come out, a failure-free read of `key`
afterwards yields the old snapshot or exactly the new state, an absent one and an empty one being
different; if the commit returned normally it yields the new state; and a commit whose calls all
succeed returns normally. -/
theorem commit_atomic {s : Store} {old : SnapshotRead}
    (hfresh : ∀ i, s.contents (chunkKey P.sha256 key generation.text i) = none)
    (hold : readHealthy P L key s = .returned (.ok old)) (state : Option Bytes)
    (hstate : ∀ b ∈ state, b.length ≤ L.maxBytes) :
    (readHealthy P L key (commit P L key generation (state.map .bytes) s).2 =
        .returned (.ok old) ∨
      readHealthy P L key (commit P L key generation (state.map .bytes) s).2 =
        .returned (.ok ⟨true, state, true, some generation.text⟩)) ∧
    ((commit P L key generation (state.map .bytes) s).1 = .returned (.ok ()) →
      readHealthy P L key (commit P L key generation (state.map .bytes) s).2 =
        .returned (.ok ⟨true, state, true, some generation.text⟩)) ∧
    (s.script = [] → (commit P L key generation (state.map .bytes) s).1 = .returned (.ok ())) := by
  have hkey : validateLogicalKey P.keyLimit key = .ok () := by
    rw [readHealthy, read] at hold
    split at hold
    · simp at hold
    · next hkey => exact hkey
  -- the state as `commitPayload` sees it
  obtain ⟨payload, statePresent, hlen, hnone, hpayload, hcommit⟩ : ∃ payload statePresent,
      payload.length ≤ L.maxBytes ∧ (statePresent = false → payload = []) ∧
      state = (if statePresent = true then some payload else none) ∧
      commit P L key generation (state.map .bytes) s =
        commitPayload P L key generation payload statePresent s := by
    cases state with
    | none =>
      refine ⟨[], false, Nat.zero_le _, fun _ ↦ rfl, rfl, ?_⟩
      rw [commit, hkey]
      rfl
    | some b =>
      have hb := hstate b rfl
      refine ⟨b, true, hb, (fun h ↦ by cases h), rfl, ?_⟩
      rw [commit, hkey]
      simp only [Option.map_some, commitTerminal, copyBuffer_bytes hb]
  have hspec := commitPayload_spec hkey L generation payload statePresent s
  rw [hcommit, hpayload]
  have hnew : Complete P L key generation payload statePresent
      (commitPayload P L key generation payload statePresent s).2 → _ :=
    readHealthy_complete hkey hlen hnone
  refine ⟨?_, fun hok ↦ hnew (hspec.2 hok), ?_⟩
  · rcases hspec.1 with huntouched | hcomplete
    · have hown := huntouched key fun i ↦ (chunkKey_ne hkey _ _ _ i).symm
      exact .inl (readHealthy_congr (fun k hk ↦ huntouched.contents_eq hfresh hk) hown hold)
    · exact .inr (hnew hcomplete)
  · intro hscript
    obtain ⟨hr, hrest⟩ := storeChunks_of_script_nil P L key generation payload
      (List.range (chunkCount payload.length L.chunkBytes)) hscript
    rw [commitPayload]
    split <;> rename_i t ht <;> rw [ht] at hr hrest
    · obtain ⟨hr', -⟩ := store_of_script_nil key
        (encodeManifest (newManifest P L generation payload statePresent)) hrest
      split <;> rename_i u hu <;> rw [hu] at hr'
      all_goals cases hr'
    all_goals cases hr

/-! ## What a queue relies on -/

private theorem readChunks_spec (key : Str) (m : Manifest) (indices : List ℕ) (s : Store) :
    (readChunks P key m indices s).2.contents = s.contents ∧
      ∀ b, (readChunks P key m indices s).1 = .returned (.ok b) →
        readChunks P key m indices s.healthy = (.returned (.ok b), s.healthy) := by
  induction indices generalizing s with
  | nil =>
    refine ⟨rfl, fun b hb ↦ ?_⟩
    rw [readChunks] at hb ⊢
    rw [Result.returned.inj hb]
  | cons index indices ih =>
    have hcontents := retrieve_contents (manifestChunkKey P key m index) s
    have hreturned : ∀ o, (retrieve (manifestChunkKey P key m index) s).1 = .returned (some o) →
        o = s.contents (manifestChunkKey P key m index) := fun _ ↦ retrieve_returned
    rw [readChunks, readChunks, retrieve_healthy]
    split
    · next t ht =>
      rw [ht] at hcontents
      exact ⟨hcontents, fun b hb ↦ by cases hb⟩
    · next chunk t ht =>
      rw [ht] at hcontents hreturned
      obtain rfl := hreturned chunk rfl
      dsimp only
      split
      · exact ⟨hcontents, fun b hb ↦ by cases hb⟩
      · split
        · exact ⟨hcontents, fun b hb ↦ by cases hb⟩
        · obtain ⟨hrest, hread⟩ := ih t
          have hhealthy : t.healthy = s.healthy := by rw [Storage.healthy, hcontents]; rfl
          rw [hhealthy] at hread
          split
          · next rest u hu =>
            rw [hu] at hrest hread
            refine ⟨hrest.trans hcontents, fun b hb ↦ ?_⟩
            rw [hread rest rfl]
            dsimp only
            rw [Except.ok.inj (Result.returned.inj hb)]
          all_goals
            rename_i u hu
            rw [hu] at hrest
            exact ⟨hrest.trans hcontents, fun b hb ↦ by cases hb⟩
    all_goals
      rename_i t ht
      rw [ht] at hcontents
      exact ⟨hcontents, fun b hb ↦ by cases hb⟩

private theorem readManifest_spec (key : Str) (m : Manifest) (s : Store) :
    (readManifest P L key m s).2.contents = s.contents ∧
      ∀ r, (readManifest P L key m s).1 = .returned (.ok r) →
        (readManifest P L key m s.healthy).1 = .returned (.ok r) := by
  rw [readManifest, readManifest]
  split_ifs with h₁ h₂ h₃
  · exact ⟨rfl, fun r hr ↦ hr⟩
  · exact ⟨rfl, fun r hr ↦ hr⟩
  · exact ⟨rfl, fun r hr ↦ hr⟩
  · obtain ⟨hcontents, hread⟩ := readChunks_spec (P := P) key m (List.range m.chunks) s
    split
    · next state t ht =>
      rw [ht] at hcontents hread
      rw [hread state rfl]
      dsimp only
      split_ifs
      · exact ⟨hcontents, fun r hr ↦ hr⟩
      · exact ⟨hcontents, fun r hr ↦ hr⟩
      · exact ⟨hcontents, fun r hr ↦ hr⟩
    all_goals
      rename_i t ht
      rw [ht] at hcontents
      exact ⟨hcontents, fun r hr ↦ by cases hr⟩

private theorem read_spec (key : Str) (s : Store) :
    (read P L key s).2.contents = s.contents ∧
      ∀ r, (read P L key s).1 = .returned (.ok r) → readHealthy P L key s = .returned (.ok r) := by
  have hcontents := retrieve_contents key s
  have hreturned : ∀ o, (retrieve key s).1 = .returned (some o) → o = s.contents key :=
    fun _ ↦ retrieve_returned
  rw [readHealthy, read, read]
  split
  · exact ⟨rfl, fun r hr ↦ hr⟩
  rw [readTerminal, readTerminal, retrieve_healthy]
  split
  · next t ht =>
    rw [ht] at hcontents
    exact ⟨hcontents, fun r hr ↦ by cases hr⟩
  · next t ht =>
    rw [ht] at hcontents hreturned
    refine ⟨hcontents, fun r hr ↦ ?_⟩
    rw [← hreturned none rfl]
    exact hr
  · next value t ht hne =>
    rw [hne] at hcontents hreturned
    have hvalue := hreturned value rfl
    have hhealthy : t.healthy = s.healthy := by rw [Storage.healthy, hcontents]; rfl
    rw [← hvalue]
    cases value with
    | none => exact absurd rfl ht
    | some value =>
      dsimp only
      split
      · exact ⟨hcontents, fun r hr ↦ hr⟩
      · split
        · exact ⟨hcontents, fun r hr ↦ hr⟩
        · split_ifs
          · exact ⟨hcontents, fun r hr ↦ hr⟩
          · exact ⟨hcontents, fun r hr ↦ hr⟩
        · next m hm =>
          obtain ⟨hmanifest, hread⟩ := readManifest_spec (P := P) (L := L) key m t
          rw [hhealthy] at hread
          exact ⟨hmanifest.trans hcontents, hread⟩
  all_goals
    rename_i t ht
    rw [ht] at hcontents
    exact ⟨hcontents, fun r hr ↦ by cases hr⟩

/-- A read changes nothing. -/
theorem read_contents (key : Str) (s : Store) : (read P L key s).2.contents = s.contents :=
  (read_spec key s).1

/-- A read that returns a snapshot returns the one that is there. -/
theorem readHealthy_of_read {key : Str} {s : Store} {r : SnapshotRead}
    (h : (read P L key s).1 = .returned (.ok r)) : readHealthy P L key s = .returned (.ok r) :=
  (read_spec key s).2 r h

/-- Only a key under which nothing is stored reads as not found. -/
theorem contents_of_not_found {key : Str} {s : Store} {r : SnapshotRead}
    (h : readHealthy P L key s = .returned (.ok r)) (hr : r.found = false) : s.contents key = none := by
  have hfound : ∀ m, (readManifest P L key m s.healthy).1 = .returned (.ok r) → r.found = true := by
    intro m hm
    rw [readManifest] at hm
    split_ifs at hm
    · simp at hm
    · simp at hm
    · rw [← Except.ok.inj (Result.returned.inj hm)]
    · split at hm
      · split_ifs at hm
        · simp at hm
        · simp at hm
        · rw [← Except.ok.inj (Result.returned.inj hm)]
      all_goals simp at hm
  rw [readHealthy, read] at h
  split at h
  · simp at h
  rw [readTerminal, retrieve_healthy] at h
  cases hvalue : s.contents key with
  | none => rfl
  | some value =>
    rw [hvalue] at h
    dsimp only at h
    split at h
    · simp at h
    · split at h
      · simp at h
      · split_ifs at h
        · simp at h
        · rw [← Except.ok.inj (Result.returned.inj h)] at hr
          simp at hr
      · rw [hfound _ h] at hr
        simp at hr

theorem state_of_not_found {key : Str} {s : Store} {r : SnapshotRead}
    (h : readHealthy P L key s = .returned (.ok r)) (hr : r.found = false) : r.state = none := by
  have hnone := contents_of_not_found h hr
  rw [readHealthy, read] at h
  split at h
  · simp at h
  rw [readTerminal, retrieve_healthy, hnone] at h
  rw [← Except.ok.inj (Result.returned.inj h)]

private theorem readChunks_error {key : Str} {m : Manifest} {indices : List ℕ} {s : Store} {e : String}
    (h : (readChunks P key m indices s).1 = .returned (.error e)) :
    e ≠ manifestBufferMessage .invalid := by
  have hchunk : ∀ b, chunkBufferMessage b ≠ manifestBufferMessage .invalid := by
    intro b
    cases b <;> decide
  induction indices generalizing s with
  | nil => cases h
  | cons index indices ih =>
    rw [readChunks] at h
    split at h
    · obtain rfl := Except.error.inj (Result.returned.inj h)
      decide
    · dsimp only at h
      split at h
      · obtain rfl := Except.error.inj (Result.returned.inj h)
        exact hchunk _
      · split_ifs at h
        · obtain rfl := Except.error.inj (Result.returned.inj h)
          decide
        · split at h
          · cases h
          · next hrest =>
            obtain rfl := Except.error.inj (Result.returned.inj h)
            exact ih (by rw [hrest])
          · cases h
          · cases h
    · cases h
    · cases h

private theorem readManifest_error {key : Str} {m : Manifest} {s : Store} {e : String}
    (h : (readManifest P L key m s).1 = .returned (.error e)) : e ≠ manifestBufferMessage .invalid := by
  rw [readManifest] at h
  split_ifs at h
  · obtain rfl := Except.error.inj (Result.returned.inj h)
    decide
  · obtain rfl := Except.error.inj (Result.returned.inj h)
    decide
  · cases h
  · split at h
    · split_ifs at h
      · obtain rfl := Except.error.inj (Result.returned.inj h)
        decide
      · obtain rfl := Except.error.inj (Result.returned.inj h)
        decide
      · cases h
    · next hchunks =>
      obtain rfl := Except.error.inj (Result.returned.inj h)
      exact readChunks_error (by rw [hchunks])
    · cases h
    · cases h

/-- Only a value that is no buffer is refused for its type. -/
theorem contents_of_invalid_type {key : Str} {s : Store}
    (h : (read P L key s).1 = .returned (.error (manifestBufferMessage .invalid))) :
    s.contents key = some .object := by
  rw [read] at h
  split at h
  · next e hkey =>
    obtain rfl := Except.error.inj (Result.returned.inj h)
    rw [validateLogicalKey] at hkey
    split_ifs at hkey
    all_goals exact absurd (Except.error.inj hkey) (by decide)
  rw [readTerminal] at h
  split at h
  · exact absurd (Except.error.inj (Result.returned.inj h)) (by decide)
  · cases h
  · next value t hne hr =>
    have hvalue : value = s.contents key := retrieve_returned (by rw [hr])
    split at h
    · next e hcopy =>
      have he : e = .invalid := by
        have heq := Except.error.inj (Result.returned.inj h)
        cases e with
        | invalid => rfl
        | _ => exact absurd heq (by decide)
      subst he
      rw [← hvalue]
      rcases value with - | (⟨b⟩ | ⟨b, contiguous, readOnly⟩ | - | -)
      · exact absurd rfl hne
      · rw [copyBuffer] at hcopy
        split_ifs at hcopy
        exact absurd hcopy (by simp)
      · rw [copyBuffer] at hcopy
        split_ifs at hcopy
        all_goals exact absurd hcopy (by simp)
      · cases hcopy
      · rfl
    · split at h
      · next e hdecode =>
        obtain rfl := Except.error.inj (Result.returned.inj h)
        rcases decodeManifest_failure hdecode with he | he <;> exact absurd he (by decide)
      · split_ifs at h
        · exact absurd (Except.error.inj (Result.returned.inj h)) (by decide)
        · cases h
      · exact absurd rfl (readManifest_error h)
  · cases h
  · cases h

/-- A commit touches its key and the chunks of its generation. -/
theorem commit_contents_of_ne {k : Str} (hk : k ≠ key)
    (hchunk : ∀ i, k ≠ chunkKey P.sha256 key generation.text i) (state : Option Stored) (s : Store) :
    (commit P L key generation state s).2.contents k = s.contents k := by
  have hpayload : ∀ payload statePresent,
      (commitPayload P L key generation payload statePresent s).2.contents k = s.contents k := by
    intro payload statePresent
    have hchunks : (storeChunks P L key generation.text payload
        (List.range (chunkCount payload.length L.chunkBytes)) s).2.contents k = s.contents k :=
      storeChunks_contents _ s fun i _ ↦ hchunk i
    rw [commitPayload]
    split
    · next t ht =>
      rw [ht] at hchunks
      have hstore := store_contents_of_ne hk
        (encodeManifest (newManifest P L generation payload statePresent)) t
      split <;> rename_i u hu <;> rw [hu] at hstore <;> exact hstore.trans hchunks
    all_goals
      rename_i t ht
      rw [ht] at hchunks
      exact hchunks
  rw [commit]
  split
  · rfl
  · unfold commitTerminal
    split
    · exact hpayload _ _
    · split
      · rfl
      · exact hpayload _ _
    · rfl

/-- After a commit that returned, the state is read back, whatever happens under other keys. -/
theorem readHealthy_of_commit {s t : Store} {b : Bytes}
    (h : (commit P L key generation (some (.bytes b)) s).1 = .returned (.ok ()))
    (hkey : t.contents key = (commit P L key generation (some (.bytes b)) s).2.contents key)
    (hchunks : ∀ i, t.contents (chunkKey P.sha256 key generation.text i) =
      (commit P L key generation (some (.bytes b)) s).2.contents
        (chunkKey P.sha256 key generation.text i)) :
    readHealthy P L key t = .returned (.ok ⟨true, some b, true, some generation.text⟩) := by
  rw [commit] at h hkey hchunks
  split at h
  · simp at h
  · next hvalid =>
    rw [hvalid] at hkey hchunks
    rw [commitTerminal] at h hkey hchunks
    dsimp only at h hkey hchunks
    split at h
    · simp at h
    · next payload hcopy =>
      rw [hcopy] at hkey hchunks
      dsimp only at hkey hchunks
      have hlen : b.length ≤ L.maxBytes ∧ payload = b := by
        rw [copyBuffer] at hcopy
        split_ifs at hcopy with hmax
        exact ⟨not_lt.1 hmax, (Except.ok.inj hcopy).symm⟩
      obtain ⟨hlen, rfl⟩ := hlen
      obtain ⟨hall, hmanifest⟩ := (commitPayload_spec hvalid L generation payload true s).2 h
      have hcomplete : Complete P L key generation payload true t := by
        refine ⟨fun i hi ↦ ?_, ?_⟩
        · rw [hchunks i]
          exact hall i hi
        · rw [hkey]
          exact hmanifest
      have hread := readHealthy_complete hvalid hlen (fun hnone ↦ absurd hnone (by simp)) hcomplete
      rw [if_pos rfl] at hread
      exact hread

/-! ## What a read depends on -/

variable (P L) in
/-- The manifest that is stored under a key. -/
def HoldsManifest (contents : Str → Option Stored) (key : Str) (m : Manifest) : Prop :=
  ∃ raw, copyBuffer (contents key) (max L.maxBytes maxManifestBytes) = .ok raw ∧
    decodeManifest P.recursionLimit raw = .manifest m

theorem HoldsManifest.eq {contents : Str → Option Stored} {key : Str} {m m' : Manifest}
    (h : HoldsManifest P L contents key m) (h' : HoldsManifest P L contents key m') : m = m' := by
  obtain ⟨raw, hcopy, hdecode⟩ := h
  obtain ⟨raw', hcopy', hdecode'⟩ := h'
  obtain rfl := Except.ok.inj (hcopy.symm.trans hcopy')
  exact Decoded.manifest.inj (hdecode.symm.trans hdecode')

theorem HoldsManifest.isHexText {contents : Str → Option Stored} {key : Str} {m : Manifest}
    (h : HoldsManifest P L contents key m) : isHexText 32 m.generation = true := by
  obtain ⟨raw, -, hdecode⟩ := h
  exact decodeManifest_generation hdecode

private theorem readChunks_agree {key : Str} {m : Manifest} {indices : List ℕ} {s t : Store}
    (h : ∀ i ∈ indices, t.contents (manifestChunkKey P key m i) =
      s.contents (manifestChunkKey P key m i)) :
    ∃ x, readChunks P key m indices t.healthy = (x, t.healthy) ∧
      readChunks P key m indices s.healthy = (x, s.healthy) := by
  induction indices with
  | nil => exact ⟨_, rfl, rfl⟩
  | cons index indices ih =>
    obtain ⟨x, ht, hs⟩ := ih fun i hi ↦ h i (List.mem_cons_of_mem _ hi)
    rw [readChunks, readChunks, retrieve_healthy, retrieve_healthy, h index List.mem_cons_self]
    dsimp only
    split
    · exact ⟨_, rfl, rfl⟩
    · split_ifs
      · exact ⟨_, rfl, rfl⟩
      · rw [ht, hs]
        match x with
        | .returned (.ok _) => exact ⟨_, rfl, rfl⟩
        | .returned (.error _) => exact ⟨_, rfl, rfl⟩
        | .raised => exact ⟨_, rfl, rfl⟩
        | .interrupted => exact ⟨_, rfl, rfl⟩

private theorem readManifest_agree {key : Str} {m : Manifest} {s t : Store}
    (h : ∀ i < m.chunks, t.contents (manifestChunkKey P key m i) =
      s.contents (manifestChunkKey P key m i)) :
    (readManifest P L key m t.healthy).1 = (readManifest P L key m s.healthy).1 := by
  have hrange : ∀ i ∈ List.range m.chunks, t.contents (manifestChunkKey P key m i) =
      s.contents (manifestChunkKey P key m i) := fun i hi ↦ h i (List.mem_range.1 hi)
  obtain ⟨x, ht, hs⟩ := readChunks_agree hrange
  rw [readManifest, readManifest, ht, hs]
  split_ifs
  · rfl
  · rfl
  · rfl
  · match x with
    | .returned (.ok _) =>
      dsimp only
      split_ifs <;> rfl
    | .returned (.error _) => rfl
    | .raised => rfl
    | .interrupted => rfl

/-- A read depends on the manifest and on the chunks that it names. -/
theorem readHealthy_agree {key : Str} {s t : Store}
    (hkey : validateLogicalKey P.keyLimit key = .ok () → t.contents key = s.contents key)
    (hchunks : validateLogicalKey P.keyLimit key = .ok () → ∀ m, HoldsManifest P L s.contents key m →
      ∀ i < m.chunks, t.contents (manifestChunkKey P key m i) =
        s.contents (manifestChunkKey P key m i)) :
    readHealthy P L key t = readHealthy P L key s := by
  rw [readHealthy, readHealthy, read, read]
  split
  · rfl
  · next hvalid =>
    rw [readTerminal, readTerminal, retrieve_healthy, retrieve_healthy, hkey hvalid]
    cases hvalue : s.contents key with
    | none => rfl
    | some value =>
      dsimp only
      cases hcopy : copyBuffer (some value) (max L.maxBytes maxManifestBytes) with
      | error e => rfl
      | ok raw =>
        dsimp only
        cases hdecode : decodeManifest P.recursionLimit raw with
        | failure e => rfl
        | raw => dsimp only; split_ifs <;> rfl
        | manifest m => exact readManifest_agree (hchunks hvalid m ⟨raw, by rw [hvalue, hcopy], hdecode⟩)

/-- The generation that a read returns is that of the manifest. -/
theorem holdsManifest_of_generation {key generation : Str} {s : Store} {r : SnapshotRead}
    (h : readHealthy P L key s = .returned (.ok r)) (hr : r.generation = some generation) :
    ∃ m, HoldsManifest P L s.contents key m ∧ m.generation = generation := by
  have hmanifest : ∀ m, (readManifest P L key m s.healthy).1 = .returned (.ok r) →
      r.generation = some m.generation := by
    intro m hm
    rw [readManifest] at hm
    split_ifs at hm
    · simp at hm
    · simp at hm
    · rw [← Except.ok.inj (Result.returned.inj hm)]
    · split at hm
      · split_ifs at hm
        · simp at hm
        · simp at hm
        · rw [← Except.ok.inj (Result.returned.inj hm)]
      all_goals simp at hm
  rw [readHealthy, read] at h
  split at h
  · simp at h
  rw [readTerminal, retrieve_healthy] at h
  cases hvalue : s.contents key with
  | none =>
    rw [hvalue] at h
    rw [← Except.ok.inj (Result.returned.inj h)] at hr
    cases hr
  | some value =>
    rw [hvalue] at h
    dsimp only at h
    split at h
    · simp at h
    · next raw hcopy =>
      split at h
      · simp at h
      · split_ifs at h
        · simp at h
        · rw [← Except.ok.inj (Result.returned.inj h)] at hr
          cases hr
      · next m hdecode =>
        refine ⟨m, ⟨raw, ?_, hdecode⟩, ?_⟩
        · rw [hvalue, hcopy]
        · exact Option.some.inj ((hmanifest m h).symm.trans hr)

/-- The logical key of an unnamed spider's queue `q`. -/
def sampleKey : Str := Py.str "queue:snapshot:v3:0::1:q"

/-- SHA-256 at the inputs of `commit_atomic_interrupted`. -/
def sampleSha256 (b : Bytes) : Hex 64 :=
  if b = keyOctets sampleKey then
    ⟨[10, 2, 3, 5, 10, 9, 13, 0, 2, 9, 7, 8, 0, 0, 15, 8, 2, 2, 0, 9, 12, 5, 7, 9, 2, 3, 4, 8, 12,
    10, 7, 2, 9, 14, 6, 2, 7, 7, 3, 0, 10, 3, 12, 12, 13, 2, 4, 12, 5, 5, 7, 11, 5, 14, 11, 9, 1,
    11, 11, 12, 7, 7, 7, 7], rfl⟩
  else
    ⟨[7, 4, 15, 8, 1, 15, 14, 1, 6, 7, 13, 9, 9, 11, 4, 12, 11, 4, 1, 13, 6, 13, 0, 12, 12, 13, 10,
    8, 2, 2, 7, 8, 12, 10, 14, 14, 9, 15, 3, 14, 2, 15, 2, 5, 13, 5, 14, 5, 10, 3, 9, 3, 6, 15,
    15, 3, 13, 12, 14, 12, 6, 0, 13, 0], rfl⟩

/-- A storage without a key limit. -/
def samplePlatform : Platform := ⟨sampleSha256, 1000, by decide, none⟩

/-- At most eight bytes, in chunks of four. -/
def sampleLimits : Limits := ⟨8, 4, by decide, by decide, by decide, by decide⟩

/-- The generation `00…0`. -/
def sampleGeneration : Generation := List.Vector.replicate 32 0

/-- An empty storage on which the first chunk is stored by a call that raises, and the manifest by
a call that is interrupted. -/
def sampleStore : Store :=
  ⟨fun _ ↦ none, [.failure true, .success, .success, .interrupt true]⟩

/-- An interrupted commit of five bytes leaves nothing or all five. -/
theorem commit_atomic_interrupted :
    readHealthy samplePlatform sampleLimits sampleKey (commit samplePlatform sampleLimits sampleKey
        sampleGeneration (some (.bytes [1, 2, 3, 4, 5])) sampleStore).2 =
      .returned (.ok ⟨false, none, false, none⟩) ∨
    readHealthy samplePlatform sampleLimits sampleKey (commit samplePlatform sampleLimits sampleKey
        sampleGeneration (some (.bytes [1, 2, 3, 4, 5])) sampleStore).2 =
      .returned (.ok ⟨true, some [1, 2, 3, 4, 5], true, some sampleGeneration.text⟩) := by
  have hkey : validateLogicalKey samplePlatform.keyLimit sampleKey = .ok () := by decide
  have hold : readHealthy samplePlatform sampleLimits sampleKey sampleStore =
      .returned (.ok ⟨false, none, false, none⟩) := by
    rw [readHealthy, read, hkey]
    rfl
  have hlen : ∀ b ∈ some ([1, 2, 3, 4, 5] : Bytes), b.length ≤ sampleLimits.maxBytes := by
    intro b hb
    obtain rfl := Option.some.inj hb
    decide
  exact (commit_atomic (fun _ ↦ rfl) hold (some [1, 2, 3, 4, 5]) hlen).1

end Snapshot

end ScrapyExtension
