import Mathlib.Tactic
import ScrapyExtension.Py.Bytes

/-!
# The cuckoo filter

`CuckooMembershipFilter` stores a fingerprint of an item in one of two buckets. The second bucket is the
first one, xor a hash of the fingerprint, so that either is found from the other without the item. When
both are full, the fingerprint replaces one that is there, which is then put into its own other bucket,
and so on for at most `_MAX_KICKS` replacements. The replaced slots are journaled: an insertion that
gives up, or that a signal interrupts, writes them back.

The hash is a parameter, and so is the generator: a `Choice` is the slot that is drawn for a
replacement, and the place where a signal comes, if one does.

## The fingerprint in hand

Within an insertion a fingerprint is in no bucket. It is in hand, on its way to a bucket that is one of
its own. Every invariant is stated for the table together with the fingerprint in hand, as if that
were in the bucket already; then a replacement preserves it because it only swaps the two.
-/

namespace ScrapyExtension

open Py

namespace Cuckoo

/-- `_BUCKET_SIZE` -/
def bucketSize : ℕ := 4

/-- `_MAX_KICKS` -/
def maxKicks : ℕ := 500

/-- What the constructor computes. -/
structure Sizing where
  /-- The exponent of `_num_buckets`. -/
  exponent : ℕ
  /-- `_fp_len` -/
  fpLen : ℕ

/-- `_num_buckets` -/
def Sizing.numBuckets (z : Sizing) : ℕ := 2 ^ z.exponent

/-- `_buckets` -/
abbrev Table := List (List Bytes)

/-- Where a signal comes within a replacement. -/
inductive Stop
  /-- Before the slot is journaled. -/
  | drawn
  /-- Before the slot is overwritten. -/
  | journaled
  /-- Before the replaced fingerprint is put anywhere. -/
  | replaced
  /-- After it was appended to its other bucket. -/
  | appended
deriving DecidableEq, Repr

/-- The slot that `randrange` returns, and the signal that comes during the replacement. -/
structure Choice where
  slot : Fin bucketSize
  signal : Option Stop
deriving DecidableEq, Repr

/-- How an insertion ends. -/
inductive Outcome
  | placed
  | full
  | raised
deriving DecidableEq, Repr

section Hash

variable (sha256 : Bytes → Bytes) (z : Sizing)

/-- `_fingerprint`, the fingerprint -/
def fingerprint (item : Bytes) : Bytes :=
  let fp := (sha256 item).take z.fpLen
  -- zeros are the sentinel of an empty slot
  if fp = List.replicate z.fpLen 0 then 1 :: fp.tail else fp

/-- `_fingerprint`, the primary index -/
def primary (item : Bytes) : ℕ := fromBytes (((sha256 item).drop 8).take 8) &&& (z.numBuckets - 1)

/-- `_hash_fp` -/
def hashFp (fp : Bytes) : ℕ := fromBytes ((sha256 fp).take 8) &&& (z.numBuckets - 1)

/-- `_alt_index` -/
def altIndex (index : ℕ) (fp : Bytes) : ℕ := index ^^^ hashFp sha256 z fp

/-- `buckets[index]` -/
def bucket (table : Table) (index : ℕ) : List Bytes := table.getD index []

/-- `buckets[index][slot] = fp` -/
def write (table : Table) (index slot : ℕ) (fp : Bytes) : Table :=
  table.modify index fun b ↦ b.set slot fp

/-- `buckets[index].append(fp)` -/
def append (table : Table) (index : ℕ) (fp : Bytes) : Table := table.modify index fun b ↦ b ++ [fp]

/-- The journal is written back, the last slot first. -/
def undo : (path : List (ℕ × ℕ × Bytes)) → Table → Table
  | [], table => table
  | (index, slot, evicted) :: path, table => undo path (write table index slot evicted)

/-- The loop of `_insert`, with `left` replacements to go, for a fingerprint and the full bucket it is
to be put into. -/
def kickLoop (choices : ℕ → Choice) : (left n : ℕ) → (table : Table) → (fp : Bytes) → (index : ℕ) →
    (path : List (ℕ × ℕ × Bytes)) → Table × Outcome
  | 0, _, table, _, _, path => (undo path table, .full)
  | left + 1, n, table, fp, index, path =>
    let choice := choices n
    if choice.signal = some .drawn then (undo path table, .raised) else
    match (bucket table index)[choice.slot.val]? with
    | none => (undo path table, .raised)
    | some evicted =>
      let path := (index, choice.slot.val, evicted) :: path
      if choice.signal = some .journaled then (undo path table, .raised) else
      let table := write table index choice.slot.val fp
      if choice.signal = some .replaced then (undo path table, .raised) else
      let other := altIndex sha256 z index evicted
      if (bucket table other).length < bucketSize then
        let appended := append table other evicted
        if choice.signal = some .appended then
          (undo path (appended.modify other List.dropLast), .raised)
        else (appended, .placed)
      else kickLoop choices left (n + 1) table evicted other path

/-- `_insert` -/
def insert (choices : ℕ → Choice) (table : Table) (fp : Bytes) (i₁ i₂ : ℕ) : Table × Outcome :=
  if (bucket table i₁).length < bucketSize then (append table i₁ fp, .placed)
  else if (bucket table i₂).length < bucketSize then (append table i₂ fp, .placed)
  else kickLoop sha256 z choices maxKicks 0 table fp i₁ []

/-- What the filter holds. -/
structure State where
  /-- `_buckets` -/
  table : Table
  /-- `_count` -/
  count : ℕ
deriving DecidableEq, Repr

/-- `__contains__` -/
def contains (s : State) (item : Bytes) : Bool :=
  let fp := fingerprint sha256 z item
  let i₁ := primary sha256 z item
  let i₂ := altIndex sha256 z i₁ fp
  decide (fp ∈ bucket s.table i₁) || decide (fp ∈ bucket s.table i₂)

/-- `add`, and what it returns unless it raises. -/
def add (choices : ℕ → Choice) (s : State) (item : Bytes) : State × Option Bool :=
  let fp := fingerprint sha256 z item
  let i₁ := primary sha256 z item
  let i₂ := altIndex sha256 z i₁ fp
  if fp ∈ bucket s.table i₁ ∨ fp ∈ bucket s.table i₂ then (s, some false)
  else
    match insert sha256 z choices s.table fp i₁ i₂ with
    | (table, .placed) => (⟨table, s.count + 1⟩, some true)
    -- `FilterFull`
    | (table, .full) => (⟨table, s.count⟩, none)
    | (table, .raised) => (⟨table, s.count⟩, none)

/-- A call of the filter. -/
inductive Call
  | add (item : Bytes) (choices : ℕ → Choice)
  | contains (item : Bytes)

/-- A new filter. -/
def initial : State := ⟨List.replicate z.numBuckets [], 0⟩

/-- One call. -/
def next (s : State) : Call → State
  | .add item choices => (add sha256 z choices s item).1
  | .contains _ => s

/-- The filter after some calls. -/
def after : State → List Call → State
  | s, [] => s
  | s, c :: cs => after (next sha256 z s c) cs

/-- The items whose `add` returned, and what it returned. -/
def returns : State → List Call → List (Bytes × Bool)
  | _, [] => []
  | s, .add item choices :: cs =>
    ((add sha256 z choices s item).2.map fun r ↦ (item, r)).toList ++
      returns (next sha256 z s (.add item choices)) cs
  | s, .contains _ :: cs => returns s cs

end Hash

/-! ## The table -/

section Table

variable {table : Table} {index other slot : ℕ} {fp evicted g : Bytes}

theorem bucket_modify (f : List Bytes → List Bytes) (h : index < table.length) :
    bucket (table.modify index f) other =
      if index = other then f (bucket table index) else bucket table other := by
  unfold bucket
  rw [List.getD_eq_getElem?_getD, List.getD_eq_getElem?_getD, List.getD_eq_getElem?_getD,
    List.getElem?_modify]
  by_cases ho : index = other
  · subst ho
    simp [List.getElem?_eq_getElem h]
  · simp [ho]

theorem modify_eq_self {f : List Bytes → List Bytes} (h : f (bucket table index) = bucket table index) :
    table.modify index f = table := by
  refine List.ext_getElem? fun i ↦ ?_
  rw [List.getElem?_modify]
  by_cases hi : index = i
  · subst hi
    cases hb : table[index]? with
    | none => simp
    | some b =>
      have hbucket : bucket table index = b := by simp [bucket, List.getD_eq_getElem?_getD, hb]
      rw [hbucket] at h
      simp [h]
  · simp [hi]

theorem lt_of_mem_bucket (h : fp ∈ bucket table index) : index < table.length := by
  by_contra hge
  simp [bucket, List.getD_eq_getElem?_getD, List.getElem?_eq_none (not_lt.mp hge)] at h

@[simp] theorem length_write : (write table index slot fp).length = table.length := by simp [write]

@[simp] theorem length_append : (append table index fp).length = table.length := by simp [append]

theorem mem_bucket_append (h : index < table.length) :
    g ∈ bucket (append table index fp) other ↔
      g ∈ bucket table other ∨ (index = other ∧ g = fp) := by
  rw [append, bucket_modify _ h]
  split_ifs with ho
  · subst ho
    simp
  · simp [ho]

/-- Overwriting a slot and writing it back. -/
theorem write_write (h : (bucket table index)[slot]? = some evicted) :
    write (write table index slot fp) index slot evicted = table := by
  have hset : ∀ b : List Bytes, (b.set slot fp).set slot evicted = b.set slot evicted := by simp
  rw [write, write, List.modify_modify_eq]
  refine modify_eq_self ?_
  change ((bucket table index).set slot fp).set slot evicted = _
  obtain ⟨hlt, heq⟩ := List.getElem?_eq_some_iff.mp h
  rw [hset, ← heq, List.set_getElem_self]

/-- Without the fingerprint that was appended. -/
theorem dropLast_append : (append table index fp).modify index List.dropLast = table := by
  rw [append, List.modify_modify_eq]
  refine modify_eq_self ?_
  change (bucket table index ++ [fp]).dropLast = _
  rw [List.dropLast_concat]

section Write

variable (h : (bucket table index)[slot]? = some evicted)
include h

theorem evicted_mem : evicted ∈ bucket table index := List.mem_of_getElem? h

theorem bucket_write : bucket (write table index slot fp) other =
    if index = other then (bucket table index).set slot fp else bucket table other :=
  bucket_modify _ (lt_of_mem_bucket (evicted_mem h))

theorem length_bucket_write : (bucket (write table index slot fp) other).length =
    (bucket table other).length := by
  rw [bucket_write h]
  split_ifs with ho
  · rw [List.length_set, ho]
  · rfl

theorem mem_bucket_write_self : fp ∈ bucket (write table index slot fp) index := by
  rw [bucket_write h, if_pos rfl]
  exact List.mem_set (List.getElem?_eq_some_iff.mp h).1 fp

/-- What is lost by overwriting a slot is at most the fingerprint that was there. -/
theorem mem_bucket_write_or (hg : g ∈ bucket table other) :
    g ∈ bucket (write table index slot fp) other ∨ (index = other ∧ g = evicted) := by
  rw [bucket_write h]
  split_ifs with ho
  · subst ho
    obtain ⟨i, hi, rfl⟩ := List.mem_iff_getElem.mp hg
    by_cases his : slot = i
    · subst his
      exact .inr ⟨rfl, (List.getElem?_eq_some_iff.mp h).2⟩
    · refine .inl (List.mem_iff_getElem.mpr ⟨i, by simpa using hi, ?_⟩)
      exact List.getElem_set_ne his _
  · exact .inl hg

theorem mem_bucket_of_write (hg : g ∈ bucket (write table index slot fp) other) :
    g ∈ bucket table other ∨ (index = other ∧ g = fp) := by
  rw [bucket_write h] at hg
  split_ifs at hg with ho
  · subst ho
    exact (List.mem_or_eq_of_mem_set hg).imp_right fun heq ↦ ⟨rfl, heq⟩
  · exact .inl hg

end Write

/-- The number of stored fingerprints. -/
def total (table : Table) : ℕ := (table.map List.length).sum

theorem total_modify (f : List Bytes → List Bytes) (h : index < table.length) :
    total (table.modify index f) + (bucket table index).length =
      total table + (f (bucket table index)).length := by
  induction table generalizing index with
  | nil => simp at h
  | cons b table ih =>
    cases index with
    | zero => simp [total, bucket]; omega
    | succ index =>
      have := @ih index (by simpa using h)
      simp only [total, bucket, List.modify_succ_cons, List.map_cons, List.sum_cons,
        List.getD_cons_succ] at this ⊢
      omega

theorem total_append (h : index < table.length) : total (append table index fp) = total table + 1 := by
  have := total_modify (fun b ↦ b ++ [fp]) h
  rw [List.length_append, List.length_singleton] at this
  rw [append]
  omega

theorem total_write (h : (bucket table index)[slot]? = some evicted) :
    total (write table index slot fp) = total table := by
  have := total_modify (fun b ↦ b.set slot fp) (lt_of_mem_bucket (evicted_mem h))
  rw [List.length_set] at this
  rw [write]
  omega

end Table

/-! ## Insertion -/

section Insertion

variable {sha256 : Bytes → Bytes} {z : Sizing}

theorem and_mask_lt (z : Sizing) (n : ℕ) : n &&& (z.numBuckets - 1) < z.numBuckets := by
  rw [Sizing.numBuckets, Nat.and_two_pow_sub_one_eq_mod]
  exact Nat.mod_lt _ (Nat.two_pow_pos _)

theorem primary_lt (item : Bytes) : primary sha256 z item < z.numBuckets := and_mask_lt z _

theorem altIndex_lt {index : ℕ} (h : index < z.numBuckets) (fp : Bytes) :
    altIndex sha256 z index fp < z.numBuckets :=
  Nat.xor_lt_two_pow h (and_mask_lt z _)

variable (sha256 z) in
/-- The bucket is one of the two for the item, and the fingerprint is the item's. -/
def Candidate (index : ℕ) (fp item : Bytes) : Prop :=
  fingerprint sha256 z item = fp ∧
    (index = primary sha256 z item ∨ index = altIndex sha256 z (primary sha256 z item) fp)

/-- The two buckets are found from each other. -/
theorem Candidate.alt {index : ℕ} {fp item : Bytes} (h : Candidate sha256 z index fp item) :
    Candidate sha256 z (altIndex sha256 z index fp) fp item := by
  obtain ⟨hfp, rfl | rfl⟩ := h
  · exact ⟨hfp, .inr rfl⟩
  · refine ⟨hfp, .inl ?_⟩
    rw [altIndex, altIndex, Nat.xor_assoc, Nat.xor_self, Nat.xor_zero]

theorem candidate_primary (item : Bytes) :
    Candidate sha256 z (primary sha256 z item) (fingerprint sha256 z item) item := ⟨rfl, .inl rfl⟩

/-- The fingerprint is in the bucket, or in hand for it. -/
def Holds (table : Table) (hand : Option (ℕ × Bytes)) (index : ℕ) (fp : Bytes) : Prop :=
  fp ∈ bucket table index ∨ hand = some (index, fp)

variable (sha256 z) in
/-- The invariant of a table with a fingerprint in hand, for the items that are to be reported present
and those that were added. -/
structure Sound (table : Table) (hand : Option (ℕ × Bytes)) (known added : Bytes → Prop) : Prop where
  length : table.length = z.numBuckets
  size : ∀ index, (bucket table index).length ≤ bucketSize
  present : ∀ item, known item → ∃ index fp, Candidate sha256 z index fp item ∧ Holds table hand index fp
  origin : ∀ index fp, Holds table hand index fp →
    index < z.numBuckets ∧ ∃ item, added item ∧ Candidate sha256 z index fp item

variable {table : Table} {known added : Bytes → Prop} {index : ℕ} {fp : Bytes}

/-- The fingerprint in hand goes into its bucket. -/
theorem Sound.append (h : Sound sha256 z table (some (index, fp)) known added)
    (hroom : (bucket table index).length < bucketSize) :
    Sound sha256 z (append table index fp) none known added := by
  have hlt : index < table.length := by
    rw [h.length]
    exact (h.origin index fp (.inr rfl)).1
  have hholds : ∀ i g, Holds (Cuckoo.append table index fp) none i g ↔
      Holds table (some (index, fp)) i g := by
    intro i g
    rw [Holds, Holds, mem_bucket_append hlt]
    simp [eq_comm]
  refine ⟨by simpa using h.length, fun i ↦ ?_, fun item hitem ↦ ?_, fun i g hg ↦ ?_⟩
  · rw [Cuckoo.append, bucket_modify _ hlt]
    split_ifs
    · rw [List.length_append, List.length_singleton]
      omega
    · exact h.size i
  · obtain ⟨i, g, hcandidate, hg⟩ := h.present item hitem
    exact ⟨i, g, hcandidate, (hholds i g).mpr hg⟩
  · exact h.origin i g ((hholds i g).mp hg)

/-- The fingerprint in hand replaces one, which is then in hand for its other bucket. -/
theorem Sound.replace (h : Sound sha256 z table (some (index, fp)) known added) {slot : ℕ}
    {evicted : Bytes} (hslot : (bucket table index)[slot]? = some evicted) :
    Sound sha256 z (write table index slot fp) (some (altIndex sha256 z index evicted, evicted))
      known added := by
  refine ⟨by simpa using h.length, fun i ↦ ?_, fun item hitem ↦ ?_, fun i g hg ↦ ?_⟩
  · rw [length_bucket_write hslot]
    exact h.size i
  · obtain ⟨i, g, hcandidate, hg | hg⟩ := h.present item hitem
    · have hmem : g ∈ bucket (write table index slot fp) i ∨ (index = i ∧ g = evicted) :=
        mem_bucket_write_or hslot hg
      rcases hmem with hg | ⟨rfl, rfl⟩
      · exact ⟨i, g, hcandidate, .inl hg⟩
      · exact ⟨_, g, hcandidate.alt, .inr rfl⟩
    · obtain ⟨rfl, rfl⟩ : index = i ∧ fp = g := by simpa using hg
      exact ⟨index, fp, hcandidate, .inl (mem_bucket_write_self hslot)⟩
  · rcases hg with hg | hg
    · rcases mem_bucket_of_write hslot hg with hg | ⟨rfl, rfl⟩
      · exact h.origin i g (.inl hg)
      · exact h.origin index g (.inr rfl)
    · obtain ⟨rfl, rfl⟩ : altIndex sha256 z index evicted = i ∧ evicted = g := by simpa using hg
      obtain ⟨hlt, item, hadded, hcandidate⟩ := h.origin index evicted (.inl (evicted_mem hslot))
      exact ⟨altIndex_lt hlt _, item, hadded, hcandidate.alt⟩

variable (sha256 z) in
/-- What an insertion into `before` promises: the fingerprint is placed, or nothing is changed. -/
def Inserted (before : Table) (known added : Bytes → Prop) : Table × Outcome → Prop
  | (table, .placed) => Sound sha256 z table none known added ∧ total table = total before + 1
  | (table, .full) => table = before
  | (table, .raised) => table = before

theorem inserted_kickLoop (choices : ℕ → Choice) {before : Table} (left : ℕ) {n : ℕ}
    {path : List (ℕ × ℕ × Bytes)} (h : Sound sha256 z table (some (index, fp)) known added)
    (htotal : total table = total before) (hundo : undo path table = before) :
    Inserted sha256 z before known added
      (kickLoop sha256 z choices left n table fp index path) := by
  induction left generalizing n table fp index path with
  | zero => exact hundo
  | succ left ih =>
    rw [kickLoop]
    by_cases hdrawn : (choices n).signal = some .drawn
    · rw [if_pos hdrawn]
      exact hundo
    rw [if_neg hdrawn]
    cases hslot : (bucket table index)[(choices n).slot.val]? with
    | none => exact hundo
    | some evicted =>
      have hnext := h.replace hslot
      have hback : undo ((index, (choices n).slot.val, evicted) :: path)
          (write table index (choices n).slot.val fp) = before := by
        rw [undo, write_write hslot]
        exact hundo
      have hback' : undo ((index, (choices n).slot.val, evicted) :: path) table = before := by
        have hsame : write table index (choices n).slot.val evicted = table := by
          obtain ⟨hlt, heq⟩ := List.getElem?_eq_some_iff.mp hslot
          exact modify_eq_self (by rw [← heq, List.set_getElem_self])
        rw [undo, hsame]
        exact hundo
      have hwritten : total (write table index (choices n).slot.val fp) = total table :=
        total_write hslot
      have htotal' := hwritten.trans htotal
      simp only
      split_ifs with hjournaled hreplaced hroom happended
      · exact hback'
      · exact hback
      · rw [dropLast_append]
        exact hback
      · refine ⟨hnext.append hroom, ?_⟩
        rw [total_append, htotal']
        rw [hnext.length]
        exact (hnext.origin _ evicted (.inr rfl)).1
      · exact ih hnext htotal' hback

/-- **The insertion** of a fingerprint, for an item that is in `known` and `added`. -/
theorem inserted_insert (choices : ℕ → Choice) (item : Bytes) (h : Sound sha256 z table none known added) :
    Inserted sha256 z table (fun x ↦ known x ∨ x = item) (fun x ↦ added x ∨ x = item)
      (insert sha256 z choices table (fingerprint sha256 z item) (primary sha256 z item)
        (altIndex sha256 z (primary sha256 z item) (fingerprint sha256 z item))) := by
  -- in hand for either of its buckets, the fingerprint may be put there
  have hhand : ∀ index, index < z.numBuckets →
      Candidate sha256 z index (fingerprint sha256 z item) item →
      Sound sha256 z table (some (index, fingerprint sha256 z item)) (fun x ↦ known x ∨ x = item)
        (fun x ↦ added x ∨ x = item) := by
    intro index hlt hcandidate
    refine ⟨h.length, h.size, ?_, ?_⟩
    · rintro x (hx | rfl)
      · obtain ⟨i, g, hc, hg | hg⟩ := h.present x hx
        · exact ⟨i, g, hc, .inl hg⟩
        · simp at hg
      · exact ⟨index, _, hcandidate, .inr rfl⟩
    · rintro i g (hg | hg)
      · obtain ⟨hi, x, hx, hc⟩ := h.origin i g (.inl hg)
        exact ⟨hi, x, .inl hx, hc⟩
      · obtain ⟨rfl, rfl⟩ : index = i ∧ fingerprint sha256 z item = g := by simpa using hg
        exact ⟨hlt, item, .inr rfl, hcandidate⟩
  have hfirst := hhand _ (primary_lt item) (candidate_primary item)
  have hsecond := hhand _ (altIndex_lt (primary_lt item) _) (candidate_primary item).alt
  have hlt : primary sha256 z item < table.length := by
    rw [h.length]
    exact primary_lt item
  have hlt' : altIndex sha256 z (primary sha256 z item) (fingerprint sha256 z item) < table.length := by
    rw [h.length]
    exact altIndex_lt (primary_lt item) _
  rw [insert]
  split_ifs with h₁ h₂
  · exact ⟨hfirst.append h₁, total_append hlt⟩
  · exact ⟨hsecond.append h₂, total_append hlt'⟩
  · exact inserted_kickLoop choices maxKicks hfirst rfl rfl

end Insertion

/-! ## Runs -/

section Runs

variable {sha256 : Bytes → Bytes} {z : Sizing} {s : State} {known added : Bytes → Prop}

variable (sha256 z) in
/-- The invariant of the filter. -/
structure Correct (s : State) (known added : Bytes → Prop) : Prop where
  sound : Sound sha256 z s.table none known added
  count : s.count = total s.table

theorem correct_initial : Correct sha256 z (initial z) (fun _ ↦ False) (fun _ ↦ False) := by
  have hbucket : ∀ index, bucket (initial z).table index = [] := by
    intro index
    simp only [bucket, initial, List.getD_eq_getElem?_getD, List.getElem?_replicate]
    split_ifs <;> rfl
  refine ⟨⟨by simp [initial], fun index ↦ by simp [hbucket], fun _ h ↦ h.elim, fun index fp h ↦ ?_⟩, ?_⟩
  · rcases h with h | h
    · simp [hbucket] at h
    · simp at h
  · simp [initial, total]

/-- What is to be reported present is. -/
theorem Correct.contains (h : Correct sha256 z s known added) {item : Bytes} (hitem : known item) :
    contains sha256 z s item = true := by
  obtain ⟨index, fp, ⟨rfl, hindex⟩, hfp | hfp⟩ := h.sound.present item hitem
  · rcases hindex with rfl | rfl
    · simp [Cuckoo.contains, hfp]
    · simp [Cuckoo.contains, hfp]
  · simp at hfp

/-- One `add`. The item is then to be reported present if the call returned, and it is added if the call
returned `True`. -/
theorem Correct.add (h : Correct sha256 z s known added) (choices : ℕ → Choice) (item : Bytes) :
    Correct sha256 z (add sha256 z choices s item).1
      (fun x ↦ known x ∨ (x = item ∧ (add sha256 z choices s item).2 ≠ none))
      (fun x ↦ added x ∨ (x = item ∧ (add sha256 z choices s item).2 = some true)) := by
  let fp := fingerprint sha256 z item
  let i₁ := primary sha256 z item
  let i₂ := altIndex sha256 z i₁ fp
  by_cases hpresent : fp ∈ bucket s.table i₁ ∨ fp ∈ bucket s.table i₂
  · have hadd : Cuckoo.add sha256 z choices s item = (s, some false) := by
      rw [Cuckoo.add]
      exact if_pos hpresent
    rw [hadd]
    refine ⟨⟨h.sound.length, h.sound.size, ?_, ?_⟩, h.count⟩
    · rintro x (hx | ⟨rfl, -⟩)
      · exact h.sound.present x hx
      · rcases hpresent with hfp | hfp
        · exact ⟨i₁, fp, candidate_primary x, .inl hfp⟩
        · exact ⟨i₂, fp, (candidate_primary x).alt, .inl hfp⟩
    · intro index g hg
      obtain ⟨hlt, x, hx, hc⟩ := h.sound.origin index g hg
      exact ⟨hlt, x, .inl hx, hc⟩
  · have hinsert := inserted_insert choices item h.sound
    have hadd : Cuckoo.add sha256 z choices s item =
        match insert sha256 z choices s.table fp i₁ i₂ with
        | (table, .placed) => (⟨table, s.count + 1⟩, some true)
        | (table, .full) => (⟨table, s.count⟩, none)
        | (table, .raised) => (⟨table, s.count⟩, none) := by
      rw [Cuckoo.add]
      exact if_neg hpresent
    change Inserted sha256 z s.table _ _ (insert sha256 z choices s.table fp i₁ i₂) at hinsert
    obtain ⟨⟨table, outcome⟩, hresult⟩ : ∃ result, insert sha256 z choices s.table fp i₁ i₂ = result :=
      ⟨_, rfl⟩
    rw [hresult] at hinsert hadd
    rw [hadd]
    -- a refused `add` has restored the table
    have hsame : Correct sha256 z ⟨s.table, s.count⟩
        (fun x ↦ known x ∨ (x = item ∧ (none : Option Bool) ≠ none))
        (fun x ↦ added x ∨ (x = item ∧ (none : Option Bool) = some true)) := by
      simpa using h
    cases outcome with
    | placed =>
      obtain ⟨hsound, htotal⟩ := hinsert
      refine ⟨by simpa using hsound, ?_⟩
      change s.count + 1 = total table
      rw [htotal, h.count]
    | full =>
      obtain rfl : table = s.table := hinsert
      exact hsame
    | raised =>
      obtain rfl : table = s.table := hinsert
      exact hsame

theorem Correct.after (h : Correct sha256 z s known added) (cs : List Call) :
    Correct sha256 z (after sha256 z s cs)
      (fun x ↦ known x ∨ ∃ r, (x, r) ∈ returns sha256 z s cs)
      (fun x ↦ added x ∨ (x, true) ∈ returns sha256 z s cs) := by
  induction cs generalizing s known added with
  | nil => simpa [Cuckoo.after, returns] using h
  | cons c cs ih =>
    cases c with
    | contains item => exact ih h
    | add item choices =>
      have hnext := ih (h.add choices item)
      have hmem : ∀ x r, (x, r) ∈ returns sha256 z s (.add item choices :: cs) ↔
          (x = item ∧ (Cuckoo.add sha256 z choices s item).2 = some r) ∨
            (x, r) ∈ returns sha256 z (next sha256 z s (.add item choices)) cs := by
        intro x r
        simp only [returns, List.mem_append, Option.mem_toList, Option.map_eq_some_iff,
          Prod.mk.injEq]
        constructor
        · rintro (⟨r', hr', rfl, rfl⟩ | h)
          · exact .inl ⟨rfl, hr'⟩
          · exact .inr h
        · rintro (⟨rfl, hr⟩ | h)
          · exact .inl ⟨r, hr, rfl, rfl⟩
          · exact .inr h
      have hknown : (fun x ↦ known x ∨ ∃ r, (x, r) ∈ returns sha256 z s (.add item choices :: cs)) =
          fun x ↦ (known x ∨ (x = item ∧ (Cuckoo.add sha256 z choices s item).2 ≠ none)) ∨
            ∃ r, (x, r) ∈ returns sha256 z (next sha256 z s (.add item choices)) cs := by
        funext x
        simp only [hmem, exists_or, exists_and_left, or_assoc, Option.ne_none_iff_exists']
      have hadded : (fun x ↦ added x ∨ (x, true) ∈ returns sha256 z s (.add item choices :: cs)) =
          fun x ↦ (added x ∨ (x = item ∧ (Cuckoo.add sha256 z choices s item).2 = some true)) ∨
            (x, true) ∈ returns sha256 z (next sha256 z s (.add item choices)) cs := by
        funext x
        simp only [hmem, or_assoc]
      rw [hknown, hadded]
      exact hnext

/-- **Soundness.** After any calls, whatever the hash and the choices: an item whose `add` returned is
reported present; a stored fingerprint is that of an item whose `add` returned `True`, and in one of the
two buckets of that item; no bucket has more than its size; and the count is the number of stored
fingerprints. -/
theorem cuckoo_sound (sha256 : Bytes → Bytes) (z : Sizing) (cs : List Call) :
    (∀ item r, (item, r) ∈ returns sha256 z (initial z) cs →
      contains sha256 z (after sha256 z (initial z) cs) item = true) ∧
    (∀ index fp, fp ∈ bucket (after sha256 z (initial z) cs).table index →
      ∃ item, (item, true) ∈ returns sha256 z (initial z) cs ∧ fingerprint sha256 z item = fp ∧
        (index = primary sha256 z item ∨
          index = altIndex sha256 z (primary sha256 z item) (fingerprint sha256 z item))) ∧
    (∀ b ∈ (after sha256 z (initial z) cs).table, b.length ≤ bucketSize) ∧
    (after sha256 z (initial z) cs).count =
      ((after sha256 z (initial z) cs).table.map List.length).sum := by
  have hinitial : Correct sha256 z (initial z) (fun _ ↦ False) fun _ ↦ False := correct_initial
  have h := hinitial.after cs
  refine ⟨fun item r hr ↦ h.contains (.inr ⟨r, hr⟩), fun index fp hfp ↦ ?_, fun b hb ↦ ?_, h.count⟩
  · obtain ⟨-, item, hadded, rfl, hindex⟩ := h.sound.origin index fp (.inl hfp)
    exact ⟨item, hadded.resolve_left id, rfl, hindex⟩
  · obtain ⟨i, hi, rfl⟩ := List.mem_iff_getElem.mp hb
    have hsize := h.sound.size i
    rwa [bucket, List.getD_eq_getElem?_getD, List.getElem?_eq_getElem hi] at hsize

end Runs

end Cuckoo

end ScrapyExtension
