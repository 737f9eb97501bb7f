import Mathlib.Tactic
import ScrapyExtension.Py.Bytes

/-!
# The Bloom filter

`BloomMembershipFilter` maps an item to `k` positions of a vector of `m` bits. The positions are
sampled without replacement, by Floyd's scheme: the `i`-th draw is below `m - k + i + 1`, and a draw
that has been taken already is replaced by the largest position that was possible, which has not been.

A draw is a hash reduced modulo the bound, and hashes in the last, incomplete block of residues are
rejected and drawn again with the next attempt. The number of the attempt has four bytes in the text
that is hashed, so a loop that meets no accepted sample ends in an `OverflowError`. The hash is a
parameter here, `Meets` says that every loop does meet one.

`_indices` is a generator: `add` sets bits between two draws, and `__contains__` stops at the first
bit that is not set. What a call has drawn, and whether it was cut off by an error, is `Generated`.
-/

namespace ScrapyExtension

open Py

namespace Bloom

/-- `_MAX_HASHES` -/
def maxHashes : ℕ := 64

/-- `_HASH_DOMAIN` -/
def hashDomain : Bytes := (str "scrapy-extension:bloom:v1").ascii ++ [0]

/-- `_HASH_RANGE` -/
def hashRange : ℕ := 2 ^ 256

/-- The numbers that `_select_sizing` admits. -/
structure Sizing where
  /-- `_num_bits` -/
  numBits : ℕ
  /-- `_num_hashes` -/
  numHashes : ℕ
  pos : 1 ≤ numHashes
  le_numBits : numHashes ≤ numBits
  le_max : numHashes ≤ maxHashes

/-- What a run of the generator yields. -/
structure Generated where
  positions : List ℕ
  /-- The run ended in an error. -/
  raised : Bool
deriving DecidableEq, Repr

/-- What the filter holds. -/
structure State where
  /-- `_bits` -/
  bits : List (BitVec 8)
  /-- `_count` -/
  count : ℕ
deriving DecidableEq, Repr

section Hash

variable (sha256 : Bytes → Bytes)

/-- The sample of an attempt; `none` when a number does not fit its bytes. -/
def sample (item : Bytes) (hashIndex attempt : ℕ) : Option ℕ := do
  let i ← toBytes 1 hashIndex
  let n ← toBytes 4 attempt
  return fromBytes (sha256 (hashDomain ++ i ++ n ++ item))

/-- `limit` -/
def limit (upperBound : ℕ) : ℕ := hashRange - hashRange % upperBound

/-- The loop of `_uniform_index`, for as many attempts as there are numbers of four bytes. -/
def uniformLoop (item : Bytes) (hashIndex upperBound : ℕ) : (left attempt : ℕ) → Option ℕ
  | 0, _ => none
  | left + 1, attempt =>
    match sample sha256 item hashIndex attempt with
    | none => none
    | some x =>
      if x < limit upperBound then some (x % upperBound)
      else uniformLoop item hashIndex upperBound left (attempt + 1)

/-- `_uniform_index` -/
def uniformIndex (item : Bytes) (hashIndex upperBound : ℕ) : Option ℕ :=
  uniformLoop sha256 item hashIndex upperBound (256 ^ 4) 0

/-- The loop of `_indices`, with `count` positions to go. -/
def indicesLoop (item : Bytes) : (count hashIndex upperIndex : ℕ) → (selected : List ℕ) → Generated
  | 0, _, _, _ => ⟨[], false⟩
  | count + 1, hashIndex, upperIndex, selected =>
    match uniformIndex sha256 item hashIndex (upperIndex + 1) with
    | none => ⟨[], true⟩
    | some draw =>
      let position := if draw ∈ selected then upperIndex else draw
      let rest := indicesLoop item count (hashIndex + 1) (upperIndex + 1) (position :: selected)
      ⟨position :: rest.positions, rest.raised⟩

/-- `_indices` -/
def indices (z : Sizing) (item : Bytes) : Generated :=
  indicesLoop sha256 item z.numHashes 0 (z.numBits - z.numHashes) []

/-- `mask` -/
def mask (idx : ℕ) : BitVec 8 := 1#8 <<< (idx &&& 7)

/-- `bits[idx >> 3] & mask`; `none` is an `IndexError`. -/
def isSet (bits : List (BitVec 8)) (idx : ℕ) : Option Bool :=
  (bits[idx >>> 3]?).map fun b ↦ b &&& mask idx ≠ 0

/-- The loop of `add`: the bits, and `already_present` unless a position is not in the vector. -/
def setBits : (positions : List ℕ) → (bits : List (BitVec 8)) → (alreadyPresent : Bool) →
    List (BitVec 8) × Option Bool
  | [], bits, alreadyPresent => (bits, some alreadyPresent)
  | idx :: rest, bits, alreadyPresent =>
    match isSet bits idx with
    | none => (bits, none)
    | some true => setBits rest bits alreadyPresent
    | some false => setBits rest (bits.modify (idx >>> 3) (· ||| mask idx)) false

/-- `add`, and what it returns unless it raises. -/
def add (z : Sizing) (s : State) (item : Bytes) : State × Option Bool :=
  let drawn := indices sha256 z item
  match setBits drawn.positions s.bits true with
  | (bits, none) => (⟨bits, s.count⟩, none)
  | (bits, some alreadyPresent) =>
    if drawn.raised then (⟨bits, s.count⟩, none)
    else (⟨bits, if alreadyPresent then s.count else s.count + 1⟩, some !alreadyPresent)

/-- The loop of `__contains__`. -/
def allSet (bits : List (BitVec 8)) (raised : Bool) : List ℕ → Option Bool
  | [] => if raised then none else some true
  | idx :: rest =>
    match isSet bits idx with
    | none => none
    | some false => some false
    | some true => allSet bits raised rest

/-- `__contains__` -/
def contains (z : Sizing) (s : State) (item : Bytes) : Option Bool :=
  let drawn := indices sha256 z item
  allSet s.bits drawn.raised drawn.positions

/-- A new filter. -/
def initial (z : Sizing) : State := ⟨List.replicate ((z.numBits + 7) >>> 3) 0, 0⟩

/-- The filter after some items were added. -/
def addAll (z : Sizing) (s : State) (items : List Bytes) : State :=
  items.foldl (fun s item ↦ (add sha256 z s item).1) s

/-- Every loop meets an accepted sample. -/
def Meets (z : Sizing) : Prop :=
  ∀ item hashIndex, hashIndex < z.numHashes → ∃ attempt < 256 ^ 4,
    ∃ x, sample sha256 item hashIndex attempt = some x ∧
      x < limit (z.numBits - z.numHashes + hashIndex + 1)

end Hash

/-! ## The positions of an item -/

section Positions

variable {sha256 : Bytes → Bytes} {item : Bytes}

theorem sample_isSome {hashIndex attempt : ℕ} (hi : hashIndex < maxHashes)
    (hn : attempt < 256 ^ 4) : (sample sha256 item hashIndex attempt).isSome := by
  have hbyte : hashIndex < 256 ^ 1 := by
    rw [maxHashes] at hi
    omega
  obtain ⟨i, hi⟩ := Option.isSome_iff_exists.mp (toBytes_isSome hbyte)
  obtain ⟨n, hn⟩ := Option.isSome_iff_exists.mp (toBytes_isSome hn)
  simp [sample, hi, hn]

/-- The loop ends with a draw below the bound, if an attempt that it comes to is accepted. -/
theorem uniformLoop_spec {hashIndex upperBound : ℕ} (hi : hashIndex < maxHashes)
    (hbound : 0 < upperBound) (left : ℕ) {attempt good x : ℕ} (hle : attempt ≤ good)
    (hlt : good < attempt + left) (hleft : attempt + left ≤ 256 ^ 4)
    (hx : sample sha256 item hashIndex good = some x) (hgood : x < limit upperBound) :
    ∃ draw < upperBound, uniformLoop sha256 item hashIndex upperBound left attempt = some draw := by
  induction left generalizing attempt with
  | zero => omega
  | succ left ih =>
    obtain ⟨y, hy⟩ := Option.isSome_iff_exists.mp
      (@sample_isSome sha256 item hashIndex attempt hi (by omega))
    by_cases haccept : y < limit upperBound
    · exact ⟨y % upperBound, Nat.mod_lt _ hbound, by simp [uniformLoop, hy, haccept]⟩
    · -- the accepted attempt is a later one
      have hne : attempt ≠ good := by
        rintro rfl
        rw [hx, Option.some.injEq] at hy
        exact haccept (hy ▸ hgood)
      obtain ⟨draw, hdraw, heq⟩ := @ih (attempt + 1) (by omega) (by omega) (by omega)
      exact ⟨draw, hdraw, by simpa [uniformLoop, hy, haccept] using heq⟩

/-- What one run of the generator promises, given what it has selected: the positions are new, distinct
and below the end. -/
structure Fresh (drawn : Generated) (count bound : ℕ) (selected : List ℕ) : Prop where
  raised : drawn.raised = false
  length : drawn.positions.length = count
  nodup : drawn.positions.Nodup
  disjoint : ∀ p ∈ drawn.positions, p ∉ selected
  lt : ∀ p ∈ drawn.positions, p < bound

/-- **Floyd's scheme.** A draw is at most the upper index, and the selected positions are below it: so
either the draw is new, or the upper index is. -/
theorem fresh_indicesLoop (count : ℕ) {hashIndex upperIndex : ℕ} {selected : List ℕ}
    (hdraws : ∀ i < count, ∃ draw < upperIndex + i + 1,
      uniformIndex sha256 item (hashIndex + i) (upperIndex + i + 1) = some draw)
    (hselected : ∀ p ∈ selected, p < upperIndex) :
    Fresh (indicesLoop sha256 item count hashIndex upperIndex selected) count (upperIndex + count)
      selected := by
  induction count generalizing hashIndex upperIndex selected with
  | zero => constructor <;> simp [indicesLoop]
  | succ count ih =>
    obtain ⟨draw, hlt, hdraw⟩ := hdraws 0 (Nat.succ_pos count)
    rw [Nat.add_zero, Nat.add_zero] at hdraw
    let position := if draw ∈ selected then upperIndex else draw
    have hposition : position ≤ upperIndex := by
      change (if draw ∈ selected then upperIndex else draw) ≤ upperIndex
      split_ifs <;> omega
    have hnew : position ∉ selected := by
      change (if draw ∈ selected then upperIndex else draw) ∉ selected
      split_ifs with h
      · exact fun hmem ↦ absurd (hselected _ hmem) (lt_irrefl _)
      · exact h
    have hrest := @ih (hashIndex + 1) (upperIndex + 1) (position :: selected)
      (fun i hi ↦ by
        obtain ⟨d, hd, heq⟩ := hdraws (i + 1) (by omega)
        exact ⟨d, by omega, by rw [← heq]; congr 1 <;> omega⟩)
      (fun p hp ↦ by
        rcases List.mem_cons.mp hp with rfl | hp
        · omega
        · exact (hselected p hp).trans (Nat.lt_succ_self _))
    have hstep : indicesLoop sha256 item (count + 1) hashIndex upperIndex selected =
        ⟨position :: (indicesLoop sha256 item count (hashIndex + 1) (upperIndex + 1)
          (position :: selected)).positions,
        (indicesLoop sha256 item count (hashIndex + 1) (upperIndex + 1)
          (position :: selected)).raised⟩ := by
      rw [indicesLoop, hdraw]
    rw [hstep]
    refine ⟨hrest.raised, ?_, ?_, ?_, ?_⟩
    · exact congrArg Nat.succ hrest.length
    · exact List.nodup_cons.mpr
        ⟨fun hmem ↦ hrest.disjoint position hmem List.mem_cons_self, hrest.nodup⟩
    · intro p hp
      rcases List.mem_cons.mp hp with rfl | hp
      · exact hnew
      · exact fun hmem ↦ hrest.disjoint p hp (List.mem_cons_of_mem _ hmem)
    · intro p hp
      rcases List.mem_cons.mp hp with rfl | hp
      · omega
      · have := hrest.lt p hp
        omega

theorem fresh_indices {z : Sizing} (h : Meets sha256 z) (item : Bytes) :
    Fresh (indices sha256 z item) z.numHashes z.numBits [] := by
  have hend : z.numBits - z.numHashes + z.numHashes = z.numBits := Nat.sub_add_cancel z.le_numBits
  have hloop := @fresh_indicesLoop sha256 item z.numHashes 0 (z.numBits - z.numHashes) []
    (fun i hi ↦ ?_) (by simp)
  · rwa [hend] at hloop
  · obtain ⟨good, hgood, x, hx, hlt⟩ := h item i hi
    rw [Nat.zero_add]
    exact uniformLoop_spec (hi.trans_le z.le_max) (Nat.succ_pos _) _ (Nat.zero_le good)
      (by omega) (by omega) hx hlt

end Positions

/-! ## The bits -/

/-- The positions whose bit is set. -/
def Marked (bits : List (BitVec 8)) (idx : ℕ) : Prop := isSet bits idx = some true

theorem getLsbD_mask (idx i : ℕ) (hi : i < 8) : (mask idx).getLsbD i = decide (i = idx % 8) := by
  have hmask : mask idx = 1#8 <<< (idx % 8) := by
    rw [mask, show (7 : ℕ) = 2 ^ 3 - 1 from rfl, Nat.and_two_pow_sub_one_eq_mod]
  rw [hmask, BitVec.getLsbD_shiftLeft, BitVec.getLsbD_one]
  simp only [hi, decide_true, Bool.true_and]
  rcases Nat.lt_trichotomy i (idx % 8) with h | h | h
  · simp [h, h.ne]
  · simp [h]
  · simp [h.ne', h.not_gt, Nat.sub_ne_zero_of_lt h]

theorem mask_and_ne_zero (b : BitVec 8) (idx : ℕ) :
    b &&& mask idx ≠ 0 ↔ b.getLsbD (idx % 8) = true := by
  have hlt : idx % 8 < 8 := Nat.mod_lt _ (by norm_num)
  constructor
  · intro h
    by_contra hbit
    refine h (BitVec.eq_of_getLsbD_eq fun i hi ↦ ?_)
    rw [BitVec.getLsbD_and, getLsbD_mask idx i hi]
    by_cases heq : i = idx % 8
    · simpa [heq] using hbit
    · simp [heq]
  · intro hbit h
    have hzero := congrArg (fun v : BitVec 8 ↦ v.getLsbD (idx % 8)) h
    simp only [BitVec.getLsbD_and, hbit, getLsbD_mask idx _ hlt] at hzero
    simp at hzero

section Bits

variable {bits : List (BitVec 8)} {idx other : ℕ}

theorem isSet_isSome (h : idx < 8 * bits.length) : (isSet bits idx).isSome := by
  have hlt : idx >>> 3 < bits.length := by
    rw [Nat.shiftRight_eq_div_pow]
    omega
  simp [isSet, List.getElem?_eq_getElem hlt]

theorem marked_iff : Marked bits idx ↔ ∃ b, bits[idx / 8]? = some b ∧ b.getLsbD (idx % 8) = true := by
  rw [Marked, isSet, Nat.shiftRight_eq_div_pow, Option.map_eq_some_iff]
  simp only [decide_eq_true_eq, mask_and_ne_zero, show 2 ^ 3 = 8 from rfl]

/-- Setting a bit marks its position, and no other one. -/
theorem marked_modify (h : idx < 8 * bits.length) :
    Marked (bits.modify (idx >>> 3) (· ||| mask idx)) other ↔ other = idx ∨ Marked bits other := by
  rw [marked_iff, marked_iff, Nat.shiftRight_eq_div_pow, List.getElem?_modify]
  have hother : other % 8 < 8 := Nat.mod_lt _ (by norm_num)
  by_cases hbyte : idx / 8 = other / 8
  · obtain ⟨b, hb⟩ : ∃ b, bits[other / 8]? = some b :=
      ⟨_, List.getElem?_eq_getElem (by omega)⟩
    have hsame : other = idx ↔ other % 8 = idx % 8 := by omega
    norm_num [hb, hbyte, hsame, getLsbD_mask idx _ hother, or_comm]
  · have hne : other ≠ idx := by
      rintro rfl
      exact hbyte rfl
    norm_num [hbyte, hne]

/-- **The loop of `add`.** It does not leave the vector, marks the positions and nothing else, and
`already_present` stays only if all of them were marked. -/
theorem setBits_spec (positions : List ℕ) (hpos : ∀ p ∈ positions, p < 8 * bits.length)
    (alreadyPresent : Bool) :
    ∃ bits' present, setBits positions bits alreadyPresent = (bits', some present) ∧
      bits'.length = bits.length ∧ (∀ i, Marked bits' i ↔ i ∈ positions ∨ Marked bits i) ∧
      (present = true ↔ alreadyPresent = true ∧ ∀ p ∈ positions, Marked bits p) := by
  induction positions generalizing bits alreadyPresent with
  | nil => exact ⟨bits, alreadyPresent, rfl, rfl, by simp, by simp⟩
  | cons p rest ih =>
    rw [List.forall_mem_cons] at hpos
    obtain ⟨b, hb⟩ := Option.isSome_iff_exists.mp (isSet_isSome hpos.1)
    cases b with
    | true =>
      have hmarked : Marked bits p := hb
      obtain ⟨bits', present, heq, hlength, hmem, hpresent⟩ := ih hpos.2 alreadyPresent
      refine ⟨bits', present, by simpa [setBits, hb] using heq, hlength, fun i ↦ ?_, ?_⟩
      · rw [hmem, List.mem_cons]
        constructor
        · tauto
        · rintro ((rfl | h) | h)
          · exact .inr hmarked
          · exact .inl h
          · exact .inr h
      · rw [hpresent, List.forall_mem_cons]
        simp [hmarked]
    | false =>
      have hnot : ¬ Marked bits p := by simp [Marked, hb]
      obtain ⟨bits', present, heq, hlength, hmem, hpresent⟩ :=
        @ih (bits.modify (p >>> 3) (· ||| mask p)) (by simpa using hpos.2) false
      refine ⟨bits', present, by simpa [setBits, hb] using heq, by simpa using hlength, fun i ↦ ?_, ?_⟩
      · rw [hmem, marked_modify hpos.1, List.mem_cons]
        tauto
      · rw [hpresent, List.forall_mem_cons]
        simp [hnot]

/-- The loop of `__contains__`. -/
theorem allSet_spec (positions : List ℕ) (hpos : ∀ p ∈ positions, p < 8 * bits.length) :
    ∃ present, allSet bits false positions = some present ∧
      (present = true ↔ ∀ p ∈ positions, Marked bits p) := by
  induction positions with
  | nil => exact ⟨true, rfl, by simp⟩
  | cons p rest ih =>
    rw [List.forall_mem_cons] at hpos
    obtain ⟨b, hb⟩ := Option.isSome_iff_exists.mp (isSet_isSome hpos.1)
    cases b with
    | true =>
      have hmarked : Marked bits p := hb
      obtain ⟨present, heq, hpresent⟩ := ih hpos.2
      exact ⟨present, by simpa [allSet, hb] using heq, by simp [hpresent, hmarked]⟩
    | false => exact ⟨false, by simp [allSet, hb], by simp [Marked, hb]⟩

end Bits

/-! ## The filter -/

section Filter

variable {sha256 : Bytes → Bytes} {z : Sizing} {s : State}

/-- The vector has its size. -/
def Sized (z : Sizing) (s : State) : Prop := s.bits.length = (z.numBits + 7) >>> 3

theorem Sized.lt (hs : Sized z s) {p : ℕ} (hp : p < z.numBits) : p < 8 * s.bits.length := by
  rw [hs, Nat.shiftRight_eq_div_pow]
  omega

theorem Sized.shiftRight_lt (hs : Sized z s) {p : ℕ} (hp : p < z.numBits) : p >>> 3 < s.bits.length := by
  rw [hs, Nat.shiftRight_eq_div_pow, Nat.shiftRight_eq_div_pow]
  omega

/-- One `add`: the positions of the item are marked, and it returns whether one of them was not. -/
theorem add_spec (h : Meets sha256 z) (hs : Sized z s) (item : Bytes) :
    ∃ new, (add sha256 z s item).2 = some new ∧ Sized z (add sha256 z s item).1 ∧
      (∀ i, Marked (add sha256 z s item).1.bits i ↔
        i ∈ (indices sha256 z item).positions ∨ Marked s.bits i) ∧
      (new = false ↔ ∀ p ∈ (indices sha256 z item).positions, Marked s.bits p) := by
  have hfresh := fresh_indices h item
  obtain ⟨bits, present, heq, hlength, hmem, hpresent⟩ :=
    setBits_spec (indices sha256 z item).positions (fun p hp ↦ hs.lt (hfresh.lt p hp)) true
  refine ⟨!present, ?_, ?_, ?_, by simpa using hpresent⟩
  · simp [add, heq, hfresh.raised]
  · simpa [add, heq, hfresh.raised, Sized] using hlength.trans hs
  · simpa [add, heq, hfresh.raised] using hmem

theorem contains_spec (h : Meets sha256 z) (hs : Sized z s) (item : Bytes) :
    ∃ present, contains sha256 z s item = some present ∧
      (present = true ↔ ∀ p ∈ (indices sha256 z item).positions, Marked s.bits p) := by
  have hfresh := fresh_indices h item
  obtain ⟨present, heq, hpresent⟩ :=
    allSet_spec (indices sha256 z item).positions (fun p hp ↦ hs.lt (hfresh.lt p hp))
  exact ⟨present, by simpa [contains, hfresh.raised] using heq, hpresent⟩

theorem sized_initial (z : Sizing) : Sized z (initial z) := by simp [Sized, initial]

theorem sized_addAll (h : Meets sha256 z) (hs : Sized z s) (items : List Bytes) :
    Sized z (addAll sha256 z s items) := by
  induction items generalizing s with
  | nil => exact hs
  | cons item items ih =>
    obtain ⟨new, -, hs, -, -⟩ := add_spec h hs item
    exact ih hs

/-- What is marked stays marked. -/
theorem marked_addAll (h : Meets sha256 z) (hs : Sized z s) (items : List Bytes) {i : ℕ}
    (hi : Marked s.bits i) : Marked (addAll sha256 z s items).bits i := by
  induction items generalizing s with
  | nil => exact hi
  | cons item items ih =>
    obtain ⟨new, -, hs', hmem, -⟩ := add_spec h hs item
    exact ih hs' ((hmem i).mpr (.inr hi))

theorem marked_of_mem_addAll (h : Meets sha256 z) (hs : Sized z s) {items : List Bytes} {item : Bytes}
    (hitem : item ∈ items) : ∀ p ∈ (indices sha256 z item).positions,
      Marked (addAll sha256 z s items).bits p := by
  induction items generalizing s with
  | nil => simp at hitem
  | cons first items ih =>
    obtain ⟨new, -, hs', hmem, -⟩ := add_spec h hs first
    rcases List.mem_cons.mp hitem with rfl | hitem
    · exact fun p hp ↦ marked_addAll h hs' items ((hmem p).mpr (.inl hp))
    · exact ih hs' hitem

/-- **Soundness.** If every rejection loop meets an accepted sample, an item has exactly `k` distinct
positions, below `m`; and after any items were added, the bytes of these positions are in the vector,
each of the items is reported present, and the next `add` returns `True` exactly when its item is not
reported present. -/
theorem bloom_sound (sha256 : Bytes → Bytes) (z : Sizing) (h : Meets sha256 z) :
    (∀ item, (indices sha256 z item).raised = false ∧
      (indices sha256 z item).positions.length = z.numHashes ∧
      (indices sha256 z item).positions.Nodup ∧
      ∀ p ∈ (indices sha256 z item).positions, p < z.numBits) ∧
    ∀ items,
      (∀ item, ∀ p ∈ (indices sha256 z item).positions,
        p >>> 3 < (addAll sha256 z (initial z) items).bits.length) ∧
      (∀ item ∈ items, contains sha256 z (addAll sha256 z (initial z) items) item = some true) ∧
      (∀ item, ∃ present, contains sha256 z (addAll sha256 z (initial z) items) item = some present ∧
        (add sha256 z (addAll sha256 z (initial z) items) item).2 = some !present) := by
  refine ⟨fun item ↦ ?_, fun items ↦ ⟨fun item p hp ↦ ?_, fun item hitem ↦ ?_, fun item ↦ ?_⟩⟩
  · have hfresh := fresh_indices h item
    exact ⟨hfresh.raised, hfresh.length, hfresh.nodup, hfresh.lt⟩
  · exact (sized_addAll h (sized_initial z) items).shiftRight_lt ((fresh_indices h item).lt p hp)
  · obtain ⟨present, heq, hpresent⟩ := contains_spec h (sized_addAll h (sized_initial z) items) item
    rw [heq, hpresent.mpr (marked_of_mem_addAll h (sized_initial z) hitem)]
  · have hs := sized_addAll h (sized_initial z) items
    obtain ⟨present, heq, hpresent⟩ := contains_spec h hs item
    obtain ⟨new, hnew, -, -, hiff⟩ := add_spec h hs item
    refine ⟨present, heq, ?_⟩
    have hflip : new = false ↔ present = true := hiff.trans hpresent.symm
    rw [hnew]
    cases new <;> cases present <;> simp_all

/-- A hash that copies the first thirty-two bytes behind the domain. -/
def copyHash (text : Bytes) : Bytes := (List.range 32).map fun i ↦ (text.drop 26).getD i 0

/-- Two bits, both of which are positions of every item. -/
def twoBits : Sizing := ⟨2, 2, Nat.zero_lt_two, by decide, by decide⟩

theorem meets_copyHash : Meets copyHash twoBits := by
  intro item hashIndex hi
  have hi : hashIndex < 2 := hi
  obtain ⟨x, hx⟩ := Option.isSome_iff_exists.mp
    (@sample_isSome copyHash item hashIndex 0
      (hi.trans (by decide : 2 < maxHashes)) (by norm_num))
  refine ⟨0, by norm_num, x, hx, ?_⟩
  have hlt : x < hashRange := by
    obtain ⟨i, hi, n, hn, rfl⟩ : ∃ i, toBytes 1 hashIndex = some i ∧ ∃ n, toBytes 4 0 = some n ∧
        fromBytes (copyHash (hashDomain ++ (i ++ (n ++ item)))) = x := by
      simpa [sample, Option.bind_eq_some_iff] using hx
    exact (fromBytes_lt _).trans_eq (by simp [copyHash, hashRange])
  -- neither of the two bounds leaves an incomplete block
  have hdvd : hashRange % (twoBits.numBits - twoBits.numHashes + hashIndex + 1) = 0 := by
    interval_cases hashIndex <;> norm_num [twoBits, hashRange]
  rwa [limit, hdvd, Nat.sub_zero]

theorem bloom_sound_twoBits : Meets copyHash twoBits ∧
    (∀ item, (indices copyHash twoBits item).positions.length = 2) ∧
    contains copyHash twoBits (addAll copyHash twoBits (initial twoBits) [[1], [2]]) [1] = some true := by
  obtain ⟨hpositions, hadd⟩ := bloom_sound copyHash twoBits meets_copyHash
  exact ⟨meets_copyHash, fun item ↦ (hpositions item).2.1, (hadd [[1], [2]]).2.1 [1] (by simp)⟩

end Filter

end Bloom

end ScrapyExtension
