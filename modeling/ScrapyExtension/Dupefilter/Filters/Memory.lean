import ScrapyExtension.Machine.Recency
import ScrapyExtension.Py.Bytes
import ScrapyExtension.Py.OrderedDict

/-!
# The memory filter

`MemoryMembershipFilter` keeps the items themselves, in an `OrderedDict` whose values are not used. With a
`maxsize` it is a cache of the items that were touched last: an `add` touches its item, and a lookup does
if it finds the item. Then the item is the last one of the dictionary, and the first one makes room for a
new one.

On its keys every operation is one of `Recency`.
-/

namespace ScrapyExtension

open Py

namespace MemoryFilter

/-- What the filter holds. -/
structure State where
  /-- `_maxsize` -/
  maxsize : Option ℕ
  pos : ∀ n, maxsize = some n → 0 < n
  /-- `_data` -/
  data : OrderedDict Bytes Unit

/-- `__init__`; `none` is the `ValueError`. -/
def new (maxsize : Option ℤ) : Option State :=
  match maxsize with
  | none => some ⟨none, by simp, .empty⟩
  | some n => if h : n ≤ 0 then none else some ⟨some n.toNat, by simp; omega, .empty⟩

namespace State

/-- The items, the one that was touched last at the end. -/
def tracked (s : State) : List Bytes := s.data.keys

/-- `__len__` -/
def size (s : State) : ℕ := s.data.entries.length

/-- The items that stay when another one comes. -/
def makeRoom (s : State) : OrderedDict Bytes Unit :=
  match s.maxsize with
  | none => s.data
  | some n => if n ≤ s.size then s.data.popFirst else s.data

/-- `add`, with what it returns. -/
def add (s : State) (item : Bytes) : State × Bool :=
  if item ∈ s.tracked then ({ s with data := s.data.moveToEnd item }, false)
  else ({ s with data := s.makeRoom.set item () }, true)

/-- `__contains__`, with what it returns. -/
def contains (s : State) (item : Bytes) : State × Bool :=
  if item ∈ s.tracked then ({ s with data := s.data.moveToEnd item }, true) else (s, false)

/-- `clear` -/
def clear (s : State) : State := { s with data := .empty }

/-- `remove`, with what it returns. -/
def remove (s : State) (item : Bytes) : State × Bool :=
  if item ∈ s.tracked then ({ s with data := s.data.erase item }, true) else (s, false)

end State

/-- A call of the filter. -/
inductive Call
  | add (item : Bytes)
  | contains (item : Bytes)
  | remove (item : Bytes)
  | clear
deriving DecidableEq, Repr

namespace State

/-- One call. -/
def next (s : State) : Call → State
  | .add item => (s.add item).1
  | .contains item => (s.contains item).1
  | .remove item => (s.remove item).1
  | .clear => s.clear

/-- The filter after some calls. -/
def after (s : State) (calls : List Call) : State := calls.foldl next s

/-- The item that the call touches: that of an `add`, and that of a lookup which finds it. -/
def touched (s : State) : Call → Option Bytes
  | .add item => some item
  | .contains item => if (s.contains item).2 then some item else none
  | .remove _ => none
  | .clear => none

/-- The items that are touched by some calls, in order. -/
def touches : State → List Call → List Bytes
  | _, [] => []
  | s, c :: calls => (s.touched c).toList ++ touches (s.next c) calls

/-! ## The calls on the keys -/

variable {s : State} {n : ℕ} {item other : Bytes} {c : Call}

theorem size_eq (s : State) : s.size = s.tracked.length := s.data.length_keys.symm

theorem tracked_moveToEnd (h : item ∈ s.tracked) :
    (s.data.moveToEnd item).keys = s.tracked.filter (· ≠ item) ++ [item] :=
  OrderedDict.keys_moveToEnd h

theorem keys_makeRoom (hmax : s.maxsize = some n) :
    s.makeRoom.keys = if n ≤ s.tracked.length then s.tracked.tail else s.tracked := by
  have hroom : s.makeRoom = if n ≤ s.size then s.data.popFirst else s.data := by rw [makeRoom, hmax]
  rw [hroom, ← size_eq]
  split_ifs
  · exact OrderedDict.keys_popFirst _
  · rfl

theorem tracked_add (hmax : s.maxsize = some n) (item : Bytes) :
    (s.add item).1.tracked = Recency.touch n s.tracked item := by
  rw [add, Recency.touch]
  split_ifs with hitem hfull
  · exact tracked_moveToEnd hitem
  · have hroom : s.makeRoom.keys = s.tracked.tail := by rw [keys_makeRoom hmax, if_pos hfull]
    change (s.makeRoom.set item ()).keys = _
    rw [OrderedDict.keys_set, hroom, if_neg fun h ↦ hitem (List.mem_of_mem_tail h)]
  · have hroom : s.makeRoom.keys = s.tracked := by rw [keys_makeRoom hmax, if_neg hfull]
    change (s.makeRoom.set item ()).keys = _
    rw [OrderedDict.keys_set, hroom, if_neg hitem]

/-- `add` returns `True` for an item that is not tracked. -/
theorem add_eq_true_iff : (s.add item).2 = true ↔ item ∉ s.tracked := by
  rw [add]
  split_ifs with h <;> simp [h]

theorem contains_eq_true_iff : (s.contains item).2 = true ↔ item ∈ s.tracked := by
  rw [contains]
  split_ifs with h <;> simp [h]

theorem tracked_contains_of_mem (h : item ∈ s.tracked) (n : ℕ) :
    (s.contains item).1.tracked = Recency.touch n s.tracked item := by
  rw [contains, Recency.touch, if_pos h, if_pos h]
  exact tracked_moveToEnd h

theorem contains_of_notMem (h : item ∉ s.tracked) : (s.contains item).1 = s := by
  rw [contains, if_neg h]

theorem tracked_remove (s : State) (item : Bytes) :
    (s.remove item).1.tracked = s.tracked.filter (· ≠ item) := by
  rw [remove]
  split_ifs with h
  · exact OrderedDict.keys_erase ..
  · exact (Recency.filter_ne_of_notMem h).symm

theorem nodup_tracked (s : State) : s.tracked.Nodup := s.data.nodup

/-- What a call does to the items: it touches one, removes one, clears them, or is a lookup that does not
find its item. -/
theorem next_cases (hmax : s.maxsize = some n) (c : Call) :
    (∃ item, s.touched c = some item ∧ (s.next c).tracked = Recency.touch n s.tracked item) ∨
    (s.touched c = none ∧ ((∃ item, c = .remove item ∧
        (s.next c).tracked = s.tracked.filter (· ≠ item)) ∨
      (c = .clear ∧ (s.next c).tracked = []) ∨ (s.next c).tracked = s.tracked)) := by
  rcases c with item | item | item | _
  · exact .inl ⟨item, rfl, tracked_add hmax item⟩
  · by_cases h : item ∈ s.tracked
    · refine .inl ⟨item, ?_, tracked_contains_of_mem h n⟩
      exact if_pos (contains_eq_true_iff.mpr h)
    · refine .inr ⟨?_, .inr (.inr ?_)⟩
      · exact if_neg fun hfound ↦ h (contains_eq_true_iff.mp hfound)
      · rw [next, contains_of_notMem h]
  · exact .inr ⟨rfl, .inl ⟨item, rfl, tracked_remove s item⟩⟩
  · exact .inr ⟨rfl, .inr (.inl ⟨rfl, rfl⟩)⟩

@[simp] theorem maxsize_next (s : State) (c : Call) : (s.next c).maxsize = s.maxsize := by
  rcases c with item | item | item | _
  · rw [next, add]
    split_ifs <;> rfl
  · rw [next, contains]
    split_ifs <;> rfl
  · rw [next, remove]
    split_ifs <;> rfl
  · rfl

theorem after_append (s : State) (calls later : List Call) :
    s.after (calls ++ later) = (s.after calls).after later := List.foldl_append ..

@[simp] theorem maxsize_after (s : State) (calls : List Call) : (s.after calls).maxsize = s.maxsize := by
  induction calls generalizing s with
  | nil => rfl
  | cons c calls ih => exact (ih (s.next c)).trans (maxsize_next s c)

/-! ## Runs -/

theorem length_tracked_next (hmax : s.maxsize = some n) (h : s.tracked.length ≤ n) :
    (s.next c).tracked.length ≤ n := by
  obtain ⟨item, -, htouch⟩ | ⟨-, ⟨item, -, hremove⟩ | ⟨-, hclear⟩ | hsame⟩ := next_cases hmax c
  · rw [htouch]
    exact Recency.length_touch_le (s.pos n hmax) s.nodup_tracked h
  · rw [hremove]
    exact (List.length_filter_le ..).trans h
  · rw [hclear]
    exact Nat.zero_le n
  · rwa [hsame]

theorem length_tracked_after (hmax : s.maxsize = some n) (h : s.tracked.length ≤ n) (calls : List Call) :
    (s.after calls).tracked.length ≤ n := by
  induction calls generalizing s with
  | nil => exact h
  | cons c calls ih => exact ih (by simpa using hmax) (length_tracked_next hmax h)

/-- Without removals, the items are the most recent ones. -/
theorem recent_after (hmax : s.maxsize = some n) {before : List Bytes}
    (h : Recency.Recent n before s.tracked) (calls : List Call)
    (hcalls : ∀ c ∈ calls, c ≠ .clear ∧ ∀ item, c ≠ .remove item) :
    Recency.Recent n (before ++ s.touches calls) (s.after calls).tracked := by
  induction calls generalizing s before with
  | nil => simpa [touches, after] using h
  | cons c calls ih =>
    obtain ⟨⟨hclear, hremove⟩, hrest⟩ := List.forall_mem_cons.mp hcalls
    rw [touches, ← List.append_assoc]
    refine ih (by simpa using hmax) ?_ hrest
    obtain ⟨item, htouched, htouch⟩ | ⟨htouched, ⟨item, rfl, -⟩ | ⟨rfl, -⟩ | hsame⟩ := next_cases hmax c
    · rw [htouched, htouch]
      exact h.touch (s.pos n hmax) item
    · exact absurd rfl (hremove item)
    · exact absurd rfl hclear
    · rw [htouched, hsame]
      simpa using h

/-- An item stays while fewer than `n` others are touched and it is not removed itself. -/
theorem behind_after (hmax : s.maxsize = some n) {since : Finset Bytes}
    (h : Recency.Behind since s.tracked item) (calls : List Call)
    (hcalls : ∀ c ∈ calls, c ≠ .remove item ∧ c ≠ .clear)
    (hcard : (since ∪ (s.touches calls).toFinset.erase item).card < n) :
    item ∈ (s.after calls).tracked := by
  induction calls generalizing s since with
  | nil => exact h.mem
  | cons c calls ih =>
    obtain ⟨⟨hremove, hclear⟩, hrest⟩ := List.forall_mem_cons.mp hcalls
    rw [touches] at hcard
    obtain ⟨other, htouched, htouch⟩ | ⟨htouched, ⟨other, rfl, hfilter⟩ | ⟨rfl, -⟩ | hsame⟩ :=
      next_cases hmax c
    · rw [htouched] at hcard
      by_cases hitem : other = item
      · subst hitem
        have hself : Recency.Behind since (s.next c).tracked other := by
          rw [htouch]
          exact Recency.behind_touch_self since
        refine ih (by simpa using hmax) hself hrest ?_
        simpa using hcard
      · have hunion : since ∪ ((some other).toList ++ (s.next c).touches calls).toFinset.erase item =
            insert other since ∪ ((s.next c).touches calls).toFinset.erase item := by
          ext y
          by_cases hy : y = other <;> simp [hy, hitem]
        rw [hunion] at hcard
        have hbehind : Recency.Behind (insert other since) (s.next c).tracked item := by
          rw [htouch]
          refine h.touch s.nodup_tracked (Ne.symm hitem) ?_
          exact (Finset.card_le_card Finset.subset_union_left).trans_lt hcard
        exact ih (by simpa using hmax) hbehind hrest hcard
    · have hbehind : Recency.Behind since (s.next (.remove other)).tracked item := by
        rw [hfilter]
        exact h.filter fun heq ↦ hremove (heq ▸ rfl)
      refine ih (by simpa using hmax) hbehind hrest ?_
      simpa [htouched] using hcard
    · exact absurd rfl hclear
    · refine ih (by simpa using hmax) (hsame.symm ▸ h) hrest ?_
      simpa [htouched] using hcard

/-- What a call touches is tracked after it. -/
theorem behind_next (hmax : s.maxsize = some n) (h : s.touched c = some item) :
    Recency.Behind ∅ (s.next c).tracked item := by
  obtain ⟨other, htouched, htouch⟩ | ⟨htouched, -⟩ := next_cases hmax c
  · obtain rfl : other = item := Option.some.inj (htouched.symm.trans h)
    rw [htouch]
    exact Recency.behind_touch_self ∅
  · rw [h] at htouched
    exact absurd htouched (Option.some_ne_none item)

end State

theorem new_eq_some {maxsize : ℤ} {s : State} (h : new (some maxsize) = some s) :
    s.maxsize = some maxsize.toNat ∧ s.tracked = [] := by
  rw [new] at h
  split_ifs at h
  obtain rfl := Option.some.inj h
  exact ⟨rfl, rfl⟩

/-- **The memory filter.** After any calls of a new filter with a finite `maxsize`: the size is at most
`maxsize`; an item is tracked that was touched at some time, not removed or cleared since, and followed
by touches of fewer than `maxsize` distinct other items; without removals, what is tracked is the last
`maxsize` items by their last touches, in that order; and `add` returns `True` exactly for an item that is
not tracked. -/
theorem memory_lru {maxsize : ℤ} {new : State} (h : MemoryFilter.new (some maxsize) = some new)
    (calls : List Call) :
    ((new.after calls).size : ℤ) ≤ maxsize ∧
    (∀ before c later item, calls = before ++ c :: later →
      (new.after before).touched c = some item → (∀ d ∈ later, d ≠ .remove item ∧ d ≠ .clear) →
      ((((new.after (before ++ [c])).touches later).toFinset.erase item).card : ℤ) < maxsize →
      item ∈ (new.after calls).tracked) ∧
    ((∀ c ∈ calls, c ≠ .clear ∧ ∀ item, c ≠ .remove item) →
      (new.after calls).tracked = (new.touches calls).dedup.rtake maxsize.toNat) ∧
    ∀ item, ((new.after calls).add item).2 = true ↔ item ∉ (new.after calls).tracked := by
  obtain ⟨hmax, hempty⟩ := new_eq_some h
  have hpos := new.pos _ hmax
  refine ⟨?_, ?_, fun hcalls ↦ ?_, fun item ↦ State.add_eq_true_iff⟩
  · have := State.length_tracked_after hmax (by simp [hempty]) calls
    rw [State.size_eq]
    omega
  · rintro before c later item rfl htouched hlater hcard
    have hstate : new.after (before ++ c :: later) = ((new.after before).next c).after later := by
      rw [State.after_append]
      rfl
    have hnext : new.after (before ++ [c]) = (new.after before).next c := by
      rw [State.after_append]
      rfl
    rw [hnext] at hcard
    rw [hstate]
    have hmax' : (new.after before).maxsize = some maxsize.toNat := by simpa using hmax
    refine State.behind_after (by simpa using hmax') (State.behind_next hmax' htouched) later hlater ?_
    rw [Finset.empty_union]
    omega
  · have hstart : Recency.Recent maxsize.toNat [] new.tracked := by
      rw [hempty]
      exact Recency.recent_nil
    exact (State.recent_after hmax hstart calls hcalls).eq_rtake

/-- Room for two items: the lookup keeps the first one, and the second one is dropped. -/
theorem memory_lru_two : ∃ new, MemoryFilter.new (some 2) = some new ∧
    (new.after [.add [1], .add [2], .contains [1], .add [3]]).tracked = [[1], [3]] ∧
    ((new.after [.add [1], .add [2], .contains [1], .add [3]]).add [2]).2 = true := by
  have hnew : MemoryFilter.new (some 2) = some ⟨some 2, by simp, .empty⟩ := rfl
  refine ⟨_, hnew, ?_⟩
  obtain ⟨-, -, hrecent, hadd⟩ := memory_lru hnew [.add [1], .add [2], .contains [1], .add [3]]
  have htracked := hrecent (by simp)
  refine ⟨htracked.trans (by decide), (hadd [2]).mpr ?_⟩
  rw [htracked]
  decide

end MemoryFilter

end ScrapyExtension
