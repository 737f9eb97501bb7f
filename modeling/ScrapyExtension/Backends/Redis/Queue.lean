import Mathlib.Data.List.InsertIdx
import Mathlib.Data.Nat.Digits.Lemmas
import ScrapyExtension.Backends.Redis.Keys
import ScrapyExtension.Backends.Redis.Server
import ScrapyExtension.Machine.Basic
import ScrapyExtension.Machine.StableQueue
import ScrapyExtension.Py.SurrogateEscape

/-!
# The queue of the Redis backend

A queue has three keys: a sorted set of members, a hash from members to payloads, and a counter. A member
is the value of the counter at its push, in twenty digits, and a random text behind it; its score is the
negated priority. `ZPOPMIN` takes the least score, and of equal scores the least member, which is the one
that was pushed first.

## Atomicity

Each Lua script is one step of the server, and so is `DEL` with three keys. A pop with a timeout is as
many attempts as it makes: all but its last one have returned nothing. Which client takes a step does not
matter, except that it may decode responses to text or not.
-/

namespace ScrapyExtension

open Py

namespace Redis

variable {σ : Type*} (server : Server σ)

/-! ## The scripts -/

/-- `string.format('%020d', counter)`, for a counter that is exact -/
def padded (counter : ℕ) : Str :=
  List.replicate (20 - (decimal counter).length) (chr '0') ++ decimal counter

/-- The member of a push. -/
def memberOf (counter : ℕ) (uuid : Str) : Str := padded counter ++ chr ':' :: uuid

/-- `_PUSH_LUA` -/
def pushScript (s : σ) (itemsKey payloadKey counterKey : Str) (uuid : Str) (score : Number) (item : Bytes) :
    σ × Str :=
  let (s, counter) := server.incr s counterKey
  let member := memberOf counter uuid
  let s := server.zadd s itemsKey score member
  (server.hset s payloadKey member item, member)

/-- The second element of a reply. -/
inductive Detail
  | nil
  | text (b : Bytes)

/-- A reply of the pop script. -/
structure Reply where
  status : ℕ
  detail : Detail

/-- `_POP_LUA`. What `HGET` gives to a script is a string or `false`, so that the third status does not
occur. -/
def popScript (s : σ) (itemsKey payloadKey : Str) : σ × Reply :=
  match server.zpopmin s itemsKey with
  | (s, none) => (s, ⟨0, .nil⟩)
  | (s, some member) =>
    let payload := server.hget s payloadKey member
    let s := server.hdel s payloadKey member
    match payload with
    | none => (s, ⟨2, .nil⟩)
    | some b => (s, ⟨1, .text b⟩)

/-! ## The backend -/

/-- What the client makes of a detail. -/
inductive Decoded
  | none
  | str (s : Str)
  | bytes (b : Bytes)

/-- Responses are decoded with `surrogateescape`, or not at all. -/
def Detail.decoded (decodeResponses : Bool) : Detail → Decoded
  | nil => .none
  | text b => if decodeResponses then .str (decodeEscaped b) else .bytes b

/-- The end of `_atomic_pop_once`; `none` when it raises -/
def popResult (status : ℕ) (detail : Decoded) : Option (Option Bytes) :=
  if status = 0 then some none
  else if status = 1 then
    match detail with
    | .str s => (encodeEscaped s).map some
    | .bytes b => some (some b)
    | .none => none
  else if status = 2 then some none
  else none

/-- A logical queue. -/
structure Queue where
  space : Namespace
  name : Name

namespace Queue

def itemsKey (k : Queue) : Str := queueKey k.space k.name.text

def payloadKey (k : Queue) : Str := Redis.payloadKey k.space k.name.text

def counterKey (k : Queue) : Str := Redis.counterKey k.space k.name.text

end Queue

inductive Label
  | push (uuid : Str) (priority : Number) (item : Bytes)
  /-- An attempt of a pop. -/
  | pop (decodeResponses : Bool)
  | queueLen
  | clearQueue

/-- The server, and what the clients were told. -/
structure State (σ : Type*) where
  redis : σ
  events : List (StableQueue.Event Number Bytes)

variable {server} in
def State.record (s : State σ) (redis : σ) (e : StableQueue.Event Number Bytes) : State σ :=
  ⟨redis, s.events ++ [e]⟩

/-- One step. -/
def State.step (k : Queue) (s : State σ) : Label → State σ
  | .push uuid priority item =>
    s.record (pushScript server s.redis k.itemsKey k.payloadKey k.counterKey uuid priority.neg item).1
      (.push priority item)
  | .pop decodeResponses =>
    let (redis, reply) := popScript server s.redis k.itemsKey k.payloadKey
    match popResult reply.status (reply.detail.decoded decodeResponses) with
    | some result => s.record redis (.pop result)
    | none => s.record redis .refused
  | .queueLen => s.record s.redis (.queueLen (server.zcard s.redis k.itemsKey))
  | .clearQueue =>
    s.record (server.del s.redis [k.itemsKey, k.payloadKey, k.counterKey]) .clear

/-- The clients of one queue, from a given server on. -/
def machine (k : Queue) (redis : σ) : Machine (State σ) Label where
  init := ⟨redis, []⟩
  step s a := some (s.step server k a)

/-- A push finds the counter exact. -/
def CounterExact (k : Queue) (s : State σ) : Label → Prop
  | .push .. => (server.view s.redis).counter k.counterKey + 1 < 2 ^ 53
  | _ => True

instance (k : Queue) (s : State σ) : DecidablePred (CounterExact server k s)
  | .push .. => inferInstanceAs (Decidable (_ < _))
  | .pop _ | .queueLen | .clearQueue => isTrue trivial

/-! ## Members in the order of their counters -/

theorem readDecimal_foldl (s : Str) (n : ℕ) :
    s.foldl (fun n c ↦ 10 * n + digitValue c) n = n * 10 ^ s.length + readDecimal s := by
  unfold readDecimal
  induction s generalizing n with
  | nil => simp
  | cons c s ih =>
    rw [List.foldl_cons, List.foldl_cons, ih, ih (10 * 0 + digitValue c), List.length_cons, pow_succ]
    ring

theorem readDecimal_cons (c : CodePoint) (s : Str) :
    readDecimal (c :: s) = digitValue c * 10 ^ s.length + readDecimal s := by
  rw [readDecimal, List.foldl_cons, readDecimal_foldl, Nat.mul_zero, Nat.zero_add]

theorem digitValue_le {c : CodePoint} (h : isDigit c = true) : digitValue c ≤ 9 := by
  simp only [isDigit, Bool.and_eq_true, decide_eq_true_eq] at h
  unfold digitValue
  omega

theorem readDecimal_lt {s : Str} (h : ∀ c ∈ s, isDigit c = true) : readDecimal s < 10 ^ s.length := by
  induction s with
  | nil => exact Nat.one_pos
  | cons c s ih =>
    have hc := digitValue_le (h c List.mem_cons_self)
    have hs := ih fun d hd ↦ h d (List.mem_cons_of_mem c hd)
    rw [readDecimal_cons, List.length_cons, pow_succ]
    nlinarith

/-- Numerals of one length are ordered like their values, whatever comes behind them. -/
theorem append_lt_append_of_readDecimal {s t x y : Str} (hs : ∀ c ∈ s, isDigit c = true)
    (ht : ∀ c ∈ t, isDigit c = true) (hlength : s.length = t.length)
    (h : readDecimal s < readDecimal t) : s ++ x < t ++ y := by
  induction s generalizing t with
  | nil =>
    obtain rfl : t = [] := List.length_eq_zero_iff.mp hlength.symm
    exact absurd h (lt_irrefl _)
  | cons c s ih =>
    cases t with
    | nil => simp at hlength
    | cons d t =>
      have hlength' : s.length = t.length := Nat.succ.inj hlength
      have hdigit := hs c List.mem_cons_self
      have hdigit' := ht d List.mem_cons_self
      have hs' := fun e he ↦ hs e (List.mem_cons_of_mem c he)
      have ht' := fun e he ↦ ht e (List.mem_cons_of_mem d he)
      rw [readDecimal_cons, readDecimal_cons, hlength'] at h
      rw [List.cons_append, List.cons_append, List.cons_lt_cons_iff]
      have hlt := readDecimal_lt ht'
      -- The first digits decide, unless they are equal.
      rcases Nat.lt_trichotomy (digitValue c) (digitValue d) with hcd | hcd | hcd
      · left
        simp only [digitValue, isDigit, Bool.and_eq_true, decide_eq_true_eq] at hcd hdigit hdigit'
        exact Fin.lt_def.mpr (by omega)
      · right
        have heq : c = d := by
          simp only [digitValue, isDigit, Bool.and_eq_true, decide_eq_true_eq] at hcd hdigit hdigit'
          exact Fin.ext (by omega)
        rw [hcd] at h
        exact ⟨heq, ih hs' ht' hlength' (Nat.lt_of_add_lt_add_left h)⟩
      · exfalso
        have := Nat.mul_le_mul_right (10 ^ t.length) (Nat.succ_le_of_lt hcd)
        rw [Nat.succ_mul] at this
        omega

theorem length_decimal_le_twenty {n : ℕ} (h : n < 10 ^ 20) : (decimal n).length ≤ 20 := by
  unfold decimal
  split
  · simp
  · rw [List.length_map, List.length_reverse]
    exact (Nat.digits_length_le_iff (by norm_num) n).mpr h

theorem length_padded {n : ℕ} (h : n < 10 ^ 20) : (padded n).length = 20 := by
  rw [padded, List.length_append, List.length_replicate]
  exact Nat.sub_add_cancel (length_decimal_le_twenty h)

theorem isDigit_padded (n : ℕ) : ∀ c ∈ padded n, isDigit c = true := by
  intro c hc
  rw [padded, List.mem_append] at hc
  rcases hc with hc | hc
  · rw [List.eq_of_mem_replicate hc]
    decide
  · exact decimal_isDigit n c hc

theorem readDecimal_padded (n : ℕ) : readDecimal (padded n) = n := by
  have hzeros : ∀ k, readDecimal (List.replicate k (chr '0') ++ decimal n) = n := by
    intro k
    induction k with
    | zero => exact readDecimal_decimal n
    | succ k ih =>
      have hzero : digitValue (chr '0') = 0 := by decide
      rw [List.replicate_succ, List.cons_append, readDecimal_cons, hzero, Nat.zero_mul, Nat.zero_add, ih]
  exact hzeros _

/-- **Members are ordered like their counters.** -/
theorem memberOf_lt {m n : ℕ} (h : m < n) (hn : n < 10 ^ 20) (u v : Str) :
    memberOf m u < memberOf n v := by
  refine append_lt_append_of_readDecimal (isDigit_padded m) (isDigit_padded n) ?_ ?_
  · rw [length_padded (h.trans hn), length_padded hn]
  · rwa [readDecimal_padded, readDecimal_padded]

/-! ## The three keys in step -/

/-- An entry of the queue, as it was pushed. -/
structure Entry where
  priority : Number
  counter : ℕ
  uuid : Str
  item : Bytes

def Entry.member (e : Entry) : Str := memberOf e.counter e.uuid

/-- What the specification knows of an entry. -/
def Entry.pair (e : Entry) : Number × Bytes := (e.priority, e.item)

/-- Each key has its own type. -/
structure View.Typed (v : View) (k : Queue) : Prop where
  items_hash : v.NoHash k.itemsKey
  items_counter : v.NoCounter k.itemsKey
  payload_zset : v.NoZset k.payloadKey
  payload_counter : v.NoCounter k.payloadKey
  counter_zset : v.NoZset k.counterKey
  counter_hash : v.NoHash k.counterKey

/-- The three keys hold these entries. -/
structure View.Holds (v : View) (k : Queue) (entries : List Entry) : Prop extends v.Typed k where
  increasing : entries.Pairwise (·.counter < ·.counter)
  counted : ∀ e ∈ entries, e.counter ≤ v.counter k.counterKey
  exact : v.counter k.counterKey < 2 ^ 53
  zset : ∀ member score, v.zset k.itemsKey member = some score ↔
    ∃ e ∈ entries, e.member = member ∧ e.priority.neg = score
  hash : ∀ member item, v.hash k.payloadKey member = some item ↔
    ∃ e ∈ entries, e.member = member ∧ e.item = item

namespace Queue

variable (k : Queue)

/-- The domain tells the three keys of a queue from each other. -/
theorem physicalKey_ne {d d' : Domain} (h : d ≠ d') :
    physicalKey k.space d k.name ≠ physicalKey k.space d' k.name :=
  fun heq ↦ h (physicalKey_inj heq).2.1

theorem itemsKey_ne_payloadKey : k.itemsKey ≠ k.payloadKey :=
  k.physicalKey_ne (by decide : Domain.items ≠ .payload)

theorem itemsKey_ne_counterKey : k.itemsKey ≠ k.counterKey :=
  k.physicalKey_ne (by decide : Domain.items ≠ .counter)

theorem payloadKey_ne_counterKey : k.payloadKey ≠ k.counterKey :=
  k.physicalKey_ne (by decide : Domain.payload ≠ .counter)

end Queue

section Holds

variable {v : View} {k : Queue} {entries : List Entry} {e e' : Entry}

theorem View.Holds.counter_lt (h : v.Holds k entries) (he : e ∈ entries) : e.counter < 10 ^ 20 :=
  (h.counted e he).trans_lt (h.exact.trans (by norm_num))

/-- Members are told apart by their counters. -/
theorem View.Holds.member_inj (h : v.Holds k entries) (he : e ∈ entries) (he' : e' ∈ entries)
    (hmember : e.member = e'.member) : e = e' := by
  have hcounter : e.counter = e'.counter := by
    rcases Nat.lt_trichotomy e.counter e'.counter with hlt | heq | hlt
    · exact absurd hmember (memberOf_lt hlt (h.counter_lt he') _ _).ne
    · exact heq
    · exact absurd hmember.symm (memberOf_lt hlt (h.counter_lt he) _ _).ne
  obtain ⟨i, hi, rfl⟩ := List.getElem_of_mem he
  obtain ⟨j, hj, rfl⟩ := List.getElem_of_mem he'
  rcases Nat.lt_trichotomy i j with hlt | rfl | hlt
  · exact absurd hcounter (List.pairwise_iff_getElem.mp h.increasing i j hi hj hlt).ne
  · rfl
  · exact absurd hcounter (List.pairwise_iff_getElem.mp h.increasing j i hj hi hlt).ne'

/-- **`ZPOPMIN` finds the next entry.** -/
theorem View.Holds.isNext (h : v.Holds k entries) {i : ℕ} (hi : entries[i]? = some e)
    (hleast : ∀ e' ∈ entries, e.priority.neg < e'.priority.neg ∨
      e.priority.neg = e'.priority.neg ∧ e.member ≤ e'.member) :
    StableQueue.IsNext (entries.map Entry.pair) i e.pair := by
  have hbest : ∀ e' ∈ entries, e'.priority ≤ e.priority := by
    intro e' he'
    rw [← not_lt, ← Number.neg_lt]
    rcases hleast e' he' with hlt | ⟨heq, -⟩
    · exact hlt.not_gt
    · exact heq.not_gt
  refine ⟨by rw [List.getElem?_map, hi]; rfl, fun j y hy ↦ ?_, fun j y hj hy ↦ ?_⟩
  · obtain ⟨e', he', rfl⟩ := Option.map_eq_some_iff.mp (List.getElem?_map .. ▸ hy)
    exact hbest e' (List.mem_of_getElem? he')
  · obtain ⟨e', he', rfl⟩ := Option.map_eq_some_iff.mp (List.getElem?_map .. ▸ hy)
    -- An earlier entry with the same score would have a smaller member.
    rcases hleast e' (List.mem_of_getElem? he') with hlt | ⟨-, hle⟩
    · exact Number.neg_lt.mp hlt
    · exfalso
      obtain ⟨hilt, hie⟩ := List.getElem?_eq_some_iff.mp hi
      obtain ⟨hjlt, hje⟩ := List.getElem?_eq_some_iff.mp he'
      have hcounter := List.pairwise_iff_getElem.mp h.increasing j i hjlt hilt hj
      rw [hje, hie] at hcounter
      exact absurd (memberOf_lt hcounter (h.counter_lt (List.mem_of_getElem? hi)) _ _) (not_lt.mpr hle)

end Holds

namespace View

variable {v : View} {k : Queue} {member : Str} {score : Option Number}
  {value : Option Bytes} {n : ℕ}

namespace Typed

variable (h : v.Typed k)
include h

theorem setCounter : (v.setCounter k.counterKey n).Typed k where
  items_hash := h.items_hash
  items_counter := (setCounter_of_ne k.itemsKey_ne_counterKey).trans h.items_counter
  payload_zset := h.payload_zset
  payload_counter := (setCounter_of_ne k.payloadKey_ne_counterKey).trans h.payload_counter
  counter_zset := h.counter_zset
  counter_hash := h.counter_hash

theorem setZset : (v.setZset k.itemsKey member score).Typed k where
  items_hash := h.items_hash
  items_counter := h.items_counter
  payload_zset m :=
    (congrFun (setZset_of_ne k.itemsKey_ne_payloadKey.symm) m).trans (h.payload_zset m)
  payload_counter := h.payload_counter
  counter_zset m :=
    (congrFun (setZset_of_ne k.itemsKey_ne_counterKey.symm) m).trans (h.counter_zset m)
  counter_hash := h.counter_hash

theorem setHash : (v.setHash k.payloadKey member value).Typed k where
  items_hash m :=
    (congrFun (setHash_of_ne k.itemsKey_ne_payloadKey) m).trans (h.items_hash m)
  items_counter := h.items_counter
  payload_zset := h.payload_zset
  payload_counter := h.payload_counter
  counter_zset := h.counter_zset
  counter_hash m :=
    (congrFun (setHash_of_ne k.payloadKey_ne_counterKey.symm) m).trans (h.counter_hash m)

end Typed

end View

/-- The view after a push. -/
def View.pushed (v : View) (k : Queue) (e : Entry) : View :=
  ((v.setCounter k.counterKey e.counter).setZset k.itemsKey e.member (some e.priority.neg)).setHash
    k.payloadKey e.member (some e.item)

/-- The view without a member. -/
def View.popped (v : View) (k : Queue) (member : Str) : View :=
  (v.setZset k.itemsKey member none).setHash k.payloadKey member none

section Steps

variable {v : View} {k : Queue} {entries : List Entry} {e : Entry} {i : ℕ}

theorem View.pushed_counter : (v.pushed k e).counter k.counterKey = e.counter := View.setCounter_self

theorem View.pushed_zset (member : Str) : (v.pushed k e).zset k.itemsKey member =
    if member = e.member then some e.priority.neg else v.zset k.itemsKey member := View.setZset_self

theorem View.pushed_hash (member : Str) : (v.pushed k e).hash k.payloadKey member =
    if member = e.member then some e.item else v.hash k.payloadKey member := View.setHash_self

theorem View.popped_zset (member member' : Str) : (v.popped k member).zset k.itemsKey member' =
    if member' = member then none else v.zset k.itemsKey member' := View.setZset_self

theorem View.popped_hash (member member' : Str) : (v.popped k member).hash k.payloadKey member' =
    if member' = member then none else v.hash k.payloadKey member' := View.setHash_self

/-- A table with one more row, for a member that it did not have. -/
theorem exists_mem_concat_iff {β : Type*} {f : Entry → β} {member : Str} {x : β} {old : Option β}
    (hnew : ∀ e' ∈ entries, e'.member ≠ e.member)
    (hold : old = some x ↔ ∃ e' ∈ entries, e'.member = member ∧ f e' = x) :
    (if member = e.member then some (f e) else old) = some x ↔
      ∃ e' ∈ entries ++ [e], e'.member = member ∧ f e' = x := by
  constructor
  · intro h
    split at h
    · next heq => exact ⟨e, List.mem_append_right _ (List.mem_singleton_self e), heq.symm, Option.some.inj h⟩
    · obtain ⟨e', he', hrest⟩ := hold.mp h
      exact ⟨e', List.mem_append_left _ he', hrest⟩
  · rintro ⟨e', he', rfl, rfl⟩
    rcases List.mem_append.mp he' with hmem | hmem
    · rw [if_neg (hnew e' hmem)]
      exact hold.mpr ⟨e', hmem, rfl, rfl⟩
    · rw [List.mem_singleton.mp hmem, if_pos rfl]

/-- A push puts its entry at the end. -/
theorem View.Holds.append (h : v.Holds k entries) (hexact : v.counter k.counterKey + 1 < 2 ^ 53)
    (hcounter : e.counter = v.counter k.counterKey + 1) : (v.pushed k e).Holds k (entries ++ [e]) := by
  have hold : ∀ e' ∈ entries, e'.counter < e.counter := fun e' he' ↦
    hcounter ▸ Nat.lt_succ_of_le (h.counted e' he')
  -- The counter of a push is above all others, and so its member is new.
  have hnew : ∀ e' ∈ entries, e'.member ≠ e.member := fun e' he' ↦
    (memberOf_lt (hold e' he') (hcounter ▸ hexact.trans (by norm_num)) _ _).ne
  refine ⟨h.toTyped.setCounter.setZset.setHash, ?_, fun e' he' ↦ ?_, ?_, fun member score ↦ ?_,
    fun member item ↦ ?_⟩
  · refine List.pairwise_append.mpr ⟨h.increasing, List.pairwise_singleton _ _, fun e' he' x hx ↦ ?_⟩
    rw [List.mem_singleton.mp hx]
    exact hold e' he'
  · rw [View.pushed_counter]
    rcases List.mem_append.mp he' with hmem | hmem
    · exact (hold e' hmem).le
    · rw [List.mem_singleton.mp hmem]
  · rw [View.pushed_counter, hcounter]
    exact hexact
  · rw [View.pushed_zset]
    exact exists_mem_concat_iff (f := fun e ↦ e.priority.neg) hnew (h.zset member score)
  · rw [View.pushed_hash]
    exact exists_mem_concat_iff (f := Entry.item) hnew (h.hash member item)

/-- The entries without one of them are those with another member. -/
theorem View.Holds.mem_eraseIdx (h : v.Holds k entries) (hi : entries[i]? = some e) (e' : Entry) :
    e' ∈ entries.eraseIdx i ↔ e' ∈ entries ∧ e'.member ≠ e.member := by
  rw [List.mem_eraseIdx_iff_getElem?]
  constructor
  · rintro ⟨j, hji, hj⟩
    have hmem := List.mem_of_getElem? hj
    refine ⟨hmem, fun heq ↦ hji ?_⟩
    -- Two indices of one entry would have two counters.
    obtain rfl := h.member_inj hmem (List.mem_of_getElem? hi) heq
    obtain ⟨hjlt, hje⟩ := List.getElem?_eq_some_iff.mp hj
    obtain ⟨hilt, hie⟩ := List.getElem?_eq_some_iff.mp hi
    by_contra hne
    rcases Nat.lt_or_gt_of_ne hne with hlt | hlt
    · have := List.pairwise_iff_getElem.mp h.increasing j i hjlt hilt hlt
      rw [hje, hie] at this
      exact lt_irrefl _ this
    · have := List.pairwise_iff_getElem.mp h.increasing i j hilt hjlt hlt
      rw [hje, hie] at this
      exact lt_irrefl _ this
  · rintro ⟨hmem, hne⟩
    obtain ⟨j, hj⟩ := List.getElem?_of_mem hmem
    refine ⟨j, ?_, hj⟩
    rintro rfl
    exact hne (congrArg Entry.member (Option.some.inj (hj.symm.trans hi)))

/-- A table with one row less. -/
theorem View.Holds.exists_mem_eraseIdx_iff (h : v.Holds k entries) (hi : entries[i]? = some e)
    {β : Type*} {f : Entry → β} {member : Str} {x : β} {old : Option β}
    (hold : old = some x ↔ ∃ e' ∈ entries, e'.member = member ∧ f e' = x) :
    (if member = e.member then none else old) = some x ↔
      ∃ e' ∈ entries.eraseIdx i, e'.member = member ∧ f e' = x := by
  constructor
  · intro hx
    split at hx
    · cases hx
    · next hne =>
      obtain ⟨e', he', rfl, hf⟩ := hold.mp hx
      exact ⟨e', (h.mem_eraseIdx hi e').mpr ⟨he', hne⟩, rfl, hf⟩
  · rintro ⟨e', he', rfl, hf⟩
    obtain ⟨hmem, hne⟩ := (h.mem_eraseIdx hi e').mp he'
    rw [if_neg hne]
    exact hold.mpr ⟨e', hmem, rfl, hf⟩

/-- A pop takes its entry out. -/
theorem View.Holds.eraseIdx (h : v.Holds k entries) (hi : entries[i]? = some e) :
    (v.popped k e.member).Holds k (entries.eraseIdx i) := by
  refine ⟨h.toTyped.setZset.setHash, h.increasing.sublist (List.eraseIdx_sublist _ _),
    fun e' he' ↦ h.counted e' (List.mem_of_mem_eraseIdx he'), h.exact, fun member score ↦ ?_,
    fun member item ↦ ?_⟩
  · rw [View.popped_zset]
    exact h.exists_mem_eraseIdx_iff hi (f := fun e ↦ e.priority.neg) (h.zset member score)
  · rw [View.popped_hash]
    exact h.exists_mem_eraseIdx_iff hi (f := Entry.item) (h.hash member item)

/-- The keys are deleted together, and the counter begins again. -/
theorem View.holds_delete : (v.delete [k.itemsKey, k.payloadKey, k.counterKey]).Holds k [] where
  items_hash := by simp [View.delete, View.NoHash]
  items_counter := by simp [View.delete, View.NoCounter]
  payload_zset := by simp [View.delete, View.NoZset]
  payload_counter := by simp [View.delete, View.NoCounter]
  counter_zset := by simp [View.delete, View.NoZset]
  counter_hash := by simp [View.delete, View.NoHash]
  increasing := .nil
  counted := by simp
  exact := by simp [View.delete]
  zset := by simp [View.delete]
  hash := by simp [View.delete]

end Steps

/-! ## The scripts on the three keys -/

section Scripts

variable {server : Server σ} (hdoc : server.Documented) {k : Queue} {s : σ} {entries : List Entry}
include hdoc

/-- `_PUSH_LUA` appends. -/
theorem view_pushScript (h : (server.view s).Typed k) (uuid : Str) (priority : Number) (item : Bytes) :
    server.view (pushScript server s k.itemsKey k.payloadKey k.counterKey uuid priority.neg item).1 =
      (server.view s).pushed k ⟨priority, (server.view s).counter k.counterKey + 1, uuid, item⟩ := by
  obtain ⟨hincr, hcounter⟩ := hdoc.incr s k.counterKey h.counter_zset h.counter_hash
  dsimp only [pushScript]
  rw [hcounter]
  have htyped : (server.view (server.incr s k.counterKey).1).Typed k := hincr ▸ h.setCounter
  have hzadd := hdoc.zadd _ k.itemsKey priority.neg
    (memberOf ((server.view s).counter k.counterKey + 1) uuid) htyped.items_hash htyped.items_counter
  have htyped' := hzadd ▸ htyped.setZset
  rw [hdoc.hset _ k.payloadKey _ item htyped'.payload_zset htyped'.payload_counter, hzadd, hincr]
  rfl

/-- **`_POP_LUA` takes the next entry**, with its payload, and nothing else. -/
theorem popScript_cases (h : (server.view s).Holds k entries) :
    (entries = [] ∧ (popScript server s k.itemsKey k.payloadKey).2 = ⟨0, .nil⟩ ∧
        server.view (popScript server s k.itemsKey k.payloadKey).1 = server.view s) ∨
      ∃ i e, entries[i]? = some e ∧ StableQueue.IsNext (entries.map Entry.pair) i e.pair ∧
        (popScript server s k.itemsKey k.payloadKey).2 = ⟨1, .text e.item⟩ ∧
        server.view (popScript server s k.itemsKey k.payloadKey).1 =
          (server.view s).popped k e.member := by
  unfold popScript
  rcases hpop : server.zpopmin s k.itemsKey with ⟨s', _ | member⟩
  · left
    obtain ⟨hempty, hview⟩ := hdoc.zpopmin_none s k.itemsKey h.items_hash h.items_counter (by rw [hpop])
    rw [hpop] at hview
    refine ⟨List.eq_nil_iff_forall_not_mem.mpr fun e he ↦ ?_, rfl, hview⟩
    have hscore := (h.zset e.member e.priority.neg).mpr ⟨e, he, rfl, rfl⟩
    rw [hempty] at hscore
    cases hscore
  · right
    obtain ⟨score, hscore, hleast, hview⟩ :=
      hdoc.zpopmin_some s k.itemsKey member h.items_hash h.items_counter (by rw [hpop])
    rw [hpop] at hview
    obtain ⟨e, he, rfl, rfl⟩ := (h.zset member score).mp hscore
    obtain ⟨i, hi⟩ := List.getElem?_of_mem he
    have htyped : (server.view s').Typed k := by
      rw [hview]
      exact h.toTyped.setZset
    -- The payload is still there, under the member that was popped.
    have hget : server.hget s' k.payloadKey e.member = some e.item := by
      rw [hdoc.hget s' k.payloadKey e.member htyped.payload_zset htyped.payload_counter, hview]
      exact (h.hash e.member e.item).mpr ⟨e, he, rfl, rfl⟩
    refine ⟨i, e, hi, h.isNext hi fun e' he' ↦ ?_, ?_, ?_⟩
    · exact hleast e'.member e'.priority.neg ((h.zset _ _).mpr ⟨e', he', rfl, rfl⟩)
    · dsimp only
      rw [hget]
    · dsimp only
      rw [hget]
      dsimp only
      rw [hdoc.hdel s' k.payloadKey e.member htyped.payload_zset htyped.payload_counter, hview]
      rfl

/-- `ZCARD` counts the entries. -/
theorem zcard_eq (h : (server.view s).Holds k entries) : server.zcard s k.itemsKey = entries.length := by
  have hnodup : (entries.map Entry.member).Nodup := by
    refine List.pairwise_map.mpr (h.increasing.imp_of_mem fun he he' hlt ↦ ?_)
    exact (memberOf_lt hlt (h.counter_lt he') _ _).ne
  rw [hdoc.zcard s k.itemsKey h.items_hash h.items_counter (entries.map Entry.member).toFinset ?_,
    List.toFinset_card_of_nodup hnodup, List.length_map]
  intro member
  rw [List.mem_toFinset, List.mem_map, Option.ne_none_iff_exists']
  constructor
  · rintro ⟨e, he, rfl⟩
    exact ⟨_, (h.zset e.member _).mpr ⟨e, he, rfl, rfl⟩⟩
  · rintro ⟨score, hscore⟩
    obtain ⟨e, he, hmember, -⟩ := (h.zset member score).mp hscore
    exact ⟨e, he, hmember⟩

end Scripts

/-- Bytes survive the way through a decoding client. -/
theorem popResult_text (b : Bytes) (decodeResponses : Bool) :
    popResult 1 ((Detail.text b).decoded decodeResponses) = some (some b) := by
  cases decodeResponses
  · rfl
  · simp only [popResult, Detail.decoded, if_true, one_ne_zero, if_false]
    rw [encodeEscaped_decodeEscaped]
    rfl

/-! ## Runs -/

/-- The backend holds these entries, and has answered like a queue that does. -/
structure Refines (k : Queue) (s : State σ) (entries : List Entry) : Prop where
  holds : (server.view s.redis).Holds k entries
  history : StableQueue.History [] s.events (entries.map Entry.pair)

/-- **One step is one event of a stable priority queue.** -/
theorem Refines.step {server : Server σ} (hdoc : server.Documented) {k : Queue} {s : State σ}
    {entries : List Entry} (h : Refines server k s entries) {a : Label} (hexact : CounterExact server k s a) :
    ∃ entries', Refines server k (s.step server k a) entries' := by
  cases a with
  | push uuid priority item =>
    refine ⟨entries ++ [⟨priority, (server.view s.redis).counter k.counterKey + 1, uuid, item⟩], ?_, ?_⟩
    · dsimp only [State.step, State.record]
      rw [view_pushScript hdoc h.holds.toTyped]
      exact h.holds.append hexact rfl
    · rw [List.map_append]
      exact h.history.concat rfl
  | pop decodeResponses =>
    rcases popScript_cases hdoc h.holds with ⟨rfl, hreply, hview⟩ | ⟨i, e, hi, hnext, hreply, hview⟩
    · refine ⟨[], ?_, ?_⟩ <;> dsimp only [State.step] <;> rw [hreply]
      · exact hview.symm ▸ h.holds
      · exact h.history.concat ⟨rfl, rfl⟩
    · refine ⟨entries.eraseIdx i, ?_, ?_⟩ <;> dsimp only [State.step] <;> rw [hreply, popResult_text]
      · dsimp only [State.record]
        rw [hview]
        exact h.holds.eraseIdx hi
      · exact h.history.concat ⟨i, e.pair, hnext, rfl, (List.eraseIdx_map ..).symm⟩
  | queueLen =>
    exact ⟨entries, h.holds, h.history.concat ⟨by rw [zcard_eq hdoc h.holds, List.length_map], rfl⟩⟩
  | clearQueue =>
    refine ⟨[], ?_, h.history.concat rfl⟩
    dsimp only [State.step, State.record]
    rw [hdoc.del]
    exact View.holds_delete

/-- The queue has no keys yet. -/
def View.Fresh (v : View) (k : Queue) : Prop :=
  ∀ key ∈ [k.itemsKey, k.payloadKey, k.counterKey], v.NoZset key ∧ v.NoHash key ∧ v.NoCounter key

theorem View.Fresh.holds {v : View} {k : Queue} (h : v.Fresh k) : v.Holds k [] := by
  have hitems := h k.itemsKey (by simp)
  have hpayload := h k.payloadKey (by simp)
  have hcounter := h k.counterKey (by simp)
  refine ⟨⟨hitems.2.1, hitems.2.2, hpayload.1, hpayload.2.2, hcounter.1, hcounter.2.1⟩, .nil, by simp, ?_,
    fun member score ↦ ?_, fun member item ↦ ?_⟩
  · rw [hcounter.2.2]
    norm_num
  · simp [hitems.1 member]
  · simp [hpayload.2.1 member]

/-- What the callers and the keys show of a stable priority queue. -/
structure StableSoFar (k : Queue) (s : State σ) : Prop where
  /-- Each answer is the one that a stable priority queue gives. -/
  history : ∃ q, StableQueue.History [] s.events q
  /-- Each payload is returned once at most, byte for byte. -/
  once : (StableQueue.popped s.events).Subperm (StableQueue.pushed s.events)
  /-- The hash has the members of the sorted set as its keys. -/
  paired : ∀ member, (server.view s.redis).hash k.payloadKey member ≠ none ↔
    (server.view s.redis).zset k.itemsKey member ≠ none
  no_orphan : (popScript server s.redis k.itemsKey k.payloadKey).2.status ≠ 2
  queue_len : server.zcard s.redis k.itemsKey = StableQueue.pending s.events

theorem Refines.stableSoFar {server : Server σ} (hdoc : server.Documented) {k : Queue} {s : State σ}
    {entries : List Entry} (h : Refines server k s entries) : StableSoFar server k s where
  history := ⟨_, h.history⟩
  once := by
    have hless : (StableQueue.popped s.events).Subperm
        (StableQueue.popped s.events ++ (entries.map Entry.pair).map Prod.snd) :=
      (List.sublist_append_left _ _).subperm
    exact hless.trans h.history.popped_subperm
  paired member := by
    rw [Option.ne_none_iff_exists', Option.ne_none_iff_exists']
    constructor
    · rintro ⟨item, hitem⟩
      obtain ⟨e, he, hmember, -⟩ := (h.holds.hash member item).mp hitem
      exact ⟨_, (h.holds.zset member _).mpr ⟨e, he, hmember, rfl⟩⟩
    · rintro ⟨score, hscore⟩
      obtain ⟨e, he, hmember, -⟩ := (h.holds.zset member score).mp hscore
      exact ⟨_, (h.holds.hash member _).mpr ⟨e, he, hmember, rfl⟩⟩
  no_orphan := by
    rcases popScript_cases hdoc h.holds with ⟨-, hreply, -⟩ | ⟨i, e, -, -, hreply, -⟩
    · rw [hreply]
      decide
    · rw [hreply]
      exact Nat.ne_of_beq_eq_false rfl
  queue_len := by rw [zcard_eq hdoc h.holds, ← h.history.length_eq, List.length_map]

/-- **A queue of the backend is a stable priority queue**, whoever pushes, pops, counts and clears, as long
as its counter is exact. -/
theorem stable_queue {server : Server σ} (hdoc : server.Documented) (k : Queue) {redis : σ}
    (hfresh : (server.view redis).Fresh k) {as : List Label}
    (hexact : (machine server k redis).Along (CounterExact server k) (machine server k redis).init as) :
    (machine server k redis).Always (StableSoFar server k) (machine server k redis).init as := by
  have hrefines : (machine server k redis).Always (fun s ↦ ∃ entries, Refines server k s entries)
      (machine server k redis).init as := by
    refine hexact.always (fun s a t hs ha ht ↦ ?_) ⟨[], hfresh.holds, .nil⟩
    obtain ⟨entries, hs⟩ := hs
    obtain rfl := Option.some.inj ht
    exact hs.step hdoc ha
  exact hrefines.mono fun s ⟨_, hs⟩ ↦ hs.stableSoFar hdoc

theorem stable_queue_tables :
    let k : Queue := ⟨⟨str "shop", by decide, by decide, by decide⟩, ⟨str "requests", by decide⟩⟩
    let M := machine Tables.commands k ⟨∅, ∅, ∅⟩
    let as : List Label :=
      [.push (str "b") 0 [255], .push (str "a") 0 [2], .push (str "c") 1 [3], .pop true, .pop true,
        .queueLen, .clearQueue, .pop false, .push (str "d") 0 [4], .pop false]
    M.Always (StableSoFar Tables.commands k) M.init as ∧
      (M.run M.init as).map (fun s ↦ StableQueue.popped s.events) = some [[3], [255], [4]] := by
  intro k M as
  have hexact : M.Along (CounterExact Tables.commands k) M.init as := by
    decide +kernel
  refine ⟨stable_queue Tables.documented k ?_ hexact, by decide +kernel⟩
  exact fun _ _ ↦ ⟨fun _ ↦ rfl, fun _ ↦ rfl, rfl⟩

end Redis

end ScrapyExtension
