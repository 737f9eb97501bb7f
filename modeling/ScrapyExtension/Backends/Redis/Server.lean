import Mathlib.Algebra.Order.Ring.Rat
import Mathlib.Data.List.AList
import Mathlib.Data.List.MinMax
import Mathlib.Data.Prod.Lex
import Mathlib.Order.WithBot
import ScrapyExtension.Py.Bytes
import ScrapyExtension.Py.Text

/-!
# The commands of Redis

The commands that the backend calls are parameters. What Redis documents of them is said in terms of what
is stored under each key, and only where the key does not hold another type.
-/

namespace ScrapyExtension

open Py

namespace Redis

/-- A double that is a number; the two zeros are one. -/
abbrev Number := WithBot (WithTop ℚ)

/-- `-priority` -/
def Number.neg : Number → Number
  | none => some none
  | some none => none
  | some (some q) => some (some (-q))

theorem Number.neg_bot : Number.neg ⊥ = ⊤ := rfl

theorem Number.neg_top : Number.neg ⊤ = ⊥ := rfl

theorem Number.neg_coe (q : ℚ) : Number.neg ((q : WithTop ℚ) : Number) = ((-q : ℚ) : WithTop ℚ) := rfl

/-- The least score is the highest priority. -/
theorem Number.neg_lt {x y : Number} : x.neg < y.neg ↔ y < x := by
  induction x using WithBot.recBotCoe with
  | bot =>
    rw [neg_bot]
    exact iff_of_false not_top_lt not_lt_bot
  | coe x =>
    induction y using WithBot.recBotCoe with
    | bot =>
      rw [neg_bot]
      refine iff_of_true (lt_top_iff_ne_top.mpr ?_) (WithBot.bot_lt_coe x)
      induction x using WithTop.recTopCoe with
      | top =>
        rw [WithBot.coe_top, neg_top]
        exact bot_ne_top
      | coe q =>
        rw [neg_coe, ← WithBot.coe_top, Ne, WithBot.coe_inj]
        exact WithTop.coe_ne_top
    | coe y =>
      induction x using WithTop.recTopCoe with
      | top =>
        induction y using WithTop.recTopCoe with
        | top => exact iff_of_false (lt_irrefl _) (lt_irrefl _)
        | coe r =>
          rw [WithBot.coe_top, neg_top, neg_coe]
          exact iff_of_true (WithBot.bot_lt_coe _) (WithBot.coe_lt_coe.mpr (WithTop.coe_lt_top r))
      | coe q =>
        induction y using WithTop.recTopCoe with
        | top =>
          rw [WithBot.coe_top, neg_top]
          exact iff_of_false not_lt_bot not_top_lt
        | coe r =>
          rw [neg_coe, neg_coe, WithBot.coe_lt_coe, WithBot.coe_lt_coe, WithTop.coe_lt_coe,
            WithTop.coe_lt_coe]
          exact neg_lt_neg_iff

/-! ## The commands -/

/-- What is stored under each key: nothing, or one of the three types. -/
structure View where
  zset : Str → Str → Option Number
  hash : Str → Str → Option Bytes
  counter : Str → ℕ

namespace View

/-- There is no sorted set under a key. -/
def NoZset (v : View) (key : Str) : Prop := ∀ member, v.zset key member = none

def NoHash (v : View) (key : Str) : Prop := ∀ field, v.hash key field = none

def NoCounter (v : View) (key : Str) : Prop := v.counter key = 0

def setZset (v : View) (key member : Str) (score : Option Number) : View :=
  { v with zset := Function.update v.zset key (Function.update (v.zset key) member score) }

def setHash (v : View) (key field : Str) (value : Option Bytes) : View :=
  { v with hash := Function.update v.hash key (Function.update (v.hash key) field value) }

def setCounter (v : View) (key : Str) (n : ℕ) : View :=
  { v with counter := Function.update v.counter key n }

def delete (v : View) (keys : List Str) : View where
  zset key := if key ∈ keys then fun _ ↦ none else v.zset key
  hash key := if key ∈ keys then fun _ ↦ none else v.hash key
  counter key := if key ∈ keys then 0 else v.counter key

end View

/-- The commands that the backend calls. -/
structure Server (σ : Type*) where
  view : σ → View
  incr : σ → Str → σ × ℕ
  zadd : σ → Str → Number → Str → σ
  hset : σ → Str → Str → Bytes → σ
  zpopmin : σ → Str → σ × Option Str
  hget : σ → Str → Str → Option Bytes
  hdel : σ → Str → Str → σ
  zcard : σ → Str → ℕ
  del : σ → List Str → σ

/-- What Redis documents of the commands. -/
structure Server.Documented {σ : Type*} (server : Server σ) : Prop where
  incr : ∀ s key, (server.view s).NoZset key → (server.view s).NoHash key →
    server.view (server.incr s key).1 = (server.view s).setCounter key ((server.view s).counter key + 1) ∧
      (server.incr s key).2 = (server.view s).counter key + 1
  zadd : ∀ s key score member, (server.view s).NoHash key → (server.view s).NoCounter key →
    server.view (server.zadd s key score member) = (server.view s).setZset key member (some score)
  hset : ∀ s key field value, (server.view s).NoZset key → (server.view s).NoCounter key →
    server.view (server.hset s key field value) = (server.view s).setHash key field (some value)
  /-- Nothing is popped only from an empty set. -/
  zpopmin_none : ∀ s key, (server.view s).NoHash key → (server.view s).NoCounter key →
    (server.zpopmin s key).2 = none →
      (server.view s).NoZset key ∧ server.view (server.zpopmin s key).1 = server.view s
  /-- The member with the least score is popped, and of equal scores the first in the order of texts. -/
  zpopmin_some : ∀ s key member, (server.view s).NoHash key → (server.view s).NoCounter key →
    (server.zpopmin s key).2 = some member →
      ∃ score, (server.view s).zset key member = some score ∧
        (∀ member' score', (server.view s).zset key member' = some score' →
          score < score' ∨ score = score' ∧ member ≤ member') ∧
        server.view (server.zpopmin s key).1 = (server.view s).setZset key member none
  hget : ∀ s key field, (server.view s).NoZset key → (server.view s).NoCounter key →
    server.hget s key field = (server.view s).hash key field
  hdel : ∀ s key field, (server.view s).NoZset key → (server.view s).NoCounter key →
    server.view (server.hdel s key field) = (server.view s).setHash key field none
  zcard : ∀ s key, (server.view s).NoHash key → (server.view s).NoCounter key →
    ∀ members : Finset Str, (∀ member, member ∈ members ↔ (server.view s).zset key member ≠ none) →
      server.zcard s key = members.card
  del : ∀ s keys, server.view (server.del s keys) = (server.view s).delete keys

/-! ## Updates -/

namespace View

variable {v : View} {key key' member member' : Str} {score : Option Number}
  {value : Option Bytes} {n : ℕ}

theorem setZset_self : (v.setZset key member score).zset key member' =
    if member' = member then score else v.zset key member' := by
  dsimp only [setZset]
  rw [Function.update_self, Function.update_apply]

theorem setZset_of_ne (h : key' ≠ key) : (v.setZset key member score).zset key' = v.zset key' :=
  Function.update_of_ne h _ _

theorem setHash_self : (v.setHash key member value).hash key member' =
    if member' = member then value else v.hash key member' := by
  dsimp only [setHash]
  rw [Function.update_self, Function.update_apply]

theorem setHash_of_ne (h : key' ≠ key) : (v.setHash key member value).hash key' = v.hash key' :=
  Function.update_of_ne h _ _

theorem setCounter_self : (v.setCounter key n).counter key = n := Function.update_self ..

theorem setCounter_of_ne (h : key' ≠ key) : (v.setCounter key n).counter key' = v.counter key' :=
  Function.update_of_ne h _ _

end View

/-! ## A server -/

/-- A server that keeps its three types in three tables. -/
structure Tables where
  counters : AList fun _ : Str ↦ ℕ
  zsets : AList fun _ : Str × Str ↦ Number
  hashes : AList fun _ : Str × Str ↦ Bytes

namespace Tables

/-- The rows of a table that are under one key. -/
def rows {β : Type} (t : AList fun _ : Str × Str ↦ β) (key : Str) : List (Str × Str) :=
  t.keys.filter (·.1 = key)

/-- `ZPOPMIN` -/
def zpopmin (s : Tables) (key : Str) : Tables × Option Str :=
  match (rows s.zsets key).argmin fun p ↦ toLex ((s.zsets.lookup p).getD ⊥, p.2) with
  | none => (s, none)
  | some p => ({ s with zsets := s.zsets.erase p }, some p.2)

def eraseAll {κ : Type} [DecidableEq κ] {β : Type} (t : AList fun _ : κ ↦ β) (keys : List κ) :
    AList fun _ : κ ↦ β :=
  keys.foldl (fun t key ↦ t.erase key) t

def commands : Server Tables where
  view s :=
    { zset key member := s.zsets.lookup (key, member)
      hash key field := s.hashes.lookup (key, field)
      counter key := (s.counters.lookup key).getD 0 }
  incr s key :=
    let n := (s.counters.lookup key).getD 0 + 1
    ({ s with counters := s.counters.insert key n }, n)
  zadd s key score member := { s with zsets := s.zsets.insert (key, member) score }
  hset s key field value := { s with hashes := s.hashes.insert (key, field) value }
  zpopmin := zpopmin
  hget s key field := s.hashes.lookup (key, field)
  hdel s key field := { s with hashes := s.hashes.erase (key, field) }
  zcard s key := (rows s.zsets key).length
  del s keys :=
    { counters := eraseAll s.counters keys
      zsets := eraseAll s.zsets (s.zsets.keys.filter (·.1 ∈ keys))
      hashes := eraseAll s.hashes (s.hashes.keys.filter (·.1 ∈ keys)) }

section Lookup

variable {κ : Type} [DecidableEq κ] {β : Type} (t : AList fun _ : κ ↦ β)

theorem lookup_insert_apply (a b : κ) (x : β) :
    (t.insert a x).lookup b = if b = a then some x else t.lookup b := by
  split
  · next h => rw [h, AList.lookup_insert]
  · next h => exact AList.lookup_insert_ne h

theorem lookup_erase_apply (a b : κ) :
    (t.erase a).lookup b = if b = a then none else t.lookup b := by
  split
  · next h => rw [h, AList.lookup_erase]
  · next h => exact AList.lookup_erase_ne h

theorem lookup_eraseAll (keys : List κ) (b : κ) :
    (eraseAll t keys).lookup b = if b ∈ keys then none else t.lookup b := by
  unfold eraseAll
  induction keys generalizing t with
  | nil => simp
  | cons a keys ih =>
    rw [List.foldl_cons, ih, lookup_erase_apply]
    by_cases h : b = a <;> by_cases h' : b ∈ keys <;> simp [h, h']

end Lookup

theorem mem_rows {β : Type} {t : AList fun _ : Str × Str ↦ β} {key member : Str} :
    (key, member) ∈ rows t key ↔ t.lookup (key, member) ≠ none := by
  simp [rows, AList.lookup_eq_none, AList.mem_keys]

theorem lookup_eraseAll_keys {β : Type} (t : AList fun _ : Str × Str ↦ β) (keys : List Str)
    (key member : Str) :
    (eraseAll t (t.keys.filter (·.1 ∈ keys))).lookup (key, member) =
      if key ∈ keys then none else t.lookup (key, member) := by
  rw [lookup_eraseAll]
  by_cases hmem : (key, member) ∈ t.keys
  · simp [hmem]
  · have hnone : t.lookup (key, member) = none := AList.lookup_eq_none.mpr (mt AList.mem_keys.mp hmem)
    simp [hnone]

/-- A row that is written, or taken out. -/
theorem update_row {β : Type} (f : Str → Str → Option β) (key member : Str) (x : Option β) :
    (fun key' member' ↦ if (key', member') = (key, member) then x else f key' member') =
      Function.update f key (Function.update (f key) member x) := by
  funext key' member'
  rw [Function.update_apply]
  split
  · next h =>
    obtain ⟨rfl, rfl⟩ := Prod.mk.inj h
    rw [if_pos rfl, Function.update_self]
  · next h =>
    split
    · next heq =>
      subst heq
      rw [Function.update_of_ne fun hmember ↦ h (by rw [hmember])]
    · rfl

/-- The tables do what is documented of the commands. -/
theorem documented : commands.Documented where
  incr s key _ _ := by
    refine ⟨?_, rfl⟩
    simp only [commands, View.setCounter, View.mk.injEq, true_and]
    funext key'
    rw [lookup_insert_apply, Function.update_apply]
    split <;> rfl
  zadd s key score member _ _ := by
    simp only [commands, View.setZset, lookup_insert_apply, View.mk.injEq, and_true]
    exact update_row _ key member (some score)
  hset s key field value _ _ := by
    simp only [commands, View.setHash, lookup_insert_apply, View.mk.injEq, and_true, true_and]
    exact update_row _ key field (some value)
  zpopmin_none s key _ _ h := by
    dsimp only [commands, zpopmin] at h ⊢
    split at h
    · next hmin =>
      refine ⟨fun member ↦ ?_, rfl⟩
      by_contra hmember
      have hmem := mem_rows.mpr hmember
      rw [List.argmin_eq_none.mp hmin] at hmem
      exact List.not_mem_nil hmem
    · cases h
  zpopmin_some s key member _ _ h := by
    dsimp only [commands, zpopmin] at h ⊢
    split at h
    · cases h
    · next p hmin =>
      obtain rfl := Option.some.inj h
      have hmem := List.argmin_mem hmin
      obtain rfl : p.1 = key := of_decide_eq_true (List.mem_filter.mp hmem).2
      obtain ⟨score, hscore⟩ := Option.ne_none_iff_exists'.mp (mem_rows.mp hmem)
      refine ⟨score, hscore, fun member' score' hscore' ↦ ?_, ?_⟩
      · have hmem' := mem_rows.mpr (Option.ne_none_iff_exists'.mpr ⟨score', hscore'⟩)
        have hle := List.le_of_mem_argmin hmem' hmin
        rw [Prod.Lex.toLex_le_toLex, hscore, hscore'] at hle
        exact hle
      · simp only [View.setZset, lookup_erase_apply, View.mk.injEq, and_true]
        exact update_row _ p.1 p.2 none
  hget _ _ _ _ _ := rfl
  hdel s key field _ _ := by
    simp only [commands, View.setHash, lookup_erase_apply, View.mk.injEq, and_true, true_and]
    exact update_row _ key field none
  zcard s key _ _ members h := by
    have hnodup : (rows s.zsets key).Nodup := s.zsets.keys_nodup.filter _
    have hkeys : ∀ p ∈ rows s.zsets key, (key, p.2) = p := fun p hp ↦
      Prod.ext (of_decide_eq_true (List.mem_filter.mp hp).2).symm rfl
    have hinj : ((rows s.zsets key).map Prod.snd).Nodup :=
      hnodup.map_on fun p hp p' hp' heq ↦ by rw [← hkeys p hp, ← hkeys p' hp', heq]
    have hmembers : members = ((rows s.zsets key).map Prod.snd).toFinset := by
      ext member
      rw [h member, List.mem_toFinset, List.mem_map]
      constructor
      · exact fun hmember ↦ ⟨_, mem_rows.mpr hmember, rfl⟩
      · rintro ⟨p, hp, rfl⟩
        exact mem_rows.mp ((hkeys p hp).symm ▸ hp)
    rw [hmembers, List.toFinset_card_of_nodup hinj, List.length_map]
    rfl
  del s keys := by
    simp only [commands, View.delete, lookup_eraseAll_keys, View.mk.injEq]
    refine ⟨?_, ?_, ?_⟩ <;> funext key
    · split <;> rfl
    · split <;> rfl
    · rw [lookup_eraseAll]
      split <;> rfl

end Tables

end Redis

end ScrapyExtension
