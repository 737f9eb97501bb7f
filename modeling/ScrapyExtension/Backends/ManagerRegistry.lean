import Mathlib.Tactic
import ScrapyExtension.Machine.Basic
import ScrapyExtension.Machine.Threads

/-!
# The registry of connection managers

Managers are pooled by a key of their settings. An acquire registers a token with the manager of its
key, and constructs one if there is none; a release removes its token, and the last one retires the
manager and takes it out of the registry.

Construction happens outside the registry lock. One acquire per key constructs while the others wait,
and `clear_registry` starts a new epoch so that a manager constructed before it is not published.

## Calls

Each acquire is an entry of a list with the place where it is; every section under the registry lock
is one step. Disposal of managers that were taken out of the registry happens after the section, as a
step of its own (`dispose`). A manager constructed in vain never gets into the pool, and is left out.

The pending-release retries are releases and closes like any other.
-/

namespace ScrapyExtension

namespace ManagerRegistry

/-- A pooled manager. -/
structure Manager (κ : Type) where
  /-- `_registry_token` -/
  key : κ
  /-- `_active_acquires` -/
  active : Finset ℕ
  /-- `_legacy_acquires` -/
  legacy : List ℕ
  /-- `_users` -/
  users : ℕ
  /-- `_retired` -/
  retired : Bool
deriving DecidableEq

/-- Where an acquire is. -/
inductive Stage
  /-- Before the lookup. -/
  | looking
  /-- Waiting for the construction of another acquire. -/
  | waiting (attempt : ℕ)
  /-- Constructing, outside the lock. -/
  | constructing (attempt : ℕ)
  | returned (manager : ℕ)
  | raised
deriving DecidableEq

/-- A call of `_get_manager_with_token`. -/
structure Acquire (κ : Type) where
  thread : ℕ
  key : κ
  /-- The call is `get_manager`. -/
  legacy : Bool
  token : ℕ
  stage : Stage
deriving DecidableEq

/-- `_ManagerConstructionAttempt` -/
structure Attempt where
  epoch : ℕ
  /-- `event` is set. -/
  event : Bool
deriving DecidableEq

/-- The class-level state, and all managers that were ever published. -/
structure State (κ : Type) where
  /-- All managers. -/
  managers : List (Manager κ)
  /-- `_managers`, in the order of their last use -/
  registry : List (κ × ℕ)
  /-- `_registry_epoch` -/
  epoch : ℕ
  /-- All construction attempts. -/
  attempts : List Attempt
  /-- `_manager_constructions` -/
  constructions : List (κ × ℕ)
  /-- `_manager_construction_owners` -/
  owners : List ℕ
  /-- Managers to be disposed of. -/
  doomed : List ℕ
  /-- The next token. -/
  nextToken : ℕ
  /-- Acquires. -/
  acquires : List (Acquire κ)
deriving DecidableEq

/-- What can happen. -/
inductive Label (κ : Type)
  /-- `acquire_lease` or `get_manager` is called. -/
  | acquire (thread : ℕ) (key : κ) (legacy : Bool)
  /-- The first section of `_get_manager_with_token` -/
  | look (n : ℕ)
  /-- The wait for a construction ends. -/
  | wake (n : ℕ)
  /-- The constructor raises. -/
  | fail (n : ℕ)
  /-- The constructor returns, and the publication section follows. -/
  | publish (n : ℕ)
  /-- `_release_acquire` of a lease -/
  | release (manager token : ℕ)
  /-- `close` of a pooled manager -/
  | close (manager : ℕ)
  /-- `_adopt_latest_legacy_lease` -/
  | adopt (manager token : ℕ)
  /-- `_disconnect_backend_safely` of a manager taken out of the registry -/
  | dispose (manager : ℕ)
  /-- `clear_registry` -/
  | clear
deriving DecidableEq

variable {κ : Type}

namespace Manager

/-- `_register_acquire_under_lock` -/
def register (m : Manager κ) (token : ℕ) (legacy : Bool) : Manager κ :=
  let active := insert token m.active
  { m with
    active
    legacy := if legacy then m.legacy ++ [token] else m.legacy
    users := active.card }

/-- The tokens after a release. -/
def without (m : Manager κ) (token : ℕ) : Manager κ :=
  let active := m.active.erase token
  { m with
    active
    legacy := m.legacy.erase token
    users := active.card
    retired := m.retired || active = ∅ }

/-- All tokens are dropped, and the manager is terminal. -/
def terminate (m : Manager κ) : Manager κ :=
  { m with active := ∅, legacy := [], users := 0, retired := true }

/-- A manager as it is published, with its first token. -/
def fresh (key : κ) (token : ℕ) (legacy : Bool) : Manager κ :=
  (⟨key, ∅, [], 0, false⟩ : Manager κ).register token legacy

end Manager

namespace State

/-- Before anything. -/
def new : State κ := ⟨[], [], 0, [], [], [], [], 0, []⟩

/-- A manager changes. -/
def modify (s : State κ) (m : ℕ) (f : Manager κ → Manager κ) : State κ :=
  { s with managers := s.managers.modify m f }

/-- An acquire goes on. -/
def goto (s : State κ) (n : ℕ) (a : Acquire κ) (stage : Stage) : State κ :=
  { s with acquires := s.acquires.set n { a with stage } }

/-- The event of an attempt is set. -/
def setEvent (s : State κ) (attempt : ℕ) : State κ :=
  { s with attempts := s.attempts.modify attempt fun a ↦ { a with event := true } }

variable [DecidableEq κ]

/-- The entry of a key. -/
def entry (l : List (κ × ℕ)) (key : κ) : Option ℕ := (l.find? fun e ↦ e.1 = key).map Prod.snd

/-- The manager of a key, with its retirement. -/
def lookup (s : State κ) (key : κ) : Option (ℕ × Manager κ) :=
  (entry s.registry key).bind fun m ↦ s.managers[m]?.map fun mgr ↦ (m, mgr)

/-- The registry without a key. -/
def remove (l : List (κ × ℕ)) (key : κ) : List (κ × ℕ) := l.filter fun e ↦ e.1 ≠ key

/-- An acquire gets a manager of the registry. -/
def grant (s : State κ) (n : ℕ) (a : Acquire κ) (m : ℕ) : State κ :=
  { (s.modify m fun mgr ↦ mgr.register a.token a.legacy).goto n a (.returned m) with
    registry := remove s.registry a.key ++ [(a.key, m)] }

/-- A retired entry is taken out. -/
def evict (s : State κ) (key : κ) (m : ℕ) : State κ :=
  { s with registry := remove s.registry key, doomed := s.doomed ++ [m] }

/-- There is no manager: wait for a construction, or begin one. -/
def elect (s : State κ) (n : ℕ) (a : Acquire κ) : State κ :=
  match entry s.constructions a.key with
  | some attempt => s.goto n a (.waiting attempt)
  | none =>
    { s.goto n a (.constructing s.attempts.length) with
      attempts := s.attempts ++ [⟨s.epoch, false⟩]
      constructions := s.constructions ++ [(a.key, s.attempts.length)]
      owners := a.thread :: s.owners }

/-- The first section of `_get_manager_with_token` -/
def look (s : State κ) (n : ℕ) (a : Acquire κ) : State κ :=
  if a.thread ∈ s.owners then s.goto n a .raised
  else
    match s.lookup a.key with
    | some (m, mgr) => if mgr.retired then (s.evict a.key m).elect n a else s.grant n a m
    | none => s.elect n a

/-- The construction gate of an attempt is given up. -/
def leaveGate (s : State κ) (a : Acquire κ) (attempt : ℕ) : State κ :=
  { s.setEvent attempt with
    constructions :=
      if entry s.constructions a.key = some attempt then remove s.constructions a.key
      else s.constructions
    owners := s.owners.erase a.thread }

/-- `_collect_orphans_under_lock`, for at most this many orphans -/
def collectOrphans (users : ℕ → ℕ) : ℕ → List (κ × ℕ) → List (κ × ℕ) × List ℕ
  | 0, registry => (registry, [])
  | k + 1, registry =>
    match registry.find? fun e ↦ users e.2 = 0 with
    | none => (registry, [])
    | some e =>
      let (rest, victims) := collectOrphans users k (remove registry e.1)
      (rest, e.2 :: victims)

/-- `_users` of a manager -/
def users (s : State κ) (m : ℕ) : ℕ := (s.managers[m]?.map Manager.users).getD 0

/-- The registry makes room, then gets the new manager. -/
def insertFresh (s : State κ) (cap n : ℕ) (a : Acquire κ) : State κ :=
  let (registry, victims) := collectOrphans s.users (s.registry.length + 1 - cap) s.registry
  { s.goto n a (.returned s.managers.length) with
    managers := s.managers ++ [.fresh a.key a.token a.legacy]
    registry := registry ++ [(a.key, s.managers.length)]
    doomed := s.doomed ++ victims }

/-- The gate of the attempt is still its own, and no clear came in between. -/
def GateIsCurrent (s : State κ) (a : Acquire κ) (attempt : ℕ) : Prop :=
  entry s.constructions a.key = some attempt ∧
    (s.attempts[attempt]?.map Attempt.epoch) = some s.epoch

instance (s : State κ) (a : Acquire κ) (attempt : ℕ) : Decidable (s.GateIsCurrent a attempt) :=
  inferInstanceAs (Decidable (_ ∧ _))

/-- The choice of the publication section. -/
def select (s : State κ) (cap n : ℕ) (a : Acquire κ) (current : Bool)
    (existing : Option ℕ) : State κ :=
  match existing with
  | some m => s.grant n a m
  | none => if current then s.insertFresh cap n a else s.goto n a .looking

/-- The publication section of `_get_manager_with_token` -/
def publish (s : State κ) (cap n : ℕ) (a : Acquire κ) (attempt : ℕ) : State κ :=
  let current : Bool := s.GateIsCurrent a attempt
  let s := s.leaveGate a attempt
  match s.lookup a.key with
  | some (m, mgr) =>
    if mgr.retired then (s.evict a.key m).select cap n a current none
    else s.select cap n a current (some m)
  | none => s.select cap n a current none

/-- `_release_acquire_under_lock` -/
def releaseAcquire (s : State κ) (m token : ℕ) : State κ :=
  match s.managers[m]? with
  | none => s
  | some mgr =>
    { s.modify m fun mgr ↦ mgr.without token with
      registry :=
        if (mgr.without token).active = ∅ ∧ entry s.registry mgr.key = some m then
          remove s.registry mgr.key
        else s.registry }

/-- `close` of a pooled manager: the oldest legacy token is consumed -/
def close (s : State κ) (m : ℕ) : State κ :=
  match s.managers[m]?.bind fun mgr ↦ mgr.legacy.head? with
  | some token => s.releaseAcquire m token
  | none => s

/-- `_adopt_latest_legacy_lease`: an active token is no longer a legacy one -/
def adopt (s : State κ) (m token : ℕ) : State κ :=
  s.modify m fun mgr ↦
    if token ∈ mgr.active then { mgr with legacy := mgr.legacy.erase token } else mgr

/-- `clear_registry` -/
def clear (s : State κ) : State κ :=
  { s with
    managers := s.managers.mapIdx fun m mgr ↦
      if m ∈ s.registry.map Prod.snd then mgr.terminate else mgr
    registry := []
    epoch := s.epoch + 1
    attempts := s.attempts.mapIdx fun i a ↦
      if i ∈ s.constructions.map Prod.snd then { a with event := true } else a
    constructions := [] }

/-- One step, with `cap` for `MAX_MANAGERS`. -/
def step (cap : ℕ) (s : State κ) : Label κ → Option (State κ)
  | .acquire thread key legacy =>
    some { s with
      acquires := s.acquires ++ [⟨thread, key, legacy, s.nextToken, .looking⟩]
      nextToken := s.nextToken + 1 }
  | .look n => s.acquires[n]?.bind fun a ↦ if a.stage = .looking then some (s.look n a) else none
  | .wake n => s.acquires[n]?.bind fun a ↦
      match a.stage with
      | .waiting attempt =>
        if (s.attempts[attempt]?.map Attempt.event) = some true then some (s.goto n a .looking)
        else none
      | _ => none
  | .fail n => s.acquires[n]?.bind fun a ↦
      match a.stage with
      | .constructing attempt => some ((s.leaveGate a attempt).goto n a .raised)
      | _ => none
  | .publish n => s.acquires[n]?.bind fun a ↦
      match a.stage with
      | .constructing attempt => some (s.publish cap n a attempt)
      | _ => none
  | .release m token => some (s.releaseAcquire m token)
  | .close m => some (s.close m)
  | .adopt m token => some (s.adopt m token)
  | .dispose m =>
    if m ∈ s.doomed then
      some { s.modify m Manager.terminate with doomed := s.doomed.erase m }
    else none
  | .clear => some s.clear

end State

/-- The registry as a machine. -/
def machine [DecidableEq κ] (cap : ℕ) : Machine (State κ) (Label κ) where
  init := State.new
  step := State.step cap

/-! ## Association lists -/

section Entries

variable [DecidableEq κ] {l : List (κ × ℕ)} {key : κ} {m : ℕ}

theorem State.mem_of_entry (h : State.entry l key = some m) : (key, m) ∈ l := by
  obtain ⟨⟨k, m'⟩, he, rfl⟩ := Option.map_eq_some_iff.1 h
  obtain rfl : k = key := by simpa using List.find?_some he
  exact List.mem_of_find?_eq_some he

theorem State.notMem_of_entry (h : State.entry l key = none) (m : ℕ) : (key, m) ∉ l := by
  intro hm
  have := List.find?_eq_none.1 (Option.map_eq_none_iff.1 h) (key, m) hm
  simp at this

theorem State.entry_eq_of_mem (hl : (l.map Prod.fst).Nodup) (h : (key, m) ∈ l) :
    State.entry l key = some m := by
  cases he : State.entry l key with
  | none => exact absurd h (State.notMem_of_entry he m)
  | some m' =>
    have := List.inj_on_of_nodup_map hl h (State.mem_of_entry he) rfl
    simpa using (Prod.mk.inj this).2.symm

@[simp] theorem State.mem_remove {k : κ} :
    (k, m) ∈ State.remove l key ↔ (k, m) ∈ l ∧ k ≠ key := by
  simp [State.remove]

theorem State.remove_of_entry (h : State.entry l key = none) : State.remove l key = l := by
  refine List.filter_eq_self.2 fun e he ↦ ?_
  have := State.notMem_of_entry h e.2
  simp only [decide_eq_true_eq, ne_eq]
  rintro rfl
  exact this he

theorem State.nodup_remove_concat (key : κ) (m : ℕ) (hl : (l.map Prod.fst).Nodup) :
    ((State.remove l key ++ [(key, m)]).map Prod.fst).Nodup := by
  rw [List.map_append, List.map_singleton, List.nodup_append]
  refine ⟨(List.filter_sublist.map _).nodup hl, List.nodup_singleton _, ?_⟩
  rintro k hk _ hk' rfl
  obtain ⟨⟨k, m'⟩, he, rfl⟩ := List.mem_map.1 hk
  obtain rfl : k = key := by simpa using hk'
  exact (State.mem_remove.1 he).2 rfl

end Entries

/-! ## The invariant -/

/-- The counter and the legacy tokens of a manager agree with its tokens. -/
structure Manager.Counted (mgr : Manager κ) : Prop where
  users : mgr.users = mgr.active.card
  legacy : ∀ t ∈ mgr.legacy, t ∈ mgr.active
  nodup : mgr.legacy.Nodup

/-- The registry holds exactly the managers with a token. -/
structure State.Inv (s : State κ) : Prop where
  keys : (s.registry.map Prod.fst).Nodup
  registered : ∀ k m, (k, m) ∈ s.registry →
    ∃ mgr, s.managers[m]? = some mgr ∧ mgr.key = k ∧ mgr.active.Nonempty ∧ mgr.retired = false
  held : ∀ m mgr, s.managers[m]? = some mgr → mgr.active.Nonempty → (mgr.key, m) ∈ s.registry
  counted : ∀ mgr ∈ s.managers, mgr.Counted
  /-- The token of an acquire is its number, and active only once it has returned. -/
  tokens : ∀ n a, s.acquires[n]? = some a → a.token = n ∧
    ((∀ m, a.stage ≠ .returned m) → ∀ mgr ∈ s.managers, n ∉ mgr.active)
  bounded : ∀ mgr ∈ s.managers, ∀ t ∈ mgr.active, t < s.acquires.length
  nextToken : s.nextToken = s.acquires.length
  doomed : s.doomed = []

variable {s t : State κ} {n m token : ℕ} {a : Acquire κ} {mgr : Manager κ}

theorem Manager.Counted.register (h : mgr.Counted) (ht : token ∉ mgr.active) (legacy : Bool) :
    (mgr.register token legacy).Counted := by
  refine ⟨rfl, fun t hm ↦ ?_, ?_⟩
  · cases legacy with
    | false => exact Finset.mem_insert_of_mem (h.legacy t hm)
    | true =>
      rcases List.mem_append.1 hm with hm | hm
      · exact Finset.mem_insert_of_mem (h.legacy t hm)
      · rw [List.mem_singleton.1 hm]
        exact Finset.mem_insert_self _ _
  · cases legacy with
    | false => exact h.nodup
    | true =>
      refine List.nodup_append.2 ⟨h.nodup, List.nodup_singleton _, ?_⟩
      rintro t hm _ hm' rfl
      rw [List.mem_singleton.1 hm'] at hm
      exact ht (h.legacy _ hm)

theorem Manager.Counted.without (h : mgr.Counted) (token : ℕ) : (mgr.without token).Counted := by
  refine ⟨rfl, fun t hm ↦ ?_, h.nodup.erase _⟩
  rw [Manager.without] at hm ⊢
  obtain ⟨hne, hm⟩ := h.nodup.mem_erase_iff.1 hm
  exact Finset.mem_erase.2 ⟨hne, h.legacy t hm⟩

theorem Manager.counted_terminate (mgr : Manager κ) : mgr.terminate.Counted :=
  ⟨rfl, fun _ ht ↦ absurd ht List.not_mem_nil, List.nodup_nil⟩

theorem Manager.counted_fresh (key : κ) (token : ℕ) (legacy : Bool) :
    (Manager.fresh key token legacy).Counted :=
  Counted.register ⟨rfl, fun _ ht ↦ absurd ht List.not_mem_nil, List.nodup_nil⟩
    (Finset.notMem_empty _) legacy

namespace State

theorem Inv.new : (new : State κ).Inv :=
  ⟨List.nodup_nil, nofun, nofun, nofun, nofun, nofun, rfl, rfl⟩

/-- An acquire moves without returning. -/
theorem Inv.goto (h : s.Inv) (hn : s.acquires[n]? = some a)
    (hpending : ∀ m, a.stage ≠ .returned m) (stage : Stage) : (s.goto n a stage).Inv := by
  refine ⟨h.keys, h.registered, h.held, h.counted, fun i b hb ↦ ?_, ?_, ?_, h.doomed⟩
  · obtain ⟨rfl, rfl⟩ | ⟨-, hb⟩ := List.getElem?_set_some hb
    · obtain ⟨htoken, hactive⟩ := h.tokens i a hn
      exact ⟨htoken, fun _ ↦ hactive hpending⟩
    · exact h.tokens i b hb
  · simpa [State.goto] using h.bounded
  · simpa [State.goto] using h.nextToken

/-- Control state apart from the acquires does not matter. -/
theorem Inv.control (h : s.Inv) {attempts : List Attempt} {constructions : List (κ × ℕ)}
    {owners : List ℕ} : Inv { s with attempts, constructions, owners } :=
  ⟨h.keys, h.registered, h.held, h.counted, h.tokens, h.bounded, h.nextToken, h.doomed⟩

variable [DecidableEq κ]

theorem Inv.elect (h : s.Inv) (hn : s.acquires[n]? = some a)
    (hpending : ∀ m, a.stage ≠ .returned m) : (s.elect n a).Inv := by
  unfold State.elect
  split
  · exact h.goto hn hpending _
  · exact (h.goto hn hpending (.constructing s.attempts.length)).control

theorem Inv.leaveGate (h : s.Inv) (a : Acquire κ) (attempt : ℕ) : (s.leaveGate a attempt).Inv :=
  h.control

/-- A lookup finds a manager that is in use. -/
theorem Inv.lookup (h : s.Inv) {key : κ} (hl : s.lookup key = some (m, mgr)) :
    (key, m) ∈ s.registry ∧ s.managers[m]? = some mgr ∧ mgr.retired = false := by
  obtain ⟨m', hm', hmgr⟩ := Option.bind_eq_some_iff.1 hl
  obtain ⟨mgr', hmgr', heq⟩ := Option.map_eq_some_iff.1 hmgr
  obtain ⟨rfl, rfl⟩ := Prod.mk.inj heq
  have hmem := mem_of_entry hm'
  obtain ⟨mgr'', hm'', -, -, hretired⟩ := h.registered key m' hmem
  obtain rfl : mgr'' = mgr' := by simpa [hm''] using hmgr'
  exact ⟨hmem, hm'', hretired⟩

/-- A lookup that finds nothing finds no entry. -/
theorem Inv.lookup_none (h : s.Inv) {key : κ} (hl : s.lookup key = none) :
    entry s.registry key = none := by
  by_contra he
  obtain ⟨m, hm⟩ := Option.ne_none_iff_exists'.1 he
  obtain ⟨mgr, hmgr, -⟩ := h.registered key m (mem_of_entry hm)
  simp [State.lookup, hm, hmgr] at hl

/-- The tokens of a manager after an acquire was granted. -/
theorem getElem?_grant (i : ℕ) : (s.grant n a m).managers[i]? =
    s.managers[i]?.map fun mgr ↦ if m = i then mgr.register a.token a.legacy else mgr := by
  simp [State.grant, State.goto, State.modify, List.getElem?_modify]

theorem Inv.grant (h : s.Inv) (hn : s.acquires[n]? = some a)
    (hpending : ∀ m, a.stage ≠ .returned m) (hm : (a.key, m) ∈ s.registry) :
    (s.grant n a m).Inv := by
  obtain ⟨htoken, hfresh⟩ := h.tokens n a hn
  have hfresh := hfresh hpending
  have hlt : n < s.acquires.length := (List.getElem?_eq_some_iff.1 hn).1
  have hmem : ∀ mgr' ∈ (s.grant n a m).managers, ∃ mgr ∈ s.managers,
      mgr' = mgr ∨ mgr' = mgr.register a.token a.legacy := by
    intro mgr' hmgr'
    obtain ⟨i, hi⟩ := List.mem_iff_getElem?.1 hmgr'
    rw [getElem?_grant] at hi
    obtain ⟨mgr, hmgr, rfl⟩ := Option.map_eq_some_iff.1 hi
    refine ⟨mgr, List.mem_of_getElem? hmgr, ?_⟩
    split
    · exact .inr rfl
    · exact .inl rfl
  refine ⟨nodup_remove_concat a.key m h.keys, ?_, ?_, ?_, ?_, ?_, ?_, h.doomed⟩
  · intro k i hi
    rw [getElem?_grant]
    rcases List.mem_append.1 hi with hi | hi
    · obtain ⟨mgr, hmgr, hk, hactive, hretired⟩ := h.registered k i (mem_remove.1 hi).1
      refine ⟨_, by rw [hmgr]; rfl, ?_⟩
      split
      · exact ⟨hk, Finset.insert_nonempty _ _, hretired⟩
      · exact ⟨hk, hactive, hretired⟩
    · obtain ⟨rfl, rfl⟩ := Prod.mk.inj (List.mem_singleton.1 hi)
      obtain ⟨mgr, hmgr, hk, -, hretired⟩ := h.registered _ _ hm
      refine ⟨mgr.register a.token a.legacy, by simp [hmgr], ?_⟩
      exact ⟨hk, Finset.insert_nonempty _ _, hretired⟩
  · intro i mgr' hmgr' hactive
    rw [getElem?_grant] at hmgr'
    obtain ⟨mgr, hmgr, rfl⟩ := Option.map_eq_some_iff.1 hmgr'
    by_cases hi : m = i
    · subst hi
      obtain ⟨mgr₀, hmgr₀, hk, -⟩ := h.registered _ _ hm
      obtain rfl : mgr₀ = mgr := by simpa [hmgr₀] using hmgr
      rw [if_pos rfl]
      refine List.mem_append_right _ (List.mem_singleton.2 ?_)
      exact congrArg (·, m) hk
    · rw [if_neg hi] at hactive ⊢
      have hreg := h.held i mgr hmgr hactive
      refine List.mem_append_left _ (mem_remove.2 ⟨hreg, fun hk ↦ hi ?_⟩)
      have := entry_eq_of_mem h.keys hm
      rw [← hk, entry_eq_of_mem h.keys hreg] at this
      exact (Option.some.inj this).symm
  · intro mgr' hmgr'
    obtain ⟨mgr, hmgr, rfl | rfl⟩ := hmem mgr' hmgr'
    · exact h.counted _ hmgr
    · exact (h.counted mgr hmgr).register (htoken ▸ hfresh mgr hmgr) a.legacy
  · intro i b hb
    obtain ⟨rfl, rfl⟩ | ⟨hi, hb⟩ := List.getElem?_set_some hb
    · exact ⟨htoken, fun hp ↦ absurd rfl (hp m)⟩
    · obtain ⟨hbt, hbf⟩ := h.tokens i b hb
      refine ⟨hbt, fun hp mgr' hmgr' ↦ ?_⟩
      obtain ⟨mgr, hmgr, rfl | rfl⟩ := hmem mgr' hmgr'
      · exact hbf hp _ hmgr
      · simp only [Manager.register, Finset.mem_insert, not_or]
        exact ⟨fun heq ↦ hi (heq.trans htoken), hbf hp _ hmgr⟩
  · intro mgr' hmgr' x hx
    have hlen : (s.grant n a m).acquires.length = s.acquires.length := by
      simp [State.grant, State.goto, State.modify]
    rw [hlen]
    obtain ⟨mgr, hmgr, rfl | rfl⟩ := hmem mgr' hmgr'
    · exact h.bounded _ hmgr x hx
    · rcases Finset.mem_insert.1 hx with rfl | hx
      · exact htoken ▸ hlt
      · exact h.bounded _ hmgr x hx
  · simpa [State.grant, State.goto, State.modify] using h.nextToken

/-- No registered manager is an orphan, so that nothing is evicted. -/
theorem Inv.collectOrphans (h : s.Inv) (k : ℕ) :
    State.collectOrphans s.users k s.registry = (s.registry, []) := by
  have hnone : (s.registry.find? fun e ↦ s.users e.2 = 0) = none := by
    refine List.find?_eq_none.2 fun e he ↦ ?_
    obtain ⟨mgr, hmgr, -, hactive, -⟩ := h.registered e.1 e.2 he
    have hcard := (h.counted mgr (List.mem_of_getElem? hmgr)).users
    have hpos := Finset.card_pos.2 hactive
    simp only [users, hmgr, Option.map_some, Option.getD_some, decide_eq_true_eq]
    omega
  cases k with
  | zero => rfl
  | succ k => simp [State.collectOrphans, hnone]

theorem Inv.insertFresh (h : s.Inv) (hn : s.acquires[n]? = some a)
    (hpending : ∀ m, a.stage ≠ .returned m) (hkey : entry s.registry a.key = none) (cap : ℕ) :
    (s.insertFresh cap n a).Inv := by
  obtain ⟨htoken, hfresh⟩ := h.tokens n a hn
  have hfresh := hfresh hpending
  have hlt : n < s.acquires.length := (List.getElem?_eq_some_iff.1 hn).1
  have hnew : (Manager.fresh a.key a.token a.legacy).active = {n} := by
    simp [Manager.fresh, Manager.register, htoken]
  unfold State.insertFresh
  rw [h.collectOrphans]
  refine ⟨?_, ?_, ?_, ?_, ?_, ?_, ?_, by simpa using h.doomed⟩
  · have := nodup_remove_concat a.key s.managers.length h.keys
    rwa [remove_of_entry hkey] at this
  · intro k i hi
    rcases List.mem_append.1 hi with hi | hi
    · obtain ⟨mgr, hmgr, hrest⟩ := h.registered k i hi
      refine ⟨mgr, ?_, hrest⟩
      rw [List.getElem?_append_left (List.getElem?_eq_some_iff.1 hmgr).1]
      exact hmgr
    · obtain ⟨rfl, rfl⟩ := Prod.mk.inj (List.mem_singleton.1 hi)
      exact ⟨_, List.getElem?_concat_length, rfl, by simp [hnew], rfl⟩
  · intro i mgr hmgr hactive
    rcases List.getElem?_concat_some hmgr with ⟨rfl, rfl⟩ | hmgr
    · exact List.mem_append_right _ (List.mem_singleton.2 rfl)
    · exact List.mem_append_left _ (h.held i mgr hmgr hactive)
  · intro mgr hmgr
    rcases List.mem_append.1 hmgr with hmgr | hmgr
    · exact h.counted mgr hmgr
    · rw [List.mem_singleton.1 hmgr]
      exact Manager.counted_fresh _ _ _
  · intro i b hb
    obtain ⟨rfl, rfl⟩ | ⟨hi, hb⟩ := List.getElem?_set_some hb
    · exact ⟨htoken, fun hp ↦ absurd rfl (hp _)⟩
    · obtain ⟨hbt, hbf⟩ := h.tokens i b hb
      refine ⟨hbt, fun hp mgr hmgr ↦ ?_⟩
      rcases List.mem_append.1 hmgr with hmgr | hmgr
      · exact hbf hp _ hmgr
      · rw [List.mem_singleton.1 hmgr, hnew]
        simpa using hi
  · intro mgr hmgr x hx
    rw [State.goto, List.length_set]
    rcases List.mem_append.1 hmgr with hmgr | hmgr
    · exact h.bounded mgr hmgr x hx
    · rw [List.mem_singleton.1 hmgr, hnew, Finset.mem_singleton] at hx
      exact hx ▸ hlt
  · simpa [State.goto] using h.nextToken

theorem Inv.look (h : s.Inv) (hn : s.acquires[n]? = some a)
    (hpending : ∀ m, a.stage ≠ .returned m) : (s.look n a).Inv := by
  unfold State.look
  split
  · exact h.goto hn hpending _
  · split
    · rename_i m mgr hl
      obtain ⟨hmem, -, hretired⟩ := h.lookup hl
      rw [if_neg (by simp [hretired])]
      exact h.grant hn hpending hmem
    · exact h.elect hn hpending

theorem Inv.publish (h : s.Inv) (hn : s.acquires[n]? = some a)
    (hpending : ∀ m, a.stage ≠ .returned m) (cap attempt : ℕ) :
    (s.publish cap n a attempt).Inv := by
  have hgate := h.leaveGate a attempt
  unfold State.publish
  dsimp only
  split
  · rename_i m mgr hl
    obtain ⟨hmem, -, hretired⟩ := hgate.lookup hl
    rw [if_neg (by simp [hretired])]
    exact hgate.grant hn hpending hmem
  · rename_i hl
    unfold State.select
    dsimp only
    split
    · exact hgate.insertFresh hn hpending (hgate.lookup_none hl) cap
    · exact hgate.goto hn hpending _

omit [DecidableEq κ] in
theorem getElem?_modify_some {f : Manager κ → Manager κ} {i : ℕ} {mgr' : Manager κ}
    (h : (s.modify m f).managers[i]? = some mgr') :
    ∃ mgr, s.managers[i]? = some mgr ∧ mgr' = if m = i then f mgr else mgr := by
  rw [State.modify, List.getElem?_modify] at h
  obtain ⟨mgr, hmgr, rfl⟩ := Option.map_eq_some_iff.1 h
  exact ⟨mgr, hmgr, rfl⟩

omit [DecidableEq κ] in
/-- A change of one manager that adds no token and keeps the rest in place. -/
theorem Inv.modify (h : s.Inv) {f : Manager κ → Manager κ} {registry : List (κ × ℕ)}
    (hkeys : (registry.map Prod.fst).Nodup)
    (hcounted : ∀ mgr, mgr.Counted → (f mgr).Counted)
    (hactive : ∀ mgr, (f mgr).active ⊆ mgr.active)
    (hregistered : ∀ k i, (k, i) ∈ registry → (k, i) ∈ s.registry ∧ (i = m → ∀ mgr,
      s.managers[m]? = some mgr → (f mgr).key = mgr.key ∧ (f mgr).active.Nonempty ∧
        (f mgr).retired = mgr.retired))
    (hheld : ∀ i mgr, s.managers[i]? = some mgr → (if m = i then f mgr else mgr).active.Nonempty →
      ((if m = i then f mgr else mgr).key, i) ∈ registry) :
    Inv { s.modify m f with registry } := by
  have hmem : ∀ mgr' ∈ (s.modify m f).managers, ∃ mgr ∈ s.managers, mgr' = mgr ∨ mgr' = f mgr := by
    intro mgr' hmgr'
    obtain ⟨i, hi⟩ := List.mem_iff_getElem?.1 hmgr'
    obtain ⟨mgr, hmgr, rfl⟩ := getElem?_modify_some hi
    refine ⟨mgr, List.mem_of_getElem? hmgr, ?_⟩
    split
    · exact .inr rfl
    · exact .inl rfl
  refine ⟨hkeys, ?_, ?_, ?_, ?_, ?_, h.nextToken, h.doomed⟩
  · intro k i hi
    obtain ⟨hreg, hf⟩ := hregistered k i hi
    obtain ⟨mgr, hmgr, hk, hne, hretired⟩ := h.registered k i hreg
    by_cases him : m = i
    · subst him
      obtain ⟨hk', hne', hr'⟩ := hf rfl mgr hmgr
      refine ⟨f mgr, by simp [State.modify, hmgr], hk'.trans hk, hne', ?_⟩
      exact hr'.trans hretired
    · exact ⟨mgr, by simp [State.modify, hmgr, him], hk, hne, hretired⟩
  · intro i mgr' hmgr' hne
    obtain ⟨mgr, hmgr, rfl⟩ := getElem?_modify_some hmgr'
    exact hheld i mgr hmgr hne
  · intro mgr' hmgr'
    obtain ⟨mgr, hmgr, rfl | rfl⟩ := hmem mgr' hmgr'
    · exact h.counted _ hmgr
    · exact hcounted mgr (h.counted mgr hmgr)
  · intro i b hb
    obtain ⟨hbt, hbf⟩ := h.tokens i b hb
    refine ⟨hbt, fun hp mgr' hmgr' ↦ ?_⟩
    obtain ⟨mgr, hmgr, rfl | rfl⟩ := hmem mgr' hmgr'
    · exact hbf hp _ hmgr
    · exact fun hx ↦ hbf hp mgr hmgr (hactive mgr hx)
  · intro mgr' hmgr' x hx
    obtain ⟨mgr, hmgr, rfl | rfl⟩ := hmem mgr' hmgr'
    · exact h.bounded _ hmgr x hx
    · exact h.bounded mgr hmgr x (hactive mgr hx)

/-- The manager of an entry. -/
theorem Inv.eq_of_mem (h : s.Inv) {k : κ} {i j : ℕ} (hi : (k, i) ∈ s.registry)
    (hj : (k, j) ∈ s.registry) : i = j := by
  have := entry_eq_of_mem h.keys hi
  rw [entry_eq_of_mem h.keys hj] at this
  exact (Option.some.inj this).symm

theorem Inv.releaseAcquire (h : s.Inv) (m token : ℕ) : (s.releaseAcquire m token).Inv := by
  unfold State.releaseAcquire
  split
  · exact h
  · rename_i mgr hmgr
    have hsub : ∀ mgr : Manager κ, (mgr.without token).active ⊆ mgr.active :=
      fun mgr ↦ Finset.erase_subset _ _
    have hcounted : ∀ mgr : Manager κ, mgr.Counted → (mgr.without token).Counted :=
      fun mgr hc ↦ hc.without token
    by_cases hlast : (mgr.without token).active = ∅
    · -- The last token: the manager leaves the registry, if it is there at all.
      have hgone : ∀ k i, (k, i) ∈ s.registry → i = m → mgr.key = k ∧ entry s.registry mgr.key = some m := by
        rintro k i hi rfl
        obtain ⟨mgr', hmgr', hk, -⟩ := h.registered k i hi
        obtain rfl : mgr' = mgr := by simpa [hmgr'] using hmgr
        subst hk
        exact ⟨rfl, entry_eq_of_mem h.keys hi⟩
      refine h.modify ?_ hcounted hsub ?_ ?_
      · split
        · exact (List.filter_sublist.map _).nodup h.keys
        · exact h.keys
      · intro k i hi
        have hmem : (k, i) ∈ s.registry := by
          split at hi
          · exact (mem_remove.1 hi).1
          · exact hi
        refine ⟨hmem, fun him ↦ ?_⟩
        obtain ⟨hk, he⟩ := hgone k i hmem him
        rw [if_pos ⟨hlast, he⟩] at hi
        exact absurd hk.symm (mem_remove.1 hi).2
      · intro i mgr' hmgr' hne
        by_cases him : m = i
        · subst him
          obtain rfl : mgr' = mgr := by simpa [hmgr'] using hmgr
          rw [if_pos rfl, hlast] at hne
          simp at hne
        · rw [if_neg him] at hne ⊢
          have hreg := h.held i mgr' hmgr' hne
          split
          · rename_i hcond
            refine mem_remove.2 ⟨hreg, fun hk ↦ him ?_⟩
            rw [hk] at hreg
            exact h.eq_of_mem (mem_of_entry hcond.2) hreg
          · exact hreg
    · simp only [hlast, false_and, if_false]
      refine h.modify h.keys hcounted hsub ?_ ?_
      · refine fun k i hi ↦ ⟨hi, fun _ mgr' hmgr' ↦ ?_⟩
        obtain rfl : mgr' = mgr := by simpa [hmgr'] using hmgr
        exact ⟨rfl, Finset.nonempty_iff_ne_empty.2 hlast, by
          have hlast : mgr'.active.erase token ≠ ∅ := hlast
          simp [Manager.without, hlast]⟩
      · intro i mgr' hmgr' hne
        by_cases him : m = i
        · subst him
          rw [if_pos rfl] at hne ⊢
          exact h.held m mgr' hmgr' (hne.mono (hsub mgr'))
        · rw [if_neg him] at hne ⊢
          exact h.held i mgr' hmgr' hne

theorem Inv.close (h : s.Inv) (m : ℕ) : (s.close m).Inv := by
  unfold State.close
  split
  · exact h.releaseAcquire m _
  · exact h

omit [DecidableEq κ] in
theorem Inv.adopt (h : s.Inv) (m token : ℕ) : (s.adopt m token).Inv := by
  have hsame : ∀ mgr : Manager κ, let mgr' := if token ∈ mgr.active then
      { mgr with legacy := mgr.legacy.erase token } else mgr
      mgr'.key = mgr.key ∧ mgr'.active = mgr.active ∧ mgr'.retired = mgr.retired := by
    intro mgr
    dsimp only
    split <;> exact ⟨rfl, rfl, rfl⟩
  refine h.modify h.keys (fun mgr hc ↦ ?_) (fun mgr ↦ (hsame mgr).2.1.subset) ?_ ?_
  · split
    · exact ⟨hc.users, fun x hx ↦ hc.legacy x (List.mem_of_mem_erase hx), hc.nodup.erase _⟩
    · exact hc
  · refine fun k i hi ↦ ⟨hi, fun him mgr hmgr ↦ ?_⟩
    obtain ⟨hk, ha, hr⟩ := hsame mgr
    obtain ⟨mgr', hmgr', -, hne, -⟩ := h.registered k i hi
    subst him
    obtain rfl : mgr' = mgr := by simpa [hmgr'] using hmgr
    refine ⟨hk, ?_, hr⟩
    rw [ha]
    exact hne
  · intro i mgr hmgr hne
    by_cases him : m = i
    · subst him
      obtain ⟨hk, ha, -⟩ := hsame mgr
      rw [if_pos rfl] at hne ⊢
      rw [ha] at hne
      rw [hk]
      exact h.held m mgr hmgr hne
    · rw [if_neg him] at hne ⊢
      exact h.held i mgr hmgr hne

omit [DecidableEq κ] in
/-- After a clear no manager has a token. -/
theorem Inv.clear_active (h : s.Inv) {i : ℕ} {mgr : Manager κ}
    (hmgr : s.clear.managers[i]? = some mgr) : mgr.active = ∅ ∧ mgr.Counted := by
  rw [State.clear, List.getElem?_mapIdx] at hmgr
  obtain ⟨mgr', hmgr', rfl⟩ := Option.map_eq_some_iff.1 hmgr
  split
  · exact ⟨rfl, mgr'.counted_terminate⟩
  · rename_i hn
    refine ⟨?_, h.counted mgr' (List.mem_of_getElem? hmgr')⟩
    by_contra hne
    exact hn (List.mem_map.2 ⟨_, h.held i mgr' hmgr' (Finset.nonempty_iff_ne_empty.2 hne), rfl⟩)

omit [DecidableEq κ] in
theorem Inv.clear (h : s.Inv) : s.clear.Inv := by
  have hempty : ∀ mgr ∈ s.clear.managers, mgr.active = ∅ ∧ mgr.Counted := by
    intro mgr hmgr
    obtain ⟨i, hi⟩ := List.mem_iff_getElem?.1 hmgr
    exact h.clear_active hi
  refine ⟨List.nodup_nil, nofun, ?_, fun mgr hmgr ↦ (hempty mgr hmgr).2, ?_, ?_, h.nextToken,
    h.doomed⟩
  · intro i mgr hmgr hne
    rw [(h.clear_active hmgr).1] at hne
    simp at hne
  · refine fun i b hb ↦ ⟨(h.tokens i b hb).1, fun _ mgr hmgr ↦ ?_⟩
    rw [(hempty mgr hmgr).1]
    exact Finset.notMem_empty _
  · intro mgr hmgr x hx
    rw [(hempty mgr hmgr).1] at hx
    simp at hx

omit [DecidableEq κ] in
theorem Inv.acquire (h : s.Inv) (thread : ℕ) (key : κ) (legacy : Bool) :
    Inv { s with
      acquires := s.acquires ++ [⟨thread, key, legacy, s.nextToken, .looking⟩]
      nextToken := s.nextToken + 1 } := by
  refine ⟨h.keys, h.registered, h.held, h.counted, fun i b hb ↦ ?_, fun mgr hmgr x hx ↦ ?_, ?_,
    h.doomed⟩
  · obtain ⟨rfl, rfl⟩ | hb := List.getElem?_concat_some hb
    · refine ⟨h.nextToken, fun _ mgr hmgr hx ↦ ?_⟩
      exact absurd (h.bounded mgr hmgr _ hx) (lt_irrefl _)
    · exact h.tokens i b hb
  · rw [List.length_append]
    exact (h.bounded mgr hmgr x hx).trans_le (Nat.le_add_right _ _)
  · simp [h.nextToken]

theorem Inv.step (h : s.Inv) {cap : ℕ} {label : Label κ} (ht : s.step cap label = some t) :
    t.Inv := by
  cases label with
  | acquire thread key legacy =>
    obtain ⟨⟩ := ht
    exact h.acquire thread key legacy
  | look n =>
    obtain ⟨a, hn, ht⟩ := Option.bind_eq_some_iff.1 ht
    obtain ⟨hs, ⟨⟩⟩ := Option.ite_none_right_eq_some.1 ht
    exact h.look hn (by simp [hs])
  | wake n =>
    obtain ⟨a, hn, ht⟩ := Option.bind_eq_some_iff.1 ht
    split at ht
    · rename_i hs
      obtain ⟨-, ⟨⟩⟩ := Option.ite_none_right_eq_some.1 ht
      exact h.goto hn (by simp [hs]) _
    · simp at ht
  | fail n =>
    obtain ⟨a, hn, ht⟩ := Option.bind_eq_some_iff.1 ht
    split at ht
    · rename_i hs
      obtain ⟨⟩ := ht
      exact (h.leaveGate a _).goto hn (by simp [hs]) _
    · simp at ht
  | publish n =>
    obtain ⟨a, hn, ht⟩ := Option.bind_eq_some_iff.1 ht
    split at ht
    · rename_i hs
      obtain ⟨⟩ := ht
      exact h.publish hn (by simp [hs]) cap _
    · simp at ht
  | release m token =>
    obtain ⟨⟩ := ht
    exact h.releaseAcquire m token
  | close m =>
    obtain ⟨⟩ := ht
    exact h.close m
  | adopt m token =>
    obtain ⟨⟩ := ht
    exact h.adopt m token
  | dispose m =>
    obtain ⟨hm, -⟩ := Option.ite_none_right_eq_some.1 ht
    simp [h.doomed] at hm
  | clear =>
    obtain ⟨⟩ := ht
    exact h.clear

end State

theorem inv_of_reachable [DecidableEq κ] {cap : ℕ} (h : (machine cap).Reachable s) : s.Inv :=
  h.invariant (I := State.Inv) .new fun _ _ _ hs ht ↦ hs.step ht

/-! ## Ownership -/

/-- The step gives this token of this manager back. -/
def Label.Releases (label : Label κ) (s : State κ) (m token : ℕ) : Prop :=
  match label with
  | .release m' token' => m' = m ∧ token' = token
  | .close m' => m' = m ∧ (s.managers[m]?.bind fun mgr ↦ mgr.legacy.head?) = some token
  | _ => False

/-- An acquire that comes to return does so with a manager of its key that is not retired, before or
after, and holds it. -/
def State.Answers (s t : State κ) : Prop :=
  ∀ (n : ℕ) (a : Acquire κ) (m : ℕ), t.acquires[n]? = some a → a.stage = .returned m →
    (∃ b : Acquire κ, s.acquires[n]? = some b ∧ b.stage = .returned m) ∨
      ((∀ mgr : Manager κ, s.managers[m]? = some mgr → mgr.retired = false) ∧
        ∃ mgr : Manager κ, t.managers[m]? = some mgr ∧ mgr.key = a.key ∧ a.token ∈ mgr.active ∧
          mgr.retired = false)

/-- What the registry promises in a state, and for every step from it. -/
structure State.Owned [DecidableEq κ] (cap : ℕ) (s : State κ) : Prop where
  /-- A manager of the registry is in use. -/
  registered : ∀ k m, (k, m) ∈ s.registry →
    ∃ mgr, s.managers[m]? = some mgr ∧ mgr.key = k ∧ mgr.active.Nonempty ∧ mgr.retired = false
  users : ∀ mgr ∈ s.managers, mgr.users = mgr.active.card
  legacy : ∀ mgr ∈ s.managers, ∀ x ∈ mgr.legacy, x ∈ mgr.active
  /-- A holder keeps its manager, which is not retired, until its own release or a clear. -/
  holder : ∀ label t, s.step cap label = some t → label ≠ .clear →
    ∀ m (mgr : Manager κ), s.managers[m]? = some mgr → ∀ x ∈ mgr.active, ¬ label.Releases s m x →
      ∃ mgr', t.managers[m]? = some mgr' ∧ x ∈ mgr'.active ∧ mgr'.retired = false
  /-- Two holders of a key have the same manager. -/
  shared : ∀ (m m' : ℕ) (mgr mgr' : Manager κ), s.managers[m]? = some mgr →
    s.managers[m']? = some mgr' → mgr.active.Nonempty → mgr'.active.Nonempty →
      mgr.key = mgr'.key → m = m'
  answers : ∀ label t, s.step cap label = some t → s.Answers t

namespace State

variable [DecidableEq κ]

omit [DecidableEq κ] in
/-- A manager with a holder is in the registry, so it is not retired. -/
theorem Inv.not_retired (h : s.Inv) (hm : s.managers[m]? = some mgr) (hne : mgr.active.Nonempty) :
    mgr.retired = false := by
  obtain ⟨mgr', hm', -, -, hretired⟩ := h.registered _ _ (h.held m mgr hm hne)
  obtain rfl : mgr' = mgr := by simpa [hm'] using hm
  exact hretired

/-- No manager loses a token, and none disappears. -/
def Grows (s t : State κ) : Prop :=
  ∀ (m : ℕ) (mgr : Manager κ), s.managers[m]? = some mgr →
    ∃ mgr' : Manager κ, t.managers[m]? = some mgr' ∧ mgr.active ⊆ mgr'.active

omit [DecidableEq κ] in
theorem Grows.of_eq (h : t.managers = s.managers) : s.Grows t :=
  fun _ mgr hm ↦ ⟨mgr, h ▸ hm, Finset.Subset.refl _⟩

theorem grows_grant (s : State κ) (n : ℕ) (a : Acquire κ) (m : ℕ) : s.Grows (s.grant n a m) := by
  intro i mgr hi
  refine ⟨_, by rw [getElem?_grant, hi]; rfl, ?_⟩
  split
  · exact Finset.subset_insert _ _
  · exact Finset.Subset.refl _

theorem grows_insertFresh (s : State κ) (cap n : ℕ) (a : Acquire κ) :
    s.Grows (s.insertFresh cap n a) := by
  intro i mgr hi
  refine ⟨mgr, ?_, Finset.Subset.refl _⟩
  rw [State.insertFresh, List.getElem?_append_left (List.getElem?_eq_some_iff.1 hi).1]
  exact hi

theorem elect_managers (s : State κ) (n : ℕ) (a : Acquire κ) :
    (s.elect n a).managers = s.managers := by
  unfold State.elect
  split <;> rfl

theorem grows_look (s : State κ) (n : ℕ) (a : Acquire κ) : s.Grows (s.look n a) := by
  unfold State.look
  split
  · exact .of_eq rfl
  · split
    · split
      · exact .of_eq (elect_managers _ n a)
      · exact s.grows_grant n a _
    · exact .of_eq (elect_managers s n a)

theorem grows_select (s : State κ) (cap n : ℕ) (a : Acquire κ) (current : Bool)
    (existing : Option ℕ) : s.Grows (s.select cap n a current existing) := by
  unfold State.select
  split
  · exact s.grows_grant n a _
  · split
    · exact s.grows_insertFresh cap n a
    · exact .of_eq rfl

theorem grows_publish (s : State κ) (cap n : ℕ) (a : Acquire κ) (attempt : ℕ) :
    s.Grows (s.publish cap n a attempt) := by
  unfold State.publish
  dsimp only
  split
  · split
    · exact grows_select ((s.leaveGate a attempt).evict a.key _) cap n a _ none
    · exact grows_select (s.leaveGate a attempt) cap n a _ _
  · exact grows_select (s.leaveGate a attempt) cap n a _ none

/-- A release takes one token from one manager. -/
theorem getElem?_releaseAcquire (m token : ℕ) {i : ℕ} (hi : s.managers[i]? = some mgr) :
    ∃ mgr', (s.releaseAcquire m token).managers[i]? = some mgr' ∧
      ∀ x ∈ mgr.active, ¬ (m = i ∧ token = x) → x ∈ mgr'.active := by
  unfold State.releaseAcquire
  split
  · exact ⟨mgr, hi, fun x hx _ ↦ hx⟩
  · refine ⟨if m = i then mgr.without token else mgr, ?_, fun x hx hne ↦ ?_⟩
    · simp [State.modify, List.getElem?_modify, hi]
    · split
      · rename_i him
        exact Finset.mem_erase.2 ⟨fun hxt ↦ hne ⟨him, hxt.symm⟩, hx⟩
      · exact hx

theorem releaseAcquire_acquires (s : State κ) (m token : ℕ) :
    (s.releaseAcquire m token).acquires = s.acquires := by
  unfold State.releaseAcquire
  split <;> rfl

/-- A token that is not given back stays, apart from a clear. -/
theorem Inv.mem_active_of_step (h : s.Inv) {cap : ℕ} {label : Label κ}
    (ht : s.step cap label = some t) (hclear : label ≠ .clear) (hm : s.managers[m]? = some mgr)
    {x : ℕ} (hx : x ∈ mgr.active) (hkeep : ¬ label.Releases s m x) :
    ∃ mgr', t.managers[m]? = some mgr' ∧ x ∈ mgr'.active := by
  have of_grows : s.Grows t → ∃ mgr', t.managers[m]? = some mgr' ∧ x ∈ mgr'.active := by
    intro hgrows
    obtain ⟨mgr', hm', hsub⟩ := hgrows m mgr hm
    exact ⟨mgr', hm', hsub hx⟩
  cases label with
  | acquire thread key legacy =>
    obtain ⟨⟩ := ht
    exact of_grows (.of_eq rfl)
  | look n =>
    obtain ⟨a, hn, ht⟩ := Option.bind_eq_some_iff.1 ht
    obtain ⟨-, ⟨⟩⟩ := Option.ite_none_right_eq_some.1 ht
    exact of_grows (s.grows_look n a)
  | wake n =>
    obtain ⟨a, hn, ht⟩ := Option.bind_eq_some_iff.1 ht
    split at ht
    · obtain ⟨-, ⟨⟩⟩ := Option.ite_none_right_eq_some.1 ht
      exact of_grows (.of_eq rfl)
    · simp at ht
  | fail n =>
    obtain ⟨a, hn, ht⟩ := Option.bind_eq_some_iff.1 ht
    split at ht
    · obtain ⟨⟩ := ht
      exact of_grows (.of_eq rfl)
    · simp at ht
  | publish n =>
    obtain ⟨a, hn, ht⟩ := Option.bind_eq_some_iff.1 ht
    split at ht
    · obtain ⟨⟩ := ht
      exact of_grows (s.grows_publish cap n a _)
    · simp at ht
  | release m' token' =>
    obtain ⟨⟩ := ht
    obtain ⟨mgr', hm', hrest⟩ := getElem?_releaseAcquire m' token' hm
    exact ⟨mgr', hm', hrest x hx hkeep⟩
  | close m' =>
    obtain ⟨⟩ := ht
    unfold State.close
    split
    · rename_i token' hhead
      obtain ⟨mgr', hm', hrest⟩ := getElem?_releaseAcquire m' token' hm
      refine ⟨mgr', hm', hrest x hx ?_⟩
      rintro ⟨rfl, rfl⟩
      exact hkeep ⟨rfl, hhead⟩
    · exact ⟨mgr, hm, hx⟩
  | adopt m' token' =>
    obtain ⟨⟩ := ht
    refine of_grows fun i mgr hi ↦ ⟨_, by rw [State.adopt, State.modify, List.getElem?_modify, hi]; rfl, ?_⟩
    split
    · dsimp only
      split <;> exact Finset.Subset.refl _
    · exact Finset.Subset.refl _
  | dispose m' =>
    obtain ⟨hm', -⟩ := Option.ite_none_right_eq_some.1 ht
    simp [h.doomed] at hm'
  | clear => exact absurd rfl hclear

omit [DecidableEq κ] in
theorem Answers.of_eq (h : t.acquires = s.acquires) : s.Answers t :=
  fun _ a _ hn hstage ↦ .inl ⟨a, h ▸ hn, hstage⟩

omit [DecidableEq κ] in
/-- An acquire moves without returning. -/
theorem Answers.goto {stage : Stage} (h : t.acquires = (s.goto n a stage).acquires)
    (hstage : ∀ m, stage ≠ .returned m) : s.Answers t := by
  intro i b m hb hreturned
  rw [h] at hb
  obtain ⟨rfl, rfl⟩ | ⟨-, hb⟩ := List.getElem?_set_some hb
  · exact absurd hreturned (hstage m)
  · exact .inl ⟨b, hb, hreturned⟩

/-- An acquire returns, and the others stay where they are. -/
theorem answers_grant (hl : s.managers[m]? = some mgr) (hk : mgr.key = a.key)
    (hretired : mgr.retired = false) : s.Answers (s.grant n a m) := by
  intro i b m' hb hreturned
  obtain ⟨rfl, rfl⟩ | ⟨-, hb⟩ := List.getElem?_set_some hb
  · obtain ⟨rfl⟩ := hreturned
    refine .inr ⟨fun mgr' hmgr' ↦ ?_, mgr.register a.token a.legacy, ?_, hk, ?_, hretired⟩
    · obtain rfl : mgr = mgr' := by simpa [hl] using hmgr'
      exact hretired
    · simp [getElem?_grant, hl]
    · exact Finset.mem_insert_self _ _
  · exact .inl ⟨b, hb, hreturned⟩

theorem answers_insertFresh (s : State κ) (cap n : ℕ) (a : Acquire κ) :
    s.Answers (s.insertFresh cap n a) := by
  intro i b m' hb hreturned
  obtain ⟨rfl, rfl⟩ | ⟨-, hb⟩ := List.getElem?_set_some hb
  · obtain ⟨rfl⟩ := hreturned
    refine .inr ⟨fun mgr' hmgr' ↦ ?_, .fresh a.key a.token a.legacy, ?_, rfl, ?_, rfl⟩
    · exact absurd (List.getElem?_eq_some_iff.1 hmgr').1 (lt_irrefl _)
    · exact List.getElem?_concat_length
    · exact Finset.mem_insert_self _ _
  · exact .inl ⟨b, hb, hreturned⟩

theorem answers_elect (s : State κ) (n : ℕ) (a : Acquire κ) : s.Answers (s.elect n a) := by
  unfold State.elect
  split
  · exact .goto rfl (by rintro _ ⟨⟩)
  · exact .goto rfl (by rintro _ ⟨⟩)

theorem Inv.answers_look (h : s.Inv) (n : ℕ) (a : Acquire κ) : s.Answers (s.look n a) := by
  unfold State.look
  split
  · exact .goto rfl nofun
  · split
    · rename_i m mgr hl
      obtain ⟨hmem, hmgr, hretired⟩ := h.lookup hl
      rw [if_neg (by simp [hretired])]
      obtain ⟨mgr', hmgr', hk, -⟩ := h.registered _ _ hmem
      obtain rfl : mgr' = mgr := by simpa [hmgr'] using hmgr
      exact answers_grant hmgr hk hretired
    · exact s.answers_elect n a

theorem Inv.answers_publish (h : s.Inv) (cap n : ℕ) (a : Acquire κ) (attempt : ℕ) :
    s.Answers (s.publish cap n a attempt) := by
  have hgate := h.leaveGate a attempt
  unfold State.publish
  dsimp only
  split
  · rename_i m mgr hl
    obtain ⟨hmem, hmgr, hretired⟩ := hgate.lookup hl
    rw [if_neg (by simp [hretired])]
    obtain ⟨mgr', hmgr', hk, -⟩ := hgate.registered _ _ hmem
    obtain rfl : mgr' = mgr := by simpa [hmgr'] using hmgr
    exact answers_grant (s := s.leaveGate a attempt) hmgr hk hretired
  · unfold State.select
    dsimp only
    split
    · exact answers_insertFresh (s.leaveGate a attempt) cap n a
    · exact .goto rfl nofun

theorem Inv.answers (h : s.Inv) {cap : ℕ} {label : Label κ} (ht : s.step cap label = some t) :
    s.Answers t := by
  cases label with
  | acquire thread key legacy =>
    obtain ⟨⟩ := ht
    intro i b m hb hreturned
    obtain ⟨rfl, rfl⟩ | hb := List.getElem?_concat_some hb
    · simp at hreturned
    · exact .inl ⟨b, hb, hreturned⟩
  | look n =>
    obtain ⟨a, hn, ht⟩ := Option.bind_eq_some_iff.1 ht
    obtain ⟨-, ⟨⟩⟩ := Option.ite_none_right_eq_some.1 ht
    exact h.answers_look n a
  | wake n =>
    obtain ⟨a, hn, ht⟩ := Option.bind_eq_some_iff.1 ht
    split at ht
    · obtain ⟨-, ⟨⟩⟩ := Option.ite_none_right_eq_some.1 ht
      exact .goto rfl nofun
    · simp at ht
  | fail n =>
    obtain ⟨a, hn, ht⟩ := Option.bind_eq_some_iff.1 ht
    split at ht
    · obtain ⟨⟩ := ht
      exact .goto rfl nofun
    · simp at ht
  | publish n =>
    obtain ⟨a, hn, ht⟩ := Option.bind_eq_some_iff.1 ht
    split at ht
    · obtain ⟨⟩ := ht
      exact h.answers_publish cap n a _
    · simp at ht
  | release m token =>
    obtain ⟨⟩ := ht
    exact .of_eq (releaseAcquire_acquires s m token)
  | close m =>
    obtain ⟨⟩ := ht
    refine .of_eq ?_
    unfold State.close
    split
    · exact releaseAcquire_acquires s m _
    · rfl
  | adopt m token =>
    obtain ⟨⟩ := ht
    exact .of_eq rfl
  | dispose m =>
    obtain ⟨-, ⟨⟩⟩ := Option.ite_none_right_eq_some.1 ht
    exact .of_eq rfl
  | clear =>
    obtain ⟨⟩ := ht
    exact .of_eq rfl

theorem Inv.owned (h : s.Inv) (cap : ℕ) : s.Owned cap where
  registered := h.registered
  users mgr hmgr := (h.counted mgr hmgr).users
  legacy mgr hmgr := (h.counted mgr hmgr).legacy
  holder label t ht hclear m mgr hm x hx hkeep := by
    obtain ⟨mgr', hm', hx'⟩ := h.mem_active_of_step ht hclear hm hx hkeep
    exact ⟨mgr', hm', hx', (h.step ht).not_retired hm' ⟨x, hx'⟩⟩
  shared m m' mgr mgr' hm hm' hne hne' hk := by
    have hreg := h.held m mgr hm hne
    rw [hk] at hreg
    exact h.eq_of_mem hreg (h.held m' mgr' hm' hne')
  answers _ _ ht := h.answers ht

end State

/-- Every manager of the registry has a holder and is not retired; a holder keeps its manager until
its own release or a clear; holders of a key share their manager; and no acquire is handed a retired
manager. -/
theorem owned_of_reachable [DecidableEq κ] {cap : ℕ} (h : (machine cap).Reachable s) :
    s.Owned cap :=
  (inv_of_reachable h).owned cap

/-- Two leases of a key, a release made twice, and one lease left. -/
theorem owned_of_reachable_released :
    ∃ s : State Unit, (machine 4).run (machine 4).init
      [.acquire 0 () false, .acquire 1 () true, .look 0, .look 1, .publish 0, .wake 1, .look 1,
        .release 0 0, .release 0 0] = some s ∧
      s.acquires.map (·.stage) = [.returned 0, .returned 0] ∧
      s.managers.map (·.active) = [{1}] ∧ s.Owned 4 := by
  refine ⟨_, rfl, by decide, by decide, ?_⟩
  exact owned_of_reachable ⟨[.acquire 0 () false, .acquire 1 () true, .look 0, .look 1, .publish 0,
    .wake 1, .look 1, .release 0 0, .release 0 0], rfl⟩

/-- Without a clear, two acquires of a key can still get two managers: the final release of the first
retires its manager. -/
theorem acquires_not_always_shared :
    ¬ ∀ (cap : ℕ) (labels : List (Label Unit)) (s : State Unit), .clear ∉ labels →
      (machine cap).run (machine cap).init labels = some s →
      ∀ (n n' : ℕ) (a a' : Acquire Unit) (m m' : ℕ), s.acquires[n]? = some a →
        s.acquires[n']? = some a' → a.key = a'.key → a.stage = .returned m →
        a'.stage = .returned m' → m = m' := by
  intro h
  have := h 4 [.acquire 0 () false, .look 0, .publish 0, .release 0 0, .acquire 1 () false, .look 1,
    .publish 1] _ (by decide) rfl 0 1 _ _ 0 1 rfl rfl rfl rfl rfl
  exact absurd this (by decide)

end ManagerRegistry

end ScrapyExtension
