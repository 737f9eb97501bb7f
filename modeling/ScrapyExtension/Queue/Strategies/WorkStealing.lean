import Mathlib.Tactic
import ScrapyExtension.Machine.Basic
import ScrapyExtension.Py.Methods
import ScrapyExtension.Queue.SnapshotFormat
import ScrapyExtension.Queue.Strategies.Names

/-!
# Work stealing

`WorkStealingQueueStrategy` gives each worker a physical queue of its own. A pop looks into that queue
first, then round robin into those of the worker's peers, then waits on its own queue for what is left
of the timeout, and after a wait looks into all of them once more.

A system is any number of workers over one backend whose queues are first in, first out, and whose pops
are atomic. A worker has one call under way at most; the backend's answer to the probe that is pending
is a step, and so are pushes, failures and the passing of time. A probe of an empty queue may be
answered at any time, so that what holds here does not depend on how long a backend waits.

## Fairness

Only the round robin moves the cursor, to the place behind the peer that was stolen from. While the
queue of a peer is not empty, no round robin passes it; so each steal from another peer brings the
cursor nearer to it. The last look at the peers, which ignores the cursor, comes after a round robin
that has passed the peer, hence at most once: in a call that was under way already.
-/

namespace ScrapyExtension

open Py

namespace WorkStealing

/-! ## Workers -/

/-- `MAX_STEAL_PEERS` -/
def maxStealPeers : ℕ := 256

/-- The loop over `peer_ids`; `none` when it raises. A peer that is no string is `none`. -/
def normalizePeers (seen kept : List Str) : List (Option Str) → Option (List Str)
  | [] => some kept
  | none :: _ => none
  | some peer :: peers =>
    if ¬ Snapshot.validKeyName peer then none
    else if peer ∈ seen then normalizePeers seen kept peers
    else if maxStealPeers < kept.length + 1 then none
    else normalizePeers (peer :: seen) (kept ++ [peer]) peers

/-- What `__init__` leaves behind. -/
structure Config where
  /-- `_worker_id` -/
  workerId : Str
  /-- The argument `peer_ids`. -/
  given : List (Option Str)
  /-- `_peer_ids` -/
  peerIds : List Str
  /-- `_steal_timeout` -/
  stealTimeout : ℚ
  naming : Names.Naming
  valid : Snapshot.validKeyName workerId = true
  normalized : normalizePeers [workerId] [] given = some peerIds
  timeout_nonneg : 0 ≤ stealTimeout

/-- `_worker_queue`; `none` when it raises. -/
def Config.workerQueue (c : Config) (queue worker : Str) : Option Str :=
  Names.physicalStrategyQueueName c.naming queue (str "worker") worker (queue ++ str ":" ++ worker)

/-- `_own_queue` -/
def Config.ownQueue (c : Config) (queue : Str) : Option Str := c.workerQueue queue c.workerId

/-- Workers that share a backend, each with the logical queue that its strategy serves. -/
structure System (ω : Type*) where
  config : ω → Config
  queue : ω → Str
  hash : Names.Blake2s
  hash_eq : ∀ w, (config w).naming.hash = hash
  /-- The backend issues acknowledgement tokens. -/
  acks : Bool

/-! ## Peers -/

theorem normalizePeers_spec {seen kept peers : List Str} {given : List (Option Str)}
    (h : normalizePeers seen kept given = some peers) :
    kept ⊆ peers ∧ (∀ x ∈ peers, x ∈ kept ∨ some x ∈ given) ∧
      ∀ x, some x ∈ given → x ∈ seen ∨ x ∈ peers := by
  induction given generalizing seen kept with
  | nil =>
    obtain rfl := Option.some.inj h
    exact ⟨List.Subset.refl _, fun x hx ↦ .inl hx, fun x hx ↦ absurd hx List.not_mem_nil⟩
  | cons peer given ih =>
    rcases peer with _ | peer
    · exact nomatch h
    rw [normalizePeers] at h
    split_ifs at h with hvalid hseen hmany
    · obtain ⟨hkept, hpeers, hgiven⟩ := ih h
      refine ⟨hkept, fun x hx ↦ (hpeers x hx).imp_right (List.mem_cons_of_mem _), fun x hx ↦ ?_⟩
      rcases List.mem_cons.1 hx with heq | hx
      · exact .inl (Option.some.inj heq ▸ hseen)
      · exact hgiven x hx
    · obtain ⟨hkept, hpeers, hgiven⟩ := ih h
      rw [List.append_subset] at hkept
      refine ⟨hkept.1, fun x hx ↦ ?_, fun x hx ↦ ?_⟩
      · rcases hpeers x hx with hx | hx
        · rcases List.mem_append.1 hx with hx | hx
          · exact .inl hx
          · exact .inr (List.mem_singleton.1 hx ▸ List.mem_cons_self)
        · exact .inr (List.mem_cons_of_mem _ hx)
      · rcases List.mem_cons.1 hx with heq | hx
        · exact .inr (Option.some.inj heq ▸ hkept.2 List.mem_cons_self)
        · rcases hgiven x hx with hx | hx
          · rcases List.mem_cons.1 hx with rfl | hx
            · exact .inr (hkept.2 List.mem_cons_self)
            · exact .inl hx
          · exact .inr hx

/-- The peers of a worker are among those it was given. -/
theorem Config.given_of_mem {c : Config} {x : Str} (hx : x ∈ c.peerIds) : some x ∈ c.given :=
  ((normalizePeers_spec c.normalized).2.1 x hx).resolve_left List.not_mem_nil

/-- Whoever was given is a peer, the worker itself apart. -/
theorem Config.mem_of_given {c : Config} {x : Str} (hx : some x ∈ c.given) :
    x = c.workerId ∨ x ∈ c.peerIds :=
  ((normalizePeers_spec c.normalized).2.2 x hx).imp_left List.mem_singleton.1

/-- The worker itself, or one of its peers. -/
def Config.Served (c : Config) (x : Str) : Prop := x = c.workerId ∨ x ∈ c.peerIds

/-! ## Names -/

/-- Among the queues of the workers and of their peers, the digest has no collision. -/
def System.NoCollision {ω : Type*} (sys : System ω) : Prop :=
  ∀ w x, (sys.config w).Served x → ∀ v y, (sys.config v).Served y → ∀ t t',
    Names.hashed (sys.queue w) (str "worker") x = some t →
      Names.hashed (sys.queue v) (str "worker") y = some t' →
        sys.hash.hexdigest t = sys.hash.hexdigest t' → t = t'

/-- The text of an old name determines its parts, when the last has no colon. -/
theorem legacyName_inj {q q' x x' : Str} (hx : chr ':' ∉ x) (hx' : chr ':' ∉ x')
    (h : q ++ str ":" ++ x = q' ++ str ":" ++ x') : q = q' ∧ x = x' := by
  have hcolon : str ":" = [chr ':'] := rfl
  have hrev : x.reverse ++ chr ':' :: q.reverse = x'.reverse ++ chr ':' :: q'.reverse := by
    simpa [hcolon] using congrArg List.reverse h
  obtain ⟨hback, hfront⟩ := append_cons_inj (by simpa using hx) (by simpa using hx') hrev
  exact ⟨List.reverse_inj.1 hfront, List.reverse_inj.1 hback⟩

/-- Without collisions, a physical queue belongs to one worker of one logical queue. -/
theorem System.workerQueue_inj {ω : Type*} {sys : System ω} (hno : sys.NoCollision) {w v : ω}
    {x y name : Str} (hx : (sys.config w).Served x) (hy : (sys.config v).Served y)
    (h : (sys.config w).workerQueue (sys.queue w) x = some name)
    (h' : (sys.config v).workerQueue (sys.queue v) y = some name) :
    sys.queue w = sys.queue v ∧ x = y := by
  have hspace : chr ':' ∉ str "worker" := by decide
  have hcolon : ∀ q x : Str, chr ':' ∈ q ++ str ":" ++ x := fun q x ↦
    List.mem_append_left _ (List.mem_append_right _ (by decide))
  by_cases hd : Names.strategyQueueName (sys.config w).naming.hash (sys.queue w) (str "worker") x =
      some name <;>
    by_cases hd' : Names.strategyQueueName (sys.config v).naming.hash (sys.queue v) (str "worker") y =
      some name
  · rw [sys.hash_eq] at hd hd'
    obtain ⟨t, ht, hname⟩ := Option.map_eq_some_iff.mp hd
    obtain ⟨t', ht', hname'⟩ := Option.map_eq_some_iff.mp hd'
    obtain rfl := hno w x hx v y hy t t' ht ht' (List.append_cancel_left (hname.trans hname'.symm))
    obtain ⟨hqueue, -, hworker⟩ := Names.hashed_inj ht ht'
    exact ⟨hqueue, hworker⟩
  · have hlegacy := (Names.physicalStrategyQueueName_cases h').resolve_right hd'
    exact absurd (hlegacy ▸ hcolon _ _) (Names.colon_not_mem_strategyQueueName hspace hd)
  · have hlegacy := (Names.physicalStrategyQueueName_cases h).resolve_right hd
    exact absurd (hlegacy ▸ hcolon _ _) (Names.colon_not_mem_strategyQueueName hspace hd')
  · have hlegacy := (Names.physicalStrategyQueueName_cases h).resolve_right hd
    have hlegacy' := (Names.physicalStrategyQueueName_cases h').resolve_right hd'
    exact legacyName_inj (Names.colon_not_mem_discriminator h hd)
      (Names.colon_not_mem_discriminator h' hd') (hlegacy.symm.trans hlegacy')

/-! ## A call -/

/-- Where a call is. -/
inductive Place
  /-- The first look into the worker's own queue. -/
  | own
  /-- The round robin, so many places behind the cursor. -/
  | steal (i : ℕ)
  /-- The wait on the worker's own queue. -/
  | wait
  /-- The look into the own queue after the wait. -/
  | again
  /-- The look into the queues of the peers after the wait, in their order. -/
  | rescan (i : ℕ)
deriving DecidableEq, Repr

/-- A probe that is about to be answered. -/
structure Pending where
  place : Place
  queue : Str
  timeout : ℚ
deriving DecidableEq

/-- `_remaining_timeout` -/
def remainingTimeout (deadline : Option ℚ) (now : ℚ) : ℚ :=
  match deadline with
  | none => 0
  | some deadline => max 0 (deadline - now)

/-- The worker whose queue is probed at a place. -/
def Config.target (c : Config) (cursor : ℕ) : Place → Option Str
  | .own | .wait | .again => some c.workerId
  | .steal i => c.peerIds[(cursor + i) % c.peerIds.length]?
  | .rescan i => c.peerIds[i]?

/-- The timeout of the probe at a place. -/
def Config.timeout (c : Config) (remaining : ℚ) : Place → ℚ
  | .steal _ => min c.stealTimeout remaining
  | .wait => remaining
  | .own | .again | .rescan _ => 0

/-- Behind the round robin. -/
def fallback (remaining : ℚ) : Option Place := if 0 < remaining then some .wait else none

/-- The place after one at which nothing was found; `none` where nothing is left to try. -/
def Config.following (c : Config) (remaining : ℚ) : Place → Option Place
  | .own => if c.peerIds = [] then fallback remaining else some (.steal 0)
  | .steal i => if i + 1 < c.peerIds.length then some (.steal (i + 1)) else fallback remaining
  | .wait => some .again
  | .again => if c.peerIds = [] then none else some (.rescan 0)
  | .rescan i => if i + 1 < c.peerIds.length then some (.rescan (i + 1)) else none

/-- `_steal_idx` after something was found at a place. -/
def Config.advance (c : Config) (cursor : ℕ) : Place → ℕ
  | .steal i => ((cursor + i) % c.peerIds.length + 1) % c.peerIds.length
  | _ => cursor

/-- How a call goes on. -/
inductive Next
  | probe (p : Pending)
  | nothing
  | raise
deriving DecidableEq

/-- The probe at a place, whose queue needs a name. -/
def Config.probeAt (c : Config) (queue : Str) (cursor : ℕ) (remaining : ℚ) (place : Place) : Next :=
  match (c.target cursor place).bind (c.workerQueue queue) with
  | none => .raise
  | some name => .probe ⟨place, name, c.timeout remaining place⟩

/-- After nothing was found at a place. -/
def Config.proceed (c : Config) (queue : Str) (cursor : ℕ) (remaining : ℚ) (place : Place) : Next :=
  match c.following remaining place with
  | none => .nothing
  | some place => c.probeAt queue cursor remaining place

/-! ## The order of the places -/

/-- The workers whose queues a call has looked into before it came to a place. -/
def Config.Passed (c : Config) (cursor : ℕ) (x : Str) : Place → Prop
  | .own => False
  | .steal i => x = c.workerId ∨ ∃ j < i, c.target cursor (.steal j) = some x
  | .wait | .again | .rescan _ => c.Served x

/-- The places that exist. -/
def Config.Valid (c : Config) : Place → Prop
  | .steal i | .rescan i => i < c.peerIds.length
  | .own | .wait | .again => True

section Places

variable {c : Config} {cursor : ℕ} {remaining : ℚ} {place place' : Place} {x : Str}

/-- How far the cursor is from a peer, in the order of the round robin. -/
def Config.distance (c : Config) (cursor : ℕ) (x : Str) : ℕ :=
  (c.peerIds.idxOf x + (c.peerIds.length - cursor % c.peerIds.length)) % c.peerIds.length

theorem distance_lt (cursor : ℕ) (hx : x ∈ c.peerIds) :
    c.distance cursor x < c.peerIds.length :=
  Nat.mod_lt _ (List.length_pos_of_mem hx)

theorem add_distance_mod (hx : x ∈ c.peerIds) :
    (cursor + c.distance cursor x) % c.peerIds.length = c.peerIds.idxOf x := by
  have hpos := List.length_pos_of_mem hx
  have hindex := List.idxOf_lt_length_of_mem hx
  have hcursor := Nat.mod_lt cursor hpos
  have hsum : cursor % c.peerIds.length + (c.peerIds.idxOf x +
      (c.peerIds.length - cursor % c.peerIds.length)) = c.peerIds.idxOf x + c.peerIds.length := by
    omega
  rw [Config.distance, Nat.add_mod_mod, ← Nat.mod_add_mod, hsum, Nat.add_mod_right,
    Nat.mod_eq_of_lt hindex]

/-- The round robin comes to a peer when it has gone the distance. -/
theorem target_distance (hx : x ∈ c.peerIds) :
    c.target cursor (.steal (c.distance cursor x)) = some x := by
  rw [Config.target, add_distance_mod hx, List.getElem?_eq_getElem (List.idxOf_lt_length_of_mem hx),
    List.getElem_idxOf]

theorem served_of_target (h : c.target cursor place = some x) : c.Served x := by
  rcases place with _ | i | _ | _ | i
  · exact .inl (Option.some.inj h).symm
  · exact .inr (List.mem_of_getElem? h)
  · exact .inl (Option.some.inj h).symm
  · exact .inl (Option.some.inj h).symm
  · exact .inr (List.mem_of_getElem? h)

/-- After the last place of the round robin every queue has been looked into. -/
theorem passed_or_target_of_last {i : ℕ} (hi : ¬ i + 1 < c.peerIds.length)
    (hx : c.Served x) : c.Passed cursor x (.steal i) ∨ c.target cursor (.steal i) = some x := by
  rcases hx with rfl | hx
  · exact .inl (.inl rfl)
  · have hlt := distance_lt cursor hx
    rcases Nat.lt_or_ge (c.distance cursor x) i with hd | hd
    · exact .inl (.inr ⟨_, hd, target_distance hx⟩)
    · obtain rfl : i = c.distance cursor x := by omega
      exact .inr (target_distance hx)

theorem fallback_eq_some (h : fallback remaining = some place) : place = .wait := by
  rw [fallback] at h
  split_ifs at h
  exact (Option.some.inj h).symm

theorem valid_following (h : c.following remaining place = some place') : c.Valid place' := by
  have hwait : fallback remaining = some place' → c.Valid place' := by
    intro h
    rw [fallback_eq_some h]
    trivial
  rcases place with _ | i | _ | _ | i <;> rw [Config.following] at h
  · split_ifs at h with hnil
    · exact hwait h
    · obtain rfl := Option.some.inj h
      exact List.length_pos_iff.2 hnil
  · split_ifs at h with hi
    · obtain rfl := Option.some.inj h
      exact hi
    · exact hwait h
  · obtain rfl := Option.some.inj h
    trivial
  · split_ifs at h with hnil
    obtain rfl := Option.some.inj h
    exact List.length_pos_iff.2 hnil
  · split_ifs at h with hi
    obtain rfl := Option.some.inj h
    exact hi

/-- From one place to the next, the queue of that place has been looked into. -/
theorem passed_following (h : c.following remaining place = some place')
    (hx : c.Passed cursor x place') : c.Passed cursor x place ∨ c.target cursor place = some x := by
  rcases place with _ | i | _ | _ | i <;> rw [Config.following] at h
  · split_ifs at h with hnil
    · rw [fallback_eq_some h] at hx
      rcases hx with rfl | hx
      · exact .inr rfl
      · exact absurd hx (hnil ▸ List.not_mem_nil)
    · obtain rfl := Option.some.inj h
      rcases hx with rfl | ⟨j, hj, -⟩
      · exact .inr rfl
      · exact absurd hj (Nat.not_lt_zero j)
  · split_ifs at h with hi
    · obtain rfl := Option.some.inj h
      rcases hx with rfl | ⟨j, hj, hjx⟩
      · exact .inl (.inl rfl)
      · rcases Nat.lt_succ_iff_lt_or_eq.1 hj with hj | rfl
        · exact .inl (.inr ⟨j, hj, hjx⟩)
        · exact .inr hjx
    · rw [fallback_eq_some h] at hx
      exact passed_or_target_of_last hi hx
  · obtain rfl := Option.some.inj h
    exact .inl hx
  · split_ifs at h
    obtain rfl := Option.some.inj h
    exact .inl hx
  · split_ifs at h
    obtain rfl := Option.some.inj h
    exact .inl hx

/-- Where nothing is left to try, every queue has been looked into. -/
theorem passed_of_following_none (h : c.following remaining place = none) (hx : c.Served x) :
    c.Passed cursor x place ∨ c.target cursor place = some x := by
  rcases place with _ | i | _ | _ | i <;> rw [Config.following] at h
  · split_ifs at h with hnil
    rcases hx with rfl | hx
    · exact .inr rfl
    · exact absurd hx (hnil ▸ List.not_mem_nil)
  · split_ifs at h with hi
    exact passed_or_target_of_last hi hx
  · exact nomatch h
  · exact .inl hx
  · exact .inl hx

end Places

/-! ## Fairness -/

/-- How many steals from other peers may still come before one from `x`, when a call is at a place or
the worker is idle. -/
def Config.patience (c : Config) (cursor : ℕ) (x : Str) : Option Place → ℕ
  | none | some .own => c.distance cursor x
  | some (.steal i) => if i ≤ c.distance cursor x then c.distance cursor x else c.peerIds.length
  | some .wait | some .again | some (.rescan _) => c.peerIds.length

section Patience

variable {c : Config} {cursor : ℕ} {remaining : ℚ} {place place' : Place} {x : Str}

theorem distance_eq {d : ℕ} (hx : x ∈ c.peerIds) (hd : d < c.peerIds.length)
    (h : (cursor + d) % c.peerIds.length = c.peerIds.idxOf x) : c.distance cursor x = d := by
  have hmod : cursor + c.distance cursor x ≡ cursor + d [MOD c.peerIds.length] :=
    (add_distance_mod hx).trans h.symm
  exact (Nat.ModEq.add_left_cancel' cursor hmod).eq_of_lt_of_lt (distance_lt cursor hx) hd

/-- A steal in front of a peer brings the cursor nearer to it. -/
theorem distance_advance {i : ℕ} (hx : x ∈ c.peerIds) (hi : i < c.distance cursor x) :
    c.distance (c.advance cursor (.steal i)) x = c.distance cursor x - i - 1 := by
  have hlt := distance_lt cursor hx
  refine distance_eq hx (by omega) ?_
  have hsum : cursor + i + 1 + (c.distance cursor x - i - 1) = cursor + c.distance cursor x := by omega
  rw [Config.advance, Nat.mod_add_mod, Nat.add_assoc, Nat.mod_add_mod, ← Nat.add_assoc, hsum,
    add_distance_mod hx]

theorem patience_le (hx : x ∈ c.peerIds) (place : Option Place) :
    c.patience cursor x place ≤ c.peerIds.length := by
  have hlt := (distance_lt cursor hx).le
  rcases place with _ | _ | i | _ | _ | i
  · exact hlt
  · exact hlt
  · rw [Config.patience]
    split_ifs
    · exact hlt
    · exact le_rfl
  · exact le_rfl
  · exact le_rfl
  · exact le_rfl

theorem distance_le_patience (cursor : ℕ) (hx : x ∈ c.peerIds) (place : Option Place) :
    c.distance cursor x ≤ c.patience cursor x place := by
  have hlt := (distance_lt cursor hx).le
  rcases place with _ | _ | i | _ | _ | i
  · exact le_rfl
  · exact le_rfl
  · rw [Config.patience]
    split_ifs
    · exact le_rfl
    · exact hlt
  · exact hlt
  · exact hlt
  · exact hlt

/-- The round robin goes up to the peer, unless it has passed it. -/
theorem steal_ne_distance {i : ℕ} (hx : x ∈ c.peerIds) (h : c.target cursor (.steal i) ≠ some x) :
    i ≠ c.distance cursor x := by
  rintro rfl
  exact h (target_distance hx)

/-- To go on does not need more patience, as long as the peer is not the one that was looked at. -/
theorem patience_following (hx : x ∈ c.peerIds) (htarget : c.target cursor place ≠ some x)
    (h : c.following remaining place = some place') :
    c.patience cursor x (some place') ≤ c.patience cursor x (some place) := by
  have hlt := distance_lt cursor hx
  rcases place with _ | i | _ | _ | i <;> rw [Config.following] at h
  · rw [if_neg (List.ne_nil_of_mem hx)] at h
    obtain rfl := Option.some.inj h
    simp only [Config.patience, Nat.zero_le, if_true, le_refl]
  · have hne := steal_ne_distance hx htarget
    by_cases hi : i + 1 < c.peerIds.length
    · rw [if_pos hi] at h
      obtain rfl := Option.some.inj h
      simp only [Config.patience]
      split_ifs <;> omega
    · rw [if_neg hi] at h
      rw [fallback_eq_some h]
      simp only [Config.patience]
      rw [if_neg (by omega)]
  · exact patience_le hx _
  · exact patience_le hx _
  · exact patience_le hx _

/-- Something found in another queue costs patience, unless it was the worker's own. -/
theorem patience_advance (hx : x ∈ c.peerIds) (htarget : c.target cursor place ≠ some x)
    {name : Str → Option Str} {q : Str} (hq : (c.target cursor place).bind name = some q) :
    c.distance (c.advance cursor place) x + (if name c.workerId = some q then 0 else 1) ≤
      c.patience cursor x (some place) := by
  have hlt := fun cursor ↦ distance_lt cursor hx
  have hown : c.target cursor place = some c.workerId → c.advance cursor place = cursor →
      c.distance (c.advance cursor place) x + (if name c.workerId = some q then 0 else 1) ≤
        c.patience cursor x (some place) := by
    intro ht hc
    rw [ht, Option.bind_some] at hq
    rw [if_pos hq, hc]
    exact distance_le_patience cursor hx _
  rcases place with _ | i | _ | _ | i
  · exact hown rfl rfl
  · have hne := steal_ne_distance hx htarget
    refine (Nat.add_le_add_left (by split_ifs <;> omega : _ ≤ 1) _).trans ?_
    rw [Config.patience]
    split_ifs with hi
    · rw [distance_advance hx (lt_of_le_of_ne hi hne)]
      omega
    · exact hlt _
  · exact hown rfl rfl
  · exact hown rfl rfl
  · exact (Nat.add_le_add_left (by split_ifs <;> omega : _ ≤ 1) _).trans (hlt _)

end Patience

/-! ## The system -/

variable {ω α : Type*}

/-- What is in a queue: who pushed it, as the how-manieth push, and its data. A token-only tombstone has
no data. -/
structure Item (ω α : Type*) where
  owner : ω
  serial : ℕ
  data : Option α

/-- The two copies of the scan. -/
inductive Copy
  | pop
  | popWithAck
deriving DecidableEq, Repr

/-- The token that a backend issues with an item, for the copy that asks for one. -/
def Copy.token (acks : Bool) (item : Item ω α) : Copy → Option ℕ
  | .pop => none
  | .popWithAck => if acks then some item.serial else none

/-- Whether the scan stops at what a probe has brought: `item is not None`, or
`data is not None or token is not None`. -/
def Copy.found (acks : Bool) (item : Item ω α) : Copy → Bool
  | .pop => item.data.isSome
  | .popWithAck => item.data.isSome || (Copy.popWithAck.token acks item).isSome

/-- A probe that was answered, with what was in the queue. -/
structure Probe (ω α : Type*) where
  queue : Str
  timeout : ℚ
  contents : List (Item ω α)

/-- A call under way. -/
structure Call (ω α : Type*) where
  copy : Copy
  deadline : Option ℚ
  pending : Pending
  /-- Its probes so far. -/
  probes : List (Probe ω α)

/-- The probes of a call when the pending one has been answered. -/
def Call.answered (call : Call ω α) (contents : List (Item ω α)) : List (Probe ω α) :=
  call.probes ++ [⟨call.pending.queue, call.pending.timeout, contents⟩]

/-- What a call ends with. -/
inductive Returned (ω α : Type*)
  | nothing
  | item (queue : Str) (item : Item ω α) (token : Option ℕ)
  | raised

/-- A call that has ended. -/
structure Outcome (ω α : Type*) where
  worker : ω
  copy : Copy
  probes : List (Probe ω α)
  returned : Returned ω α

/-- The state of a system. -/
structure State (ω α : Type*) where
  queues : Str → List (Item ω α)
  /-- What was pushed, and by whom. -/
  pushes : List (ω × α)
  clock : ℚ
  /-- `_steal_idx` -/
  cursor : ω → ℕ
  calls : ω → Option (Call ω α)
  outcomes : List (Outcome ω α)

/-- What can happen. -/
inductive Label (ω α : Type*)
  | push (w : ω) (data : α)
  | tick (d : ℚ)
  /-- A worker calls `pop` or `pop_with_ack`. -/
  | start (w : ω) (copy : Copy) (timeout : ℚ)
  /-- The backend answers the pending probe of a worker. -/
  | probe (w : ω)
  /-- The pending probe of a worker raises. -/
  | fail (w : ω)

variable [DecidableEq ω]

/-- A call ends. -/
def State.finish (s : State ω α) (w : ω) (copy : Copy) (probes : List (Probe ω α))
    (returned : Returned ω α) : State ω α :=
  { s with
    calls := Function.update s.calls w none
    outcomes := s.outcomes ++ [⟨w, copy, probes, returned⟩] }

/-- A call goes on. -/
def State.goOn (s : State ω α) (w : ω) (copy : Copy) (deadline : Option ℚ)
    (probes : List (Probe ω α)) : Next → State ω α
  | .probe p => { s with calls := Function.update s.calls w (some ⟨copy, deadline, p, probes⟩) }
  | .nothing => s.finish w copy probes .nothing
  | .raise => s.finish w copy probes .raised

/-- The backend takes the first item of a queue. -/
def State.take (s : State ω α) (queue : Str) : State ω α :=
  { s with queues := Function.update s.queues queue (s.queues queue).tail }

namespace System

variable (sys : System ω)

/-- `push` -/
def push (s : State ω α) (w : ω) (data : α) : Option (State ω α) :=
  ((sys.config w).ownQueue (sys.queue w)).map fun name ↦
    { s with
      queues := Function.update s.queues name (s.queues name ++ [⟨w, s.pushes.length, some data⟩])
      pushes := s.pushes ++ [(w, data)] }

/-- The first lines of a pop. -/
def start (s : State ω α) (w : ω) (copy : Copy) (timeout : ℚ) : State ω α :=
  if timeout < 0 then s.finish w copy [] .raised
  else
    s.goOn w copy (if 0 < timeout then some (s.clock + timeout) else none) []
      ((sys.config w).probeAt (sys.queue w) (s.cursor w) 0 .own)

/-- The pending probe of a call is answered. -/
def answer (s : State ω α) (w : ω) (call : Call ω α) : State ω α :=
  let contents := s.queues call.pending.queue
  let proceed (s : State ω α) := s.goOn w call.copy call.deadline (call.answered contents) <|
    (sys.config w).proceed (sys.queue w) (s.cursor w) (remainingTimeout call.deadline s.clock)
      call.pending.place
  match contents with
  | [] => proceed s
  | item :: _ =>
    if call.copy.found sys.acks item then
      { (s.take call.pending.queue).finish w call.copy (call.answered contents)
          (.item call.pending.queue item (call.copy.token sys.acks item)) with
        cursor := Function.update s.cursor w ((sys.config w).advance (s.cursor w) call.pending.place) }
    else proceed (s.take call.pending.queue)

/-- One step. -/
def step (s : State ω α) : Label ω α → Option (State ω α)
  | .push w data => sys.push s w data
  | .tick d => if 0 ≤ d then some { s with clock := s.clock + d } else none
  | .start w copy timeout =>
    match s.calls w with
    | none => some (sys.start s w copy timeout)
    | some _ => none
  | .probe w => (s.calls w).map (sys.answer s w)
  | .fail w => (s.calls w).map fun call ↦ s.finish w call.copy call.probes .raised

/-- The system, from empty queues and idle workers. -/
def machine : Machine (State ω α) (Label ω α) where
  init := ⟨fun _ ↦ [], [], 0, fun _ ↦ 0, fun _ ↦ none, []⟩
  step := sys.step

end System

/-! ## What a step does -/

/-- The item of an outcome. -/
def Returned.item? : Returned ω α → Option (Item ω α)
  | .item _ it _ => some it
  | .nothing | .raised => none

/-- What has been popped. -/
def State.popped (s : State ω α) : List (Item ω α) := s.outcomes.filterMap (·.returned.item?)

namespace System

section Steps

variable {sys : System ω} {s t : State ω α} {w : ω} {call : Call ω α}

theorem step_cases {a : Label ω α} (h : sys.step s a = some t) :
    (∃ w data name, a = .push w data ∧ (sys.config w).ownQueue (sys.queue w) = some name ∧
      t = { s with
        queues := Function.update s.queues name (s.queues name ++ [⟨w, s.pushes.length, some data⟩])
        pushes := s.pushes ++ [(w, data)] }) ∨
    (∃ d, a = .tick d ∧ t = { s with clock := s.clock + d }) ∨
    (∃ w copy timeout, a = .start w copy timeout ∧ s.calls w = none ∧
      t = sys.start s w copy timeout) ∨
    (∃ w call, a = .probe w ∧ s.calls w = some call ∧ t = sys.answer s w call) ∨
    (∃ w call, a = .fail w ∧ s.calls w = some call ∧ t = s.finish w call.copy call.probes .raised) := by
  rcases a with ⟨w, data⟩ | d | ⟨w, copy, timeout⟩ | w | w
  · obtain ⟨name, hname, rfl⟩ := Option.map_eq_some_iff.1 h
    exact .inl ⟨w, data, name, rfl, hname, rfl⟩
  · simp only [step] at h
    split_ifs at h
    exact .inr (.inl ⟨d, rfl, (Option.some.inj h).symm⟩)
  · simp only [step] at h
    split at h
    · next hidle => exact .inr (.inr (.inl ⟨w, copy, timeout, rfl, hidle, (Option.some.inj h).symm⟩))
    · exact nomatch h
  · obtain ⟨call, hcall, rfl⟩ := Option.map_eq_some_iff.1 h
    exact .inr (.inr (.inr (.inl ⟨w, call, rfl, hcall, rfl⟩)))
  · obtain ⟨call, hcall, rfl⟩ := Option.map_eq_some_iff.1 h
    exact .inr (.inr (.inr (.inr ⟨w, call, rfl, hcall, rfl⟩)))

omit [DecidableEq ω] in
/-- The scan stops at what has data. -/
theorem found_of_data {copy : Copy} {item : Item ω α} {acks : Bool} (h : item.data.isSome = true) :
    copy.found acks item = true := by
  cases copy
  · exact h
  · rw [Copy.found, h, Bool.true_or]

/-- The answer of an empty queue. -/
theorem answer_nil (h : s.queues call.pending.queue = []) :
    sys.answer s w call =
      s.goOn w call.copy call.deadline (call.answered [])
        ((sys.config w).proceed (sys.queue w) (s.cursor w) (remainingTimeout call.deadline s.clock)
          call.pending.place) := by
  simp only [answer, h]

/-- The answer of a queue whose first item stops the scan. -/
theorem answer_cons {item : Item ω α} {items : List (Item ω α)}
    (h : s.queues call.pending.queue = item :: items)
    (hfound : call.copy.found sys.acks item = true) :
    sys.answer s w call =
      { (s.take call.pending.queue).finish w call.copy (call.answered (item :: items))
          (.item call.pending.queue item (call.copy.token sys.acks item)) with
        cursor := Function.update s.cursor w
          ((sys.config w).advance (s.cursor w) call.pending.place) } := by
  simp only [answer, h, hfound, if_true]

/-- A call that goes on pops nothing. -/
theorem goOn_outcomes {copy : Copy} {deadline : Option ℚ} {probes : List (Probe ω α)} (next : Next) :
    (s.goOn w copy deadline probes next).queues = s.queues ∧
    (s.goOn w copy deadline probes next).pushes = s.pushes ∧
    ∃ os, (s.goOn w copy deadline probes next).outcomes = s.outcomes ++ os ∧
      ∀ o ∈ os, o.returned.item? = none := by
  rcases next with p | _ | _
  · exact ⟨rfl, rfl, [], (List.append_nil _).symm, fun _ h ↦ absurd h List.not_mem_nil⟩
  · exact ⟨rfl, rfl, _, rfl, fun o h ↦ List.mem_singleton.1 h ▸ rfl⟩
  · exact ⟨rfl, rfl, _, rfl, fun o h ↦ List.mem_singleton.1 h ▸ rfl⟩

end Steps

/-! ## Items -/

/-- An item is in the queue of its owner, and it is what its owner pushed. -/
structure ItemOk (sys : System ω) (pushes : List (ω × α)) (queue : Str) (item : Item ω α) : Prop where
  owner : (sys.config item.owner).ownQueue (sys.queue item.owner) = some queue
  pushed : ∃ data, item.data = some data ∧ pushes[item.serial]? = some (item.owner, data)

/-- Every item is in one place, and was popped once at most. -/
structure Items (sys : System ω) (s : State ω α) : Prop where
  stored : ∀ q, ∀ item ∈ s.queues q, ItemOk sys s.pushes q item
  nodup : ∀ q, ((s.queues q).map Item.serial).Nodup
  returned : ∀ o ∈ s.outcomes, ∀ q item token, o.returned = .item q item token →
    ItemOk sys s.pushes q item
  apart : ∀ q, ∀ item ∈ s.queues q, item.serial ∉ s.popped.map Item.serial
  unique : (s.popped.map Item.serial).Nodup

section Items

variable {sys : System ω} {s t : State ω α} {w : ω}

omit [DecidableEq ω]

theorem mem_of_mem_take {q q' : Str} {item : Item ω α} (h : item ∈ (s.take q).queues q') :
    item ∈ s.queues q' := by
  by_cases heq : q' = q
  · subst heq
    simp only [State.take, Function.update_self] at h
    exact List.mem_of_mem_tail h
  · simp only [State.take, Function.update_of_ne heq] at h
    exact h

/-- After a push, an item is an old one or the new one. -/
theorem mem_of_mem_update {queues : Str → List (Item ω α)} {name q : Str} {new item : Item ω α}
    (h : item ∈ Function.update queues name (queues name ++ [new]) q) :
    item ∈ queues q ∨ q = name ∧ item = new := by
  by_cases hq : q = name
  · subst hq
    rw [Function.update_self] at h
    rcases List.mem_append.1 h with h | h
    · exact .inl h
    · exact .inr ⟨rfl, List.mem_singleton.1 h⟩
  · rw [Function.update_of_ne hq] at h
    exact .inl h

theorem ItemOk.serial_lt {pushes : List (ω × α)} {q : Str} {item : Item ω α}
    (h : ItemOk sys pushes q item) : item.serial < pushes.length := by
  obtain ⟨data, -, hpush⟩ := h.pushed
  exact (List.getElem?_eq_some_iff.1 hpush).1

theorem ItemOk.append {pushes : List (ω × α)} {q : Str} {item : Item ω α}
    (h : ItemOk sys pushes q item) (more : List (ω × α)) : ItemOk sys (pushes ++ more) q item := by
  obtain ⟨data, hdata, hpush⟩ := h.pushed
  refine ⟨h.owner, data, hdata, ?_⟩
  rw [List.getElem?_append_left h.serial_lt, hpush]

/-- Two items of one push were pushed to one queue. -/
theorem ItemOk.queue_eq {pushes : List (ω × α)} {q q' : Str} {item item' : Item ω α}
    (h : ItemOk sys pushes q item) (h' : ItemOk sys pushes q' item')
    (hserial : item.serial = item'.serial) : q = q' := by
  obtain ⟨data, -, hpush⟩ := h.pushed
  obtain ⟨data', -, hpush'⟩ := h'.pushed
  rw [hserial, hpush'] at hpush
  have howner : item'.owner = item.owner := (Prod.mk.inj (Option.some.inj hpush)).1
  have hq := h.owner
  rw [← howner, h'.owner] at hq
  exact (Option.some.inj hq).symm

theorem Items.data (h : Items sys s) {q : Str} {item : Item ω α} (hitem : item ∈ s.queues q) :
    item.data.isSome = true := by
  obtain ⟨data, hdata, -⟩ := (h.stored q item hitem).pushed
  rw [hdata]
  rfl

/-- Outcomes without an item change nothing. -/
theorem Items.append (h : Items sys s) (hqueues : t.queues = s.queues) (hpushes : t.pushes = s.pushes)
    {os : List (Outcome ω α)} (houtcomes : t.outcomes = s.outcomes ++ os)
    (hos : ∀ o ∈ os, o.returned.item? = none) : Items sys t := by
  have hpopped : t.popped = s.popped := by
    have hnil : os.filterMap (·.returned.item?) = [] := List.filterMap_eq_nil_iff.2 hos
    rw [State.popped, houtcomes, List.filterMap_append, hnil, List.append_nil, State.popped]
  refine ⟨?_, ?_, ?_, ?_, ?_⟩
  · rw [hqueues, hpushes]
    exact h.stored
  · rw [hqueues]
    exact h.nodup
  · rw [houtcomes, hpushes]
    intro o ho q item token hreturned
    rcases List.mem_append.1 ho with ho | ho
    · exact h.returned o ho q item token hreturned
    · exact nomatch (hreturned ▸ hos o ho : (Returned.item q item token).item? = none)
  · rw [hqueues, hpopped]
    exact h.apart
  · rw [hpopped]
    exact h.unique

theorem Items.push (h : Items sys s) {data : α} {name : Str}
    (hname : (sys.config w).ownQueue (sys.queue w) = some name) :
    Items sys { s with
      queues := Function.update s.queues name (s.queues name ++ [⟨w, s.pushes.length, some data⟩])
      pushes := s.pushes ++ [(w, data)] } := by
  have hnew : ItemOk sys (s.pushes ++ [(w, data)]) name ⟨w, s.pushes.length, some data⟩ :=
    ⟨hname, data, rfl, by simp⟩
  refine ⟨fun q item hitem ↦ ?_, fun q ↦ ?_, fun o ho q item token hreturned ↦ ?_,
    fun q item hitem ↦ ?_, h.unique⟩
  · rcases mem_of_mem_update hitem with hitem | ⟨rfl, rfl⟩
    · exact (h.stored q item hitem).append _
    · exact hnew
  · by_cases hq : q = name
    · subst hq
      simp only [Function.update_self, List.map_append, List.map_cons, List.map_nil]
      refine List.nodup_append.2 ⟨h.nodup q, List.nodup_singleton _, ?_⟩
      rintro n hn m hm rfl
      obtain ⟨item, hitem, rfl⟩ := List.mem_map.1 hn
      exact absurd (List.mem_singleton.1 hm) (h.stored q item hitem).serial_lt.ne
    · simp only [Function.update_of_ne hq]
      exact h.nodup q
  · exact (h.returned o ho q item token hreturned).append _
  · rcases mem_of_mem_update hitem with hitem | ⟨rfl, rfl⟩
    · exact h.apart q item hitem
    · intro hserial
      obtain ⟨old, hold, heq⟩ := List.mem_map.1 hserial
      obtain ⟨o, ho, hreturned⟩ := List.mem_filterMap.1 hold
      rcases hr : o.returned with _ | ⟨q', old', token⟩ | _ <;> rw [hr] at hreturned
      · exact nomatch hreturned
      · obtain rfl := Option.some.inj hreturned
        exact absurd heq (h.returned o ho q' old' token hr).serial_lt.ne
      · exact nomatch hreturned

variable [DecidableEq ω]

theorem Items.goOn (h : Items sys s) {copy : Copy} {deadline : Option ℚ}
    {probes : List (Probe ω α)} (next : Next) : Items sys (s.goOn w copy deadline probes next) := by
  obtain ⟨hqueues, hpushes, os, houtcomes, hos⟩ :
      (s.goOn w copy deadline probes next).queues = s.queues ∧ _ := goOn_outcomes next
  exact h.append hqueues hpushes houtcomes hos

theorem Items.raised (h : Items sys s) {copy : Copy} {probes : List (Probe ω α)} :
    Items sys (s.finish w copy probes .raised) :=
  h.append rfl rfl rfl fun _ ho ↦ List.mem_singleton.1 ho ▸ rfl

/-- The first item of a queue is popped. -/
theorem Items.take (h : Items sys s) {q : Str} {item : Item ω α} {items : List (Item ω α)}
    (hq : s.queues q = item :: items) {copy : Copy} {probes : List (Probe ω α)} {token : Option ℕ}
    {cursor : ω → ℕ} :
    Items sys { (s.take q).finish w copy probes (.item q item token) with cursor := cursor } := by
  have hmem : item ∈ s.queues q := hq ▸ List.mem_cons_self
  have hpopped : State.popped { (s.take q).finish w copy probes (.item q item token) with
      cursor := cursor } = s.popped ++ [item] := by
    simp only [State.popped, State.finish, State.take, List.filterMap_append]
    rfl
  refine ⟨fun q' it hit ↦ h.stored q' it (mem_of_mem_take hit), fun q' ↦ ?_, ?_, ?_, ?_⟩
  · by_cases heq : q' = q
    · subst heq
      simp only [State.finish, State.take, Function.update_self, List.map_tail]
      exact (h.nodup q').sublist (List.tail_sublist _)
    · simp only [State.finish, State.take, Function.update_of_ne heq]
      exact h.nodup q'
  · intro o ho q' it token' hreturned
    rcases List.mem_append.1 ho with ho | ho
    · exact h.returned o ho q' it token' hreturned
    · obtain rfl := List.mem_singleton.1 ho
      obtain ⟨rfl, rfl, -⟩ := Returned.item.inj hreturned
      exact h.stored q item hmem
  · intro q' it hit hserial
    rw [hpopped, List.map_append, List.mem_append] at hserial
    rcases hserial with hserial | hserial
    · exact h.apart q' it (mem_of_mem_take hit) hserial
    · have heq : it.serial = item.serial := List.mem_singleton.1 hserial
      -- the same push, so the same queue, of which the item was the first
      obtain rfl := (h.stored q' it (mem_of_mem_take hit)).queue_eq (h.stored q item hmem) heq
      have hnodup := h.nodup q'
      simp only [State.finish, State.take, Function.update_self, hq, List.tail_cons] at hit
      rw [hq, List.map_cons, List.nodup_cons] at hnodup
      exact hnodup.1 (heq ▸ List.mem_map_of_mem hit)
  · rw [hpopped, List.map_append]
    refine List.nodup_append.2 ⟨h.unique, List.nodup_singleton _, ?_⟩
    rintro n hn m hm rfl
    obtain rfl := List.mem_singleton.1 hm
    exact h.apart q item hmem hn

theorem Items.step (hs : Items sys s) {a : Label ω α} (ht : sys.step s a = some t) :
    Items sys t := by
  rcases step_cases ht with ⟨w, data, name, -, hname, rfl⟩ | ⟨d, -, rfl⟩ |
    ⟨w, copy, timeout, -, -, rfl⟩ | ⟨w, call, -, -, rfl⟩ | ⟨w, call, -, -, rfl⟩
  · exact hs.push hname
  · exact ⟨hs.stored, hs.nodup, hs.returned, hs.apart, hs.unique⟩
  · rw [start]
    by_cases hneg : timeout < 0
    · rw [if_pos hneg]
      exact hs.raised
    · rw [if_neg hneg]
      exact hs.goOn _
  · rcases hq : s.queues call.pending.queue with _ | ⟨item, items⟩
    · rw [answer_nil hq]
      exact hs.goOn _
    · rw [answer_cons hq (found_of_data (hs.data (hq ▸ List.mem_cons_self)))]
      exact hs.take hq
  · exact hs.raised

/-- No item is popped twice, in any run. -/
theorem items_of_reachable (h : (sys.machine (α := α)).Reachable s) : Items sys s :=
  h.invariant ⟨fun _ _ h ↦ absurd h List.not_mem_nil, fun _ ↦ List.nodup_nil,
    fun _ h ↦ absurd h List.not_mem_nil, fun _ _ h ↦ absurd h List.not_mem_nil, List.nodup_nil⟩
    fun _ _ _ hs ht ↦ hs.step ht

end Items

/-! ## Calls -/

/-- Every probe is one of the worker's own queue, or comes after one that found the own queue empty. -/
def OwnFirst (own : Option Str) (probes : List (Probe ω α)) : Prop :=
  ∀ before p after, probes = before ++ p :: after →
    own = some p.queue ∨ ∃ e ∈ before, own = some e.queue ∧ e.contents = []

/-- A call under way has looked into the queues of the places that it has passed, and found them
empty. -/
structure CallOk (sys : System ω) (w : ω) (cursor : ℕ) (call : Call ω α) : Prop where
  pending : ((sys.config w).target cursor call.pending.place).bind
    ((sys.config w).workerQueue (sys.queue w)) = some call.pending.queue
  valid : (sys.config w).Valid call.pending.place
  fresh : call.probes = [] → call.pending.place = .own
  first : ∀ p ∈ call.probes.head?, (sys.config w).ownQueue (sys.queue w) = some p.queue
  missed : ∀ p ∈ call.probes, p.contents = []
  tried : ∀ x, (sys.config w).Passed cursor x call.pending.place →
    ∃ p ∈ call.probes, (sys.config w).workerQueue (sys.queue w) x = some p.queue

/-- What a call has done when it has ended. -/
structure OutcomeOk (sys : System ω) (o : Outcome ω α) : Prop where
  ownFirst : OwnFirst ((sys.config o.worker).ownQueue (sys.queue o.worker)) o.probes
  nothing : o.returned = .nothing → ∀ x, (sys.config o.worker).Served x →
    ∃ p ∈ o.probes, (sys.config o.worker).workerQueue (sys.queue o.worker) x = some p.queue ∧
      p.contents = []
  item : ∀ q item token, o.returned = .item q item token →
    ∃ x, (sys.config o.worker).Served x ∧
      (sys.config o.worker).workerQueue (sys.queue o.worker) x = some q

/-- Every call under way, and every call that has ended. -/
structure Calls (sys : System ω) (s : State ω α) : Prop where
  calls : ∀ w call, s.calls w = some call → CallOk sys w (s.cursor w) call
  outcomes : ∀ o ∈ s.outcomes, OutcomeOk sys o

section Calls

variable {sys : System ω} {s t : State ω α} {w : ω} {call : Call ω α}

omit [DecidableEq ω]

theorem ownFirst_nil (own : Option Str) : OwnFirst own ([] : List (Probe ω α)) :=
  fun _ _ _ h ↦ absurd h.symm (List.append_ne_nil_of_right_ne_nil _ (List.cons_ne_nil _ _))

/-- A first probe of the own queue, and misses up to the last. -/
theorem ownFirst_concat {own : Option Str} {probes : List (Probe ω α)} {last : Probe ω α}
    (hfirst : ∀ p ∈ (probes ++ [last]).head?, own = some p.queue)
    (hmissed : ∀ p ∈ probes, p.contents = []) : OwnFirst own (probes ++ [last]) := by
  intro before p after h
  rcases before with _ | ⟨e, before⟩
  · exact .inl (hfirst p (by rw [h]; rfl))
  · refine .inr ⟨e, List.mem_cons_self, hfirst e (by rw [h]; rfl), hmissed e ?_⟩
    rcases probes with _ | ⟨e', probes⟩
    · have hlen := congrArg List.length h
      simp at hlen
    · obtain rfl := (List.cons.inj h).1
      exact List.mem_cons_self

/-- The probe that is pending comes after the own queue was found empty, or is of the own queue. -/
theorem CallOk.first_concat {cursor : ℕ} (h : CallOk sys w cursor call)
    (contents : List (Item ω α)) :
    ∀ p ∈ (call.answered contents).head?,
      (sys.config w).ownQueue (sys.queue w) = some p.queue := by
  intro p hp
  rw [Call.answered] at hp
  rcases hprobes : call.probes with _ | ⟨e, probes⟩
  · rw [hprobes] at hp
    obtain rfl := Option.some.inj hp
    have hpending := h.pending
    rw [h.fresh hprobes] at hpending
    exact hpending
  · rw [hprobes] at hp
    exact h.first p (by rw [hprobes]; exact hp)

theorem CallOk.ownFirst {cursor : ℕ} (h : CallOk sys w cursor call) (contents : List (Item ω α)) :
    OwnFirst ((sys.config w).ownQueue (sys.queue w)) (call.answered contents) :=
  ownFirst_concat (h.first_concat contents) h.missed

/-- A call whose last probe is still out has looked into its own queue first. -/
theorem CallOk.ownFirst_probes {cursor : ℕ} (h : CallOk sys w cursor call) :
    OwnFirst ((sys.config w).ownQueue (sys.queue w)) call.probes := by
  intro before p after heq
  refine h.ownFirst [] before p (after ++ [⟨call.pending.queue, call.pending.timeout, []⟩]) ?_
  rw [Call.answered, heq, List.append_assoc, List.cons_append]

/-- What has been looked into after the pending probe found nothing. -/
theorem CallOk.tried_concat {cursor : ℕ} (h : CallOk sys w cursor call) {x : Str}
    (hx : (sys.config w).Passed cursor x call.pending.place ∨
      (sys.config w).target cursor call.pending.place = some x) :
    ∃ p ∈ call.answered [], (sys.config w).workerQueue (sys.queue w) x = some p.queue := by
  rcases hx with hx | hx
  · obtain ⟨p, hp, hname⟩ := h.tried x hx
    exact ⟨p, List.mem_append_left _ hp, hname⟩
  · have hpending := h.pending
    rw [hx, Option.bind_some] at hpending
    exact ⟨_, List.mem_append_right _ List.mem_cons_self, hpending⟩

theorem CallOk.missed_concat {cursor : ℕ} (h : CallOk sys w cursor call) :
    ∀ p ∈ call.answered [], p.contents = [] := by
  intro p hp
  rcases List.mem_append.1 hp with hp | hp
  · exact h.missed p hp
  · rw [List.mem_singleton.1 hp]

/-- What a call has done that has found an item. -/
theorem CallOk.found {cursor : ℕ} (h : CallOk sys w cursor call) (contents : List (Item ω α))
    (item : Item ω α) (token : Option ℕ) :
    OutcomeOk sys ⟨w, call.copy, call.answered contents, .item call.pending.queue item token⟩ := by
  refine ⟨h.ownFirst contents, fun h ↦ (nomatch h), fun q it token' heq ↦ ?_⟩
  obtain ⟨rfl, -, -⟩ := Returned.item.inj heq
  obtain ⟨x, hx, hname⟩ := Option.bind_eq_some_iff.1 h.pending
  exact ⟨x, served_of_target hx, hname⟩

variable [DecidableEq ω]

/-- A call ends; the calls of the others go on with their cursors. -/
theorem Calls.finish (h : Calls sys s) {copy : Copy} {probes : List (Probe ω α)}
    {returned : Returned ω α} (hok : OutcomeOk sys ⟨w, copy, probes, returned⟩)
    (queues : Str → List (Item ω α)) (n : ℕ) :
    Calls sys { s.finish w copy probes returned with
      queues := queues, cursor := Function.update s.cursor w n } := by
  refine ⟨fun v call hcall ↦ ?_, fun o ho ↦ ?_⟩
  · by_cases hv : v = w
    · subst hv
      simp [State.finish] at hcall
    · simp only [State.finish, Function.update_of_ne hv] at hcall ⊢
      exact h.calls v call hcall
  · rcases List.mem_append.1 ho with ho | ho
    · exact h.outcomes o ho
    · rw [List.mem_singleton.1 ho]
      exact hok

theorem Calls.finish_same (h : Calls sys s) {copy : Copy} {probes : List (Probe ω α)}
    {returned : Returned ω α} (hok : OutcomeOk sys ⟨w, copy, probes, returned⟩) :
    Calls sys (s.finish w copy probes returned) := by
  have hfinish := h.finish hok s.queues (s.cursor w)
  rwa [Function.update_eq_self] at hfinish

theorem Calls.probe (h : Calls sys s) (hcall : CallOk sys w (s.cursor w) call) :
    Calls sys { s with calls := Function.update s.calls w (some call) } := by
  refine ⟨fun v call' hcall' ↦ ?_, h.outcomes⟩
  by_cases hv : v = w
  · subst hv
    simp only [Function.update_self] at hcall'
    obtain rfl := Option.some.inj hcall'
    exact hcall
  · simp only [Function.update_of_ne hv] at hcall'
    exact h.calls v call' hcall'

/-- Nothing was found, and the call goes on or ends. -/
theorem Calls.proceed (h : Calls sys s) (hcall : CallOk sys w (s.cursor w) call) (remaining : ℚ) :
    Calls sys (s.goOn w call.copy call.deadline (call.answered [])
      ((sys.config w).proceed (sys.queue w) (s.cursor w) remaining call.pending.place)) := by
  rw [Config.proceed]
  rcases hnext : (sys.config w).following remaining call.pending.place with _ | place
  · refine h.finish_same ⟨hcall.ownFirst [], fun _ x hx ↦ ?_, fun _ _ _ h ↦ nomatch h⟩
    obtain ⟨p, hp, hname⟩ := hcall.tried_concat (passed_of_following_none hnext hx)
    exact ⟨p, hp, hname, hcall.missed_concat p hp⟩
  · dsimp only
    rw [Config.probeAt]
    rcases htarget : ((sys.config w).target (s.cursor w) place).bind
      ((sys.config w).workerQueue (sys.queue w)) with _ | name
    · exact h.finish_same ⟨hcall.ownFirst [], fun h ↦ (nomatch h), fun _ _ _ h ↦ (nomatch h)⟩
    · refine h.probe ⟨htarget, valid_following hnext, fun hnil ↦ ?_, hcall.first_concat [],
        hcall.missed_concat, fun x hx ↦ hcall.tried_concat (passed_following hnext hx)⟩
      exact absurd hnil (List.append_ne_nil_of_right_ne_nil _ (List.cons_ne_nil _ _))

theorem Calls.start (h : Calls sys s) (copy : Copy) (timeout : ℚ) :
    Calls sys (sys.start s w copy timeout) := by
  have hraised : Calls sys (s.finish w copy [] .raised) :=
    h.finish_same ⟨ownFirst_nil _, fun h ↦ (nomatch h), fun _ _ _ h ↦ (nomatch h)⟩
  rw [System.start]
  by_cases hneg : timeout < 0
  · rw [if_pos hneg]
    exact hraised
  rw [if_neg hneg, Config.probeAt]
  rcases htarget : ((sys.config w).target (s.cursor w) .own).bind
    ((sys.config w).workerQueue (sys.queue w)) with _ | name
  · exact hraised
  · exact h.probe ⟨htarget, trivial, fun _ ↦ rfl, fun _ h ↦ (nomatch h),
      fun _ h ↦ absurd h List.not_mem_nil, fun _ h ↦ h.elim⟩

theorem Calls.step (hi : Items sys s) (hs : Calls sys s) {a : Label ω α}
    (ht : sys.step s a = some t) : Calls sys t := by
  rcases step_cases ht with ⟨w, data, name, -, hname, rfl⟩ | ⟨d, -, rfl⟩ |
    ⟨w, copy, timeout, -, -, rfl⟩ | ⟨w, call, -, hcall, rfl⟩ | ⟨w, call, -, hcall, rfl⟩
  · exact ⟨hs.calls, hs.outcomes⟩
  · exact ⟨hs.calls, hs.outcomes⟩
  · exact hs.start copy timeout
  · have hok := hs.calls w call hcall
    rcases hq : s.queues call.pending.queue with _ | ⟨item, items⟩
    · rw [answer_nil hq]
      exact hs.proceed hok _
    · rw [answer_cons hq (found_of_data (hi.data (hq ▸ List.mem_cons_self)))]
      exact hs.finish (hok.found (item :: items) item _) _ _
  · exact hs.finish_same ⟨(hs.calls w call hcall).ownFirst_probes, fun h ↦ (nomatch h),
      fun _ _ _ h ↦ (nomatch h)⟩

/-- Every call looks into its queues in order, in any run. -/
theorem calls_of_reachable (h : (sys.machine (α := α)).Reachable s) : Calls sys s := by
  have hinit : Items sys (sys.machine (α := α)).init ∧ Calls sys (sys.machine (α := α)).init :=
    ⟨items_of_reachable .init, fun _ _ h ↦ (nomatch h), fun _ h ↦ absurd h List.not_mem_nil⟩
  have hstep : ∀ s a t, Items sys s ∧ Calls sys s → (sys.machine (α := α)).step s a = some t →
      Items sys t ∧ Calls sys t := fun _ _ _ hs ht ↦ ⟨hs.1.step ht, hs.2.step hs.1 ht⟩
  exact (h.invariant hinit hstep).2

end Calls

end System

/-! ## Steals in a run -/

/-- The queue that an outcome is from. -/
def Returned.queue? : Returned ω α → Option Str
  | .item queue _ _ => some queue
  | .nothing | .raised => none

/-- How many items a worker has popped from a queue. -/
def State.served (s : State ω α) (w : ω) (queue : Str) : ℕ :=
  s.outcomes.countP fun o ↦ decide (o.worker = w ∧ o.returned.queue? = some queue)

/-- How many items a worker has stolen from other queues than one. -/
def State.elsewhere (s : State ω α) (w : ω) (own : Option Str) (queue : Str) : ℕ :=
  s.outcomes.countP fun o ↦
    decide (o.worker = w ∧ o.returned.queue?.any fun q ↦ q ≠ queue ∧ own ≠ some q)

namespace System

section Fairness

variable {sys : System ω} {s t : State ω α} {w v : ω} {x q : Str} {own : Option Str}
  {os : List (Outcome ω α)}

/-- `Config.patience` in a state. -/
def patience (sys : System ω) (s : State ω α) (w : ω) (x : Str) : ℕ :=
  (sys.config w).patience (s.cursor w) x ((s.calls w).map (·.pending.place))

/-- Outcomes of other workers, and outcomes without an item, do not count. -/
theorem counts_of_quiet (houtcomes : t.outcomes = s.outcomes ++ os)
    (hquiet : ∀ o ∈ os, o.worker = w → o.returned.queue? = none) :
    t.served w q = s.served w q ∧ t.elsewhere w own q = s.elsewhere w own q := by
  rw [State.served, State.elsewhere, houtcomes, List.countP_append, List.countP_append]
  refine ⟨Nat.add_eq_left.2 (List.countP_eq_zero.2 fun o ho ↦ ?_),
    Nat.add_eq_left.2 (List.countP_eq_zero.2 fun o ho ↦ ?_)⟩
  · rw [decide_eq_true_eq]
    rintro ⟨hw, hqueue⟩
    exact nomatch (hquiet o ho hw).symm.trans hqueue
  · rw [decide_eq_true_eq]
    rintro ⟨hw, hqueue⟩
    rw [hquiet o ho hw] at hqueue
    exact nomatch hqueue

omit [DecidableEq ω] in
theorem queue?_eq_none {r : Returned ω α} (h : r.item? = none) : r.queue? = none := by
  rcases r with _ | ⟨_, _, _⟩ | _
  · rfl
  · exact nomatch h
  · rfl

/-- What a call does to a worker that is not its own. -/
theorem goOn_of_ne (hv : v ≠ w) {copy : Copy} {deadline : Option ℚ} {probes : List (Probe ω α)}
    (next : Next) : (s.goOn v copy deadline probes next).calls w = s.calls w ∧
      (s.goOn v copy deadline probes next).cursor w = s.cursor w := by
  rcases next with p | _ | _
  · exact ⟨Function.update_of_ne hv.symm _ _, rfl⟩
  · exact ⟨Function.update_of_ne hv.symm _ _, rfl⟩
  · exact ⟨Function.update_of_ne hv.symm _ _, rfl⟩

/-- Where a worker is when its call goes on. -/
theorem patience_goOn {copy : Copy} {deadline : Option ℚ} {probes : List (Probe ω α)} (next : Next) :
    patience sys (s.goOn w copy deadline probes next) w x =
      (sys.config w).patience (s.cursor w) x
        (match next with
        | .probe p => some p.place
        | .nothing | .raise => none) := by
  rcases next with p | _ | _ <;> simp [patience, State.goOn, State.finish]

/-- Nothing was found: the patience is enough. -/
theorem patience_proceed {call : Call ω α} (hx : x ∈ (sys.config w).peerIds)
    (htarget : (sys.config w).target (s.cursor w) call.pending.place ≠ some x)
    (hcall : s.calls w = some call) {copy : Copy} {deadline : Option ℚ} {remaining : ℚ}
    {probes : List (Probe ω α)} :
    patience sys (s.goOn w copy deadline probes
      ((sys.config w).proceed (sys.queue w) (s.cursor w) remaining call.pending.place)) w x ≤
      patience sys s w x := by
  have hidle := distance_le_patience (s.cursor w) hx (some call.pending.place)
  rw [patience_goOn, patience, hcall, Option.map_some, Config.proceed]
  rcases hnext : (sys.config w).following remaining call.pending.place with _ | place
  · exact hidle
  · dsimp only
    rw [Config.probeAt]
    rcases ((sys.config w).target (s.cursor w) place).bind
      ((sys.config w).workerQueue (sys.queue w)) with _ | name
    · exact hidle
    · exact patience_following hx htarget hnext

omit [DecidableEq ω] in
/-- What another worker does, a push and the clock cost no patience. -/
theorem patience_of_same (hcalls : t.calls w = s.calls w) (hcursor : t.cursor w = s.cursor w) :
    patience sys t w x = patience sys s w x := by
  rw [patience, patience, hcalls, hcursor]

/-- A call ends without an item. -/
theorem patience_finish_le (hx : x ∈ (sys.config w).peerIds) {copy : Copy} {probes : List (Probe ω α)}
    {returned : Returned ω α} :
    patience sys (s.finish v copy probes returned) w x ≤ patience sys s w x := by
  by_cases hv : v = w
  · subst hv
    have hidle : patience sys (s.finish v copy probes returned) v x =
        (sys.config v).distance (s.cursor v) x := by
      simp [patience, State.finish, Config.patience]
    rw [hidle]
    exact distance_le_patience (s.cursor v) hx _
  · have hcalls : (s.finish v copy probes returned).calls w = s.calls w :=
      Function.update_of_ne (Ne.symm hv) _ _
    exact (patience_of_same hcalls rfl).le

/-- A call begins. -/
theorem patience_start (hx : x ∈ (sys.config w).peerIds) {copy : Copy} {deadline : Option ℚ} :
    patience sys (s.goOn v copy deadline []
      ((sys.config v).probeAt (sys.queue v) (s.cursor v) 0 .own)) w x ≤ patience sys s w x := by
  by_cases hv : v = w
  · subst hv
    have hidle := distance_le_patience (s.cursor v) hx ((s.calls v).map (·.pending.place))
    rw [patience_goOn, Config.probeAt]
    rcases ((sys.config v).target (s.cursor v) .own).bind
      ((sys.config v).workerQueue (sys.queue v)) with _ | name
    · exact hidle
    · exact hidle
  · obtain ⟨hcalls, hcursor⟩ := goOn_of_ne hv _
    exact (patience_of_same hcalls hcursor).le

/-- An item is found, in the queue of the peer or elsewhere. -/
theorem fair_found {call : Call ω α} {o : Outcome ω α} (hx : x ∈ (sys.config w).peerIds)
    (hq : (sys.config w).workerQueue (sys.queue w) x = some q)
    (hown : own = (sys.config w).ownQueue (sys.queue w)) (hok : CallOk sys w (s.cursor w) call)
    (hcall : s.calls w = some call) (hcalls : t.calls w = none)
    (hcursor : t.cursor w = (sys.config w).advance (s.cursor w) call.pending.place)
    (houtcomes : t.outcomes = s.outcomes ++ [o]) (hworker : o.worker = w)
    (hqueue : o.returned.queue? = some call.pending.queue) :
    s.served w q < t.served w q ∨ t.served w q = s.served w q ∧
      patience sys t w x + t.elsewhere w own q ≤ patience sys s w x + s.elsewhere w own q := by
  by_cases heq : call.pending.queue = q
  · left
    rw [State.served, State.served, houtcomes, List.countP_append]
    refine Nat.lt_add_of_pos_right (List.countP_pos_iff.2 ⟨o, List.mem_cons_self, ?_⟩)
    exact decide_eq_true ⟨hworker, hqueue.trans (congrArg some heq)⟩
  · right
    have htarget : (sys.config w).target (s.cursor w) call.pending.place ≠ some x := by
      intro htarget
      have hpending := hok.pending
      rw [htarget, Option.bind_some, hq] at hpending
      exact heq (Option.some.inj hpending).symm
    have hserved : t.served w q = s.served w q := by
      rw [State.served, State.served, houtcomes, List.countP_append]
      refine Nat.add_eq_left.2 (List.countP_eq_zero.2 fun o' ho' ↦ ?_)
      rw [List.mem_singleton.1 ho', decide_eq_true_eq, hqueue]
      rintro ⟨-, hsome⟩
      exact heq (Option.some.inj hsome)
    have helsewhere : t.elsewhere w own q =
        s.elsewhere w own q + if own = some call.pending.queue then 0 else 1 := by
      rw [State.elsewhere, State.elsewhere, houtcomes, List.countP_append, List.countP_singleton]
      simp [hworker, hqueue, heq]
    have hpatience := patience_advance hx htarget hok.pending
    refine ⟨hserved, ?_⟩
    rw [helsewhere, hown, patience, patience, hcalls, hcursor, hcall]
    rw [← Config.ownQueue] at hpatience
    show (sys.config w).distance _ x + _ ≤ (sys.config w).patience _ x (some call.pending.place) + _
    omega

/-- **Step.** While the queue of a peer is not empty, the worker pops from it, or it has not more
patience and steals than before. -/
theorem fair_step (hi : Items sys s) (hs : Calls sys s) (hx : x ∈ (sys.config w).peerIds)
    (hq : (sys.config w).workerQueue (sys.queue w) x = some q) (hne : s.queues q ≠ [])
    (hown : own = (sys.config w).ownQueue (sys.queue w)) {a : Label ω α} (ht : sys.step s a = some t) :
    s.served w q < t.served w q ∨ t.served w q = s.served w q ∧
      patience sys t w x + t.elsewhere w own q ≤ patience sys s w x + s.elsewhere w own q := by
  -- a step that pops nothing for the worker
  have hquiet : ∀ os : List (Outcome ω α), t.outcomes = s.outcomes ++ os →
      (∀ o ∈ os, o.worker = w → o.returned.queue? = none) →
      patience sys t w x ≤ patience sys s w x →
      t.served w q = s.served w q ∧
        patience sys t w x + t.elsewhere w own q ≤ patience sys s w x + s.elsewhere w own q := by
    intro os houtcomes hos hle
    obtain ⟨hserved, helsewhere⟩ := @counts_of_quiet _ _ _ _ _ _ q own _ houtcomes hos
    exact ⟨hserved, by omega⟩
  rcases step_cases ht with ⟨v, data, name, -, -, rfl⟩ | ⟨d, -, rfl⟩ |
    ⟨v, copy, timeout, -, hidle, rfl⟩ | ⟨v, call, -, hcall, rfl⟩ | ⟨v, call, -, hcall, rfl⟩
  · exact .inr (hquiet [] (List.append_nil _).symm (fun _ h ↦ absurd h List.not_mem_nil) le_rfl)
  · exact .inr (hquiet [] (List.append_nil _).symm (fun _ h ↦ absurd h List.not_mem_nil) le_rfl)
  · rw [start] at hquiet ⊢
    by_cases hneg : timeout < 0
    · rw [if_pos hneg] at hquiet ⊢
      exact .inr (hquiet _ rfl (fun o ho _ ↦ List.mem_singleton.1 ho ▸ rfl)
        (patience_finish_le hx))
    · rw [if_neg hneg] at hquiet ⊢
      obtain ⟨-, -, os, houtcomes, hos⟩ : (s.goOn v copy (if 0 < timeout then some (s.clock + timeout)
        else none) [] ((sys.config v).probeAt (sys.queue v) (s.cursor v) 0 .own)).queues = _ ∧ _ :=
          goOn_outcomes _
      exact .inr (hquiet os houtcomes (fun o ho _ ↦ queue?_eq_none (hos o ho)) (patience_start hx))
  · have hok := hs.calls v call hcall
    rcases hqueue : s.queues call.pending.queue with _ | ⟨item, items⟩
    · rw [answer_nil hqueue] at hquiet ⊢
      obtain ⟨-, -, os, houtcomes, hos⟩ : (s.goOn v call.copy call.deadline (call.answered [])
        ((sys.config v).proceed (sys.queue v) (s.cursor v) (remainingTimeout call.deadline s.clock)
          call.pending.place)).queues = _ ∧ _ := goOn_outcomes _
      refine .inr (hquiet os houtcomes (fun o ho _ ↦ queue?_eq_none (hos o ho)) ?_)
      by_cases hv : v = w
      · subst hv
        refine patience_proceed hx (fun htarget ↦ hne ?_) hcall
        have hpending := hok.pending
        rw [htarget, Option.bind_some, hq] at hpending
        rw [Option.some.inj hpending, hqueue]
      · obtain ⟨hcalls, hcursor⟩ := goOn_of_ne hv _
        exact (patience_of_same hcalls hcursor).le
    · rw [answer_cons hqueue (found_of_data (hi.data (hqueue ▸ List.mem_cons_self)))] at hquiet ⊢
      by_cases hv : v = w
      · subst hv
        exact fair_found hx hq hown hok hcall (Function.update_self ..) (Function.update_self ..)
          rfl rfl rfl
      · refine .inr (hquiet _ rfl (fun o ho hw ↦ ?_) ?_)
        · rw [List.mem_singleton.1 ho] at hw
          exact absurd hw hv
        · exact (patience_of_same (Function.update_of_ne (Ne.symm hv) _ _)
            (Function.update_of_ne (Ne.symm hv) _ _)).le
  · exact .inr (hquiet _ rfl (fun o ho _ ↦ List.mem_singleton.1 ho ▸ rfl) (patience_finish_le hx))

/-- **Run.** While the queue of a peer is not empty and the worker does not pop from it, the worker
steals from other peers at most as often as it has peers. -/
theorem fair_run (hs : (sys.machine (α := α)).Reachable s) (hx : x ∈ (sys.config w).peerIds)
    (hq : (sys.config w).workerQueue (sys.queue w) x = some q)
    (hown : own = (sys.config w).ownQueue (sys.queue w)) {as : List (Label ω α)}
    (hrun : sys.machine.run s as = some t)
    (hstays : sys.machine.Along (fun u _ ↦ u.queues q ≠ []) s as)
    (hserved : t.served w q = s.served w q) :
    t.elsewhere w own q ≤ s.elsewhere w own q + (sys.config w).peerIds.length := by
  have hinv : sys.machine.Always (fun u ↦ Items sys u ∧ Calls sys u ∧
      s.served w q ≤ u.served w q ∧ (u.served w q = s.served w q →
        patience sys u w x + u.elsewhere w own q ≤ patience sys s w x + s.elsewhere w own q)) s as := by
    refine hstays.always ?_ ⟨items_of_reachable hs, calls_of_reachable hs, le_rfl, fun _ ↦ le_rfl⟩
    rintro u a u' ⟨hi, hc, hle, hpatience⟩ hne ht
    refine ⟨hi.step ht, hc.step hi ht, ?_⟩
    rcases fair_step hi hc hx hq hne hown ht with hlt | ⟨heq, hstep⟩
    · exact ⟨hle.trans hlt.le, fun h ↦ by omega⟩
    · exact ⟨heq ▸ hle, fun h ↦ hstep.trans (hpatience (heq ▸ h))⟩
  obtain ⟨-, -, -, hpatience⟩ := hinv.of_run hrun
  have hbound := hpatience hserved
  have hstart : patience sys s w x ≤ (sys.config w).peerIds.length := patience_le hx _
  omega

end Fairness

end System

/-! ## The two copies -/

/-- What is left of a return value without its token. -/
def Returned.unmark : Returned ω α → Returned ω α
  | .item queue it _ => .item queue it none
  | .nothing => .nothing
  | .raised => .raised

/-- A state, without the difference between `pop` and `pop_with_ack`. -/
def State.unmark (s : State ω α) : State ω α :=
  { s with
    calls := fun w ↦ (s.calls w).map fun call ↦ { call with copy := .pop }
    outcomes := s.outcomes.map fun o ↦ { o with copy := .pop, returned := o.returned.unmark } }

/-- A step, without that difference. -/
def Label.unmark : Label ω α → Label ω α
  | .start w _ timeout => .start w .pop timeout
  | .push w data => .push w data
  | .tick d => .tick d
  | .probe w => .probe w
  | .fail w => .fail w

/-- Every delivery carries data. -/
def State.CarriesData (s : State ω α) : Prop := ∀ q, ∀ item ∈ s.queues q, item.data.isSome = true

namespace System

section Copies

variable {sys : System ω} {s t : State ω α} {w : ω}

theorem unmark_finish (copy : Copy) (probes : List (Probe ω α)) (returned : Returned ω α) :
    (s.finish w copy probes returned).unmark = s.unmark.finish w .pop probes returned.unmark := by
  simp only [State.unmark, State.finish, List.map_append, List.map_cons, List.map_nil,
    State.mk.injEq, true_and]
  refine ⟨?_, trivial⟩
  funext v
  by_cases hv : v = w
  · subst hv
    simp
  · simp [Function.update_of_ne hv]

theorem unmark_goOn (copy : Copy) (deadline : Option ℚ) (probes : List (Probe ω α)) (next : Next) :
    (s.goOn w copy deadline probes next).unmark = s.unmark.goOn w .pop deadline probes next := by
  rcases next with p | _ | _
  · simp only [State.unmark, State.goOn, State.mk.injEq, true_and, and_true]
    funext v
    by_cases hv : v = w
    · subst hv
      simp
    · simp [Function.update_of_ne hv]
  · exact unmark_finish (s := s) (w := w) copy probes .nothing
  · exact unmark_finish (s := s) (w := w) copy probes .raised

omit [DecidableEq ω] in
theorem unmark_withCursor (cursor : ω → ℕ) :
    State.unmark { s with cursor := cursor } = { s.unmark with cursor := cursor } := rfl

theorem unmark_answer (hdata : s.CarriesData) (call : Call ω α) :
    (sys.answer s w call).unmark = sys.answer s.unmark w { call with copy := .pop } := by
  rcases hqueue : s.queues call.pending.queue with _ | ⟨item, items⟩
  · rw [answer_nil hqueue, unmark_goOn, answer_nil]
    · rfl
    · exact hqueue
  · have hitem := hdata call.pending.queue item (hqueue ▸ List.mem_cons_self)
    rw [answer_cons hqueue (found_of_data hitem), @answer_cons _ _ _ _ _ _ _ item items]
    · have hfinish := unmark_finish (s := s.take call.pending.queue) (w := w) call.copy
        (call.answered (item :: items))
        (.item call.pending.queue item (call.copy.token sys.acks item))
      rw [unmark_withCursor, hfinish]
      rfl
    · exact hqueue
    · exact found_of_data hitem

/-- **Step.** The two copies do the same. -/
theorem unmark_step (hdata : s.CarriesData) (a : Label ω α) :
    (sys.step s a).map State.unmark = sys.step s.unmark a.unmark := by
  rcases a with ⟨w, data⟩ | d | ⟨w, copy, timeout⟩ | w | w
  · simp only [step, push, Label.unmark, Option.map_map]
    rfl
  · simp only [step, Label.unmark]
    split_ifs <;> rfl
  · simp only [step, Label.unmark]
    rcases hcall : s.calls w with _ | call
    · have hidle : s.unmark.calls w = none := by simp [State.unmark, hcall]
      simp only [hidle, Option.map_some, start]
      split_ifs
      · rw [unmark_finish]
        rfl
      · rw [unmark_goOn]
        rfl
      · rw [unmark_goOn]
        rfl
    · have hbusy : s.unmark.calls w = some { call with copy := .pop } := by
        simp [State.unmark, hcall]
      simp only [hbusy, Option.map_none]
  · have hcalls : s.unmark.calls w = (s.calls w).map fun call ↦ { call with copy := .pop } := rfl
    simp only [step, Label.unmark, hcalls, Option.map_map]
    refine Option.map_congr fun call _ ↦ unmark_answer hdata call
  · have hcalls : s.unmark.calls w = (s.calls w).map fun call ↦ { call with copy := .pop } := rfl
    simp only [step, Label.unmark, hcalls, Option.map_map]
    refine Option.map_congr fun call _ ↦ unmark_finish call.copy call.probes .raised

/-- Deliveries carry data as long as they did, since pushes bring data. -/
theorem CarriesData.step (hdata : s.CarriesData) {a : Label ω α} (ht : sys.step s a = some t) :
    t.CarriesData := by
  have hsame : ∀ {u : State ω α}, u.queues = s.queues → u.CarriesData := by
    intro u hu q item hitem
    exact hdata q item (hu ▸ hitem)
  rcases step_cases ht with ⟨w, data, name, -, -, rfl⟩ | ⟨d, -, rfl⟩ |
    ⟨w, copy, timeout, -, -, rfl⟩ | ⟨w, call, -, -, rfl⟩ | ⟨w, call, -, -, rfl⟩
  · intro q item hitem
    rcases mem_of_mem_update hitem with hitem | ⟨-, rfl⟩
    · exact hdata q item hitem
    · rfl
  · exact hsame rfl
  · refine hsame ?_
    rw [start]
    split_ifs
    · rfl
    · exact (goOn_outcomes _).1
    · exact (goOn_outcomes _).1
  · rcases hqueue : s.queues call.pending.queue with _ | ⟨item, items⟩
    · rw [answer_nil hqueue]
      exact hsame (goOn_outcomes _).1
    · rw [answer_cons hqueue (found_of_data (hdata _ item (hqueue ▸ List.mem_cons_self)))]
      intro q it hit
      exact hdata q it (mem_of_mem_take hit)
  · exact hsame rfl

/-- **Run.** In a run whose deliveries carry data the two copies take the same items from the same
queues. -/
theorem unmark_run (hdata : s.CarriesData) (as : List (Label ω α)) :
    (sys.machine.run s as).map State.unmark = sys.machine.run s.unmark (as.map Label.unmark) := by
  induction as generalizing s with
  | nil => rfl
  | cons a as ih =>
    have hstep := @unmark_step _ _ _ sys _ hdata a
    simp only [Machine.run_cons, List.map_cons]
    rcases ht : sys.machine.step s a with _ | t
    · have hnone : sys.step s a = none := ht
      rw [hnone, Option.map_none] at hstep
      have hnone' : sys.machine.step s.unmark a.unmark = none := hstep.symm
      rw [hnone']
      rfl
    · have hsome : sys.step s a = some t := ht
      rw [hsome, Option.map_some] at hstep
      have hsome' : sys.machine.step s.unmark a.unmark = some t.unmark := hstep.symm
      rw [hsome']
      exact ih (CarriesData.step hdata hsome)

end Copies

end System

/-! ## Work stealing -/

namespace System

/-- **Work stealing.** In every reachable state, and for every run from it: an item was popped once at
most, and by its owner or by a worker that lists its owner; a call that returned nothing found every
queue empty; peers were looked at after the own queue was found empty; and while the queue of a peer is
not empty and is not served, the worker steals from other peers at most as often as it has peers. As
long as deliveries carry data, `pop` and `pop_with_ack` take the same items from the same queues. -/
theorem work_stealing (sys : System ω) (hno : sys.NoCollision) :
    (∀ s : State ω α, sys.machine.Reachable s →
      (s.popped.map Item.serial).Nodup ∧
      (∀ o ∈ s.outcomes, ∀ q item token, o.returned = .item q item token →
        (∃ data, item.data = some data ∧ s.pushes[item.serial]? = some (item.owner, data)) ∧
        sys.queue item.owner = sys.queue o.worker ∧
        ((sys.config item.owner).workerId = (sys.config o.worker).workerId ∨
          some (sys.config item.owner).workerId ∈ (sys.config o.worker).given)) ∧
      (∀ o ∈ s.outcomes, o.returned = .nothing → ∀ x,
        x = (sys.config o.worker).workerId ∨ some x ∈ (sys.config o.worker).given →
        ∃ p ∈ o.probes, (sys.config o.worker).workerQueue (sys.queue o.worker) x = some p.queue ∧
          p.contents = []) ∧
      (∀ o ∈ s.outcomes,
        OwnFirst ((sys.config o.worker).ownQueue (sys.queue o.worker)) o.probes) ∧
      (∀ w call, s.calls w = some call → OwnFirst ((sys.config w).ownQueue (sys.queue w))
        (call.answered (s.queues call.pending.queue))) ∧
      ∀ w x q, x ∈ (sys.config w).peerIds →
        (sys.config w).workerQueue (sys.queue w) x = some q → ∀ as t, sys.machine.run s as = some t →
        sys.machine.Along (fun u _ ↦ u.queues q ≠ []) s as → t.served w q = s.served w q →
        t.elsewhere w ((sys.config w).ownQueue (sys.queue w)) q ≤
          s.elsewhere w ((sys.config w).ownQueue (sys.queue w)) q +
            (sys.config w).peerIds.length) ∧
    ∀ s : State ω α, s.CarriesData → ∀ w timeout as,
      (sys.machine.run s (.start w .popWithAck timeout :: as)).map State.unmark =
        (sys.machine.run s (.start w .pop timeout :: as)).map State.unmark := by
  refine ⟨fun s hs ↦ ?_, fun s hdata w timeout as ↦ ?_⟩
  · have hitems := items_of_reachable hs
    have hcalls := calls_of_reachable hs
    refine ⟨hitems.unique, fun o ho q item token hreturned ↦ ?_, fun o ho hnothing x hx ↦ ?_,
      fun o ho ↦ (hcalls.outcomes o ho).ownFirst, fun w call hcall ↦ (hcalls.calls w call hcall).ownFirst _,
      fun w x q hx hq as t hrun hstays hserved ↦ fair_run hs hx hq rfl hrun hstays hserved⟩
    · have hitem := hitems.returned o ho q item token hreturned
      obtain ⟨x, hx, hname⟩ := (hcalls.outcomes o ho).item q item token hreturned
      obtain ⟨hqueue, rfl⟩ := workerQueue_inj hno (.inl rfl) hx hitem.owner hname
      exact ⟨hitem.pushed, hqueue, hx.imp id Config.given_of_mem⟩
    · exact (hcalls.outcomes o ho).nothing hnothing x (hx.elim .inl Config.mem_of_given)
  · rw [unmark_run hdata, unmark_run hdata]
    rfl

end System

/-- The digests of the queues of two workers. -/
def twoDigests (text : Bytes) : Str :=
  if Names.hashed (str "q") (str "worker") (str "a") = some text then
    str "f6911b16bbec76920fc0bc1522719eeb"
  else if Names.hashed (str "q") (str "worker") (str "b") = some text then
    str "c1ab3676bf085dc8f51c6f7b54c4ca2c"
  else []

theorem twoDigests_all (text : Bytes) :
    (twoDigests text).all (fun d ↦ decide (d ∈ str "0123456789abcdef")) = true := by
  unfold twoDigests
  split_ifs <;> decide

/-- A worker that has another one as its peer. -/
def oneOfTwo (worker peer : Str) (hworker : Snapshot.validKeyName worker = true)
    (hpeer : normalizePeers [worker] [] [some peer] = some [peer]) : Config where
  workerId := worker
  given := [some peer]
  peerIds := [peer]
  stealTimeout := 1 / 20
  naming :=
    { hash := ⟨twoDigests, fun text d hd ↦ of_decide_eq_true (List.all_eq_true.mp (twoDigests_all text) d hd)⟩
      generation := .v2
      backendType := some (str "redis") }
  valid := hworker
  normalized := hpeer
  timeout_nonneg := by norm_num

/-- Two workers that steal from one another. -/
def twoWorkers : System Bool where
  config
    | false => oneOfTwo (str "a") (str "b") (by decide) (by decide)
    | true => oneOfTwo (str "b") (str "a") (by decide) (by decide)
  queue := fun _ ↦ str "q"
  hash := ⟨twoDigests, fun text d hd ↦ of_decide_eq_true (List.all_eq_true.mp (twoDigests_all text) d hd)⟩
  hash_eq := by
    rintro (_ | _)
    · rfl
    · rfl
  acks := true

theorem noCollision_twoWorkers : twoWorkers.NoCollision := by
  have hserved : ∀ w x, (twoWorkers.config w).Served x → x ∈ [str "a", str "b"] := by
    rintro (_ | _) x (rfl | hx)
    · decide
    · rw [List.mem_singleton.1 hx]
      decide
    · decide
    · rw [List.mem_singleton.1 hx]
      decide
  have hdigests : ∀ x ∈ [str "a", str "b"], ∀ y ∈ [str "a", str "b"],
      ∀ t ∈ Names.hashed (str "q") (str "worker") x,
      ∀ t' ∈ Names.hashed (str "q") (str "worker") y, twoDigests t = twoDigests t' → t = t' := by
    decide
  exact fun w x hx v y hy t t' ht ht' heq ↦
    hdigests x (hserved w x hx) y (hserved v y hy) t ht t' ht' heq

theorem work_stealing_twoWorkers : twoWorkers.NoCollision ∧
    ∀ s : State Bool ℕ, twoWorkers.machine.Reachable s → (s.popped.map Item.serial).Nodup :=
  ⟨noCollision_twoWorkers, fun s hs ↦
    ((System.work_stealing twoWorkers noCollision_twoWorkers).1 s hs).1⟩

end WorkStealing

end ScrapyExtension
