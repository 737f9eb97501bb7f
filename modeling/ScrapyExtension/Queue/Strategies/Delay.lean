import ScrapyExtension.Machine.Basic
import ScrapyExtension.Py.HeapSort

/-!
# The delay strategy

Items with a delay wait in a heap, by the time at which they are ready and by a number. A drain pushes the root
to the backend, and takes it from the heap, as long as the root is due; a push that raises leaves the root where
it is. Items without a delay are pushed at once, past the heap.

A drain takes the heap apart from the front of its sorted list. So it hands over the due entries in order, or
the first of them up to the push that raised.

Numbers begin again with a restore. To tell the entries of a run apart they have tickets as well, which the
program does not know.
-/

namespace ScrapyExtension

open Py

namespace Delay

/-! ## What is held -/

/-- The settings of a strategy. -/
structure Config where
  /-- `_default_delay` -/
  defaultDelay : ℚ
  nonneg : 0 ≤ defaultDelay

variable {α : Type*}

/-- An item in the heap. -/
structure Held (α : Type*) where
  readyAt : ℚ
  sequence : ℕ
  item : α
  priority : ℚ
  /-- Which of the accepted items it is. -/
  ticket : ℕ
deriving DecidableEq

/-- What is compared of an entry; the numbers in a heap differ. -/
def Held.key (h : Held α) : ℚ ×ₗ ℕ := toLex (h.readyAt, h.sequence)

/-- A strategy. -/
structure State (α : Type*) where
  /-- `_holding` -/
  holding : List (Held α)
  /-- The next number of `_seq`. -/
  seq : ℕ
  /-- The last reading of the clock. -/
  clock : ℚ
  /-- How many entries were accepted. -/
  tickets : ℕ

/-- What a call did with items. -/
structure Effect (α : Type*) where
  /-- Those that have come into the heap. -/
  accepted : List (Held α)
  /-- Those that the backend has taken from it, in order. -/
  released : List (Held α)
  /-- Those that were thrown away. -/
  dropped : List (Held α)
  /-- Those that were pushed past the heap, with their priorities. -/
  direct : List (α × ℚ)

/-- No effect. -/
def Effect.none : Effect α := ⟨[], [], [], []⟩

/-! ## Push -/

/-- The delay of a push. -/
def Config.effective (c : Config) (delay : ℚ) : ℚ := if 0 < delay then delay else c.defaultDelay

/-- `push`, for a delay and a priority that may not be finite; `taken` says whether a backend that is called
takes the item. -/
def Config.push (c : Config) (s : State α) (item : α) (priority delay : Option ℚ) (taken : Bool) :
    State α × Effect α :=
  match delay, priority with
  | some delay, some priority =>
    if delay < 0 then (s, .none)
    else if c.effective delay ≤ 0 then
      (s, if taken then { Effect.none with direct := [(item, priority)] } else .none)
    else
      let h : Held α := ⟨s.clock + c.effective delay, s.seq, item, priority, s.tickets⟩
      ({ s with
          holding := Heapq.heappush Held.key s.holding h
          seq := s.seq + 1
          tickets := s.tickets + 1 },
        { Effect.none with accepted := [h] })
  | _, _ => (s, .none)

/-! ## Drain -/

/-- The loop of `_drain_ready`: the heap, what was pushed, and whether the loop came to its end. `taken` says
for each push whether the backend takes the item. -/
def drainLoop (now : ℚ) (taken : ℕ → Bool) :
    (fuel n : ℕ) → List (Held α) → List (Held α) × List (Held α) × Bool
  | 0, _, holding => (holding, [], true)
  | _ + 1, _, [] => ([], [], true)
  | fuel + 1, n, root :: rest =>
    if root.readyAt ≤ now then
      if taken n then
        match Heapq.heappop Held.key (root :: rest) with
        | none => (root :: rest, [root], true)
        | some (_, heap) =>
          let r := drainLoop now taken fuel (n + 1) heap
          (r.1, root :: r.2.1, r.2.2)
      else (root :: rest, [], false)
    else (root :: rest, [], true)

/-- `_drain_ready`, after the clock was read, and whether it returns. -/
def State.drain (s : State α) (taken : ℕ → Bool) : State α × Effect α × Bool :=
  let r := drainLoop s.clock taken s.holding.length 0 s.holding
  ({ s with holding := r.1 }, { Effect.none with released := r.2.1 }, r.2.2)

/-! ## Clear, close and restore -/

/-- `clear`, when the backend has cleared its queue, and `close`. -/
def State.discard (s : State α) : State α × Effect α :=
  ({ s with holding := [] }, { Effect.none with dropped := s.holding })

/-- The version of a snapshot. -/
inductive Version
  | one
  | two
deriving DecidableEq, Repr

/-- An entry of a snapshot: its time is `ready_at` in version 1, and `remaining` in version 2. -/
structure Saved (α : Type*) where
  timing : ℚ
  item : α
  priority : ℚ

/-- A snapshot whose fields are well formed. -/
structure Snapshot (α : Type*) where
  version : Version
  wallTime : ℚ
  entries : List (Saved α)

/-- An entry of `recovered_entries`. -/
structure Recovered (α : Type*) where
  readyAt : ℚ
  originalDeadline : ℚ
  inputOrder : ℕ
  item : α
  priority : ℚ

/-- The key by which they are sorted. -/
def Recovered.key (e : Recovered α) : ℚ ×ₗ ℚ ×ₗ ℕ := toLex (e.readyAt, toLex (e.originalDeadline, e.inputOrder))

/-- One entry is recovered. -/
def recover (version : Version) (now downtime : ℚ) (e : Saved α) (inputOrder : ℕ) : Option (Recovered α) :=
  match version with
  | .one => some ⟨now, e.timing, inputOrder, e.item, e.priority⟩
  | .two =>
    if e.timing < 0 then none
    else some ⟨now + max 0 (e.timing - downtime), e.timing, inputOrder, e.item, e.priority⟩

/-- All entries are recovered; `none` when one is invalid. -/
def recoverAll (version : Version) (now downtime : ℚ) : (inputOrder : ℕ) → List (Saved α) →
    Option (List (Recovered α))
  | _, [] => some []
  | inputOrder, e :: es =>
    match recover version now downtime e inputOrder with
    | none => none
    | some r => (recoverAll version now downtime (inputOrder + 1) es).map (r :: ·)

/-- The recovered entries with new numbers. -/
def enumerate (tickets : ℕ) : (seq : ℕ) → List (Recovered α) → List (Held α)
  | _, [] => []
  | seq, e :: es => ⟨e.readyAt, seq, e.item, e.priority, tickets + seq⟩ :: enumerate tickets (seq + 1) es

/-- The heap that `restore` builds. -/
def State.rebuilt (s : State α) (wallTime : ℚ) (saved : Snapshot α) : Option (List (Held α)) :=
  let downtime := match saved.version with
    | .one => 0
    | .two => max 0 (wallTime - saved.wallTime)
  (recoverAll saved.version s.clock downtime 0 saved.entries).map fun recovered ↦
    Heapq.heapify Held.key (enumerate s.tickets 0 (Heapq.sorted Recovered.key recovered))

/-- What a restore publishes. -/
def State.published (s : State α) (rebuilt : List (Held α)) : State α :=
  { s with holding := rebuilt, seq := rebuilt.length, tickets := s.tickets + rebuilt.length }

/-- `restore`; a snapshot that is rejected, here or before, changes nothing. -/
def State.restore (s : State α) (wallTime : ℚ) (saved : Option (Snapshot α)) : State α × Effect α :=
  match saved.bind (s.rebuilt wallTime) with
  | none => (s, .none)
  | some rebuilt => (s.published rebuilt, { Effect.none with accepted := rebuilt, dropped := s.holding })

/-! ## Runs -/

/-- A call, with the reading of the clock. -/
inductive Call (α : Type*)
  | push (now : ℚ) (item : α) (priority delay : Option ℚ) (taken : Bool)
  | drain (now : ℚ) (taken : ℕ → Bool)
  /-- The backend may refuse to clear its queue. -/
  | clear (cleared : Bool)
  | close
  | restore (now wallTime : ℚ) (saved : Option (Snapshot α))

/-- The clock is read. -/
def State.read (s : State α) (now : ℚ) : Option (State α) :=
  if s.clock ≤ now then some { s with clock := now } else none

/-- One call; `none` for a clock that goes back. -/
def Config.call (c : Config) (s : State α) : Call α → Option (State α × Effect α)
  | .push now item priority delay taken => (s.read now).map fun s ↦ c.push s item priority delay taken
  | .drain now taken => (s.read now).map fun s ↦ ((s.drain taken).1, (s.drain taken).2.1)
  | .clear cleared => some (if cleared then s.discard else (s, .none))
  | .close => some s.discard
  | .restore now wallTime saved => (s.read now).map fun s ↦ s.restore wallTime saved

/-- The strategy as a machine. -/
def machine (c : Config) (now : ℚ) : Machine (State α) (Call α) where
  init := ⟨[], 0, now, 0⟩
  step s a := (c.call s a).map Prod.fst

/-- What a run did with items. -/
def Config.effects (c : Config) : State α → List (Call α) → List (Effect α)
  | _, [] => []
  | s, a :: as =>
    match c.call s a with
    | none => []
    | some (t, e) => e :: Config.effects c t as

/-! ## One drain -/

section Drain

variable {c : Config} {s t : State α}

/-- What holds between two calls. -/
structure Consistent (s : State α) : Prop where
  heap : Heapq.Ordered Held.key s.holding
  numbers : (s.holding.map Held.sequence).Nodup
  fresh : ∀ h ∈ s.holding, h.sequence < s.seq
  issued : ∀ h ∈ s.holding, h.ticket < s.tickets

theorem nodup_keys {hs : List (Held α)} (h : (hs.map Held.sequence).Nodup) : (hs.map Held.key).Nodup := by
  refine List.Nodup.of_map (fun k : ℚ ×ₗ ℕ ↦ (ofLex k).2) ?_
  rw [List.map_map]
  exact h

theorem readyAt_le_of_key_le {a b : Held α} (h : a.key ≤ b.key) : a.readyAt ≤ b.readyAt :=
  (Prod.Lex.le_iff.mp h).elim le_of_lt fun e ↦ e.1.le

/-- The order of release. -/
def State.order (s : State α) : List (Held α) := Heapq.sorted Held.key s.holding

/-- What is due, in this order. -/
def State.due (s : State α) : List (Held α) :=
  Heapq.sorted Held.key (s.holding.filter fun h ↦ h.readyAt ≤ s.clock)

/-- The entries of a list in order that are due. -/
def ready (now : ℚ) (l : List (Held α)) : List (Held α) := l.takeWhile fun h ↦ h.readyAt ≤ now

theorem Consistent.due_eq (hs : Consistent s) : s.due = ready s.clock s.order := by
  refine Heapq.sorted_filter (nodup_keys hs.numbers) fun a b hab hb ↦ ?_
  exact decide_eq_true ((readyAt_le_of_key_le hab).trans (of_decide_eq_true hb))

theorem ready_cons_of_le {now : ℚ} {h : Held α} (hle : h.readyAt ≤ now) (l : List (Held α)) :
    ready now (h :: l) = h :: ready now l := List.takeWhile_cons_of_pos (decide_eq_true hle)

theorem ready_cons_of_not_le {now : ℚ} {h : Held α} (hle : ¬ h.readyAt ≤ now) (l : List (Held α)) :
    ready now (h :: l) = [] := List.takeWhile_cons_of_neg (by simpa using hle)

/-- What the loop does, from the push number `n`, with a heap whose list in order is `l`: the first `k` entries
are out. -/
structure Handed (now : ℚ) (taken : ℕ → Bool) (n k : ℕ) (l : List (Held α))
    (r : List (Held α) × List (Held α) × Bool) : Prop where
  heap : Heapq.Ordered Held.key r.1
  order : Heapq.sorted Held.key r.1 = l.drop k
  released : r.2.1 = (ready now l).take k
  le : k ≤ (ready now l).length
  pushed : ∀ i < k, taken (n + i) = true
  returned : r.2.2 = true → k = (ready now l).length
  raised : r.2.2 = false → k < (ready now l).length ∧ taken (n + k) = false

/-- The loop stops. -/
theorem Handed.stop {now : ℚ} {taken : ℕ → Bool} {n : ℕ} {hs : List (Held α)} {completed : Bool}
    (hheap : Heapq.Ordered Held.key hs)
    (hreturned : completed = true → ready now (Heapq.sorted Held.key hs) = [])
    (hraised : completed = false → ready now (Heapq.sorted Held.key hs) ≠ [] ∧ taken n = false) :
    Handed now taken n 0 (Heapq.sorted Held.key hs) (hs, [], completed) where
  heap := hheap
  order := rfl
  released := rfl
  le := Nat.zero_le _
  pushed i hi := absurd hi (Nat.not_lt_zero i)
  returned h := by rw [hreturned h, List.length_nil]
  raised h := ⟨List.length_pos_of_ne_nil (hraised h).1, (hraised h).2⟩

/-- **The loop** takes the list in order apart. -/
theorem drainLoop_spec {now : ℚ} {taken : ℕ → Bool} (fuel n : ℕ) {hs : List (Held α)} (hfuel : hs.length ≤ fuel)
    (hheap : Heapq.Ordered Held.key hs) (hnodup : (hs.map Held.sequence).Nodup) :
    ∃ k, Handed now taken n k (Heapq.sorted Held.key hs) (drainLoop now taken fuel n hs) := by
  induction fuel generalizing n hs with
  | zero =>
    obtain rfl := List.eq_nil_of_length_eq_zero (Nat.le_zero.mp hfuel)
    exact ⟨0, .stop hheap (fun _ ↦ rfl) fun h ↦ nomatch h⟩
  | succ fuel ih =>
    rcases hs with - | ⟨root, rest⟩
    · exact ⟨0, .stop hheap (fun _ ↦ rfl) fun h ↦ nomatch h⟩
    have hsorted := hheap.sorted_cons (nodup_keys hnodup)
    rw [drainLoop]
    split_ifs with hdue htaken
    · -- the root is pushed
      obtain ⟨heap, hpop, hheap', hperm⟩ := Heapq.heappop_spec hheap
      rw [List.map_cons, List.nodup_cons] at hnodup
      obtain ⟨k, hk⟩ := @ih (n + 1) heap (hperm.length_eq ▸ Nat.le_of_succ_le_succ hfuel) hheap'
        ((hperm.map _).nodup_iff.mpr hnodup.2)
      rw [Heapq.sorted_congr hperm (nodup_keys hnodup.2)] at hk
      have hready := ready_cons_of_le hdue (Heapq.sorted Held.key rest)
      simp only [hpop]
      refine ⟨k + 1, hk.heap, ?_, ?_, ?_, ?_, ?_, ?_⟩
      · rw [hsorted, List.drop_succ_cons, hk.order]
      · rw [hsorted, hready, List.take_succ_cons, hk.released]
      · rw [hsorted, hready, List.length_cons]
        exact Nat.succ_le_succ hk.le
      · rintro (- | i) hi
        · exact htaken
        · rw [Nat.add_comm i, ← Nat.add_assoc]
          exact hk.pushed i (Nat.lt_of_succ_lt_succ hi)
      · intro h
        rw [hsorted, hready, List.length_cons, hk.returned h]
      · intro h
        rw [hsorted, hready, List.length_cons, Nat.add_comm k, ← Nat.add_assoc, Nat.add_comm 1]
        exact ⟨Nat.succ_lt_succ (hk.raised h).1, (hk.raised h).2⟩
    · -- the push raises
      refine ⟨0, .stop hheap (fun h ↦ nomatch h) fun _ ↦ ⟨?_, by simpa using htaken⟩⟩
      rw [hsorted, ready_cons_of_le hdue]
      exact List.cons_ne_nil _ _
    · -- nothing is due
      refine ⟨0, .stop hheap (fun _ ↦ ?_) fun h ↦ nomatch h⟩
      rw [hsorted, ready_cons_of_not_le hdue]

/-- What a drain of `s` hands over. -/
structure Drained (s t : State α) (taken : ℕ → Bool) (released : List (Held α)) (completed : Bool) (k : ℕ) :
    Prop where
  le : k ≤ s.due.length
  /-- The due entries, in order, up to the push that raised. -/
  released : released = s.due.take k
  pushed : ∀ n < k, taken n = true
  returned : completed = true → k = s.due.length
  raised : completed = false → k < s.due.length ∧ taken k = false
  /-- The others are held. -/
  order : t.order = s.order.drop k
  left : t.holding.Perm (s.due.drop k ++ s.holding.filter fun h ↦ s.clock < h.readyAt)
  frame : t.seq = s.seq ∧ t.clock = s.clock ∧ t.tickets = s.tickets

theorem Consistent.drain (hs : Consistent s) {taken : ℕ → Bool} {e : Effect α} {completed : Bool}
    (h : s.drain taken = (t, e, completed)) :
    Consistent t ∧ e = ⟨[], e.released, [], []⟩ ∧ ∃ k, Drained s t taken e.released completed k := by
  obtain ⟨k, hk⟩ := @drainLoop_spec _ s.clock taken s.holding.length 0 _ le_rfl hs.heap hs.numbers
  obtain ⟨rfl, rfl, rfl⟩ := by simpa only [State.drain, Prod.mk.injEq] using h.symm
  have hdue : s.due = ready s.clock (Heapq.sorted Held.key s.holding) := hs.due_eq
  have hlater : (Heapq.sorted Held.key s.holding).dropWhile (fun h ↦ h.readyAt ≤ s.clock) =
      (Heapq.sorted Held.key s.holding).filter fun h ↦ s.clock < h.readyAt := by
    refine (Heapq.takeWhile_eq_filter (Heapq.pairwise_sorted Held.key s.holding) fun a b hab hb ↦ ?_).2.trans ?_
    · exact decide_eq_true ((readyAt_le_of_key_le hab).trans (of_decide_eq_true hb))
    · exact List.filter_congr fun h _ ↦ by simp [← not_le]
  have hsub : ∀ h ∈ (drainLoop s.clock taken s.holding.length 0 s.holding).1, h ∈ s.holding := by
    intro h hh
    rw [← @Heapq.mem_sorted _ _ _ Held.key, hk.order] at hh
    exact Heapq.mem_sorted.mp (List.mem_of_mem_drop hh)
  have hnumbers : ((drainLoop s.clock taken s.holding.length 0 s.holding).1.map Held.sequence).Nodup := by
    refine (((Heapq.sorted_perm Held.key _).map _).nodup_iff).mp ?_
    rw [hk.order, List.map_drop]
    exact (((Heapq.sorted_perm Held.key _).map _).nodup_iff.mpr hs.numbers).sublist (List.drop_sublist _ _)
  refine ⟨⟨hk.heap, hnumbers, fun h hh ↦ hs.fresh h (hsub h hh), fun h hh ↦ hs.issued h (hsub h hh)⟩, rfl, k, ?_⟩
  refine ⟨hdue ▸ hk.le, hdue ▸ hk.released, ?_, hdue ▸ hk.returned, ?_, hk.order, ?_, rfl, rfl, rfl⟩
  · intro n hn
    have := hk.pushed n hn
    rwa [Nat.zero_add] at this
  · intro hraised
    have := hk.raised hraised
    rw [Nat.zero_add] at this
    rwa [hdue]
  · refine (Heapq.sorted_perm Held.key _).symm.trans ?_
    have hsplit : (Heapq.sorted Held.key s.holding).drop k = (ready s.clock (Heapq.sorted Held.key s.holding)).drop k ++
        (Heapq.sorted Held.key s.holding).dropWhile fun h ↦ h.readyAt ≤ s.clock := by
      conv_lhs => rw [← List.takeWhile_append_dropWhile (p := fun h : Held α ↦ h.readyAt ≤ s.clock)
        (l := Heapq.sorted Held.key s.holding)]
      exact List.drop_append_of_le_length hk.le
    rw [hk.order, hsplit, hlater, hdue]
    exact ((Heapq.sorted_perm Held.key s.holding).filter _).append_left _

end Drain

/-! ## Restoring -/

section Restore

variable {s : State α}

theorem length_enumerate (tickets seq : ℕ) (es : List (Recovered α)) :
    (enumerate tickets seq es).length = es.length := by
  induction es generalizing seq with
  | nil => rfl
  | cons e es ih => rw [enumerate, List.length_cons, List.length_cons, ih]

theorem map_sequence_enumerate (tickets seq : ℕ) (es : List (Recovered α)) :
    (enumerate tickets seq es).map Held.sequence = List.range' seq es.length := by
  induction es generalizing seq with
  | nil => rfl
  | cons e es ih => rw [enumerate, List.map_cons, ih, List.length_cons, List.range'_succ]

theorem map_ticket_enumerate (tickets seq : ℕ) (es : List (Recovered α)) :
    (enumerate tickets seq es).map Held.ticket = List.range' (tickets + seq) es.length := by
  induction es generalizing seq with
  | nil => rfl
  | cons e es ih => rw [enumerate, List.map_cons, ih, List.length_cons, List.range'_succ, Nat.add_assoc]

theorem mem_enumerate {tickets seq : ℕ} {es : List (Recovered α)} {h : Held α}
    (hmem : h ∈ enumerate tickets seq es) : seq ≤ h.sequence ∧ ∃ e ∈ es, h.readyAt = e.readyAt := by
  induction es generalizing seq with
  | nil => exact absurd hmem List.not_mem_nil
  | cons e es ih =>
    rcases List.mem_cons.mp hmem with rfl | hmem
    · exact ⟨le_rfl, e, List.mem_cons_self, rfl⟩
    · obtain ⟨hle, x, hx, hready⟩ := ih hmem
      exact ⟨(Nat.le_succ seq).trans hle, x, List.mem_cons_of_mem _ hx, hready⟩

/-- Entries whose times ascend get their numbers in the order of release. -/
theorem pairwise_enumerate {es : List (Recovered α)} (h : es.Pairwise fun a b ↦ a.readyAt ≤ b.readyAt)
    (tickets seq : ℕ) : (enumerate tickets seq es).Pairwise fun a b ↦ a.key < b.key := by
  induction es generalizing seq with
  | nil => exact List.Pairwise.nil
  | cons e es ih =>
    rw [List.pairwise_cons] at h
    refine List.pairwise_cons.mpr ⟨fun x hx ↦ ?_, ih h.2 (seq + 1)⟩
    obtain ⟨hle, y, hy, hready⟩ := mem_enumerate hx
    rw [Held.key, Held.key, Prod.Lex.lt_iff]
    rcases (h.1 y hy).lt_or_eq with hlt | heq
    · exact .inl (hready ▸ hlt)
    · exact .inr ⟨heq.trans hready.symm, hle⟩

/-- Recovered entries are sorted by their times, first of all. -/
theorem pairwise_readyAt (es : List (Recovered α)) :
    (Heapq.sorted Recovered.key es).Pairwise fun a b ↦ a.readyAt ≤ b.readyAt := by
  refine (Heapq.pairwise_sorted Recovered.key es).imp fun {a b} hle ↦ ?_
  exact (Prod.Lex.le_iff.mp hle).elim le_of_lt fun e ↦ e.1.le

/-- **The heap** that a restore builds. -/
theorem rebuilt_spec {wallTime : ℚ} {saved : Snapshot α} {hs : List (Held α)}
    (h : s.rebuilt wallTime saved = some hs) : Heapq.Ordered Held.key hs ∧
      (hs.map Held.sequence).Perm (List.range hs.length) ∧
      (hs.map Held.ticket).Perm (List.range' s.tickets hs.length) := by
  obtain ⟨recovered, -, rfl⟩ := Option.map_eq_some_iff.mp h
  have hlt := pairwise_enumerate (pairwise_readyAt recovered) s.tickets 0
  obtain ⟨hheap, hperm⟩ := Heapq.heapify_spec (Heapq.Ordered.of_pairwise (hlt.imp le_of_lt))
  have hlength : (Heapq.heapify Held.key
      (enumerate s.tickets 0 (Heapq.sorted Recovered.key recovered))).length =
        (Heapq.sorted Recovered.key recovered).length := by
    rw [hperm.length_eq, length_enumerate]
  refine ⟨hheap, ?_, ?_⟩
  · rw [hlength, List.range_eq_range', ← map_sequence_enumerate s.tickets]
    exact hperm.map _
  · rw [hlength, ← Nat.add_zero s.tickets, ← map_ticket_enumerate]
    exact hperm.map _

end Restore

/-! ## Accounts -/

section Accounts

variable {c : Config} {s t u : State α} {e e' : Effect α}

/-- Two effects, one after the other. -/
def Effect.append (e e' : Effect α) : Effect α :=
  ⟨e.accepted ++ e'.accepted, e.released ++ e'.released, e.dropped ++ e'.dropped, e.direct ++ e'.direct⟩

/-- The effects of a run together. -/
def total : List (Effect α) → Effect α
  | [] => .none
  | e :: es => e.append (total es)

/-- What was held or accepted is released, or thrown away, or held; what is accepted has new tickets. -/
structure Accounted (s t : State α) (e : Effect α) : Prop where
  split : (s.holding ++ e.accepted).Perm (e.released ++ e.dropped ++ t.holding)
  tickets : s.tickets ≤ t.tickets
  issued : ∀ h ∈ e.accepted, s.tickets ≤ h.ticket ∧ h.ticket < t.tickets
  distinct : (e.accepted.map Held.ticket).Nodup

theorem Accounted.none (hholding : t.holding = s.holding) (htickets : t.tickets = s.tickets) (direct : List (α × ℚ)) :
    Accounted s t ⟨[], [], [], direct⟩ where
  split := by simp [hholding]
  tickets := htickets.ge
  issued h hh := absurd hh List.not_mem_nil
  distinct := List.nodup_nil

theorem Accounted.append (h : Accounted s t e) (h' : Accounted t u e') : Accounted s u (e.append e') where
  split := by
    have hsplit := h.split
    have hsplit' := h'.split
    rw [← Multiset.coe_eq_coe] at hsplit hsplit' ⊢
    simp only [Effect.append, ← Multiset.coe_add] at hsplit hsplit' ⊢
    calc _ = ((s.holding : Multiset (Held α)) + e.accepted) + e'.accepted := by abel
      _ = (e.released : Multiset (Held α)) + e.dropped + (t.holding + e'.accepted) := by rw [hsplit]; abel
      _ = _ := by rw [hsplit']; abel
  tickets := h.tickets.trans h'.tickets
  issued x hx := by
    rcases List.mem_append.mp hx with hx | hx
    · exact ⟨(h.issued x hx).1, (h.issued x hx).2.trans_le h'.tickets⟩
    · exact ⟨h.tickets.trans (h'.issued x hx).1, (h'.issued x hx).2⟩
  distinct := by
    rw [Effect.append, List.map_append]
    refine h.distinct.append h'.distinct fun n hn hn' ↦ ?_
    obtain ⟨x, hx, rfl⟩ := List.mem_map.mp hn
    obtain ⟨y, hy, heq⟩ := List.mem_map.mp hn'
    have := (h.issued x hx).2
    have := (h'.issued y hy).1
    omega

theorem Consistent.push (hs : Consistent s) (c : Config) (item : α) (priority delay : Option ℚ) (taken : Bool) :
    Consistent (c.push s item priority delay taken).1 ∧
      Accounted s (c.push s item priority delay taken).1 (c.push s item priority delay taken).2 := by
  unfold Config.push
  split
  · next delay priority =>
    split_ifs
    · exact ⟨hs, .none rfl rfl []⟩
    · exact ⟨hs, .none rfl rfl [(item, priority)]⟩
    · exact ⟨hs, .none rfl rfl []⟩
    · -- the item is held
      set h : Held α := ⟨s.clock + c.effective delay, s.seq, item, priority, s.tickets⟩ with hh
      obtain ⟨hheap, hperm⟩ := Heapq.heappush_spec hs.heap h
      have hmem : ∀ x ∈ Heapq.heappush Held.key s.holding h, x = h ∨ x ∈ s.holding := fun x hx ↦
        List.mem_cons.mp (hperm.subset hx)
      refine ⟨⟨hheap, ?_, fun x hx ↦ ?_, fun x hx ↦ ?_⟩, ?_, Nat.le_succ _, fun x hx ↦ ?_, List.nodup_singleton _⟩
      · refine ((hperm.map _).nodup_iff).mpr (List.nodup_cons.mpr ⟨fun hold ↦ ?_, hs.numbers⟩)
        obtain ⟨x, hx, heq⟩ := List.mem_map.mp hold
        exact absurd heq (hs.fresh x hx).ne
      · rcases hmem x hx with rfl | hx
        · exact Nat.lt_succ_self _
        · exact (hs.fresh x hx).trans (Nat.lt_succ_self _)
      · rcases hmem x hx with rfl | hx
        · exact Nat.lt_succ_self _
        · exact (hs.issued x hx).trans (Nat.lt_succ_self _)
      · exact (List.perm_append_singleton h s.holding).trans hperm.symm
      · rw [List.mem_singleton.mp hx]
        exact ⟨le_rfl, Nat.lt_succ_self _⟩
  · exact ⟨hs, .none rfl rfl []⟩

theorem consistent_discard (s : State α) :
    Consistent s.discard.1 ∧ Accounted s s.discard.1 s.discard.2 := by
  refine ⟨⟨fun i a b _ ha ↦ by simp [State.discard] at ha, List.nodup_nil, fun h hh ↦ absurd hh List.not_mem_nil,
    fun h hh ↦ absurd hh List.not_mem_nil⟩, ?_, le_rfl, fun h hh ↦ absurd hh List.not_mem_nil, List.nodup_nil⟩
  simp [State.discard, Effect.none]

/-- What a restore publishes fits together. -/
theorem Consistent.published {wallTime : ℚ} {saved : Snapshot α} {hs : List (Held α)}
    (h : s.rebuilt wallTime saved = some hs) : Consistent (s.published hs) ∧
      Accounted s (s.published hs) { Effect.none with accepted := hs, dropped := s.holding } := by
  obtain ⟨hheap, hnumbers, htickets⟩ := rebuilt_spec h
  have hissued : ∀ x ∈ hs, s.tickets ≤ x.ticket ∧ x.ticket < s.tickets + hs.length := by
    intro x hx
    have hmem := htickets.subset (List.mem_map_of_mem hx)
    rw [List.mem_range'_1] at hmem
    exact hmem
  refine ⟨⟨hheap, hnumbers.nodup_iff.mpr List.nodup_range, fun x hx ↦ ?_, fun x hx ↦ (hissued x hx).2⟩,
    ?_, Nat.le_add_right _ _, hissued, htickets.nodup_iff.mpr List.nodup_range'⟩
  · exact List.mem_range.mp (hnumbers.subset (List.mem_map_of_mem hx))
  · exact List.Perm.refl _

theorem Consistent.read (hs : Consistent s) {now : ℚ} (h : s.read now = some t) :
    Consistent t ∧ s.clock ≤ now ∧ t = { s with clock := now } := by
  unfold State.read at h
  split_ifs at h with hle
  obtain rfl := Option.some.inj h
  exact ⟨⟨hs.heap, hs.numbers, hs.fresh, hs.issued⟩, hle, rfl⟩

/-- **A call** keeps the invariant, and accounts for all entries. -/
theorem Consistent.call (hs : Consistent s) {a : Call α} (h : c.call s a = some (t, e)) :
    Consistent t ∧ Accounted s t e := by
  rcases a with ⟨now, item, priority, delay, taken⟩ | ⟨now, taken⟩ | cleared | - | ⟨now, wallTime, saved⟩
  · obtain ⟨s', hread, heq⟩ := Option.map_eq_some_iff.mp h
    obtain ⟨hs', -, rfl⟩ := hs.read hread
    obtain ⟨ht, haccounted⟩ := hs'.push c item priority delay taken
    rw [heq] at ht haccounted
    exact ⟨ht, haccounted.split, haccounted.tickets, haccounted.issued, haccounted.distinct⟩
  · obtain ⟨s', hread, heq⟩ := Option.map_eq_some_iff.mp h
    obtain ⟨hs', -, rfl⟩ := hs.read hread
    obtain ⟨rfl, rfl⟩ := Prod.mk.inj heq
    obtain ⟨ht, he, k, hk⟩ := hs'.drain (t := (State.drain _ taken).1) (e := (State.drain _ taken).2.1) rfl
    refine ⟨ht, ?_⟩
    rw [he]
    refine ⟨?_, hk.frame.2.2.ge, fun x hx ↦ absurd hx List.not_mem_nil, List.nodup_nil⟩
    have hsplit := (hk.left.append_left (State.due { s with clock := now } |>.take k)).symm
    rw [← List.append_assoc, List.take_append_drop, ← hk.released] at hsplit
    simp only [List.append_nil]
    refine List.Perm.trans ?_ hsplit
    refine List.Perm.trans ?_ ((Heapq.sorted_perm Held.key _).append_right _).symm
    refine (List.filter_append_perm (fun x : Held α ↦ x.readyAt ≤ now) s.holding).symm.trans ?_
    refine List.Perm.append_left _ (List.Perm.of_eq (List.filter_congr fun x _ ↦ ?_))
    simp [← not_le]
  · obtain heq := Option.some.inj h
    rcases cleared with - | -
    · rw [if_neg Bool.false_ne_true, Prod.mk.injEq] at heq
      obtain ⟨rfl, rfl⟩ := heq
      exact ⟨hs, .none rfl rfl []⟩
    · rw [if_pos rfl] at heq
      have hdiscard := consistent_discard s
      rw [heq] at hdiscard
      exact hdiscard
  · have hdiscard := consistent_discard s
    rw [Option.some.inj h] at hdiscard
    exact hdiscard
  · obtain ⟨s', hread, heq⟩ := Option.map_eq_some_iff.mp h
    obtain ⟨hs', -, rfl⟩ := hs.read hread
    unfold State.restore at heq
    rcases hrebuilt : saved.bind (State.rebuilt { s with clock := now } wallTime) with - | rebuilt
    · rw [hrebuilt] at heq
      obtain ⟨rfl, rfl⟩ := Prod.mk.inj heq
      refine ⟨hs', Accounted.none ?_ ?_ []⟩ <;> rfl
    · rw [hrebuilt] at heq
      obtain ⟨rfl, rfl⟩ := Prod.mk.inj heq
      obtain ⟨saved, -, hsome⟩ := Option.bind_eq_some_iff.mp hrebuilt
      obtain ⟨ht, haccounted⟩ := Consistent.published hsome
      exact ⟨ht, haccounted.split, haccounted.tickets, haccounted.issued, haccounted.distinct⟩

variable {start : ℚ}

theorem Consistent.initial (c : Config) (start : ℚ) : Consistent ((machine c start).init : State α) :=
  ⟨fun i a b _ ha ↦ by simp [machine] at ha, List.nodup_nil, fun h hh ↦ absurd hh List.not_mem_nil,
    fun h hh ↦ absurd hh List.not_mem_nil⟩

theorem effects_cons {a : Call α} {as : List (Call α)} (h : c.call s a = some (u, e)) :
    c.effects s (a :: as) = e :: c.effects u as := by
  rw [Config.effects, h]

/-- **A run** accounts for all entries. -/
theorem Consistent.run (hs : Consistent s) {as : List (Call α)} (h : (machine c start).run s as = some t) :
    Consistent t ∧ Accounted s t (total (c.effects s as)) := by
  induction as generalizing s with
  | nil =>
    obtain rfl : s = t := by simpa using h
    exact ⟨hs, .none rfl rfl []⟩
  | cons a as ih =>
    obtain ⟨u, hu, hrest⟩ := Option.bind_eq_some_iff.mp h
    obtain ⟨⟨u, e⟩, hcall, rfl⟩ := Option.map_eq_some_iff.mp hu
    obtain ⟨hcu, hstep⟩ := hs.call hcall
    obtain ⟨hct, hrun⟩ := ih hcu hrest
    rw [effects_cons hcall]
    exact ⟨hct, hstep.append hrun⟩

theorem Consistent.of_reachable (h : (machine c start).Reachable s) : Consistent s := by
  obtain ⟨as, hrun⟩ := h
  exact ((Consistent.initial c start).run hrun).1

/-- What a run has done with the entries it accepted. -/
structure Delivered (t : State α) (e : Effect α) : Prop where
  /-- They are told apart. -/
  distinct : (e.accepted.map Held.ticket).Nodup
  /-- Nothing else is released, thrown away or held. -/
  split : e.accepted.Perm (e.released ++ e.dropped ++ t.holding)
  /-- Nothing is released twice. -/
  once : (e.released.map Held.ticket).Nodup
  /-- What was not thrown away is released or held, and not both. -/
  kept : ∀ h ∈ e.accepted, h ∉ e.dropped → (h ∈ e.released ∧ h ∉ t.holding) ∨ (h ∉ e.released ∧ h ∈ t.holding)

theorem Accounted.delivered (h : Accounted s t e) (hs : s.holding = []) : Delivered t e := by
  have hsplit := h.split
  rw [hs, List.nil_append] at hsplit
  have hnodup := ((hsplit.map Held.ticket).nodup_iff.mp h.distinct)
  refine ⟨h.distinct, hsplit, ?_, fun x hx hdropped ↦ ?_⟩
  · rw [List.map_append, List.map_append] at hnodup
    exact hnodup.of_append_left.of_append_left
  · have hdisjoint := List.disjoint_of_nodup_append (hnodup.of_map _)
    rcases List.mem_append.mp (hsplit.subset hx) with hout | hheld
    · have hreleased := (List.mem_append.mp hout).resolve_right hdropped
      exact .inl ⟨hreleased, fun hheld ↦ hdisjoint hout hheld⟩
    · exact .inr ⟨fun hreleased ↦ hdisjoint (List.mem_append_left _ hreleased) hheld, hheld⟩

/-- **The delay strategy** hands over, in each drain, the due entries in order, or the first of them up to a
push that raises; the others stay. Over every run each accepted entry is handed over once at most, and it is
held until then, unless it is thrown away by a clear, a close or a restore. -/
theorem delay_drain (c : Config) (start : ℚ) :
    (∀ (s s' t : State α) (now : ℚ) (taken : ℕ → Bool) (e : Effect α) (completed : Bool),
      (machine c start).Reachable s → s.read now = some s' → s'.drain taken = (t, e, completed) →
        ∃ k, Drained s' t taken e.released completed k) ∧
    ∀ (as : List (Call α)) (t : State α), (machine c start).run (machine c start).init as = some t →
      Delivered t (total (c.effects (machine c start).init as)) := by
  constructor
  · intro s s' t now taken e completed hs hread hdrain
    obtain ⟨hs', -⟩ := (Consistent.of_reachable hs).read hread
    exact (hs'.drain hdrain).2.2
  · intro as t hrun
    exact ((Consistent.initial c start).run hrun).2.delivered rfl

/-- No delay unless a push says so. -/
def immediate : Config := ⟨0, le_rfl⟩

/-- Pushes with delays, one past the heap, and a drain whose second push raises. -/
def interruption : List (Call ℕ) :=
  [.push 0 7 (some 0) (some 3) true, .push 0 8 (some 1) (some 1) true, .push 1 9 (some 0) (some 0) true,
    .push 1 10 (some 0) (some 2) true, .drain 4 fun n ↦ n ≠ 1]

theorem isSome_interruption :
    ((machine immediate 0).run (machine immediate 0).init interruption).isSome = true := by decide +kernel

/-- The state after it. -/
def interrupted : State ℕ := Option.get _ isSome_interruption

theorem delay_drain_interrupted :
    (total (immediate.effects (machine immediate 0).init interruption)).released.map Held.item = [8] ∧
      interrupted.due.map Held.item = [7, 10] ∧
      Delivered interrupted (total (immediate.effects (machine immediate 0).init interruption)) ∧
      ∃ k, Drained interrupted (interrupted.drain fun _ ↦ true).1 (fun _ ↦ true)
        (interrupted.drain fun _ ↦ true).2.1.released (interrupted.drain fun _ ↦ true).2.2 k := by
  have hrun : (machine immediate 0).run (machine immediate 0).init interruption = some interrupted :=
    (Option.some_get isSome_interruption).symm
  have hread : interrupted.read 4 = some interrupted := if_pos (by decide +kernel)
  obtain ⟨hdrain, hrest⟩ := delay_drain (α := ℕ) immediate 0
  refine ⟨?_, ?_, hrest interruption interrupted hrun, ?_⟩
  · decide +kernel
  · decide +kernel
  · exact hdrain interrupted interrupted _ 4 _ _ _ ⟨interruption, hrun⟩ hread rfl

end Accounts

end Delay

end ScrapyExtension
