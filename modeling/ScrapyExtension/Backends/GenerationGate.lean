import ScrapyExtension.Machine.Basic
import ScrapyExtension.Machine.Threads
import Mathlib.Tactic

/-!
# Generation leases

A backend client is used below a lease of its generation. A disconnect retires the generation, which
stops admission, and drains it: the finalizer that closes the client runs once the last lease is gone.
A drain from inside a leased operation cannot wait for its own lease; it leaves the finalizer on the
record, and the last release runs it.

## Steps

A section under `condition` is one step. The wait of a drain gives the lock up, so that a drain that
may go on is one step, whatever has happened since it was called. A finalizer runs without the lock:
its start and its end are steps, and the gate may be used in between, from its own thread as well.

Records are numbered by their generation. A drain is called with what a retirement has returned.
-/

namespace ScrapyExtension

namespace GenerationGate

/-- `GenerationRecord` -/
structure Record where
  /-- `accepting` -/
  accepting : Bool
  /-- `active_leases` -/
  activeLeases : ℕ
  /-- `active_threads` -/
  activeThreads : ℕ → ℕ
  /-- `deferred_finalizers`, as their number -/
  deferredFinalizers : ℕ
  /-- `finalizer_registered` -/
  finalizerRegistered : Bool
  /-- A drain was called with a finalizer. -/
  requested : Bool
  /-- How often a finalizer was called. -/
  runs : ℕ

/-- A new record. -/
def Record.fresh : Record := ⟨true, 0, fun _ ↦ 0, 0, false, false, 0⟩

/-- Where a call is. -/
inductive Stage
  /-- In the body of `lease`. -/
  | leased (k : ℕ)
  /-- `drain` waits until only the leases of its own thread are left. -/
  | draining (k owned : ℕ) (finalizer : Bool)
  /-- So many finalizers are to be run. -/
  | finalizing (k pending : ℕ)
  /-- A finalizer is out, and so many are left. -/
  | running (k pending : ℕ)
  | over
deriving DecidableEq

namespace Stage

/-- A lease of the record is active. -/
def holds (k : ℕ) : Stage → Bool
  | leased j => j = k
  | _ => false

/-- A drain of the record waits, with a finalizer. -/
def asks (k : ℕ) : Stage → Bool
  | draining j _ finalizer => j = k && finalizer
  | _ => false

/-- The finalizers that the call is yet to run. -/
def pending (k : ℕ) : Stage → ℕ
  | finalizing j n | running j n => if j = k then n else 0
  | _ => 0

end Stage

/-- A call of `lease` or `drain`. -/
structure Call where
  thread : ℕ
  stage : Stage
deriving DecidableEq

/-- The gate. -/
structure State where
  /-- `_next_generation` -/
  nextGeneration : ℕ
  /-- `_current` -/
  current : Option ℕ
  /-- All records, by their generation. -/
  records : ℕ → Record
  calls : List Call

/-- What can happen. -/
inductive Label
  | publish
  | retire
  | lease (thread : ℕ)
  | drain (thread k : ℕ) (finalizer : Bool)
  /-- A call goes on. -/
  | act (n : ℕ)
deriving DecidableEq

namespace State

def new : State := ⟨0, none, fun _ ↦ .fresh, []⟩

/-- A change to a record. -/
def modify (s : State) (k : ℕ) (f : Record → Record) : State :=
  { s with records := Function.update s.records k (f (s.records k)) }

/-- A call goes to another stage. -/
def goto (s : State) (n : ℕ) (c : Call) (stage : Stage) : State :=
  { s with calls := s.calls.set n { c with stage } }

/-- `publish` -/
def publish (s : State) : State :=
  if s.current.any fun k ↦ (s.records k).accepting then s
  else
    { s with
      nextGeneration := s.nextGeneration + 1
      current := some (s.nextGeneration + 1)
      records := Function.update s.records (s.nextGeneration + 1) .fresh }

/-- `retire` -/
def retire (s : State) : State :=
  match s.current with
  | none => s
  | some k => { s.modify k fun r ↦ { r with accepting := false } with current := none }

/-- The admission of `lease`. -/
def lease (s : State) (thread : ℕ) : Option State :=
  s.current.bind fun k ↦
    if (s.records k).accepting then
      some { s.modify k fun r ↦
          { r with
            activeLeases := r.activeLeases + 1
            activeThreads := Function.update r.activeThreads thread (r.activeThreads thread + 1) } with
        calls := s.calls ++ [⟨thread, .leased k⟩] }
    else none

/-- The end of `lease`. The last one takes the finalizers along. -/
def release (s : State) (n : ℕ) (c : Call) (k : ℕ) : State :=
  let r := s.records k
  let r := { r with
    activeLeases := r.activeLeases - 1
    activeThreads := Function.update r.activeThreads c.thread (r.activeThreads c.thread - 1) }
  if r.activeLeases = 0 then
    (s.modify k fun _ ↦ { r with deferredFinalizers := 0 }).goto n c
      (.finalizing k r.deferredFinalizers)
  else (s.modify k fun _ ↦ r).goto n c .over

/-- The first section of `drain`, up to its wait. -/
def drain (s : State) (thread k : ℕ) (finalizer : Bool) : State :=
  { s.modify k fun r ↦ { r with requested := r.requested || finalizer } with
    calls := s.calls ++ [⟨thread, .draining k ((s.records k).activeThreads thread) finalizer⟩] }

/-- The end of the wait. A record has one finalizer, whoever comes first. -/
def register (s : State) (n : ℕ) (c : Call) (k : ℕ) (finalizer : Bool) : State :=
  if finalizer ∧ ¬ (s.records k).finalizerRegistered then
    if (s.records k).activeLeases = 0 then
      (s.modify k fun r ↦ { r with finalizerRegistered := true }).goto n c (.finalizing k 1)
    else
      (s.modify k fun r ↦ { r with
        finalizerRegistered := true, deferredFinalizers := r.deferredFinalizers + 1 }).goto n c .over
  else s.goto n c .over

/-- A call goes on. -/
def act (s : State) (n : ℕ) (c : Call) : Option State :=
  match c.stage with
  | .leased k => some (s.release n c k)
  | .draining k owned finalizer =>
    if (s.records k).activeLeases ≤ owned then some (s.register n c k finalizer) else none
  | .finalizing _ 0 => some (s.goto n c .over)
  | .finalizing k (p + 1) =>
    some ((s.modify k fun r ↦ { r with runs := r.runs + 1 }).goto n c (.running k p))
  | .running k p => some (s.goto n c (.finalizing k p))
  | .over => none

/-- One step. -/
def step (s : State) : Label → Option State
  | .publish => some s.publish
  | .retire => some s.retire
  | .lease thread => s.lease thread
  | .drain thread k finalizer =>
    if (s.records k).accepting then none else some (s.drain thread k finalizer)
  | .act n => s.calls[n]?.bind (s.act n)

end State

/-- The gate as a machine. -/
def machine : Machine State Label where
  init := State.new
  step := State.step

/-! ## What holds of a record -/

namespace State

/-- The leases of a record are counted, and its finalizer is in one place: yet to be registered, on the
record, with the call that runs it, or called. -/
structure Kept (s : State) (k : ℕ) : Prop where
  leases : (s.records k).activeLeases = s.calls.countP (·.stage.holds k)
  retired : (s.records k).finalizerRegistered = true ∨ 0 < s.calls.countP (·.stage.asks k) →
    (s.records k).accepting = false
  ledger : (s.records k).finalizerRegistered.toNat = (s.records k).runs +
    (s.records k).deferredFinalizers + (s.calls.map (·.stage.pending k)).sum
  deferred : 0 < (s.records k).deferredFinalizers → 0 < (s.records k).activeLeases
  quiet : 0 < (s.records k).runs + (s.calls.map (·.stage.pending k)).sum →
    (s.records k).activeLeases = 0
  asked : (s.records k).requested = true → (s.records k).finalizerRegistered = true ∨
    0 < s.calls.countP (·.stage.asks k)

/-- What holds of the gate. -/
structure Inv (s : State) : Prop where
  current : ∀ k, s.current = some k → (s.records k).accepting = true ∧ k ≤ s.nextGeneration
  unpublished : ∀ k, s.nextGeneration < k → s.records k = .fresh
  running : ∀ c ∈ s.calls, ∀ k p, c.stage = .running k p → 0 < (s.records k).runs
  record : ∀ k, s.Kept k

variable {s t : State} {n k : ℕ} {c d : Call}

theorem Inv.new : (new).Inv where
  current := nofun
  unpublished _ _ := rfl
  running _ hc := absurd hc List.not_mem_nil
  record _ := ⟨rfl, nofun, rfl, nofun, nofun, nofun⟩

/-- A call goes on, and the record with it. -/
theorem Kept.update (h : s.Kept k) (hn : s.calls[n]? = some c) (hcalls : t.calls = s.calls.set n d)
    (haccepting : (t.records k).accepting = (s.records k).accepting)
    (hrequested : (t.records k).requested = (s.records k).requested)
    (hleases : (t.records k).activeLeases + (c.stage.holds k).toNat =
      (s.records k).activeLeases + (d.stage.holds k).toNat)
    (hledger : (t.records k).finalizerRegistered.toNat + (s.records k).runs +
        (s.records k).deferredFinalizers + c.stage.pending k =
      (s.records k).finalizerRegistered.toNat + (t.records k).runs +
        (t.records k).deferredFinalizers + d.stage.pending k)
    (hdeferred : 0 < (t.records k).deferredFinalizers → 0 < (t.records k).activeLeases)
    (hle : (t.records k).activeLeases ≤ (s.records k).activeLeases)
    (hquiet : (s.records k).runs + c.stage.pending k < (t.records k).runs + d.stage.pending k →
      (t.records k).activeLeases = 0)
    (hregistered : (t.records k).finalizerRegistered = false →
      (s.records k).finalizerRegistered = false)
    (hasks : d.stage.asks k → c.stage.asks k)
    (hregisters : c.stage.asks k → d.stage.asks k = false → (t.records k).finalizerRegistered = true)
    (hregisters' : (t.records k).finalizerRegistered = true →
      (s.records k).finalizerRegistered = true ∨ c.stage.asks k = true) : t.Kept k := by
  have hholds := List.countP_set_add (fun b : Call ↦ b.stage.holds k) (b := d) hn
  have hpending := List.sum_map_set_add (fun b : Call ↦ b.stage.pending k) (b := d) hn
  have hcount := List.countP_set_add (fun b : Call ↦ b.stage.asks k) (b := d) hn
  have hc := List.toNat_le_countP (fun b : Call ↦ b.stage.asks k) hn
  have hle' : (d.stage.asks k).toNat ≤ (c.stage.asks k).toNat := by
    cases hd : d.stage.asks k with
    | false => exact Nat.zero_le _
    | true => rw [hasks hd]
  rw [← hcalls] at hholds hpending hcount
  refine ⟨?_, ?_, ?_, hdeferred, ?_, ?_⟩
  · have := h.leases
    omega
  · rw [haccepting]
    rintro (hr | ha)
    · refine h.retired ((hregisters' hr).imp_right fun hask ↦ ?_)
      rw [hask] at hc
      simpa using hc
    · exact h.retired (.inr (by omega))
  · have := h.ledger
    omega
  · intro hpos
    by_cases hnew : (s.records k).runs + c.stage.pending k < (t.records k).runs + d.stage.pending k
    · exact hquiet hnew
    · have := h.quiet (by omega)
      omega
  · rw [hrequested]
    intro hreq
    cases ht : (t.records k).finalizerRegistered with
    | true => exact .inl rfl
    | false =>
      refine .inr ?_
      have hpos := (h.asked hreq).resolve_left (by rw [hregistered ht]; simp)
      cases hd : d.stage.asks k with
      | true =>
        have hmem : d ∈ t.calls := hcalls ▸ List.mem_set (List.getElem?_eq_some_iff.1 hn).1 d
        exact List.countP_pos_iff.2 ⟨d, hmem, hd⟩
      | false =>
        -- the call does not stop asking without a registration
        have hc' : c.stage.asks k = false := by
          by_contra hask
          rw [hregisters (by simpa using hask) hd] at ht
          cases ht
        rw [hd, hc'] at hcount
        omega

/-- A call of another record goes on. -/
theorem Kept.aside (h : s.Kept k) (hn : s.calls[n]? = some c) (hcalls : t.calls = s.calls.set n d)
    (hrecord : t.records k = s.records k) (hholds : d.stage.holds k = c.stage.holds k)
    (hasks : d.stage.asks k = c.stage.asks k) (hpending : d.stage.pending k = c.stage.pending k) :
    t.Kept k := by
  refine h.update hn hcalls (by rw [hrecord]) (by rw [hrecord]) (by rw [hrecord, hholds])
    (by rw [hrecord, hpending]) ?_ (by rw [hrecord]) ?_ (by rw [hrecord]; exact id)
    (by rw [hasks]; exact id) ?_ (by rw [hrecord]; exact .inl)
  · rw [hrecord]
    exact h.deferred
  · rw [hrecord, hpending]
    exact fun hlt ↦ absurd hlt (lt_irrefl _)
  · intro hc hd
    rw [hasks, hc] at hd
    cases hd

@[simp] theorem modify_records_self (s : State) (k : ℕ) (f : Record → Record) :
    (s.modify k f).records k = f (s.records k) := Function.update_self _ _ _

theorem modify_records_of_ne {j : ℕ} (h : k ≠ j) (s : State) (f : Record → Record) :
    (s.modify j f).records k = s.records k := Function.update_of_ne h _ _

theorem modify_goto_of_ne {j : ℕ} (h : k ≠ j) (s : State) (f : Record → Record) (stage : Stage) :
    ((s.modify j f).goto n c stage).records k = s.records k := modify_records_of_ne h s f

@[simp] theorem goto_records (s : State) (n : ℕ) (c : Call) (stage : Stage) :
    (s.goto n c stage).records = s.records := rfl

theorem Kept.release {j : ℕ} (h : s.Kept k) (hn : s.calls[n]? = some c) (hc : c.stage = .leased j) :
    (s.release n c j).Kept k := by
  by_cases hk : k = j
  · subst hk
    have hpos := List.toNat_le_countP (fun b : Call ↦ b.stage.holds k) hn
    rw [← h.leases, hc] at hpos
    simp only [Stage.holds, decide_true, Bool.toNat_true] at hpos
    rw [State.release]
    dsimp only
    split_ifs with hzero
    · refine h.update hn rfl ?_ ?_ ?_ ?_ ?_ ?_ ?_ ?_ ?_ ?_ ?_ <;>
        simp [hc, Stage.holds, Stage.pending, Stage.asks] <;> omega
    · refine h.update hn rfl ?_ ?_ ?_ ?_ ?_ ?_ ?_ ?_ ?_ ?_ ?_ <;>
        simp [hc, Stage.holds, Stage.pending, Stage.asks] <;> omega
  · have hj : ¬ j = k := fun heq ↦ hk heq.symm
    rw [State.release]
    dsimp only
    split_ifs
    · exact h.aside hn rfl (modify_goto_of_ne hk s _ _) (by simp [hc, Stage.holds, hj])
        (by simp [hc, Stage.asks]) (by simp [hc, Stage.pending, hj])
    · exact h.aside hn rfl (modify_goto_of_ne hk s _ _) (by simp [hc, Stage.holds, hj])
        (by simp [hc, Stage.asks]) (by simp [hc, Stage.pending])

theorem Kept.register {j owned : ℕ} {finalizer : Bool} (h : s.Kept k) (hn : s.calls[n]? = some c)
    (hc : c.stage = .draining j owned finalizer) : (s.register n c j finalizer).Kept k := by
  by_cases hk : k = j
  · subst hk
    have hdeferred := h.deferred
    have hledger := h.ledger
    rw [State.register]
    by_cases hfirst : finalizer = true ∧ ¬ (s.records k).finalizerRegistered = true
    · rw [if_pos hfirst]
      obtain ⟨rfl, hregistered⟩ := hfirst
      have hfree : (s.records k).finalizerRegistered = false := by simpa using hregistered
      split_ifs with hzero
      · refine h.update hn rfl ?_ ?_ ?_ ?_ ?_ ?_ ?_ ?_ ?_ ?_ ?_ <;>
          simp [hc, Stage.holds, Stage.pending, Stage.asks, hfree, hzero] <;> omega
      · refine h.update hn rfl ?_ ?_ ?_ ?_ ?_ ?_ ?_ ?_ ?_ ?_ ?_ <;>
          simp [hc, Stage.holds, Stage.pending, Stage.asks, hfree] <;> omega
    · rw [if_neg hfirst]
      -- there is no finalizer, or another one came first
      have hgone : finalizer = true → (s.records k).finalizerRegistered = true := by
        intro hf
        by_contra hr
        exact hfirst ⟨hf, hr⟩
      refine h.update hn rfl ?_ ?_ ?_ ?_ ?_ ?_ ?_ ?_ ?_ ?_ ?_ <;>
        simp [hc, Stage.holds, Stage.pending, Stage.asks] <;> tauto
  · have hj : ¬ j = k := fun heq ↦ hk heq.symm
    rw [State.register]
    split_ifs
    · exact h.aside hn rfl (modify_goto_of_ne hk s _ _) (by simp [hc, Stage.holds])
        (by simp [hc, Stage.asks, hj]) (by simp [hc, Stage.pending, hj])
    · exact h.aside hn rfl (modify_goto_of_ne hk s _ _) (by simp [hc, Stage.holds])
        (by simp [hc, Stage.asks, hj]) (by simp [hc, Stage.pending])
    · exact h.aside hn rfl rfl (by simp [hc, Stage.holds]) (by simp [hc, Stage.asks, hj])
        (by simp [hc, Stage.pending])

/-- A finalizer is called. -/
theorem Kept.run {j p : ℕ} (h : s.Kept k) (hn : s.calls[n]? = some c)
    (hc : c.stage = .finalizing j (p + 1)) :
    ((s.modify j fun r ↦ { r with runs := r.runs + 1 }).goto n c (.running j p)).Kept k := by
  by_cases hk : k = j
  · subst hk
    have hdeferred := h.deferred
    refine h.update hn rfl ?_ ?_ ?_ ?_ ?_ ?_ ?_ ?_ ?_ ?_ ?_ <;>
      simp [hc, Stage.holds, Stage.pending, Stage.asks] <;> omega
  · have hj : ¬ j = k := fun heq ↦ hk heq.symm
    exact h.aside hn rfl (modify_goto_of_ne hk s _ _) (by simp [hc, Stage.holds])
      (by simp [hc, Stage.asks]) (by simp [hc, Stage.pending, hj])

theorem Kept.act (h : s.Kept k) (hn : s.calls[n]? = some c) (ht : s.act n c = some t) : t.Kept k := by
  rw [State.act] at ht
  split at ht
  · next hc =>
    obtain ⟨⟩ := ht
    exact h.release hn hc
  · next hc =>
    obtain ⟨-, ⟨⟩⟩ := Option.ite_none_right_eq_some.1 ht
    exact h.register hn hc
  · next hc =>
    obtain ⟨⟩ := ht
    exact h.aside hn rfl rfl (by simp [hc, Stage.holds]) (by simp [hc, Stage.asks])
      (by simp [hc, Stage.pending])
  · next hc =>
    obtain ⟨⟩ := ht
    exact h.run hn hc
  · next hc =>
    obtain ⟨⟩ := ht
    exact h.aside hn rfl rfl (by simp [hc, Stage.holds]) (by simp [hc, Stage.asks])
      (by simp [hc, Stage.pending])
  · cases ht

/-- A new call. A lease is only granted while the record accepts, and a drain comes after that. -/
theorem Kept.append (h : s.Kept k) (hcalls : t.calls = s.calls ++ [d])
    (haccepting : (t.records k).accepting = (s.records k).accepting)
    (hregistered : (t.records k).finalizerRegistered = (s.records k).finalizerRegistered)
    (hruns : (t.records k).runs = (s.records k).runs)
    (hdeferred : (t.records k).deferredFinalizers = (s.records k).deferredFinalizers)
    (hleases : (t.records k).activeLeases =
      (s.records k).activeLeases + (d.stage.holds k).toNat)
    (hpending : d.stage.pending k = 0)
    (hholds : d.stage.holds k → (s.records k).accepting = true)
    (hasks : d.stage.asks k → (s.records k).accepting = false)
    (hrequested : (t.records k).requested = true →
      (s.records k).requested = true ∨ d.stage.asks k = true) : t.Kept k := by
  have hcount : t.calls.countP (·.stage.holds k) =
      s.calls.countP (·.stage.holds k) + (d.stage.holds k).toNat := by
    rw [hcalls]
    exact List.countP_concat _ _ _
  have hask : t.calls.countP (·.stage.asks k) =
      s.calls.countP (·.stage.asks k) + (d.stage.asks k).toNat := by
    rw [hcalls]
    exact List.countP_concat _ _ _
  have hsum : (t.calls.map (·.stage.pending k)).sum = (s.calls.map (·.stage.pending k)).sum := by
    simp [hcalls, hpending]
  have hledger := h.ledger
  refine ⟨?_, ?_, ?_, ?_, ?_, ?_⟩
  · rw [hleases, hcount, h.leases]
  · rw [haccepting, hregistered, hask]
    rintro (hr | ha)
    · exact h.retired (.inl hr)
    · cases hd : d.stage.asks k with
      | true => exact hasks hd
      | false =>
        rw [hd] at ha
        exact h.retired (.inr ha)
  · rw [hregistered, hruns, hdeferred, hsum]
    exact hledger
  · rw [hdeferred, hleases]
    intro hpos
    have := h.deferred hpos
    omega
  · rw [hruns, hsum, hleases]
    intro hpos
    -- a record that still accepts has no finalizer
    have hd : d.stage.holds k = false := by
      by_contra hd
      have hacc := hholds (by simpa using hd)
      have hr : (s.records k).finalizerRegistered = true := by
        cases hr : (s.records k).finalizerRegistered with
        | true => rfl
        | false =>
          rw [hr] at hledger
          simp at hledger
          omega
      rw [h.retired (.inl hr)] at hacc
      cases hacc
    rw [hd, h.quiet hpos]
    rfl
  · rw [hregistered, hask]
    intro hreq
    rcases hrequested hreq with hs | hd
    · rcases h.asked hs with hr | hpos
      · exact .inl hr
      · exact .inr (by omega)
    · rw [hd]
      exact .inr (by simp)

/-- What a call that goes on can do to the records. -/
structure Advances (s t : State) (n : ℕ) (c : Call) : Prop where
  nextGeneration : t.nextGeneration = s.nextGeneration
  current : t.current = s.current
  accepting : ∀ k, (t.records k).accepting = (s.records k).accepting
  leases : ∀ k, (t.records k).activeLeases ≤ (s.records k).activeLeases
  runs : ∀ k, (s.records k).runs ≤ (t.records k).runs
  records : ∀ k, t.records k = s.records k ∨ c.stage.holds k = true ∨ c.stage.asks k = true ∨
    0 < c.stage.pending k
  calls : ∃ stage, t.calls = s.calls.set n { c with stage } ∧
    ∀ k p, stage = .running k p → 0 < (t.records k).runs

theorem advances_goto {stage : Stage} (h : ∀ k p, stage ≠ .running k p) :
    s.Advances (s.goto n c stage) n c :=
  ⟨rfl, rfl, fun _ ↦ rfl, fun _ ↦ le_rfl, fun _ ↦ le_rfl, fun _ ↦ .inl rfl, stage, rfl,
    fun k p heq ↦ absurd heq (h k p)⟩

theorem advances_modify {j : ℕ} {f : Record → Record} {stage : Stage}
    (haccepting : (f (s.records j)).accepting = (s.records j).accepting)
    (hleases : (f (s.records j)).activeLeases ≤ (s.records j).activeLeases)
    (hruns : (s.records j).runs ≤ (f (s.records j)).runs)
    (hj : c.stage.holds j = true ∨ c.stage.asks j = true ∨ 0 < c.stage.pending j)
    (hstage : ∀ k p, stage = .running k p → k = j ∧ 0 < (f (s.records j)).runs) :
    s.Advances ((s.modify j f).goto n c stage) n c := by
  have hself : ((s.modify j f).goto n c stage).records j = f (s.records j) :=
    Function.update_self _ _ _
  refine ⟨rfl, rfl, fun k ↦ ?_, fun k ↦ ?_, fun k ↦ ?_, fun k ↦ ?_, stage, rfl, fun k p heq ↦ ?_⟩
  · by_cases hk : k = j
    · rw [hk, hself, haccepting]
    · rw [modify_goto_of_ne hk]
  · by_cases hk : k = j
    · rw [hk, hself]
      exact hleases
    · rw [modify_goto_of_ne hk]
  · by_cases hk : k = j
    · rw [hk, hself]
      exact hruns
    · rw [modify_goto_of_ne hk]
  · by_cases hk : k = j
    · rw [hk]
      exact .inr hj
    · exact .inl (modify_goto_of_ne hk _ _ _)
  · obtain ⟨rfl, hpos⟩ := hstage k p heq
    rw [hself]
    exact hpos

theorem advances_act (ht : s.act n c = some t) : s.Advances t n c := by
  rw [State.act] at ht
  split at ht
  · next k hc =>
    obtain ⟨⟩ := ht
    have hk : c.stage.holds k = true := by simp [hc, Stage.holds]
    rw [State.release]
    dsimp only
    split_ifs
    · exact advances_modify rfl (Nat.sub_le _ _) le_rfl (.inl hk) nofun
    · exact advances_modify rfl (Nat.sub_le _ _) le_rfl (.inl hk) nofun
  · next k _ finalizer hc =>
    obtain ⟨-, ⟨⟩⟩ := Option.ite_none_right_eq_some.1 ht
    rw [State.register]
    split_ifs with hfirst
    · exact advances_modify rfl le_rfl le_rfl (.inr (.inl (by simp [hc, Stage.asks, hfirst.1]))) nofun
    · exact advances_modify rfl le_rfl le_rfl (.inr (.inl (by simp [hc, Stage.asks, hfirst.1]))) nofun
    · exact advances_goto nofun
  · obtain ⟨⟩ := ht
    exact advances_goto nofun
  · next k p hc =>
    obtain ⟨⟩ := ht
    refine advances_modify rfl le_rfl (Nat.le_succ _) (.inr (.inr (by simp [hc, Stage.pending]))) ?_
    rintro _ _ ⟨⟩
    exact ⟨rfl, Nat.succ_pos _⟩
  · obtain ⟨⟩ := ht
    exact advances_goto nofun
  · cases ht

/-- No call is under way on a record that was not published. -/
theorem Kept.idle (h : s.Kept k) (hfresh : s.records k = .fresh) (hn : s.calls[n]? = some c) :
    c.stage.holds k = false ∧ c.stage.asks k = false ∧ c.stage.pending k = 0 := by
  have hholds := List.toNat_le_countP (fun b : Call ↦ b.stage.holds k) hn
  have hasks := List.toNat_le_countP (fun b : Call ↦ b.stage.asks k) hn
  have hpending := List.le_sum_map (fun b : Call ↦ b.stage.pending k) hn
  have hleases := h.leases
  have hledger := h.ledger
  have hretired := h.retired
  rw [hfresh] at hleases hledger hretired
  refine ⟨?_, ?_, ?_⟩
  · rw [← hleases] at hholds
    simpa [Record.fresh] using hholds
  · by_contra hask
    rw [Bool.not_eq_false] at hask
    rw [hask] at hasks
    exact absurd (hretired (.inr hasks)) (by simp [Record.fresh])
  · simp [Record.fresh] at hledger
    omega

theorem Inv.act (h : s.Inv) (hn : s.calls[n]? = some c) (ht : s.act n c = some t) : t.Inv := by
  have hadvances := advances_act ht
  refine ⟨fun k hk ↦ ?_, fun k hk ↦ ?_, ?_, fun k ↦ (h.record k).act hn ht⟩
  · rw [hadvances.accepting, hadvances.nextGeneration]
    exact h.current k (hadvances.current ▸ hk)
  · rw [hadvances.nextGeneration] at hk
    have hfresh := h.unpublished k hk
    obtain ⟨hholds, hasks, hpending⟩ := (h.record k).idle hfresh hn
    rcases hadvances.records k with hsame | hbusy | hbusy | hbusy
    · exact hsame.trans hfresh
    · rw [hholds] at hbusy
      cases hbusy
    · rw [hasks] at hbusy
      cases hbusy
    · omega
  · obtain ⟨stage, hcalls, hstage⟩ := hadvances.calls
    rw [hcalls]
    refine List.forall_mem_set (fun b hb k p hbp ↦ ?_) hstage
    exact (h.running b hb k p hbp).trans_le (hadvances.runs k)

theorem Inv.publish (h : s.Inv) : s.publish.Inv := by
  rw [State.publish]
  split_ifs
  · exact h
  · have hfresh := h.unpublished (s.nextGeneration + 1) (Nat.lt_succ_self _)
    have hrecords : Function.update s.records (s.nextGeneration + 1) .fresh = s.records := by
      rw [← hfresh, Function.update_eq_self]
    rw [hrecords]
    refine ⟨fun k hk ↦ ?_, fun k hk ↦ h.unpublished k (Nat.lt_of_succ_lt hk), h.running, fun k ↦ ?_⟩
    · obtain rfl := Option.some.inj hk
      exact ⟨by rw [hfresh]; rfl, le_rfl⟩
    · exact { h.record k with }

theorem Inv.retire (h : s.Inv) : s.retire.Inv := by
  unfold State.retire
  cases hcurrent : s.current with
  | none => exact h
  | some j =>
    obtain ⟨hacc, hle⟩ := h.current j hcurrent
    refine ⟨nofun, fun k hk ↦ ?_, fun c hc k p hp ↦ ?_, fun k ↦ ?_⟩
    · have hne : k ≠ j := by
        rintro rfl
        exact absurd hle (not_le.2 hk)
      dsimp only
      rw [modify_records_of_ne hne]
      exact h.unpublished k hk
    · dsimp only
      by_cases hk : k = j
      · rw [hk, modify_records_self]
        exact hk ▸ h.running c hc k p hp
      · rw [modify_records_of_ne hk]
        exact h.running c hc k p hp
    · by_cases hk : k = j
      · subst hk
        obtain ⟨hleases, -, hledger, hdeferred, hquiet, hasked⟩ := h.record k
        refine ⟨?_, ?_, ?_, ?_, ?_, ?_⟩ <;> dsimp only <;> rw [modify_records_self]
        · exact hleases
        · exact fun _ ↦ rfl
        · exact hledger
        · exact hdeferred
        · exact hquiet
        · exact hasked
      · obtain ⟨hleases, hretired, hledger, hdeferred, hquiet, hasked⟩ := h.record k
        refine ⟨?_, ?_, ?_, ?_, ?_, ?_⟩ <;> dsimp only <;> rw [modify_records_of_ne hk]
        · exact hleases
        · exact hretired
        · exact hledger
        · exact hdeferred
        · exact hquiet
        · exact hasked

theorem Inv.running_append {records : ℕ → Record} (h : s.Inv)
    (hd : ∀ k p, d.stage ≠ .running k p) (hruns : ∀ k, (records k).runs = (s.records k).runs) :
    ∀ c ∈ s.calls ++ [d], ∀ k p, c.stage = .running k p → 0 < (records k).runs := by
  intro c hc k p hp
  rw [hruns]
  rcases List.mem_append.1 hc with hc | hc
  · exact h.running c hc k p hp
  · rw [List.mem_singleton.1 hc] at hp
    exact absurd hp (hd k p)

theorem Inv.lease {thread : ℕ} (h : s.Inv) (ht : s.lease thread = some t) : t.Inv := by
  obtain ⟨j, hcurrent, hlease⟩ := Option.bind_eq_some_iff.1 ht
  obtain ⟨hacc, ⟨⟩⟩ := Option.ite_none_right_eq_some.1 hlease
  obtain ⟨-, hle⟩ := h.current j hcurrent
  refine ⟨fun k hk ↦ ?_, fun k hk ↦ ?_, ?_, fun k ↦ ?_⟩
  · obtain rfl : k = j := Option.some.inj (hk.symm.trans hcurrent)
    dsimp only
    rw [modify_records_self]
    exact ⟨hacc, hle⟩
  · have hne : k ≠ j := by
      rintro rfl
      exact absurd hle (not_le.2 hk)
    dsimp only
    rw [modify_records_of_ne hne]
    exact h.unpublished k hk
  · dsimp only
    refine h.running_append (fun _ _ ↦ nofun) fun k ↦ ?_
    by_cases hk : k = j
    · rw [hk, modify_records_self]
    · rw [modify_records_of_ne hk]
  · by_cases hk : k = j
    · subst hk
      refine (h.record k).append rfl ?_ ?_ ?_ ?_ ?_ ?_ ?_ ?_ ?_ <;>
        simp [Stage.holds, Stage.pending, Stage.asks, hacc]
    · have hj : ¬ j = k := fun heq ↦ hk heq.symm
      refine (h.record k).append rfl ?_ ?_ ?_ ?_ ?_ ?_ ?_ ?_ ?_ <;>
        simp [Stage.holds, Stage.pending, Stage.asks, hj, modify_records_of_ne hk]

theorem Inv.drain {thread j : ℕ} {finalizer : Bool} (h : s.Inv)
    (hretired : (s.records j).accepting = false) : (s.drain thread j finalizer).Inv := by
  refine ⟨fun k hk ↦ ?_, fun k hk ↦ ?_, ?_, fun k ↦ ?_⟩
  · have hne : k ≠ j := by
      rintro rfl
      rw [(h.current k hk).1] at hretired
      cases hretired
    rw [State.drain]
    dsimp only
    rw [modify_records_of_ne hne]
    exact h.current k hk
  · have hne : k ≠ j := by
      rintro rfl
      rw [h.unpublished k hk] at hretired
      cases hretired
    rw [State.drain]
    dsimp only
    rw [modify_records_of_ne hne]
    exact h.unpublished k hk
  · rw [State.drain]
    dsimp only
    refine h.running_append (fun _ _ ↦ nofun) fun k ↦ ?_
    by_cases hk : k = j
    · rw [hk, modify_records_self]
    · rw [modify_records_of_ne hk]
  · by_cases hk : k = j
    · subst hk
      refine (h.record k).append rfl ?_ ?_ ?_ ?_ ?_ ?_ ?_ ?_ ?_ <;>
        simp [State.drain, Stage.holds, Stage.pending, Stage.asks, hretired]
    · have hj : ¬ j = k := fun heq ↦ hk heq.symm
      refine (h.record k).append rfl ?_ ?_ ?_ ?_ ?_ ?_ ?_ ?_ ?_ <;>
        simp [State.drain, Stage.holds, Stage.pending, Stage.asks, hj, modify_records_of_ne hk]

theorem Inv.step {a : Label} (h : s.Inv) (ht : s.step a = some t) : t.Inv := by
  cases a with
  | publish =>
    obtain ⟨⟩ := ht
    exact h.publish
  | retire =>
    obtain ⟨⟩ := ht
    exact h.retire
  | lease thread => exact h.lease ht
  | drain thread k finalizer =>
    obtain ⟨hretired, ⟨⟩⟩ := Option.ite_none_left_eq_some.1 ht
    exact h.drain (by simpa using hretired)
  | act n =>
    obtain ⟨c, hn, hact⟩ := Option.bind_eq_some_iff.1 ht
    exact h.act hn hact

/-! ## The gate -/

/-- A retired record stays retired, and gets no lease. -/
theorem Inv.closed {a : Label} (h : s.Inv) (hretired : (s.records k).accepting = false)
    (ht : s.step a = some t) :
    (t.records k).accepting = false ∧ (t.records k).activeLeases ≤ (s.records k).activeLeases := by
  have hne : ∀ j, s.current = some j → k ≠ j := by
    rintro j hj rfl
    rw [(h.current k hj).1] at hretired
    cases hretired
  cases a with
  | publish =>
    obtain ⟨⟩ := ht
    rw [State.publish]
    split_ifs
    · exact ⟨hretired, le_rfl⟩
    · have hk : k ≠ s.nextGeneration + 1 := by
        rintro rfl
        rw [h.unpublished _ (Nat.lt_succ_self _)] at hretired
        cases hretired
      dsimp only
      rw [Function.update_of_ne hk]
      exact ⟨hretired, le_rfl⟩
  | retire =>
    obtain ⟨⟩ := ht
    unfold State.retire
    split
    · exact ⟨hretired, le_rfl⟩
    · next j hj =>
      dsimp only
      rw [modify_records_of_ne (hne j hj)]
      exact ⟨hretired, le_rfl⟩
  | lease thread =>
    obtain ⟨j, hj, hlease⟩ := Option.bind_eq_some_iff.1 ht
    obtain ⟨-, ⟨⟩⟩ := Option.ite_none_right_eq_some.1 hlease
    dsimp only
    rw [modify_records_of_ne (hne j hj)]
    exact ⟨hretired, le_rfl⟩
  | drain thread j finalizer =>
    obtain ⟨-, ⟨⟩⟩ := Option.ite_none_left_eq_some.1 ht
    rw [State.drain]
    dsimp only
    by_cases hk : k = j
    · subst hk
      rw [modify_records_self]
      exact ⟨hretired, le_rfl⟩
    · rw [modify_records_of_ne hk]
      exact ⟨hretired, le_rfl⟩
  | act n =>
    obtain ⟨c, -, hact⟩ := Option.bind_eq_some_iff.1 ht
    have hadvances := advances_act hact
    exact ⟨(hadvances.accepting k).trans hretired, hadvances.leases k⟩

/-- A call of the state is one step away from calling the finalizer. -/
theorem run_of_finalizing {p : ℕ} (hn : s.calls[n]? = some c) (hc : c.stage = .finalizing k (p + 1)) :
    ∃ t, s.step (.act n) = some t ∧ (t.records k).runs = (s.records k).runs + 1 := by
  refine ⟨(s.modify k fun r ↦ { r with runs := r.runs + 1 }).goto n c (.running k p), ?_, ?_⟩
  · rw [State.step, hn, Option.bind_some, State.act, hc]
  · rw [goto_records, modify_records_self]

theorem stage_of_asks (h : c.stage.asks k = true) : ∃ owned, c.stage = .draining k owned true := by
  cases hc : c.stage with
  | draining j owned finalizer =>
    rw [hc] at h
    obtain ⟨rfl, rfl⟩ : j = k ∧ finalizer = true := by simpa [Stage.asks] using h
    exact ⟨owned, rfl⟩
  | _ =>
    rw [hc] at h
    cases h

theorem stage_of_pending (h : 0 < c.stage.pending k) :
    ∃ p, c.stage = .finalizing k (p + 1) ∨ c.stage = .running k (p + 1) := by
  cases hc : c.stage with
  | finalizing j p =>
    rw [hc, Stage.pending] at h
    split_ifs at h with hj
    · exact ⟨p - 1, .inl (by rw [hj, Nat.sub_add_cancel h])⟩
    · cases h
  | running j p =>
    rw [hc, Stage.pending] at h
    split_ifs at h with hj
    · exact ⟨p - 1, .inr (by rw [hj, Nat.sub_add_cancel h])⟩
    · cases h
  | _ =>
    rw [hc] at h
    cases h

/-- **Progress.** Once a drain was called and the leases are gone, the finalizer was called, or two steps
of calls that are under way call it. -/
theorem Inv.finalized (h : s.Inv) (hrequested : (s.records k).requested = true)
    (hleases : (s.records k).activeLeases = 0) :
    ∃ labels : List Label, labels.length ≤ 2 ∧ (∀ a ∈ labels, ∃ n < s.calls.length, a = .act n) ∧
      ∃ t, machine.run s labels = some t ∧ (t.records k).runs = 1 := by
  have hkept := h.record k
  have hledger := hkept.ledger
  have hdeferred : (s.records k).deferredFinalizers = 0 := by
    by_contra hne
    have := hkept.deferred (Nat.pos_of_ne_zero hne)
    omega
  by_cases hruns : (s.records k).runs = 1
  · exact ⟨[], by simp, by simp, s, rfl, hruns⟩
  cases hregistered : (s.records k).finalizerRegistered with
  | true =>
    -- the finalizer is with a call
    rw [hregistered, Bool.toNat_true] at hledger
    obtain ⟨n, c, hn, hpos⟩ := List.exists_of_sum_map_pos (l := s.calls) (fun c ↦ c.stage.pending k)
      (by omega)
    obtain ⟨p, hc | hc⟩ := stage_of_pending hpos
    · obtain ⟨t, ht, htruns⟩ := run_of_finalizing hn hc
      refine ⟨[.act n], by simp, ?_, t, ?_, ?_⟩
      · simpa using (List.getElem?_eq_some_iff.1 hn).1
      · simp [machine, ht]
      · omega
    · -- a call that has one left has called one before
      have := h.running c (List.mem_of_getElem? hn) k _ hc
      omega
  | false =>
    have hasks := (hkept.asked hrequested).resolve_left (by rw [hregistered]; simp)
    obtain ⟨c, hmem, hc⟩ := List.countP_pos_iff.1 hasks
    obtain ⟨n, hn⟩ := List.mem_iff_getElem?.1 hmem
    obtain ⟨owned, hc⟩ := stage_of_asks hc
    have hlt := (List.getElem?_eq_some_iff.1 hn).1
    have hfirst : s.step (.act n) = some ((s.modify k fun r ↦
        { r with finalizerRegistered := true }).goto n c (.finalizing k 1)) := by
      rw [State.step, hn, Option.bind_some, State.act, hc]
      dsimp only
      rw [if_pos (by omega), State.register, if_pos (by simp [hregistered]), if_pos hleases]
    obtain ⟨t, ht, htruns⟩ := run_of_finalizing (s := (s.modify k fun r ↦
        { r with finalizerRegistered := true }).goto n c (.finalizing k 1))
      (List.getElem?_set_self hlt) rfl
    refine ⟨[.act n, .act n], by simp, ?_, t, ?_, ?_⟩
    · simpa using hlt
    · simp [machine, hfirst, ht]
    · rw [goto_records, modify_records_self] at htruns
      dsimp only at htruns
      rw [hregistered] at hledger
      simp at hledger
      omega

end State

theorem inv_of_reachable {s : State} (h : machine.Reachable s) : s.Inv :=
  h.invariant State.Inv.new fun _ _ _ hs ht ↦ hs.step ht

/-- What the gate guarantees. -/
structure State.Sound (s : State) : Prop where
  /-- No lease is granted on a retired record. -/
  closed : ∀ k, (s.records k).accepting = false → ∀ a t, s.step a = some t →
    (t.records k).accepting = false ∧ (t.records k).activeLeases ≤ (s.records k).activeLeases
  leases : ∀ k, (s.records k).activeLeases = s.calls.countP (·.stage.holds k)
  once : ∀ k, (s.records k).runs ≤ 1
  /-- A finalizer that is out, or was, has no lease beside it. -/
  exclusive : ∀ k, 0 < (s.records k).runs ∨ (∃ c ∈ s.calls, ∃ p, c.stage = .running k p) →
    ∀ c ∈ s.calls, c.stage.holds k = false
  finalized : ∀ k, (s.records k).requested = true → (s.records k).activeLeases = 0 →
    ∃ labels : List Label, labels.length ≤ 2 ∧ (∀ a ∈ labels, ∃ n < s.calls.length, a = .act n) ∧
      ∃ t, machine.run s labels = some t ∧ (t.records k).runs = 1

/-- **The generation gate**, over every interleaving. -/
theorem leases_of_reachable {s : State} (h : machine.Reachable s) : s.Sound := by
  have hinv := inv_of_reachable h
  refine ⟨fun k hk a t ht ↦ hinv.closed hk ht, fun k ↦ (hinv.record k).leases, fun k ↦ ?_,
    fun k hruns c hc ↦ ?_, fun k hk hl ↦ hinv.finalized hk hl⟩
  · have hledger := (hinv.record k).ledger
    have hle := Bool.toNat_le (s.records k).finalizerRegistered
    omega
  · have hpos : 0 < (s.records k).runs := by
      rcases hruns with hpos | ⟨b, hb, p, hp⟩
      · exact hpos
      · exact hinv.running b hb k p hp
    have hzero := (hinv.record k).quiet (by omega)
    rw [(hinv.record k).leases, List.countP_eq_zero] at hzero
    simpa using hzero c hc

/-- A lease, a retirement and a drain of its thread, and the release, which has the finalizer left. -/
def reentrant : List Label := [.publish, .lease 1, .retire, .drain 1 1 true, .act 1, .act 0]

theorem leases_of_reachable_reentrant : ∃ s, machine.run .new reentrant = some s ∧ s.Sound :=
  ⟨_, rfl, leases_of_reachable ⟨reentrant, rfl⟩⟩

end GenerationGate

end ScrapyExtension
