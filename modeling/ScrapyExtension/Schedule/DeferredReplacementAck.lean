import Mathlib.Data.Finset.Card
import Mathlib.Tactic
import ScrapyExtension.Machine.Basic

/-!
# Deferred acknowledgement of a replaced source

An errback may answer a failed download with replacement requests. The source message is then
acknowledged by a `_DeferredReplacementAckGroup`: each replacement carries a child token, the
output stream seals the group when it is exhausted, and the group settles the source once every
child is committed. A stream that fails aborts the group with a negative acknowledgement.

## What is atomic

Every method takes the group's mutex for a short section and settles the source *outside* of it.
The section is one step of the machine; the settlement it may start is a `Settlement` record that
lives in `State.settlements` and is advanced by steps of its own, so anything can happen between
the start of a settlement and its end. A settlement runs in one of two ways:

* without a reactor, `_ack_token` or `_nack_token` runs on the calling thread and returns or raises;
* with a reactor, a worker thread is submitted, its `Deferred` is published in
  `_settlement_operation`, callbacks are attached, and the callbacks act when the worker is done
  (at once, if it is done already).

## The invariant

The last pending child stays in `_pending` while the acknowledgement is in flight, so that a
failed acknowledgement can be repeated by the same child. `Invariant` records this as "once an
acknowledgement has been started on a live group, at most one child is pending", which together
with `settled_or_pending` carries all five guarantees of `sourceSettlement_guarantees`.
-/

namespace ScrapyExtension

namespace DeferredReplacementAck

/-! ## The group and its locked sections -/

/-- The mutable fields of `_DeferredReplacementAckGroup`. A `Deferred` is represented by its
identity. -/
structure Group where
  /-- Children registered and not yet committed. -/
  pending : Finset ℕ
  /-- The identifier of the next child. -/
  nextChild : ℕ
  /-- The output stream is exhausted. -/
  isSealed : Bool
  /-- The group is decided: acknowledged or aborted. -/
  terminal : Bool
  /-- A settlement owns the source. -/
  settlementInProgress : Bool
  /-- The authoritative `Deferred` of an asynchronous settlement. -/
  settlementOperation : Option ℕ
deriving DecidableEq

/-- `__init__`. -/
def Group.new : Group where
  pending := ∅
  nextChild := 0
  isSealed := false
  terminal := false
  settlementInProgress := false
  settlementOperation := none

/-- `new_child`: register one replacement unless the group is already decided. -/
def Group.newChild (g : Group) : Group × Option ℕ :=
  if g.terminal then (g, none)
  else
    ({ g with nextChild := g.nextChild + 1, pending := insert g.nextChild g.pending },
      some g.nextChild)

/-- The locked section of `seal`; the flag says whether the source is to be acknowledged. -/
def Group.seal (g : Group) : Group × Bool :=
  if g.terminal then (g, false)
  else if g.pending = ∅ ∧ ¬ g.settlementInProgress then
    ({ g with isSealed := true, settlementInProgress := true }, true)
  else ({ g with isSealed := true }, false)

/-- The locked section of `accept`; the flag says whether the source is to be acknowledged. -/
def Group.accept (g : Group) (child : ℕ) : Group × Bool :=
  if g.terminal ∨ child ∉ g.pending then (g, false)
  else if ¬ g.isSealed ∨ 1 < g.pending.card then
    ({ g with pending := g.pending.erase child }, false)
  else if ¬ g.settlementInProgress then ({ g with settlementInProgress := true }, true)
  else (g, false)

/-- The locked section of `abort`; the flag says whether the source is to be nacked. -/
def Group.abort (g : Group) : Group × Bool :=
  if g.terminal then (g, false)
  else if g.settlementInProgress then ({ g with pending := ∅, terminal := true }, false)
  else ({ g with pending := ∅, terminal := true, settlementInProgress := true }, true)

/-- The `except BaseException` sections of `_settle_source`, and the one for an absent queue. -/
def Group.releaseSettlement (g : Group) : Group := { g with settlementInProgress := false }

/-- The final section of a synchronous settlement. -/
def Group.finishSynchronous (g : Group) (settled negative : Bool) : Group :=
  if settled && !negative then
    { g with settlementInProgress := false, pending := ∅, terminal := true }
  else { g with settlementInProgress := false }

/-- Publication of the authoritative `Deferred`. -/
def Group.publishOperation (g : Group) (operation : ℕ) : Group :=
  { g with settlementOperation := some operation }

/-- The callback `settled_success`. -/
def Group.settledSuccess (g : Group) (operation : ℕ) (negative : Bool) : Group :=
  if g.settlementOperation = some operation then
    if negative then { g with settlementOperation := none, settlementInProgress := false }
    else
      { g with
        settlementOperation := none, settlementInProgress := false, pending := ∅,
        terminal := true }
  else g

/-- The errback `settled_failure`. -/
def Group.settledFailure (g : Group) (operation : ℕ) : Group :=
  if g.settlementOperation = some operation then
    { g with settlementOperation := none, settlementInProgress := false }
  else g

/-! ## Settlements in flight -/

/-- How far one call of `_settle_source` has come. The `Option Bool` of the asynchronous phases
is the worker's result, once it has one. -/
inductive Phase where
  /-- `_settle_source` was entered. -/
  | entered
  /-- The synchronous call returned, and its result was not yet recorded. -/
  | returned (settled : Bool)
  /-- The synchronous call or the submission raised, and nothing was yet recorded. -/
  | raised
  /-- `_settle_token_async_ordered` found no queue. -/
  | unavailable
  /-- A worker was submitted, and its `Deferred` is not published. -/
  | submitted (result : Option Bool)
  /-- The `Deferred` is published, and the callbacks are not attached. -/
  | published (result : Option Bool)
  /-- The callbacks are attached. -/
  | attached (result : Option Bool)
deriving DecidableEq

/-- One call of `_settle_source` that has not ended. -/
structure Settlement where
  /-- The identity of the worker's `Deferred`, should it get one. -/
  operation : ℕ
  /-- Whether the source is nacked rather than acknowledged. -/
  negative : Bool
  /-- How far the call has come. -/
  phase : Phase
deriving DecidableEq

/-- The broker has reported success for this phase. -/
def Phase.succeeded : Phase → Bool
  | .returned settled => settled
  | .submitted result | .published result | .attached result => result = some true
  | _ => false

/-- The `Deferred` of this phase is the one stored in `_settlement_operation`. -/
def Phase.isPublished : Phase → Bool
  | .published _ | .attached _ => true
  | _ => false

/-- The group, the settlements in flight, and what happened so far. The last four fields are
history: no step reads them. -/
structure State where
  /-- The group's fields. -/
  group : Group
  /-- The calls of `_settle_source` that have not ended. -/
  settlements : List Settlement
  /-- The next `Deferred` identity. -/
  nextOperation : ℕ
  /-- Children whose token was acknowledged at least once. -/
  accepted : Finset ℕ
  /-- Some source acknowledgement succeeded. -/
  acked : Bool
  /-- Some source acknowledgement ended without success. -/
  ackFailed : Bool
  /-- `abort` was called. -/
  aborted : Bool
deriving DecidableEq

/-- The atomic steps. The index of a settlement step is its position in `State.settlements`. -/
inductive Label where
  /-- `new_child` -/
  | newChild
  /-- `accept(child)`, by the token of that child -/
  | accept (child : ℕ)
  /-- `seal` -/
  | sealOutput
  /-- `abort` -/
  | abort
  /-- `_ack_token` or `_nack_token` returned. -/
  | synchronousReturn (i : ℕ) (settled : Bool)
  /-- The synchronous call, or the submission of the worker, raised. -/
  | callRaise (i : ℕ)
  /-- There was no queue to settle with. -/
  | queueUnavailable (i : ℕ)
  /-- The worker was submitted. -/
  | submit (i : ℕ)
  /-- The worker ended. -/
  | workerDone (i : ℕ) (success : Bool)
  /-- `self._settlement_operation = operation` -/
  | publish (i : ℕ)
  /-- `operation.addCallbacks(settled_success, settled_failure)` -/
  | attach (i : ℕ)
  /-- The last locked section of the settlement. -/
  | finish (i : ℕ)
deriving DecidableEq

namespace State

/-- The settlement that a step starts: `some false` acknowledges the source, `some true` nacks
it. -/
def starts (s : State) : Label → Option Bool
  | .accept child => if (s.group.accept child).2 then some false else none
  | .sealOutput => if s.group.seal.2 then some false else none
  | .abort => if s.group.abort.2 then some true else none
  | _ => none

/-- The call of `_settle_source` that a section asks for, entered after the section. -/
def enter (s : State) (started : Option Bool) : State :=
  match started with
  | none => s
  | some negative =>
    { s with
      settlements := s.settlements ++ [⟨s.nextOperation, negative, .entered⟩]
      nextOperation := s.nextOperation + 1 }

/-- Move settlement `i` to `phase`, and record a success the broker reports with it. -/
def advance (s : State) (i : ℕ) (f : Settlement) (phase : Phase) : State :=
  { s with
    settlements := s.settlements.set i { f with phase }
    acked := s.acked || (phase.succeeded && !f.negative) }

/-- End settlement `i` with the group `g`. -/
def retire (s : State) (i : ℕ) (f : Settlement) (g : Group) : State :=
  { s with
    group := g
    settlements := s.settlements.eraseIdx i
    ackFailed := s.ackFailed || (!f.phase.succeeded && !f.negative) }

/-- The last locked section of a settlement, according to how it came out. -/
def finishGroup (g : Group) (f : Settlement) : Option Group :=
  match f.phase with
  | .returned settled => some (g.finishSynchronous settled f.negative)
  | .raised | .unavailable => some g.releaseSettlement
  | .attached (some true) => some (g.settledSuccess f.operation f.negative)
  | .attached (some false) => some (g.settledFailure f.operation)
  | _ => none

/-- The phase a settlement moves to, for the steps that only move it. -/
def nextPhase : Phase → Label → Option Phase
  | .entered, .synchronousReturn _ settled => some (.returned settled)
  | .entered, .callRaise _ => some .raised
  | .entered, .queueUnavailable _ => some .unavailable
  | .entered, .submit _ => some (.submitted none)
  | .submitted none, .workerDone _ success => some (.submitted (some success))
  | .published none, .workerDone _ success => some (.published (some success))
  | .attached none, .workerDone _ success => some (.attached (some success))
  | .published result, .attach _ => some (.attached result)
  | _, _ => none

/-- One atomic step. A child token exists only once it was issued, and the stream asks for no
child after it sealed the group. -/
def step (s : State) (a : Label) : Option State :=
  match a with
  | .newChild => if s.group.isSealed then none else some { s with group := s.group.newChild.1 }
  | .accept child =>
    if child < s.group.nextChild then
      some ({ s with
        group := (s.group.accept child).1
        accepted := insert child s.accepted }.enter (s.starts (.accept child)))
    else none
  | .sealOutput => some ({ s with group := s.group.seal.1 }.enter (s.starts .sealOutput))
  | .abort =>
    some ({ s with group := s.group.abort.1, aborted := true }.enter (s.starts .abort))
  | .publish i => do
    let f ← s.settlements[i]?
    match f.phase with
    | .submitted result =>
      some ({ s with group := s.group.publishOperation f.operation }.advance i f
        (.published result))
    | _ => none
  | .finish i => do
    let f ← s.settlements[i]?
    let g ← finishGroup s.group f
    some (s.retire i f g)
  | .synchronousReturn i _ | .callRaise i | .queueUnavailable i | .submit i | .workerDone i _
  | .attach i => do
    let f ← s.settlements[i]?
    let phase ← nextPhase f.phase a
    some (s.advance i f phase)

end State

/-- The group as a machine, started by `__init__`. -/
def machine : Machine State Label where
  init :=
    { group := .new, settlements := [], nextOperation := 0, accepted := ∅, acked := false,
      ackFailed := false, aborted := false }
  step := State.step

/-! ## The invariant -/

/-- What every section and every settlement step preserves. -/
structure Invariant (s : State) : Prop where
  /-- The in-progress flag is up exactly while the one settlement runs, and the stored operation
  is its own from publication on. -/
  ownership :
    s.settlements = [] ∧ s.group.settlementInProgress = false ∧
      s.group.settlementOperation = none ∨
    ∃ f, s.settlements = [f] ∧ s.group.settlementInProgress = true ∧
      s.group.settlementOperation = if f.phase.isPublished then some f.operation else none
  /-- On a live group every issued child is pending or was accepted. -/
  settled_or_pending : s.group.terminal = false →
    ∀ c < s.group.nextChild, c ∈ s.group.pending ∨ c ∈ s.accepted
  /-- Only issued children are pending. -/
  pending_issued : ∀ c ∈ s.group.pending, c < s.group.nextChild
  /-- Only an abort nacks. -/
  nack_terminal : ∀ f ∈ s.settlements, f.negative = true → s.group.terminal = true
  /-- An abort decides the group. -/
  aborted_terminal : s.aborted = true → s.group.terminal = true
  /-- A group is decided by an acknowledgement or by an abort. -/
  terminal_decided : s.group.terminal = true → s.acked = true ∨ s.aborted = true
  /-- A successful acknowledgement decides the group, or is about to. -/
  acked_decides : s.acked = true →
    s.group.terminal = true ∨ ∃ f ∈ s.settlements, f.negative = false ∧ f.phase.succeeded = true
  /-- Success is recorded as soon as the broker reports it. -/
  succeeded_acked : ∀ f ∈ s.settlements, f.negative = false → f.phase.succeeded = true →
    s.acked = true
  /-- Once an acknowledgement was started, the group is sealed and at most the child that started
  it is pending. -/
  ack_started : (s.ackFailed = true ∨ ∃ f ∈ s.settlements, f.negative = false) →
    s.group.isSealed = true ∧ s.group.pending.card ≤ 1

private theorem invariant_init : Invariant machine.init where
  ownership := .inl ⟨rfl, rfl, rfl⟩
  settled_or_pending := fun _ c hc ↦ absurd hc (Nat.not_lt_zero c)
  pending_issued := fun c hc ↦ absurd hc (Finset.notMem_empty c)
  nack_terminal := fun _ hf ↦ absurd hf (List.not_mem_nil)
  aborted_terminal := fun h ↦ by cases h
  terminal_decided := fun h ↦ by cases h
  acked_decides := fun h ↦ by cases h
  succeeded_acked := fun _ hf ↦ absurd hf (List.not_mem_nil)
  ack_started := by rintro (h | ⟨f, hf, -⟩) <;> [cases h; cases hf]

namespace Invariant

variable {s : State}

/-- With a settlement in flight, no section starts another. -/
private theorem settlements_eq_nil (h : Invariant s)
    (hfree : s.group.settlementInProgress = false) :
    s.settlements = [] ∧ s.group.settlementOperation = none := by
  rcases h.ownership with ⟨h₁, -, h₃⟩ | ⟨f, -, h₂, -⟩
  · exact ⟨h₁, h₃⟩
  · rw [h₂] at hfree
    cases hfree

/-- The settlement found at an index is the only one, and the index is `0`. -/
private theorem eq_singleton (h : Invariant s) {i : ℕ} {f : Settlement}
    (hf : s.settlements[i]? = some f) :
    i = 0 ∧ s.settlements = [f] ∧ s.group.settlementInProgress = true ∧
      s.group.settlementOperation = if f.phase.isPublished then some f.operation else none := by
  rcases h.ownership with ⟨h₁, -, -⟩ | ⟨f', h₁, h₂, h₃⟩
  · rw [h₁] at hf
    cases hf
  · rw [h₁] at hf
    cases i with
    | zero =>
      obtain rfl : f' = f := by simpa using hf
      exact ⟨rfl, h₁, h₂, h₃⟩
    | succ i => simp at hf

/-! ### Sections of the group -/

private theorem newChild (h : Invariant s) (hopen : s.group.isSealed = false) :
    Invariant { s with group := s.group.newChild.1 } := by
  have hfresh : ¬(s.ackFailed = true ∨ ∃ f ∈ s.settlements, f.negative = false) := fun hack ↦ by
    rw [(h.ack_started hack).1] at hopen
    cases hopen
  by_cases hterm : s.group.terminal = true
  · rw [Group.newChild, if_pos hterm]
    exact h
  · rw [Group.newChild, if_neg hterm]
    exact
      { h with
        settled_or_pending := fun hlive c hc ↦ by
          rcases Nat.lt_succ_iff_lt_or_eq.mp hc with hlt | rfl
          · exact (h.settled_or_pending hlive c hlt).imp_left Finset.mem_insert_of_mem
          · exact .inl (Finset.mem_insert_self _ _)
        pending_issued := fun c hc ↦ by
          rcases Finset.mem_insert.mp hc with rfl | hc
          · exact Nat.lt_succ_self _
          · exact Nat.lt_succ_of_lt (h.pending_issued c hc)
        ack_started := fun hack ↦ absurd hack hfresh }

private theorem recordAccept (h : Invariant s) (child : ℕ) :
    Invariant { s with accepted := insert child s.accepted } :=
  { h with
    settled_or_pending := fun hlive c hc ↦
      (h.settled_or_pending hlive c hc).imp_right Finset.mem_insert_of_mem }

private theorem markSealed (h : Invariant s) :
    Invariant { s with group := { s.group with isSealed := true } } :=
  { h with ack_started := fun hack ↦ ⟨rfl, (h.ack_started hack).2⟩ }

/-- Starting an acknowledgement: the flag goes up and `_settle_source` is entered. -/
private theorem startAck (h : Invariant s) (hlive : s.group.terminal = false)
    (hfree : s.group.settlementInProgress = false) (hsealed : s.group.isSealed = true)
    (hcard : s.group.pending.card ≤ 1) :
    Invariant ({ s with group := { s.group with settlementInProgress := true } }.enter
      (some false)) := by
  obtain ⟨hnil, hop⟩ := h.settlements_eq_nil hfree
  have hacked : s.acked ≠ true := fun hack ↦ by
    rcases h.acked_decides hack with hterm | ⟨f, hf, -⟩
    · rw [hterm] at hlive
      cases hlive
    · rw [hnil] at hf
      cases hf
  constructor
  case ownership => exact .inr ⟨_, by simp [State.enter, hnil]; rfl, rfl, by simpa [State.enter]⟩
  case settled_or_pending => exact h.settled_or_pending
  case pending_issued => exact h.pending_issued
  case nack_terminal => simp [State.enter, hnil]
  case aborted_terminal => exact h.aborted_terminal
  case terminal_decided => exact h.terminal_decided
  case acked_decides => exact fun hack ↦ absurd hack hacked
  case succeeded_acked => simp [State.enter, hnil, Phase.succeeded]
  case ack_started => exact fun _ ↦ ⟨hsealed, hcard⟩

private theorem accept (h : Invariant s) (child : ℕ) :
    Invariant ({ s with
      group := (s.group.accept child).1
      accepted := insert child s.accepted }.enter (s.starts (.accept child))) := by
  have hr := h.recordAccept child
  by_cases hskip : s.group.terminal = true ∨ child ∉ s.group.pending
  · simpa [State.starts, Group.accept, hskip, State.enter] using hr
  obtain ⟨hlive, hmem⟩ := not_or.mp hskip
  rw [not_not] at hmem
  have hterm : s.group.terminal = false := by simpa using hlive
  by_cases hmore : ¬ s.group.isSealed = true ∨ 1 < s.group.pending.card
  · -- the child leaves the pending set, and it is recorded as accepted
    have hout : Group.accept s.group child =
        ({ s.group with pending := s.group.pending.erase child }, false) := by
      rw [Group.accept, if_neg hskip, if_pos hmore]
    simp only [State.starts, hout, State.enter, Bool.false_eq_true, if_false]
    exact
      { hr with
        settled_or_pending := fun _ c hc ↦ by
          by_cases hcc : c = child
          · exact .inr (hcc ▸ Finset.mem_insert_self _ _)
          · exact (hr.settled_or_pending hterm c hc).imp_left
              fun hp ↦ Finset.mem_erase.mpr ⟨hcc, hp⟩
        pending_issued := fun c hc ↦ h.pending_issued c (Finset.mem_of_mem_erase hc)
        ack_started := fun hack ↦
          ⟨(h.ack_started hack).1,
            (Finset.card_le_card (Finset.erase_subset _ _)).trans (h.ack_started hack).2⟩ }
  · obtain ⟨hsealed, hcard⟩ := not_or.mp hmore
    rw [not_not] at hsealed
    by_cases hfree : s.group.settlementInProgress = true
    · have hout : Group.accept s.group child = (s.group, false) := by
        rw [Group.accept, if_neg hskip, if_neg hmore, if_neg (not_not.mpr hfree)]
      simpa only [State.starts, hout, State.enter, Bool.false_eq_true, if_false] using hr
    · have hout : Group.accept s.group child =
          ({ s.group with settlementInProgress := true }, true) := by
        rw [Group.accept, if_neg hskip, if_neg hmore, if_pos hfree]
      simp only [State.starts, hout, if_true]
      exact hr.startAck hterm (by simpa using hfree) hsealed (not_lt.mp hcard)

private theorem seal' (h : Invariant s) :
    Invariant ({ s with group := s.group.seal.1 }.enter (s.starts .sealOutput)) := by
  by_cases hterm : s.group.terminal = true
  · simpa [State.starts, Group.seal, hterm, State.enter] using h
  by_cases hgo : s.group.pending = ∅ ∧ ¬ s.group.settlementInProgress = true
  · have hout : Group.seal s.group =
        ({ s.group with isSealed := true, settlementInProgress := true }, true) := by
      rw [Group.seal, if_neg hterm, if_pos hgo]
    simp only [State.starts, hout, if_true]
    exact h.markSealed.startAck (by simpa using hterm) (by simpa using hgo.2) rfl
      (by simp [hgo.1])
  · have hout : Group.seal s.group = ({ s.group with isSealed := true }, false) := by
      rw [Group.seal, if_neg hterm, if_neg hgo]
    simpa only [State.starts, hout, State.enter, Bool.false_eq_true, if_false] using h.markSealed

/-- An abort empties the pending set and decides the group, whoever owns the source. -/
private theorem decideAbort (h : Invariant s) :
    Invariant { s with
      group := { s.group with pending := ∅, terminal := true }
      aborted := true } :=
  { h with
    settled_or_pending := fun hlive ↦ by cases hlive
    pending_issued := fun c hc ↦ absurd hc (Finset.notMem_empty c)
    nack_terminal := fun _ _ _ ↦ rfl
    aborted_terminal := fun _ ↦ rfl
    terminal_decided := fun _ ↦ .inr rfl
    acked_decides := fun _ ↦ .inl rfl
    ack_started := fun hack ↦ ⟨(h.ack_started hack).1, by simp⟩ }

private theorem abort (h : Invariant s) :
    Invariant ({ s with group := s.group.abort.1, aborted := true }.enter
      (s.starts .abort)) := by
  by_cases hterm : s.group.terminal = true
  · have hsame : Invariant { s with aborted := true } :=
      { h with
        aborted_terminal := fun _ ↦ hterm
        terminal_decided := fun _ ↦ .inr rfl }
    simpa [State.starts, Group.abort, hterm, State.enter] using hsame
  by_cases hbusy : s.group.settlementInProgress = true
  · have hout : Group.abort s.group = ({ s.group with pending := ∅, terminal := true }, false) := by
      rw [Group.abort, if_neg hterm, if_pos hbusy]
    simpa only [State.starts, hout, State.enter, Bool.false_eq_true, if_false] using h.decideAbort
  · have hout : Group.abort s.group =
        ({ s.group with pending := ∅, terminal := true, settlementInProgress := true }, true) := by
      rw [Group.abort, if_neg hterm, if_neg hbusy]
    obtain ⟨hnil, hop⟩ := h.settlements_eq_nil (by simpa using hbusy)
    have hd := h.decideAbort
    simp only [State.starts, hout, if_true, State.enter, hnil, List.nil_append]
    exact
      { hd with
        ownership := .inr ⟨_, rfl, rfl, by simpa [Phase.isPublished] using hop⟩
        nack_terminal := fun _ _ _ ↦ rfl
        acked_decides := fun _ ↦ .inl rfl
        succeeded_acked := by simp
        ack_started := fun hack ↦ hd.ack_started (hack.imp_right (by simp)) }

/-! ### Steps of a settlement -/

/-- A settlement moves on, and `_settlement_operation` with it. Success is recorded on the way,
and no step takes it back. -/
private theorem advance (h : Invariant s) {i : ℕ} {f : Settlement} {phase : Phase}
    (hf : s.settlements[i]? = some f)
    (hkeep : f.phase.succeeded = true → phase.succeeded = true) (operation : Option ℕ)
    (hoperation : operation = if phase.isPublished then some f.operation else none) :
    Invariant ({ s with group := { s.group with settlementOperation := operation } }.advance
      i f phase) := by
  obtain ⟨rfl, hone, hbusy, -⟩ := h.eq_singleton hf
  simp only [State.advance, hone, List.set_cons_zero]
  constructor
  case ownership => exact .inr ⟨_, rfl, hbusy, hoperation⟩
  case settled_or_pending => exact h.settled_or_pending
  case pending_issued => exact h.pending_issued
  case nack_terminal => simpa [hone] using h.nack_terminal
  case aborted_terminal => exact h.aborted_terminal
  case terminal_decided =>
    exact fun ht ↦ (h.terminal_decided ht).imp_left fun ha ↦ by simp [ha]
  case acked_decides =>
    intro hack
    rcases Bool.or_eq_true_iff.mp hack with hack | hnew
    · refine (h.acked_decides hack).imp_right ?_
      rintro ⟨f', hf', hneg, hsucc⟩
      obtain rfl : f' = f := by simpa [hone] using hf'
      exact ⟨_, List.mem_singleton_self _, hneg, hkeep hsucc⟩
    · rw [Bool.and_eq_true, Bool.not_eq_true'] at hnew
      exact .inr ⟨_, List.mem_singleton_self _, hnew.2, hnew.1⟩
  case succeeded_acked =>
    intro f' hf' hneg hsucc
    obtain rfl := List.mem_singleton.mp hf'
    simp only at hneg hsucc
    simp [hneg, hsucc]
  case ack_started =>
    rintro (hack | ⟨f', hf', hneg⟩)
    · exact h.ack_started (.inl hack)
    · obtain rfl := List.mem_singleton.mp hf'
      exact h.ack_started (.inr ⟨f, by simp [hone], hneg⟩)

/-- What the last section of a settlement does to the group: a successful acknowledgement decides
it, and everything else only gives the source back. -/
private theorem finishGroup_cases (h : Invariant s) {i : ℕ} {f : Settlement} {g : Group}
    (hf : s.settlements[i]? = some f) (hg : State.finishGroup s.group f = some g) :
    (f.negative = false ∧ f.phase.succeeded = true ∧
      g = { s.group with
        settlementInProgress := false, settlementOperation := none, pending := ∅,
        terminal := true }) ∨
    ((f.negative = true ∨ f.phase.succeeded = false) ∧
      g = { s.group with settlementInProgress := false, settlementOperation := none }) := by
  obtain ⟨-, -, -, hop⟩ := h.eq_singleton hf
  obtain ⟨operation, negative, phase⟩ := f
  cases phase with
  | entered => cases hg
  | submitted result => cases hg
  | published result => cases hg
  | returned settled =>
    obtain rfl := Option.some.inj hg
    simp only [Phase.isPublished, Bool.false_eq_true, if_false] at hop
    cases settled <;> cases negative <;>
      simp [Group.finishSynchronous, Phase.succeeded, ← hop]
  | raised =>
    obtain rfl := Option.some.inj hg
    simp only [Phase.isPublished, Bool.false_eq_true, if_false] at hop
    exact .inr ⟨.inr rfl, by simp [Group.releaseSettlement, ← hop]⟩
  | unavailable =>
    obtain rfl := Option.some.inj hg
    simp only [Phase.isPublished, Bool.false_eq_true, if_false] at hop
    exact .inr ⟨.inr rfl, by simp [Group.releaseSettlement, ← hop]⟩
  | attached result =>
    simp only [Phase.isPublished, if_true] at hop
    cases result with
    | none => cases hg
    | some success =>
      cases success <;> obtain rfl := Option.some.inj hg
      · exact .inr ⟨.inr rfl, by simp [Group.settledFailure, hop]⟩
      · cases negative <;> simp [Group.settledSuccess, Phase.succeeded, hop]

private theorem finish (h : Invariant s) {i : ℕ} {f : Settlement} {g : Group}
    (hf : s.settlements[i]? = some f) (hg : State.finishGroup s.group f = some g) :
    Invariant (s.retire i f g) := by
  have hcases := h.finishGroup_cases hf hg
  obtain ⟨rfl, hone, -, -⟩ := h.eq_singleton hf
  have hmem : f ∈ s.settlements := by simp [hone]
  simp only [State.retire, hone, List.eraseIdx_cons_zero]
  obtain ⟨hneg, hsucc, rfl⟩ | ⟨hkind, rfl⟩ := hcases
  · have hstarted := h.ack_started (.inr ⟨f, hmem, hneg⟩)
    constructor
    case ownership => exact .inl ⟨rfl, rfl, rfl⟩
    case settled_or_pending => exact fun hlive ↦ by cases hlive
    case pending_issued => exact fun c hc ↦ absurd hc (Finset.notMem_empty c)
    case nack_terminal => simp
    case aborted_terminal => exact fun _ ↦ rfl
    case terminal_decided => exact fun _ ↦ .inl (h.succeeded_acked f hmem hneg hsucc)
    case acked_decides => exact fun _ ↦ .inl rfl
    case succeeded_acked => simp
    case ack_started => exact fun _ ↦ ⟨hstarted.1, by simp⟩
  · constructor
    case ownership => exact .inl ⟨rfl, rfl, rfl⟩
    case settled_or_pending => exact h.settled_or_pending
    case pending_issued => exact h.pending_issued
    case nack_terminal => simp
    case aborted_terminal => exact h.aborted_terminal
    case terminal_decided => exact h.terminal_decided
    case acked_decides =>
      intro hack
      refine .inl ((h.acked_decides hack).elim id ?_)
      rintro ⟨f', hf', hneg, hsucc⟩
      obtain rfl : f' = f := by simpa [hone] using hf'
      rcases hkind with hneg' | hfail
      · rw [hneg] at hneg'
        cases hneg'
      · rw [hsucc] at hfail
        cases hfail
    case succeeded_acked => simp
    case ack_started =>
      rintro (hack | ⟨f', hf', -⟩)
      · rcases Bool.or_eq_true_iff.mp hack with hack | hnew
        · exact h.ack_started (.inl hack)
        · rw [Bool.and_eq_true, Bool.not_eq_true', Bool.not_eq_true'] at hnew
          exact h.ack_started (.inr ⟨f, hmem, hnew.2⟩)
      · cases hf'

/-- Moving a settlement along keeps its publication status and its success. -/
private theorem nextPhase_spec {p q : Phase} {a : Label} (h : State.nextPhase p a = some q) :
    q.isPublished = p.isPublished ∧ (p.succeeded = true → q.succeeded = true) := by
  unfold State.nextPhase at h
  split at h <;> cases h <;> simp [Phase.isPublished, Phase.succeeded]

private theorem move (h : Invariant s) {i : ℕ} {a : Label} {t : State}
    (ht : (do
      let f ← s.settlements[i]?
      let phase ← State.nextPhase f.phase a
      some (s.advance i f phase)) = some t) : Invariant t := by
  obtain ⟨f, hf, ht⟩ := Option.bind_eq_some_iff.mp ht
  obtain ⟨phase, hphase, ht⟩ := Option.bind_eq_some_iff.mp ht
  obtain rfl := Option.some.inj ht
  obtain ⟨hpub, hkeep⟩ := nextPhase_spec hphase
  refine h.advance hf hkeep s.group.settlementOperation ?_
  rw [(h.eq_singleton hf).2.2.2, hpub]

/-- Every atomic step preserves the invariant. -/
protected theorem step (h : Invariant s) {a : Label} {t : State} (ht : s.step a = some t) :
    Invariant t := by
  cases a with
  | newChild =>
    obtain ⟨hopen, ht⟩ := Option.ite_none_left_eq_some.mp ht
    obtain rfl := Option.some.inj ht
    exact h.newChild (by simpa using hopen)
  | accept child =>
    obtain ⟨-, ht⟩ := Option.ite_none_right_eq_some.mp ht
    obtain rfl := Option.some.inj ht
    exact h.accept child
  | sealOutput =>
    obtain rfl := Option.some.inj ht
    exact h.seal'
  | abort =>
    obtain rfl := Option.some.inj ht
    exact h.abort
  | publish i =>
    obtain ⟨f, hf, ht⟩ := Option.bind_eq_some_iff.mp ht
    split at ht
    · rename_i result hphase
      obtain rfl := Option.some.inj ht
      refine h.advance hf ?_ (some f.operation) rfl
      rw [hphase]
      exact id
    · cases ht
  | finish i =>
    obtain ⟨f, hf, ht⟩ := Option.bind_eq_some_iff.mp ht
    obtain ⟨g, hg, ht⟩ := Option.bind_eq_some_iff.mp ht
    obtain rfl := Option.some.inj ht
    exact h.finish hf hg
  | synchronousReturn i settled => exact h.move ht
  | callRaise i => exact h.move ht
  | queueUnavailable i => exact h.move ht
  | submit i => exact h.move ht
  | workerDone i success => exact h.move ht
  | attach i => exact h.move ht

end Invariant

/-- The invariant holds in every state the group can get into. -/
theorem invariant_of_reachable {s : State} (hs : machine.Reachable s) : Invariant s :=
  hs.invariant invariant_init fun _ _ _ h ht ↦ h.step ht

/-! ## What a start requires -/

/-- A settlement starts only on a live group that no other settlement owns. -/
private theorem live_of_starts {s : State} {a : Label} {negative : Bool}
    (h : s.starts a = some negative) :
    s.group.terminal = false ∧ s.group.settlementInProgress = false := by
  unfold State.starts at h
  split at h
  · unfold Group.accept at h
    grind
  · unfold Group.seal at h
    grind
  · unfold Group.abort at h
    grind
  · cases h

/-- An acknowledgement starts only when the pending set is exhausted up to the accepted child. -/
private theorem sealed_of_starts_ack {s t : State} (hinv : Invariant s) {a : Label}
    (ht : s.step a = some t) (h : s.starts a = some false) :
    t.group.isSealed = true ∧ ∀ c < t.group.nextChild, c ∈ t.accepted := by
  have hlive := (live_of_starts h).1
  cases a with
  | accept child =>
    have hgo : (s.group.accept child).2 = true := by
      by_contra hno
      simp [State.starts, hno] at h
    have hspec : child ∈ s.group.pending ∧ s.group.isSealed = true ∧ s.group.pending.card ≤ 1 ∧
        s.group.accept child = ({ s.group with settlementInProgress := true }, true) := by
      unfold Group.accept at hgo ⊢
      grind
    obtain ⟨hmem, hsealed, hcard, hout⟩ := hspec
    obtain ⟨-, ht⟩ := Option.ite_none_right_eq_some.mp ht
    obtain rfl := Option.some.inj ht
    rw [h, hout]
    refine ⟨hsealed, fun c hc ↦ ?_⟩
    rcases hinv.settled_or_pending hlive c hc with hp | hacc
    · obtain rfl : c = child := Finset.card_le_one.mp hcard c hp child hmem
      exact Finset.mem_insert_self _ _
    · exact Finset.mem_insert_of_mem hacc
  | sealOutput =>
    have hgo : s.group.seal.2 = true := by
      by_contra hno
      simp [State.starts, hno] at h
    have hspec : s.group.pending = ∅ ∧ s.group.seal =
        ({ s.group with isSealed := true, settlementInProgress := true }, true) := by
      unfold Group.seal at hgo ⊢
      grind
    obtain ⟨hempty, hout⟩ := hspec
    obtain rfl := Option.some.inj ht
    rw [h, hout]
    refine ⟨rfl, fun c hc ↦ ?_⟩
    rcases hinv.settled_or_pending hlive c hc with hp | hacc
    · rw [hempty] at hp
      cases hp
    · exact hacc
  | abort =>
    simp only [State.starts] at h
    split at h <;> cases h
  | _ => cases h

/-- On a live sealed group that no settlement owns and where at most one child is pending, an
acknowledgement can be started: by `seal` if nothing is pending, else by the pending child. -/
private theorem exists_starts_ack {s : State} (hinv : Invariant s)
    (hlive : s.group.terminal = false) (hfree : s.group.settlementInProgress = false)
    (hsealed : s.group.isSealed = true) (hcard : s.group.pending.card ≤ 1) :
    s.starts .sealOutput = some false ∨
      ∃ c < s.group.nextChild, s.starts (.accept c) = some false := by
  rcases Nat.le_one_iff_eq_zero_or_eq_one.mp hcard with hzero | hone
  · left
    simp [State.starts, Group.seal, hlive, hfree, Finset.card_eq_zero.mp hzero]
  · right
    obtain ⟨c, hc⟩ := Finset.card_eq_one.mp hone
    refine ⟨c, hinv.pending_issued c (by simp [hc]), ?_⟩
    simp [State.starts, Group.accept, hlive, hfree, hsealed, hc]

/-- **Source settlement.** In every reachable state of the group:

* at most one settlement of the source is in flight;
* a step that starts an acknowledgement leaves the group sealed, with every issued child accepted;
* after a successful acknowledgement nothing is started, and after an abort no acknowledgement is;
* an acknowledgement that failed, on a group neither acknowledged nor aborted since, can be
  repeated as soon as it has ended: by `seal` or by the acceptance of an issued child. -/
theorem sourceSettlement_guarantees {s : State} (hs : machine.Reachable s) :
    s.settlements.length ≤ 1 ∧
    (∀ a t, s.step a = some t → s.starts a = some false →
      t.group.isSealed = true ∧ ∀ c < t.group.nextChild, c ∈ t.accepted) ∧
    (s.acked = true → ∀ a, s.starts a = none) ∧
    (s.aborted = true → ∀ a, s.starts a ≠ some false) ∧
    (s.ackFailed = true → s.acked = false → s.aborted = false → s.settlements = [] →
      s.starts .sealOutput = some false ∨
        ∃ c < s.group.nextChild, s.starts (.accept c) = some false) := by
  have hinv := invariant_of_reachable hs
  refine ⟨?_, fun a t ht ha ↦ sealed_of_starts_ack hinv ht ha, ?_, ?_, ?_⟩
  · rcases hinv.ownership with ⟨hnil, -, -⟩ | ⟨f, hone, -, -⟩
    · simp [hnil]
    · simp [hone]
  · intro hack a
    by_contra hstart
    obtain ⟨negative, hstart⟩ := Option.ne_none_iff_exists'.mp hstart
    obtain ⟨hlive, hfree⟩ := live_of_starts hstart
    rcases hinv.acked_decides hack with hterm | ⟨f, hf, -⟩
    · rw [hterm] at hlive
      cases hlive
    · rw [(hinv.settlements_eq_nil hfree).1] at hf
      cases hf
  · intro habort a hstart
    have hlive := (live_of_starts hstart).1
    rw [hinv.aborted_terminal habort] at hlive
    cases hlive
  · intro hfail hacked haborted hnil
    have hlive : s.group.terminal = false := by
      by_contra hterm
      rcases hinv.terminal_decided (by simpa using hterm) with hack | habort
      · rw [hacked] at hack
        cases hack
      · rw [haborted] at habort
        cases habort
    have hfree : s.group.settlementInProgress = false := by
      rcases hinv.ownership with ⟨-, hfree, -⟩ | ⟨f, hone, -, -⟩
      · exact hfree
      · rw [hnil] at hone
        cases hone
    obtain ⟨hsealed, hcard⟩ := hinv.ack_started (.inl hfail)
    exact exists_starts_ack hinv hlive hfree hsealed hcard

/-- A reactor-side acknowledgement of a single child that fails in its worker. -/
def failedAckSchedule : List Label :=
  [.newChild, .sealOutput, .accept 0, .submit 0, .publish 0, .workerDone 0 false, .attach 0,
    .finish 0]

/-- After `failedAckSchedule` the child's token acknowledges the source once more. -/
theorem sourceSettlement_guarantees_retry :
    ∃ s, machine.run machine.init failedAckSchedule = some s ∧ s.ackFailed = true ∧
      (s.starts .sealOutput = some false ∨
        ∃ c < s.group.nextChild, s.starts (.accept c) = some false) := by
  refine ⟨(machine.run machine.init failedAckSchedule).get (by decide), by simp, by decide, ?_⟩
  exact (sourceSettlement_guarantees ⟨failedAckSchedule, by simp⟩).2.2.2.2 (by decide) (by decide)
    (by decide) (by decide)

end DeferredReplacementAck

end ScrapyExtension
