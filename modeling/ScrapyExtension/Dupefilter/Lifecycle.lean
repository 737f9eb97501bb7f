import Mathlib.Tactic
import ScrapyExtension.Machine.Basic
import ScrapyExtension.Machine.Threads

/-!
# The lifecycle of the dupefilter

Filter operations are admitted while the lifecycle is new or open. An open, a clear and a close stop
admission, wait until the admitted operations have left, and call the filter without the lifecycle
lock. The waits are bounded, and they give the lock up: other transitions move in the meantime.

A close reserves the release first. The reservation survives a clear that is under way: the clear is
told by `_close_requested` to leave the lifecycle closing. Where it is not told, the lifecycle is open
again with the release still reserved; the second half of this module says when that is.

## Steps

A section under `_lifecycle_condition` is one step. A wait that is over and the section after it are
one step, which the outcome `true` of `Move.act` names; `false` is a wait that ran out or a callback
that raised. Operations are leases here. What they do is modelled elsewhere, on top of this module.
-/

namespace ScrapyExtension

namespace Dupefilter

/-- `_lifecycle_state` -/
inductive Lifecycle
  | new
  | opening
  | open
  | clearing
  | closing
  | closed
deriving DecidableEq

/-- Operations are admitted. -/
def Lifecycle.admits : Lifecycle → Bool
  | .new | .open => true
  | _ => false

/-- Where a call of `open`, `clear` or `release` is. -/
inductive Phase
  /-- `open` waits for the admitted operations. -/
  | openDrain
  /-- `filter.open` is out. -/
  | openFilter
  /-- The clear of `clear_on_open` was successful. -/
  | openReset
  | openPublish
  | openFailed
  /-- `clear` waits for the admitted operations. -/
  | clearDrain (prior : Lifecycle)
  /-- `filter.clear` is out. -/
  | clearFilter (prior : Lifecycle)
  | clearFinish (prior : Lifecycle) (succeeded : Bool)
  /-- `_close_locked` waits for a clear. -/
  | releaseAwait
  /-- `_close_locked` waits for the admitted operations. -/
  | releaseDrain
  /-- `filter.close` is out. -/
  | releaseFilter
  /-- The connection manager is being released. -/
  | releaseManager
  | releaseFinal
  /-- The `finally` of `_run_reserved_release` -/
  | releaseEnd
  | over
deriving DecidableEq

namespace Phase

def opens : Phase → Bool
  | openDrain | openFilter | openReset | openPublish | openFailed => true
  | _ => false

def clears : Phase → Bool
  | clearDrain _ | clearFilter _ | clearFinish .. => true
  | _ => false

def releases : Phase → Bool
  | releaseAwait | releaseDrain | releaseFilter | releaseManager | releaseFinal | releaseEnd => true
  | _ => false

/-- An open or clear that has waited for the operations. -/
def drained : Phase → Bool
  | openFilter | openReset | openPublish | openFailed | clearFilter _ | clearFinish .. => true
  | _ => false

/-- The release has waited for a clear. -/
def awaited : Phase → Bool
  | releaseDrain | releaseFilter | releaseManager | releaseFinal => true
  | _ => false

/-- The release has waited for the operations, too. -/
def settled : Phase → Bool
  | releaseFilter | releaseManager | releaseFinal => true
  | _ => false

/-- A callback of the filter is out. -/
def calls : Phase → Bool
  | openFilter | clearFilter _ | releaseFilter => true
  | _ => false

end Phase

/-- A call of `open`, `clear` or `release`. -/
structure Transition where
  thread : ℕ
  phase : Phase
deriving DecidableEq

/-- An admitted operation. A rollback calls no filter. -/
structure Lease where
  thread : ℕ
  filter : Bool
deriving DecidableEq

/-- What the lifecycle depends on. -/
structure Core where
  lifecycle : Lifecycle
  /-- `_reservation_epoch` -/
  epoch : ℕ
  /-- `_close_requested` -/
  closeRequested : Bool
  /-- `_release_in_progress` -/
  releaseInProgress : Bool
  /-- `_release_thread_id` -/
  releaseThread : Option ℕ
  /-- `_clear_in_progress` -/
  clearInProgress : Bool
  /-- `_lifecycle_transition_thread_id` -/
  transitionThread : Option ℕ
  /-- `_open_owner_token`, as the call that made it -/
  openOwner : Option ℕ
  /-- `_release_owner_token` -/
  releaseOwner : Option ℕ
  /-- `_release_owner_aliases` -/
  aliases : List ℕ
  /-- `_filter_released` -/
  filterReleased : Bool
  /-- `_manager_released` -/
  managerReleased : Bool
  /-- The admitted operations: `_active_operations` and `_active_operation_threads` count them. -/
  operations : List Lease
  calls : List Transition
deriving DecidableEq

/-- What is fixed at construction. -/
structure Config where
  /-- `clear_on_open` -/
  clearOnOpen : Bool
  /-- There is a connection manager, and it is owned. -/
  ownsManager : Bool
deriving DecidableEq

/-- What can happen to the lifecycle. -/
inductive Move
  /-- `_admit_operation` lets an operation in. -/
  | enter (lease : Lease)
  /-- The end of `_admit_operation` -/
  | leave (lease : Lease)
  /-- `_authorize_release_owner_alias` -/
  | authorize (token : ℕ)
  | open (thread : ℕ)
  | clear (thread : ℕ)
  | close (thread owner : ℕ)
  /-- A transition goes on. -/
  | act (n : ℕ) (ok : Bool)
deriving DecidableEq

namespace Core

/-- `_direct_release_owner` -/
def directOwner : ℕ := 0

def new : Core :=
  ⟨.new, 0, false, false, none, false, none, none, none, [], false, false, [], []⟩

/-- The thread has an admitted operation. -/
def busy (s : Core) (thread : ℕ) : Bool := s.operations.any (·.thread = thread)

/-- `_release_owners_are_aliases` -/
def aliased (s : Core) (a b : ℕ) : Bool :=
  a = b || (a = directOwner && b ∈ s.aliases) || (b = directOwner && a ∈ s.aliases)

/-- A transition goes to another phase. -/
def goto (s : Core) (n : ℕ) (c : Transition) (phase : Phase) : Core :=
  { s with calls := s.calls.set n { c with phase } }

/-- `_reserve_release_locked`, with whether the release was reserved -/
def reserve (s : Core) (thread owner : ℕ) (opening : Option ℕ) : Core × Bool :=
  if s.lifecycle = .closed then (s, false)
  else if s.lifecycle = .opening ∧ s.openOwner.isSome ∧ s.openOwner ≠ opening then (s, false)
  else
    let s := if s.lifecycle = .opening then { s with openOwner := none } else s
    if s.transitionThread = some thread ∧ s.clearInProgress then (s, false)
    else if s.busy thread then (s, false)
    else if s.releaseOwner.any (!s.aliased · owner) then (s, false)
    else
      let s := { s with releaseOwner := some (s.releaseOwner.getD owner) }
      if s.releaseInProgress then (s, false)
      else
        ({ s with
            releaseInProgress := true
            releaseThread := some thread
            closeRequested := s.lifecycle = .clearing
            lifecycle := .closing }, true)

/-- Whether a manager is left to be released. -/
def afterFilter (c : Config) (s : Core) : Phase :=
  if s.filterReleased ∧ c.ownsManager ∧ ¬ s.managerReleased then .releaseManager else .releaseFinal

/-- A failed open goes on to clean up, if it gets the release. -/
def cleanUp (s : Core) (n : ℕ) (c : Transition) : Core :=
  let (t, reserved) := s.reserve c.thread directOwner (some n)
  t.goto n c (if reserved then .releaseAwait else .over)

/-- The end of a clear. -/
def finishClear (s : Core) (lifecycle : Lifecycle) : Core :=
  { s with clearInProgress := false, transitionThread := none, lifecycle }

/-- A transition goes on. -/
def act (cfg : Config) (s : Core) (n : ℕ) (c : Transition) (ok : Bool) : Option Core :=
  match c.phase with
  | .openDrain =>
    if ok then
      if s.operations = [] then some { s.goto n c .openFilter with epoch := s.epoch + 1 } else none
    else some { s.goto n c .over with lifecycle := .new, openOwner := none }
  | .openFilter =>
    some (s.goto n c
      (if ok then if cfg.clearOnOpen then .openReset else .openPublish else .openFailed))
  | .openReset => some (s.goto n c .openPublish)
  | .openPublish =>
    some (if s.openOwner = some n then
      { s.goto n c .over with lifecycle := .open, openOwner := none } else s.goto n c .over)
  | .openFailed => some (s.cleanUp n c)
  | .clearDrain prior =>
    if ok then if s.operations = [] then some (s.goto n c (.clearFilter prior)) else none
    else some ((s.finishClear prior).goto n c .over)
  | .clearFilter prior => some (s.goto n c (.clearFinish prior ok))
  | .clearFinish prior succeeded =>
    some { (s.finishClear (if s.closeRequested then .closing else prior)).goto n c .over with
      epoch := if succeeded then s.epoch + 1 else s.epoch }
  | .releaseAwait =>
    if ok then if s.clearInProgress then none else some (s.goto n c .releaseDrain)
    else some (s.goto n c .releaseEnd)
  | .releaseDrain =>
    if ok then
      if s.operations = [] then
        some { s.goto n c (if s.filterReleased then s.afterFilter cfg else .releaseFilter) with
          epoch := s.epoch + 1 }
      else none
    else some (s.goto n c .releaseEnd)
  | .releaseFilter =>
    let s := { s with filterReleased := s.filterReleased || ok }
    some (s.goto n c (s.afterFilter cfg))
  | .releaseManager =>
    some { s.goto n c .releaseFinal with managerReleased := s.managerReleased || ok }
  | .releaseFinal =>
    some (if s.filterReleased ∧ (¬ cfg.ownsManager ∨ s.managerReleased) then
      { s.goto n c .releaseEnd with closeRequested := false, lifecycle := .closed }
      else s.goto n c .releaseEnd)
  | .releaseEnd =>
    some { s.goto n c .over with releaseInProgress := false, releaseThread := none }
  | .over => none

/-- One step. -/
def step (cfg : Config) (s : Core) : Move → Option Core
  | .enter lease =>
    if s.lifecycle.admits ∨ ¬ lease.filter then
      some { s with operations := s.operations ++ [lease] }
    else none
  | .leave lease =>
    if lease ∈ s.operations then some { s with operations := s.operations.erase lease } else none
  | .authorize token =>
    some (if s.lifecycle = .closed ∨ token ∈ s.aliases then s
      else { s with aliases := s.aliases ++ [token] })
  | .open thread =>
    if s.lifecycle = .new then
      some { s with
        lifecycle := .opening
        openOwner := some s.calls.length
        closeRequested := false
        calls := s.calls ++ [⟨thread, .openDrain⟩] }
    else none
  | .clear thread =>
    if s.lifecycle.admits then
      some { s with
        lifecycle := .clearing
        clearInProgress := true
        transitionThread := some thread
        calls := s.calls ++ [⟨thread, .clearDrain s.lifecycle⟩] }
    else none
  | .close thread owner =>
    let (t, reserved) := s.reserve thread owner none
    some (if reserved then { t with calls := t.calls ++ [⟨thread, .releaseAwait⟩] } else t)
  | .act n ok => s.calls[n]?.bind fun c ↦ s.act cfg n c ok

end Core

/-- The lifecycle as a machine. -/
def lifecycleMachine (cfg : Config) : Machine Core Move where
  init := Core.new
  step := Core.step cfg

/-! ## What holds in every run -/

/-- At most one open or clear is under way, and no filter operation runs beside it once it has waited
for them. -/
structure Core.Inv (s : Core) : Prop where
  opening : ∀ (n : ℕ) (c : Transition), s.calls[n]? = some c → c.phase.opens →
    s.openOwner = some n ∧ (s.lifecycle = .opening ∨ s.lifecycle = .closed) ∧
      s.clearInProgress = false
  clears : s.calls.countP (·.phase.clears) = s.clearInProgress.toNat
  clearing : s.clearInProgress →
    s.lifecycle = .clearing ∨ s.lifecycle = .closing ∨ s.lifecycle = .closed
  releases : s.calls.countP (·.phase.releases) = s.releaseInProgress.toNat
  drained : ∀ c ∈ s.calls, c.phase.drained → ∀ l ∈ s.operations, l.filter = false

namespace Phase

variable {phase : Phase}

theorem releases_of_awaited (h : phase.awaited) : phase.releases := by
  cases phase <;> simp [awaited, releases] at h ⊢

theorem awaited_of_settled (h : phase.settled) : phase.awaited := by
  cases phase <;> simp [settled, awaited] at h ⊢

/-- A callback is out for an open, for a clear, or for a release that has waited for both. -/
theorem kinds_of_calls (h : phase.calls) :
    phase.opens ∨ phase.clears ∨ (phase.releases ∧ phase.awaited) := by
  cases phase <;> simp [calls, opens, clears, releases, awaited] at h ⊢

theorem opens_or_clears_of_drained (h : phase.drained) : phase.opens ∨ phase.clears := by
  cases phase <;> simp [drained, opens, clears] at h ⊢

end Phase

namespace Core

variable {cfg : Config} {s t : Core} {n : ℕ} {c d : Transition}

theorem Inv.new : (new).Inv :=
  ⟨nofun, rfl, nofun, rfl, fun _ hc ↦ absurd hc List.not_mem_nil⟩

theorem Inv.clearInProgress_of_mem (h : s.Inv) (hc : c ∈ s.calls) (hp : c.phase.clears) :
    s.clearInProgress = true := by
  have hpos : 0 < s.calls.countP (·.phase.clears) := List.countP_pos_iff.2 ⟨c, hc, hp⟩
  rw [h.clears] at hpos
  cases hp : s.clearInProgress with
  | true => rfl
  | false => simp [hp] at hpos

theorem Inv.releaseInProgress_of_mem (h : s.Inv) (hc : c ∈ s.calls) (hp : c.phase.releases) :
    s.releaseInProgress = true := by
  have hpos : 0 < s.calls.countP (·.phase.releases) := List.countP_pos_iff.2 ⟨c, hc, hp⟩
  rw [h.releases] at hpos
  cases hp : s.releaseInProgress with
  | true => rfl
  | false => simp [hp] at hpos

/-- While operations are admitted, no open or clear is under way. -/
theorem Inv.not_opens_or_clears (h : s.Inv) (hs : s.lifecycle.admits) (hc : c ∈ s.calls) :
    c.phase.opens = false ∧ c.phase.clears = false := by
  constructor
  · by_contra hp
    obtain ⟨n, hn⟩ := List.mem_iff_getElem?.1 hc
    obtain ⟨-, hl | hl, -⟩ := h.opening n c hn (by simpa using hp)
    · simp [hl, Lifecycle.admits] at hs
    · simp [hl, Lifecycle.admits] at hs
  · by_contra hp
    have hl := h.clearing (h.clearInProgress_of_mem hc (by simpa using hp))
    rcases hl with hl | hl | hl <;> simp [hl, Lifecycle.admits] at hs

/-- What a call of `_reserve_release_locked` leaves alone. -/
structure Untouched (s t : Core) : Prop where
  epoch : t.epoch = s.epoch
  clearInProgress : t.clearInProgress = s.clearInProgress
  transitionThread : t.transitionThread = s.transitionThread
  aliases : t.aliases = s.aliases
  filterReleased : t.filterReleased = s.filterReleased
  managerReleased : t.managerReleased = s.managerReleased
  operations : t.operations = s.operations
  calls : t.calls = s.calls

/-- The open that may be under way is the caller's own. -/
def Entitled (s : Core) (opening : Option ℕ) : Prop :=
  s.lifecycle = .opening → s.openOwner = none ∨ s.openOwner = opening

/-- A release was reserved. -/
structure Reserved (s t : Core) (opening : Option ℕ) : Prop extends s.Untouched t where
  entitled : s.Entitled opening
  notClosed : s.lifecycle ≠ .closed
  lifecycle : t.lifecycle = .closing
  free : s.releaseInProgress = false
  reserved : t.releaseInProgress = true
  closeRequested : t.closeRequested = decide (s.lifecycle = .clearing)

/-- A release was not reserved. -/
structure Refused (s t : Core) (opening : Option ℕ) : Prop extends s.Untouched t where
  lifecycle : t.lifecycle = s.lifecycle
  releaseInProgress : t.releaseInProgress = s.releaseInProgress
  closeRequested : t.closeRequested = s.closeRequested
  openOwner : t.openOwner = s.openOwner ∨ (s.lifecycle = .opening ∧ s.Entitled opening)

theorem reserve_cases (s : Core) (thread owner : ℕ) (opening : Option ℕ) :
    (∃ t, s.reserve thread owner opening = (t, true) ∧ s.Reserved t opening) ∨
      ∃ t, s.reserve thread owner opening = (t, false) ∧ s.Refused t opening := by
  have refl : s.Untouched s := ⟨rfl, rfl, rfl, rfl, rfl, rfl, rfl, rfl⟩
  unfold reserve
  split
  · exact .inr ⟨_, rfl, refl, rfl, rfl, rfl, .inl rfl⟩
  rename_i hclosed
  split
  · exact .inr ⟨_, rfl, refl, rfl, rfl, rfl, .inl rfl⟩
  rename_i hopen
  have hentitled : s.Entitled opening := by
    intro hl
    by_contra hne
    push Not at hne
    exact hopen ⟨hl, Option.isSome_iff_ne_none.2 hne.1, hne.2⟩
  -- The token of the open is dropped; nothing else changes up to the reservation.
  obtain ⟨u, hu, hl, hr, hc, ho⟩ : ∃ u, u =
      (if s.lifecycle = .opening then { s with openOwner := none } else s) ∧
      u.lifecycle = s.lifecycle ∧ u.releaseInProgress = s.releaseInProgress ∧
      u.closeRequested = s.closeRequested ∧
      (u.openOwner = s.openOwner ∨ (s.lifecycle = .opening ∧ s.Entitled opening)) := by
    refine ⟨_, rfl, ?_⟩
    split
    · rename_i hl
      exact ⟨rfl, rfl, rfl, .inr ⟨hl, hentitled⟩⟩
    · exact ⟨rfl, rfl, rfl, .inl rfl⟩
  have hsame : s.Untouched u := by
    rw [hu]
    split <;> exact ⟨rfl, rfl, rfl, rfl, rfl, rfl, rfl, rfl⟩
  rw [← hu]
  dsimp only
  split
  · exact .inr ⟨_, rfl, hsame, hl, hr, hc, ho⟩
  split
  · exact .inr ⟨_, rfl, hsame, hl, hr, hc, ho⟩
  split
  · exact .inr ⟨_, rfl, hsame, hl, hr, hc, ho⟩
  split
  · exact .inr ⟨_, rfl, { hsame with }, hl, hr, hc, ho⟩
  · rename_i hfree
    refine .inl ⟨_, rfl, { hsame with }, hentitled, hclosed, rfl, ?_, rfl, ?_⟩
    · rw [← hr]
      simpa using hfree
    · simp [hl]

theorem close_cases (cfg : Config) (s : Core) (thread owner : ℕ) :
    (∃ u, s.Reserved u none ∧ s.step cfg (.close thread owner) =
      some { u with calls := u.calls ++ [⟨thread, .releaseAwait⟩] }) ∨
      ∃ u, s.Refused u none ∧ s.step cfg (.close thread owner) = some u := by
  rcases s.reserve_cases thread owner none with ⟨u, hr, hu⟩ | ⟨u, hr, hu⟩
  · exact .inl ⟨u, hu, by simp [Core.step, hr]⟩
  · exact .inr ⟨u, hu, by simp [Core.step, hr]⟩

theorem cleanUp_cases (s : Core) (n : ℕ) (c : Transition) :
    (∃ u, s.Reserved u (some n) ∧ s.cleanUp n c = u.goto n c .releaseAwait) ∨
      ∃ u, s.Refused u (some n) ∧ s.cleanUp n c = u.goto n c .over := by
  rcases s.reserve_cases c.thread directOwner (some n) with ⟨u, hr, hu⟩ | ⟨u, hr, hu⟩
  · exact .inl ⟨u, hu, by simp [Core.cleanUp, hr]⟩
  · exact .inr ⟨u, hu, by simp [Core.cleanUp, hr]⟩

/-- A transition moves, and the lifecycle with it. -/
theorem Inv.update (h : s.Inv) (hn : s.calls[n]? = some c) (hcalls : t.calls = s.calls.set n d)
    (hopens : ∀ (m : ℕ) (b : Transition), t.calls[m]? = some b → b.phase.opens →
      t.openOwner = some m ∧ (t.lifecycle = .opening ∨ t.lifecycle = .closed) ∧
        t.clearInProgress = false)
    (hclears : t.clearInProgress.toNat + c.phase.clears.toNat =
      s.clearInProgress.toNat + d.phase.clears.toNat)
    (hclearing : t.clearInProgress →
      t.lifecycle = .clearing ∨ t.lifecycle = .closing ∨ t.lifecycle = .closed)
    (hreleases : t.releaseInProgress.toNat + c.phase.releases.toNat =
      s.releaseInProgress.toNat + d.phase.releases.toNat)
    (hoperations : t.operations = s.operations)
    (hdrained : d.phase.drained → c.phase.drained = false →
      ∀ l ∈ s.operations, l.filter = false) : t.Inv := by
  refine ⟨hopens, ?_, hclearing, ?_, ?_⟩
  · have hcount := List.countP_set_add (fun b : Transition ↦ b.phase.clears) (b := d) hn
    have := h.clears
    rw [hcalls]
    omega
  · have hcount := List.countP_set_add (fun b : Transition ↦ b.phase.releases) (b := d) hn
    have := h.releases
    rw [hcalls]
    omega
  · rw [hcalls, hoperations]
    refine List.forall_mem_set h.drained fun hd ↦ ?_
    by_cases hc : c.phase.drained
    · exact h.drained c (List.mem_of_getElem? hn) hc
    · exact hdrained hd (by simpa using hc)

/-- A transition moves between phases of one kind, and the lifecycle stays. -/
theorem Inv.move (h : s.Inv) (hn : s.calls[n]? = some c) (hcalls : t.calls = s.calls.set n d)
    (howner : t.openOwner = s.openOwner) (hlifecycle : t.lifecycle = s.lifecycle)
    (hclear : t.clearInProgress = s.clearInProgress)
    (hrelease : t.releaseInProgress = s.releaseInProgress)
    (hoperations : t.operations = s.operations) (hopens : d.phase.opens → c.phase.opens)
    (hclears : d.phase.clears = c.phase.clears) (hreleases : d.phase.releases = c.phase.releases)
    (hdrained : d.phase.drained → c.phase.drained = false →
      ∀ l ∈ s.operations, l.filter = false) : t.Inv := by
  refine h.update hn hcalls (fun m b hm hb ↦ ?_) (by rw [hclear, hclears]) ?_
    (by rw [hrelease, hreleases]) hoperations hdrained
  · rw [howner, hlifecycle, hclear]
    rw [hcalls] at hm
    obtain ⟨rfl, rfl⟩ | ⟨-, hm⟩ := List.getElem?_set_some hm
    · exact h.opening m c hn (hopens hb)
    · exact h.opening m b hm hb
  · rw [hclear, hlifecycle]
    exact h.clearing

/-- No open is under way beside a clear. -/
theorem Inv.not_opens (h : s.Inv) (hn : s.calls[n]? = some c) (hc : c.phase.clears) {m : ℕ}
    {b : Transition} (hm : s.calls[m]? = some b) : b.phase.opens = false := by
  by_contra hb
  obtain ⟨-, -, hclear⟩ := h.opening m b hm (by simpa using hb)
  simp [h.clearInProgress_of_mem (List.mem_of_getElem? hn) hc] at hclear

/-- The open under way is the only one. -/
theorem Inv.opens_unique (h : s.Inv) (hn : s.calls[n]? = some c) (hc : c.phase.opens) {m : ℕ}
    {b : Transition} (hm : s.calls[m]? = some b) (hb : b.phase.opens) : m = n := by
  have hn := (h.opening n c hn hc).1
  rw [(h.opening m b hm hb).1] at hn
  exact Option.some.inj hn

/-- The end of a clear: the lifecycle is whatever it leaves. -/
theorem Inv.finishClear (h : s.Inv) (hn : s.calls[n]? = some c) (hc : c.phase.clears)
    (hreleases : c.phase.releases = false) (lifecycle : Lifecycle) (epoch : ℕ) :
    Inv { (s.finishClear lifecycle).goto n c .over with epoch } := by
  have hin := h.clearInProgress_of_mem (List.mem_of_getElem? hn) hc
  refine h.update hn rfl (fun m b hm hb ↦ ?_) ?_ nofun ?_ rfl nofun
  · obtain ⟨rfl, rfl⟩ | ⟨-, hm⟩ := List.getElem?_set_some hm
    · simp [Phase.opens] at hb
    · simp [h.not_opens hn hc hm] at hb
  · rw [hc, hin]
    rfl
  · rw [hreleases]
    rfl

/-- The end of an open: the lifecycle is whatever it leaves. -/
theorem Inv.finishOpen (h : s.Inv) (hn : s.calls[n]? = some c) (hc : c.phase.opens)
    (hclears : c.phase.clears = false) (hreleases : c.phase.releases = false)
    (lifecycle : Lifecycle) :
    Inv { s.goto n c .over with lifecycle, openOwner := none } := by
  have hclear := (h.opening n c hn hc).2.2
  refine h.update hn rfl (fun m b hm hb ↦ ?_) ?_ ?_ ?_ rfl nofun
  · obtain ⟨rfl, rfl⟩ | ⟨hne, hm⟩ := List.getElem?_set_some hm
    · simp [Phase.opens] at hb
    · exact absurd (h.opens_unique hn hc hm hb) hne
  · rw [hclears]
    rfl
  · simp [Core.goto, hclear]
  · rw [hreleases]
    rfl

/-- A failed open that gets the release goes on as a release. -/
theorem Inv.cleanUp (h : s.Inv) (hn : s.calls[n]? = some c) (hc : c.phase = .openFailed) :
    (s.cleanUp n c).Inv := by
  have hopens : c.phase.opens := by simp [hc, Phase.opens]
  have hclear := (h.opening n c hn hopens).2.2
  have hothers : ∀ (u : Core) (phase : Phase), u.calls = s.calls → phase.opens = false →
      ∀ (m : ℕ) (b : Transition), (u.goto n c phase).calls[m]? = some b → b.phase.opens = false := by
    intro u phase hu hphase m b hm
    change (u.calls.set n _)[m]? = some b at hm
    rw [hu] at hm
    obtain ⟨rfl, rfl⟩ | ⟨hne, hm⟩ := List.getElem?_set_some hm
    · exact hphase
    · by_contra hb
      exact absurd (h.opens_unique hn hopens hm (by simpa using hb)) hne
  rcases s.cleanUp_cases n c with ⟨u, hu, heq⟩ | ⟨u, hu, heq⟩
  · rw [heq]
    refine h.update hn (congrArg (List.set · n _) hu.calls) (fun m b hm hb ↦ ?_) ?_ ?_ ?_
      hu.operations (by simp [Phase.drained])
    · simp [hothers u _ hu.calls rfl m b hm] at hb
    · simp [Core.goto, hu.clearInProgress, hc, Phase.clears]
    · simp [Core.goto, hu.clearInProgress, hclear]
    · simp [Core.goto, hu.reserved, hu.free, hc, Phase.releases]
  · rw [heq]
    refine h.update hn (congrArg (List.set · n _) hu.calls) (fun m b hm hb ↦ ?_) ?_ ?_ ?_
      hu.operations (by simp [Phase.drained])
    · simp [hothers u _ hu.calls rfl m b hm] at hb
    · simp [Core.goto, hu.clearInProgress, hc, Phase.clears]
    · simp [Core.goto, hu.clearInProgress, hclear]
    · simp [Core.goto, hu.releaseInProgress, hc, Phase.releases]

theorem afterFilter_cases (cfg : Config) (s : Core) :
    s.afterFilter cfg = .releaseManager ∨ s.afterFilter cfg = .releaseFinal := by
  unfold afterFilter
  split
  · exact .inl rfl
  · exact .inr rfl

theorem Inv.act (h : s.Inv) (hn : s.calls[n]? = some c) {ok : Bool}
    (ht : s.act cfg n c ok = some t) : t.Inv := by
  unfold Core.act at ht
  split at ht
  · rename_i hc
    split at ht
    · obtain ⟨hempty, ⟨⟩⟩ := Option.ite_none_right_eq_some.1 ht
      exact h.move hn rfl rfl rfl rfl rfl rfl (by simp [hc, Phase.opens])
        (by simp [hc, Phase.clears]) (by simp [hc, Phase.releases]) (by simp [hempty])
    · obtain ⟨⟩ := ht
      exact h.finishOpen hn (by simp [hc, Phase.opens]) (by simp [hc, Phase.clears])
        (by simp [hc, Phase.releases]) .new
  · rename_i hc
    obtain ⟨⟩ := ht
    refine h.move hn rfl rfl rfl rfl rfl rfl (by simp [hc, Phase.opens]) ?_ ?_
      (by simp [hc, Phase.drained])
    · rw [hc]
      split
      · split <;> rfl
      · rfl
    · rw [hc]
      split
      · split <;> rfl
      · rfl
  · rename_i hc
    obtain ⟨⟩ := ht
    exact h.move hn rfl rfl rfl rfl rfl rfl (by simp [hc, Phase.opens])
      (by simp [hc, Phase.clears]) (by simp [hc, Phase.releases]) (by simp [hc, Phase.drained])
  · rename_i hc
    obtain ⟨⟩ := ht
    split
    · exact h.finishOpen hn (by simp [hc, Phase.opens]) (by simp [hc, Phase.clears])
        (by simp [hc, Phase.releases]) .open
    · exact h.move hn rfl rfl rfl rfl rfl rfl nofun
        (by simp [hc, Phase.clears]) (by simp [hc, Phase.releases]) nofun
  · rename_i hc
    obtain ⟨⟩ := ht
    exact h.cleanUp hn hc
  · rename_i prior hc
    split at ht
    · obtain ⟨hempty, ⟨⟩⟩ := Option.ite_none_right_eq_some.1 ht
      exact h.move hn rfl rfl rfl rfl rfl rfl nofun
        (by simp [hc, Phase.clears]) (by simp [hc, Phase.releases]) (by simp [hempty])
    · obtain ⟨⟩ := ht
      exact h.finishClear hn (by simp [hc, Phase.clears]) (by simp [hc, Phase.releases]) prior s.epoch
  · rename_i prior hc
    obtain ⟨⟩ := ht
    exact h.move hn rfl rfl rfl rfl rfl rfl nofun
      (by simp [hc, Phase.clears]) (by simp [hc, Phase.releases]) (by simp [hc, Phase.drained])
  · rename_i prior succeeded hc
    obtain ⟨⟩ := ht
    exact h.finishClear hn (by simp [hc, Phase.clears]) (by simp [hc, Phase.releases]) _ _
  · rename_i hc
    split at ht
    · split at ht
      · simp at ht
      · obtain ⟨⟩ := ht
        exact h.move hn rfl rfl rfl rfl rfl rfl nofun
          (by simp [hc, Phase.clears]) (by simp [hc, Phase.releases]) nofun
    · obtain ⟨⟩ := ht
      exact h.move hn rfl rfl rfl rfl rfl rfl nofun
        (by simp [hc, Phase.clears]) (by simp [hc, Phase.releases]) nofun
  · rename_i hc
    split at ht
    · obtain ⟨hempty, ⟨⟩⟩ := Option.ite_none_right_eq_some.1 ht
      refine h.move hn rfl rfl rfl rfl rfl rfl ?_ ?_ ?_ (by simp [hempty])
      all_goals
        rw [hc]
        split
        · rcases s.afterFilter_cases cfg with hp | hp <;> simp [hp, Phase.opens, Phase.clears, Phase.releases]
        · simp [Phase.opens, Phase.clears, Phase.releases]
    · obtain ⟨⟩ := ht
      exact h.move hn rfl rfl rfl rfl rfl rfl nofun
        (by simp [hc, Phase.clears]) (by simp [hc, Phase.releases]) nofun
  · rename_i hc
    obtain ⟨⟩ := ht
    refine h.move hn rfl rfl rfl rfl rfl rfl ?_ ?_ ?_ ?_
    all_goals
      rw [hc]
      rcases afterFilter_cases cfg { s with filterReleased := s.filterReleased || ok } with hp | hp <;>
        simp [hp, Phase.opens, Phase.clears, Phase.releases, Phase.drained]
  · rename_i hc
    obtain ⟨⟩ := ht
    exact h.move hn rfl rfl rfl rfl rfl rfl nofun
      (by simp [hc, Phase.clears]) (by simp [hc, Phase.releases]) nofun
  · rename_i hc
    obtain ⟨⟩ := ht
    split
    · -- The filter is closed, whatever else is under way.
      refine h.update hn rfl (fun m b hm hb ↦ ?_) (by simp [hc, Core.goto, Phase.clears])
        (fun _ ↦ .inr (.inr rfl)) (by simp [hc, Core.goto, Phase.releases]) rfl nofun
      obtain ⟨rfl, rfl⟩ | ⟨-, hm⟩ := List.getElem?_set_some hm
      · simp [Phase.opens] at hb
      · obtain ⟨howner, -, hclear⟩ := h.opening m b hm hb
        exact ⟨howner, .inr rfl, hclear⟩
    · exact h.move hn rfl rfl rfl rfl rfl rfl nofun
        (by simp [hc, Phase.clears]) (by simp [hc, Phase.releases]) nofun
  · rename_i hc
    obtain ⟨⟩ := ht
    have hin := h.releaseInProgress_of_mem (List.mem_of_getElem? hn) (by simp [hc, Phase.releases])
    refine h.update hn rfl (fun m b hm hb ↦ ?_) (by simp [hc, Core.goto, Phase.clears])
      h.clearing (by simp [hc, hin, Phase.releases]) rfl nofun
    obtain ⟨rfl, rfl⟩ | ⟨-, hm⟩ := List.getElem?_set_some hm
    · simp [Phase.opens] at hb
    · exact h.opening m b hm hb
  · simp at ht

/-- A new transition. -/
theorem Inv.begin (h : s.Inv) (hcalls : t.calls = s.calls ++ [d])
    (hopens : ∀ (m : ℕ) (b : Transition), t.calls[m]? = some b → b.phase.opens →
      t.openOwner = some m ∧ (t.lifecycle = .opening ∨ t.lifecycle = .closed) ∧
        t.clearInProgress = false)
    (hclears : t.clearInProgress.toNat = s.clearInProgress.toNat + d.phase.clears.toNat)
    (hclearing : t.clearInProgress →
      t.lifecycle = .clearing ∨ t.lifecycle = .closing ∨ t.lifecycle = .closed)
    (hreleases : t.releaseInProgress.toNat = s.releaseInProgress.toNat + d.phase.releases.toNat)
    (hoperations : t.operations = s.operations) (hdrained : d.phase.drained = false) : t.Inv := by
  refine ⟨hopens, ?_, hclearing, ?_, fun b hb hp ↦ ?_⟩
  · rw [hcalls, List.countP_concat, h.clears, hclears]
  · rw [hcalls, List.countP_concat, h.releases, hreleases]
  · rw [hcalls] at hb
    rw [hoperations]
    rcases List.mem_append.1 hb with hb | hb
    · exact h.drained b hb hp
    · rw [List.mem_singleton.1 hb, hdrained] at hp
      simp at hp

/-- No release, no clear and no open is the first to begin. -/
theorem Inv.clearInProgress_of_admits (h : s.Inv) (hs : s.lifecycle.admits) :
    s.clearInProgress = false := by
  by_contra hne
  rcases h.clearing (by simpa using hne) with hl | hl | hl <;> simp [hl, Lifecycle.admits] at hs

theorem Inv.close (h : s.Inv) (thread owner : ℕ) (ht : s.step cfg (.close thread owner) = some t) :
    t.Inv := by
  -- An open that is under way keeps its token, and a release is refused.
  have hentitled : ∀ (m : ℕ) (b : Transition), s.calls[m]? = some b → b.phase.opens →
      s.lifecycle ≠ .closed → ¬ s.Entitled none := by
    intro m b hm hb hclosed he
    obtain ⟨howner, hl | hl, -⟩ := h.opening m b hm hb
    · rcases he hl with hnone | hnone <;> simp [howner] at hnone
    · exact hclosed hl
  rcases s.close_cases cfg thread owner with ⟨u, hu, heq⟩ | ⟨u, hu, heq⟩
  · obtain ⟨⟩ := heq.symm.trans ht
    refine h.begin (congrArg (· ++ _) hu.calls) (fun m b hm hb ↦ ?_) ?_ (fun _ ↦ .inr (.inl hu.lifecycle))
      ?_ hu.operations rfl
    · rw [hu.calls] at hm
      obtain ⟨rfl, rfl⟩ | hm := List.getElem?_concat_some hm
      · simp [Phase.opens] at hb
      · exact absurd hu.entitled (hentitled m b hm hb hu.notClosed)
    · simp [hu.clearInProgress, Phase.clears]
    · simp [hu.reserved, hu.free, Phase.releases]
  · obtain ⟨⟩ := heq.symm.trans ht
    refine ⟨fun m b hm hb ↦ ?_, ?_, ?_, ?_, ?_⟩
    · rw [hu.calls] at hm
      rw [hu.lifecycle, hu.clearInProgress]
      obtain ⟨howner, hl⟩ := h.opening m b hm hb
      rcases hu.openOwner with ho | ⟨hopen, ho⟩
      · exact ⟨ho.trans howner, hl⟩
      · exact absurd ho (hentitled m b hm hb (by simp [hopen]))
    · rw [hu.calls, hu.clearInProgress]
      exact h.clears
    · rw [hu.clearInProgress, hu.lifecycle]
      exact h.clearing
    · rw [hu.calls, hu.releaseInProgress]
      exact h.releases
    · rw [hu.calls, hu.operations]
      exact h.drained

theorem Inv.step (h : s.Inv) {move : Move} (ht : s.step cfg move = some t) : t.Inv := by
  cases move with
  | enter lease =>
    obtain ⟨hadmits, ⟨⟩⟩ := Option.ite_none_right_eq_some.1 ht
    refine ⟨h.opening, h.clears, h.clearing, h.releases, fun c hc hp l hl ↦ ?_⟩
    rcases List.mem_append.1 hl with hl | hl
    · exact h.drained c hc hp l hl
    · rw [List.mem_singleton.1 hl]
      rcases hadmits with hadmits | hfilter
      · obtain ⟨ho, hcl⟩ := h.not_opens_or_clears hadmits hc
        rcases Phase.opens_or_clears_of_drained hp with hp | hp
        · simp [hp] at ho
        · simp [hp] at hcl
      · simpa using hfilter
  | leave lease =>
    obtain ⟨-, ⟨⟩⟩ := Option.ite_none_right_eq_some.1 ht
    exact ⟨h.opening, h.clears, h.clearing, h.releases,
      fun c hc hp l hl ↦ h.drained c hc hp l (List.mem_of_mem_erase hl)⟩
  | authorize token =>
    obtain ⟨⟩ := ht
    split
    · exact h
    · exact ⟨h.opening, h.clears, h.clearing, h.releases, h.drained⟩
  | «open» thread =>
    obtain ⟨hnew, ⟨⟩⟩ := Option.ite_none_right_eq_some.1 ht
    have hadmits : s.lifecycle.admits := by simp [hnew, Lifecycle.admits]
    have hclear := h.clearInProgress_of_admits hadmits
    refine h.begin rfl (fun m b hm hb ↦ ?_) (by simp [Phase.clears]) (by simp [hclear])
      (by simp [Phase.releases]) rfl rfl
    obtain ⟨rfl, rfl⟩ | hm := List.getElem?_concat_some hm
    · exact ⟨rfl, .inl rfl, hclear⟩
    · simp [(h.not_opens_or_clears hadmits (List.mem_of_getElem? hm)).1] at hb
  | clear thread =>
    obtain ⟨hadmits, ⟨⟩⟩ := Option.ite_none_right_eq_some.1 ht
    have hclear := h.clearInProgress_of_admits hadmits
    refine h.begin rfl (fun m b hm hb ↦ ?_) (by simp [hclear, Phase.clears]) (fun _ ↦ .inl rfl)
      (by simp [Phase.releases]) rfl rfl
    obtain ⟨rfl, rfl⟩ | hm := List.getElem?_concat_some hm
    · simp [Phase.opens] at hb
    · simp [(h.not_opens_or_clears hadmits (List.mem_of_getElem? hm)).1] at hb
  | close thread owner => exact h.close thread owner ht
  | act n ok =>
    obtain ⟨c, hn, ht⟩ := Option.bind_eq_some_iff.1 ht
    exact h.act hn ht

end Core

/-! ## The epoch -/

namespace Core

variable {cfg : Config} {s t : Core} {n : ℕ} {c : Transition}

/-- Transitions leave the operations alone, and retire the epoch only when no filter operation is
left. -/
theorem Inv.epoch_act (h : s.Inv) (hn : s.calls[n]? = some c) {ok : Bool}
    (ht : s.act cfg n c ok = some t) : t.operations = s.operations ∧
      (t.epoch = s.epoch ∨ t.epoch = s.epoch + 1 ∧ ∀ l ∈ s.operations, l.filter = false) := by
  unfold Core.act at ht
  split at ht
  · split at ht
    · obtain ⟨hempty, ⟨⟩⟩ := Option.ite_none_right_eq_some.1 ht
      exact ⟨rfl, .inr ⟨rfl, by simp [hempty]⟩⟩
    · obtain ⟨⟩ := ht
      exact ⟨rfl, .inl rfl⟩
  · obtain ⟨⟩ := ht
    exact ⟨rfl, .inl rfl⟩
  · obtain ⟨⟩ := ht
    exact ⟨rfl, .inl rfl⟩
  · obtain ⟨⟩ := ht
    split <;> exact ⟨rfl, .inl rfl⟩
  · obtain ⟨⟩ := ht
    rcases s.cleanUp_cases n c with ⟨u, hu, heq⟩ | ⟨u, hu, heq⟩
    · rw [heq]
      exact ⟨hu.operations, .inl hu.epoch⟩
    · rw [heq]
      exact ⟨hu.operations, .inl hu.epoch⟩
  · split at ht
    · obtain ⟨-, ⟨⟩⟩ := Option.ite_none_right_eq_some.1 ht
      exact ⟨rfl, .inl rfl⟩
    · obtain ⟨⟩ := ht
      exact ⟨rfl, .inl rfl⟩
  · obtain ⟨⟩ := ht
    exact ⟨rfl, .inl rfl⟩
  · -- The clear has waited for the operations, and none was admitted since.
    rename_i prior succeeded hc
    obtain ⟨⟩ := ht
    refine ⟨rfl, ?_⟩
    have hdrained := h.drained c (List.mem_of_getElem? hn) (by simp [hc, Phase.drained])
    dsimp only
    split
    · exact .inr ⟨rfl, hdrained⟩
    · exact .inl rfl
  · split at ht
    · split at ht
      · simp at ht
      · obtain ⟨⟩ := ht
        exact ⟨rfl, .inl rfl⟩
    · obtain ⟨⟩ := ht
      exact ⟨rfl, .inl rfl⟩
  · split at ht
    · obtain ⟨hempty, ⟨⟩⟩ := Option.ite_none_right_eq_some.1 ht
      exact ⟨rfl, .inr ⟨rfl, by simp [hempty]⟩⟩
    · obtain ⟨⟩ := ht
      exact ⟨rfl, .inl rfl⟩
  · obtain ⟨⟩ := ht
    exact ⟨rfl, .inl rfl⟩
  · obtain ⟨⟩ := ht
    exact ⟨rfl, .inl rfl⟩
  · obtain ⟨⟩ := ht
    split <;> exact ⟨rfl, .inl rfl⟩
  · obtain ⟨⟩ := ht
    exact ⟨rfl, .inl rfl⟩
  · simp at ht

theorem Inv.epoch_step (h : s.Inv) {move : Move} (ht : s.step cfg move = some t)
    (henter : ∀ l, move ≠ .enter l) (hleave : ∀ l, move ≠ .leave l) :
    t.operations = s.operations ∧
      (t.epoch = s.epoch ∨ t.epoch = s.epoch + 1 ∧ ∀ l ∈ s.operations, l.filter = false) := by
  cases move with
  | enter lease => exact absurd rfl (henter lease)
  | leave lease => exact absurd rfl (hleave lease)
  | authorize token =>
    obtain ⟨⟩ := ht
    split <;> exact ⟨rfl, .inl rfl⟩
  | «open» thread =>
    obtain ⟨-, ⟨⟩⟩ := Option.ite_none_right_eq_some.1 ht
    exact ⟨rfl, .inl rfl⟩
  | clear thread =>
    obtain ⟨-, ⟨⟩⟩ := Option.ite_none_right_eq_some.1 ht
    exact ⟨rfl, .inl rfl⟩
  | close thread owner =>
    rcases s.close_cases cfg thread owner with ⟨u, hu, heq⟩ | ⟨u, hu, heq⟩
    · obtain ⟨⟩ := heq.symm.trans ht
      exact ⟨hu.operations, .inl hu.epoch⟩
    · obtain ⟨⟩ := heq.symm.trans ht
      exact ⟨hu.operations, .inl hu.epoch⟩
  | act n ok =>
    obtain ⟨c, hn, ht⟩ := Option.bind_eq_some_iff.1 ht
    exact h.epoch_act hn ht

end Core

/-! ## The release -/

/-- A transition does not put the lifecycle back under a reserved release: no wait of a clear runs out
while a release is reserved, and a clear that ends then was told so. -/
def Phase.Careful (s : Core) (ok : Bool) : Phase → Prop
  | .clearDrain _ => ok = false → s.releaseInProgress = false
  | .clearFinish .. => s.releaseInProgress → s.closeRequested
  | _ => True

instance (s : Core) (ok : Bool) : DecidablePred (Phase.Careful s ok)
  | .clearDrain _ => inferInstanceAs (Decidable (_ → _))
  | .clearFinish .. => inferInstanceAs (Decidable (_ → _))
  | .openDrain | .openFilter | .openReset | .openPublish | .openFailed | .clearFilter _
  | .releaseAwait | .releaseDrain | .releaseFilter | .releaseManager | .releaseFinal | .releaseEnd
  | .over => isTrue trivial

def Move.Careful (s : Core) : Move → Prop
  | .act n ok => ∀ c ∈ s.calls[n]?, c.phase.Careful s ok
  | _ => True

instance (s : Core) : DecidablePred (Move.Careful s)
  | .act n ok => inferInstanceAs (Decidable (∀ c ∈ s.calls[n]?, c.phase.Careful s ok))
  | .enter _ | .leave _ | .authorize _ | .open _ | .clear _ | .close .. => isTrue trivial

/-- A reserved release has stopped admission, and the callbacks of the filter exclude each other and
all filter operations. -/
structure Core.Exclusive (cfg : Config) (s : Core) : Prop where
  lifecycle : s.releaseInProgress → s.lifecycle = .closing ∨ s.lifecycle = .closed
  admission : s.releaseInProgress → ∀ lease : Lease, lease.filter → s.step cfg (.enter lease) = none
  operations : ∀ c ∈ s.calls, c.phase.calls → ∀ l ∈ s.operations, l.filter = false
  callbacks : ∀ (n m : ℕ) (c d : Transition), s.calls[n]? = some c → s.calls[m]? = some d →
    c.phase.calls → d.phase.calls → n = m

/-- What a run keeps whose steps are careful. -/
structure Core.Safe (s : Core) : Prop extends s.Inv where
  lifecycle : s.releaseInProgress → s.lifecycle = .closing ∨ s.lifecycle = .closed
  open_lifecycle : ∀ c ∈ s.calls, c.phase.opens → s.lifecycle = .opening
  awaited : ∀ c ∈ s.calls, c.phase.awaited → s.clearInProgress = false
  settled : ∀ c ∈ s.calls, c.phase.settled → ∀ l ∈ s.operations, l.filter = false

namespace Core

variable {cfg : Config} {s t : Core} {n : ℕ} {c d : Transition}

theorem Safe.new : (new).Safe :=
  ⟨.new, nofun, fun _ hc ↦ absurd hc List.not_mem_nil, fun _ hc ↦ absurd hc List.not_mem_nil,
    fun _ hc ↦ absurd hc List.not_mem_nil⟩

theorem Safe.update (h : s.Safe) (ht : t.Inv) (hn : s.calls[n]? = some c)
    (hcalls : t.calls = s.calls.set n d) (hoperations : t.operations = s.operations)
    (hlifecycle : t.releaseInProgress → t.lifecycle = .closing ∨ t.lifecycle = .closed)
    (hopens : ∀ b ∈ t.calls, b.phase.opens → t.lifecycle = .opening)
    (hawaited : ∀ b ∈ t.calls, b.phase.awaited → t.clearInProgress = false)
    (hsettled : d.phase.settled → c.phase.settled = false →
      ∀ l ∈ s.operations, l.filter = false) : t.Safe := by
  refine ⟨ht, hlifecycle, hopens, hawaited, ?_⟩
  rw [hcalls, hoperations]
  refine List.forall_mem_set h.settled fun hd ↦ ?_
  by_cases hc : c.phase.settled
  · exact h.settled c (List.mem_of_getElem? hn) hc
  · exact hsettled hd (by simpa using hc)

/-- A transition moves, and the lifecycle stays. -/
theorem Safe.move (h : s.Safe) (ht : t.Inv) (hn : s.calls[n]? = some c)
    (hcalls : t.calls = s.calls.set n d) (hlifecycle : t.lifecycle = s.lifecycle)
    (hclear : t.clearInProgress = s.clearInProgress)
    (hrelease : t.releaseInProgress → s.releaseInProgress)
    (hoperations : t.operations = s.operations) (hopens : d.phase.opens → c.phase.opens)
    (hawaited : d.phase.awaited → c.phase.awaited = false → s.clearInProgress = false)
    (hsettled : d.phase.settled → c.phase.settled = false →
      ∀ l ∈ s.operations, l.filter = false) : t.Safe := by
  have hmem := List.mem_of_getElem? hn
  refine h.update ht hn hcalls hoperations ?_ ?_ ?_ hsettled
  · rw [hlifecycle]
    exact fun hr ↦ h.lifecycle (hrelease hr)
  · rw [hcalls, hlifecycle]
    exact List.forall_mem_set h.open_lifecycle fun hd ↦ h.open_lifecycle c hmem (hopens hd)
  · rw [hcalls, hclear]
    refine List.forall_mem_set h.awaited fun hd ↦ ?_
    by_cases hc : c.phase.awaited
    · exact h.awaited c hmem hc
    · exact hawaited hd (by simpa using hc)

/-- Nothing of a release is under way unless one is reserved. -/
theorem Inv.not_releases (h : s.Inv) (hr : s.releaseInProgress = false) (hc : c ∈ s.calls) :
    c.phase.releases = false := by
  by_contra hp
  simp [h.releaseInProgress_of_mem hc (by simpa using hp)] at hr

/-- An open that is under way keeps releases out. -/
theorem Safe.not_reserved (h : s.Safe) (hc : c ∈ s.calls) (hp : c.phase.opens) :
    s.releaseInProgress = false := by
  by_contra hr
  have hl := h.open_lifecycle c hc hp
  rcases h.lifecycle (by simpa using hr) with hl' | hl' <;> simp [hl] at hl'

/-- With no release reserved, only the open is left to be checked. -/
theorem Safe.of_free (ht : t.Inv) (hfree : t.releaseInProgress = false)
    (hopens : ∀ b ∈ t.calls, b.phase.opens → t.lifecycle = .opening) : t.Safe := by
  refine ⟨ht, by simp [hfree], hopens, fun b hb hp ↦ ?_, fun b hb hp ↦ ?_⟩
  · have := ht.not_releases hfree hb
    simp [Phase.releases_of_awaited hp] at this
  · have := ht.not_releases hfree hb
    simp [Phase.releases_of_awaited (Phase.awaited_of_settled hp)] at this

/-- The end of an open. -/
theorem Safe.finishOpen (h : s.Safe) (hn : s.calls[n]? = some c) (hc : c.phase.opens)
    (hclears : c.phase.clears = false) (hreleases : c.phase.releases = false)
    (lifecycle : Lifecycle) :
    Safe { s.goto n c .over with lifecycle, openOwner := none } := by
  refine .of_free (h.toInv.finishOpen hn hc hclears hreleases lifecycle) ?_ fun b hb hp ↦ ?_
  · exact h.not_reserved (List.mem_of_getElem? hn) hc
  · obtain ⟨m, hm⟩ := List.mem_iff_getElem?.1 hb
    obtain ⟨rfl, rfl⟩ | ⟨hne, hm⟩ := List.getElem?_set_some hm
    · simp [Phase.opens] at hp
    · exact absurd (h.opens_unique hn hc hm hp) hne

/-- The end of a clear that does not undo a reserved release. -/
theorem Safe.finishClear (h : s.Safe) (hn : s.calls[n]? = some c) (hc : c.phase.clears)
    (hreleases : c.phase.releases = false) {lifecycle : Lifecycle} (epoch : ℕ)
    (hlifecycle : s.releaseInProgress → lifecycle = .closing) :
    Safe { (s.finishClear lifecycle).goto n c .over with epoch } := by
  refine h.update (h.toInv.finishClear hn hc hreleases lifecycle epoch) hn rfl rfl
    (fun hr ↦ .inl (hlifecycle hr)) (fun b hb hp ↦ ?_) (fun _ _ _ ↦ rfl) nofun
  obtain ⟨m, hm⟩ := List.mem_iff_getElem?.1 hb
  obtain ⟨rfl, rfl⟩ | ⟨-, hm⟩ := List.getElem?_set_some hm
  · simp [Phase.opens] at hp
  · simp [h.not_opens hn hc hm] at hp

theorem Safe.cleanUp (h : s.Safe) (hn : s.calls[n]? = some c) (hc : c.phase = .openFailed) :
    (s.cleanUp n c).Safe := by
  have hinv := h.toInv.cleanUp hn hc
  have hopens : c.phase.opens := by simp [hc, Phase.opens]
  have hfree := h.not_reserved (List.mem_of_getElem? hn) hopens
  have hclear := (h.opening n c hn hopens).2.2
  rcases s.cleanUp_cases n c with ⟨u, hu, heq⟩ | ⟨u, hu, heq⟩
  · rw [heq] at hinv ⊢
    refine h.update hinv hn (congrArg (List.set · n _) hu.calls) hu.operations
      (fun _ ↦ .inl hu.lifecycle) (fun b hb hp ↦ ?_) (fun _ _ _ ↦ hu.clearInProgress.trans hclear)
      (by simp [Phase.settled])
    obtain ⟨m, hm⟩ := List.mem_iff_getElem?.1 hb
    have hl := (hinv.opening m b hm hp).2.1
    simp [Core.goto, hu.lifecycle] at hl
  · rw [heq] at hinv ⊢
    refine .of_free hinv (hu.releaseInProgress.trans hfree) fun b hb hp ↦ ?_
    obtain ⟨m, hm⟩ := List.mem_iff_getElem?.1 hb
    rw [show (u.goto n c .over).lifecycle = s.lifecycle from hu.lifecycle]
    exact h.open_lifecycle c (List.mem_of_getElem? hn) hopens

theorem Safe.act (h : s.Safe) (hn : s.calls[n]? = some c) {ok : Bool}
    (hcareful : Move.Careful s (.act n ok)) (ht : s.act cfg n c ok = some t) : t.Safe := by
  have hinv := h.toInv.act hn ht
  have hcareful := hcareful c hn
  unfold Core.act at ht
  split at ht
  · rename_i hc
    split at ht
    · obtain ⟨hempty, ⟨⟩⟩ := Option.ite_none_right_eq_some.1 ht
      exact h.move hinv hn rfl rfl rfl id rfl (by simp [hc, Phase.opens]) nofun nofun
    · obtain ⟨⟩ := ht
      exact h.finishOpen hn (by simp [hc, Phase.opens]) (by simp [hc, Phase.clears])
        (by simp [hc, Phase.releases]) .new
  · rename_i hc
    obtain ⟨⟩ := ht
    refine h.move hinv hn rfl rfl rfl id rfl (by simp [hc, Phase.opens]) ?_ ?_
    all_goals
      split
      · split <;> simp [Phase.awaited, Phase.settled]
      · simp [Phase.awaited, Phase.settled]
  · rename_i hc
    obtain ⟨⟩ := ht
    exact h.move hinv hn rfl rfl rfl id rfl (by simp [hc, Phase.opens]) nofun nofun
  · rename_i hc
    obtain ⟨⟩ := ht
    split
    · exact h.finishOpen hn (by simp [hc, Phase.opens]) (by simp [hc, Phase.clears])
        (by simp [hc, Phase.releases]) .open
    · rename_i howner
      exact absurd (h.opening n c hn (by simp [hc, Phase.opens])).1 howner
  · rename_i hc
    obtain ⟨⟩ := ht
    exact h.cleanUp hn hc
  · rename_i prior hc
    split at ht
    · obtain ⟨hempty, ⟨⟩⟩ := Option.ite_none_right_eq_some.1 ht
      exact h.move hinv hn rfl rfl rfl id rfl nofun nofun nofun
    · rename_i hok
      obtain ⟨⟩ := ht
      rw [hc] at hcareful
      have hfree := hcareful (by simpa using hok)
      exact h.finishClear hn (by simp [hc, Phase.clears]) (by simp [hc, Phase.releases]) s.epoch
        (by simp [hfree])
  · obtain ⟨⟩ := ht
    exact h.move hinv hn rfl rfl rfl id rfl nofun nofun nofun
  · rename_i prior succeeded hc
    obtain ⟨⟩ := ht
    rw [hc] at hcareful
    exact h.finishClear hn (by simp [hc, Phase.clears]) (by simp [hc, Phase.releases]) _
      fun hr ↦ by simp [hcareful hr]
  · split at ht
    · split at ht
      · simp at ht
      · rename_i hclear
        obtain ⟨⟩ := ht
        exact h.move hinv hn rfl rfl rfl id rfl nofun (fun _ _ ↦ by simpa using hclear) nofun
    · obtain ⟨⟩ := ht
      exact h.move hinv hn rfl rfl rfl id rfl nofun nofun nofun
  · rename_i hc
    split at ht
    · obtain ⟨hempty, ⟨⟩⟩ := Option.ite_none_right_eq_some.1 ht
      refine h.move hinv hn rfl rfl rfl id rfl ?_ (by simp [hc, Phase.awaited]) (by simp [hempty])
      split
      · rcases s.afterFilter_cases cfg with hp | hp <;> simp [hp, Phase.opens]
      · simp [Phase.opens]
    · obtain ⟨⟩ := ht
      exact h.move hinv hn rfl rfl rfl id rfl nofun nofun nofun
  · rename_i hc
    obtain ⟨⟩ := ht
    refine h.move hinv hn rfl rfl rfl id rfl ?_ (by simp [hc, Phase.awaited])
      (by simp [hc, Phase.settled])
    rcases afterFilter_cases cfg { s with filterReleased := s.filterReleased || ok } with hp | hp <;>
      simp [hp, Phase.opens]
  · rename_i hc
    obtain ⟨⟩ := ht
    exact h.move hinv hn rfl rfl rfl id rfl nofun (by simp [hc, Phase.awaited])
      (by simp [hc, Phase.settled])
  · rename_i hc
    obtain ⟨⟩ := ht
    have hreserved := h.releaseInProgress_of_mem (List.mem_of_getElem? hn)
      (by simp [hc, Phase.releases])
    by_cases hdone : s.filterReleased ∧ (¬ cfg.ownsManager ∨ s.managerReleased)
    · rw [if_pos hdone] at hinv ⊢
      refine h.update hinv hn rfl rfl (fun _ ↦ .inr rfl) (fun b hb hp ↦ ?_) (fun b hb hp ↦ ?_) nofun
      · rcases List.mem_or_eq_of_mem_set hb with hb | rfl
        · simp [h.not_reserved hb hp] at hreserved
        · simp [Phase.opens] at hp
      · rcases List.mem_or_eq_of_mem_set hb with hb | rfl
        · exact h.awaited b hb hp
        · simp [Phase.awaited] at hp
    · rw [if_neg hdone] at hinv ⊢
      exact h.move hinv hn rfl rfl rfl id rfl nofun nofun nofun
  · obtain ⟨⟩ := ht
    exact h.move hinv hn rfl rfl rfl (by simp) rfl nofun nofun nofun
  · simp at ht

/-- The release is refused, and the lifecycle stays. -/
theorem Safe.close (h : s.Safe) (thread owner : ℕ)
    (ht : s.step cfg (.close thread owner) = some t) : t.Safe := by
  have hinv := h.toInv.step ht
  rcases s.close_cases cfg thread owner with ⟨u, hu, heq⟩ | ⟨u, hu, heq⟩
  · obtain ⟨⟩ := heq.symm.trans ht
    have hold : ∀ b ∈ u.calls, b.phase.releases = false := by
      rw [hu.calls]
      exact fun b hb ↦ h.not_releases hu.free hb
    refine ⟨hinv, fun _ ↦ .inl hu.lifecycle, fun b hb hp ↦ ?_, fun b hb hp ↦ ?_, fun b hb hp ↦ ?_⟩
    · obtain ⟨m, hm⟩ := List.mem_iff_getElem?.1 hb
      have hl := (hinv.opening m b hm hp).2.1
      simp [hu.lifecycle] at hl
    · rcases List.mem_append.1 hb with hb | hb
      · have := hold b hb
        simp [Phase.releases_of_awaited hp] at this
      · rw [List.mem_singleton.1 hb] at hp
        simp [Phase.awaited] at hp
    · rcases List.mem_append.1 hb with hb | hb
      · have := hold b hb
        simp [Phase.releases_of_awaited (Phase.awaited_of_settled hp)] at this
      · rw [List.mem_singleton.1 hb] at hp
        simp [Phase.settled] at hp
  · obtain ⟨⟩ := heq.symm.trans ht
    refine ⟨hinv, ?_, ?_, ?_, ?_⟩
    · rw [hu.releaseInProgress, hu.lifecycle]
      exact h.lifecycle
    · rw [hu.calls, hu.lifecycle]
      exact h.open_lifecycle
    · rw [hu.calls, hu.clearInProgress]
      exact h.awaited
    · rw [hu.calls, hu.operations]
      exact h.settled

theorem Safe.not_reserved_of_admits (h : s.Safe) (hs : s.lifecycle.admits) :
    s.releaseInProgress = false := by
  by_contra hr
  rcases h.lifecycle (by simpa using hr) with hl | hl <;> simp [hl, Lifecycle.admits] at hs

theorem Safe.step (h : s.Safe) {move : Move} (hcareful : move.Careful s)
    (ht : s.step cfg move = some t) : t.Safe := by
  have hinv := h.toInv.step ht
  cases move with
  | enter lease =>
    obtain ⟨hadmits, ⟨⟩⟩ := Option.ite_none_right_eq_some.1 ht
    refine ⟨hinv, h.lifecycle, h.open_lifecycle, h.awaited, fun c hc hp l hl ↦ ?_⟩
    rcases List.mem_append.1 hl with hl | hl
    · exact h.settled c hc hp l hl
    · rw [List.mem_singleton.1 hl]
      rcases hadmits with hadmits | hfilter
      · have := h.not_releases (h.not_reserved_of_admits hadmits) hc
        simp [Phase.releases_of_awaited (Phase.awaited_of_settled hp)] at this
      · simpa using hfilter
  | leave lease =>
    obtain ⟨-, ⟨⟩⟩ := Option.ite_none_right_eq_some.1 ht
    exact ⟨hinv, h.lifecycle, h.open_lifecycle, h.awaited,
      fun c hc hp l hl ↦ h.settled c hc hp l (List.mem_of_mem_erase hl)⟩
  | authorize token =>
    obtain ⟨⟩ := ht
    by_cases hknown : s.lifecycle = .closed ∨ token ∈ s.aliases
    · rw [if_pos hknown]
      exact h
    · rw [if_neg hknown] at hinv ⊢
      exact ⟨hinv, h.lifecycle, h.open_lifecycle, h.awaited, h.settled⟩
  | «open» thread =>
    obtain ⟨hnew, ⟨⟩⟩ := Option.ite_none_right_eq_some.1 ht
    exact .of_free hinv (h.not_reserved_of_admits (by simp [hnew, Lifecycle.admits]))
      fun _ _ _ ↦ rfl
  | clear thread =>
    obtain ⟨hadmits, ⟨⟩⟩ := Option.ite_none_right_eq_some.1 ht
    refine .of_free hinv (h.not_reserved_of_admits hadmits) fun b hb hp ↦ ?_
    rcases List.mem_append.1 hb with hb | hb
    · simp [(h.not_opens_or_clears hadmits hb).1] at hp
    · rw [List.mem_singleton.1 hb] at hp
      simp [Phase.opens] at hp
  | close thread owner => exact h.close thread owner ht
  | act n ok =>
    obtain ⟨c, hn, ht⟩ := Option.bind_eq_some_iff.1 ht
    exact h.act hn hcareful ht

/-- A callback for an open excludes one for a clear or a release, and one for a clear excludes one
for a release. -/
theorem Safe.kinds_disjoint (h : s.Safe) (hc : c ∈ s.calls) (hd : d ∈ s.calls) :
    ¬ (c.phase.opens ∧ d.phase.clears) ∧ ¬ (c.phase.opens ∧ d.phase.releases) ∧
      ¬ (c.phase.clears ∧ d.phase.awaited) := by
  refine ⟨fun ⟨ho, hcl⟩ ↦ ?_, fun ⟨ho, hr⟩ ↦ ?_, fun ⟨hcl, ha⟩ ↦ ?_⟩
  · obtain ⟨n, hn⟩ := List.mem_iff_getElem?.1 hc
    have hclear := (h.opening n c hn ho).2.2
    rw [h.clearInProgress_of_mem hd hcl] at hclear
    simp at hclear
  · have hfree := h.not_reserved hc ho
    rw [h.releaseInProgress_of_mem hd hr] at hfree
    simp at hfree
  · have hclear := h.awaited d hd ha
    rw [h.clearInProgress_of_mem hc hcl] at hclear
    simp at hclear

theorem Safe.exclusive (h : s.Safe) (cfg : Config) : s.Exclusive cfg where
  lifecycle := h.lifecycle
  admission hr lease hlease := by
    have hadmits : s.lifecycle.admits = false := by
      rcases h.lifecycle hr with hl | hl <;> simp [hl, Lifecycle.admits]
    simp [Core.step, hadmits, hlease]
  operations c hc hp := by
    by_cases hd : c.phase.drained
    · exact h.drained c hc hd
    · refine h.settled c hc ?_
      cases hphase : c.phase <;> simp [hphase, Phase.calls, Phase.drained, Phase.settled] at hp hd ⊢
  callbacks n m c d hn hm hc hd := by
    obtain ⟨hcd₁, hcd₂, hcd₃⟩ := h.kinds_disjoint (List.mem_of_getElem? hn) (List.mem_of_getElem? hm)
    obtain ⟨hdc₁, hdc₂, hdc₃⟩ := h.kinds_disjoint (List.mem_of_getElem? hm) (List.mem_of_getElem? hn)
    rcases Phase.kinds_of_calls hc with hc | hc | ⟨hcr, hca⟩
    · rcases Phase.kinds_of_calls hd with hd | hd | ⟨hdr, -⟩
      · exact h.opens_unique hm hd hn hc
      · exact absurd ⟨hc, hd⟩ hcd₁
      · exact absurd ⟨hc, hdr⟩ hcd₂
    · rcases Phase.kinds_of_calls hd with hd | hd | ⟨-, hda⟩
      · exact absurd ⟨hd, hc⟩ hdc₁
      · exact List.eq_of_countP_le_one (fun b : Transition ↦ b.phase.clears)
          (h.clears.trans_le (Bool.toNat_le _)) hn hm hc hd
      · exact absurd ⟨hc, hda⟩ hcd₃
    · rcases Phase.kinds_of_calls hd with hd | hd | ⟨hdr, -⟩
      · exact absurd ⟨hd, hcr⟩ hdc₂
      · exact absurd ⟨hd, hca⟩ hdc₃
      · exact List.eq_of_countP_le_one (fun b : Transition ↦ b.phase.releases)
          (h.releases.trans_le (Bool.toNat_le _)) hn hm hcr hdr

end Core

/-- In every run whose steps are careful, a reserved release has stopped admission, and `filter.open`,
`filter.clear` and `filter.close` overlap neither a filter operation nor each other. -/
theorem exclusive_of_careful (cfg : Config) (moves : List Move)
    (h : (lifecycleMachine cfg).Along (fun s move ↦ move.Careful s) Core.new moves) :
    (lifecycleMachine cfg).Always (Core.Exclusive cfg) Core.new moves :=
  (h.always (I := Core.Safe) (fun _ _ _ hs hg ht ↦ hs.step hg ht) .new).mono
    fun _ hs ↦ hs.exclusive cfg

/-- An open, a clear that waits for an operation, a close that times out, and a second clear. -/
theorem exclusive_of_careful_retried :
    (lifecycleMachine ⟨false, false⟩).Always (Core.Exclusive ⟨false, false⟩) Core.new
      [.open 1, .act 0 true, .act 0 true, .act 0 true, .enter ⟨2, true⟩, .clear 3, .leave ⟨2, true⟩,
        .act 1 true, .close 4 0, .act 2 false, .act 2 true, .act 1 true, .act 1 true, .close 4 0,
        .act 3 true, .act 3 true, .act 3 true, .act 3 true, .act 3 true] :=
  exclusive_of_careful _ _ (by decide +kernel)

/-- The wait of a clear runs out after a release was reserved: the lifecycle is open again, and an
operation is admitted. -/
theorem not_always_exclusive :
    ¬ ∀ (cfg : Config) (moves : List Move) (s : Core),
      (lifecycleMachine cfg).run Core.new moves = some s → s.Exclusive cfg := by
  intro h
  have hs := h ⟨false, false⟩ [.open 1, .act 0 true, .act 0 true, .act 0 true, .enter ⟨2, true⟩,
    .clear 3, .close 4 0, .act 1 false] _ rfl
  exact absurd (hs.lifecycle rfl) (by decide)

end Dupefilter

end ScrapyExtension
