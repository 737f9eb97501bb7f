import ScrapyExtension.Machine.Basic
import ScrapyExtension.Machine.Threads
import Mathlib.Tactic

/-!
# Leases of the snapshot repository

A read or a commit of `SnapshotRepository` runs below a lease, and so does maintenance. Maintenance
publishes a fence, waits until no lease is left, and takes the fence down at its end.

## Interruptions

An interruption may arrive before any statement, and while a thread waits. Taking a lease is one
section with a rollback. Giving it back is two: a section that was interrupted is repeated, with the
counters that it had read. The lock is free between the two sections, so the counters may be others by
then, and an interruption that comes before they are read leaves nothing to repeat.

## Steps

A thread is a stack of calls, the innermost first: a call may be made from the body of another. A
section under `_lease_condition` is one step, as is what an interruption leaves of it. A call that has
to wait is not enabled.
-/

namespace ScrapyExtension

namespace SnapshotLeases

/-- `_reader_lease` and `_commit_lease` -/
inductive Kind
  | reader
  | commit
deriving DecidableEq

/-- How many of its two writes a section has made. -/
inductive Progress
  | nothing
  | first
  | second
deriving DecidableEq

/-- Where a call is. -/
inductive Frame
  /-- Before the lease is registered. -/
  | entering (kind : Kind)
  /-- From the registration to the release. -/
  | held (kind : Kind)
  /-- The release was interrupted. `release_active` and `release_count` were read. -/
  | releasing (kind : Kind) (releaseActive releaseCount : ℕ) (progress : Progress)
  /-- Before the fence is published. -/
  | fencing
  /-- The fence is up, and leases are left. -/
  | draining
  /-- In the body of `_maintenance_lease`. -/
  | maintaining
  /-- The body is over, or was not reached. -/
  | leaving
  /-- The removal of the fence was interrupted. -/
  | unfencing (progress : Progress)
deriving DecidableEq

/-- A call may be made from here. -/
def Frame.body : Frame → Bool
  | held _ | maintaining => true
  | _ => false

/-- The repository. -/
structure State where
  /-- `_active_readers` and `_active_commits` -/
  active : Kind → ℕ
  /-- `_reader_threads` and `_commit_threads`; a missing entry is `0` -/
  threads : Kind → ℕ → ℕ
  /-- `_maintenance_active` -/
  maintenanceActive : Bool
  /-- `_maintenance_owner` -/
  maintenanceOwner : Option ℕ
  /-- The calls of each thread, the innermost first. -/
  calls : List (List Frame)

/-- What can happen. -/
inductive Label
  | spawn
  /-- A thread calls for a lease. -/
  | lease (i : ℕ) (kind : Kind)
  /-- A thread calls for maintenance. -/
  | maintenance (i : ℕ)
  /-- The innermost call of a thread goes on. -/
  | proceed (i : ℕ)
  /-- It is interrupted, outside of the guarded writes or between them. -/
  | interrupt (i : ℕ) (point : Option Progress)
  /-- It repeats an interrupted section, and is possibly interrupted again. -/
  | reconcile (i : ℕ) (progress : Progress)
deriving DecidableEq

namespace State

def new : State := ⟨fun _ ↦ 0, fun _ _ ↦ 0, false, none, []⟩

def setActive (s : State) (kind : Kind) (n : ℕ) : State :=
  { s with active := Function.update s.active kind n }

def setThreads (s : State) (kind : Kind) (i n : ℕ) : State :=
  { s with threads := Function.update s.threads kind (Function.update (s.threads kind) i n) }

def setStack (s : State) (i : ℕ) (stack : List Frame) : State :=
  { s with calls := s.calls.set i stack }

/-- The writes of a registration, as far as they get. -/
def register (s : State) (kind : Kind) (i : ℕ) : Progress → State
  | .nothing => s
  | .first => s.setActive kind (s.active kind + 1)
  | .second => (s.setActive kind (s.active kind + 1)).setThreads kind i (s.threads kind i + 1)

/-- A registration that is interrupted and rolled back. -/
def rollback (s : State) (kind : Kind) (i : ℕ) (progress : Progress) : State :=
  let t := s.register kind i progress
  let t := if t.threads kind i = s.threads kind i + 1 then t.setThreads kind i (s.threads kind i) else t
  t.setActive kind (s.active kind)

/-- The writes of a release, as far as they get. -/
def unregister (s : State) (kind : Kind) (i releaseActive releaseCount : ℕ) : Progress → State
  | .nothing => s
  | .first => s.setActive kind (releaseActive - 1)
  | .second => (s.setActive kind (releaseActive - 1)).setThreads kind i (releaseCount - 1)

/-- `release_count`, with its default -/
def releaseCount (s : State) (kind : Kind) (i : ℕ) : ℕ :=
  if s.threads kind i = 0 then 1 else s.threads kind i

/-- The writes of a fence, as far as they get. -/
def fence (s : State) (i : ℕ) : Progress → State
  | .nothing => s
  | .first => { s with maintenanceActive := true }
  | .second => { s with maintenanceActive := true, maintenanceOwner := some i }

/-- The writes that take a fence down, as far as they get. -/
def unfence (s : State) : Progress → State
  | .nothing => s
  | .first => { s with maintenanceActive := false }
  | .second => { s with maintenanceActive := false, maintenanceOwner := none }

/-- The thread may make a call: it is in the body of its innermost one. -/
def inBody (stack : List Frame) : Bool := stack.head?.all Frame.body

/-- A call is made. -/
def call (s : State) (i : ℕ) (f : Frame) : Option State :=
  s.calls[i]?.bind fun stack ↦ if inBody stack then some (s.setStack i (f :: stack)) else none

/-- The thread holds a lease. -/
def holds (s : State) (i : ℕ) : Bool := 0 < s.threads .reader i || 0 < s.threads .commit i

/-- The innermost call goes on. -/
def proceed (s : State) (i : ℕ) (rest : List Frame) : Frame → Option State
  | .entering kind =>
    if s.maintenanceActive then
      -- a lease inside of the thread's own maintenance is refused
      if s.maintenanceOwner = some i then some (s.setStack i rest) else none
    else some ((s.register kind i .second).setStack i (.held kind :: rest))
  | .held kind =>
    some ((s.unregister kind i (s.active kind) (s.releaseCount kind i) .second).setStack i rest)
  | .fencing =>
    if (s.maintenanceActive ∧ s.maintenanceOwner = some i) ∨ s.holds i then some (s.setStack i rest)
    else if s.maintenanceActive then none
    else some ((s.fence i .second).setStack i (.draining :: rest))
  | .draining =>
    if s.active .reader = 0 ∧ s.active .commit = 0 then some (s.setStack i (.maintaining :: rest))
    else none
  | .maintaining => some (s.setStack i (.leaving :: rest))
  | .leaving => some ((s.unfence .second).setStack i rest)
  | .releasing .. | .unfencing _ => none

/-- The innermost call is interrupted. -/
def interrupt (s : State) (i : ℕ) (rest : List Frame) : Frame → Option Progress → Option State
  | .entering _, none | .fencing, none => some (s.setStack i rest)
  | .entering kind, some progress =>
    if s.maintenanceActive then none else some ((s.rollback kind i progress).setStack i rest)
  | .fencing, some progress =>
    if s.maintenanceActive ∨ s.holds i then none
    else some (((s.fence i progress).unfence .second).setStack i rest)
  | .draining, none => some (s.setStack i (.leaving :: rest))
  -- the counters were not read, and there is nothing to repeat
  | .held _, none | .leaving, none => some (s.setStack i rest)
  | .held kind, some progress =>
    some ((s.unregister kind i (s.active kind) (s.releaseCount kind i) progress).setStack i
      (.releasing kind (s.active kind) (s.releaseCount kind i) progress :: rest))
  | .leaving, some progress => some ((s.unfence progress).setStack i (.unfencing progress :: rest))
  | _, _ => none

/-- An interrupted section is repeated. -/
def reconcile (s : State) (i : ℕ) (rest : List Frame) (progress : Progress) : Frame → Option State
  | .releasing kind releaseActive releaseCount _ =>
    some ((s.unregister kind i releaseActive releaseCount progress).setStack i rest)
  | .unfencing _ => some ((s.unfence progress).setStack i rest)
  | _ => none

/-- A step of the innermost call of a thread. -/
def onTop (s : State) (i : ℕ) (f : List Frame → Frame → Option State) : Option State :=
  match s.calls[i]? with
  | some (frame :: rest) => f rest frame
  | _ => none

/-- One step. -/
def step (s : State) : Label → Option State
  | .spawn => some { s with calls := s.calls ++ [[]] }
  | .lease i kind => s.call i (.entering kind)
  | .maintenance i => s.call i .fencing
  | .proceed i => s.onTop i (s.proceed i)
  | .interrupt i point => s.onTop i fun rest frame ↦ s.interrupt i rest frame point
  | .reconcile i progress => s.onTop i fun rest ↦ s.reconcile i rest progress

end State

/-- The leases as a machine. -/
def machine : Machine State Label where
  init := State.new
  step := State.step

/-! ## What the counters count -/

/-- The first write is done. -/
def Progress.begun : Progress → Bool
  | nothing => false
  | _ => true

/-- Both writes are done. -/
def Progress.done : Progress → Bool
  | second => true
  | _ => false

namespace Frame

/-- The call is counted in `_active_readers` or `_active_commits`. -/
def activeShare (kind : Kind) : Frame → ℕ
  | held k => (decide (k = kind)).toNat
  | releasing k _ _ progress => (decide (k = kind) && !progress.begun).toNat
  | _ => 0

/-- The call is counted for its thread. -/
def threadShare (kind : Kind) : Frame → ℕ
  | held k => (decide (k = kind)).toNat
  | releasing k _ _ progress => (decide (k = kind) && !progress.done).toNat
  | _ => 0

/-- The fence is that of the call. -/
def fenceShare : Frame → ℕ
  | draining | maintaining | leaving => 1
  | unfencing progress => (!progress.begun).toNat
  | _ => 0

end Frame

namespace State

/-- The shares of all calls. -/
def shares (s : State) (f : Frame → ℕ) : ℕ := (s.calls.map fun stack ↦ (stack.map f).sum).sum

/-- The shares of the calls of a thread. -/
def sharesOf (s : State) (i : ℕ) (f : Frame → ℕ) : ℕ := ((s.calls[i]?.getD []).map f).sum

/-- The counters count the leases, the fence is that of a call, and no lease is left in the body of
maintenance. -/
structure Inv (s : State) : Prop where
  active : ∀ kind, s.active kind = s.shares (Frame.activeShare kind)
  threads : ∀ kind i, s.threads kind i = s.sharesOf i (Frame.threadShare kind)
  fence : s.maintenanceActive.toNat = s.shares Frame.fenceShare
  running : ∀ stack ∈ s.calls, .maintaining ∈ stack → ∀ kind, s.active kind = 0
  nested : ∀ stack ∈ s.calls, ∀ f ∈ stack.tail, f.body = true
  /-- What an interrupted release has read. -/
  captured : ∀ i kind active count progress rest,
    s.calls[i]? = some (.releasing kind active count progress :: rest) → 1 ≤ active ∧ 1 ≤ count ∧
      s.threads kind i = if progress.done then count - 1 else count

variable {s t : State} {i : ℕ} {f : Frame} {stack rest : List Frame}

theorem Inv.new : (new).Inv where
  active _ := rfl
  threads _ _ := rfl
  fence := rfl
  running _ h := absurd h List.not_mem_nil
  nested _ h := absurd h List.not_mem_nil
  captured _ _ _ _ _ _ h := by cases h

/-- Maintenance is below its fence. -/
theorem Inv.fenced (h : s.Inv) (hstack : stack ∈ s.calls) (hmem : .maintaining ∈ stack) :
    s.maintenanceActive = true := by
  obtain ⟨j, hj⟩ := List.mem_iff_getElem?.1 hstack
  obtain ⟨k, hk⟩ := List.mem_iff_getElem?.1 hmem
  have h₁ := List.le_sum_map (fun stack : List Frame ↦ (stack.map Frame.fenceShare).sum) hj
  have h₂ := List.le_sum_map Frame.fenceShare hk
  have h₃ := h.fence
  rw [shares] at h₃
  simp only [Frame.fenceShare] at h₁ h₂ h₃
  cases hb : s.maintenanceActive with
  | true => rfl
  | false =>
    rw [hb] at h₃
    simp only [Bool.toNat_false] at h₃
    omega

/-- Something happens to one thread. -/
theorem Inv.change {before after : List Frame} (h : s.Inv) (hbefore : s.calls[i]? = some before)
    (hcalls : t.calls = s.calls.set i after)
    (hactive : ∀ kind, t.active kind + (before.map (Frame.activeShare kind)).sum =
      s.active kind + (after.map (Frame.activeShare kind)).sum)
    (hthreads : ∀ kind, t.threads kind i = (after.map (Frame.threadShare kind)).sum)
    (hother : ∀ kind, ∀ j ≠ i, t.threads kind j = s.threads kind j)
    (hfence : t.maintenanceActive.toNat + (before.map Frame.fenceShare).sum =
      s.maintenanceActive.toNat + (after.map Frame.fenceShare).sum)
    (hle : s.maintenanceActive = true → ∀ kind, t.active kind ≤ s.active kind)
    (hrunning : .maintaining ∈ after → .maintaining ∈ before ∨ ∀ kind, t.active kind = 0)
    (hnested : ∀ f ∈ after.tail, f.body = true)
    (hcaptured : ∀ kind active count progress rest,
      after = .releasing kind active count progress :: rest → 1 ≤ active ∧ 1 ≤ count ∧
        t.threads kind i = if progress.done then count - 1 else count) : t.Inv := by
  have hlt := (List.getElem?_eq_some_iff.1 hbefore).1
  have hshares : ∀ g : Frame → ℕ, t.shares g + (before.map g).sum = s.shares g + (after.map g).sum := by
    intro g
    rw [shares, hcalls]
    exact List.sum_map_set_add (fun stack : List Frame ↦ (stack.map g).sum) hbefore
  have hself : t.calls[i]? = some after := by
    rw [hcalls]
    exact List.getElem?_set_self hlt
  have hothers : ∀ j ≠ i, t.calls[j]? = s.calls[j]? := by
    intro j hj
    rw [hcalls]
    exact List.getElem?_set_ne hj.symm
  refine ⟨fun kind ↦ ?_, fun kind j ↦ ?_, ?_, ?_, ?_, fun j kind active count progress rest hj ↦ ?_⟩
  · have h₁ := hactive kind
    have h₂ := hshares (Frame.activeShare kind)
    have h₃ := h.active kind
    omega
  · by_cases hj : j = i
    · subst hj
      rw [sharesOf, hself]
      exact hthreads kind
    · rw [sharesOf, hothers j hj, hother kind j hj]
      exact h.threads kind j
  · have h₂ := hshares Frame.fenceShare
    have h₃ := h.fence
    omega
  · intro stack hstack hmaintaining kind
    have hold : ∀ old ∈ s.calls, .maintaining ∈ old → t.active kind = 0 := by
      intro old hold hmem
      have hfenced := h.fenced hold hmem
      have h₀ := h.running old hold hmem kind
      have h₁ := hle hfenced kind
      omega
    rw [hcalls] at hstack
    rcases List.mem_or_eq_of_mem_set hstack with hmem | rfl
    · exact hold stack hmem hmaintaining
    · rcases hrunning hmaintaining with hb | hzero
      · exact hold before (List.mem_of_getElem? hbefore) hb
      · exact hzero kind
  · rw [hcalls]
    exact List.forall_mem_set h.nested hnested
  · by_cases hj' : j = i
    · subst hj'
      exact hcaptured kind active count progress rest (Option.some.inj (hself.symm.trans hj))
    · rw [hothers j hj'] at hj
      rw [hother kind j hj']
      exact h.captured j kind active count progress rest hj

/-- The innermost call of a thread ends. -/
theorem Inv.pop (h : s.Inv) (hbefore : s.calls[i]? = some (f :: rest))
    (hcalls : t.calls = s.calls.set i rest)
    (hactive : ∀ kind, t.active kind + f.activeShare kind = s.active kind)
    (hthreads : ∀ kind, t.threads kind i + f.threadShare kind = s.threads kind i)
    (hother : ∀ kind, ∀ j ≠ i, t.threads kind j = s.threads kind j)
    (hfence : t.maintenanceActive.toNat + f.fenceShare = s.maintenanceActive.toNat) : t.Inv := by
  have hbodies := h.nested _ (List.mem_of_getElem? hbefore)
  refine h.change hbefore hcalls (fun kind ↦ ?_) (fun kind ↦ ?_) hother ?_ (fun _ kind ↦ ?_)
    (fun hmem ↦ .inl (List.mem_cons_of_mem _ hmem)) (fun g hg ↦ hbodies g (List.mem_of_mem_tail hg))
    fun kind active count progress rest' heq ↦ ?_
  · have := hactive kind
    rw [List.map_cons, List.sum_cons]
    omega
  · have h₁ := hthreads kind
    have h₂ := h.threads kind i
    rw [sharesOf, hbefore, Option.getD_some, List.map_cons, List.sum_cons] at h₂
    omega
  · rw [List.map_cons, List.sum_cons]
    omega
  · have := hactive kind
    omega
  · -- below the innermost call there are bodies
    have := hbodies (.releasing kind active count progress) (by rw [heq]; exact List.mem_cons_self)
    cases this

/-- The innermost call of a thread goes on. -/
theorem Inv.goto {g : Frame} (h : s.Inv) (hbefore : s.calls[i]? = some (f :: rest))
    (hcalls : t.calls = s.calls.set i (g :: rest))
    (hactive : ∀ kind, t.active kind + f.activeShare kind = s.active kind + g.activeShare kind)
    (hthreads : ∀ kind, t.threads kind i + f.threadShare kind =
      s.threads kind i + g.threadShare kind)
    (hother : ∀ kind, ∀ j ≠ i, t.threads kind j = s.threads kind j)
    (hfence : t.maintenanceActive.toNat + f.fenceShare =
      s.maintenanceActive.toNat + g.fenceShare)
    (hle : s.maintenanceActive = true → ∀ kind, t.active kind ≤ s.active kind)
    (hrunning : g = .maintaining → ∀ kind, t.active kind = 0)
    (hcaptured : ∀ kind active count progress, g = .releasing kind active count progress →
      1 ≤ active ∧ 1 ≤ count ∧ t.threads kind i = if progress.done then count - 1 else count) :
    t.Inv := by
  have hbodies := h.nested _ (List.mem_of_getElem? hbefore)
  refine h.change hbefore hcalls (fun kind ↦ ?_) (fun kind ↦ ?_) hother ?_ hle (fun hmem ↦ ?_) hbodies
    fun kind active count progress rest' heq ↦ ?_
  · have := hactive kind
    rw [List.map_cons, List.sum_cons, List.map_cons, List.sum_cons]
    omega
  · have h₁ := hthreads kind
    have h₂ := h.threads kind i
    rw [sharesOf, hbefore, Option.getD_some, List.map_cons, List.sum_cons] at h₂
    rw [List.map_cons, List.sum_cons]
    omega
  · rw [List.map_cons, List.sum_cons, List.map_cons, List.sum_cons]
    omega
  · rcases List.mem_cons.1 hmem with heq | hmem
    · exact .inr (hrunning heq.symm)
    · exact .inl (List.mem_cons_of_mem _ hmem)
  · exact hcaptured kind active count progress (List.cons.inj heq).1

end State

/-! ## What the writes do -/

namespace State

variable {s t : State} {i : ℕ} {f : Frame} {stack rest : List Frame}

@[simp] theorem register_active (s : State) (k kind : Kind) (i : ℕ) (p : Progress) :
    (s.register k i p).active kind = s.active kind + (decide (k = kind) && p.begun).toNat := by
  cases p <;> by_cases hk : k = kind <;>
    simp [register, setActive, setThreads, Progress.begun, hk, eq_comm]

@[simp] theorem register_threads (s : State) (k kind : Kind) (i j : ℕ) (p : Progress) :
    (s.register k i p).threads kind j =
      s.threads kind j + (decide (k = kind) && decide (i = j) && p.done).toNat := by
  cases p <;> by_cases hk : k = kind <;> by_cases hi : i = j <;>
    simp_all [register, setActive, setThreads, Progress.done, eq_comm]

@[simp] theorem register_calls (s : State) (k : Kind) (i : ℕ) (p : Progress) :
    (s.register k i p).calls = s.calls := by cases p <;> rfl

@[simp] theorem register_maintenanceActive (s : State) (k : Kind) (i : ℕ) (p : Progress) :
    (s.register k i p).maintenanceActive = s.maintenanceActive := by cases p <;> rfl

/-- A registration is rolled back in full. -/
theorem rollback_eq (s : State) (k : Kind) (i : ℕ) (p : Progress) : s.rollback k i p = s := by
  cases p <;> simp [rollback, register, setActive, setThreads]

@[simp] theorem unregister_active (s : State) (k kind : Kind) (i active count : ℕ) (p : Progress) :
    (s.unregister k i active count p).active kind =
      if k = kind ∧ p.begun then active - 1 else s.active kind := by
  cases p <;> by_cases hk : k = kind <;>
    simp_all [unregister, setActive, setThreads, Progress.begun, eq_comm]

@[simp] theorem unregister_threads (s : State) (k kind : Kind) (i j active count : ℕ) (p : Progress) :
    (s.unregister k i active count p).threads kind j =
      if k = kind ∧ i = j ∧ p.done then count - 1 else s.threads kind j := by
  cases p <;> by_cases hk : k = kind <;> by_cases hi : i = j <;>
    simp_all [unregister, setActive, setThreads, Progress.done, eq_comm]

@[simp] theorem unregister_calls (s : State) (k : Kind) (i active count : ℕ) (p : Progress) :
    (s.unregister k i active count p).calls = s.calls := by cases p <;> rfl

@[simp] theorem unregister_maintenanceActive (s : State) (k : Kind) (i active count : ℕ) (p : Progress) :
    (s.unregister k i active count p).maintenanceActive = s.maintenanceActive := by cases p <;> rfl

@[simp] theorem fence_maintenanceActive (s : State) (i : ℕ) (p : Progress) :
    (s.fence i p).maintenanceActive = (s.maintenanceActive || p.begun) := by
  cases p <;> simp [fence, Progress.begun]

@[simp] theorem fence_active (s : State) (i : ℕ) (p : Progress) : (s.fence i p).active = s.active := by
  cases p <;> rfl

@[simp] theorem fence_threads (s : State) (i : ℕ) (p : Progress) : (s.fence i p).threads = s.threads := by
  cases p <;> rfl

@[simp] theorem fence_calls (s : State) (i : ℕ) (p : Progress) : (s.fence i p).calls = s.calls := by
  cases p <;> rfl

@[simp] theorem unfence_maintenanceActive (s : State) (p : Progress) :
    (s.unfence p).maintenanceActive = (s.maintenanceActive && !p.begun) := by
  cases p <;> simp [unfence, Progress.begun]

@[simp] theorem unfence_active (s : State) (p : Progress) : (s.unfence p).active = s.active := by
  cases p <;> rfl

@[simp] theorem unfence_threads (s : State) (p : Progress) : (s.unfence p).threads = s.threads := by
  cases p <;> rfl

@[simp] theorem unfence_calls (s : State) (p : Progress) : (s.unfence p).calls = s.calls := by
  cases p <;> rfl

@[simp] theorem setStack_active (s : State) (i : ℕ) (stack : List Frame) :
    (s.setStack i stack).active = s.active := rfl

@[simp] theorem setStack_threads (s : State) (i : ℕ) (stack : List Frame) :
    (s.setStack i stack).threads = s.threads := rfl

@[simp] theorem setStack_maintenanceActive (s : State) (i : ℕ) (stack : List Frame) :
    (s.setStack i stack).maintenanceActive = s.maintenanceActive := rfl

@[simp] theorem setStack_calls (s : State) (i : ℕ) (stack : List Frame) :
    (s.setStack i stack).calls = s.calls.set i stack := rfl

/-! ## The steps -/

theorem Inv.share_le_active (h : s.Inv) (hbefore : s.calls[i]? = some (f :: rest)) (kind : Kind) :
    f.activeShare kind ≤ s.active kind := by
  have hle := List.le_sum_map (fun stack : List Frame ↦ (stack.map (Frame.activeShare kind)).sum) hbefore
  rw [h.active kind, shares]
  simp only [List.map_cons, List.sum_cons] at hle
  omega

theorem Inv.share_le_threads (h : s.Inv) (hbefore : s.calls[i]? = some (f :: rest)) (kind : Kind) :
    f.threadShare kind ≤ s.threads kind i := by
  rw [h.threads kind i, sharesOf, hbefore, Option.getD_some, List.map_cons, List.sum_cons]
  exact Nat.le_add_right _ _

theorem Inv.share_le_fence (h : s.Inv) (hbefore : s.calls[i]? = some (f :: rest)) :
    f.fenceShare ≤ s.maintenanceActive.toNat := by
  have hle := List.le_sum_map (fun stack : List Frame ↦ (stack.map Frame.fenceShare).sum) hbefore
  rw [h.fence, shares]
  simp only [List.map_cons, List.sum_cons] at hle
  omega

/-- What a release reads. -/
theorem Inv.reads (h : s.Inv) {kind : Kind} (hbefore : s.calls[i]? = some (.held kind :: rest)) :
    1 ≤ s.active kind ∧ 1 ≤ s.threads kind i ∧ s.releaseCount kind i = s.threads kind i := by
  have hactive := h.share_le_active hbefore kind
  have hthreads := h.share_le_threads hbefore kind
  simp only [Frame.activeShare, Frame.threadShare, decide_true, Bool.toNat_true] at hactive hthreads
  refine ⟨hactive, hthreads, if_neg ?_⟩
  omega

theorem Inv.call (h : s.Inv) (hactive : ∀ kind, f.activeShare kind = 0)
    (hthreads : ∀ kind, f.threadShare kind = 0) (hfence : f.fenceShare = 0)
    (hrunning : f ≠ .maintaining) (hcaptured : ∀ kind active count progress,
      f ≠ .releasing kind active count progress) (ht : s.call i f = some t) : t.Inv := by
  obtain ⟨stack, hbefore, ht⟩ := Option.bind_eq_some_iff.1 ht
  obtain ⟨hbody, ⟨⟩⟩ := Option.ite_none_right_eq_some.1 ht
  have hbodies := h.nested stack (List.mem_of_getElem? hbefore)
  refine h.change hbefore rfl (fun kind ↦ ?_) (fun kind ↦ ?_) (fun _ _ _ ↦ rfl) ?_ (fun _ _ ↦ le_rfl)
    (fun hmem ↦ ?_) ?_ fun kind active count progress rest heq ↦ ?_
  · simp [hactive]
  · have hs := h.threads kind i
    rw [sharesOf, hbefore, Option.getD_some] at hs
    simp [hthreads, hs]
  · simp [hfence]
  · rcases List.mem_cons.1 hmem with heq | hmem
    · exact absurd heq.symm hrunning
    · exact .inl hmem
  · intro g hg
    cases stack with
    | nil => cases hg
    | cons head rest =>
      rcases List.mem_cons.1 hg with rfl | hg
      · simpa [inBody] using hbody
      · exact hbodies g hg
  · exact absurd (List.cons.inj heq).1 (hcaptured kind active count progress)

theorem Inv.proceed (h : s.Inv) (hbefore : s.calls[i]? = some (f :: rest))
    (ht : s.proceed i rest f = some t) : t.Inv := by
  cases f with
  | entering kind =>
    rw [State.proceed] at ht
    split_ifs at ht with hfence howner
    · obtain ⟨⟩ := ht
      exact h.pop hbefore rfl (fun _ ↦ rfl) (fun _ ↦ rfl) (fun _ _ _ ↦ rfl) rfl
    · obtain ⟨⟩ := ht
      refine h.goto (g := .held kind) hbefore (by simp) ?_ ?_ ?_ ?_ (fun hf ↦ absurd hf hfence) nofun nofun
      · simp [Frame.activeShare, Progress.begun]
      · simp [Frame.threadShare, Progress.done]
      · intro k j hj
        simp [hj.symm]
      · simp [Frame.fenceShare]
  | held kind =>
    obtain ⟨⟩ := ht
    obtain ⟨hactive, hthreads, hcount⟩ := h.reads hbefore
    refine h.pop hbefore (by simp) (fun k ↦ ?_) (fun k ↦ ?_) ?_ ?_
    · by_cases hk : kind = k
      · subst hk
        simp [Frame.activeShare, Progress.begun, hactive]
      · simp [Frame.activeShare, hk]
    · rw [hcount]
      by_cases hk : kind = k
      · subst hk
        simp [Frame.threadShare, Progress.done, hthreads]
      · simp [Frame.threadShare, hk]
    · intro k j hj
      simp [hj.symm]
    · simp [Frame.fenceShare]
  | fencing =>
    rw [State.proceed] at ht
    split_ifs at ht with hreentry hfence
    · obtain ⟨⟩ := ht
      exact h.pop hbefore rfl (fun _ ↦ rfl) (fun _ ↦ rfl) (fun _ _ _ ↦ rfl) rfl
    · obtain ⟨⟩ := ht
      refine h.goto (g := .draining) hbefore (by simp) ?_ ?_ ?_ ?_ (fun hf ↦ absurd hf hfence) nofun nofun
      · simp [Frame.activeShare]
      · simp [Frame.threadShare]
      · simp
      · simp [Frame.fenceShare, Progress.begun, hfence]
  | draining =>
    rw [State.proceed] at ht
    obtain ⟨⟨hreaders, hcommits⟩, ⟨⟩⟩ := Option.ite_none_right_eq_some.1 ht
    refine h.goto hbefore rfl (fun _ ↦ rfl) (fun _ ↦ rfl) (fun _ _ _ ↦ rfl) rfl (fun _ _ ↦ le_rfl) ?_ nofun
    rintro - (_ | _)
    · exact hreaders
    · exact hcommits
  | maintaining =>
    obtain ⟨⟩ := ht
    exact h.goto (g := .leaving) hbefore rfl (fun _ ↦ rfl) (fun _ ↦ rfl) (fun _ _ _ ↦ rfl) rfl (fun _ _ ↦ le_rfl) nofun nofun
  | leaving =>
    obtain ⟨⟩ := ht
    have hfence := h.share_le_fence hbefore
    refine h.pop hbefore (by simp) ?_ ?_ ?_ ?_
    · simp [Frame.activeShare]
    · simp [Frame.threadShare]
    · simp
    · simp only [Frame.fenceShare] at hfence
      have hle := Bool.toNat_le s.maintenanceActive
      simp [Frame.fenceShare, Progress.begun]
      omega
  | releasing => cases ht
  | unfencing => cases ht

/-- What an interruption must not do: end a call that is about to give back its lease or its fence, or
repeat a section that others have overtaken. -/
def undisturbed (s : State) : Label → Bool
  | .interrupt i none =>
    match s.calls[i]? with
    | some (.held _ :: _) | some (.leaving :: _) => false
    | _ => true
  | .reconcile i again =>
    match s.calls[i]? with
    | some (.releasing kind releaseActive _ progress :: _) =>
      (progress.done || again.done) && (!again.begun ||
        s.active kind = if progress.begun then releaseActive - 1 else releaseActive)
    | some (.unfencing progress :: _) =>
      (progress.begun || again.begun) && !(progress.begun && again.begun && s.maintenanceActive)
    | _ => true
  | _ => true

theorem Inv.interrupt {point : Option Progress} (h : s.Inv) (hbefore : s.calls[i]? = some (f :: rest))
    (hclean : s.undisturbed (.interrupt i point) = true) (ht : s.interrupt i rest f point = some t) :
    t.Inv := by
  cases f with
  | entering kind =>
    cases point with
    | none =>
      obtain ⟨⟩ := ht
      exact h.pop hbefore rfl (fun _ ↦ rfl) (fun _ ↦ rfl) (fun _ _ _ ↦ rfl) rfl
    | some progress =>
      obtain ⟨-, ⟨⟩⟩ := Option.ite_none_left_eq_some.1 ht
      rw [rollback_eq]
      exact h.pop hbefore rfl (fun _ ↦ rfl) (fun _ ↦ rfl) (fun _ _ _ ↦ rfl) rfl
  | held kind =>
    cases point with
    | none =>
      rw [undisturbed, hbefore] at hclean
      cases hclean
    | some progress =>
      obtain ⟨⟩ := ht
      obtain ⟨hactive, hthreads, hcount⟩ := h.reads hbefore
      rw [hcount]
      refine h.goto (g := .releasing kind (s.active kind) (s.threads kind i) progress) hbefore (by simp)
        (fun k ↦ ?_) (fun k ↦ ?_) ?_ ?_ (fun _ k ↦ ?_) nofun ?_
      · by_cases hk : kind = k
        · subst hk
          cases progress <;> simp [Frame.activeShare, Progress.begun, hactive]
        · simp [Frame.activeShare, hk]
      · by_cases hk : kind = k
        · subst hk
          cases progress <;> simp [Frame.threadShare, Progress.done, hthreads]
        · simp [Frame.threadShare, hk]
      · intro k j hj
        simp [hj.symm]
      · simp [Frame.fenceShare]
      · simp only [setStack_active, unregister_active]
        split_ifs with hk
        · rw [← hk.1]
          exact Nat.sub_le _ _
        · exact le_rfl
      · rintro _ _ _ _ ⟨⟩
        refine ⟨hactive, hthreads, ?_⟩
        cases progress <;> simp [Progress.done]
  | fencing =>
    cases point with
    | none =>
      obtain ⟨⟩ := ht
      exact h.pop hbefore rfl (fun _ ↦ rfl) (fun _ ↦ rfl) (fun _ _ _ ↦ rfl) rfl
    | some progress =>
      obtain ⟨hfree, ⟨⟩⟩ := Option.ite_none_left_eq_some.1 ht
      have hfence : s.maintenanceActive = false := by
        by_contra hf
        exact hfree (.inl (by simpa using hf))
      refine h.pop hbefore (by simp) ?_ ?_ ?_ ?_
      · simp [Frame.activeShare]
      · simp [Frame.threadShare]
      · simp
      · simp [Frame.fenceShare, Progress.begun, hfence]
  | draining =>
    cases point with
    | none =>
      obtain ⟨⟩ := ht
      exact h.goto (g := .leaving) hbefore rfl (fun _ ↦ rfl) (fun _ ↦ rfl) (fun _ _ _ ↦ rfl) rfl
        (fun _ _ ↦ le_rfl) nofun nofun
    | some progress => cases ht
  | leaving =>
    cases point with
    | none =>
      rw [undisturbed, hbefore] at hclean
      cases hclean
    | some progress =>
      obtain ⟨⟩ := ht
      have hfence := h.share_le_fence hbefore
      have hle := Bool.toNat_le s.maintenanceActive
      refine h.goto (g := .unfencing progress) hbefore (by simp) ?_ ?_ ?_ ?_ ?_ nofun nofun
      · simp [Frame.activeShare]
      · simp [Frame.threadShare]
      · simp
      · simp only [Frame.fenceShare] at hfence
        cases progress <;> simp [Frame.fenceShare, Progress.begun]
        · omega
        · omega
      · simp
  | maintaining => cases point <;> cases ht
  | releasing => cases point <;> cases ht
  | unfencing => cases point <;> cases ht

theorem Inv.reconcile {again : Progress} (h : s.Inv) (hbefore : s.calls[i]? = some (f :: rest))
    (hclean : s.undisturbed (.reconcile i again) = true) (ht : s.reconcile i rest again f = some t) :
    t.Inv := by
  cases f with
  | releasing kind active count progress =>
    obtain ⟨⟩ := ht
    obtain ⟨hactive, hcount, hthreads⟩ := h.captured i kind active count progress rest hbefore
    have hshare := h.share_le_active hbefore kind
    rw [undisturbed, hbefore] at hclean
    simp only [Bool.and_eq_true, Bool.or_eq_true, Bool.not_eq_true', decide_eq_true_eq] at hclean
    obtain ⟨hdone, hkept⟩ := hclean
    refine h.pop hbefore (by simp) (fun k ↦ ?_) (fun k ↦ ?_) ?_ ?_
    · by_cases hk : kind = k
      · subst hk
        cases progress <;> cases again <;>
          simp_all [Frame.activeShare, Progress.begun, Progress.done]
      · simp [Frame.activeShare, hk]
    · by_cases hk : kind = k
      · subst hk
        cases progress <;> cases again <;>
          simp_all [Frame.threadShare, Progress.begun, Progress.done]
      · simp [Frame.threadShare, hk]
    · intro k j hj
      simp [hj.symm]
    · simp [Frame.fenceShare]
  | unfencing progress =>
    obtain ⟨⟩ := ht
    have hfence := h.share_le_fence hbefore
    have hle := Bool.toNat_le s.maintenanceActive
    rw [undisturbed, hbefore] at hclean
    refine h.pop hbefore (by simp) ?_ ?_ ?_ ?_
    · simp [Frame.activeShare]
    · simp [Frame.threadShare]
    · simp
    · cases hm : s.maintenanceActive <;> cases progress <;> cases again <;>
        simp_all [Frame.fenceShare, Progress.begun]
  | _ => cases ht

theorem onTop_eq_some {g : List Frame → Frame → Option State} (h : s.onTop i g = some t) :
    ∃ f rest, s.calls[i]? = some (f :: rest) ∧ g rest f = some t := by
  rw [onTop] at h
  split at h
  · next f rest hbefore => exact ⟨f, rest, hbefore, h⟩
  · cases h

theorem Inv.spawn (h : s.Inv) : ({ s with calls := s.calls ++ [[]] } : State).Inv := by
  have hshares : ∀ g, ({ s with calls := s.calls ++ [[]] } : State).shares g = s.shares g := by
    intro g
    simp [shares]
  refine ⟨fun kind ↦ ?_, fun kind j ↦ ?_, ?_, fun stack hstack hmem ↦ ?_, fun stack hstack ↦ ?_,
    fun j kind active count progress rest hj ↦ ?_⟩
  · rw [hshares]
    exact h.active kind
  · refine (h.threads kind j).trans ?_
    rw [sharesOf, sharesOf]
    dsimp only
    rcases lt_trichotomy j s.calls.length with hj | rfl | hj
    · rw [List.getElem?_append_left hj]
    · simp
    · have hlonger : (s.calls ++ [[]]).length ≤ j := by
        rw [List.length_append, List.length_singleton]
        omega
      rw [List.getElem?_eq_none hlonger, List.getElem?_eq_none hj.le]
  · rw [hshares]
    exact h.fence
  · rcases List.mem_append.1 hstack with hstack | hstack
    · exact h.running stack hstack hmem
    · rw [List.mem_singleton.1 hstack] at hmem
      exact absurd hmem List.not_mem_nil
  · rcases List.mem_append.1 hstack with hstack | hstack
    · exact h.nested stack hstack
    · rw [List.mem_singleton.1 hstack]
      exact fun _ hf ↦ absurd hf List.not_mem_nil
  · rcases List.getElem?_concat_some hj with ⟨-, heq⟩ | hj
    · cases heq
    · exact h.captured j kind active count progress rest hj

theorem Inv.step {a : Label} (h : s.Inv) (hclean : s.undisturbed a = true) (ht : s.step a = some t) :
    t.Inv := by
  cases a with
  | spawn =>
    obtain ⟨⟩ := ht
    exact h.spawn
  | lease i kind => exact h.call (f := .entering kind) (fun _ ↦ rfl) (fun _ ↦ rfl) rfl nofun nofun ht
  | maintenance i => exact h.call (f := .fencing) (fun _ ↦ rfl) (fun _ ↦ rfl) rfl nofun nofun ht
  | proceed i =>
    obtain ⟨f, rest, hbefore, ht⟩ := onTop_eq_some ht
    exact h.proceed hbefore ht
  | interrupt i point =>
    obtain ⟨f, rest, hbefore, ht⟩ := onTop_eq_some ht
    exact h.interrupt hbefore hclean ht
  | reconcile i again =>
    obtain ⟨f, rest, hbefore, ht⟩ := onTop_eq_some ht
    exact h.reconcile hbefore hclean ht

/-! ## The leases -/

/-- A frame that is no lease comes on top of what is left of a stack. -/
theorem held_of_frame {kind : Kind} {g : Frame} (hg : g ≠ .held kind) (h : .held kind ∈ g :: rest) :
    .held kind ∈ f :: rest :=
  List.mem_cons_of_mem _ ((List.mem_cons.1 h).resolve_left hg.symm)

/-- What a step does to the stacks: a lease is registered only if there is no fence. -/
theorem calls_of_step {a : Label} (ht : s.step a = some t) :
    t.calls = s.calls ++ [[]] ∨ ∃ i before after, s.calls[i]? = some before ∧
      t.calls = s.calls.set i after ∧
      (s.maintenanceActive = true → ∀ kind, .held kind ∈ after → .held kind ∈ before) := by
  have hcall : ∀ {i f}, (∀ kind, f ≠ .held kind) → s.call i f = some t →
      ∃ i before after, s.calls[i]? = some before ∧ t.calls = s.calls.set i after ∧
        (s.maintenanceActive = true → ∀ kind, .held kind ∈ after → .held kind ∈ before) := by
    intro i f hf ht
    obtain ⟨stack, hbefore, ht⟩ := Option.bind_eq_some_iff.1 ht
    obtain ⟨-, ⟨⟩⟩ := Option.ite_none_right_eq_some.1 ht
    exact ⟨i, stack, f :: stack, hbefore, rfl, fun _ kind hmem ↦
      (List.mem_cons.1 hmem).resolve_left (hf kind).symm⟩
  cases a with
  | spawn =>
    obtain ⟨⟩ := ht
    exact .inl rfl
  | lease i kind => exact .inr (hcall (f := .entering kind) nofun ht)
  | maintenance i => exact .inr (hcall (f := .fencing) nofun ht)
  | proceed i =>
    obtain ⟨f, rest, hbefore, ht⟩ := onTop_eq_some ht
    refine .inr ⟨i, f :: rest, ?_⟩
    cases f with
    | entering k =>
      rw [State.proceed] at ht
      split_ifs at ht with hfence howner
      · obtain ⟨⟩ := ht
        exact ⟨rest, hbefore, rfl, fun _ _ ↦ List.mem_cons_of_mem _⟩
      · obtain ⟨⟩ := ht
        exact ⟨.held k :: rest, hbefore, by simp, fun h ↦ absurd h hfence⟩
    | held k =>
      obtain ⟨⟩ := ht
      exact ⟨rest, hbefore, by simp, fun _ _ ↦ List.mem_cons_of_mem _⟩
    | fencing =>
      rw [State.proceed] at ht
      split_ifs at ht with hreentry hfence
      · obtain ⟨⟩ := ht
        exact ⟨rest, hbefore, rfl, fun _ _ ↦ List.mem_cons_of_mem _⟩
      · obtain ⟨⟩ := ht
        exact ⟨.draining :: rest, hbefore, by simp, fun _ _ ↦ held_of_frame nofun⟩
    | draining =>
      obtain ⟨-, ⟨⟩⟩ := Option.ite_none_right_eq_some.1 ht
      exact ⟨.maintaining :: rest, hbefore, rfl, fun _ _ ↦ held_of_frame nofun⟩
    | maintaining =>
      obtain ⟨⟩ := ht
      exact ⟨.leaving :: rest, hbefore, rfl, fun _ _ ↦ held_of_frame nofun⟩
    | leaving =>
      obtain ⟨⟩ := ht
      exact ⟨rest, hbefore, by simp, fun _ _ ↦ List.mem_cons_of_mem _⟩
    | releasing => cases ht
    | unfencing => cases ht
  | interrupt i point =>
    obtain ⟨f, rest, hbefore, ht⟩ := onTop_eq_some ht
    refine .inr ⟨i, f :: rest, ?_⟩
    -- a call that ends, or one that goes on without a lease
    have hpop : ∀ {u : State}, t = u.setStack i rest → u.calls = s.calls → ∃ after,
        s.calls[i]? = some (f :: rest) ∧ t.calls = s.calls.set i after ∧
          (s.maintenanceActive = true → ∀ kind, .held kind ∈ after → .held kind ∈ f :: rest) := by
      rintro u rfl hu
      exact ⟨rest, hbefore, by rw [setStack_calls, hu], fun _ _ ↦ List.mem_cons_of_mem _⟩
    have hgoto : ∀ {u : State} {g : Frame}, t = u.setStack i (g :: rest) → u.calls = s.calls →
        (∀ kind, g ≠ .held kind) → ∃ after,
        s.calls[i]? = some (f :: rest) ∧ t.calls = s.calls.set i after ∧
          (s.maintenanceActive = true → ∀ kind, .held kind ∈ after → .held kind ∈ f :: rest) := by
      rintro u g rfl hu hg
      exact ⟨g :: rest, hbefore, by rw [setStack_calls, hu], fun _ kind ↦ held_of_frame (hg kind)⟩
    cases f with
    | entering kind =>
      cases point with
      | none => exact hpop (Option.some.inj ht).symm rfl
      | some progress =>
        obtain ⟨-, ht⟩ := Option.ite_none_left_eq_some.1 ht
        rw [rollback_eq] at ht
        exact hpop (Option.some.inj ht).symm rfl
    | held kind =>
      cases point with
      | none => exact hpop (Option.some.inj ht).symm rfl
      | some progress => exact hgoto (Option.some.inj ht).symm (by simp) nofun
    | fencing =>
      cases point with
      | none => exact hpop (Option.some.inj ht).symm rfl
      | some progress =>
        obtain ⟨-, ht⟩ := Option.ite_none_left_eq_some.1 ht
        exact hpop (Option.some.inj ht).symm (by simp)
    | draining =>
      cases point with
      | none => exact hgoto (Option.some.inj ht).symm rfl nofun
      | some progress => cases ht
    | leaving =>
      cases point with
      | none => exact hpop (Option.some.inj ht).symm rfl
      | some progress => exact hgoto (Option.some.inj ht).symm (by simp) nofun
    | maintaining => cases point <;> cases ht
    | releasing => cases point <;> cases ht
    | unfencing => cases point <;> cases ht
  | reconcile i again =>
    obtain ⟨f, rest, hbefore, ht⟩ := onTop_eq_some ht
    refine .inr ⟨i, f :: rest, rest, hbefore, ?_, fun _ _ ↦ List.mem_cons_of_mem _⟩
    cases f with
    | releasing k active count progress =>
      obtain ⟨⟩ := ht
      simp
    | unfencing progress =>
      obtain ⟨⟩ := ht
      simp
    | _ => cases ht

/-- Below a fence no lease is registered. -/
theorem held_of_step {a : Label} {kind : Kind} {other : List Frame} (hfence : s.maintenanceActive = true)
    (ht : s.step a = some t) (hother : other ∈ t.calls) (hheld : .held kind ∈ other) :
    ∃ stack ∈ s.calls, .held kind ∈ stack := by
  rcases calls_of_step ht with hcalls | ⟨i, before, after, hbefore, hcalls, hsub⟩ <;> rw [hcalls] at hother
  · rcases List.mem_append.1 hother with hmem | hmem
    · exact ⟨other, hmem, hheld⟩
    · rw [List.mem_singleton.1 hmem] at hheld
      exact absurd hheld List.not_mem_nil
  · rcases List.mem_or_eq_of_mem_set hother with hmem | rfl
    · exact ⟨other, hmem, hheld⟩
    · exact ⟨before, List.mem_of_getElem? hbefore, hsub hfence kind hheld⟩

theorem Inv.exclusive (h : s.Inv) (hstack : stack ∈ s.calls) (hmem : .maintaining ∈ stack)
    {other : List Frame} (hother : other ∈ s.calls) (kind : Kind) : .held kind ∉ other := by
  intro hheld
  obtain ⟨j, hj⟩ := List.mem_iff_getElem?.1 hother
  obtain ⟨k, hk⟩ := List.mem_iff_getElem?.1 hheld
  have h₁ := List.le_sum_map (fun stack : List Frame ↦ (stack.map (Frame.activeShare kind)).sum) hj
  have h₂ := List.le_sum_map (Frame.activeShare kind) hk
  have h₃ := h.active kind
  rw [h.running stack hstack hmem kind, shares] at h₃
  simp only [Frame.activeShare, decide_true, Bool.toNat_true] at h₁ h₂ h₃
  omega

/-- Without an interrupted release, the shares are the leases. -/
theorem shares_eq_count {kind : Kind} (h : ∀ k active count progress,
    .releasing k active count progress ∉ stack) :
    (stack.map (Frame.activeShare kind)).sum = stack.count (.held kind) ∧
      (stack.map (Frame.threadShare kind)).sum = stack.count (.held kind) := by
  induction stack with
  | nil => exact ⟨rfl, rfl⟩
  | cons f stack ih =>
    obtain ⟨h₁, h₂⟩ := ih fun k active count progress hmem ↦
      h k active count progress (List.mem_cons_of_mem _ hmem)
    simp only [List.map_cons, List.sum_cons, h₁, h₂, List.count_cons]
    cases f with
    | held k =>
      by_cases hk : k = kind
      · simp [Frame.activeShare, Frame.threadShare, hk, add_comm]
      · simp [Frame.activeShare, Frame.threadShare, hk]
    | releasing k active count progress => exact absurd List.mem_cons_self (h k active count progress)
    | _ => simp [Frame.activeShare, Frame.threadShare]

end State

/-- What the leases guarantee. -/
structure State.Consistent (s : State) : Prop where
  /-- There is no lease beside maintenance. -/
  exclusive : ∀ stack ∈ s.calls, .maintaining ∈ stack → ∀ other ∈ s.calls, ∀ kind, .held kind ∉ other
  /-- None is obtained. -/
  closed : ∀ stack ∈ s.calls, .maintaining ∈ stack → ∀ a t, s.step a = some t →
    ∀ other ∈ t.calls, ∀ kind, .held kind ∉ other
  /-- Counters and maps are the calls that have not yet been taken off them. -/
  counted : ∀ kind, s.active kind = s.shares (Frame.activeShare kind) ∧
    ∀ i, s.threads kind i = s.sharesOf i (Frame.threadShare kind)
  /-- They are the leases, unless an interrupted release is still to be repeated. -/
  settled : (∀ stack ∈ s.calls, ∀ k active count progress, .releasing k active count progress ∉ stack) →
    ∀ kind, s.active kind = (s.calls.map (List.count (.held kind))).sum ∧
      ∀ i, s.threads kind i = (s.calls[i]?.getD []).count (.held kind)
  /-- The fence is that of one call. -/
  fence : s.maintenanceActive.toNat = s.shares Frame.fenceShare

theorem State.Inv.consistent {s : State} (h : s.Inv) : s.Consistent := by
  refine ⟨fun stack hstack hmem other hother ↦ h.exclusive hstack hmem hother,
    fun stack hstack hmem a t ht other hother kind hheld ↦ ?_,
    fun kind ↦ ⟨h.active kind, h.threads kind⟩, fun hquiet kind ↦ ⟨?_, fun i ↦ ?_⟩, h.fence⟩
  · obtain ⟨old, hold, hheld⟩ := held_of_step (h.fenced hstack hmem) ht hother hheld
    exact h.exclusive hstack hmem hold kind hheld
  · rw [h.active kind, shares]
    refine congrArg List.sum (List.map_congr_left fun stack hstack ↦ ?_)
    exact (shares_eq_count (hquiet stack hstack)).1
  · rw [h.threads kind i, sharesOf]
    cases hi : s.calls[i]? with
    | none => rfl
    | some stack => exact (shares_eq_count (hquiet stack (List.mem_of_getElem? hi))).2

/-- **Leases**, over every interleaving in which no interruption strikes where it must not. -/
theorem consistent_of_undisturbed {labels : List Label}
    (h : machine.Along (fun s a ↦ s.undisturbed a = true) .new labels) :
    machine.Always State.Consistent .new labels := by
  have hinv : machine.Always State.Inv .new labels :=
    h.always (fun _ _ _ hs hclean ht ↦ hs.step hclean ht) State.Inv.new
  exact hinv.mono fun _ hs ↦ hs.consistent

/-- A release that is interrupted between its writes and repeated, and maintenance after it, with a
nested call that is refused. -/
def repeated : List Label :=
  [.spawn, .lease 0 .reader, .proceed 0, .interrupt 0 (some .first), .reconcile 0 .second,
    .maintenance 0, .proceed 0, .proceed 0, .lease 0 .commit, .proceed 0]

theorem consistent_of_undisturbed_repeated :
    (machine.run .new repeated).map State.calls = some [[.maintaining]] ∧
      machine.Always State.Consistent .new repeated :=
  ⟨by decide, consistent_of_undisturbed (by decide)⟩

/-- A reader is interrupted while it waits for the lock to give its lease back. -/
def lost : List Label := [.spawn, .lease 0 .reader, .proceed 0, .interrupt 0 none]

/-- The release of one reader is interrupted after its writes, another reader comes in, and the first
one repeats its writes: maintenance does not see the other. -/
def overtaken : List Label :=
  [.spawn, .spawn, .spawn, .lease 0 .reader, .proceed 0, .interrupt 0 (some .second), .lease 1 .reader,
    .proceed 1, .reconcile 0 .second, .maintenance 2, .proceed 2, .proceed 2]

/-- A lost lease is counted for ever, and an overtaken release uncounts the lease of another. -/
theorem not_consistent_of_interrupted :
    ((machine.run .new lost).map fun s ↦ (s.calls, s.active .reader, s.threads .reader 0)) =
      some ([[]], 1, 1) ∧
    (machine.run .new overtaken).map State.calls = some [[], [.held .reader], [.maintaining]] := by
  decide

end SnapshotLeases

end ScrapyExtension
