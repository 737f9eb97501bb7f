import ScrapyExtension.Json.Load
import ScrapyExtension.Machine.Basic

/-!
# The ring buffer under threads

A bounded buffer under one lock. A push that finds it full is refused, or drops the oldest item, or waits on the
condition of the lock. A pop wakes the first waiting push; a clear, a restore and a close wake all of them.

A label of the machine is a critical section. A waiting push has two: the first ends in `wait`, which gives the
lock away, and the second begins when it was notified and has the lock again, at any later time. Other pushes
may come in between, and then the push waits once more.

## Wake-ups

A push counts the lifecycles it has seen: it is refused when the buffer was closed since it began, even when it
is open again. So a notified push of an earlier lifecycle does not take the slot it was woken for. No slot is
lost by this, for a close wakes everybody: whoever waits belongs to the lifecycle of now, and so does whoever
a pop wakes. The slots that are free are therefore counted against the notified pushes of this lifecycle.
-/

namespace ScrapyExtension

open Py Json

namespace RingBuffer

/-- `_full_policy` -/
inductive FullPolicy
  | reject
  | dropOldest
  | block
deriving DecidableEq, Repr

/-- The settings of a buffer. -/
structure Config where
  capacity : ℕ
  fullPolicy : FullPolicy
  capacity_pos : 0 < capacity

/-- A push under way. -/
structure Pusher where
  item : Bytes
  /-- The lifecycle it has seen. -/
  generation : ℕ
  /-- How many closes came before it. -/
  closes : ℕ
deriving DecidableEq, Repr

/-- An item that was accepted: how many closes came before its push began, and before it was appended. -/
structure Accepted where
  item : Bytes
  begun : ℕ
  appended : ℕ
deriving DecidableEq, Repr

/-- How an item left. -/
inductive Way
  | popped
  | dropped
  | cleared
deriving DecidableEq, Repr

/-- The buffer, with the pushes that wait for its lock and what has happened. -/
structure State where
  /-- `_buffer` -/
  buffer : List Bytes
  /-- `_dropped` -/
  dropped : ℕ
  /-- `_closed` -/
  closed : Bool
  /-- `_generation` -/
  generation : ℕ
  /-- The waiters of `_not_full`, which are woken from the front. -/
  waiting : List Pusher
  /-- Those that were woken, and do not have the lock yet. -/
  notified : List Pusher
  /-- How many closes there were. -/
  closes : ℕ
  /-- What the last restore left in the buffer. -/
  base : List Bytes
  /-- The counter that it set. -/
  baseDropped : ℕ
  /-- What was accepted before it. -/
  older : List Accepted
  /-- What was accepted since. -/
  accepted : List Accepted
  /-- What has left since, in this order. -/
  left : List (Bytes × Way)

/-- A new buffer. -/
def initial : State := ⟨[], 0, false, 0, [], [], 0, [], 0, [], [], []⟩

/-! ## Push -/

/-- Both fields are assigned; a signal in between makes the handler put them back. -/
def State.publish (s : State) (buffer : List Bytes) (dropped : ℕ) (interrupted : Bool) : State :=
  let previous := s
  let s := { s with buffer := buffer }
  if interrupted then { s with buffer := previous.buffer, dropped := previous.dropped }
  else { s with dropped := dropped }

/-- An item was accepted. -/
def State.accept (s : State) (p : Pusher) : State :=
  { s with accepted := s.accepted ++ [⟨p.item, p.closes, s.closes⟩] }

/-- One turn of the loop of `push`, with the lock. -/
def Config.turn (c : Config) (s : State) (p : Pusher) (reactor interrupted : Bool) : State :=
  if s.closed ∨ p.generation ≠ s.generation then s
  else if s.buffer.length < c.capacity then ({ s with buffer := s.buffer ++ [p.item] }).accept p
  else match c.fullPolicy with
    | .reject => s
    | .dropOldest =>
      let replacement := s.buffer.tail ++ [p.item]
      let t := s.publish replacement (s.dropped + 1) interrupted
      if interrupted then t
      else { t.accept p with left := s.left ++ (s.buffer.take 1).map (·, Way.dropped) }
    | .block => if reactor then s else { s with waiting := s.waiting ++ [p] }

/-- `push` -/
def Config.push (c : Config) (s : State) (item : Bytes) (reactor interrupted : Bool) : State :=
  c.turn s ⟨item, s.generation, s.closes⟩ reactor interrupted

/-! ## The other calls -/

/-- `notify_all` -/
def State.notifyAll (s : State) : State := { s with waiting := [], notified := s.notified ++ s.waiting }

/-- `notify` -/
def State.notify (s : State) : State :=
  { s with waiting := s.waiting.tail, notified := s.notified ++ s.waiting.take 1 }

/-- `pop` -/
def State.pop (s : State) : State :=
  match s.buffer with
  | [] => s
  | item :: rest => ({ s with buffer := rest, left := s.left ++ [(item, Way.popped)] }).notify

/-- `clear` -/
def State.clear (s : State) : State :=
  ({ s with buffer := [], left := s.left ++ s.buffer.map (·, Way.cleared) }).notifyAll

/-- `open` -/
def State.reopen (s : State) : State :=
  if s.closed then { s with generation := s.generation + 1, closed := false } else s

/-- `begin_close` -/
def State.beginClose (s : State) : State := ({ s with closed := true, closes := s.closes + 1 }).notifyAll

/-- The part of `restore` that reads the text: the items and the counter. -/
def readSnapshot (F : Floats) (limit : ℕ) (state : Bytes) : Option (List Bytes × ℕ) :=
  match loadBytes F limit state with
  | some (.dict ms) =>
    match ms.lookup (str "strategy"), ms.lookup (str "version"), ms.lookup (str "items") with
    | some (.str strategy), some (.int version), some (.list items) =>
      if strategy ≠ str "ring_buffer" then none
      else if version ≠ 1 then none
      else
        match items.mapM Loaded.base64, (ms.lookup (str "dropped")).getD (.int 0) with
        | some decoded, .int dropped => if dropped < 0 then none else some (decoded, dropped.toNat)
        | _, _ => none
    | _, _, _ => none
  | _ => none

/-- `restore` -/
def Config.restore (c : Config) (F : Floats) (limit : ℕ) (s : State) (state : Option Bytes) (interrupted : Bool) :
    State :=
  match state.bind (readSnapshot F limit) with
  | none => s
  | some (decoded, dropped) =>
    let decoded := if c.capacity < decoded.length then decoded.drop (decoded.length - c.capacity) else decoded
    let t := s.publish decoded dropped interrupted
    if interrupted then t
    else
      ({ t with
        base := decoded
        baseDropped := dropped
        older := s.older ++ s.accepted
        accepted := []
        left := [] }).notifyAll

/-! ## Runs -/

/-- A critical section. -/
inductive Label
  | push (item : Bytes) (reactor interrupted : Bool)
  /-- A notified push has the lock again. -/
  | resume (i : ℕ) (interrupted : Bool)
  | pop
  | clear
  | restore (state : Option Bytes) (interrupted : Bool)
  | reopen
  | beginClose

/-- The buffer as a machine. -/
def machine (c : Config) (F : Floats) (limit : ℕ) : Machine State Label where
  init := initial
  step s
    | .push item reactor interrupted => some (c.push s item reactor interrupted)
    | .resume i interrupted =>
      (s.notified[i]?).map fun p ↦
        c.turn { s with notified := s.notified.eraseIdx i } p false interrupted
    | .pop => some s.pop
    | .clear => some s.clear
    | .restore state interrupted => some (c.restore F limit s state interrupted)
    | .reopen => some s.reopen
    | .beginClose => some s.beginClose

/-! ## The invariant -/

section Inv

variable {c : Config} {s : State} {p : Pusher}

/-- How many items have left in a way. -/
def State.gone (s : State) (way : Way) : ℕ := s.left.countP fun e ↦ e.2 = way

/-- The notified pushes of this lifecycle. -/
def State.fresh (s : State) : ℕ := s.notified.countP fun p ↦ p.generation = s.generation

/-- What a push has seen: if its lifecycle is that of now, the buffer is closed, or it was not closed since. -/
def State.Known (s : State) (p : Pusher) : Prop :=
  p.generation ≤ s.generation ∧ (p.generation = s.generation → s.closed = true ∨ p.closes = s.closes)

/-- What holds whenever the lock is free, but for the wake-ups. -/
structure Core (c : Config) (s : State) : Prop where
  bounded : s.buffer.length ≤ c.capacity
  order : s.base ++ s.accepted.map Accepted.item = s.left.map Prod.fst ++ s.buffer
  count : s.dropped = s.baseDropped + s.gone .dropped
  known : ∀ p ∈ s.waiting ++ s.notified, s.Known p
  current : ∀ p ∈ s.waiting, p.generation = s.generation
  awake : s.closed = true → s.waiting = []
  honest : ∀ a ∈ s.older ++ s.accepted, a.begun = a.appended

/-- The slots that are free are accounted for, with `slack` pushes that have the lock. -/
def Wake (c : Config) (slack : ℕ) (s : State) : Prop :=
  s.waiting ≠ [] → c.capacity - s.buffer.length ≤ s.fresh + slack

@[simp] theorem publish_interrupted (s : State) (buffer : List Bytes) (dropped : ℕ) :
    s.publish buffer dropped true = s := rfl

@[simp] theorem publish_done (s : State) (buffer : List Bytes) (dropped : ℕ) :
    s.publish buffer dropped false = { s with buffer := buffer, dropped := dropped } := rfl

/-- Everything a turn can do. -/
theorem turn_cases (c : Config) (s : State) (p : Pusher) (reactor interrupted : Bool) :
    (c.turn s p reactor interrupted = s ∧
      (s.closed = true ∨ p.generation ≠ s.generation ∨ c.capacity ≤ s.buffer.length)) ∨
    (s.closed = false ∧ p.generation = s.generation ∧ s.buffer.length < c.capacity ∧
      c.turn s p reactor interrupted = ({ s with buffer := s.buffer ++ [p.item] }).accept p) ∨
    (s.closed = false ∧ p.generation = s.generation ∧ c.capacity ≤ s.buffer.length ∧
      c.turn s p reactor interrupted =
        { ({ s with buffer := s.buffer.tail ++ [p.item], dropped := s.dropped + 1 } : State).accept p with
          left := s.left ++ (s.buffer.take 1).map (·, Way.dropped) }) ∨
    (s.closed = false ∧ p.generation = s.generation ∧ c.capacity ≤ s.buffer.length ∧
      c.turn s p reactor interrupted = { s with waiting := s.waiting ++ [p] }) := by
  rw [Config.turn]
  by_cases hstale : s.closed = true ∨ p.generation ≠ s.generation
  · rw [if_pos hstale]
    exact .inl ⟨rfl, hstale.imp_right .inl⟩
  rw [if_neg hstale]
  rw [not_or, Bool.not_eq_true, not_not] at hstale
  by_cases hroom : s.buffer.length < c.capacity
  · rw [if_pos hroom]
    exact .inr (.inl ⟨hstale.1, hstale.2, hroom, rfl⟩)
  rw [if_neg hroom]
  rw [not_lt] at hroom
  rcases c.fullPolicy with - | - | -
  · exact .inl ⟨rfl, .inr (.inr hroom)⟩
  · rcases interrupted with - | -
    · exact .inr (.inr (.inl ⟨hstale.1, hstale.2, hroom, rfl⟩))
    · exact .inl ⟨rfl, .inr (.inr hroom)⟩
  · rcases reactor with - | -
    · exact .inr (.inr (.inr ⟨hstale.1, hstale.2, hroom, rfl⟩))
    · exact .inl ⟨rfl, .inr (.inr hroom)⟩

theorem gone_append (s : State) (l : List Bytes) (v w : Way) :
    ({ s with left := s.left ++ l.map (·, v) } : State).gone w = s.gone w + if v = w then l.length else 0 := by
  have hcount : (l.map (·, v)).countP (fun e ↦ e.2 = w) = if v = w then l.length else 0 := by
    split_ifs with h
    · refine (List.countP_eq_length.mpr fun e he ↦ ?_).trans (List.length_map _)
      obtain ⟨x, -, rfl⟩ := List.mem_map.mp he
      exact decide_eq_true h
    · refine List.countP_eq_zero.mpr fun e he ↦ ?_
      obtain ⟨x, -, rfl⟩ := List.mem_map.mp he
      simpa using h
  rw [← hcount]
  exact List.countP_append

theorem Core.honest_accept (h : Core c s) (hp : s.Known p) (hclosed : s.closed = false)
    (hgeneration : p.generation = s.generation) :
    ∀ a ∈ s.older ++ (s.accepted ++ [⟨p.item, p.closes, s.closes⟩]), a.begun = a.appended := by
  intro a ha
  rw [← List.append_assoc] at ha
  rcases List.mem_append.mp ha with ha | ha
  · exact h.honest a ha
  · rw [List.mem_singleton.mp ha]
    exact (hp.2 hgeneration).resolve_left fun htrue ↦ by simp [hclosed] at htrue

/-- **A turn** of a push. -/
theorem Core.turn (h : Core c s) (hp : s.Known p) (reactor interrupted : Bool) :
    Core c (c.turn s p reactor interrupted) := by
  rcases turn_cases c s p reactor interrupted with ⟨heq, -⟩ | ⟨hclosed, hgeneration, hroom, heq⟩ |
      ⟨hclosed, hgeneration, hfull, heq⟩ | ⟨hclosed, hgeneration, hfull, heq⟩
  · rwa [heq]
  · rw [heq]
    refine ⟨?_, ?_, h.count, h.known, h.current, h.awake, h.honest_accept hp hclosed hgeneration⟩
    · simp only [State.accept, List.length_append, List.length_singleton]
      omega
    · simp only [State.accept, List.map_append, List.map_cons, List.map_nil]
      rw [← List.append_assoc, ← List.append_assoc, h.order]
  · -- the buffer is not empty, and its first item leaves
    obtain ⟨first, rest, hbuffer⟩ := List.exists_cons_of_length_pos (c.capacity_pos.trans_le hfull)
    rw [heq, hbuffer]
    have hbounded := h.bounded
    have horder := h.order
    rw [hbuffer] at hbounded horder
    refine ⟨?_, ?_, ?_, h.known, h.current, h.awake, h.honest_accept hp hclosed hgeneration⟩
    · simpa [State.accept] using hbounded
    · simp only [State.accept, List.tail_cons, List.take_succ_cons, List.take_zero, List.map_append, List.map_cons,
        List.map_nil]
      rw [← List.append_assoc, horder]
      simp
    · have hone := gone_append s [first] .dropped .dropped
      rw [if_pos rfl, List.length_singleton] at hone
      exact (congrArg (· + 1) h.count).trans (congrArg (s.baseDropped + ·) hone.symm)
  · rw [heq]
    refine ⟨h.bounded, h.order, h.count, fun q hq ↦ ?_, fun q hq ↦ ?_, fun htrue ↦ ?_, h.honest⟩
    · rw [List.append_assoc, List.mem_append, List.mem_append, List.mem_singleton] at hq
      rcases hq with hq | rfl | hq
      · exact h.known q (List.mem_append_left _ hq)
      · exact hp
      · exact h.known q (List.mem_append_right _ hq)
    · rcases List.mem_append.mp hq with hq | hq
      · exact h.current q hq
      · rw [List.mem_singleton.mp hq]
        exact hgeneration
    · rw [hclosed] at htrue
      exact absurd htrue Bool.false_ne_true

/-- A push of this lifecycle takes a free slot, or there is none; the others were woken by a close. -/
theorem Core.wake_turn (h : Core c s) {slack : ℕ} (hwake : Wake c slack s)
    (hslack : p.generation ≠ s.generation → slack = 0) (hone : slack ≤ 1) (reactor interrupted : Bool) :
    Wake c 0 (c.turn s p reactor interrupted) := by
  have hbounded := h.bounded
  rcases turn_cases c s p reactor interrupted with ⟨heq, hreason⟩ | ⟨hclosed, hgeneration, hroom, heq⟩ |
      ⟨hclosed, hgeneration, hfull, heq⟩ | ⟨hclosed, hgeneration, hfull, heq⟩
  · rw [heq]
    intro hne
    have hle := hwake hne
    rcases hreason with hclosed | hstale | hfull
    · exact absurd (h.awake hclosed) hne
    · rwa [hslack hstale] at hle
    · omega
  · rw [heq]
    intro hne
    have hle := hwake hne
    change c.capacity - (s.buffer ++ [p.item]).length ≤ s.fresh + 0
    rw [List.length_append, List.length_singleton]
    omega
  · rw [heq]
    intro _
    have hpos := c.capacity_pos
    change c.capacity - (s.buffer.tail ++ [p.item]).length ≤ s.fresh + 0
    rw [List.length_append, List.length_tail, List.length_singleton]
    omega
  · rw [heq]
    intro _
    change c.capacity - s.buffer.length ≤ s.fresh + 0
    omega

theorem Core.notifyAll (h : Core c s) : Core c s.notifyAll := by
  refine ⟨h.bounded, h.order, h.count, fun p hp ↦ ?_, fun p hp ↦ absurd hp List.not_mem_nil, fun _ ↦ rfl, h.honest⟩
  rw [State.notifyAll, List.nil_append, List.mem_append] at hp
  exact h.known p (List.mem_append.mpr hp.symm)

theorem wake_notifyAll (c : Config) (s : State) : Wake c 0 s.notifyAll := fun hne ↦ absurd rfl hne

/-- The push that is woken is one of this lifecycle. -/
theorem Core.fresh_notify (h : Core c s) (hne : s.waiting ≠ []) : s.notify.fresh = s.fresh + 1 := by
  obtain ⟨first, others, hwaiting⟩ := List.exists_cons_of_ne_nil hne
  have hfirst : first.generation = s.generation := h.current first (hwaiting ▸ List.mem_cons_self)
  have htake : s.waiting.take 1 = [first] := by rw [hwaiting]; rfl
  change (s.notified ++ s.waiting.take 1).countP (fun p ↦ p.generation = s.generation) = s.fresh + 1
  rw [htake, List.countP_append, List.countP_singleton, if_pos (decide_eq_true hfirst)]
  rfl

theorem Core.pop (h : Core c s) (hwake : Wake c 0 s) : Core c s.pop ∧ Wake c 0 s.pop := by
  rw [State.pop]
  rcases hbuffer : s.buffer with - | ⟨item, rest⟩
  · exact ⟨h, hwake⟩
  have hbounded := h.bounded
  have horder := h.order
  rw [hbuffer] at hbounded horder
  have hwoken : ∀ p, p ∈ s.waiting.tail ++ (s.notified ++ s.waiting.take 1) → p ∈ s.waiting ++ s.notified := by
    intro p hp
    simp only [List.mem_append] at hp ⊢
    rcases hp with hp | hp | hp
    · exact .inl (List.mem_of_mem_tail hp)
    · exact .inr hp
    · exact .inl (List.mem_of_mem_take hp)
  refine ⟨⟨?_, ?_, ?_, fun p hp ↦ h.known p (hwoken p hp), fun p hp ↦ h.current p (List.mem_of_mem_tail hp),
    fun hclosed ↦ ?_, h.honest⟩, fun hne ↦ ?_⟩
  · rw [List.length_cons] at hbounded
    exact (Nat.le_succ _).trans hbounded
  · simpa [State.notify] using horder
  · have hzero := gone_append s [item] .popped .dropped
    rw [if_neg (by decide), Nat.add_zero] at hzero
    exact h.count.trans (congrArg (s.baseDropped + ·) hzero.symm)
  · exact congrArg List.tail (h.awake hclosed)
  · -- the slot that is free now is accounted for by the push that is woken
    have hne' : s.waiting ≠ [] := fun hnil ↦ hne (congrArg List.tail hnil)
    have hle := hwake hne'
    have hfresh : ({ s with buffer := rest, left := s.left ++ [(item, Way.popped)] } : State).notify.fresh =
        s.fresh + 1 := h.fresh_notify hne'
    rw [hfresh]
    change c.capacity - rest.length ≤ s.fresh + 1 + 0
    rw [hbuffer, List.length_cons] at hle
    omega

theorem Core.clear (h : Core c s) : Core c s.clear := by
  refine Core.notifyAll ⟨Nat.zero_le _, ?_, ?_, h.known, h.current, h.awake, h.honest⟩
  · have hfst : (s.buffer.map (·, Way.cleared)).map Prod.fst = s.buffer := by
      rw [List.map_map]
      exact List.map_id _
    rw [List.map_append, hfst, List.append_nil]
    exact h.order
  · have hzero := gone_append s s.buffer .cleared .dropped
    rw [if_neg (by decide), Nat.add_zero] at hzero
    exact h.count.trans (congrArg (s.baseDropped + ·) hzero.symm)

theorem Core.beginClose (h : Core c s) : Core c s.beginClose := by
  refine ⟨h.bounded, h.order, h.count, fun p hp ↦ ?_, fun p hp ↦ absurd hp List.not_mem_nil, fun _ ↦ rfl, h.honest⟩
  have hmem : p ∈ s.waiting ++ s.notified := by
    simp only [State.beginClose, State.notifyAll, List.nil_append, List.mem_append] at hp ⊢
    exact hp.symm
  exact ⟨(h.known p hmem).1, fun _ ↦ .inl rfl⟩

theorem Core.reopen (h : Core c s) : Core c s.reopen := by
  rw [State.reopen]
  split_ifs with hclosed
  · refine ⟨h.bounded, h.order, h.count, fun p hp ↦ ?_, fun p hp ↦ ?_, fun hfalse ↦ (nomatch hfalse), h.honest⟩
    · have hle := (h.known p hp).1
      exact ⟨hle.trans (Nat.le_succ _), fun heq ↦ absurd heq (Nat.lt_succ_of_le hle).ne⟩
    · rw [h.awake hclosed] at hp
      exact absurd hp List.not_mem_nil
  · exact h

theorem Core.restore (h : Core c s) (hwake : Wake c 0 s) (F : Floats) (limit : ℕ) (state : Option Bytes)
    (interrupted : Bool) :
    Core c (c.restore F limit s state interrupted) ∧ Wake c 0 (c.restore F limit s state interrupted) := by
  rw [Config.restore]
  rcases state.bind (readSnapshot F limit) with - | ⟨decoded, dropped⟩
  · exact ⟨h, hwake⟩
  rcases interrupted with - | -
  · refine ⟨Core.notifyAll ⟨?_, ?_, rfl, h.known, h.current, h.awake, ?_⟩, wake_notifyAll c _⟩
    · simp only [publish_done]
      split_ifs with hlong
      · rw [List.length_drop]
        omega
      · exact not_lt.mp hlong
    · simp only [publish_done, List.map_nil, List.append_nil, List.nil_append]
    · rw [List.append_nil]
      exact h.honest
  · exact ⟨h, hwake⟩

/-- A notified push leaves the list, with the slot it accounts for. -/
theorem Core.resume (h : Core c s) (hwake : Wake c 0 s) {i : ℕ} (hi : s.notified[i]? = some p) :
    Core c { s with notified := s.notified.eraseIdx i } ∧ s.Known p ∧
      Wake c (if p.generation = s.generation then 1 else 0) { s with notified := s.notified.eraseIdx i } := by
  obtain ⟨hlt, rfl⟩ := List.getElem?_eq_some_iff.mp hi
  refine ⟨⟨h.bounded, h.order, h.count, fun q hq ↦ h.known q ?_, h.current, h.awake, h.honest⟩, ?_, fun hne ↦ ?_⟩
  · rcases List.mem_append.mp hq with hq | hq
    · exact List.mem_append_left _ hq
    · exact List.mem_append_right _ (List.mem_of_mem_eraseIdx hq)
  · exact h.known _ (List.mem_append_right _ (List.getElem_mem hlt))
  · have hle := hwake hne
    have hperm := (List.getElem_cons_eraseIdx_perm hlt).countP_eq fun q ↦ decide (q.generation = s.generation)
    rw [List.countP_cons] at hperm
    simp only [decide_eq_true_eq] at hperm
    have hfresh : ({ s with notified := s.notified.eraseIdx i } : State).fresh +
        (if s.notified[i].generation = s.generation then 1 else 0) = s.fresh := hperm
    rw [hfresh]
    exact hle

variable {F : Floats} {limit : ℕ}

/-- **A critical section** keeps the invariant. -/
theorem Core.step (h : Core c s) (hwake : Wake c 0 s) {a : Label} {t : State}
    (ht : (machine c F limit).step s a = some t) : Core c t ∧ Wake c 0 t := by
  rcases a with ⟨item, reactor, interrupted⟩ | ⟨i, interrupted⟩ | - | - | ⟨state, interrupted⟩ | - | -
  · obtain rfl := Option.some.inj ht
    have hknown : s.Known ⟨item, s.generation, s.closes⟩ := ⟨le_rfl, fun _ ↦ .inr rfl⟩
    exact ⟨h.turn hknown reactor interrupted, h.wake_turn hwake (fun _ ↦ rfl) (Nat.zero_le 1) reactor interrupted⟩
  · obtain ⟨p, hp, rfl⟩ := Option.map_eq_some_iff.mp ht
    obtain ⟨hcore, hknown, hslack⟩ := h.resume hwake hp
    refine ⟨hcore.turn hknown false interrupted, hcore.wake_turn hslack (fun hne ↦ if_neg hne) ?_ false interrupted⟩
    split_ifs
    · exact le_rfl
    · exact Nat.zero_le 1
  · obtain rfl := Option.some.inj ht
    exact h.pop hwake
  · obtain rfl := Option.some.inj ht
    exact ⟨h.clear, wake_notifyAll c _⟩
  · obtain rfl := Option.some.inj ht
    exact h.restore hwake F limit state interrupted
  · obtain rfl := Option.some.inj ht
    refine ⟨h.reopen, fun hne ↦ ?_⟩
    rw [State.reopen] at hne ⊢
    split_ifs at hne ⊢ with hclosed
    · exact absurd (h.awake hclosed) hne
    · exact hwake hne
  · obtain rfl := Option.some.inj ht
    exact ⟨h.beginClose, wake_notifyAll c _⟩

theorem core_of_reachable (hs : (machine c F limit).Reachable s) : Core c s ∧ Wake c 0 s := by
  refine hs.invariant (I := fun s ↦ Core c s ∧ Wake c 0 s) ⟨⟨Nat.zero_le _, rfl, rfl, fun p hp ↦ ?_, fun p hp ↦ ?_,
    fun _ ↦ rfl, fun a ha ↦ ?_⟩, fun hne ↦ absurd rfl hne⟩ fun s a t h ht ↦ h.1.step h.2 ht
  · exact absurd hp List.not_mem_nil
  · exact absurd hp List.not_mem_nil
  · exact absurd ha List.not_mem_nil

theorem length_left (s : State) : s.left.length = s.gone .popped + s.gone .dropped + s.gone .cleared := by
  rw [State.gone, State.gone, State.gone]
  induction s.left with
  | nil => rfl
  | cons e l ih =>
    obtain ⟨item, way⟩ := e
    rw [List.length_cons, List.countP_cons, List.countP_cons, List.countP_cons, ih]
    rcases way with - | - | - <;> simp <;> omega

/-- What holds of a buffer whenever its lock is free. -/
structure Sound (c : Config) (s : State) : Prop where
  bounded : s.buffer.length ≤ c.capacity
  /-- Items leave in the order in which they were restored or accepted. -/
  order : s.left.map Prod.fst ++ s.buffer = s.base ++ s.accepted.map Accepted.item
  /-- Since the last restore nothing is lost, and nothing comes from nowhere. -/
  conserved : s.base.length + s.accepted.length =
    s.gone .popped + s.buffer.length + (s.dropped - s.baseDropped) + s.gone .cleared
  dropped : s.dropped - s.baseDropped = s.gone .dropped
  /-- No close comes between the begin of a push and its item. -/
  lifecycle : ∀ a ∈ s.older ++ s.accepted, a.begun = a.appended
  /-- A push that waits and was not woken leaves no more slots free than pushes were woken and have not run. -/
  woken : s.waiting ≠ [] → c.capacity - s.buffer.length ≤ s.notified.length

/-- **The ring buffer** is sound for all interleavings of pushes, pops, clears, restores, closes and opens. -/
theorem ring_buffer (c : Config) (F : Floats) (limit : ℕ) {s : State} (hs : (machine c F limit).Reachable s) :
    Sound c s := by
  obtain ⟨h, hwake⟩ := core_of_reachable hs
  have hdropped : s.dropped - s.baseDropped = s.gone .dropped := by
    rw [h.count]
    exact Nat.add_sub_cancel_left _ _
  refine ⟨h.bounded, h.order.symm, ?_, hdropped, h.honest, fun hne ↦ (hwake hne).trans List.countP_le_length⟩
  have hlength := congrArg List.length h.order
  rw [List.length_append, List.length_append, List.length_map, List.length_map, length_left] at hlength
  rw [hdropped, hlength]
  omega

/-- Two slots, and pushes that wait. -/
def blocking : Config := ⟨2, .block, by decide⟩

/-- A waiting push is woken by a close; one of the next lifecycle waits after it, and is woken by a pop. -/
def staleAndFresh : List Label :=
  [.push [byte 1] false false, .push [byte 2] false false, .push [byte 3] false false, .beginClose, .reopen,
    .push [byte 4] false false, .pop, .resume 0 false, .resume 0 false, .push [byte 5] false false]

theorem isSome_staleAndFresh :
    ((machine blocking fractions 1000).run initial staleAndFresh).isSome = true := by decide +kernel

/-- The state after it. -/
def refilled : State := Option.get _ isSome_staleAndFresh

theorem ring_buffer_refilled : refilled.buffer = [[byte 2], [byte 4]] ∧
    refilled.waiting.map Pusher.item = [[byte 5]] ∧ Sound blocking refilled := by
  refine ⟨?_, ?_, ?_⟩
  · decide +kernel
  · decide +kernel
  · exact ring_buffer blocking fractions 1000 ⟨staleAndFresh, (Option.some_get isSome_staleAndFresh).symm⟩

end Inv

end RingBuffer

end ScrapyExtension
