import Mathlib.Tactic
import ScrapyExtension.Py.OrderedDict

/-!
# Round robin over sources

`RoundRobinQueueStrategy` keeps a queue for each source in an ordered map, whose first key is the
source to serve next. A pop takes the head of that queue and moves the source to the end, or out of
the map once its queue is empty; a push to a source that is not in the map puts it at the end.

The two updates of a pop are separate, and a signal may come between them: the handler puts the item
and the source back. `Stop` says where the signal comes.

## Fairness

Look at a source `b` that is waiting. Only the sources in front of it can be served before it, and a
source that has been served is behind it, or comes back behind it. So what is left of the services of
another source before that of `b` is one if the source is in front of `b`, and none otherwise.
-/

namespace ScrapyExtension

open Py

namespace RoundRobin

variable {σ α : Type*} [DecidableEq σ]

/-- What the strategy holds. -/
structure State (σ α : Type*) where
  /-- `_sources` -/
  sources : OrderedDict σ (List α)
  /-- `_bound_queue_name` -/
  bound : Option String

/-- Where a signal comes within the `try` of a pop. -/
inductive Stop
  /-- Before `popleft`. -/
  | staged
  /-- Between `popleft` and the update of the map. -/
  | popped
  /-- After the update of the map. -/
  | rotated
deriving DecidableEq, Repr

/-- `_bind_single_queue`: whether the call goes on, for the queue it names. -/
def bind (s : State σ α) (queue : String) : Option (State σ α) :=
  match s.bound with
  | none => some { s with bound := some queue }
  | some name => if name = queue then some s else none

/-- The body of `push`. -/
def append (d : OrderedDict σ (List α)) (source : σ) (item : α) : OrderedDict σ (List α) :=
  -- a new queue is put into the map while it is still empty
  let d := match d.get? source with
    | some _ => d
    | none => d.set source []
  d.modify source fun queue ↦ queue ++ [item]

/-- `move_to_end` or `del`, after `popleft` left `queue`. -/
def rotate (d : OrderedDict σ (List α)) (source : σ) (queue : List α) : OrderedDict σ (List α) :=
  if queue = [] then d.erase source else d.moveToEnd source

/-- The map and the queue of the first source as a signal at a place finds them. -/
def interrupted (d : OrderedDict σ (List α)) (source : σ) (queue : List α) :
    Stop → OrderedDict σ (List α) × List α
  | .staged => (d, queue)
  | .popped => (d.modify source List.tail, queue.tail)
  | .rotated => (rotate (d.modify source List.tail) source queue.tail, queue.tail)

/-- The handler, which has the queue object even when it is out of the map. -/
def rollback (d : OrderedDict σ (List α)) (source : σ) (queue : List α) (item : α) (length : ℕ) :
    OrderedDict σ (List α) :=
  let restored := if queue.length < length then item :: queue else queue
  let d := d.modify source fun _ ↦ restored
  let d := match d.get? source with
    | some _ => d
    | none => d.set source restored
  d.moveToFront source

/-- The loop of `pop`. With the item comes the source it is from, which the code does not return. A
signal makes the call raise. -/
def takeNext (d : OrderedDict σ (List α)) (signal : Option Stop) :
    OrderedDict σ (List α) × Option (σ × α) :=
  -- the first sources go as long as their queues are empty
  let d := d.dropWhile fun e ↦ e.2.isEmpty
  match d.entries with
  | (source, item :: queue) :: _ =>
    match signal with
    | none => (rotate (d.modify source List.tail) source queue, some (source, item))
    | some stop =>
      let found := interrupted d source (item :: queue) stop
      (rollback found.1 source found.2 item (queue.length + 1), none)
  | _ => (d, none)

/-- A call of the strategy. -/
inductive Call (σ α : Type*)
  | push (queue : String) (source : σ) (item : α)
  | pop (queue : String) (signal : Option Stop)
deriving DecidableEq, Repr

/-- What a call did. -/
inductive Event (σ α : Type*)
  | pushed (source : σ) (item : α)
  | served (source : σ) (item : α)
deriving DecidableEq, Repr

/-- One call; it raises when it names another queue than the calls before. -/
def call (s : State σ α) : Call σ α → State σ α × Option (Event σ α)
  | .push queue source item =>
    match bind s queue with
    | none => (s, none)
    | some s => ({ s with sources := append s.sources source item }, some (.pushed source item))
  | .pop queue signal =>
    match bind s queue with
    | none => (s, none)
    | some s =>
      let taken := takeNext s.sources signal
      ({ s with sources := taken.1 }, taken.2.map fun e ↦ .served e.1 e.2)

/-- A new strategy. -/
def initial : State σ α := ⟨.empty, none⟩

/-- The state after some calls. -/
def after : State σ α → List (Call σ α) → State σ α
  | s, [] => s
  | s, c :: cs => after (call s c).1 cs

/-- What some calls did, in their order. -/
def history : State σ α → List (Call σ α) → List (Event σ α)
  | _, [] => []
  | s, c :: cs => (call s c).2.toList ++ history (call s c).1 cs

namespace Event

/-- The item, if it was pushed to a source. -/
def pushedTo (source : σ) : Event σ α → Option α
  | .pushed r item => if r = source then some item else none
  | .served _ _ => none

/-- The item, if it was popped from a source. -/
def servedFrom (source : σ) : Event σ α → Option α
  | .pushed _ _ => none
  | .served r item => if r = source then some item else none

end Event

/-- How often a source is served. -/
def services (source : σ) (es : List (Event σ α)) : ℕ := (es.filterMap (·.servedFrom source)).length

/-- What is held for a source. -/
def held (d : OrderedDict σ (List α)) (source : σ) : List α := (d.get? source).getD []

/-! ## The map -/

/-- No empty queue is left in the map. -/
def Live (d : OrderedDict σ (List α)) : Prop := ∀ source, d.get? source ≠ some []

section Spec

variable {d : OrderedDict σ (List α)} {source other : σ} {item : α} {queue : List α}

theorem Live.mem_keys_iff (h : Live d) : source ∈ d.keys ↔ held d source ≠ [] := by
  rw [d.mem_keys_iff, held]
  cases hget : d.get? source with
  | none => simp
  | some queue =>
    have hne : queue ≠ [] := fun hnil ↦ h source (hnil ▸ hget)
    simpa using hne

theorem get?_append : (append d source item).get? other =
    if other = source then some (held d source ++ [item]) else d.get? other := by
  unfold append held
  cases hget : d.get? source with
  | none => by_cases h : other = source <;> simp [h]
  | some queue => by_cases h : other = source <;> simp [h, hget]

theorem held_append : held (append d source item) other =
    if other = source then held d source ++ [item] else held d other := by
  rw [held, get?_append]
  split_ifs <;> rfl

theorem keys_append : (append d source item).keys =
    if source ∈ d.keys then d.keys else d.keys ++ [source] := by
  unfold append
  cases hget : d.get? source with
  | none => simp [OrderedDict.keys_set]
  | some queue => simp [d.mem_keys_iff, hget]

theorem Live.append (h : Live d) : Live (append d source item) := by
  intro other
  rw [get?_append]
  split_ifs
  · simp
  · exact h other

/-- What a live map comes to when it is not empty: the first source and its queue. -/
theorem Live.entries_cases (h : Live d) : d.entries = [] ∨
    ∃ source item queue rest, d.entries = (source, item :: queue) :: rest := by
  rcases hentries : d.entries with _ | ⟨⟨source, _ | ⟨item, queue⟩⟩, rest⟩
  · exact .inl rfl
  · exact absurd (d.get?_of_mem (e := (source, [])) (by simp [hentries])) (h source)
  · exact .inr ⟨source, item, queue, rest, rfl⟩

theorem Live.dropWhile (h : Live d) : d.dropWhile (fun e ↦ e.2.isEmpty) = d := by
  ext1
  change d.entries.dropWhile _ = d.entries
  rcases h.entries_cases with hnil | ⟨_, _, _, _, hcons⟩
  · rw [hnil]
    rfl
  · rw [hcons]
    rfl

theorem takeNext_of_nil (hlive : Live d) (h : d.entries = []) (signal : Option Stop) :
    takeNext d signal = (d, none) := by
  simp [takeNext, hlive.dropWhile, h]

variable {rest : List (σ × List α)}

theorem takeNext_of_cons (hlive : Live d) (h : d.entries = (source, item :: queue) :: rest) :
    takeNext d none = (rotate (d.modify source List.tail) source queue, some (source, item)) := by
  simp [takeNext, hlive.dropWhile, h]

theorem filter_keys_of_cons (h : d.entries = (source, item :: queue) :: rest) :
    d.keys = source :: d.keys.filter (· ≠ source) := by
  have hkeys : d.keys = source :: rest.map Prod.fst := by simp [OrderedDict.keys, h]
  have hnodup : d.keys.Nodup := d.nodup
  rw [hkeys, List.nodup_cons] at hnodup
  rw [hkeys, List.filter_cons_of_neg (by simp)]
  refine congrArg _ (List.filter_eq_self.mpr fun r hr ↦ ?_).symm
  have hne : r ≠ source := ne_of_mem_of_not_mem hr hnodup.1
  simpa using hne

/-- The order after a service: the source goes to the end if it has more. -/
theorem keys_takeNext (hlive : Live d) (h : d.entries = (source, item :: queue) :: rest) :
    (takeNext d none).1.keys =
      d.keys.filter (· ≠ source) ++ if queue = [] then [] else [source] := by
  have hmem : source ∈ d.keys := by simp [OrderedDict.keys, h]
  rw [takeNext_of_cons hlive h, rotate]
  split_ifs
  · simp
  · rw [OrderedDict.keys_moveToEnd (by simpa using hmem)]
    simp

theorem get?_takeNext (hlive : Live d) (h : d.entries = (source, item :: queue) :: rest) :
    (takeNext d none).1.get? other =
      if other = source then if queue = [] then none else some queue else d.get? other := by
  have hget : d.get? source = some (item :: queue) := d.get?_of_mem (e := (source, _)) (by simp [h])
  rw [takeNext_of_cons hlive h, rotate]
  by_cases hq : queue = []
  · by_cases ho : other = source <;> simp [hq, ho]
  · by_cases ho : other = source <;> simp [hq, ho, hget]

theorem Live.takeNext (hlive : Live d) (h : d.entries = (source, item :: queue) :: rest) :
    Live (takeNext d none).1 := by
  intro other
  rw [get?_takeNext hlive h]
  split_ifs with ho hq
  · simp
  · simpa using hq
  · exact hlive other

/-- The handler restores the map when the signal left the other sources as they were. -/
theorem rollback_eq (h : d.entries = (source, item :: queue) :: rest)
    {found : OrderedDict σ (List α)} {left : List α}
    (hkeys : found.keys.filter (· ≠ source) = d.keys.filter (· ≠ source))
    (hget : ∀ other, other ≠ source → found.get? other = d.get? other)
    (hleft : (if left.length < queue.length + 1 then item :: left else left) = item :: queue) :
    rollback found source left item (queue.length + 1) = d := by
  have hfirst : d.get? source = some (item :: queue) := d.get?_of_mem (e := (source, _)) (by simp [h])
  rw [rollback, hleft]
  cases hfound : found.get? source with
  | some old =>
    have hmem : source ∈ found.keys := by simp [found.mem_keys_iff, hfound]
    simp only [OrderedDict.get?_modify, if_pos, hfound, Option.map_some]
    refine OrderedDict.ext_get? ?_ fun other ↦ ?_
    · rw [OrderedDict.keys_moveToFront (by simpa using hmem), OrderedDict.keys_modify, hkeys,
        ← filter_keys_of_cons h]
    · by_cases hother : other = source
      · simp [hother, hfirst, hfound]
      · simp [hother, hget]
  | none =>
    have hmem : source ∉ found.keys := by simp [found.mem_keys_iff, hfound]
    simp only [OrderedDict.get?_modify, if_pos, hfound, Option.map_none]
    refine OrderedDict.ext_get? ?_ fun other ↦ ?_
    · rw [OrderedDict.keys_moveToFront (by simp [OrderedDict.keys_set, hmem]), OrderedDict.keys_set]
      rw [OrderedDict.keys_modify, if_neg hmem, List.filter_append, hkeys]
      rw [List.filter_cons_of_neg (by simp), List.filter_nil, List.append_nil, ← filter_keys_of_cons h]
    · by_cases hother : other = source
      · simp [hother, hfirst]
      · simp [hother, hget]

/-- The handler puts everything back, wherever the signal came. -/
theorem rollback_interrupted (h : d.entries = (source, item :: queue) :: rest) (stop : Stop) :
    rollback (interrupted d source (item :: queue) stop).1 source
      (interrupted d source (item :: queue) stop).2 item (queue.length + 1) = d := by
  cases stop with
  | staged => exact rollback_eq h rfl (fun _ _ ↦ rfl) (by simp [interrupted])
  | popped =>
    refine rollback_eq h ?_ (fun other hother ↦ ?_) (by simp [interrupted])
    · simp [interrupted]
    · simp [interrupted, hother]
  | rotated =>
    have hmem : source ∈ (d.modify source List.tail).keys := by
      rw [OrderedDict.keys_modify, filter_keys_of_cons h]
      exact List.mem_cons_self
    refine rollback_eq h ?_ (fun other hother ↦ ?_) (by simp [interrupted])
    · by_cases hq : queue = []
      · simp [interrupted, rotate, hq]
      · simp [interrupted, rotate, hq, OrderedDict.keys_moveToEnd hmem]
    · by_cases hq : queue = []
      · simp [interrupted, rotate, hq, hother]
      · simp [interrupted, rotate, hq, hother]

theorem takeNext_of_signal (hlive : Live d) (stop : Stop) : takeNext d (some stop) = (d, none) := by
  rcases hlive.entries_cases with h | ⟨source, item, queue, rest, h⟩
  · exact takeNext_of_nil hlive h _
  · have hback := rollback_interrupted h stop
    rw [takeNext, hlive.dropWhile]
    simp only [h, hback]

end Spec

/-! ## One call -/

omit [DecidableEq σ] in
theorem sources_of_bind {s t : State σ α} {queue : String} (h : bind s queue = some t) :
    t.sources = s.sources := by
  unfold bind at h
  split at h
  · rw [← Option.some.inj h]
  · split_ifs at h
    rw [Option.some.inj h]

/-- Everything a call can do: nothing, when it raises or finds nothing; a push; or a service of the
first source. -/
theorem call_cases {s : State σ α} (hlive : Live s.sources) (c : Call σ α) :
    ((call s c).2 = none ∧ (call s c).1.sources = s.sources) ∨
    (∃ source item, (call s c).2 = some (.pushed source item) ∧
      (call s c).1.sources = append s.sources source item) ∨
    (∃ source item queue rest, s.sources.entries = (source, item :: queue) :: rest ∧
      (call s c).2 = some (.served source item) ∧
      (call s c).1.sources = (takeNext s.sources none).1) := by
  cases c with
  | push queue source item =>
    cases hbind : bind s queue with
    | none => exact .inl (by simp [call, hbind])
    | some t =>
      have hsources := sources_of_bind hbind
      exact .inr (.inl ⟨source, item, by simp [call, hbind], by simp [call, hbind, hsources]⟩)
  | pop queue signal =>
    cases hbind : bind s queue with
    | none => exact .inl (by simp [call, hbind])
    | some t =>
      have hsources := sources_of_bind hbind
      cases signal with
      | some stop => exact .inl (by simp [call, hbind, hsources, takeNext_of_signal hlive])
      | none =>
        rcases hlive.entries_cases with h | ⟨source, item, queue, rest, h⟩
        · exact .inl (by simp [call, hbind, hsources, takeNext_of_nil hlive h])
        · refine .inr (.inr ⟨source, item, queue, rest, h, ?_, ?_⟩)
          · simp [call, hbind, hsources, takeNext_of_cons hlive h]
          · simp [call, hbind, hsources]

theorem Live.call {s : State σ α} (hlive : Live s.sources) (c : Call σ α) :
    Live (call s c).1.sources := by
  rcases call_cases hlive c with ⟨-, h⟩ | ⟨source, item, -, h⟩ | ⟨source, item, queue, rest, hd, -, h⟩
  · rwa [h]
  · rw [h]
    exact hlive.append
  · rw [h]
    exact hlive.takeNext hd

theorem Live.after {s : State σ α} (hlive : Live s.sources) (cs : List (Call σ α)) :
    Live (after s cs).sources := by
  induction cs generalizing s with
  | nil => exact hlive
  | cons c cs ih => exact ih (hlive.call c)

theorem live_initial : Live (initial : State σ α).sources := by
  intro source
  simp [initial, OrderedDict.get?]

/-! ## Order and balance -/

/-- One call: what is held, and what is pushed, is what is popped, and what is held then. -/
theorem held_call {s : State σ α} (hlive : Live s.sources) (c : Call σ α) (source : σ) :
    held s.sources source ++ (call s c).2.toList.filterMap (·.pushedTo source) =
      (call s c).2.toList.filterMap (·.servedFrom source) ++ held (call s c).1.sources source := by
  rcases call_cases hlive c with ⟨hevent, h⟩ | ⟨r, item, hevent, h⟩ | ⟨r, item, queue, rest, hd, hevent, h⟩
  · simp [hevent, h]
  · rw [hevent, h, held_append]
    by_cases hr : r = source
    · simp [Event.pushedTo, Event.servedFrom, hr]
    · simp [Event.pushedTo, Event.servedFrom, hr, Ne.symm hr]
  · have hget : s.sources.get? r = some (item :: queue) :=
      s.sources.get?_of_mem (e := (r, _)) (by simp [hd])
    rw [hevent, h, held, held, get?_takeNext hlive hd]
    by_cases hr : r = source
    · by_cases hq : queue = []
      · simp [Event.pushedTo, Event.servedFrom, ← hr, hget, hq]
      · simp [Event.pushedTo, Event.servedFrom, ← hr, hget, hq]
    · simp [Event.pushedTo, Event.servedFrom, hr, Ne.symm hr]

theorem held_after {s : State σ α} (hlive : Live s.sources) (cs : List (Call σ α)) (source : σ) :
    held s.sources source ++ (history s cs).filterMap (·.pushedTo source) =
      (history s cs).filterMap (·.servedFrom source) ++ held (after s cs).sources source := by
  induction cs generalizing s with
  | nil => simp [history, after]
  | cons c cs ih =>
    rw [history, after, List.filterMap_append, List.filterMap_append, ← List.append_assoc,
      held_call hlive c source, List.append_assoc, ih (hlive.call c), List.append_assoc]

/-! ## Fairness -/

theorem takeWhile_ne_append {l m : List σ} {b : σ} (h : b ∈ l) :
    (l ++ m).takeWhile (· ≠ b) = l.takeWhile (· ≠ b) := by
  induction l with
  | nil => simp at h
  | cons r l ih =>
    by_cases hr : r = b
    · simp [hr]
    · have hb : b ∈ l := (List.mem_cons.mp h).resolve_left (Ne.symm hr)
      simpa [hr] using ih hb

/-- While `b` waits, a source is served once if it is in front of `b`, and not otherwise. -/
theorem services_le {s : State σ α} (hlive : Live s.sources) {a b : σ} (hb : b ∈ s.sources.keys)
    (cs : List (Call σ α)) (hnot : services b (history s cs) = 0) :
    services a (history s cs) ≤ if a ∈ s.sources.keys.takeWhile (· ≠ b) then 1 else 0 := by
  induction cs generalizing s with
  | nil => simp [history, services]
  | cons c cs ih =>
    have hsplit : ∀ r, services r (history s (c :: cs)) =
        services r (call s c).2.toList + services r (history (call s c).1 cs) := by
      simp [services, history, List.filterMap_append]
    rw [hsplit, Nat.add_eq_zero_iff] at hnot
    rw [hsplit]
    have hrest := fun hmem ↦ ih (hlive.call c) hmem hnot.2
    rcases call_cases hlive c with ⟨hevent, h⟩ | ⟨r, item, hevent, h⟩ |
        ⟨r, item, queue, rest, hd, hevent, h⟩
    · rw [h] at hrest
      rw [hevent]
      simpa [services] using hrest hb
    · -- a new source comes in behind `b`
      have hkeys : (call s c).1.sources.keys.takeWhile (· ≠ b) = s.sources.keys.takeWhile (· ≠ b) := by
        rw [h, keys_append]
        split_ifs
        · rfl
        · exact takeWhile_ne_append hb
      have hmem : b ∈ (call s c).1.sources.keys := by
        rw [h, keys_append]
        split_ifs
        · exact hb
        · exact List.mem_append_left _ hb
      rw [hkeys] at hrest
      rw [hevent]
      simpa [services, Event.servedFrom] using hrest hmem
    · -- the first source is not `b`, and goes behind it
      have hrb : r ≠ b := by
        rintro rfl
        simp [hevent, services, Event.servedFrom] at hnot
      have hfirst := filter_keys_of_cons hd
      have hback : b ∈ s.sources.keys.filter (· ≠ r) := List.mem_filter.mpr ⟨hb, by simpa using hrb.symm⟩
      have hkeys : (call s c).1.sources.keys.takeWhile (· ≠ b) =
          (s.sources.keys.filter (· ≠ r)).takeWhile (· ≠ b) := by
        rw [h, keys_takeNext hlive hd]
        exact takeWhile_ne_append hback
      have hmem : b ∈ (call s c).1.sources.keys := by
        rw [h, keys_takeNext hlive hd]
        exact List.mem_append_left _ hback
      have hfront : s.sources.keys.takeWhile (· ≠ b) =
          r :: (s.sources.keys.filter (· ≠ r)).takeWhile (· ≠ b) := by
        conv_lhs => rw [hfirst]
        simp [hrb]
      have hle := hrest hmem
      rw [hkeys] at hle
      rw [hfront, hevent]
      by_cases har : a = r
      · have hgone : a ∉ (s.sources.keys.filter (· ≠ r)).takeWhile (· ≠ b) := fun ha ↦ by
          have := (List.takeWhile_sublist _).subset ha
          simp [har] at this
        rw [if_neg hgone] at hle
        simp [services, Event.servedFrom, har] at hle ⊢
        omega
      · simpa [services, Event.servedFrom, har, Ne.symm har] using hle

example : (history (initial : State ℕ ℕ) [.push "q" 0 10, .push "q" 0 11, .push "q" 1 20,
    .pop "q" none, .pop "q" (some .rotated), .pop "q" none, .pop "q" none]).filterMap
      (fun e ↦ match e with | .served r x => some (r, x) | .pushed _ _ => none) =
    [(0, 10), (1, 20), (0, 11)] := by decide

end RoundRobin

end ScrapyExtension
