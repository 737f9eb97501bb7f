import Mathlib.Tactic
import ScrapyExtension.Machine.Basic
import ScrapyExtension.Machine.Threads
import ScrapyExtension.Py.OrderedDict
import ScrapyExtension.Py.Text

/-!
# The acknowledgement fence of a plugin

`_DeferredAckPluginQueueBackend` stands between the project and the queue backend of a plugin. It keeps
the tokens that were handed out and not yet settled, so that the plugin's `ack` and `nack` are only called
for these. The plugin is called without the lock, and may call back: a settlement therefore reserves its
token first, and gives the reservation back when the plugin raises.

## Steps

A section under the lock is one step, and so is the start and the end of each call of the plugin. A call
that comes from inside the plugin is a call like any other, which takes its steps while the outer one is
out. What the plugin returns is up to the label.

Exact `str`, `bytes` and `int` tokens are compared by value, all others by identity. An object has a
name, which says what it is, beside the address that `id` returns: nothing is assumed about addresses.
-/

namespace ScrapyExtension

open Py

namespace PluginAckFence

/-- A value of an exact built-in type that is compared by value. -/
inductive Value
  | str (s : Str)
  | bytes (s : List UInt8)
  | int (n : ℤ)
deriving DecidableEq

/-- An acknowledgement token. -/
inductive Token
  | value (v : Value)
  /-- Any other object but `None`, with what `id` says of it. -/
  | object (name address : ℕ)
deriving DecidableEq

/-- A key of `_active_ack_tokens[queue]`. -/
inductive Key
  | value (v : Value)
  | identity (address : ℕ)
deriving DecidableEq

def Key.isIdentity : Key → Bool
  | identity _ => true
  | value _ => false

/-- `_ack_token_key` -/
def Token.key : Token → Key
  | value v => .value v
  | object _ address => .identity address

/-- What `type` and `len` say of an object when a call looks at it. -/
inductive Look
  /-- Its type is none of the sized ones. -/
  | plain
  | sized (length : ℕ)
  /-- `len` raises. -/
  | released
deriving DecidableEq

/-- `_is_empty_ack_token`, or `none` when it raises -/
def isEmptyAckToken : Token → Look → Option Bool
  | .value (.str s), _ => some s.isEmpty
  | .value (.bytes s), _ => some s.isEmpty
  | .value (.int _), _ => some false
  | .object .., .plain => some false
  | .object .., .sized n => some (n == 0)
  | .object .., .released => none

/-- What `_reject_lazy_ack_result` rejects. -/
inductive Lazy
  | generator
  | awaitable
  | asyncGenerator
  | iterator
deriving DecidableEq

inductive Operation
  | ack
  | nack
deriving DecidableEq

/-- Why a call of the adapter raises. -/
inductive Refusal
  | queueName
  | unusable
  | lazyDelivery (kind : Lazy)
  | invalidDelivery
  | withoutToken
  | emptyToken
  | reused
  | notIssued
  | unknown
  | lazySettlement (kind : Lazy)
  | nonNone
  /-- The plugin raised. -/
  | raised
deriving DecidableEq

/-- The kind with its article. -/
def Lazy.text : Lazy → String
  | generator => "a generator"
  | awaitable => "an awaitable"
  | asyncGenerator => "an asynchronous-generator"
  | iterator => "an iterator"

/-- The message of the error, as the error boundary rebuilds it. -/
def Refusal.message : Refusal → String
  | queueName => "Deferred-ack queue name must be an exact built-in string"
  | unusable => "Deferred-ack acknowledgement token is unusable"
  | lazyDelivery kind => "Deferred-ack backend returned " ++ kind.text ++ " delivery result"
  | invalidDelivery => "Deferred-ack backend returned an invalid delivery result"
  | withoutToken => "Deferred-ack backend returned a delivery without an acknowledgement token"
  | emptyToken => "Deferred-ack backend returned an empty acknowledgement token"
  | reused => "Deferred-ack backend reused an active acknowledgement token"
  | notIssued => "Deferred-ack settlement requires an issued acknowledgement token"
  | unknown => "Deferred-ack settlement rejected an unknown acknowledgement token"
  | lazySettlement kind => "Deferred-ack backend returned " ++ kind.text ++ " settlement result"
  | nonNone => "Deferred-ack backend returned a non-None settlement result"
  | raised => "Deferred-ack queue operation failed."

variable {ι : Type*}

/-- What the plugin's `pop_with_ack` does. -/
inductive Delivery (ι : Type*)
  | raises
  | returnsLazy (kind : Lazy)
  /-- It returns something that is not a pair. -/
  | malformed
  | pair (item : Option ι) (token : Option Token) (look : Look)

/-- What the plugin's `ack` or `nack` does. -/
inductive Answer
  | raises
  | returnsLazy (kind : Lazy)
  | other
  | none
deriving DecidableEq

/-- What a settlement has reserved, with the number of the issue. -/
structure Hold where
  queue : Str
  token : Token
  issue : ℕ
deriving DecidableEq

/-- The entry of `_settling_ack_tokens`. -/
def Hold.reservation (h : Hold) : Str × Key := (h.queue, h.token.key)

/-- Where a call is. -/
inductive Stage (ι : Type*)
  /-- The plugin's `pop_with_ack` is out. -/
  | popping (queue : Str)
  /-- The delivery is valid so far. -/
  | issuing (queue : Str) (item : Option ι) (token : Token)
  | reserving (operation : Operation) (queue : Str) (token : Token)
  /-- The hook is looked up. -/
  | resolving (operation : Operation) (hold : Hold)
  /-- The hook is out. -/
  | hook (operation : Operation) (hold : Hold)
  /-- The handler is to give the reservation back. -/
  | failing (hold : Hold) (why : Refusal)
  /-- The hook has returned `None`. -/
  | completing (hold : Hold)
  | returned
  | refused (why : Refusal)

/-- What a call has reserved. -/
def Stage.hold : Stage ι → Option Hold
  | resolving _ h | hook _ h | failing h _ | completing h => some h
  | _ => none

/-- A hook that is out, for an issue. -/
def Stage.runs (n : ℕ) : Stage ι → Bool
  | hook _ h => h.issue = n
  | _ => false

/-- What has happened. -/
inductive Event
  /-- A token was handed out. -/
  | issued (n : ℕ) (queue : Str) (token : Token)
  /-- A hook of the plugin was called. -/
  | called (n : ℕ) (operation : Operation) (queue : Str) (token : Token)
  /-- A hook returned `None`. -/
  | completed (n : ℕ)
  | settled (n : ℕ)
deriving DecidableEq

/-- A token that was handed out, with the number of the issue. -/
structure Issued where
  token : Token
  issue : ℕ
deriving DecidableEq

/-- What the adapter holds, and the calls that are under way. -/
structure State (ι : Type*) where
  /-- `_active_ack_tokens` -/
  active : OrderedDict Str (OrderedDict Key Issued)
  /-- `_settling_ack_tokens` -/
  settling : Finset (Str × Key)
  calls : List (Stage ι)
  /-- How many tokens were handed out. -/
  count : ℕ
  log : List Event

/-- What can happen. A queue name may be something else than an exact `str`. -/
inductive Label (ι : Type*)
  | pop (queue : Option Str)
  | settle (operation : Operation) (queue : Option Str) (token : Option Token) (look : Look)
  /-- The plugin's `pop_with_ack` ends. -/
  | deliver (n : ℕ) (delivery : Delivery ι)
  /-- The attribute of a hook is there, or its lookup raises. -/
  | resolve (n : ℕ) (found : Bool)
  /-- The hook ends. -/
  | answer (n : ℕ) (answer : Answer)
  /-- A section under the lock. -/
  | act (n : ℕ)

namespace State

/-- A new call. -/
def start (s : State ι) (stage : Stage ι) : State ι := { s with calls := s.calls ++ [stage] }

/-- A call goes to another stage. -/
def goto (s : State ι) (n : ℕ) (stage : Stage ι) : State ι := { s with calls := s.calls.set n stage }

def record (s : State ι) (e : Event) : State ι := { s with log := s.log ++ [e] }

/-- `_active_ack_tokens.get(queue).get(key)` -/
def token? (s : State ι) (queue : Str) (key : Key) : Option Issued :=
  (s.active.get? queue).bind (·.get? key)

/-- The checks of `pop_with_ack` on what the plugin has returned. -/
def afterDelivery (queue : Str) : Delivery ι → Stage ι
  | .raises => .refused .raised
  | .returnsLazy kind => .refused (.lazyDelivery kind)
  | .malformed => .refused .invalidDelivery
  | .pair none none _ => .returned
  | .pair (some _) none _ => .refused .withoutToken
  | .pair item (some token) look =>
    match isEmptyAckToken token look with
    | none => .refused .unusable
    | some true => .refused .emptyToken
    | some false => .issuing queue item token

/-- The checks of `_settle` in front of the lock. -/
def beforeSettle (operation : Operation) (queue : Option Str) (token : Option Token) (look : Look) : Stage ι :=
  match queue, token with
  | none, _ => .refused .queueName
  | some _, none => .refused .notIssued
  | some queue, some token =>
    match isEmptyAckToken token look with
    | none => .refused .unusable
    | some true => .refused .notIssued
    | some false => .reserving operation queue token

/-- `setdefault` -/
def withQueue (active : OrderedDict Str (OrderedDict Key Issued)) (queue : Str) :
    OrderedDict Str (OrderedDict Key Issued) :=
  match active.get? queue with
  | some _ => active
  | none => active.set queue .empty

/-- The section of `pop_with_ack`. -/
def issue (s : State ι) (n : ℕ) (queue : Str) (token : Token) : State ι :=
  let active := withQueue s.active queue
  if ((active.get? queue).bind (·.get? token.key)).isSome then
    { s with active }.goto n (.refused .reused)
  else
    ({ s with
      active := active.modify queue fun tokens ↦ tokens.set token.key ⟨token, s.count⟩
      count := s.count + 1 }.record (.issued s.count queue token)).goto n .returned

/-- The condition of the first section of `_settle`, with the issue that is found. -/
def settleable (s : State ι) (queue : Str) (token : Token) : Option ℕ :=
  (s.token? queue token.key).bind fun found ↦
    if token.key.isIdentity ∧ found.token ≠ token ∨ (queue, token.key) ∈ s.settling then none
    else some found.issue

/-- The first section of `_settle`. -/
def reserve (s : State ι) (n : ℕ) (operation : Operation) (queue : Str) (token : Token) : State ι :=
  match s.settleable queue token with
  | none => s.goto n (.refused .unknown)
  | some issue =>
    { s with settling := insert (queue, token.key) s.settling }.goto n
      (.resolving operation ⟨queue, token, issue⟩)

/-- The section of the handler. -/
def fail (s : State ι) (n : ℕ) (h : Hold) (why : Refusal) : State ι :=
  { s with settling := s.settling.erase h.reservation }.goto n (.refused why)

/-- The last section of `_settle`; `none` when an entry is missing. -/
def complete (s : State ι) (n : ℕ) (h : Hold) : Option (State ι) :=
  if h.reservation ∈ s.settling then
    (s.active.get? h.queue).bind fun tokens ↦
      if (tokens.get? h.token.key).isSome then
        let tokens := tokens.erase h.token.key
        let active := if tokens.entries = [] then s.active.erase h.queue
          else s.active.modify h.queue fun _ ↦ tokens
        some (({ s with active, settling := s.settling.erase h.reservation }.record (.settled h.issue)).goto n
          .returned)
      else none
  else none

/-- What the settlement does with the answer of the hook. -/
def afterAnswer (h : Hold) : Answer → Stage ι
  | .raises => .failing h .raised
  | .returnsLazy kind => .failing h (.lazySettlement kind)
  | .other => .failing h .nonNone
  | .none => .completing h

/-- The hook has ended. -/
def answer (s : State ι) (n : ℕ) (h : Hold) (a : Answer) : State ι :=
  (if a = .none then s.record (.completed h.issue) else s).goto n (afterAnswer h a)

/-- A section under the lock. -/
def act (s : State ι) (n : ℕ) : Stage ι → Option (State ι)
  | .issuing queue _ token => some (s.issue n queue token)
  | .reserving operation queue token => some (s.reserve n operation queue token)
  | .failing h why => some (s.fail n h why)
  | .completing h => s.complete n h
  | _ => none

/-- One step. -/
def step (s : State ι) : Label ι → Option (State ι)
  | .pop none => some (s.start (.refused .queueName))
  | .pop (some queue) => some (s.start (.popping queue))
  | .settle operation queue token look => some (s.start (beforeSettle operation queue token look))
  | .deliver n delivery =>
    match s.calls[n]? with
    | some (.popping queue) => some (s.goto n (afterDelivery queue delivery))
    | _ => none
  | .resolve n found =>
    match s.calls[n]? with
    | some (.resolving operation h) =>
      if found then some ((s.record (.called h.issue operation h.queue h.token)).goto n (.hook operation h))
      else some (s.goto n (.failing h .raised))
    | _ => none
  | .answer n a =>
    match s.calls[n]? with
    | some (.hook _ h) => some (s.answer n h a)
    | _ => none
  | .act n => s.calls[n]?.bind (s.act n)

def new : State ι := ⟨.empty, ∅, [], 0, []⟩

end State

/-- The adapter as a machine. -/
def machine (ι : Type*) : Machine (State ι) (Label ι) where
  init := State.new
  step := State.step

/-! ## The map of active tokens -/

namespace State

variable {s t : State ι} {n : ℕ} {queue : Str} {token : Token} {h : Hold}

theorem get?_withQueue (active : OrderedDict Str (OrderedDict Key Issued)) (q : Str) :
    (withQueue active queue).get? q =
      if q = queue then some ((active.get? queue).getD .empty) else active.get? q := by
  unfold withQueue
  cases hq : active.get? queue with
  | none => rw [OrderedDict.get?_set, Option.getD_none]
  | some tokens =>
    by_cases heq : q = queue
    · rw [if_pos heq, heq, hq, Option.getD_some]
    · rw [if_neg heq]

/-- What `setdefault` adds has no keys. -/
theorem token?_withQueue (s : State ι) (queue q : Str) (key : Key) :
    ((withQueue s.active queue).get? q).bind (·.get? key) = s.token? q key := by
  rw [get?_withQueue, token?]
  by_cases heq : q = queue
  · rw [if_pos heq, heq]
    cases s.active.get? queue <;> rfl
  · rw [if_neg heq]

/-- **A delivery that repeats an active token** changes nothing. -/
theorem issue_of_active {found : Issued} (hfound : s.token? queue token.key = some found) :
    s.issue n queue token = s.goto n (.refused .reused) := by
  have hqueue : withQueue s.active queue = s.active := by
    unfold withQueue
    cases hq : s.active.get? queue with
    | none =>
      rw [token?, hq] at hfound
      cases hfound
    | some tokens => rfl
  have hactive : ((s.active.get? queue).bind (·.get? token.key)).isSome = true := by
    rw [← token?, hfound]
    rfl
  rw [issue, hqueue, if_pos hactive]

theorem issue_of_new (hnew : s.token? queue token.key = none) :
    s.issue n queue token =
      ({ s with
        active := (withQueue s.active queue).modify queue fun tokens ↦ tokens.set token.key ⟨token, s.count⟩
        count := s.count + 1 }.record (.issued s.count queue token)).goto n .returned := by
  have hactive : ¬ (((withQueue s.active queue).get? queue).bind (·.get? token.key)).isSome = true := by
    rw [token?_withQueue, hnew]
    exact Bool.false_ne_true
  rw [issue, if_neg hactive]

theorem get?_issue (hnew : s.token? queue token.key = none) (q : Str) :
    (s.issue n queue token).active.get? q = if q = queue then
      some (((s.active.get? queue).getD .empty).set token.key ⟨token, s.count⟩) else s.active.get? q := by
  rw [issue_of_new hnew]
  simp only [goto, record, OrderedDict.get?_modify, get?_withQueue]
  by_cases hq : q = queue
  · rw [if_pos hq, if_pos trivial, if_pos hq, Option.map_some]
  · rw [if_neg hq, if_neg hq, if_neg hq]

theorem token?_issue (hnew : s.token? queue token.key = none) (q : Str) (key : Key) :
    (s.issue n queue token).token? q key =
      if q = queue ∧ key = token.key then some ⟨token, s.count⟩ else s.token? q key := by
  rw [token?, get?_issue hnew]
  by_cases hq : q = queue
  · subst hq
    rw [if_pos rfl, Option.bind_some, OrderedDict.get?_set]
    by_cases hk : key = token.key
    · rw [if_pos hk, if_pos ⟨rfl, hk⟩]
    · rw [if_neg hk, if_neg fun hand ↦ hk hand.2, token?]
      cases s.active.get? q <;> rfl
  · rw [if_neg hq, if_neg fun hand ↦ hq hand.1, token?]

/-- The last section of a settlement, when its entries are there. -/
theorem complete_spec (hsettling : h.reservation ∈ s.settling) {found : Issued}
    (hfound : s.token? h.queue h.token.key = some found) :
    ∃ t, s.complete n h = some t ∧ t.settling = s.settling.erase h.reservation ∧
      t.calls = s.calls.set n .returned ∧ t.count = s.count ∧ t.log = s.log ++ [.settled h.issue] ∧
      (∀ q key, t.token? q key = if q = h.queue ∧ key = h.token.key then none else s.token? q key) ∧
      ∀ q tokens, t.active.get? q = some tokens → tokens.entries = [] → s.active.get? q = some tokens := by
  obtain ⟨tokens, htokens, hkey⟩ := Option.bind_eq_some_iff.mp hfound
  have hsome : (tokens.get? h.token.key).isSome = true := by rw [hkey]; rfl
  have hcomplete : s.complete n h = some (({ s with
      active := if (tokens.erase h.token.key).entries = [] then s.active.erase h.queue
        else s.active.modify h.queue fun _ ↦ tokens.erase h.token.key
      settling := s.settling.erase h.reservation }.record (.settled h.issue)).goto n .returned) := by
    rw [complete, if_pos hsettling, htokens, Option.bind_some, if_pos hsome]
  refine ⟨_, hcomplete, rfl, rfl, rfl, rfl, ?_, ?_⟩
  · intro q key
    simp only [token?, goto, record]
    by_cases hempty : (tokens.erase h.token.key).entries = []
    · rw [if_pos hempty, OrderedDict.get?_erase]
      by_cases hq : q = h.queue
      · subst hq
        rw [if_pos rfl, Option.bind_none, htokens, Option.bind_some]
        by_cases hk : key = h.token.key
        · rw [if_pos ⟨rfl, hk⟩]
        · rw [if_neg fun hand ↦ hk hand.2]
          -- no other key is left
          have herase : (tokens.erase h.token.key).get? key = tokens.get? key := by
            rw [OrderedDict.get?_erase, if_neg hk]
          rw [← herase, OrderedDict.get?, hempty]
          rfl
      · rw [if_neg hq, if_neg fun hand ↦ hq hand.1]
    · rw [if_neg hempty, OrderedDict.get?_modify]
      by_cases hq : q = h.queue
      · subst hq
        rw [htokens]
        simp only [if_true, Option.map_some, Option.bind_some, OrderedDict.get?_erase, true_and]
      · rw [if_neg hq, if_neg fun hand ↦ hq hand.1]
  · intro q tokens' hq hnil
    simp only [goto, record] at hq
    by_cases hempty : (tokens.erase h.token.key).entries = []
    · rw [if_pos hempty, OrderedDict.get?_erase] at hq
      split_ifs at hq
      exact hq
    · rw [if_neg hempty, OrderedDict.get?_modify] at hq
      by_cases heq : q = h.queue
      · rw [if_pos heq, htokens, Option.map_some, Option.some.injEq] at hq
        rw [← hq] at hnil
        exact absurd hnil hempty
      · rw [if_neg heq] at hq
        exact hq

end State

/-! ## What holds between steps -/

/-- A call that has reserved. -/
def Stage.reserves (r : Str × Key) (stage : Stage ι) : Bool := stage.hold.any fun h ↦ h.reservation = r

/-- A token that a hook is called for: it was issued on this queue, and is not settled. -/
def Outstanding (log : List Event) (n : ℕ) (queue : Str) (token : Token) : Prop :=
  ∃ issued, .issued n queue issued ∈ log ∧ issued.key = token.key ∧
    (token.key.isIdentity = true → issued = token) ∧ .settled n ∉ log ∧ .completed n ∉ log

namespace State

/-- The active tokens are those that were handed out, less those that were settled. -/
structure Ledger (s : State ι) : Prop where
  active : ∀ queue key e, s.token? queue key = some e ↔
    .issued e.issue queue e.token ∈ s.log ∧ e.token.key = key ∧ .settled e.issue ∉ s.log
  /-- A queue is in the map as long as it has a token. -/
  full : ∀ queue tokens, s.active.get? queue = some tokens → tokens.entries ≠ []
  fresh : ∀ n queue token, .issued n queue token ∈ s.log → n < s.count
  settled : ∀ n, .settled n ∈ s.log → n < s.count
  unique : ∀ n q q' t t', .issued n q t ∈ s.log → .issued n q' t' ∈ s.log → q = q' ∧ t = t'

/-- Each reservation is that of one call, for a token that is active. -/
structure Reserved (s : State ι) : Prop where
  settling : ∀ r, s.calls.countP (Stage.reserves r) = if r ∈ s.settling then 1 else 0
  holds : ∀ stage ∈ s.calls, ∀ h, stage.hold = some h → ∃ e, s.token? h.queue h.token.key = some e ∧
    e.issue = h.issue ∧ (h.token.key.isIdentity = true → e.token = h.token)

/-- What hooks were called, and which have returned. -/
structure History (s : State ι) : Prop where
  completed : ∀ n, .completed n ∈ s.log → .settled n ∈ s.log ∨ ∃ h, .completing h ∈ s.calls ∧ h.issue = n
  once : ∀ n, s.log.count (.completed n) ≤ 1
  called : ∀ before after n operation queue token,
    s.log = before ++ .called n operation queue token :: after → Outstanding before n queue token

/-- All three. -/
structure Inv (s : State ι) : Prop where
  ledger : s.Ledger
  reserved : s.Reserved
  history : s.History

variable {s t : State ι} {n : ℕ} {a b : Stage ι} {queue : Str} {token : Token} {h : Hold}

theorem Inv.new : (new : State ι).Inv where
  ledger := {
    active := by
      intro queue key e
      simp [State.new, token?, OrderedDict.get?]
    full := by
      intro queue tokens htokens
      simp [State.new, OrderedDict.get?] at htokens
    fresh := nofun
    settled := nofun
    unique := nofun }
  reserved := ⟨fun r ↦ rfl, nofun⟩
  history := {
    completed := nofun
    once := fun n ↦ Nat.zero_le 1
    called := by
      intro before after n operation queue token hlog
      simp [State.new] at hlog }

/-! ## Frames -/

theorem Ledger.congr (hl : s.Ledger) (hactive : t.active = s.active) (hcount : t.count = s.count)
    (hissued : ∀ n q x, .issued n q x ∈ t.log ↔ .issued n q x ∈ s.log)
    (hsettled : ∀ n, .settled n ∈ t.log ↔ .settled n ∈ s.log) : t.Ledger where
  active := by
    intro queue key e
    rw [hissued, hsettled, token?, hactive]
    exact hl.active queue key e
  full := by
    rw [hactive]
    exact hl.full
  fresh := by
    intro n q x hx
    rw [hcount]
    exact hl.fresh n q x ((hissued n q x).mp hx)
  settled := by
    intro n hn
    rw [hcount]
    exact hl.settled n ((hsettled n).mp hn)
  unique := by
    intro n q q' x x' hx hx'
    exact hl.unique n q q' x x' ((hissued n q x).mp hx) ((hissued n q' x').mp hx')

theorem reserves_congr (hhold : b.hold = a.hold) (r : Str × Key) : b.reserves r = a.reserves r := by
  rw [Stage.reserves, Stage.reserves, hhold]

/-- A call that goes on with what it has reserved. -/
theorem Reserved.goto (hr : s.Reserved) (hn : s.calls[n]? = some a) (hhold : b.hold = a.hold)
    (hactive : t.active = s.active) (hsettling : t.settling = s.settling) (hcalls : t.calls = s.calls.set n b) :
    t.Reserved where
  settling r := by
    have hcount := List.countP_set_add (b := b) (Stage.reserves r) hn
    rw [reserves_congr hhold] at hcount
    rw [hcalls, hsettling, ← hr.settling r]
    omega
  holds := by
    intro stage hstage h hh
    rw [token?, hactive]
    rw [hcalls] at hstage
    rcases List.mem_or_eq_of_mem_set hstage with hstage | rfl
    · exact hr.holds stage hstage h hh
    · exact hr.holds a (List.mem_of_getElem? hn) h (hhold ▸ hh)

/-- A new call has reserved nothing. -/
theorem Inv.start (hi : s.Inv) (hhold : b.hold = none) : (s.start b).Inv where
  ledger := hi.ledger.congr rfl rfl (fun _ _ _ ↦ Iff.rfl) fun _ ↦ Iff.rfl
  reserved := {
    settling := by
      intro r
      have hb : b.reserves r = false := by rw [Stage.reserves, hhold]; rfl
      rw [State.start, List.countP_concat, hb, ← hi.reserved.settling r]
      rfl
    holds := by
      intro stage hstage h hh
      rcases List.mem_append.mp hstage with hstage | hstage
      · exact hi.reserved.holds stage hstage h hh
      · obtain rfl : stage = b := by simpa using hstage
        rw [hhold] at hh
        cases hh }
  history := {
    completed := by
      intro n hn
      rcases hi.history.completed n hn with hsettled | ⟨h, hh, hissue⟩
      · exact .inl hsettled
      · exact .inr ⟨h, List.mem_append_left _ hh, hissue⟩
    once := hi.history.once
    called := hi.history.called }

/-- A call that has not completed a hook, and goes on. -/
theorem History.goto (hh : s.History) (hn : s.calls[n]? = some a) (ha : ∀ h, a ≠ .completing h)
    (hlog : t.log = s.log) (hcalls : t.calls = s.calls.set n b) : t.History where
  completed := by
    intro m hm
    rw [hlog] at hm ⊢
    rcases hh.completed m hm with hsettled | ⟨h, hmem, hissue⟩
    · exact .inl hsettled
    · refine .inr ⟨h, ?_, hissue⟩
      obtain ⟨i, hi⟩ := List.mem_iff_getElem?.mp hmem
      have hin : n ≠ i := by
        rintro rfl
        exact ha h (Option.some.inj (hn.symm.trans hi))
      rw [hcalls]
      exact List.mem_iff_getElem?.mpr ⟨i, by rw [List.getElem?_set_ne hin, hi]⟩
  once := by
    rw [hlog]
    exact hh.once
  called := by
    rw [hlog]
    exact hh.called

theorem Inv.goto (hi : s.Inv) (hn : s.calls[n]? = some a) (hhold : b.hold = a.hold)
    (ha : ∀ h, a ≠ .completing h) : (s.goto n b).Inv where
  ledger := hi.ledger.congr rfl rfl (fun _ _ _ ↦ Iff.rfl) fun _ ↦ Iff.rfl
  reserved := hi.reserved.goto hn hhold rfl rfl rfl
  history := hi.history.goto hn ha rfl rfl

/-! ## One call for each issue -/

/-- Two calls that have reserved the same issue are one. -/
theorem Inv.index_eq (hi : s.Inv) {i j : ℕ} {h' : Hold} (ha : s.calls[i]? = some a) (hb : s.calls[j]? = some b)
    (hold : a.hold = some h) (hold' : b.hold = some h') (hissue : h.issue = h'.issue) : i = j := by
  obtain ⟨e, he, heissue, -⟩ := hi.reserved.holds a (List.mem_of_getElem? ha) h hold
  obtain ⟨e', he', heissue', -⟩ := hi.reserved.holds b (List.mem_of_getElem? hb) h' hold'
  obtain ⟨hlog, hkey, -⟩ := (hi.ledger.active _ _ e).mp he
  obtain ⟨hlog', hkey', -⟩ := (hi.ledger.active _ _ e').mp he'
  have heq : e.issue = e'.issue := by rw [heissue, heissue', hissue]
  rw [heq] at hlog
  obtain ⟨hqueue, htoken⟩ := hi.ledger.unique _ _ _ _ _ hlog hlog'
  have hreservation : h.reservation = h'.reservation := by
    rw [Hold.reservation, Hold.reservation, hqueue, ← hkey, ← hkey', htoken]
  have hcount : s.calls.countP (Stage.reserves h.reservation) ≤ 1 := by
    rw [hi.reserved.settling]
    split_ifs <;> omega
  refine List.eq_of_countP_le_one _ hcount ha hb ?_ ?_
  · simp [Stage.reserves, hold]
  · simp [Stage.reserves, hold', hreservation]

/-- While a call that has reserved is not through with its hook, its token is outstanding. -/
theorem Inv.outstanding (hi : s.Inv) (hn : s.calls[n]? = some a) (hold : a.hold = some h)
    (ha : ∀ h', a ≠ .completing h') : Outstanding s.log h.issue h.queue h.token := by
  obtain ⟨e, he, heissue, hidentity⟩ := hi.reserved.holds a (List.mem_of_getElem? hn) h hold
  obtain ⟨hissued, hkey, hsettled⟩ := (hi.ledger.active _ _ e).mp he
  rw [heissue] at hissued hsettled
  refine ⟨e.token, hissued, hkey, hidentity, hsettled, ?_⟩
  intro hcompleted
  rcases hi.history.completed _ hcompleted with hin | ⟨h', hmem, hissue⟩
  · exact hsettled hin
  · obtain ⟨j, hj⟩ := List.mem_iff_getElem?.mp hmem
    obtain rfl := hi.index_eq hn hj hold rfl hissue.symm
    exact ha h' (Option.some.inj (hn.symm.trans hj))

/-- A hook is called. -/
theorem Inv.call (hi : s.Inv) {operation : Operation} (hn : s.calls[n]? = some (.resolving operation h)) :
    ((s.record (.called h.issue operation h.queue h.token)).goto n (.hook operation h)).Inv where
  ledger := hi.ledger.congr rfl rfl (by simp [record, State.goto]) (by simp [record, State.goto])
  reserved := hi.reserved.goto (b := .hook operation h) hn rfl rfl rfl rfl
  history := by
    have hgoto : (s.goto n (.hook operation h)).History := hi.history.goto hn nofun rfl rfl
    refine ⟨?_, ?_, ?_⟩
    · intro m hm
      have hm' : .completed m ∈ s.log := by simpa [record, State.goto] using hm
      rcases hgoto.completed m hm' with hsettled | hmem
      · exact .inl (List.mem_append_left _ hsettled)
      · exact .inr hmem
    · intro m
      have := hi.history.once m
      simpa [record, State.goto, List.count_append] using this
    · intro before after m operation' queue token hlog
      rcases List.eq_nil_or_concat after with rfl | ⟨after, last, rfl⟩
      · obtain ⟨rfl, hlast⟩ := List.append_inj' hlog rfl
        obtain ⟨rfl, rfl, rfl, rfl⟩ : h.issue = m ∧ operation = operation' ∧ h.queue = queue ∧
          h.token = token := by simpa using hlast
        exact hi.outstanding hn rfl nofun
      · rw [List.concat_eq_append, ← List.cons_append, ← List.append_assoc] at hlog
        exact hi.history.called before after m operation' queue token (List.append_inj' hlog rfl).1

/-- Another event is the last one of the log. -/
theorem called_of_record {e : Event} (hcalled : ∀ n operation queue token, e ≠ .called n operation queue token)
    (hh : s.History) (before after : List Event) (m : ℕ) (operation : Operation) (queue : Str) (token : Token)
    (hlog : s.log ++ [e] = before ++ .called m operation queue token :: after) :
    Outstanding before m queue token := by
  rcases List.eq_nil_or_concat after with rfl | ⟨after, last, rfl⟩
  · have hlast := (List.append_inj' hlog rfl).2
    rw [List.cons.injEq] at hlast
    exact absurd hlast.1 (hcalled _ _ _ _)
  · rw [List.concat_eq_append, ← List.cons_append, ← List.append_assoc] at hlog
    exact hh.called before after m operation queue token (List.append_inj' hlog rfl).1

/-- A hook ends. -/
theorem Inv.answer (hi : s.Inv) {operation : Operation} (hn : s.calls[n]? = some (.hook operation h))
    (answer : Answer) : (s.answer n h answer).Inv := by
  unfold State.answer
  by_cases hnone : answer = .none
  · subst hnone
    rw [if_pos rfl]
    have hout := hi.outstanding hn rfl nofun
    refine ⟨?_, hi.reserved.goto (b := .completing h) hn rfl rfl rfl rfl, ?_, ?_, ?_⟩
    · exact hi.ledger.congr rfl rfl (by simp [record, State.goto]) (by simp [record, State.goto])
    · intro m hm
      have hlt : n < s.calls.length := (List.getElem?_eq_some_iff.mp hn).1
      have hcompleting : Stage.completing h ∈ s.calls.set n (.completing h) :=
        List.mem_iff_getElem?.mpr ⟨n, List.getElem?_set_self hlt⟩
      rcases List.mem_append.mp hm with hm | hm
      · rcases (hi.history.goto hn nofun rfl rfl : (s.goto n (.completing h)).History).completed m hm with
          hsettled | hmem
        · exact .inl (List.mem_append_left _ hsettled)
        · exact .inr hmem
      · obtain rfl : m = h.issue := by simpa using hm
        exact .inr ⟨h, hcompleting, rfl⟩
    · intro m
      simp only [record, State.goto, List.count_append]
      by_cases hm : m = h.issue
      · subst hm
        obtain ⟨-, -, -, -, -, hcompleted⟩ := hout
        rw [List.count_eq_zero_of_not_mem hcompleted]
        simp
      · have := hi.history.once m
        have hne : List.count (.completed m) [Event.completed h.issue] = 0 := by
          rw [List.count_eq_zero]
          simpa using hm
        omega
    · exact called_of_record nofun hi.history
  · rw [if_neg hnone]
    refine hi.goto hn ?_ nofun
    cases answer <;> rfl

/-! ## The sections under the lock -/

/-- A token is handed out, unless it repeats one. -/
theorem Inv.issue (hi : s.Inv) {item : Option ι} (hn : s.calls[n]? = some (.issuing queue item token)) :
    (s.issue n queue token).Inv := by
  cases hfound : s.token? queue token.key with
  | some found =>
    rw [issue_of_active hfound]
    exact hi.goto hn rfl (by rintro _ ⟨⟩)
  | none =>
    have htoken := token?_issue (n := n) hfound
    have hget := get?_issue (n := n) hfound
    have hlog : (s.issue n queue token).log = s.log ++ [.issued s.count queue token] := by
      rw [issue_of_new hfound]
      rfl
    have hcalls : (s.issue n queue token).calls = s.calls.set n .returned := by
      rw [issue_of_new hfound]
      rfl
    have hsettling : (s.issue n queue token).settling = s.settling := by
      rw [issue_of_new hfound]
      rfl
    have hcount : (s.issue n queue token).count = s.count + 1 := by
      rw [issue_of_new hfound]
      rfl
    refine ⟨⟨?_, ?_, ?_, ?_, ?_⟩, ⟨?_, ?_⟩, ⟨?_, ?_, ?_⟩⟩
    · intro q key e
      rw [htoken, hlog, List.mem_append, List.mem_append]
      simp only [List.mem_singleton, Event.issued.injEq, reduceCtorEq, or_false]
      constructor
      · intro he
        split_ifs at he with hnew
        · obtain rfl := Option.some.inj he
          refine ⟨.inr ⟨rfl, hnew.1, rfl⟩, hnew.2.symm, fun hsettled ↦ ?_⟩
          exact lt_irrefl _ (hi.ledger.settled _ hsettled)
        · obtain ⟨hissued, hkey, hsettled⟩ := (hi.ledger.active q key e).mp he
          exact ⟨.inl hissued, hkey, hsettled⟩
      · rintro ⟨hissued | ⟨hissue, rfl, rfl⟩, hkey, hsettled⟩
        · have he := (hi.ledger.active q key e).mpr ⟨hissued, hkey, hsettled⟩
          rw [if_neg]
          · exact he
          · rintro ⟨rfl, rfl⟩
            rw [hfound] at he
            cases he
        · rw [if_pos ⟨rfl, hkey.symm⟩, ← hissue]
    · intro q tokens hq
      rw [hget] at hq
      split_ifs at hq with heq
      · obtain rfl := Option.some.inj hq
        intro hnil
        have := OrderedDict.get?_set ((s.active.get? queue).getD .empty) token.key token.key ⟨token, s.count⟩
        rw [if_pos rfl, OrderedDict.get?, hnil] at this
        cases this
      · exact hi.ledger.full q tokens hq
    · intro m q x hx
      rw [hlog, List.mem_append] at hx
      rw [hcount]
      rcases hx with hx | hx
      · exact (hi.ledger.fresh m q x hx).trans (Nat.lt_succ_self _)
      · have : m = s.count := by simpa using (by simpa using hx : m = s.count ∧ q = queue ∧ x = token).1
        omega
    · intro m hm
      rw [hlog] at hm
      rw [hcount]
      exact (hi.ledger.settled m (by simpa using hm)).trans (Nat.lt_succ_self _)
    · intro m q q' x x' hx hx'
      rw [hlog, List.mem_append] at hx hx'
      rcases hx with hx | hx <;> rcases hx' with hx' | hx'
      · exact hi.ledger.unique m q q' x x' hx hx'
      · have := hi.ledger.fresh m q x hx
        have hm := (by simpa using hx' : m = s.count ∧ q' = queue ∧ x' = token)
        omega
      · have := hi.ledger.fresh m q' x' hx'
        have hm := (by simpa using hx : m = s.count ∧ q = queue ∧ x = token)
        omega
      · have hm := (by simpa using hx : m = s.count ∧ q = queue ∧ x = token)
        have hm' := (by simpa using hx' : m = s.count ∧ q' = queue ∧ x' = token)
        exact ⟨hm.2.1.trans hm'.2.1.symm, hm.2.2.trans hm'.2.2.symm⟩
    · intro r
      have hset := List.countP_set_add (b := (.returned : Stage ι)) (Stage.reserves r) hn
      rw [hcalls, hsettling, ← hi.reserved.settling r]
      simpa [Stage.reserves, Stage.hold] using hset
    · intro stage hstage h hh
      rw [hcalls] at hstage
      rcases List.mem_or_eq_of_mem_set hstage with hstage | rfl
      · obtain ⟨e, he, hrest⟩ := hi.reserved.holds stage hstage h hh
        refine ⟨e, ?_, hrest⟩
        rw [htoken, if_neg]
        · exact he
        · rintro ⟨hqueue, hkey⟩
          rw [hqueue, hkey, hfound] at he
          cases he
      · cases hh
    · intro m hm
      rw [hlog, List.mem_append] at hm
      have hm' : .completed m ∈ s.log := by simpa using hm
      rcases (hi.history.goto hn (by rintro _ ⟨⟩) rfl rfl : (s.goto n .returned).History).completed m hm' with
        hsettled | hmem
      · rw [hlog]
        exact .inl (List.mem_append_left _ hsettled)
      · rw [hcalls]
        exact .inr hmem
    · intro m
      rw [hlog, List.count_append]
      simpa using hi.history.once m
    · rw [hlog]
      exact called_of_record (by simp) hi.history

theorem settleable_eq_some {issue : ℕ} (hsome : s.settleable queue token = some issue) :
    (queue, token.key) ∉ s.settling ∧ ∃ e, s.token? queue token.key = some e ∧ e.issue = issue ∧
      (token.key.isIdentity = true → e.token = token) := by
  obtain ⟨e, he, hif⟩ := Option.bind_eq_some_iff.mp hsome
  split_ifs at hif with hcond
  rw [not_or, not_and, not_not] at hcond
  exact ⟨hcond.2, e, he, Option.some.inj hif, hcond.1⟩

/-- The other reservations stay as they are. -/
theorem countP_reserves_set (hn : s.calls[n]? = some a) (r : Str × Key) :
    (s.calls.set n b).countP (Stage.reserves r) + (a.reserves r).toNat =
      s.calls.countP (Stage.reserves r) + (b.reserves r).toNat := List.countP_set_add _ hn

theorem Inv.reserve (hi : s.Inv) {operation : Operation}
    (hn : s.calls[n]? = some (.reserving operation queue token)) : (s.reserve n operation queue token).Inv := by
  unfold State.reserve
  cases hsome : s.settleable queue token with
  | none => exact hi.goto hn rfl nofun
  | some issue =>
    obtain ⟨hnot, e, he, hissue, hidentity⟩ := settleable_eq_some hsome
    refine ⟨?_, ⟨?_, ?_⟩, hi.history.goto hn nofun rfl rfl⟩
    · exact hi.ledger.congr rfl rfl (fun _ _ _ ↦ Iff.rfl) fun _ ↦ Iff.rfl
    · intro r
      have hset := countP_reserves_set (b := .resolving operation ⟨queue, token, issue⟩) hn r
      have hold := hi.reserved.settling r
      have har : (Stage.reserving operation queue token : Stage ι).reserves r = false := rfl
      have hbr : (Stage.resolving operation ⟨queue, token, issue⟩ : Stage ι).reserves r =
        decide ((queue, token.key) = r) := rfl
      rw [har, hbr, Bool.toNat_false] at hset
      change (s.calls.set n _).countP _ = if r ∈ insert (queue, token.key) s.settling then 1 else 0
      by_cases hr : (queue, token.key) = r
      · subst hr
        rw [if_neg hnot] at hold
        rw [if_pos (Finset.mem_insert_self _ _)]
        rw [decide_eq_true rfl, Bool.toNat_true] at hset
        omega
      · rw [decide_eq_false hr, Bool.toNat_false] at hset
        have hmem : r ∈ insert (queue, token.key) s.settling ↔ r ∈ s.settling := by
          rw [Finset.mem_insert]
          exact or_iff_right fun e ↦ hr e.symm
        simp only [hmem]
        omega
    · intro stage hstage h hh
      rcases List.mem_or_eq_of_mem_set hstage with hstage | rfl
      · exact hi.reserved.holds stage hstage h hh
      · obtain rfl := Option.some.inj hh
        exact ⟨e, he, hissue, hidentity⟩

/-- What is left when a call gives its reservation back. -/
theorem Inv.countP_erase (hi : s.Inv) (hn : s.calls[n]? = some a) (hold : a.hold = some h) (hb : b.hold = none)
    (r : Str × Key) : (s.calls.set n b).countP (Stage.reserves r) =
      if r ∈ s.settling.erase h.reservation then 1 else 0 := by
  have hset := countP_reserves_set (b := b) hn r
  have hold' := hi.reserved.settling r
  have hle := List.toNat_le_countP (Stage.reserves r) hn
  have hbr : b.reserves r = false := by rw [Stage.reserves, hb]; rfl
  have har : a.reserves r = decide (h.reservation = r) := by rw [Stage.reserves, hold]; rfl
  rw [hbr, har, Bool.toNat_false] at hset
  rw [har] at hle
  by_cases hr : h.reservation = r
  · subst hr
    rw [if_neg (Finset.notMem_erase _ _)]
    rw [decide_eq_true rfl, Bool.toNat_true] at hset hle
    split_ifs at hold' <;> omega
  · rw [decide_eq_false hr, Bool.toNat_false] at hset
    have hmem : r ∈ s.settling.erase h.reservation ↔ r ∈ s.settling := by
      rw [Finset.mem_erase]
      exact and_iff_right fun e ↦ hr e.symm
    simp only [hmem]
    omega

theorem Inv.fail (hi : s.Inv) {why : Refusal} (hn : s.calls[n]? = some (.failing h why)) :
    (s.fail n h why).Inv := by
  refine ⟨?_, ⟨?_, ?_⟩, hi.history.goto hn nofun rfl rfl⟩
  · exact hi.ledger.congr rfl rfl (fun _ _ _ ↦ Iff.rfl) fun _ ↦ Iff.rfl
  · exact hi.countP_erase hn rfl rfl
  · intro stage hstage h' hh
    rcases List.mem_or_eq_of_mem_set hstage with hstage | rfl
    · exact hi.reserved.holds stage hstage h' hh
    · cases hh

/-- **A failed settlement** leaves the token as it was before: it can be settled. -/
theorem Inv.settleable_fail (hi : s.Inv) {why : Refusal} (hn : s.calls[n]? = some (.failing h why)) :
    (s.fail n h why).settleable h.queue h.token = some h.issue := by
  obtain ⟨e, he, hissue, hidentity⟩ := hi.reserved.holds _ (List.mem_of_getElem? hn) h rfl
  have htoken : (s.fail n h why).token? h.queue h.token.key = some e := he
  rw [settleable, htoken, Option.bind_some, if_neg, hissue]
  rintro (⟨hid, hne⟩ | hmem)
  · exact hne (hidentity hid)
  · exact Finset.notMem_erase _ _ hmem

/-- The reservation of a call is there. -/
theorem Inv.mem_settling (hi : s.Inv) (hn : s.calls[n]? = some a) (hold : a.hold = some h) :
    h.reservation ∈ s.settling := by
  have hle := List.toNat_le_countP (Stage.reserves h.reservation) hn
  rw [hi.reserved.settling] at hle
  by_contra hnot
  rw [if_neg hnot, Stage.reserves, hold] at hle
  simp at hle

/-- The last section of a settlement does not fail. -/
theorem Inv.complete (hi : s.Inv) (hn : s.calls[n]? = some (.completing h)) :
    ∃ t, s.complete n h = some t ∧ t.Inv := by
  obtain ⟨e, he, hissue, -⟩ := hi.reserved.holds _ (List.mem_of_getElem? hn) h rfl
  obtain ⟨t, ht, hsettling, hcalls, hcount, hlog, htoken, hempty⟩ :=
    complete_spec (n := n) (hi.mem_settling hn rfl) he
  obtain ⟨hissued, hkey, hsettled⟩ := (hi.ledger.active _ _ e).mp he
  have hlt : h.issue < s.count := hissue ▸ hi.ledger.fresh _ _ _ hissued
  refine ⟨t, ht, ⟨⟨?_, ?_, ?_, ?_, ?_⟩, ⟨?_, ?_⟩, ⟨?_, ?_, ?_⟩⟩⟩
  · intro q key x
    rw [htoken, hlog, List.mem_append, List.mem_append]
    simp only [List.mem_singleton, Event.settled.injEq, reduceCtorEq, or_false]
    constructor
    · intro hx
      split_ifs at hx with hgone
      obtain ⟨hx', hxkey, hxsettled⟩ := (hi.ledger.active q key x).mp hx
      refine ⟨hx', hxkey, ?_⟩
      rintro (hin | heq)
      · exact hxsettled hin
      · rw [heq, ← hissue] at hx'
        obtain ⟨hq, hxt⟩ := hi.ledger.unique _ _ _ _ _ hx' hissued
        exact hgone ⟨hq, by rw [← hxkey, hxt, hkey]⟩
    · rintro ⟨hx', hxkey, hxsettled⟩
      rw [not_or] at hxsettled
      have hx := (hi.ledger.active q key x).mpr ⟨hx', hxkey, hxsettled.1⟩
      rw [if_neg]
      · exact hx
      · rintro ⟨rfl, rfl⟩
        rw [he] at hx
        obtain rfl := Option.some.inj hx
        exact hxsettled.2 hissue
  · intro q tokens hq hnil
    exact hi.ledger.full q tokens (hempty q tokens hq hnil) hnil
  · intro m q x hx
    rw [hlog] at hx
    rw [hcount]
    exact hi.ledger.fresh m q x (by simpa using hx)
  · intro m hm
    rw [hlog, List.mem_append] at hm
    rw [hcount]
    rcases hm with hm | hm
    · exact hi.ledger.settled m hm
    · obtain rfl : m = h.issue := by simpa using hm
      exact hlt
  · intro m q q' x x' hx hx'
    rw [hlog] at hx hx'
    exact hi.ledger.unique m q q' x x' (by simpa using hx) (by simpa using hx')
  · intro r
    rw [hcalls, hsettling]
    exact hi.countP_erase hn rfl rfl r
  · intro stage hstage h' hh
    rw [hcalls] at hstage
    obtain ⟨j, hj⟩ := List.mem_iff_getElem?.mp hstage
    rcases List.getElem?_set_some hj with ⟨-, rfl⟩ | ⟨hjn, hj⟩
    · cases hh
    · -- another call has reserved another token
      obtain ⟨x, hx, hxissue, hxid⟩ := hi.reserved.holds stage (List.mem_of_getElem? hj) h' hh
      refine ⟨x, ?_, hxissue, hxid⟩
      rw [htoken, if_neg]
      · exact hx
      · rintro ⟨hqueue, hkey'⟩
        rw [hqueue, hkey', he] at hx
        obtain rfl := Option.some.inj hx
        exact hjn (hi.index_eq hj hn hh rfl (hxissue.symm.trans hissue))
  · intro m hm
    rw [hlog, List.mem_append] at hm ⊢
    have hm' : .completed m ∈ s.log := by simpa using hm
    rcases hi.history.completed m hm' with hin | ⟨h', hmem, hissue'⟩
    · exact .inl (.inl hin)
    · obtain ⟨j, hj⟩ := List.mem_iff_getElem?.mp hmem
      by_cases hjn : j = n
      · subst hjn
        obtain rfl : h = h' := by simpa using hn.symm.trans hj
        exact .inl (.inr (by simp [hissue']))
      · refine .inr ⟨h', ?_, hissue'⟩
        rw [hcalls]
        exact List.mem_iff_getElem?.mpr ⟨j, by rw [List.getElem?_set_ne (Ne.symm hjn), hj]⟩
  · intro m
    rw [hlog, List.count_append]
    simpa using hi.history.once m
  · rw [hlog]
    exact called_of_record nofun hi.history

theorem hold_beforeSettle (operation : Operation) (queue : Option Str) (token : Option Token) (look : Look) :
    (beforeSettle operation queue token look : Stage ι).hold = none := by
  unfold beforeSettle
  split
  · rfl
  · rfl
  · split <;> rfl

theorem hold_afterDelivery (queue : Str) (delivery : Delivery ι) : (afterDelivery queue delivery).hold = none := by
  unfold afterDelivery
  split
  all_goals first
    | rfl
    | (split <;> rfl)

/-- **Each step** keeps the invariant. -/
theorem Inv.step (hi : s.Inv) {label : Label ι} (hstep : s.step label = some t) : t.Inv := by
  cases label with
  | pop queue =>
    cases queue with
    | none =>
      obtain rfl := Option.some.inj hstep
      exact hi.start rfl
    | some queue =>
      obtain rfl := Option.some.inj hstep
      exact hi.start rfl
  | settle operation queue token look =>
    obtain rfl := Option.some.inj hstep
    exact hi.start (hold_beforeSettle operation queue token look)
  | deliver n delivery =>
    simp only [State.step] at hstep
    split at hstep
    · rename_i queue hn
      obtain rfl := Option.some.inj hstep
      exact hi.goto hn (hold_afterDelivery queue delivery) nofun
    · cases hstep
  | resolve n found =>
    simp only [State.step] at hstep
    split at hstep
    · rename_i operation h hn
      cases found with
      | true =>
        obtain rfl := Option.some.inj hstep
        exact hi.call hn
      | false =>
        obtain rfl := Option.some.inj hstep
        exact hi.goto hn rfl nofun
    · cases hstep
  | answer n answer =>
    simp only [State.step] at hstep
    split at hstep
    · rename_i operation h hn
      obtain rfl := Option.some.inj hstep
      exact hi.answer hn answer
    · cases hstep
  | act n =>
    obtain ⟨stage, hn, hact⟩ := Option.bind_eq_some_iff.mp hstep
    cases stage with
    | issuing queue item token =>
      obtain rfl := Option.some.inj hact
      exact hi.issue hn
    | reserving operation queue token =>
      obtain rfl := Option.some.inj hact
      exact hi.reserve hn
    | failing h why =>
      obtain rfl := Option.some.inj hact
      exact hi.fail hn
    | completing h =>
      obtain ⟨t', ht', hinv⟩ := hi.complete hn
      obtain rfl := Option.some.inj (ht'.symm.trans hact)
      exact hinv
    | _ => cases hact

theorem Inv.of_reachable (hs : (machine ι).Reachable s) : s.Inv :=
  hs.invariant Inv.new fun _ _ _ hi hstep ↦ hi.step hstep

/-- One hook is out for an issue, at most. -/
theorem Inv.countP_runs (hi : s.Inv) (n : ℕ) : s.calls.countP (Stage.runs n) ≤ 1 := by
  by_contra hlt
  -- two of them would be at two places
  obtain ⟨i, a, ha, hra⟩ : ∃ i a, s.calls[i]? = some a ∧ Stage.runs n a = true := by
    obtain ⟨a, hmem, hra⟩ := List.countP_pos_iff.mp (show 0 < s.calls.countP (Stage.runs n) by omega)
    obtain ⟨i, hi⟩ := List.mem_iff_getElem?.mp hmem
    exact ⟨i, a, hi, hra⟩
  have hset := List.countP_set_add (b := (.returned : Stage ι)) (Stage.runs n) ha
  rw [hra] at hset
  have hpos : 0 < (s.calls.set i .returned).countP (Stage.runs n) := by
    have hreturned : Stage.runs n (.returned : Stage ι) = false := rfl
    rw [hreturned, Bool.toNat_true, Bool.toNat_false] at hset
    omega
  obtain ⟨b, hmem, hrb⟩ := List.countP_pos_iff.mp hpos
  obtain ⟨j, hj⟩ := List.mem_iff_getElem?.mp hmem
  rcases List.getElem?_set_some hj with ⟨-, rfl⟩ | ⟨hji, hj⟩
  · cases hrb
  · obtain ⟨operation, h, rfl, hissue⟩ : ∃ operation h, a = .hook operation h ∧ h.issue = n := by
      cases a <;> simp_all [Stage.runs]
    obtain ⟨operation', h', rfl, hissue'⟩ : ∃ operation h, b = .hook operation h ∧ h.issue = n := by
      cases b <;> simp_all [Stage.runs]
    exact hji (hi.index_eq hj ha rfl rfl (hissue'.trans hissue.symm))

end State

/-- What the fence guarantees. -/
structure Fenced (s : State ι) : Prop where
  /-- A hook is called for a token that was handed out on its queue, and is neither settled nor completed. -/
  called : ∀ before after n operation queue token,
    s.log = before ++ .called n operation queue token :: after → Outstanding before n queue token
  running : ∀ n, s.calls.countP (Stage.runs n) ≤ 1
  once : ∀ n, s.log.count (.completed n) ≤ 1
  /-- After a failed settlement the same token passes the check of the next one. -/
  retry : ∀ n h why t, s.calls[n]? = some (.failing h why) → s.step (.act n) = some t →
    t.settleable h.queue h.token = some h.issue
  repeated : ∀ n queue item token found, s.calls[n]? = some (.issuing queue item token) →
    s.token? queue token.key = some found → s.step (.act n) = some (s.goto n (.refused .reused))
  active : ∀ queue key e, s.token? queue key = some e ↔
    .issued e.issue queue e.token ∈ s.log ∧ e.token.key = key ∧ .settled e.issue ∉ s.log
  full : ∀ queue tokens, s.active.get? queue = some tokens → tokens.entries ≠ []
  /-- A settlement whose hook has returned `None` gets through. -/
  completes : ∀ n h, s.calls[n]? = some (.completing h) → (s.step (.act n)).isSome = true

/-- **The acknowledgement fence** holds in every interleaving, whatever the plugin does. -/
theorem plugin_ack_fence {s : State ι} (hs : (machine ι).Reachable s) : Fenced s := by
  have hi := State.Inv.of_reachable hs
  refine ⟨hi.history.called, hi.countP_runs, hi.history.once, ?_, ?_, hi.ledger.active, hi.ledger.full, ?_⟩
  · intro n h why t hn hstep
    rw [State.step, hn] at hstep
    obtain rfl := Option.some.inj hstep
    exact hi.settleable_fail hn
  · intro n queue item token found hn hfound
    rw [State.step, hn, Option.bind_some, State.act, State.issue_of_active hfound]
  · intro n h hn
    obtain ⟨t, ht, -⟩ := hi.complete hn
    rw [State.step, hn, Option.bind_some, State.act, ht]
    rfl

/-- An acknowledgement that raises, with another one from inside the plugin, a second try, and the token
handed out again. -/
def reissue : List (Label ℕ) :=
  let token : Token := .value (.int 1)
  [.pop (some []), .deliver 0 (.pair (some 5) (some token) .plain), .act 0,
    .settle .ack (some []) (some token) .plain, .act 1, .resolve 1 true,
    .settle .nack (some []) (some token) .plain, .act 2, .answer 1 .raises, .act 1,
    .settle .ack (some []) (some token) .plain, .act 3, .resolve 3 true, .answer 3 .none, .act 3,
    .pop (some []), .deliver 4 (.pair (some 6) (some token) .plain), .act 4]

theorem isSome_reissue : ((machine ℕ).run (machine ℕ).init reissue).isSome = true := by decide +kernel

def afterReissue : State ℕ := Option.get _ isSome_reissue

theorem plugin_ack_fence_afterReissue :
    afterReissue.log =
      [.issued 0 [] (.value (.int 1)), .called 0 .ack [] (.value (.int 1)), .called 0 .ack [] (.value (.int 1)),
        .completed 0, .settled 0, .issued 1 [] (.value (.int 1))] ∧ Fenced afterReissue := by
  refine ⟨?_, ?_⟩
  · decide +kernel
  · exact plugin_ack_fence ⟨reissue, (Option.some_get isSome_reissue).symm⟩

end PluginAckFence

end ScrapyExtension
