import ScrapyExtension.Program.Basic
import ScrapyExtension.Queue.Wire

/-!
# What becomes of a popped payload

`BackendQueue._process_pop` gets the bytes of a pop and the token of the delivery, if there is one, and
either returns the request or settles what it has popped: a tombstone and a poison payload are
acknowledged, and an envelope of another spider is handed back, by a nack or, where there is no token, by
another push of the same bytes. Each of these calls may fail, with or without its effect.

## The shared queue

A pop with a token leaves the message with the broker until it is settled; a pop without one has
removed it (`World.take`). So a hand-back that fails keeps the message in the first case only.
-/

namespace ScrapyExtension

open Py JsonCodec

namespace Pop

open Wire Program

variable {H : Host} {τ : Type} [DecidableEq τ]

/-! ## Calls -/

/-- A call on the broker or on the strategy. -/
inductive Call (τ : Type) (H : Host)
  | ack (token : τ)
  | nack (token : τ)
  /-- `strategy.push(queue_name, data, priority=priority)` -/
  | push (data : Bytes) (priority : Obj H)

/-- How a call ends. -/
inductive Reply
  | returns
  /-- It raises, after its effect or without one. An interrupt is no `Exception`. -/
  | raises (applied interrupt : Bool)
deriving DecidableEq

/-- The replies to the calls of one pop, of which there is at most one of a kind. -/
structure Replies where
  ack : Reply
  nack : Reply
  push : Reply

/-- What `_process_pop` raises. -/
inductive Exn
  /-- `SerializationError` -/
  | serialization
  /-- `QueueError` -/
  | queue
  /-- An `Exception` of the broker. -/
  | backend
  /-- A `BaseException` that is no `Exception`. -/
  | control
deriving DecidableEq

/-- The queue that the consumers share, and what was done. -/
structure World (τ : Type) (H : Host) where
  /-- Messages that can be popped; a tombstone has no payload. -/
  available : List (Option Bytes)
  /-- Deliveries with a token that are not settled. -/
  unsettled : List (τ × Option Bytes)
  /-- Calls of `_process_pop`. -/
  calls : List (Call τ H)
  /-- Counters of `_inc_stat`. -/
  stats : List String

namespace World

/-- Remove a message from the queue, as a delivery if there is a token. -/
def take (w : World τ H) (data : Option Bytes) (token : Option τ) : World τ H :=
  { w with
    available := w.available.erase data
    unsettled := w.unsettled ++ token.toList.map fun t ↦ (t, data) }

/-- How often a payload is in the queue or with the broker. -/
def copies (w : World τ H) (data : Bytes) : ℕ :=
  w.available.count (some data) + (w.unsettled.map Prod.snd).count (some data)

end World

/-- The effect of a call. -/
def Call.effect (w : World τ H) : Call τ H → World τ H
  | .ack token => { w with unsettled := w.unsettled.filter fun m ↦ m.1 ≠ token }
  | .nack token =>
    { w with
      available := w.available ++ (w.unsettled.filter fun m ↦ m.1 = token).map Prod.snd
      unsettled := w.unsettled.filter fun m ↦ m.1 ≠ token }
  | .push data _ => { w with available := w.available ++ [some data] }

/-- Make a call. -/
def attempt (call : Call τ H) (reply : Reply) : Program (World τ H) Exn Unit := do
  change fun w ↦ { w with calls := w.calls ++ [call] }
  match reply with
  | .returns => change call.effect
  | .raises applied interrupt =>
    onlyIf (applied = true) (change call.effect)
    raise (if interrupt then .control else .backend)

/-- `_inc_stat` -/
def incStat (name : String) : Program (World τ H) Exn Unit :=
  change fun w ↦ { w with stats := w.stats ++ [name] }

/-- `except Exception` -/
def except {α : Type} (p : Program (World τ H) Exn α) (handler : Exn → Program (World τ H) Exn α) :
    Program (World τ H) Exn α :=
  handle p fun e ↦ if e = .control then raise e else handler e

/-! ## The pop -/

variable (P : Platform H) (c : Consumer) (R : Replies)

/-- How the suite of `_process_pop` ends. -/
inductive Suite (P : Platform H)
  | request (request : P.Request)
  /-- `_EnvelopeIdentityMismatch`, with what `request_dict` holds by then -/
  | mismatch (requestDict : Dict H)
  /-- Another exception. -/
  | failed (e : Reject)

/-- The suite of `_process_pop`. -/
def suite (data : Bytes) : Suite P :=
  match readEnvelope P c data with
  | .error e => .failed e
  | .ok requestDict =>
    match validateEnvelopeIdentity c requestDict with
    | .error _ => .mismatch requestDict
    | .ok _ =>
      match rebuild P c requestDict with
      | .ok request => .request request
      | .error e => .failed e

/-- `request_dict.get("priority", 0.0)` -/
def wirePriority (d : Dict H) : Obj H :=
  if d.has "priority" then d.get "priority" else .float P.zero

/-- The branch of a tombstone. -/
def dropEmpty (token : Option τ) : Program (World τ H) Exn Unit :=
  match token with
  | none => pure ()
  | some token => do
    except (attempt (.ack token) R.ack) fun e ↦ do
      -- redelivery is asked for when the terminal commit itself failed
      except (attempt (.nack token) R.nack) fun _ ↦ pure ()
      raise e
    incStat "scheduler/queue/empty_payload_dropped"

/-- The handler of `_EnvelopeIdentityMismatch`. -/
def handBack (data : Bytes) (token : Option τ) (requestDict : Dict H) :
    Program (World τ H) Exn Unit := do
  except
    (match token with
    | some token => attempt (.nack token) R.nack
    | none => attempt (.push data (wirePriority P requestDict)) R.push)
    fun _ ↦ raise .queue
  incStat "scheduler/queue/foreign_envelope"

/-- The settlement of a payload that could not be read. -/
def dropPoison (token : Option τ) : Program (World τ H) Exn Unit :=
  match token with
  | some token =>
    except
      (do
        attempt (.ack token) R.ack
        incStat "scheduler/queue/poison_dropped")
      fun _ ↦ pure ()
  | none => incStat "scheduler/queue/poison_dropped"

/-- The counter of the size check. -/
def countOversize : Reject → Program (World τ H) Exn Unit
  | .oversize => incStat "scheduler/queue/oversize_dropped"
  | _ => pure ()

/-- `_process_pop`. The request comes with the token that is put into its meta. -/
def processPop (data : Option Bytes) (token : Option τ) :
    Program (World τ H) Exn (Option (P.Request × Option τ)) :=
  match data with
  | none => do
    dropEmpty R token
    pure none
  | some data =>
    match suite P c data with
    | .request request => pure (some (request, token))
    | .mismatch requestDict => do
      handBack P R data token requestDict
      pure none
    | .failed e => do
      countOversize e
      dropPoison R token
      raise .serialization

/-! ## Dispositions -/

/-- What is done about a popped payload. -/
inductive Disposition (P : Platform H)
  /-- Return the request, with its token unsettled. -/
  | deliver (request : P.Request)
  /-- Acknowledge a tombstone. -/
  | tombstone
  /-- Hand the envelope back, under this priority if it has to be pushed. -/
  | handBack (priority : Obj H)
  /-- Acknowledge the payload and report poison. -/
  | poison

/-- What the payload, the identity and the limits of the queue decide. -/
inductive Decided : Option Bytes → Disposition P → Prop
  | tombstone : Decided none .tombstone
  | deliver {data : Bytes} {d : Dict H} {request : P.Request} : Opens P c data d → Accepts c d →
      Rebuilds P c d request → Decided (some data) (.deliver request)
  | handBack {data : Bytes} {d : Dict H} : Opens P c data d → ¬ Accepts c d →
      Decided (some data) (.handBack (wirePriority P d))
  | poison {data : Bytes} : (∀ d, Opens P c data d → Accepts c d ∧ ∀ r, ¬ Rebuilds P c d r) →
      Decided (some data) .poison

/-- The disposition of a payload. -/
def disposition : Option Bytes → Disposition P
  | none => .tombstone
  | some data =>
    match suite P c data with
    | .request request => .deliver request
    | .mismatch requestDict => .handBack (wirePriority P requestDict)
    | .failed _ => .poison

/-- The call raises an `Exception`. -/
def Reply.Fails : Reply → Prop
  | .raises _ interrupt => interrupt = false
  | .returns => False

instance : DecidablePred Reply.Fails
  | .raises _ _ => inferInstanceAs (Decidable (_ = _))
  | .returns => inferInstanceAs (Decidable False)

/-- The call has its effect. -/
def Reply.applied : Reply → Bool
  | .returns => true
  | .raises applied _ => applied

/-- The result of a call. -/
def Reply.result : Reply → Except Exn Unit
  | .returns => .ok ()
  | .raises _ interrupt => .error (if interrupt then .control else .backend)

namespace Disposition

variable {P}

/-- The calls of a disposition. -/
def calls (data : Option Bytes) (token : Option τ) : Disposition P → List (Call τ H)
  | .deliver _ => []
  | .tombstone =>
    match token with
    | some token => if R.ack.Fails then [.ack token, .nack token] else [.ack token]
    | none => []
  | .handBack priority =>
    match token, data with
    | some token, _ => [.nack token]
    | none, some data => [.push data priority]
    | none, none => []
  | .poison => token.toList.map .ack

/-- What becomes of an `Exception` of the call; an interrupt goes through. -/
def afterCall (reply : Reply) {α : Type} (returns raises : Except Exn α) : Except Exn α :=
  match reply with
  | .returns => returns
  | .raises _ interrupt => if interrupt then .error .control else raises

/-- How the pop ends under a disposition. -/
def result (token : Option τ) : Disposition P → Except Exn (Option (P.Request × Option τ))
  | .deliver request => .ok (some (request, token))
  | .tombstone =>
    match token with
    | some _ => afterCall R.ack (.ok none) (afterCall R.nack (.error .backend) (.error .backend))
    | none => .ok none
  | .handBack _ =>
    afterCall (if token.isSome then R.nack else R.push) (.ok none) (.error .queue)
  | .poison =>
    match token with
    | some _ => afterCall R.ack (.error .serialization) (.error .serialization)
    | none => .error .serialization

end Disposition

/-- The world after a call. -/
def World.after (w : World τ H) (call : Call τ H) (applied : Bool) : World τ H :=
  let called := { w with calls := w.calls ++ [call] }
  if applied then call.effect called else called

variable {P c R} {w : World τ H}

theorem wp_attempt (call : Call τ H) (reply : Reply) {Q : Unit → World τ H → Prop}
    {E : Exn → World τ H → Prop} :
    wp (attempt call reply) Q E w ↔
      match reply with
      | .returns => Q () (w.after call true)
      | .raises applied interrupt =>
        E (if interrupt then .control else .backend) (w.after call applied) := by
  rcases reply with - | ⟨- | -, interrupt⟩ <;> rfl

omit [DecidableEq τ] in
theorem wp_except {α : Type} (p : Program (World τ H) Exn α)
    (handler : Exn → Program (World τ H) Exn α) {Q : α → World τ H → Prop}
    {E : Exn → World τ H → Prop} :
    wp (except p handler) Q E w ↔
      wp p Q (fun e t ↦ (e = .control → E e t) ∧ (e ≠ .control → wp (handler e) Q E t)) w := by
  simp only [except, wp_handle, wp_ite, wp_raise, ne_eq]

omit [DecidableEq τ] in
/-- What a program returns and where it ends, from its weakest precondition. -/
theorem run_of_wp {α : Type} {p : Program (World τ H) Exn α} {r : Except Exn α}
    {S : World τ H → Prop} (h : wp p (fun a t ↦ r = .ok a ∧ S t) (fun e t ↦ r = .error e ∧ S t) w) :
    (p.run w).1 = r ∧ S (p.run w).2 := by
  unfold wp at h
  unfold run
  split at h
  · next hrun =>
    rw [hrun, h.1]
    exact ⟨rfl, h.2⟩
  · next hrun =>
    rw [hrun, h.1]
    exact ⟨rfl, h.2⟩

omit [DecidableEq τ] in
/-- Where a program ends, however it does. -/
theorem state_of_wp {α : Type} {p : Program (World τ H) Exn α} {S : World τ H → Prop}
    (h : wp p (fun _ t ↦ S t) (fun _ t ↦ S t) w) : S (p.run w).2 := by
  unfold wp at h
  unfold run
  split at h
  · next hrun =>
    rw [hrun]
    exact h
  · next hrun =>
    rw [hrun]
    exact h

@[simp] theorem calls_after (call : Call τ H) (applied : Bool) :
    (w.after call applied).calls = w.calls ++ [call] := by
  rcases applied with - | -
  · rfl
  · rcases call with - | - | - <;> rfl

/-- How the suite ends is decided by the three checks. -/
theorem suite_cases (data : Bytes) :
    (∃ d request, suite P c data = .request request ∧ Opens P c data d ∧ Accepts c d ∧
        Rebuilds P c d request) ∨
      (∃ d, suite P c data = .mismatch d ∧ Opens P c data d ∧ ¬ Accepts c d) ∨
      ∃ e, suite P c data = .failed e ∧
        ∀ d, Opens P c data d → Accepts c d ∧ ∀ r, ¬ Rebuilds P c d r := by
  unfold suite
  rcases hread : readEnvelope P c data with e | d
  · refine .inr (.inr ⟨e, rfl, fun d hd ↦ ?_⟩)
    rw [readEnvelope_ok_iff.2 hd] at hread
    exact nomatch hread
  have hopens := readEnvelope_ok_iff.1 hread
  rcases hidentity : validateEnvelopeIdentity c d with e | ⟨⟩
  · refine .inr (.inl ⟨d, by simp only [hidentity], hopens, fun haccepts ↦ ?_⟩)
    rw [validateEnvelopeIdentity_ok_iff.2 haccepts] at hidentity
    exact nomatch hidentity
  have haccepts := validateEnvelopeIdentity_ok_iff.1 hidentity
  rcases hrebuild : rebuild P c d with e | request
  · refine .inr (.inr ⟨e, by simp only [hidentity, hrebuild], fun d' hd' ↦ ?_⟩)
    obtain rfl : d' = d := hopens.unique hd'
    refine ⟨haccepts, fun r hr ↦ ?_⟩
    rw [rebuild_ok_iff.2 hr] at hrebuild
    exact nomatch hrebuild
  · exact .inl ⟨d, request, by simp only [hidentity, hrebuild], hopens, haccepts,
      rebuild_ok_iff.1 hrebuild⟩

theorem decided_disposition (data : Option Bytes) : Decided P c data (disposition P c data) := by
  rcases data with - | data
  · exact .tombstone
  rcases suite_cases (P := P) (c := c) data with
    ⟨d, request, hsuite, hopens, haccepts, hrebuilds⟩ | ⟨d, hsuite, hopens, hnot⟩ |
      ⟨e, hsuite, hpoison⟩ <;> simp only [disposition, hsuite]
  · exact .deliver hopens haccepts hrebuilds
  · exact .handBack hopens hnot
  · exact .poison hpoison

/-- At most one disposition is decided. -/
theorem Decided.unique {data : Option Bytes} {d d' : Disposition P} (h : Decided P c data d)
    (h' : Decided P c data d') : d = d' := by
  rcases h with - | ⟨hopens, haccepts, hrebuilds⟩ | ⟨hopens, hnot⟩ | hpoison <;>
    rcases h' with - | ⟨hopens', haccepts', hrebuilds'⟩ | ⟨hopens', hnot'⟩ | hpoison'
  · rfl
  · obtain rfl := hopens.unique hopens'
    rw [hrebuilds.unique hrebuilds']
  · obtain rfl := hopens.unique hopens'
    exact absurd haccepts hnot'
  · exact absurd hrebuilds ((hpoison' _ hopens).2 _)
  · obtain rfl := hopens.unique hopens'
    exact absurd haccepts' hnot
  · rw [hopens.unique hopens']
  · exact absurd (hpoison' _ hopens).1 hnot
  · exact absurd hrebuilds' ((hpoison _ hopens').2 _)
  · exact absurd (hpoison _ hopens').1 hnot'
  · rfl

omit [DecidableEq τ] in
theorem wp_incStat (name : String) {Q : Unit → World τ H → Prop} {E : Exn → World τ H → Prop} :
    wp (incStat name) Q E w ↔ Q () { w with stats := w.stats ++ [name] } := Iff.rfl

/-- The tombstone is acknowledged, and nacked if that failed. -/
theorem dropEmpty_spec (token : Option τ) :
    wp (dropEmpty R token)
      (fun _ t ↦ (Disposition.tombstone (P := P)).result R token = .ok none ∧
        t.calls = w.calls ++ (Disposition.tombstone (P := P)).calls R none token)
      (fun e t ↦ (Disposition.tombstone (P := P)).result R token = .error e ∧
        t.calls = w.calls ++ (Disposition.tombstone (P := P)).calls R none token) w := by
  rcases token with - | token
  · simp [dropEmpty, Disposition.result, Disposition.calls]
  · simp only [dropEmpty, wp_bind, wp_except, wp_attempt, wp_incStat]
    rcases hack : R.ack with - | ⟨applied, - | -⟩
    · simp [Disposition.result, Disposition.calls, Disposition.afterCall, Reply.Fails, hack]
    · rcases hnack : R.nack with - | ⟨applied', - | -⟩ <;>
        simp [Disposition.result, Disposition.calls, Disposition.afterCall, Reply.Fails, hack, hnack]
    · simp [Disposition.result, Disposition.calls, Disposition.afterCall, Reply.Fails, hack]

/-- The envelope is handed back by one call. -/
theorem handBack_spec (data : Bytes) (token : Option τ) (requestDict : Dict H) :
    wp (handBack P R data token requestDict)
      (fun _ t ↦ (Disposition.handBack (P := P) (wirePriority P requestDict)).result R token = .ok none ∧
        t.calls = w.calls ++
          (Disposition.handBack (P := P) (wirePriority P requestDict)).calls R (some data) token)
      (fun e t ↦ (Disposition.handBack (P := P) (wirePriority P requestDict)).result R token = .error e ∧
        t.calls = w.calls ++
          (Disposition.handBack (P := P) (wirePriority P requestDict)).calls R (some data) token) w := by
  simp only [handBack, wp_bind, wp_except, wp_incStat]
  rcases token with - | token
  · rw [wp_attempt]
    rcases hpush : R.push with - | ⟨applied, - | -⟩ <;>
      simp [Disposition.result, Disposition.calls, Disposition.afterCall, hpush]
  · rw [wp_attempt]
    rcases hnack : R.nack with - | ⟨applied, - | -⟩ <;>
      simp [Disposition.result, Disposition.calls, Disposition.afterCall, hnack]

/-- The payload is acknowledged once, if there is a token. -/
theorem dropPoison_spec (data : Option Bytes) (token : Option τ) :
    wp (dropPoison R token)
      (fun _ t ↦ (Disposition.poison (P := P)).result R token = .error .serialization ∧
        t.calls = w.calls ++ (Disposition.poison (P := P)).calls R data token)
      (fun e t ↦ (Disposition.poison (P := P)).result R token = .error e ∧
        t.calls = w.calls ++ (Disposition.poison (P := P)).calls R data token) w := by
  rcases token with - | token
  · simp [dropPoison, wp_incStat, Disposition.result, Disposition.calls]
  · simp only [dropPoison, wp_bind, wp_except, wp_attempt, wp_incStat]
    rcases hack : R.ack with - | ⟨applied, - | -⟩ <;>
      simp [Disposition.result, Disposition.calls, Disposition.afterCall, hack]

/-- The pop ends as its disposition says, and makes the calls of that. -/
theorem run_processPop (data : Option Bytes) (token : Option τ) :
    ((processPop P c R data token).run w).1 = (disposition P c data).result R token ∧
      ((processPop P c R data token).run w).2.calls =
        w.calls ++ (disposition P c data).calls R data token := by
  refine run_of_wp (S := fun t ↦ t.calls = _) ?_
  rcases data with - | data
  · rw [processPop, wp_bind]
    exact dropEmpty_spec token
  · unfold processPop disposition
    dsimp only
    rcases suite P c data with request | d | e
    · simp [Disposition.result, Disposition.calls]
    · rw [wp_bind]
      exact handBack_spec data token d
    · rw [wp_bind]
      -- the counter of an oversize payload leaves the calls alone
      have hstat : wp (countOversize e) (fun _ t ↦ t.calls = w.calls) (fun _ _ ↦ False) w := by
        cases e <;> rfl
      refine hstat.mono (fun _ t ht ↦ ?_) fun _ _ h ↦ h.elim
      rw [wp_bind, ← ht]
      exact dropPoison_spec (some data) token

namespace Disposition

variable {d : Disposition P} {data : Option Bytes} {token : Option τ}

omit [DecidableEq τ]

theorem of_ack_mem {t : τ} (h : .ack t ∈ d.calls R data token) : d = .poison ∨ d = .tombstone := by
  rcases d with request | - | priority | -
  · exact absurd h List.not_mem_nil
  · exact .inr rfl
  · rcases token with - | token <;> rcases data with - | data <;> simp [calls] at h
  · exact .inl rfl

theorem of_nack_mem {t : τ} (h : .nack t ∈ d.calls R data token) :
    (∃ priority, d = .handBack priority) ∨ d = .tombstone ∧ R.ack.Fails := by
  rcases d with request | - | priority | -
  · exact absurd h List.not_mem_nil
  · refine .inr ⟨rfl, ?_⟩
    rcases token with - | token
    · exact absurd h List.not_mem_nil
    · by_contra hack
      simp [calls, hack] at h
  · exact .inl ⟨priority, rfl⟩
  · simp [calls] at h

theorem of_push_mem {b : Bytes} {priority : Obj H} (h : .push b priority ∈ d.calls R data token) :
    d = .handBack priority ∧ data = some b ∧ token = none := by
  rcases d with request | - | priority' | -
  · exact absurd h List.not_mem_nil
  · rcases token with - | token
    · exact absurd h List.not_mem_nil
    · unfold calls at h
      split_ifs at h <;> simp at h
  · rcases token with - | token <;> rcases data with - | data <;> simp [calls] at h
    obtain ⟨rfl, rfl⟩ := h
    exact ⟨rfl, rfl, rfl⟩
  · simp [calls] at h

theorem afterCall_ok {α : Type} {reply : Reply} {returns raises : Except Exn α} {a : α}
    (h : afterCall reply returns raises = .ok a) : returns = .ok a ∨ raises = .ok a := by
  unfold afterCall at h
  split at h
  · exact .inl h
  · split_ifs at h
    exact .inr h

theorem of_result_some {request : P.Request} {t : Option τ}
    (h : d.result R token = .ok (some (request, t))) :
    d = .deliver request ∧ t = token ∧ d.calls R data token = [] := by
  rcases d with request' | - | priority | - <;> unfold result at h
  · obtain ⟨rfl, rfl⟩ := Prod.mk.inj (Option.some.inj (Except.ok.inj h))
    exact ⟨rfl, rfl, rfl⟩
  · exfalso
    rcases token with - | token
    · exact nomatch h
    · rcases afterCall_ok h with h | h
      · exact nomatch h
      · exact (afterCall_ok h).elim (fun h ↦ nomatch h) fun h ↦ nomatch h
  · exact (afterCall_ok h).elim (fun h ↦ nomatch h) fun h ↦ nomatch h
  · exfalso
    rcases token with - | token
    · exact nomatch h
    · exact (afterCall_ok h).elim (fun h ↦ nomatch h) fun h ↦ nomatch h

end Disposition

/-- A pop attempts the one disposition that is decided by the payload, the identity and the limits, and
no more: only poison and tombstones are acknowledged, only foreign envelopes and tombstones whose
acknowledgement failed are handed back, byte for byte, and nothing is settled under a request that is
returned. -/
theorem pop_disposition (data : Option Bytes) (token : Option τ) (w : World τ H) :
    ∃ d, (∀ d', Decided P c data d' ↔ d' = d) ∧
      ((processPop P c R data token).run w).1 = d.result R token ∧
      ((processPop P c R data token).run w).2.calls = w.calls ++ d.calls R data token ∧
      (∀ t, .ack t ∈ d.calls R data token → d = .poison ∨ d = .tombstone) ∧
      (∀ t, .nack t ∈ d.calls R data token →
        (∃ priority, d = .handBack priority) ∨ d = .tombstone ∧ R.ack.Fails) ∧
      (∀ b priority, .push b priority ∈ d.calls R data token →
        d = .handBack priority ∧ data = some b ∧ token = none) ∧
      ∀ request t, d.result R token = .ok (some (request, t)) →
        d = .deliver request ∧ t = token ∧ d.calls R data token = [] := by
  refine ⟨disposition P c data, ?_, (run_processPop data token).1, (run_processPop data token).2, ?_⟩
  · exact fun d' ↦ ⟨fun h ↦ h.unique (decided_disposition data),
      fun h ↦ h ▸ decided_disposition data⟩
  exact ⟨fun t ↦ Disposition.of_ack_mem, fun t ↦ Disposition.of_nack_mem,
    fun b priority ↦ Disposition.of_push_mem, fun request t ↦ Disposition.of_result_some⟩

/-! ## Handing back -/

/-- The call hands a message back. -/
def Call.HandsBack : Call τ H → Prop
  | .nack _ | .push _ _ => True
  | .ack _ => False

/-- The pop of a message that is in the queue. -/
def popped (P : Platform H) (c : Consumer) (R : Replies) (data : Bytes) (token : Option τ)
    (w : World τ H) : Except Exn (Option (P.Request × Option τ)) × World τ H :=
  (processPop P c R (some data) token).run (w.take (some data) token)

/-- The pop hands the message back. -/
def HandedBack (P : Platform H) (c : Consumer) (R : Replies) (data : Bytes) (token : Option τ)
    (w : World τ H) : Prop :=
  ∃ l, (popped P c R data token w).2.calls = w.calls ++ l ∧ ∃ call ∈ l, call.HandsBack

/-- The envelope has the identity of this queue. -/
def AcceptedAsOwn (P : Platform H) (c : Consumer) (data : Bytes) : Prop :=
  ∃ d spider, Opens P c data d ∧ c.expectedSpider = some spider ∧ Stamped d spider c.projectName

/-- A message is handed back only if it is somebody's, and is not lost when that fails. -/
def HandBackSafe (P : Platform H) (c : Consumer) (R : Replies) (data : Bytes) (token : Option τ)
    (w : World τ H) : Prop :=
  HandedBack P c R data token w →
    (∃ owner : Consumer, AcceptedAsOwn P owner data) ∧
      (∀ e, (popped P c R data token w).1 = .error e →
        w.copies data ≤ (popped P c R data token w).2.copies data)

/-- The message is not foreign, or its stamps are a spider and a project and the hand-back does not
remove it. -/
def HandBackSound (P : Platform H) (c : Consumer) (R : Replies) (data : Bytes) (token : Option τ) :
    Prop :=
  ∀ d, Opens P c data d → ¬ Accepts c d →
    (∃ spider project, Stamped d spider project ∧ project ≠ []) ∧
      (token = none → ∀ interrupt, R.push ≠ .raises false interrupt)

/-- The consumer that an envelope is for. -/
def ownerOf (spider project : Str) (hproject : project ≠ []) (maxItemBytes : ℕ) : Consumer where
  spider := some ⟨some spider, fun _ ↦ .missing⟩
  projectName := project
  projectName_ne_nil := hproject
  allowCrossSpider := false
  maxItemBytes := maxItemBytes

theorem opens_ownerOf {data : Bytes} {d : Dict H} {spider project : Str} (h : Opens P c data d)
    (hproject : project ≠ []) : Opens P (ownerOf spider project hproject c.maxItemBytes) data d :=
  ⟨h.fits, h.reads⟩

/-- An acknowledgement apart, no call removes a message. -/
theorem copies_le_after (call : Call τ H) (h : call.HandsBack) (applied : Bool) (data : Bytes) :
    w.copies data ≤ (w.after call applied).copies data := by
  rcases applied with - | -
  · exact le_rfl
  rcases call with token | token | ⟨b, priority⟩
  · exact h.elim
  · have hsplit : ∀ l : List (τ × Option Bytes),
        (l.map Prod.snd).count (some data) =
          ((l.filter fun m ↦ m.1 = token).map Prod.snd).count (some data) +
            ((l.filter fun m ↦ m.1 ≠ token).map Prod.snd).count (some data) := by
      intro l
      induction l with
      | nil => rfl
      | cons m l ih =>
        by_cases hm : m.1 = token <;> simp only [List.map_cons, List.count_cons, hm, decide_true,
          decide_false, not_true_eq_false, not_false_eq_true, List.filter_cons, if_true, ne_eq, if_false,
          Bool.false_eq_true, ih] <;> omega
    simp only [World.after, if_true, Call.effect, World.copies, List.count_append]
    rw [hsplit w.unsettled]
    omega
  · simp only [World.after, if_true, Call.effect, World.copies, List.count_append]
    omega

/-- The call that hands an envelope back. -/
def handBackCall (P : Platform H) (data : Bytes) (token : Option τ) (d : Dict H) : Call τ H :=
  match token with
  | some token => .nack token
  | none => .push data (wirePriority P d)

/-- How it ends. -/
def handBackReply (R : Replies) (token : Option τ) : Reply := if token.isSome then R.nack else R.push

omit [DecidableEq τ] in
theorem handsBack_handBackCall (data : Bytes) (token : Option τ) (d : Dict H) :
    (handBackCall P data token d).HandsBack := by
  rcases token with - | token <;> exact trivial

/-- The queue after an envelope is handed back. -/
theorem handBack_copies (data b : Bytes) (token : Option τ) (d : Dict H) :
    wp (handBack P R data token d)
      (fun _ t ↦ t.copies b =
        (w.after (handBackCall P data token d) (handBackReply R token).applied).copies b)
      (fun _ t ↦ t.copies b =
        (w.after (handBackCall P data token d) (handBackReply R token).applied).copies b) w := by
  simp only [handBack, wp_bind, wp_except, wp_incStat]
  rcases token with - | token
  · rw [wp_attempt]
    rcases hpush : R.push with - | ⟨applied, interrupt⟩
    · simp only [handBackCall, handBackReply, Option.isSome_none, Bool.false_eq_true, if_false, hpush,
        Reply.applied, World.copies]
    · simp [handBackCall, handBackReply, hpush, Reply.applied]
  · rw [wp_attempt]
    rcases hnack : R.nack with - | ⟨applied, interrupt⟩
    · simp only [handBackCall, handBackReply, Option.isSome_some, if_true, hnack, Reply.applied,
        World.copies]
    · simp [handBackCall, handBackReply, hnack, Reply.applied]

/-- What a pop does with a foreign envelope. -/
theorem popped_foreign {data : Bytes} {token : Option τ} {d : Dict H} (hopens : Opens P c data d)
    (hnot : ¬ Accepts c d) :
    (popped P c R data token w).1 =
        Disposition.afterCall (handBackReply R token) (.ok none) (.error .queue) ∧
      (popped P c R data token w).2.calls = w.calls ++ [handBackCall P data token d] ∧
      (popped P c R data token w).2.copies data =
        ((w.take (some data) token).after (handBackCall P data token d)
          (handBackReply R token).applied).copies data := by
  have hdisposition : disposition P c (some data) = .handBack (wirePriority P d) :=
    (decided_disposition _).unique (.handBack hopens hnot)
  obtain ⟨hresult, hcalls⟩ :=
    run_processPop (P := P) (c := c) (R := R) (w := w.take (some data) token) (some data) token
  rw [hdisposition] at hresult hcalls
  refine ⟨hresult, ?_, ?_⟩
  · rw [popped, hcalls]
    rcases token with - | token <;> rfl
  · have hsuite : suite P c data = .mismatch d := by
      rcases suite_cases (P := P) (c := c) data with
        ⟨d', request, -, hopens', haccepts, -⟩ | ⟨d', hsuite, hopens', -⟩ | ⟨e, -, hpoison⟩
      · exact absurd (hopens.unique hopens' ▸ haccepts) hnot
      · rw [hsuite, hopens.unique hopens']
      · exact absurd (hpoison d hopens).1 hnot
    refine state_of_wp (S := fun t ↦ t.copies data = _) ?_
    rw [processPop, hsuite]
    dsimp only
    rw [wp_bind]
    exact handBack_copies data data token d

omit [DecidableEq τ] in
/-- A pop without a token removes a message, and one with a token does not. -/
theorem copies_take {data : Bytes} (h : some data ∈ w.available) (token : Option τ) :
    (w.take (some data) token).copies data + (if token.isSome then 0 else 1) = w.copies data := by
  have hpos := List.count_pos_iff.2 h
  rcases token with - | token
  · simp only [World.take, World.copies, List.count_erase_self, Option.toList_none, List.map_nil,
      List.append_nil, Option.isSome_none, Bool.false_eq_true, if_false]
    omega
  · simp only [World.take, World.copies, List.count_erase_self, Option.toList_some, List.map_cons,
      List.map_nil, List.map_append, List.count_append, List.count_singleton_self, Option.isSome_some,
      if_true]
    omega

/-- A message that is not foreign is not handed back. -/
theorem not_handedBack {data : Bytes} {token : Option τ}
    (h : ∀ d, Opens P c data d → Accepts c d) : ¬ HandedBack P c R data token w := by
  rintro ⟨l, hl, call, hcall, hback⟩
  have hcalls := (run_processPop (P := P) (c := c) (R := R) (w := w.take (some data) token)
    (some data) token).2
  obtain rfl : l = (disposition P c (some data)).calls R (some data) token :=
    List.append_cancel_left (hl.symm.trans hcalls)
  have hnot : ∀ priority, disposition P c (some data) ≠ .handBack priority := by
    intro priority heq
    have hdecided := decided_disposition (P := P) (c := c) (some data)
    rw [heq] at hdecided
    obtain - | - | ⟨hopens, hforeign⟩ := hdecided
    exact hforeign (h _ hopens)
  have htombstone : disposition P c (some data) ≠ .tombstone := by
    intro heq
    have hdecided := decided_disposition (P := P) (c := c) (some data)
    rw [heq] at hdecided
    exact nomatch hdecided
  rcases call with t | t | ⟨b, priority⟩
  · exact hback
  · rcases Disposition.of_nack_mem hcall with ⟨priority, heq⟩ | ⟨heq, -⟩
    · exact hnot priority heq
    · exact htombstone heq
  · exact hnot priority (Disposition.of_push_mem hcall).1

/-- An envelope that is handed back safely has an owner, and is kept. -/
theorem handBackSound_of_safe {data : Bytes} {token : Option τ} (h : some data ∈ w.available)
    (hsafe : HandBackSafe P c R data token w) : HandBackSound P c R data token := by
  have htake := copies_take h token
  intro d hopens hnot
  obtain ⟨hresult, hcalls, hcopies⟩ := @popped_foreign _ _ _ _ _ R w _ token _ hopens hnot
  have hback : HandedBack P c R data token w :=
    ⟨_, hcalls, _, List.mem_singleton_self _, handsBack_handBackCall data token d⟩
  obtain ⟨⟨owner, d', spider, hopens', -, hstamped⟩, hkept⟩ := hsafe hback
  refine ⟨⟨spider, owner.projectName, hopens'.unique hopens ▸ hstamped, owner.projectName_ne_nil⟩, ?_⟩
  rintro rfl interrupt hpush
  -- the message was removed, and the push that fails does not bring it back
  have hreply : handBackReply R (none : Option τ) = .raises false interrupt := hpush
  rw [hreply] at hresult hcopies
  obtain ⟨e, he⟩ : ∃ e, (popped P c R data none w).1 = .error e := by
    rw [hresult]
    rcases interrupt with - | -
    · exact ⟨_, rfl⟩
    · exact ⟨_, rfl⟩
  have hle := hkept e he
  rw [hcopies] at hle
  have hsame : ((w.take (some data) none).after (handBackCall P data none d)
      (Reply.raises false interrupt).applied).copies data =
        (w.take (some data) (none : Option τ)).copies data := rfl
  rw [hsame] at hle
  simp only [Option.isSome_none, Bool.false_eq_true, if_false] at htake
  omega

theorem handBackSafe_of_sound {data : Bytes} {token : Option τ} (h : some data ∈ w.available)
    (hsound : HandBackSound P c R data token) : HandBackSafe P c R data token w := by
  have htake := copies_take h token
  intro hback
  by_cases hforeign : ∀ d, Opens P c data d → Accepts c d
  · exact absurd hback (not_handedBack hforeign)
  push Not at hforeign
  obtain ⟨d, hopens, hnot⟩ := hforeign
  obtain ⟨⟨spider, project, hstamped, hproject⟩, hpush⟩ := hsound d hopens hnot
  refine ⟨⟨ownerOf spider project hproject c.maxItemBytes, d, spider, opens_ownerOf hopens hproject, rfl,
    hstamped⟩, fun e he ↦ ?_⟩
  obtain ⟨-, -, hcopies⟩ := @popped_foreign _ _ _ _ _ R w _ token _ hopens hnot
  rw [hcopies]
  rcases token with - | token
  · have happlied : R.push.applied = true := by
      rcases hreply : R.push with - | ⟨- | -, interrupt⟩
      · rfl
      · exact absurd hreply (hpush rfl interrupt)
      · rfl
    have hreply : handBackReply R (none : Option τ) = R.push := rfl
    rw [hreply, happlied]
    simp only [Option.isSome_none, Bool.false_eq_true, if_false] at htake
    simp only [World.after, if_true, handBackCall, Call.effect, World.copies, List.count_append,
      List.count_singleton_self] at htake ⊢
    omega
  · simp only [Option.isSome_some, if_true, Nat.add_zero] at htake
    rw [← htake]
    exact copies_le_after _ (handsBack_handBackCall data (some token) d) _ data

/-- Foreign envelopes are handed back safely just when their stamps name a consumer and the hand-back
keeps the message. -/
theorem hand_back_safe_iff {data : Bytes} (token : Option τ) (h : some data ∈ w.available) :
    HandBackSafe P c R data token w ↔ HandBackSound P c R data token :=
  ⟨handBackSound_of_safe h, handBackSafe_of_sound h⟩

/-! ## Two envelopes -/

/-- A Scrapy without attributes. -/
def samplePlatform : Platform sampleHost where
  Request := Unit
  attributes := fun _ ↦ []
  construct := fun _ _ ↦ some ()
  integer? := fun _ ↦ none
  zero := ()

/-- The queue of the spider `b`. -/
def reader : Consumer where
  spider := some ⟨some (Py.str "b"), fun _ ↦ .missing⟩
  projectName := Py.str "shop"
  projectName_ne_nil := by decide
  allowCrossSpider := false
  maxItemBytes := 1048576

/-- The bytes of a dict. -/
def payload (d : Dict sampleHost) : Bytes := (serialize (.dict d)).toOption.getD []

/-- An envelope whose stamp is no text. -/
def damagedEnvelope : Dict sampleHost :=
  [(.str (Py.str envelopeSpiderField), .int 1),
    (.str (Py.str envelopeProjectField), .str (Py.str "shop"))]

/-- An envelope of the spider `a`. -/
def foreignEnvelope : Dict sampleHost :=
  [(.str (Py.str envelopeSpiderField), .str (Py.str "a")),
    (.str (Py.str envelopeProjectField), .str (Py.str "shop"))]

theorem opens_payload {d : Dict sampleHost} (hd : Supported (H := sampleHost) (.dict d))
    (hlength : (payload d).length ≤ 1048576) (hpriority : d.get "priority" = .none) :
    Opens samplePlatform reader (payload d) d := by
  obtain ⟨data, hserialize, hdeserialize⟩ := hd.stable.roundTrip sampleHost_faithful
  have hpayload : payload d = data := by
    rw [payload, hserialize]
    rfl
  exact ⟨hlength, d, hpayload ▸ hdeserialize, .absent hpriority⟩

theorem opens_damagedEnvelope : Opens samplePlatform reader (payload damagedEnvelope) damagedEnvelope :=
  opens_payload
    ⟨by decide, ⟨_, rfl, by decide⟩, trivial, ⟨_, rfl, by decide⟩, (by decide : (Py.str "shop").IsScalar),
      trivial⟩
    (by decide +kernel) rfl

theorem opens_foreignEnvelope : Opens samplePlatform reader (payload foreignEnvelope) foreignEnvelope :=
  opens_payload
    ⟨by decide, ⟨_, rfl, by decide⟩, (by decide : (Py.str "a").IsScalar), ⟨_, rfl, by decide⟩,
      (by decide : (Py.str "shop").IsScalar), trivial⟩
    (by decide +kernel) rfl

theorem not_accepts_damagedEnvelope : ¬ Accepts reader damagedEnvelope := by
  intro h
  rw [← validateEnvelopeIdentity_ok_iff] at h
  exact nomatch h

theorem not_accepts_foreignEnvelope : ¬ Accepts reader foreignEnvelope := by
  intro h
  rw [← validateEnvelopeIdentity_ok_iff] at h
  exact nomatch h

/-- A queue with one message. -/
def oneMessage (data : Bytes) : World Unit sampleHost := ⟨[some data], [], [], []⟩

/-- With a token, an envelope of another spider is handed back safely even if the nack fails. -/
theorem foreign_envelope_kept :
    HandBackSafe samplePlatform reader ⟨.returns, .raises false false, .returns⟩
      (payload foreignEnvelope) (some ()) (oneMessage (payload foreignEnvelope)) := by
  refine (hand_back_safe_iff (some ()) List.mem_cons_self).2 fun d hopens hnot ↦ ⟨?_, nofun⟩
  obtain rfl := opens_foreignEnvelope.unique hopens
  exact ⟨Py.str "a", Py.str "shop", ⟨rfl, rfl⟩, by decide⟩

/-- An envelope with a damaged stamp is nacked though nobody reads it, and a foreign one without a token
is lost when its push fails. -/
theorem foreign_envelope_lost :
    ¬ HandBackSafe samplePlatform reader ⟨.returns, .returns, .returns⟩
        (payload damagedEnvelope) (some ()) (oneMessage (payload damagedEnvelope)) ∧
      ¬ HandBackSafe samplePlatform reader ⟨.returns, .returns, .raises false false⟩
        (payload foreignEnvelope) none (oneMessage (payload foreignEnvelope)) := by
  constructor
  · intro hsafe
    obtain ⟨⟨spider, project, ⟨hspider, -⟩, -⟩, -⟩ :=
      handBackSound_of_safe List.mem_cons_self hsafe _ opens_damagedEnvelope not_accepts_damagedEnvelope
    exact nomatch hspider
  · intro hsafe
    exact (handBackSound_of_safe List.mem_cons_self hsafe _ opens_foreignEnvelope
      not_accepts_foreignEnvelope).2 rfl false rfl

end Pop

end ScrapyExtension
