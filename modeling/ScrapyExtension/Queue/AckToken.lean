import Mathlib.Tactic
import ScrapyExtension.Machine.Basic
import ScrapyExtension.Machine.Threads

/-!
# The token of a delivery

A delivery is settled through a `_BoundQueueAckToken`, by whoever comes first: a signal of the
crawler, the push of a replacement, or a direct call. `_settle` reserves the token under its lock,
calls the backend without it, and then either makes the token terminal or gives the reservation back.

Above the token the scheduler claims it for one signal at a time, since the settlement of a signal
runs on a worker thread while the token stays on the request. Requests are copied, token included, by
the middlewares, so that several copies carry it.

## Calls

Every call of `ack` or `nack` is an entry of a list, with the place where it is. A re-entrant call,
made from within the backend call of another one, is an entry like any other.
-/

namespace ScrapyExtension

namespace AckToken

/-- `ack` or `nack` -/
inductive Terminal
  | acked
  | nacked
deriving DecidableEq, Repr

/-- Who calls. -/
inductive Driver
  /-- `token.ack()` or `token.nack()`, or the queue with the token -/
  | direct
  /-- A signal while no reactor runs, for this copy of the request. -/
  | signal (copy : ℕ)
  /-- A signal under a reactor, which claimed the token for this copy. -/
  | claimed (copy : ℕ)
  /-- The push of this copy as the replacement. -/
  | replacement (copy : ℕ)
deriving DecidableEq, Repr

/-- Where a call is. -/
inductive Stage
  /-- Before the first section of `_settle`. -/
  | entered
  /-- The token is reserved, and the backend is called. -/
  | calling
  /-- The backend returned, and the token is not yet terminal. -/
  | succeeded
  /-- The backend raised, and the reservation is not yet given back. -/
  | failing
  /-- The call returned, and its caller has not seen that. -/
  | returned
  /-- The call raised, and its caller has not seen that. -/
  | raised
  | ended
deriving DecidableEq, Repr

/-- A call of `ack` or `nack`. -/
structure Call where
  driver : Driver
  terminal : Terminal
  stage : Stage
deriving DecidableEq, Repr

/-- The call has reserved the token. -/
def Call.Reserves (c : Call) : Bool :=
  c.stage = .calling ∨ c.stage = .succeeded ∨ c.stage = .failing

/-- The call is one of a claim that is not released. -/
def Call.Claims (c : Call) : Bool :=
  match c.driver with
  | .claimed _ => c.stage ≠ .ended
  | _ => false

/-- What a token is bound to. -/
structure Delivery (β τ : Type) where
  /-- `_backend` -/
  backend : β
  /-- `_queue_name` -/
  queueName : String
  /-- `_token` -/
  token : τ
deriving DecidableEq

variable {β τ : Type}

/-- The token, the claims of the scheduler, the copies of the request and the calls. -/
structure State (β τ : Type) where
  /-- What the token is bound to. -/
  bound : Delivery β τ
  /-- `_state`, where `none` is pending -/
  state : Option Terminal
  /-- `_settlement_in_progress` -/
  settlementInProgress : Bool
  /-- The token is in `_settlement_claims`. -/
  claimed : Bool
  /-- For each copy of the request, whether its meta has the token. -/
  carries : List Bool
  /-- Calls of `ack` and `nack`. -/
  calls : List Call
  /-- Calls of the backend, with what was asked and of whom. -/
  settlements : List (Delivery β τ × Terminal)
  /-- How many calls of the backend returned. -/
  successes : ℕ
deriving DecidableEq

/-- What can happen. -/
inductive Label
  /-- A copy of a request is made. -/
  | copy (i : ℕ)
  /-- `_claim_request_settlement`, and the start of a worker, which may fail -/
  | claim (i : ℕ) (terminal : Terminal) (started : Bool)
  /-- A call that needs no claim. -/
  | call (driver : Driver) (terminal : Terminal)
  /-- The queue does not admit the call. -/
  | reject (n : ℕ)
  /-- The first section of `_settle` -/
  | reserve (n : ℕ)
  /-- The call of the backend ends. -/
  | backend (n : ℕ) (returns : Bool)
  /-- The last section of `_settle` -/
  | conclude (n : ℕ)
  /-- The caller goes on. -/
  | proceed (n : ℕ)

namespace State

/-- A token that was just issued, on one request. -/
def issue (d : Delivery β τ) : State β τ := ⟨d, none, false, false, [true], [], [], 0⟩

/-- The copy of the request has the token. -/
def Carries (s : State β τ) (i : ℕ) : Prop := s.carries[i]? = some true

instance (s : State β τ) (i : ℕ) : Decidable (s.Carries i) := inferInstanceAs (Decidable (_ = _))

/-- The call goes on. -/
def goto (s : State β τ) (n : ℕ) (c : Call) (stage : Stage) : State β τ :=
  { s with calls := s.calls.set n { c with stage } }

/-- A new call. -/
def enter (s : State β τ) (driver : Driver) (terminal : Terminal) : State β τ :=
  { s with calls := s.calls ++ [⟨driver, terminal, .entered⟩] }

/-- `_claim_request_settlement`, and the start of a worker -/
def claim (s : State β τ) (i : ℕ) (terminal : Terminal) (started : Bool) : State β τ :=
  if s.Carries i ∧ s.claimed = false then
    if started then { s.enter (.claimed i) terminal with claimed := true } else s
  else s

/-- The first section of `_settle`: a call that finds the token settled or reserved returns. -/
def reserve (s : State β τ) (n : ℕ) (c : Call) : State β τ :=
  if s.state ≠ none ∨ s.settlementInProgress = true then s.goto n c .returned
  else
    { s.goto n c .calling with
      settlementInProgress := true
      settlements := s.settlements ++ [(s.bound, c.terminal)] }

/-- The call of the backend ends. -/
def backendEnds (s : State β τ) (n : ℕ) (c : Call) (returns : Bool) : State β τ :=
  if returns then { s.goto n c .succeeded with successes := s.successes + 1 }
  else s.goto n c .failing

/-- The last section of `_settle` -/
def conclude (s : State β τ) (n : ℕ) (c : Call) : Option (State β τ) :=
  match c.stage with
  | .succeeded =>
    some { s.goto n c .returned with state := some c.terminal, settlementInProgress := false }
  | .failing => some { s.goto n c .raised with settlementInProgress := false }
  | _ => none

/-- `_remove_request_token_if_same` -/
def removeToken (s : State β τ) (i : ℕ) : State β τ := { s with carries := s.carries.set i false }

/-- What the caller does with a call that returned. -/
def onReturn (s : State β τ) : Driver → State β τ
  | .direct => s
  | .signal i | .replacement i => s.removeToken i
  -- `_complete_claimed_request_token`
  | .claimed i => { s.removeToken i with claimed := false }

/-- What the caller does with a call that raised. -/
def onRaise (s : State β τ) : Driver → State β τ
  -- `_release_settlement_claim`
  | .claimed _ => { s with claimed := false }
  | _ => s

/-- The caller goes on. -/
def proceed (s : State β τ) (n : ℕ) (c : Call) : Option (State β τ) :=
  match c.stage with
  | .returned => some ((s.goto n c .ended).onReturn c.driver)
  | .raised => some ((s.goto n c .ended).onRaise c.driver)
  | _ => none

/-- A call that needs no claim comes from a copy with the token, or is direct. -/
def MayCall (s : State β τ) : Driver → Prop
  | .direct => True
  | .signal i | .replacement i => s.Carries i
  | .claimed _ => False

instance (s : State β τ) (driver : Driver) : Decidable (s.MayCall driver) := by
  cases driver <;> unfold MayCall <;> infer_instance

/-- One step. -/
def step (s : State β τ) : Label → Option (State β τ)
  | .copy i => s.carries[i]?.map fun b ↦ { s with carries := s.carries ++ [b] }
  | .claim i terminal started => some (s.claim i terminal started)
  | .call driver terminal => if s.MayCall driver then some (s.enter driver terminal) else none
  | .reject n => s.calls[n]?.bind fun c ↦
      if c.stage = .entered then some (s.goto n c .raised) else none
  | .reserve n => s.calls[n]?.bind fun c ↦
      if c.stage = .entered then some (s.reserve n c) else none
  | .backend n returns => s.calls[n]?.bind fun c ↦
      if c.stage = .calling then some (s.backendEnds n c returns) else none
  | .conclude n => s.calls[n]?.bind fun c ↦ s.conclude n c
  | .proceed n => s.calls[n]?.bind fun c ↦ s.proceed n c

end State

/-- A delivery and everyone who settles it, as a machine. -/
def machine (d : Delivery β τ) : Machine (State β τ) Label where
  init := State.issue d
  step := State.step

/-! ## The invariant -/

/-- The backend returned, and the token is not yet terminal. -/
def Call.Succeeded (c : Call) : Bool := c.stage = .succeeded

/-- The invariant: each flag counts calls. -/
structure State.Inv (d : Delivery β τ) (s : State β τ) : Prop where
  bound : s.bound = d
  settlements : ∀ x ∈ s.settlements, x.1 = d
  reserved : s.calls.countP Call.Reserves = s.settlementInProgress.toNat
  claims : s.calls.countP Call.Claims = s.claimed.toNat
  successes : s.successes = s.state.isSome.toNat + s.calls.countP Call.Succeeded
  terminal : s.state ≠ none → s.settlementInProgress = false

namespace State

variable {d : Delivery β τ} {s t : State β τ} {n : ℕ} {c : Call}

theorem Inv.issue (d : Delivery β τ) : (issue d).Inv d :=
  ⟨rfl, nofun, rfl, rfl, rfl, fun h ↦ absurd rfl h⟩

/-- A step of one call keeps the invariant if the flags change with what the call counts for. -/
theorem Inv.update (h : s.Inv d) (hn : s.calls[n]? = some c) (stage : Stage)
    (hcalls : t.calls = s.calls.set n { c with stage }) (hbound : t.bound = s.bound)
    (hsettlements : ∀ x ∈ t.settlements, x.1 = d)
    (hreserved : t.settlementInProgress.toNat + c.Reserves.toNat =
      s.settlementInProgress.toNat + (Call.Reserves { c with stage }).toNat)
    (hclaims : t.claimed.toNat + c.Claims.toNat =
      s.claimed.toNat + (Call.Claims { c with stage }).toNat)
    (hsuccesses : t.successes + s.state.isSome.toNat + c.Succeeded.toNat =
      s.successes + t.state.isSome.toNat + (Call.Succeeded { c with stage }).toNat)
    (hterminal : t.state ≠ none → t.settlementInProgress = false) : t.Inv d := by
  have hr := List.countP_set_add (b := { c with stage }) Call.Reserves hn
  have hc := List.countP_set_add (b := { c with stage }) Call.Claims hn
  have hs := List.countP_set_add (b := { c with stage }) Call.Succeeded hn
  rw [← hcalls] at hr hc hs
  have := h.reserved
  have := h.claims
  have := h.successes
  exact ⟨hbound.trans h.bound, hsettlements, by omega, by omega, by omega, hterminal⟩

theorem Inv.enter (h : s.Inv d) {driver : Driver} {terminal : Terminal}
    (hd : ∀ i, driver ≠ .claimed i) : (s.enter driver terminal).Inv d := by
  have hclaims : Call.Claims ⟨driver, terminal, .entered⟩ = false := by
    cases driver with
    | claimed i => exact absurd rfl (hd i)
    | _ => rfl
  refine ⟨h.bound, h.settlements, ?_, ?_, ?_, h.terminal⟩
  · rw [State.enter, List.countP_concat, h.reserved]
    rfl
  · rw [State.enter, List.countP_concat, h.claims, hclaims]
    rfl
  · rw [State.enter, List.countP_concat, h.successes]
    rfl

theorem Inv.claim (h : s.Inv d) (i : ℕ) (terminal : Terminal) (started : Bool) :
    (s.claim i terminal started).Inv d := by
  unfold State.claim
  split
  · rename_i hcond
    split
    · refine ⟨h.bound, h.settlements, ?_, ?_, ?_, h.terminal⟩
      · rw [State.enter, List.countP_concat, h.reserved]
        rfl
      · rw [State.enter, List.countP_concat, h.claims, hcond.2]
        rfl
      · rw [State.enter, List.countP_concat, h.successes]
        rfl
    · exact h
  · exact h

theorem Call.claims_of_stage {c : Call} {stage : Stage} (hc : c.stage ≠ .ended)
    (hs : stage ≠ .ended) : Call.Claims { c with stage } = c.Claims := by
  simp [Call.Claims, hc, hs]

theorem Inv.reject (h : s.Inv d) (hn : s.calls[n]? = some c) (hc : c.stage = .entered) :
    (s.goto n c .raised).Inv d :=
  h.update hn .raised rfl rfl h.settlements (by simp [State.goto, Call.Reserves, hc])
    (by simp [State.goto, Call.claims_of_stage, hc]) (by simp [State.goto, Call.Succeeded, hc])
    h.terminal

theorem Inv.reserve (h : s.Inv d) (hn : s.calls[n]? = some c) (hc : c.stage = .entered) :
    (s.reserve n c).Inv d := by
  unfold State.reserve
  split
  · exact h.update hn .returned rfl rfl h.settlements (by simp [State.goto, Call.Reserves, hc])
      (by simp [State.goto, Call.claims_of_stage, hc]) (by simp [State.goto, Call.Succeeded, hc])
      h.terminal
  · rename_i hfree
    have hprogress : s.settlementInProgress = false := by simpa using fun hp ↦ hfree (.inr hp)
    have hstate : s.state = none := not_not.1 fun hs ↦ hfree (.inl hs)
    refine h.update hn .calling rfl rfl (fun x hx ↦ ?_) (by simp [Call.Reserves, hc, hprogress])
      (by simp [State.goto, Call.claims_of_stage, hc]) (by simp [State.goto, Call.Succeeded, hc])
      fun hs ↦ absurd hstate hs
    rcases List.mem_append.1 hx with hx | hx
    · exact h.settlements x hx
    · rw [List.mem_singleton.1 hx]
      exact h.bound

/-- While a call has the token reserved, the token is not terminal. -/
theorem Inv.pending_of_reserves (h : s.Inv d) (hn : s.calls[n]? = some c)
    (hc : c.Reserves = true) : s.settlementInProgress = true ∧ s.state = none := by
  have hle := List.toNat_le_countP Call.Reserves hn
  rw [h.reserved, hc] at hle
  have hprogress : s.settlementInProgress = true := by
    cases hp : s.settlementInProgress with
    | true => rfl
    | false => simp [hp] at hle
  refine ⟨hprogress, not_not.1 fun hs ↦ ?_⟩
  simp [h.terminal hs] at hprogress

theorem Inv.backendEnds (h : s.Inv d) (hn : s.calls[n]? = some c) (hc : c.stage = .calling)
    (returns : Bool) : (s.backendEnds n c returns).Inv d := by
  cases returns with
  | true =>
    exact h.update hn .succeeded rfl rfl h.settlements
      (by simp [State.backendEnds, State.goto, Call.Reserves, hc])
      (by simp [State.backendEnds, State.goto, Call.claims_of_stage, hc])
      (by simp [State.backendEnds, State.goto, Call.Succeeded, hc]; omega) h.terminal
  | false =>
    exact h.update hn .failing rfl rfl h.settlements
      (by simp [State.backendEnds, State.goto, Call.Reserves, hc])
      (by simp [State.backendEnds, State.goto, Call.claims_of_stage, hc])
      (by simp [State.backendEnds, State.goto, Call.Succeeded, hc]) h.terminal

theorem Inv.conclude (h : s.Inv d) (hn : s.calls[n]? = some c) (ht : s.conclude n c = some t) :
    t.Inv d := by
  unfold State.conclude at ht
  split at ht
  · rename_i hc
    obtain ⟨⟩ := ht
    obtain ⟨hprogress, hstate⟩ := h.pending_of_reserves hn (by simp [Call.Reserves, hc])
    exact h.update hn .returned rfl rfl h.settlements (by simp [Call.Reserves, hc, hprogress])
      (by simp [State.goto, Call.claims_of_stage, hc])
      (by simp [State.goto, Call.Succeeded, hc, hstate]) fun _ ↦ rfl
  · rename_i hc
    obtain ⟨⟩ := ht
    obtain ⟨hprogress, hstate⟩ := h.pending_of_reserves hn (by simp [Call.Reserves, hc])
    exact h.update hn .raised rfl rfl h.settlements (by simp [Call.Reserves, hc, hprogress])
      (by simp [State.goto, Call.claims_of_stage, hc])
      (by simp [State.goto, Call.Succeeded, hc]) fun _ ↦ rfl
  · simp at ht

/-- The caller of a finished call goes on; a claim ends with its call. -/
theorem Inv.ended (h : s.Inv d) (hn : s.calls[n]? = some c)
    (hc : c.stage = .returned ∨ c.stage = .raised) {carries : List Bool} {claimed : Bool}
    (hclaimed : claimed.toNat + c.Claims.toNat = s.claimed.toNat) :
    Inv d { s.goto n c .ended with carries, claimed } := by
  refine h.update hn .ended rfl rfl h.settlements ?_ ?_ ?_ h.terminal
  · rcases hc with hc | hc <;> simp [State.goto, Call.Reserves, hc]
  · have hend : Call.Claims { c with stage := .ended } = false := by
      unfold Call.Claims
      split <;> simp
    simpa [hend] using hclaimed
  · rcases hc with hc | hc <;> simp [State.goto, Call.Succeeded, hc]

theorem Inv.proceed (h : s.Inv d) (hn : s.calls[n]? = some c) (ht : s.proceed n c = some t) :
    t.Inv d := by
  have hclaim : ∀ i, c.driver = .claimed i → c.stage ≠ .ended → s.claimed = true := by
    intro i hd hs
    have hle := List.toNat_le_countP Call.Claims hn
    rw [h.claims] at hle
    cases hcl : s.claimed with
    | true => rfl
    | false => simp [Call.Claims, hd, hs, hcl] at hle
  unfold State.proceed at ht
  split at ht
  · rename_i hc
    obtain ⟨⟩ := ht
    cases hd : c.driver with
    | claimed i => exact h.ended hn (.inl hc) (by simp [Call.Claims, hd, hc, hclaim i hd])
    | _ => exact h.ended hn (.inl hc) (by simp [Call.Claims, hd, State.goto])
  · rename_i hc
    obtain ⟨⟩ := ht
    cases hd : c.driver with
    | claimed i => exact h.ended hn (.inr hc) (by simp [Call.Claims, hd, hc, hclaim i hd])
    | _ => exact h.ended hn (.inr hc) (by simp [Call.Claims, hd])
  · simp at ht

theorem Inv.step (h : s.Inv d) {label : Label} (ht : s.step label = some t) : t.Inv d := by
  cases label with
  | copy i =>
    obtain ⟨b, -, rfl⟩ := Option.map_eq_some_iff.1 ht
    exact ⟨h.bound, h.settlements, h.reserved, h.claims, h.successes, h.terminal⟩
  | claim i terminal started =>
    obtain ⟨⟩ := ht
    exact h.claim i terminal started
  | call driver terminal =>
    obtain ⟨hmay, ⟨⟩⟩ := Option.ite_none_right_eq_some.1 ht
    refine h.enter fun i hd ↦ ?_
    rw [hd] at hmay
    exact hmay
  | reject n =>
    obtain ⟨c, hn, ht⟩ := Option.bind_eq_some_iff.1 ht
    obtain ⟨hc, ⟨⟩⟩ := Option.ite_none_right_eq_some.1 ht
    exact h.reject hn hc
  | reserve n =>
    obtain ⟨c, hn, ht⟩ := Option.bind_eq_some_iff.1 ht
    obtain ⟨hc, ⟨⟩⟩ := Option.ite_none_right_eq_some.1 ht
    exact h.reserve hn hc
  | backend n returns =>
    obtain ⟨c, hn, ht⟩ := Option.bind_eq_some_iff.1 ht
    obtain ⟨hc, ⟨⟩⟩ := Option.ite_none_right_eq_some.1 ht
    exact h.backendEnds hn hc returns
  | conclude n =>
    obtain ⟨c, hn, ht⟩ := Option.bind_eq_some_iff.1 ht
    exact h.conclude hn ht
  | proceed n =>
    obtain ⟨c, hn, ht⟩ := Option.bind_eq_some_iff.1 ht
    exact h.proceed hn ht

end State

theorem inv_of_reachable {d : Delivery β τ} {s : State β τ} (h : (machine d).Reachable s) :
    s.Inv d :=
  h.invariant (I := fun s ↦ s.Inv d) (.issue d) fun _ _ _ hs ht ↦ hs.step ht

/-! ## Single settlement -/

/-- The next call of `ack` or `nack` reaches the backend. -/
def State.Settleable (s : State β τ) : Prop := s.state = none ∧ s.settlementInProgress = false

/-- What holds in every reachable state. -/
structure State.SettledOnce (d : Delivery β τ) (s : State β τ) : Prop where
  /-- At most one call of the backend succeeds. -/
  once : s.successes ≤ 1
  /-- A terminal token had its success. -/
  terminal : s.state ≠ none → s.successes = 1
  /-- No two settlements are in flight. -/
  exclusive : s.calls.countP Call.Reserves ≤ 1
  /-- Every settlement goes to the backend and the queue that issued the delivery. -/
  bound : ∀ x ∈ s.settlements, x.1 = d
  /-- A token without a success and without a settlement in flight is settleable. -/
  settleable : s.successes = 0 → s.calls.countP Call.Reserves = 0 → s.Settleable
  /-- The end of a failed settlement makes the token settleable again. -/
  failed : ∀ n c t, s.calls[n]? = some c → c.stage = .failing → s.step (.conclude n) = some t →
    t.Settleable
  /-- The caller of a failed settlement leaves the token on its request and gives up its claim. -/
  released : ∀ n c t, s.calls[n]? = some c → c.stage = .raised → s.step (.proceed n) = some t →
    t.carries = s.carries ∧ ((∃ i, c.driver = .claimed i) → t.claimed = false)
  /-- The token is claimed only as long as the settlement of the claim is under way. -/
  claims : s.calls.countP Call.Claims = s.claimed.toNat

/-- For any interleaving and re-entrant calls of `ack` and `nack`. -/
theorem settledOnce_of_reachable (d : Delivery β τ) (s : State β τ)
    (h : (machine d).Reachable s) : s.SettledOnce d := by
  have hinv := inv_of_reachable h
  have hle : s.calls.countP Call.Succeeded ≤ s.calls.countP Call.Reserves := by
    refine List.countP_mono_left fun c _ hc ↦ ?_
    have hc : c.stage = .succeeded := by simpa [Call.Succeeded] using hc
    simp [Call.Reserves, hc]
  have hreserved := hinv.reserved
  have hsuccesses := hinv.successes
  have hbool : s.settlementInProgress.toNat ≤ 1 := Bool.toNat_le _
  have hterm : s.state ≠ none → s.settlementInProgress.toNat = 0 := fun hs ↦ by
    rw [hinv.terminal hs]
    rfl
  have hsome : s.state ≠ none → s.state.isSome.toNat = 1 := fun hs ↦ by
    rw [Option.isSome_iff_ne_none.2 hs]
    rfl
  refine ⟨?_, fun hs ↦ ?_, by omega, hinv.settlements, fun h₀ hr ↦ ⟨?_, ?_⟩, ?_, ?_, hinv.claims⟩
  · by_cases hs : s.state = none
    · simp only [hs, Option.isSome_none, Bool.toNat_false] at hsuccesses
      omega
    · have := hterm hs
      have := hsome hs
      omega
  · have := hterm hs
    have := hsome hs
    omega
  · by_contra hs
    have := hsome hs
    omega
  · cases hp : s.settlementInProgress with
    | false => rfl
    | true => simp [hp] at hreserved; omega
  · intro n c t hn hc ht
    obtain ⟨hprogress, hstate⟩ := hinv.pending_of_reserves hn (by simp [Call.Reserves, hc])
    simp only [State.step, hn, Option.bind_some, State.conclude, hc] at ht
    obtain ⟨⟩ := ht
    exact ⟨hstate, rfl⟩
  · intro n c t hn hc ht
    simp only [State.step, hn, Option.bind_some, State.proceed, hc] at ht
    obtain ⟨⟩ := ht
    cases hd : c.driver with
    | claimed i => exact ⟨rfl, fun _ ↦ rfl⟩
    | _ => exact ⟨rfl, fun ⟨i, hi⟩ ↦ nomatch hi⟩

/-- A signal's ack fails, and the replacement of a copy settles the delivery. -/
theorem settledOnce_of_reachable_retry :
    ∃ s : State ℕ ℕ, s.state = some .acked ∧ s.settlements.length = 2 ∧ s.carries = [true, false] ∧
      s.SettledOnce ⟨7, "q", 3⟩ := by
  refine ⟨⟨⟨7, "q", 3⟩, some .acked, false, false, [true, false],
    [⟨.claimed 0, .acked, .ended⟩, ⟨.replacement 1, .acked, .ended⟩],
    [(⟨7, "q", 3⟩, .acked), (⟨7, "q", 3⟩, .acked)], 1⟩, rfl, rfl, rfl,
    settledOnce_of_reachable _ _ ⟨[.copy 0, .claim 0 .acked true, .call (.replacement 1) .acked,
      .reserve 0, .backend 0 false, .conclude 0, .proceed 0, .reserve 1, .backend 1 true, .conclude 1,
      .proceed 1], ?_⟩⟩
  decide +kernel

end AckToken

end ScrapyExtension
