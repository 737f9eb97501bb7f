import Mathlib.Tactic
import ScrapyExtension.Backends.Elasticsearch.Responses
import ScrapyExtension.Machine.Basic
import ScrapyExtension.Machine.Threads

/-!
# The pop of the Elasticsearch backend

A pop refreshes the index, searches it, and deletes what it found, on the condition that the document is
still the version that it saw. When the delete is refused because of that condition the pop starts again,
three times at most.

## The service

A search sees the documents of the last refresh, whoever asked for it. A conditional delete is applied once
at most, at any time after it was sent and possibly after its caller has got an answer, and only to the
version that it names. What the service may answer is whatever does not contradict that: a search that
proves its result shows what a search sees, and a delete that is acknowledged was applied. Everything else
is open, and so any answer may be an error, whether or not the request was applied.

Identifiers of documents are random, and no two pushes draw the same one.
-/

namespace ScrapyExtension

open Py Json

namespace Elasticsearch

/-! ## State -/

/-- A document of the index of the queues. -/
structure Document where
  id : Str
  seqNo : ℤ
  primaryTerm : ℤ
  queueName : Str
  item : Bytes
deriving DecidableEq

/-- What a pop makes of the document. -/
def Document.hit (d : Document) : Hit := ⟨d.id, d.seqNo, d.primaryTerm, d.item⟩

inductive Result
  | returned (hit : Hit)
  | none
  /-- `QueueError` -/
  | queueError
  /-- `QueueOutcomeIndeterminateError` -/
  | indeterminate
deriving DecidableEq

inductive Stage
  | refresh
  | search
  /-- Waiting for the answer to a delete. -/
  | delete (request : ℕ)
  | done (result : Result)
deriving DecidableEq

/-- What has been shown to a pop, whatever it makes of it. -/
inductive Sight
  /-- A search was answered while it saw no document of the queue. -/
  | empty
  /-- A refresh or a search was answered with 404. -/
  | missing
  /-- A delete was answered with 404 or 409. -/
  | lost
deriving DecidableEq

structure Pop where
  queueName : Str
  /-- The attempts that are over. -/
  attempts : ℕ
  stage : Stage
  seen : List Sight
deriving DecidableEq

/-- A conditional delete. -/
structure Request where
  pop : ℕ
  hit : Hit
  applied : Bool
  answer : Option Answer

structure State where
  /-- Every document that was ever pushed. -/
  pushed : List Document
  docs : List Document
  /-- What a search sees. -/
  searchable : List Document
  pops : List Pop
  requests : List Request

/-! ## The service -/

/-- A search sees no document of the queue. -/
def emptyFor (searchable : List Document) (queueName : Str) : Bool :=
  searchable.all (·.queueName ≠ queueName)

/-- What a search may be answered with. -/
def mayAnswerSearch (searchable : List Document) (queueName : Str) : Answer → Bool
  | .response body =>
    match validateSearchResponse body with
    | some [] => emptyFor searchable queueName
    | some (hit :: _) =>
      match decodeQueueHit hit with
      | some hit => searchable.any fun d ↦ d.queueName = queueName ∧ d.hit = hit
      | none => true
    | none => true
  | .notFound | .conflict | .apiError | .transportError => true

/-- The delete is acknowledged. -/
def acknowledges (index : Str) (hit : Hit) : Answer → Bool
  | .response body => validateDeleteResponse body index hit.id = some true
  | .notFound | .conflict | .apiError | .transportError => false

/-! ## The backend -/

/-- `max_attempts` -/
def maxAttempts : ℕ := 3

def Pop.see (p : Pop) (stage : Stage) (sight : List Sight) : Pop :=
  { p with stage, seen := p.seen ++ sight }

/-- The refresh of an attempt. -/
def Pop.onRefresh (p : Pop) : Answer → Pop
  | .response body =>
    match validateRefreshResponse body with
    | some () => p.see .search []
    | none => p.see (.done .queueError) []
  | .notFound => p.see (.done .none) [.missing]
  | .conflict | .apiError | .transportError => p.see (.done .queueError) []

/-- The search of an attempt; `request` is where its delete is going to be. -/
def Pop.onSearch (p : Pop) (request : ℕ) (empty : Bool) (a : Answer) : Pop × Option Hit :=
  let sight := if empty then [.empty] else []
  match a with
  | .response body =>
    match validateSearchResponse body with
    | none => (p.see (.done .queueError) sight, none)
    | some [] => (p.see (.done .none) sight, none)
    | some (hit :: _) =>
      match decodeQueueHit hit with
      | none => (p.see (.done .queueError) sight, none)
      | some hit => (p.see (.delete request) sight, some hit)
  | .notFound => (p.see (.done .none) [.missing], none)
  | .conflict | .apiError | .transportError => (p.see (.done .queueError) sight, none)

/-- The delete of an attempt. -/
def Pop.onDelete (p : Pop) (index : Str) (hit : Hit) : Answer → Pop
  | .response body =>
    match validateDeleteResponse body index hit.id with
    | some true => p.see (.done (.returned hit)) []
    | some false | none => p.see (.done .indeterminate) []
  | .notFound | .conflict =>
    let attempts := p.attempts + 1
    { p with attempts }.see (if attempts = maxAttempts then .done .none else .refresh) [.lost]
  | .transportError => p.see (.done .indeterminate) []
  | .apiError => p.see (.done .queueError) []

/-! ## Steps -/

inductive Label
  /-- A push is applied. What its caller is told does not matter. -/
  | push (d : Document)
  /-- A refresh by somebody else. -/
  | refreshIndex
  | call (queueName : Str)
  | refresh (pop : ℕ) (a : Answer)
  | search (pop : ℕ) (a : Answer)
  /-- The service applies a delete. -/
  | apply (request : ℕ)
  | delete (pop : ℕ) (a : Answer)

namespace State

/-- The pop with this number, if it is there in its program. -/
def popAt (s : State) (i : ℕ) (stage : Stage) : Option Pop :=
  s.pops[i]?.filter (·.stage = stage)

def setPop (s : State) (i : ℕ) (p : Pop) : State := { s with pops := s.pops.set i p }

/-- The documents without the one that a delete was applied to. -/
def without (s : State) (hit : Hit) : List Document := s.docs.filter (·.hit ≠ hit)

/-- One step; `index` is the name of the index. -/
def step (index : Str) (s : State) : Label → Option State
  | .push d =>
    if s.pushed.any (·.id = d.id) then none
    else some { s with pushed := s.pushed ++ [d], docs := s.docs ++ [d] }
  | .refreshIndex => some { s with searchable := s.docs }
  | .call queueName => some { s with pops := s.pops ++ [⟨queueName, 0, .refresh, []⟩] }
  | .refresh i a => do
    let p ← s.popAt i .refresh
    let s := s.setPop i (p.onRefresh a)
    -- What is acknowledged was done: the documents are searchable.
    match a with
    | .response body =>
      if (validateRefreshResponse body).isSome then some { s with searchable := s.docs } else some s
    | .notFound | .conflict | .apiError | .transportError => some s
  | .search i a => do
    let p ← s.popAt i .search
    guard (mayAnswerSearch s.searchable p.queueName a)
    match p.onSearch s.requests.length (emptyFor s.searchable p.queueName) a with
    | (p, none) => some (s.setPop i p)
    | (p, some hit) => some { s.setPop i p with requests := s.requests ++ [⟨i, hit, false, none⟩] }
  | .apply k => do
    let r ← s.requests[k]?
    guard (s.docs.any (·.hit = r.hit))
    some { s with docs := s.without r.hit, requests := s.requests.set k { r with applied := true } }
  | .delete i a => do
    let p ← s.pops[i]?
    match p.stage with
    | .delete k =>
      let r ← s.requests[k]?
      guard (acknowledges index r.hit a → r.applied)
      some { s.setPop i (p.onDelete index r.hit a) with
        requests := s.requests.set k { r with answer := some a } }
    | .refresh | .search | .done _ => none

end State

/-- Any number of pops and pushes on an index that begins empty. -/
def machine (index : Str) : Machine State Label where
  init := ⟨[], [], [], [], []⟩
  step := State.step index

/-! ## What a step does -/

section Inversion

variable {index : Str} {s t : State} {i k : ℕ} {a : Answer}

theorem State.popAt_eq_some {stage : Stage} {p : Pop} :
    s.popAt i stage = some p ↔ s.pops[i]? = some p ∧ p.stage = stage := by
  rw [State.popAt, Option.filter_eq_some_iff, decide_eq_true_eq]

/-- A refresh moves its pop, and may make the documents searchable. -/
theorem State.step_refresh (h : s.step index (.refresh i a) = some t) :
    ∃ p, s.pops[i]? = some p ∧ p.stage = .refresh ∧
      (t = s.setPop i (p.onRefresh a) ∨ t = { s.setPop i (p.onRefresh a) with searchable := s.docs }) := by
  obtain ⟨p, hp, h⟩ := Option.bind_eq_some_iff.mp h
  obtain ⟨hpop, hstage⟩ := State.popAt_eq_some.mp hp
  refine ⟨p, hpop, hstage, ?_⟩
  cases a with
  | response body =>
    dsimp only at h
    split at h
    · exact .inr (Option.some.inj h).symm
    · exact .inl (Option.some.inj h).symm
  | notFound | conflict | apiError | transportError => exact .inl (Option.some.inj h).symm

/-- A search moves its pop, and sends a delete if it has found a document. -/
theorem State.step_search (h : s.step index (.search i a) = some t) :
    ∃ p, s.pops[i]? = some p ∧ p.stage = .search ∧ mayAnswerSearch s.searchable p.queueName a = true ∧
      ((∃ p', p.onSearch s.requests.length (emptyFor s.searchable p.queueName) a = (p', none) ∧
          t = s.setPop i p') ∨
        ∃ p' hit, p.onSearch s.requests.length (emptyFor s.searchable p.queueName) a = (p', some hit) ∧
          t = { s.setPop i p' with requests := s.requests ++ [⟨i, hit, false, none⟩] }) := by
  obtain ⟨p, hp, h⟩ := Option.bind_eq_some_iff.mp h
  obtain ⟨hpop, hstage⟩ := State.popAt_eq_some.mp hp
  obtain ⟨u, hmay, h⟩ := Option.bind_eq_some_iff.mp h
  refine ⟨p, hpop, hstage, by simpa [guard] using hmay, ?_⟩
  split at h
  · next p' heq => exact .inl ⟨p', heq, (Option.some.inj h).symm⟩
  · next p' hit heq => exact .inr ⟨p', hit, heq, (Option.some.inj h).symm⟩

/-- A delete is applied to a document that is there. -/
theorem State.step_apply (h : s.step index (.apply k) = some t) :
    ∃ r, s.requests[k]? = some r ∧ (∃ d ∈ s.docs, d.hit = r.hit) ∧
      t = { s with docs := s.without r.hit, requests := s.requests.set k { r with applied := true } } := by
  obtain ⟨r, hr, h⟩ := Option.bind_eq_some_iff.mp h
  obtain ⟨u, hdoc, h⟩ := Option.bind_eq_some_iff.mp h
  refine ⟨r, hr, ?_, (Option.some.inj h).symm⟩
  simpa [guard] using hdoc

/-- An answer to a delete moves its pop. -/
theorem State.step_delete (h : s.step index (.delete i a) = some t) :
    ∃ p k r, s.pops[i]? = some p ∧ p.stage = .delete k ∧ s.requests[k]? = some r ∧
      (acknowledges index r.hit a = true → r.applied = true) ∧
      t = { s.setPop i (p.onDelete index r.hit a) with
        requests := s.requests.set k { r with answer := some a } } := by
  obtain ⟨p, hp, h⟩ := Option.bind_eq_some_iff.mp h
  cases hstage : p.stage with
  | delete k =>
    rw [hstage] at h
    obtain ⟨r, hr, h⟩ := Option.bind_eq_some_iff.mp h
    obtain ⟨u, hack, h⟩ := Option.bind_eq_some_iff.mp h
    refine ⟨p, k, r, hp, hstage, hr, ?_, (Option.some.inj h).symm⟩
    simpa [guard] using hack
  | refresh | search | done result =>
    rw [hstage] at h
    cases h

end Inversion

/-! ## Documents and deletes -/

/-- What counts of a delete for the documents. -/
def Request.core (r : Request) : Hit × Bool := (r.hit, r.applied)

/-- Where the documents are. -/
structure Stored (pushed docs searchable : List Document) (cores : List (Hit × Bool)) : Prop where
  ids : ∀ d ∈ pushed, ∀ d' ∈ pushed, d.id = d'.id → d = d'
  docs_pushed : ∀ d ∈ docs, d ∈ pushed
  searchable_pushed : ∀ d ∈ searchable, d ∈ pushed
  requested : ∀ c ∈ cores, ∃ d ∈ pushed, d.hit = c.1
  /-- A document that is not there any more was deleted. -/
  gone : ∀ d ∈ pushed, d ∉ docs → (d.hit, true) ∈ cores
  /-- What was deleted is not there any more. -/
  applied : ∀ hit, (hit, true) ∈ cores → ∀ d ∈ docs, d.id ≠ hit.id
  /-- Nothing is deleted twice. -/
  once : ∀ (k k' : ℕ) (hit hit' : Hit), cores[k]? = some (hit, true) → cores[k']? = some (hit', true) →
    hit.id = hit'.id → k = k'

namespace Stored

variable {pushed docs searchable : List Document} {cores : List (Hit × Bool)} {d : Document} {hit : Hit}
  {k : ℕ} (h : Stored pushed docs searchable cores)
include h

theorem refreshed : Stored pushed docs docs cores :=
  { h with searchable_pushed := h.docs_pushed }

theorem push (hnew : ∀ d' ∈ pushed, d'.id ≠ d.id) :
    Stored (pushed ++ [d]) (docs ++ [d]) searchable cores where
  ids d₁ h₁ d₂ h₂ heq := by
    rcases List.mem_append.mp h₁ with h₁ | h₁ <;> rcases List.mem_append.mp h₂ with h₂ | h₂
    · exact h.ids d₁ h₁ d₂ h₂ heq
    · exact absurd (heq.trans (congrArg _ (List.mem_singleton.mp h₂))) (hnew d₁ h₁)
    · exact absurd (heq.symm.trans (congrArg _ (List.mem_singleton.mp h₁))) (hnew d₂ h₂)
    · exact (List.mem_singleton.mp h₁).trans (List.mem_singleton.mp h₂).symm
  docs_pushed d' hd' := by
    rcases List.mem_append.mp hd' with hd' | hd'
    · exact List.mem_append_left _ (h.docs_pushed d' hd')
    · exact List.mem_append_right _ hd'
  searchable_pushed d' hd' := List.mem_append_left _ (h.searchable_pushed d' hd')
  requested c hc := by
    obtain ⟨d', hd', heq⟩ := h.requested c hc
    exact ⟨d', List.mem_append_left _ hd', heq⟩
  gone d' hd' hgone := by
    rcases List.mem_append.mp hd' with hd' | hd'
    · exact h.gone d' hd' fun hmem ↦ hgone (List.mem_append_left _ hmem)
    · exact absurd (List.mem_append_right _ hd') hgone
  applied hit hhit d' hd' := by
    rcases List.mem_append.mp hd' with hd' | hd'
    · exact h.applied hit hhit d' hd'
    · -- The delete was for a document with another identifier.
      obtain ⟨d₀, hd₀, heq⟩ := h.requested _ hhit
      rw [List.mem_singleton.mp hd', ← show d₀.hit = hit from heq]
      exact (hnew d₀ hd₀).symm
  once := h.once

theorem request (hd : d ∈ pushed) : Stored pushed docs searchable (cores ++ [(d.hit, false)]) where
  ids := h.ids
  docs_pushed := h.docs_pushed
  searchable_pushed := h.searchable_pushed
  requested c hc := by
    rcases List.mem_append.mp hc with hc | hc
    · exact h.requested c hc
    · exact ⟨d, hd, by rw [List.mem_singleton.mp hc]⟩
  gone d' hd' hgone := List.mem_append_left _ (h.gone d' hd' hgone)
  applied hit hhit := by
    rcases List.mem_append.mp hhit with hhit | hhit
    · exact h.applied hit hhit
    · cases List.mem_singleton.mp hhit
  once k k' hit hit' hk hk' := by
    rcases List.getElem?_concat_some hk with ⟨-, hk⟩ | hk
    · cases hk
    · rcases List.getElem?_concat_some hk' with ⟨-, hk'⟩ | hk'
      · cases hk'
      · exact h.once k k' hit hit' hk hk'

/-- A document is told by what a pop makes of it. -/
theorem eq_of_hit_id {d' : Document} (hd : d ∈ pushed) (hd' : d' ∈ pushed) (heq : d.hit.id = d'.hit.id) :
    d = d' := h.ids d hd d' hd' heq

theorem delete {b : Bool} (hk : cores[k]? = some (hit, b)) (hd : d ∈ docs) (heq : d.hit = hit) :
    Stored pushed (docs.filter (·.hit ≠ hit)) searchable (cores.set k (hit, true)) := by
  have hmem : ∀ d', d' ∈ docs.filter (·.hit ≠ hit) ↔ d' ∈ docs ∧ d'.hit ≠ hit := by
    intro d'
    rw [List.mem_filter, decide_eq_true_eq]
  -- Nothing that was deleted before has this identifier.
  have hfresh : ∀ {hit'}, (hit', true) ∈ cores → hit.id ≠ hit'.id := fun hhit' ↦
    heq ▸ h.applied _ hhit' d hd
  refine ⟨h.ids, fun d' hd' ↦ h.docs_pushed d' ((hmem d').mp hd').1, h.searchable_pushed, ?_, ?_, ?_, ?_⟩
  · intro c hc
    rcases List.mem_or_eq_of_mem_set hc with hc | rfl
    · exact h.requested c hc
    · exact ⟨d, h.docs_pushed d hd, heq⟩
  · intro d' hd' hgone
    by_cases hdoc : d' ∈ docs
    · have hhit : d'.hit = hit := by
        by_contra hne
        exact hgone ((hmem d').mpr ⟨hdoc, hne⟩)
      rw [hhit]
      exact List.mem_set (List.getElem?_eq_some_iff.mp hk).1 _
    · obtain ⟨j, hj⟩ := List.getElem?_of_mem (h.gone d' hd' hdoc)
      have hjk : k ≠ j := by
        rintro rfl
        obtain ⟨hhit, -⟩ := Prod.mk.inj (Option.some.inj (hj.symm.trans hk))
        have hdd := h.eq_of_hit_id hd' (h.docs_pushed d hd) (by rw [heq, hhit])
        exact hdoc (hdd ▸ hd)
      exact List.mem_of_getElem? (List.getElem?_set_ne hjk ▸ hj)
  · intro hit' hhit' d' hd'
    obtain ⟨hdoc, hne⟩ := (hmem d').mp hd'
    rcases List.mem_or_eq_of_mem_set hhit' with hold | hnew
    · exact h.applied hit' hold d' hdoc
    · obtain ⟨rfl, -⟩ := Prod.mk.inj hnew
      intro hid
      exact hne (heq ▸ congrArg _ (h.eq_of_hit_id (h.docs_pushed d' hdoc) (h.docs_pushed d hd) (heq ▸ hid)))
  · intro j j' hit₁ hit₂ hj hj' hid
    rcases List.getElem?_set_some hj with ⟨rfl, hnew⟩ | ⟨-, hold⟩ <;>
      rcases List.getElem?_set_some hj' with ⟨rfl, hnew'⟩ | ⟨-, hold'⟩
    · rfl
    · obtain ⟨rfl, -⟩ := Prod.mk.inj hnew
      exact absurd hid (hfresh (List.mem_of_getElem? hold'))
    · obtain ⟨rfl, -⟩ := Prod.mk.inj hnew'
      exact absurd hid.symm (hfresh (List.mem_of_getElem? hold))
    · exact h.once j j' hit₁ hit₂ hold hold' hid

end Stored

/-! ## Calls -/

/-- What a pop has been shown is enough for what it does. -/
def Pop.Justified (p : Pop) : Prop :=
  match p.stage with
  | .done .none => p.seen.getLast? = some .missing ∨ p.seen.getLast? = some .empty ∨
      p.seen = List.replicate maxAttempts .lost
  | .done _ => True
  | .refresh | .search | .delete _ => p.seen = List.replicate p.attempts .lost ∧ p.attempts < maxAttempts

/-- The pop neither waits for a delete nor has returned a document. -/
def Stage.IsQuiet : Stage → Prop
  | .delete _ | .done (.returned _) => False
  | .refresh | .search | .done .none | .done .queueError | .done .indeterminate => True

/-- What its delete and the answer have made of a pop. -/
def Request.Reported (r : Request) (k : ℕ) (p : Pop) : Prop :=
  match r.answer with
  | none => p.stage = .delete k
  | some .notFound | some .conflict => True
  | some .apiError => p.stage = .done .queueError
  | some .transportError => p.stage = .done .indeterminate
  | some (.response _) => p.stage = .done (.returned r.hit) ∨ p.stage = .done .indeterminate

section Pop

variable {p : Pop} {a : Answer}

theorem Pop.onRefresh_queueName : (p.onRefresh a).queueName = p.queueName := by
  cases a with
  | response body =>
    dsimp only [Pop.onRefresh]
    split <;> rfl
  | notFound | conflict | apiError | transportError => rfl

theorem Pop.onRefresh_isQuiet : (p.onRefresh a).stage.IsQuiet := by
  cases a with
  | response body =>
    dsimp only [Pop.onRefresh]
    split <;> trivial
  | notFound | conflict | apiError | transportError => trivial

theorem Pop.onRefresh_justified (h : p.Justified) (hstage : p.stage = .refresh) :
    (p.onRefresh a).Justified := by
  unfold Pop.Justified at h
  rw [hstage] at h
  cases a with
  | response body =>
    dsimp only [Pop.onRefresh]
    split
    · exact ⟨(List.append_nil _).trans h.1, h.2⟩
    · trivial
  | notFound => exact .inl List.getLast?_concat
  | conflict | apiError | transportError => trivial

/-- A search that finds nothing to delete. -/
theorem Pop.onSearch_none {searchable : List Document} {request : ℕ} {p' : Pop}
    (hmay : mayAnswerSearch searchable p.queueName a = true)
    (h : p.onSearch request (emptyFor searchable p.queueName) a = (p', none)) :
    p'.queueName = p.queueName ∧ p'.stage.IsQuiet ∧ p'.Justified := by
  cases a with
  | response body =>
    dsimp only [Pop.onSearch, mayAnswerSearch] at h hmay
    cases hhits : validateSearchResponse body with
    | none =>
      rw [hhits] at h
      obtain ⟨rfl, -⟩ := Prod.mk.inj h
      exact ⟨rfl, trivial, trivial⟩
    | some hits =>
      rw [hhits] at h hmay
      cases hits with
      | nil =>
        -- The answer shows an empty queue, and so it was empty.
        obtain ⟨rfl, -⟩ := Prod.mk.inj h
        dsimp only at hmay
        rw [hmay]
        exact ⟨rfl, trivial, .inr (.inl List.getLast?_concat)⟩
      | cons hit hits =>
        dsimp only at h
        split at h
        · obtain ⟨rfl, -⟩ := Prod.mk.inj h
          exact ⟨rfl, trivial, trivial⟩
        · cases (Prod.mk.inj h).2
  | notFound =>
    obtain ⟨rfl, -⟩ := Prod.mk.inj h
    exact ⟨rfl, trivial, .inl List.getLast?_concat⟩
  | conflict | apiError | transportError =>
    obtain ⟨rfl, -⟩ := Prod.mk.inj h
    exact ⟨rfl, trivial, trivial⟩

/-- A search that finds a document. -/
theorem Pop.onSearch_some {searchable : List Document} {request : ℕ} {p' : Pop} {hit : Hit}
    (hjust : p.Justified) (hstage : p.stage = .search)
    (hmay : mayAnswerSearch searchable p.queueName a = true)
    (h : p.onSearch request (emptyFor searchable p.queueName) a = (p', some hit)) :
    p'.queueName = p.queueName ∧ p'.stage = .delete request ∧ p'.Justified ∧
      ∃ d ∈ searchable, d.hit = hit ∧ d.queueName = p.queueName := by
  unfold Pop.Justified at hjust
  rw [hstage] at hjust
  cases a with
  | response body =>
    dsimp only [Pop.onSearch, mayAnswerSearch] at h hmay
    cases hhits : validateSearchResponse body with
    | none =>
      rw [hhits] at h
      cases (Prod.mk.inj h).2
    | some hits =>
      rw [hhits] at h hmay
      cases hits with
      | nil => cases (Prod.mk.inj h).2
      | cons hit' hits =>
        dsimp only at h hmay
        cases hdecode : decodeQueueHit hit' with
        | none =>
          rw [hdecode] at h
          cases (Prod.mk.inj h).2
        | some hit'' =>
          rw [hdecode] at h hmay
          obtain ⟨rfl, hhit⟩ := Prod.mk.inj h
          obtain rfl : hit'' = hit := Option.some.inj hhit
          obtain ⟨d, hd, hqueue, heq⟩ : ∃ d ∈ searchable, d.queueName = p.queueName ∧ d.hit = hit'' := by
            simpa using hmay
          have hempty : emptyFor searchable p.queueName = false := by
            refine List.all_eq_false.mpr ⟨d, hd, ?_⟩
            simpa using hqueue
          rw [hempty]
          exact ⟨rfl, rfl, ⟨(List.append_nil _).trans hjust.1, hjust.2⟩, d, hd, heq, hqueue⟩
  | notFound | conflict | apiError | transportError => cases (Prod.mk.inj h).2

theorem Pop.onDelete_queueName {index : Str} {hit : Hit} :
    (p.onDelete index hit a).queueName = p.queueName := by
  cases a with
  | response body =>
    dsimp only [Pop.onDelete]
    split <;> rfl
  | notFound | conflict | apiError | transportError => rfl

variable (p a) in
/-- A pop is done with its delete when it is answered, and returns only what was acknowledged. -/
theorem Pop.onDelete_stage (index : Str) (hit : Hit) :
    (p.onDelete index hit a).stage.IsQuiet ∨
      (p.onDelete index hit a).stage = .done (.returned hit) ∧ acknowledges index hit a = true := by
  cases a with
  | response body =>
    dsimp only [Pop.onDelete]
    split
    · next h => exact .inr ⟨rfl, decide_eq_true h⟩
    · exact .inl trivial
    · exact .inl trivial
  | notFound | conflict =>
    left
    dsimp only [Pop.onDelete, Pop.see]
    split <;> trivial
  | apiError | transportError => exact .inl trivial

theorem Pop.onDelete_justified {index : Str} {hit : Hit} {k : ℕ} (h : p.Justified)
    (hstage : p.stage = .delete k) : (p.onDelete index hit a).Justified := by
  unfold Pop.Justified at h
  rw [hstage] at h
  obtain ⟨hseen, hattempts⟩ := h
  cases a with
  | response body =>
    dsimp only [Pop.onDelete]
    split <;> trivial
  | notFound | conflict =>
    have hlost : p.seen ++ [Sight.lost] = List.replicate (p.attempts + 1) .lost := by
      rw [hseen, List.replicate_succ']
    dsimp only [Pop.onDelete, Pop.see]
    by_cases hmax : p.attempts + 1 = maxAttempts
    · rw [if_pos hmax]
      exact .inr (.inr (hmax ▸ hlost))
    · rw [if_neg hmax]
      exact ⟨hlost, lt_of_le_of_ne hattempts hmax⟩
  | apiError | transportError => trivial

theorem Pop.onDelete_reported (index : Str) (r : Request) (k : ℕ) :
    { r with answer := some a }.Reported k (p.onDelete index r.hit a) := by
  cases a with
  | response body =>
    dsimp only [Request.Reported, Pop.onDelete]
    split
    · exact .inl rfl
    · exact .inr rfl
    · exact .inr rfl
  | notFound | conflict => trivial
  | apiError | transportError => rfl

end Pop

/-- Deletes and their pops. -/
structure Called (pushed : List Document) (pops : List Pop) (requests : List Request) : Prop where
  sent : ∀ (k : ℕ) (r : Request), requests[k]? = some r → ∃ p, pops[r.pop]? = some p ∧ r.Reported k p ∧
    ∃ d ∈ pushed, d.hit = r.hit ∧ d.queueName = p.queueName
  returned : ∀ (i : ℕ) (p : Pop) (hit : Hit), pops[i]? = some p → p.stage = .done (.returned hit) →
    ∃ (k : ℕ) (r : Request), requests[k]? = some r ∧ r.pop = i ∧ r.hit = hit ∧ r.applied = true
  waits : ∀ (i k : ℕ) (p : Pop), pops[i]? = some p → p.stage = .delete k →
    ∃ r, requests[k]? = some r ∧ r.pop = i ∧ r.answer = none
  justified : ∀ p ∈ pops, p.Justified

/-- A pop that is moving has no report behind it, except of a race that it lost. -/
theorem Request.Reported.move {r : Request} {k : ℕ} {p p' : Pop} (h : r.Reported k p)
    (hdelete : p.stage ≠ .delete k) (hdone : ∀ result, p.stage ≠ .done result) : r.Reported k p' := by
  unfold Request.Reported at h ⊢
  split at h
  · exact absurd h hdelete
  · trivial
  · trivial
  · exact absurd h (hdone _)
  · exact absurd h (hdone _)
  · rcases h with h | h
    · exact absurd h (hdone _)
    · exact absurd h (hdone _)

namespace Called

variable {pushed : List Document} {pops : List Pop} {requests : List Request} {i k : ℕ} {p p' : Pop}
  {r : Request}

theorem mono (h : Called pushed pops requests) (d : Document) : Called (pushed ++ [d]) pops requests where
  sent k r hr := by
    obtain ⟨p, hp, hreported, d', hd', heq⟩ := h.sent k r hr
    exact ⟨p, hp, hreported, d', List.mem_append_left _ hd', heq⟩
  returned := h.returned
  waits := h.waits
  justified := h.justified

/-- A pop begins. -/
theorem call (h : Called pushed pops requests) (queueName : Str) :
    Called pushed (pops ++ [⟨queueName, 0, .refresh, []⟩]) requests where
  sent k r hr := by
    obtain ⟨p, hp, hrest⟩ := h.sent k r hr
    exact ⟨p, List.getElem?_of_grown (List.prefix_append _ _) hp, hrest⟩
  returned i p hit hp hstage := by
    rcases List.getElem?_concat_some hp with ⟨-, rfl⟩ | hp
    · cases hstage
    · exact h.returned i p hit hp hstage
  waits i k p hp hstage := by
    rcases List.getElem?_concat_some hp with ⟨-, rfl⟩ | hp
    · cases hstage
    · exact h.waits i k p hp hstage
  justified p hp := by
    rcases List.mem_append.mp hp with hp | hp
    · exact h.justified p hp
    · rw [List.mem_singleton.mp hp]
      exact ⟨rfl, Nat.succ_pos 2⟩

/-- A pop goes on without a delete under way. -/
theorem move (h : Called pushed pops requests) (hp : pops[i]? = some p)
    (hdelete : ∀ k, p.stage ≠ .delete k) (hdone : ∀ result, p.stage ≠ .done result)
    (hname : p'.queueName = p.queueName) (hquiet : p'.stage.IsQuiet) (hjust : p'.Justified) :
    Called pushed (pops.set i p') requests where
  sent k r hr := by
    obtain ⟨q, hq, hreported, d, hd, heq, hqueue⟩ := h.sent k r hr
    by_cases hri : r.pop = i
    · obtain rfl : p = q := Option.some.inj (hp.symm.trans (hri ▸ hq))
      refine ⟨p', ?_, hreported.move (hdelete k) hdone, d, hd, heq, hqueue.trans hname.symm⟩
      rw [hri, List.getElem?_set_self (List.getElem?_eq_some_iff.mp hp).1]
    · exact ⟨q, (List.getElem?_set_ne (Ne.symm hri)).trans hq, hreported, d, hd, heq, hqueue⟩
  returned j q hit hq hstage := by
    rcases List.getElem?_set_some hq with ⟨-, rfl⟩ | ⟨-, hq⟩
    · rw [hstage] at hquiet
      exact hquiet.elim
    · exact h.returned j q hit hq hstage
  waits j k q hq hstage := by
    rcases List.getElem?_set_some hq with ⟨-, rfl⟩ | ⟨-, hq⟩
    · rw [hstage] at hquiet
      exact hquiet.elim
    · exact h.waits j k q hq hstage
  justified := List.forall_mem_set h.justified hjust

/-- A pop sends a delete. -/
theorem send (h : Called pushed pops requests) (hp : pops[i]? = some p)
    (hdelete : ∀ k, p.stage ≠ .delete k) (hdone : ∀ result, p.stage ≠ .done result)
    (hname : p'.queueName = p.queueName) (hstage' : p'.stage = .delete requests.length)
    (hjust : p'.Justified) {d : Document} (hd : d ∈ pushed) (hqueue : d.queueName = p.queueName) :
    Called pushed (pops.set i p') (requests ++ [⟨i, d.hit, false, none⟩]) where
  sent k r hr := by
    have hself : (pops.set i p')[i]? = some p' :=
      List.getElem?_set_self (List.getElem?_eq_some_iff.mp hp).1
    rcases List.getElem?_concat_some hr with ⟨rfl, rfl⟩ | hr
    · exact ⟨p', hself, hstage', d, hd, rfl, hqueue.trans hname.symm⟩
    · obtain ⟨q, hq, hreported, d', hd', heq, hqueue'⟩ := h.sent k r hr
      by_cases hri : r.pop = i
      · obtain rfl : p = q := Option.some.inj (hp.symm.trans (hri ▸ hq))
        refine ⟨p', hri ▸ hself, hreported.move (hdelete k) hdone, d', hd', heq, hqueue'.trans hname.symm⟩
      · exact ⟨q, (List.getElem?_set_ne (Ne.symm hri)).trans hq, hreported, d', hd', heq, hqueue'⟩
  returned j q hit hq hstage := by
    rcases List.getElem?_set_some hq with ⟨-, rfl⟩ | ⟨-, hq⟩
    · rw [hstage'] at hstage
      cases hstage
    · obtain ⟨k, r, hr, hrest⟩ := h.returned j q hit hq hstage
      exact ⟨k, r, List.getElem?_of_grown (List.prefix_append _ _) hr, hrest⟩
  waits j k q hq hstage := by
    rcases List.getElem?_set_some hq with ⟨rfl, rfl⟩ | ⟨-, hq⟩
    · obtain rfl : requests.length = k := Stage.delete.inj (hstage'.symm.trans hstage)
      exact ⟨_, List.getElem?_concat_length, rfl, rfl⟩
    · obtain ⟨r, hr, hrest⟩ := h.waits j k q hq hstage
      exact ⟨r, List.getElem?_of_grown (List.prefix_append _ _) hr, hrest⟩
  justified := List.forall_mem_set h.justified hjust

/-- A delete is applied. -/
theorem apply (h : Called pushed pops requests) (hr : requests[k]? = some r) :
    Called pushed pops (requests.set k { r with applied := true }) where
  sent k' r' hr' := by
    rcases List.getElem?_set_some hr' with ⟨rfl, rfl⟩ | ⟨-, hr'⟩
    · exact h.sent k' r hr
    · exact h.sent k' r' hr'
  returned j q hit hq hstage := by
    obtain ⟨k', r', hr', hpop, hhit, happlied⟩ := h.returned j q hit hq hstage
    by_cases hkk : k' = k
    · obtain rfl : r = r' := Option.some.inj (hr.symm.trans (hkk ▸ hr'))
      exact ⟨k, _, List.getElem?_set_self (List.getElem?_eq_some_iff.mp hr).1, hpop, hhit, rfl⟩
    · exact ⟨k', r', (List.getElem?_set_ne (Ne.symm hkk)).trans hr', hpop, hhit, happlied⟩
  waits j k' q hq hstage := by
    obtain ⟨r', hr', hpop, hanswer⟩ := h.waits j k' q hq hstage
    by_cases hkk : k' = k
    · subst hkk
      obtain rfl : r = r' := Option.some.inj (hr.symm.trans hr')
      exact ⟨_, List.getElem?_set_self (List.getElem?_eq_some_iff.mp hr).1, hpop, hanswer⟩
    · exact ⟨r', (List.getElem?_set_ne (Ne.symm hkk)).trans hr', hpop, hanswer⟩
  justified := h.justified

/-- A delete is answered. -/
theorem answer (h : Called pushed pops requests) (hp : pops[i]? = some p) (hstage : p.stage = .delete k)
    (hr : requests[k]? = some r) {index : Str} {a : Answer}
    (hack : acknowledges index r.hit a = true → r.applied = true) :
    Called pushed (pops.set i (p.onDelete index r.hit a)) (requests.set k { r with answer := some a }) := by
  have hself : (pops.set i (p.onDelete index r.hit a))[i]? = some (p.onDelete index r.hit a) :=
    List.getElem?_set_self (List.getElem?_eq_some_iff.mp hp).1
  have hself' : (requests.set k { r with answer := some a })[k]? = some { r with answer := some a } :=
    List.getElem?_set_self (List.getElem?_eq_some_iff.mp hr).1
  have hpop : r.pop = i := by
    obtain ⟨r', hr', hpop, -⟩ := h.waits i k p hp hstage
    obtain rfl : r = r' := Option.some.inj (hr.symm.trans hr')
    exact hpop
  -- A pop waits for one delete only.
  have hother : ∀ {j k' q}, j ≠ i → pops[j]? = some q → q.stage = .delete k' → k' ≠ k := by
    intro j k' q hji hq hq' hkk
    obtain ⟨r', hr', hpop', -⟩ := h.waits j k' q hq hq'
    obtain rfl : r = r' := Option.some.inj (hr.symm.trans (hkk ▸ hr'))
    exact hji (hpop'.symm.trans hpop)
  refine ⟨fun k' r' hr' ↦ ?_, fun j q hit hq hq' ↦ ?_, fun j k' q hq hq' ↦ ?_,
    List.forall_mem_set h.justified (Pop.onDelete_justified (h.justified p (List.mem_of_getElem? hp)) hstage)⟩
  · rcases List.getElem?_set_some hr' with ⟨rfl, rfl⟩ | ⟨hkk, hold⟩
    · obtain ⟨q, hq, -, d, hd, heq, hqueue⟩ := h.sent k' r hr
      obtain rfl : p = q := Option.some.inj (hp.symm.trans (hpop ▸ hq))
      refine ⟨_, ?_, Pop.onDelete_reported index r k', d, hd, heq,
        hqueue.trans Pop.onDelete_queueName.symm⟩
      exact (congrArg _ hpop).trans hself
    · obtain ⟨q, hq, hreported, d, hd, heq, hqueue⟩ := h.sent k' r' hold
      by_cases hri : r'.pop = i
      · obtain rfl : p = q := Option.some.inj (hp.symm.trans (hri ▸ hq))
        refine ⟨p.onDelete index r.hit a, (congrArg _ hri).trans hself, hreported.move ?_ ?_, d, hd, heq,
          hqueue.trans Pop.onDelete_queueName.symm⟩
        · rw [hstage]
          exact fun heq ↦ hkk (Stage.delete.inj heq).symm
        · rw [hstage]
          exact fun _ ↦ Stage.noConfusion
      · exact ⟨q, (List.getElem?_set_ne (Ne.symm hri)).trans hq, hreported, d, hd, heq, hqueue⟩
  · rcases List.getElem?_set_some hq with ⟨rfl, rfl⟩ | ⟨-, hold⟩
    · rcases Pop.onDelete_stage p a index r.hit with hquiet | ⟨heq, hacked⟩
      · rw [hq'] at hquiet
        exact hquiet.elim
      · obtain rfl : r.hit = hit := Result.returned.inj (Stage.done.inj (heq.symm.trans hq'))
        exact ⟨k, _, hself', hpop, rfl, hack hacked⟩
    · obtain ⟨k', r', hr', hrest⟩ := h.returned j q hit hold hq'
      by_cases hkk : k' = k
      · obtain rfl : r = r' := Option.some.inj (hr.symm.trans (hkk ▸ hr'))
        exact ⟨k, _, hself', hrest⟩
      · exact ⟨k', r', (List.getElem?_set_ne (Ne.symm hkk)).trans hr', hrest⟩
  · rcases List.getElem?_set_some hq with ⟨rfl, rfl⟩ | ⟨hji, hold⟩
    · rcases Pop.onDelete_stage p a index r.hit with hquiet | ⟨heq, -⟩
      · rw [hq'] at hquiet
        exact hquiet.elim
      · rw [hq'] at heq
        cases heq
    · obtain ⟨r', hr', hrest⟩ := h.waits j k' q hold hq'
      exact ⟨r', (List.getElem?_set_ne (hother hji hold hq').symm).trans hr', hrest⟩

end Called

/-! ## Runs -/

/-- What holds in every state. -/
structure Inv (s : State) : Prop where
  stored : Stored s.pushed s.docs s.searchable (s.requests.map Request.core)
  called : Called s.pushed s.pops s.requests

theorem Inv.init (index : Str) : Inv (machine index).init where
  stored := by
    refine ⟨?_, ?_, ?_, ?_, ?_, ?_, ?_⟩ <;> simp [machine]
  called := by
    refine ⟨?_, ?_, ?_, ?_⟩ <;> simp [machine]

/-- **Every step keeps the documents and the calls in order.** -/
theorem Inv.step {index : Str} {s t : State} {a : Label} (h : Inv s) (hs : s.step index a = some t) :
    Inv t := by
  cases a with
  | push d =>
    dsimp only [State.step] at hs
    split at hs
    · cases hs
    · next hfresh =>
      obtain rfl := Option.some.inj hs
      refine ⟨h.stored.push fun d' hd' heq ↦ hfresh ?_, h.called.mono d⟩
      exact List.any_eq_true.mpr ⟨d', hd', decide_eq_true heq⟩
  | refreshIndex =>
    obtain rfl := Option.some.inj hs
    exact ⟨h.stored.refreshed, h.called⟩
  | call queueName =>
    obtain rfl := Option.some.inj hs
    exact ⟨h.stored, h.called.call queueName⟩
  | refresh i a =>
    obtain ⟨p, hp, hstage, hs⟩ := State.step_refresh hs
    have hjust := h.called.justified p (List.mem_of_getElem? hp)
    have hcalled : Called s.pushed (s.pops.set i (p.onRefresh a)) s.requests :=
      h.called.move hp (by simp [hstage]) (by simp [hstage]) Pop.onRefresh_queueName Pop.onRefresh_isQuiet (Pop.onRefresh_justified hjust hstage)
    rcases hs with rfl | rfl
    · exact ⟨h.stored, hcalled⟩
    · exact ⟨h.stored.refreshed, hcalled⟩
  | search i a =>
    obtain ⟨p, hp, hstage, hmay, hs⟩ := State.step_search hs
    have hjust := h.called.justified p (List.mem_of_getElem? hp)
    rcases hs with ⟨p', hp', rfl⟩ | ⟨p', hit, hp', rfl⟩
    · obtain ⟨hname, hquiet, hjust'⟩ := Pop.onSearch_none hmay hp'
      exact ⟨h.stored, h.called.move hp (by simp [hstage]) (by simp [hstage]) hname hquiet hjust'⟩
    · obtain ⟨hname, hstage', hjust', d, hd, rfl, hqueue⟩ := Pop.onSearch_some hjust hstage hmay hp'
      have hpushed := h.stored.searchable_pushed d hd
      refine ⟨?_, h.called.send hp (by simp [hstage]) (by simp [hstage]) hname hstage' hjust' hpushed hqueue⟩
      dsimp only [State.setPop]
      rw [List.map_append]
      exact h.stored.request hpushed
  | apply k =>
    obtain ⟨r, hr, ⟨d, hd, heq⟩, rfl⟩ := State.step_apply hs
    have hcore : (s.requests.map Request.core)[k]? = some (r.hit, r.applied) := by
      rw [List.getElem?_map, hr]
      rfl
    refine ⟨?_, h.called.apply hr⟩
    dsimp only
    rw [List.map_set]
    exact h.stored.delete hcore hd heq
  | delete i a =>
    obtain ⟨p, k, r, hp, hstage, hr, hack, rfl⟩ := State.step_delete hs
    refine ⟨?_, h.called.answer hp hstage hr hack⟩
    have hcore : (s.requests.set k { r with answer := some a }).map Request.core =
        s.requests.map Request.core := List.map_set_of_eq hr rfl
    exact hcore.symm ▸ h.stored

theorem Inv.of_reachable {index : Str} {s : State} (h : (machine index).Reachable s) : Inv s :=
  h.invariant (Inv.init index) fun _ _ _ hs ht ↦ hs.step ht

/-! ## Exclusive documents -/

/-- The delete of a document has left through its pop: the pop still waits for the answer, returns the
document, or reports an indeterminate outcome. -/
def Reports (d : Document) (k : ℕ) (p : Pop) : Prop :=
  p.stage = .delete k ∨ p.stage = .done (.returned d.hit) ∨ p.stage = .done .indeterminate

/-- A document that has left the index left through a pop that reports it. -/
def LeavesReported (s : State) : Prop :=
  ∀ d ∈ s.pushed, d ∉ s.docs → ∃ (k : ℕ) (r : Request) (p : Pop), s.requests[k]? = some r ∧
    r.hit = d.hit ∧ r.applied = true ∧ s.pops[r.pop]? = some p ∧ Reports d k p

/-- A document that has left the index left through a pop that reports it, or through a delete that was
answered with an HTTP error. -/
def LeavesAnswered (s : State) : Prop :=
  ∀ d ∈ s.pushed, d ∉ s.docs → ∃ (k : ℕ) (r : Request) (p : Pop), s.requests[k]? = some r ∧
    r.hit = d.hit ∧ r.applied = true ∧ s.pops[r.pop]? = some p ∧
    (Reports d k p ∨ (r.answer = some .apiError ∧ p.stage = .done .queueError) ∨
      r.answer = some .notFound ∨ r.answer = some .conflict)

/-- Two pops never return one document, and each returns a document of its queue as it was pushed. -/
structure Exclusive (s : State) : Prop where
  once : ∀ (i j : ℕ) (p q : Pop) (hit hit' : Hit), s.pops[i]? = some p → s.pops[j]? = some q →
    p.stage = .done (.returned hit) → q.stage = .done (.returned hit') → hit.id = hit'.id → i = j
  pushed : ∀ p ∈ s.pops, ∀ hit, p.stage = .done (.returned hit) →
    ∃ d ∈ s.pushed, d.hit = hit ∧ d.queueName = p.queueName

/-- A pop that returns nothing has been shown an empty queue or no index, or has lost three races. -/
def NoneJustified (s : State) : Prop :=
  ∀ p ∈ s.pops, p.stage = .done .none → p.seen.getLast? = some .missing ∨ p.seen.getLast? = some .empty ∨
    p.seen = [.lost, .lost, .lost]

theorem Inv.exclusive {s : State} (h : Inv s) : Exclusive s where
  once i j p q hit hit' hp hq hstage hstage' hid := by
    obtain ⟨k, r, hr, hpop, rfl, happlied⟩ := h.called.returned i p hit hp hstage
    obtain ⟨k', r', hr', hpop', rfl, happlied'⟩ := h.called.returned j q hit' hq hstage'
    have hcore : (s.requests.map Request.core)[k]? = some (r.hit, true) := by
      rw [List.getElem?_map, hr, ← happlied]
      rfl
    have hcore' : (s.requests.map Request.core)[k']? = some (r'.hit, true) := by
      rw [List.getElem?_map, hr', ← happlied']
      rfl
    obtain rfl := h.stored.once k k' _ _ hcore hcore' hid
    obtain rfl : r = r' := Option.some.inj (hr.symm.trans hr')
    exact hpop.symm.trans hpop'
  pushed p hp hit hstage := by
    obtain ⟨i, hi⟩ := List.getElem?_of_mem hp
    obtain ⟨k, r, hr, rfl, rfl, -⟩ := h.called.returned i p hit hi hstage
    obtain ⟨q, hq, -, d, hd, heq, hqueue⟩ := h.called.sent k r hr
    obtain rfl : p = q := Option.some.inj (hi.symm.trans hq)
    exact ⟨d, hd, heq, hqueue⟩

theorem Inv.leavesAnswered {s : State} (h : Inv s) : LeavesAnswered s := by
  intro d hd hgone
  obtain ⟨k, hk⟩ := List.getElem?_of_mem (h.stored.gone d hd hgone)
  obtain ⟨r, hr, hcore⟩ := Option.map_eq_some_iff.mp (List.getElem?_map .. ▸ hk)
  obtain ⟨hhit, happlied⟩ := Prod.mk.inj hcore
  obtain ⟨p, hp, hreported, -⟩ := h.called.sent k r hr
  refine ⟨k, r, p, hr, hhit, happlied, hp, ?_⟩
  unfold Request.Reported at hreported
  split at hreported
  · exact .inl (.inl hreported)
  · next hanswer => exact .inr (.inr (.inl hanswer))
  · next hanswer => exact .inr (.inr (.inr hanswer))
  · next hanswer => exact .inr (.inl ⟨hanswer, hreported⟩)
  · exact .inl (.inr (.inr hreported))
  · rcases hreported with hreported | hreported
    · exact .inl (.inr (.inl (hhit ▸ hreported)))
    · exact .inl (.inr (.inr hreported))

theorem Inv.noneJustified {s : State} (h : Inv s) : NoneJustified s := by
  intro p hp hstage
  have hjust := h.called.justified p hp
  unfold Pop.Justified at hjust
  rwa [hstage] at hjust

/-- **Optimistic pops.** Whatever the service answers, a document is returned by one pop at most, it leaves
the index only through a pop that reports it or that got an HTTP error, and a pop returns nothing only when
it was shown why. -/
theorem optimistic_pop {index : Str} {s : State} (h : (machine index).Reachable s) :
    Exclusive s ∧ LeavesAnswered s ∧ NoneJustified s :=
  have hinv := Inv.of_reachable h
  ⟨hinv.exclusive, hinv.leavesAnswered, hinv.noneJustified⟩

/-! ## A delete that is applied and refused -/

/-- The shards of an answer that has nothing to complain of. -/
def shards : Str × Value :=
  (str "_shards", .obj [(str "total", .int 1), (str "successful", .int 1), (str "failed", .int 0)])

def refreshed : Answer := .response (.obj [shards])

/-- The search has found the document. -/
def found (d : Document) : Answer :=
  .response <| .obj [(str "timed_out", .bool false), shards,
    (str "hits", .obj [
      (str "total", .obj [(str "value", .int 1), (str "relation", .str (str "eq"))]),
      (str "hits", .arr [.obj [(str "_id", .str d.id), (str "_seq_no", .int d.seqNo),
        (str "_primary_term", .int d.primaryTerm),
        (str "_source", .obj [(str "item", .str (Base64.encode d.item))])]])])]

/-- A request in the queue `jobs`. -/
def sampleDocument : Document := ⟨str "d1", 3, 2, str "jobs", [1, 2, 3]⟩

/-- The delete is applied, and then it is answered with a server error. -/
def refusedRun : List Label :=
  [.push sampleDocument, .call (str "jobs"), .refresh 0 refreshed, .search 0 (found sampleDocument),
    .apply 0, .delete 0 .apiError]

theorem isSome_refusedRun : ((machine (str "queue")).run (machine (str "queue")).init refusedRun).isSome =
    true := by
  decide +kernel

/-- The state after that run. -/
def refusedState : State := Option.get _ isSome_refusedRun

/-- **The pop reports an error that sounds definite**, and the document is gone. -/
theorem refused_delete_applied :
    (machine (str "queue")).Reachable refusedState ∧ ¬ LeavesReported refusedState := by
  refine ⟨⟨refusedRun, (Option.some_get isSome_refusedRun).symm⟩, fun h ↦ ?_⟩
  have hpushed : sampleDocument ∈ refusedState.pushed := by decide +kernel
  have hgone : sampleDocument ∉ refusedState.docs := by decide +kernel
  obtain ⟨k, r, p, -, -, -, hp, hreports⟩ := h sampleDocument hpushed hgone
  have hstages : ∀ q ∈ refusedState.pops, q.stage = .done .queueError := by decide +kernel
  have hstage := hstages p (List.mem_of_getElem? hp)
  rcases hreports with heq | heq | heq
  all_goals
    rw [hstage] at heq
    cases heq

theorem optimistic_pop_refused :
    Exclusive refusedState ∧ LeavesAnswered refusedState ∧ NoneJustified refusedState :=
  optimistic_pop ⟨refusedRun, (Option.some_get isSome_refusedRun).symm⟩

end Elasticsearch

end ScrapyExtension
