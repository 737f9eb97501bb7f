import Mathlib.Tactic
import ScrapyExtension.Machine.Basic

/-!
# Values that expire, reaped by their readers

Three storage backends keep the deadline of a value in its document and leave it to readers to delete
what has expired. A read fetches the document, looks at the clock, and deletes the document on the
condition that it still carries a token: the raw deadline on DynamoDB, the stored date on MongoDB, the
version of the document on Elasticsearch. These are three calls of the service or the clock, and
anything may happen in between.

The clock counts microseconds. DynamoDB keeps whole seconds, rounded up; a BSON date has milliseconds,
rounded down; the text of a date on Elasticsearch is exact.

## What a reader cannot know

The delete is safe, since whatever carries the token has expired with it. The answer of the read is
another matter: it is about the document that was fetched, judged by a clock that is read later. If
that document was replaced before its deadline and the deadline passed before the look at the clock,
the key is reported absent although it never was. So a read keeps two marks: that at some moment of the
call the key was absent or expired, and that the document it had fetched was replaced before it looked
at the clock.
-/

namespace ScrapyExtension

namespace LazyExpiry

/-! ## Deadlines -/

/-- The backends. -/
inductive Kind
  | dynamodb
  | mongodb
  | elasticsearch
deriving DecidableEq, Repr

/-- A second, in the unit of the clock. -/
def second : ℕ := 1000000

/-- The unit of a stored deadline. -/
def Kind.unit : Kind → ℕ
  | .dynamodb => second
  | .mongodb => 1000
  | .elasticsearch => 1

/-- A deadline as it is stored: `math.ceil(time.time() + ttl)`, a BSON date, or `isoformat()`. -/
def Kind.stored (deadline : ℕ) : Kind → ℕ
  | .dynamodb => (deadline + (second - 1)) / second
  | .mongodb => deadline / 1000
  | .elasticsearch => deadline

/-- How much earlier than its deadline a value may be taken for expired. -/
def Kind.early : Kind → ℕ
  | .mongodb => 999
  | .dynamodb | .elasticsearch => 0

/-- What is written under a key. -/
structure Doc (β : Type*) where
  data : β
  /-- `expire_at`, `expireAt` -/
  expiry : Option ℕ
  /-- The clock at the store and the TTL, before rounding. -/
  deadline : Option ℕ
  /-- `_seq_no`, `_primary_term`: the how-manieth write. -/
  version : ℕ
deriving DecidableEq

/-- The document that `store` makes. -/
def Doc.make {β : Type*} (kind : Kind) (now version : ℕ) (data : β) (ttl : Option ℕ) : Doc β where
  data := data
  expiry := ttl.map fun ttl ↦ kind.stored (now + ttl * second)
  deadline := ttl.map fun ttl ↦ now + ttl * second
  version := version

/-- The deadline has passed, as the readers judge it. -/
def Doc.expired {β : Type*} (kind : Kind) (now : ℕ) (d : Doc β) : Bool :=
  d.expiry.any fun raw ↦ decide (raw * kind.unit ≤ now)

/-- The condition of the delete holds of a document. -/
def Kind.matches {β : Type*} (fetched current : Doc β) : Kind → Bool
  | .dynamodb | .mongodb => decide (current.expiry = fetched.expiry)
  | .elasticsearch => decide (current.version = fetched.version)

/-! ## The abstract map -/

variable {κ β ω : Type*}

/-- The value of a key in the map of values with deadlines, at a moment. -/
def live (kind : Kind) (docs : κ → Option (Doc β)) (now : ℕ) (key : κ) : Option β :=
  (docs key).bind fun d ↦ if d.expired kind now then none else some d.data

/-! ## Clients -/

/-- The reads. -/
inductive Op
  | retrieve
  | existence
  | ttl
deriving DecidableEq, Repr

/-- Where a read is. -/
inductive Phase (β : Type*)
  /-- Before `get_item`, `find_one` or `get`. -/
  | fetch
  /-- Before the look at the clock. -/
  | look (d : Doc β)
  /-- Before the conditional delete. -/
  | reap (d : Doc β)
  /-- `ttl` looks at the clock once more, MongoDB apart. -/
  | remaining (d : Doc β) (raw : ℕ)

/-- What a read returns. -/
inductive Answer (β : Type*)
  | absent
  | data (data : β)
  | present
  /-- `ttl` of a value without a deadline. -/
  | permanent
  | seconds (n : ℕ)

/-- A call under way. -/
inductive Call (κ β : Type*)
  /-- The clock has been read, the document is not written yet. -/
  | store (key : κ) (now : ℕ) (data : β) (ttl : Option ℕ)
  /-- At some moment of the call the key was `gone`; what was fetched was `changed` before the look at
  the clock. -/
  | read (op : Op) (key : κ) (phase : Phase β) (gone changed : Bool)

/-- A read that has returned. -/
structure Answered (κ β : Type*) where
  op : Op
  key : κ
  answer : Answer β
  gone : Bool
  changed : Bool
  /-- What it fetched. -/
  fetched : Option (Doc β)

/-- The service, the clock and the clients. -/
structure State (κ β ω : Type*) where
  now : ℕ
  docs : κ → Option (Doc β)
  /-- Every document that was written. -/
  writes : List (κ × Doc β)
  calls : ω → Option (Call κ β)
  answers : List (Answered κ β)

/-- How the conditional delete ends. -/
inductive Reaped
  /-- The service has answered, be it that the condition failed. -/
  | done
  /-- It raises, with or without effect; `driver` says that the error is one of the driver's own. -/
  | failed (effect driver : Bool)
deriving DecidableEq, Repr

/-- What can happen. -/
inductive Label (κ β ω : Type*)
  | tick (d : ℕ)
  /-- `store` reads the clock. -/
  | store (w : ω) (key : κ) (data : β) (ttl : Option ℕ)
  /-- The write of a store, which has an effect or has none. -/
  | put (w : ω) (effect : Bool)
  /-- `delete` -/
  | delete (key : κ)
  /-- A read begins. -/
  | read (w : ω) (op : Op) (key : κ)
  | fetch (w : ω)
  | look (w : ω)
  | reap (w : ω) (reaped : Reaped)
  /-- A call of the service raises before it has any effect. -/
  | fail (w : ω)

/-- The steps of reads. -/
def Label.isRead : Label κ β ω → Bool
  | .read .. | .fetch _ | .look _ | .reap .. | .fail _ => true
  | .tick _ | .store .. | .put .. | .delete _ => false

/-- The key is absent or expired. -/
def goneAt (kind : Kind) (docs : κ → Option (Doc β)) (now : ℕ) (key : κ) : Bool :=
  (docs key).all fun d ↦ d.expired kind now

/-- What a moment does to the marks of a call. -/
def Call.observe (kind : Kind) (docs : κ → Option (Doc β)) (now : ℕ) : Call κ β → Call κ β
  | .store key at_ data ttl => .store key at_ data ttl
  | .read op key phase gone changed =>
    .read op key phase (gone || goneAt kind docs now key)
      (changed || match phase with
        | .look d => (docs key).all fun current ↦ decide (current.version ≠ d.version)
        | .fetch | .reap _ | .remaining .. => false)

/-- Every call sees the state as it is. -/
def State.observe (kind : Kind) (s : State κ β ω) : State κ β ω :=
  { s with calls := fun w ↦ (s.calls w).map (·.observe kind s.docs s.now) }

variable [DecidableEq κ] [DecidableEq ω]

/-- A read returns. -/
def State.answer (s : State κ β ω) (w : ω) (op : Op) (key : κ) (gone changed : Bool)
    (fetched : Option (Doc β)) (answer : Answer β) : State κ β ω :=
  { s with
    calls := Function.update s.calls w none
    answers := s.answers ++ [⟨op, key, answer, gone, changed, fetched⟩] }

/-- A call is at another place. -/
def State.enter (s : State κ β ω) (w : ω) (call : Option (Call κ β)) : State κ β ω :=
  { s with calls := Function.update s.calls w call }

/-- After the look at the clock. -/
def State.judge (kind : Kind) (s : State κ β ω) (w : ω) (op : Op) (key : κ) (d : Doc β)
    (gone changed : Bool) : State κ β ω :=
  if d.expired kind s.now then s.enter w (some (.read op key (.reap d) gone changed))
  else
    match op, d.expiry with
    | .retrieve, _ => s.answer w op key gone changed (some d) (.data d.data)
    | .existence, _ => s.answer w op key gone changed (some d) .present
    | .ttl, none => s.answer w op key gone changed (some d) .permanent
    | .ttl, some raw =>
      if kind = .mongodb then
        s.answer w op key gone changed (some d) (.seconds ((raw * kind.unit - s.now) / second))
      else s.enter w (some (.read op key (.remaining d raw) gone changed))

/-- The conditional delete of a fetched document. -/
def remove (kind : Kind) (docs : κ → Option (Doc β)) (key : κ) (d : Doc β) : κ → Option (Doc β) :=
  match docs key with
  | some current => if kind.matches d current then Function.update docs key none else docs
  | none => docs

/-- Whether a failed delete is swallowed: `swallow_close_failures`, `except PyMongoError`, or not. -/
def Kind.swallows (driver : Bool) : Kind → Bool
  | .dynamodb => true
  | .mongodb => driver
  | .elasticsearch => false

/-- After the conditional delete. -/
def State.reaped (kind : Kind) (s : State κ β ω) (w : ω) (op : Op) (key : κ) (d : Doc β)
    (gone changed : Bool) : Reaped → State κ β ω
  | .done =>
    { s with docs := remove kind s.docs key d }.answer w op key gone changed (some d) .absent
  | .failed effect driver =>
    let s := if effect then { s with docs := remove kind s.docs key d } else s
    if kind.swallows driver then s.answer w op key gone changed (some d) .absent
    else s.enter w none

/-- One step, the marks apart. -/
def act (kind : Kind) (s : State κ β ω) : Label κ β ω → Option (State κ β ω)
  | .tick d => some { s with now := s.now + d }
  | .store w key data ttl =>
    if (s.calls w).isNone ∧ ttl ≠ some 0 then some (s.enter w (some (.store key s.now data ttl)))
    else none
  | .put w effect =>
    match s.calls w with
    | some (.store key at_ data ttl) =>
      let d := Doc.make kind at_ s.writes.length data ttl
      let s := s.enter w none
      some (if effect then
        { s with docs := Function.update s.docs key (some d), writes := s.writes ++ [(key, d)] }
      else s)
    | _ => none
  | .delete key => some { s with docs := Function.update s.docs key none }
  | .read w op key =>
    if (s.calls w).isNone then some (s.enter w (some (.read op key .fetch false false))) else none
  | .fetch w =>
    match s.calls w with
    | some (.read op key .fetch gone changed) =>
      match s.docs key with
      | none => some (s.answer w op key gone changed none .absent)
      | some d => some (s.enter w (some (.read op key (.look d) gone changed)))
    | _ => none
  | .look w =>
    match s.calls w with
    | some (.read op key (.look d) gone changed) => some (s.judge kind w op key d gone changed)
    | some (.read op key (.remaining d raw) gone changed) =>
      some (s.answer w op key gone changed (some d) (.seconds ((raw * kind.unit - s.now) / second)))
    | _ => none
  | .reap w reaped =>
    match s.calls w with
    | some (.read op key (.reap d) gone changed) =>
      some (s.reaped kind w op key d gone changed reaped)
    | _ => none
  | .fail w => if (s.calls w).isSome then some (s.enter w none) else none

/-- The clients of a backend. -/
def machine (kind : Kind) : Machine (State κ β ω) (Label κ β ω) where
  init := ⟨0, fun _ ↦ none, [], fun _ ↦ none, []⟩
  step s a := (act kind s a).map (·.observe kind)

/-! ## What is stored -/

/-- A document has the deadline of its store, rounded. -/
def Doc.Ok (kind : Kind) (d : Doc β) : Prop := d.expiry = d.deadline.map fun n ↦ kind.stored n

theorem Doc.ok_make (kind : Kind) (now version : ℕ) (data : β) (ttl : Option ℕ) :
    (Doc.make kind now version data ttl).Ok kind := by
  rw [Doc.Ok, Doc.make, Option.map_map]
  rfl

theorem le_roundUp (n : ℕ) {unit : ℕ} (hunit : 0 < unit) : n ≤ (n + (unit - 1)) / unit * unit := by
  have hlt : n + (unit - 1) < (n + (unit - 1)) / unit * unit + unit := Nat.lt_div_mul_add hunit
  omega

theorem le_roundDown (n : ℕ) {unit : ℕ} (hunit : 0 < unit) : n ≤ n / unit * unit + (unit - 1) := by
  have hlt : n < n / unit * unit + unit := Nat.lt_div_mul_add hunit
  omega

/-- Rounding brings a deadline forward by less than the unit of MongoDB, and not at all elsewhere. -/
theorem Kind.le_stored (kind : Kind) (deadline : ℕ) :
    deadline ≤ kind.stored deadline * kind.unit + kind.early := by
  rcases kind with _ | _ | _
  · have hsecond : 0 < second := Nat.lt_of_sub_ne_zero (by norm_num [second])
    exact (le_roundUp deadline hsecond).trans (Nat.le_add_right _ _)
  · have hdown := le_roundDown deadline (show 0 < 1000 by decide)
    exact hdown
  · exact (Nat.mul_one deadline).ge

/-- What is taken for expired is past its deadline, up to the rounding. -/
theorem Doc.Ok.deadline_le {kind : Kind} {d : Doc β} (hd : d.Ok kind) {now : ℕ}
    (hexpired : d.expired kind now = true) {deadline : ℕ} (hdeadline : d.deadline = some deadline) :
    deadline ≤ now + kind.early := by
  rw [Doc.Ok, hdeadline, Option.map_some] at hd
  rw [Doc.expired, hd, Option.any_some, decide_eq_true_eq] at hexpired
  have hround := kind.le_stored deadline
  omega

theorem Doc.expired_mono {kind : Kind} {d : Doc β} {now later : ℕ} (hle : now ≤ later)
    (h : d.expired kind now = true) : d.expired kind later = true := by
  rw [Doc.expired, Option.any_eq_true] at h ⊢
  obtain ⟨raw, hraw, hpast⟩ := h
  rw [decide_eq_true_eq] at hpast
  exact ⟨raw, hraw, decide_eq_true (hpast.trans hle)⟩

/-- What a call knows. -/
def CallOk (kind : Kind) (writes : List (κ × Doc β)) (now : ℕ) : Call κ β → Prop
  | .store .. => True
  | .read _ key phase gone changed =>
    match phase with
    | .fetch | .remaining .. => True
    | .look d => writes[d.version]? = some (key, d)
    | .reap d => writes[d.version]? = some (key, d) ∧ d.expired kind now = true ∧
        (gone = true ∨ changed = true)

/-- Why a read reports absence: at some moment of the call the key was absent or expired; or what it had
fetched was replaced, and had expired by the look at the clock. -/
def Absence (kind : Kind) (now : ℕ) (x : Answered κ β) : Prop :=
  x.gone = true ∨ x.changed = true ∧ ∃ d, x.fetched = some d ∧ d.expired kind now = true

/-- The documents stay, but for one that has expired. -/
def Reaps (kind : Kind) (now : ℕ) (docs docs' : κ → Option (Doc β)) : Prop :=
  ∀ k, docs' k = docs k ∨ docs' k = none ∧ ∃ d deadline, docs k = some d ∧
    d.expired kind now = true ∧ d.deadline = some deadline ∧ deadline ≤ now + kind.early

/-- Documents are what was written, under the key that they were written under. -/
structure Core (kind : Kind) (s : State κ β ω) : Prop where
  written : ∀ k d, s.docs k = some d → s.writes[d.version]? = some (k, d)
  rounded : ∀ e ∈ s.writes, e.2.Ok kind
  calls : ∀ w c, s.calls w = some c → CallOk kind s.writes s.now c
  answers : ∀ x ∈ s.answers, x.answer = .absent → Absence kind s.now x

/-- The marks are up to date. -/
def Observed (kind : Kind) (s : State κ β ω) : Prop :=
  ∀ w op key phase gone changed, s.calls w = some (.read op key phase gone changed) →
    (goneAt kind s.docs s.now key = true → gone = true) ∧
    ∀ d, phase = .look d → s.docs key = some d ∨ changed = true

section Invariant

variable {kind : Kind} {s t : State κ β ω} {w : ω} {op : Op} {key : κ} {d : Doc β}
  {gone changed : Bool}

omit [DecidableEq κ] [DecidableEq ω]

/-- A version is written once. -/
theorem eq_of_version {writes : List (κ × Doc β)} {k k' : κ} {d d' : Doc β}
    (h : writes[d.version]? = some (k, d)) (h' : writes[d'.version]? = some (k', d'))
    (hversion : d'.version = d.version) : d' = d := by
  rw [hversion, h] at h'
  exact (Prod.mk.inj (Option.some.inj h')).2.symm

theorem CallOk.mono {writes more : List (κ × Doc β)} {now later : ℕ} (hle : now ≤ later)
    {c : Call κ β} (h : CallOk kind writes now c) : CallOk kind (writes ++ more) later c := by
  have hwrites : ∀ {k : κ} {d : Doc β}, writes[d.version]? = some (k, d) →
      (writes ++ more)[d.version]? = some (k, d) := by
    intro k d hd
    rw [List.getElem?_append_left (List.getElem?_eq_some_iff.1 hd).1, hd]
  rcases c with _ | ⟨op, key, phase, gone, changed⟩
  · trivial
  rcases phase with _ | d | d | ⟨d, raw⟩
  · trivial
  · exact hwrites h
  · exact ⟨hwrites h.1, Doc.expired_mono hle h.2.1, h.2.2⟩
  · trivial

/-- The marks only go up. -/
theorem CallOk.observe {writes : List (κ × Doc β)} {docs : κ → Option (Doc β)} {now : ℕ}
    {c : Call κ β} (h : CallOk kind writes now c) : CallOk kind writes now (c.observe kind docs now) := by
  rcases c with _ | ⟨op, key, phase, gone, changed⟩
  · trivial
  rcases phase with _ | d | d | ⟨d, raw⟩
  · trivial
  · exact h
  · refine ⟨h.1, h.2.1, ?_⟩
    rcases h.2.2 with hgone | hchanged
    · exact .inl (by simp [hgone])
    · exact .inr (by simp [hchanged])
  · trivial

theorem Core.observe (h : Core kind s) :
    Core kind (s.observe kind) ∧ Observed kind (s.observe kind) := by
  refine ⟨⟨h.written, h.rounded, fun w c hc ↦ ?_, h.answers⟩, ?_⟩
  · obtain ⟨c', hc', rfl⟩ := Option.map_eq_some_iff.1 hc
    exact (h.calls w c' hc').observe
  · intro w op key phase gone changed hc
    obtain ⟨c', hc', heq⟩ := Option.map_eq_some_iff.1 hc
    rcases c' with _ | ⟨op', key', phase', gone', changed'⟩
    · exact nomatch heq
    obtain ⟨rfl, rfl, rfl, rfl, rfl⟩ := Call.read.inj heq
    refine ⟨fun hgone ↦ ?_, ?_⟩
    · have hgone' : goneAt kind s.docs s.now key' = true := hgone
      rw [hgone', Bool.or_true]
    · rintro d rfl
      have hd : s.writes[d.version]? = some (key', d) := h.calls w _ hc'
      rcases hdoc : s.docs key' with _ | current
      · right
        simp
      · by_cases hversion : current.version = d.version
        · left
          have hcurrent := h.written key' current hdoc
          rw [← eq_of_version hd hcurrent hversion]
          exact hdoc
        · right
          simp [hversion]

variable [DecidableEq κ] [DecidableEq ω]

omit [DecidableEq κ] in
theorem Core.enter (h : Core kind s) {call : Option (Call κ β)}
    (hcall : ∀ c ∈ call, CallOk kind s.writes s.now c) : Core kind (s.enter w call) := by
  refine ⟨h.written, h.rounded, fun v c hc ↦ ?_, h.answers⟩
  have hc' : Function.update s.calls w call v = some c := hc
  by_cases hv : v = w
  · subst hv
    rw [Function.update_self] at hc'
    exact hcall c hc'
  · rw [Function.update_of_ne hv] at hc'
    exact h.calls v c hc'

omit [DecidableEq κ] in
theorem Core.answer (h : Core kind s) {fetched : Option (Doc β)} {answer : Answer β}
    (hanswer : answer = .absent → Absence kind s.now ⟨op, key, answer, gone, changed, fetched⟩) :
    Core kind (s.answer w op key gone changed fetched answer) := by
  have hidle : Core kind (s.enter w none) := h.enter fun _ hc ↦ (nomatch hc)
  refine ⟨hidle.written, hidle.rounded, hidle.calls, fun x hx habsent ↦ ?_⟩
  rcases List.mem_append.1 hx with hx | hx
  · exact h.answers x hx habsent
  · obtain rfl := List.mem_singleton.1 hx
    exact hanswer habsent

omit [DecidableEq κ] [DecidableEq ω] in
/-- Documents may go. -/
theorem Core.shrink (h : Core kind s) {docs : κ → Option (Doc β)}
    (hdocs : ∀ k d, docs k = some d → s.docs k = some d) : Core kind { s with docs := docs } :=
  ⟨fun k d hd ↦ h.written k d (hdocs k d hd), h.rounded, h.calls, h.answers⟩

omit [DecidableEq ω] in
/-- What the conditional delete does: nothing, or it removes what carries the token. -/
theorem remove_cases (kind : Kind) (docs : κ → Option (Doc β)) (key : κ) (d : Doc β) :
    remove kind docs key d = docs ∨ ∃ current, docs key = some current ∧
      kind.matches d current = true ∧ remove kind docs key d = Function.update docs key none := by
  rw [remove]
  rcases hdoc : docs key with _ | current
  · exact .inl rfl
  · dsimp only
    split_ifs with hmatch
    · exact .inr ⟨current, rfl, hmatch, rfl⟩
    · exact .inl rfl

omit [DecidableEq ω] in
theorem docs_of_update_none {docs : κ → Option (Doc β)} {k : κ} {e : Doc β}
    (h : Function.update docs key none k = some e) : docs k = some e := by
  by_cases hk : k = key
  · subst hk
    rw [Function.update_self] at h
    exact nomatch h
  · rwa [Function.update_of_ne hk] at h

omit [DecidableEq ω] in
theorem docs_of_remove {docs : κ → Option (Doc β)} {k : κ} {e : Doc β}
    (h : remove kind docs key d k = some e) : docs k = some e := by
  rcases remove_cases kind docs key d with heq | ⟨-, -, -, heq⟩ <;> rw [heq] at h
  · exact h
  · exact docs_of_update_none h

omit [DecidableEq ω] in
theorem Core.put (h : Core kind s) (at_ : ℕ) (data : β) (ttl : Option ℕ) :
    Core kind { s with
      docs := Function.update s.docs key (some (Doc.make kind at_ s.writes.length data ttl))
      writes := s.writes ++ [(key, Doc.make kind at_ s.writes.length data ttl)] } := by
  refine ⟨fun k d hd ↦ ?_, fun e he ↦ ?_, fun w c hc ↦ (h.calls w c hc).mono le_rfl, h.answers⟩
  · by_cases hk : k = key
    · subst hk
      obtain rfl := Option.some.inj ((Function.update_self k _ s.docs).symm.trans hd)
      exact List.getElem?_concat_length
    · have hold := h.written k d ((Function.update_of_ne hk _ s.docs).symm.trans hd)
      rw [List.getElem?_append_left (List.getElem?_eq_some_iff.1 hold).1, hold]
  · rcases List.mem_append.1 he with he | he
    · exact h.rounded e he
    · rw [List.mem_singleton.1 he]
      exact Doc.ok_make kind at_ _ data ttl

omit [DecidableEq κ] in
/-- After the look at the clock. -/
theorem Core.judge (h : Core kind s) (hd : s.writes[d.version]? = some (key, d))
    (hmarks : d.expired kind s.now = true → gone = true ∨ changed = true) :
    Core kind (s.judge kind w op key d gone changed) := by
  unfold State.judge
  by_cases hexpired : d.expired kind s.now = true
  · rw [if_pos hexpired]
    refine h.enter fun c hc ↦ ?_
    obtain rfl := Option.some.inj hc
    exact ⟨hd, hexpired, hmarks hexpired⟩
  · rw [if_neg hexpired]
    split
    · exact h.answer fun h ↦ (nomatch h)
    · exact h.answer fun h ↦ (nomatch h)
    · exact h.answer fun h ↦ (nomatch h)
    · split_ifs
      · exact h.answer fun h ↦ (nomatch h)
      · refine h.enter fun c hc ↦ ?_
        obtain rfl := Option.some.inj hc
        trivial

/-- After the conditional delete. -/
theorem Core.reaped (h : Core kind s) (hmarks : gone = true ∨ changed = true)
    (hexpired : d.expired kind s.now = true) (reaped : Reaped) :
    Core kind (s.reaped kind w op key d gone changed reaped) := by
  have habsence : Absence kind s.now ⟨op, key, .absent, gone, changed, some d⟩ :=
    hmarks.imp_right fun hchanged ↦ ⟨hchanged, d, rfl, hexpired⟩
  have hremoved : Core kind { s with docs := remove kind s.docs key d } :=
    h.shrink fun _ _ ↦ docs_of_remove
  rcases reaped with _ | ⟨effect, driver⟩
  · exact hremoved.answer fun _ ↦ habsence
  · have hafter : Core kind (if effect then { s with docs := remove kind s.docs key d } else s) := by
      split_ifs
      · exact hremoved
      · exact h
    simp only [State.reaped]
    by_cases hswallows : kind.swallows driver = true
    · rw [if_pos hswallows]
      split_ifs
      · exact hremoved.answer fun _ ↦ habsence
      · exact h.answer fun _ ↦ habsence
    · rw [if_neg hswallows]
      exact hafter.enter fun _ hc ↦ (nomatch hc)

/-- **Step.** -/
theorem Core.act (h : Core kind s) (hs : Observed kind s) {a : Label κ β ω}
    (ht : LazyExpiry.act kind s a = some t) : Core kind t := by
  have hidle : ∀ w, Core kind (s.enter w none) := fun w ↦ h.enter fun _ hc ↦ (nomatch hc)
  rcases a with n | ⟨w, key, data, ttl⟩ | ⟨w, effect⟩ | key | ⟨w, op, key⟩ | w | w | ⟨w, reaped⟩ | w <;>
    simp only [LazyExpiry.act] at ht
  · obtain rfl := Option.some.inj ht
    refine ⟨h.written, h.rounded, fun w c hc ↦ ?_, fun x hx habsent ↦ ?_⟩
    · have hmono : CallOk kind (s.writes ++ []) (s.now + n) c :=
        (h.calls w c hc).mono (Nat.le_add_right s.now n)
      rwa [List.append_nil] at hmono
    · refine (h.answers x hx habsent).imp_right ?_
      rintro ⟨hchanged, d, hfetched, hexpired⟩
      exact ⟨hchanged, d, hfetched, Doc.expired_mono (Nat.le_add_right s.now n) hexpired⟩
  · split_ifs at ht
    obtain rfl := Option.some.inj ht
    refine h.enter fun c hc ↦ ?_
    obtain rfl := Option.some.inj hc
    trivial
  · split at ht
    · next key at_ data ttl _ =>
      obtain rfl := Option.some.inj ht
      split_ifs
      · exact (hidle w).put at_ data ttl
      · exact hidle w
    · exact nomatch ht
  · obtain rfl := Option.some.inj ht
    exact h.shrink fun _ _ ↦ docs_of_update_none
  · split_ifs at ht
    obtain rfl := Option.some.inj ht
    refine h.enter fun c hc ↦ ?_
    obtain rfl := Option.some.inj hc
    trivial
  · split at ht
    · next op key gone changed hcall =>
      split at ht
      · next hdoc =>
        obtain rfl := Option.some.inj ht
        refine h.answer fun _ ↦ Or.inl ((hs w op key _ gone changed hcall).1 ?_)
        rw [goneAt, hdoc]
        rfl
      · next d hdoc =>
        obtain rfl := Option.some.inj ht
        refine h.enter fun c hc ↦ ?_
        obtain rfl := Option.some.inj hc
        exact h.written key d hdoc
    · exact nomatch ht
  · split at ht
    · next op key d gone changed hcall =>
      obtain rfl := Option.some.inj ht
      obtain ⟨hgone, hlook⟩ := hs w op key _ gone changed hcall
      refine h.judge (h.calls w _ hcall) fun hexpired ↦ ?_
      -- what was fetched is still there, and has expired there; or it was replaced
      rcases hlook d rfl with hdoc | hchanged
      · refine .inl (hgone ?_)
        rw [goneAt, hdoc]
        exact hexpired
      · exact .inr hchanged
    · obtain rfl := Option.some.inj ht
      exact h.answer fun h ↦ (nomatch h)
    · exact nomatch ht
  · split at ht
    · next op key d gone changed hcall =>
      obtain rfl := Option.some.inj ht
      have hcallOk : s.writes[d.version]? = some (key, d) ∧ d.expired kind s.now = true ∧
          (gone = true ∨ changed = true) := h.calls w _ hcall
      exact h.reaped hcallOk.2.2 hcallOk.2.1 reaped
    · exact nomatch ht
  · split_ifs at ht
    obtain rfl := Option.some.inj ht
    exact hidle w

/-- In every reachable state. -/
theorem core_of_reachable (h : (machine kind).Reachable s) : Core kind s ∧ Observed kind s := by
  have hinit : Core kind (machine kind : Machine (State κ β ω) (Label κ β ω)).init ∧
      Observed kind (machine kind : Machine (State κ β ω) (Label κ β ω)).init :=
    ⟨⟨fun _ _ h ↦ (nomatch h), fun _ h ↦ absurd h List.not_mem_nil,
      fun _ _ h ↦ (nomatch h), fun _ h ↦ absurd h List.not_mem_nil⟩,
      fun _ _ _ _ _ _ h ↦ (nomatch h)⟩
  have hstep : ∀ s (a : Label κ β ω) t, Core kind s ∧ Observed kind s →
      (machine kind).step s a = some t → Core kind t ∧ Observed kind t := by
    rintro s a t ⟨hs, hobserved⟩ ht
    obtain ⟨t', ht', rfl⟩ := Option.map_eq_some_iff.1 ht
    exact (hs.act hobserved ht').observe
  exact h.invariant hinit hstep

/-! ## What reads remove -/

omit [DecidableEq κ] [DecidableEq ω] in
theorem Reaps.of_eq {now : ℕ} {docs docs' : κ → Option (Doc β)} (h : docs' = docs) :
    Reaps kind now docs docs' := fun k ↦ .inl (congrFun h k)

omit [DecidableEq κ] [DecidableEq ω] in
/-- The map of values is the same from then on. -/
theorem Reaps.live {now : ℕ} {docs docs' : κ → Option (Doc β)} (h : Reaps kind now docs docs')
    {later : ℕ} (hlater : now ≤ later) (k : κ) :
    LazyExpiry.live kind docs' later k = LazyExpiry.live kind docs later k := by
  unfold LazyExpiry.live
  rcases h k with heq | ⟨hnone, d, -, hd, hexpired, -⟩
  · rw [heq]
  · rw [hnone, hd, Option.bind_none, Option.bind_some, if_pos (Doc.expired_mono hlater hexpired)]

omit [DecidableEq κ] [DecidableEq ω] in
/-- A document has a deadline if it has expired. -/
theorem Doc.Ok.deadline_of_expired {now : ℕ} (hd : d.Ok kind) (hexpired : d.expired kind now = true) :
    ∃ deadline, d.deadline = some deadline ∧ deadline ≤ now + kind.early := by
  rcases hdeadline : d.deadline with _ | deadline
  · rw [Doc.Ok, hdeadline, Option.map_none] at hd
    rw [Doc.expired, hd] at hexpired
    exact nomatch hexpired
  · exact ⟨deadline, rfl, hd.deadline_le hexpired hdeadline⟩

omit [DecidableEq κ] [DecidableEq ω] in
/-- A replacement that carries the token has expired as well. -/
theorem expired_of_matches {writes : List (κ × Doc β)} {now : ℕ} {current : Doc β}
    (hd : writes[d.version]? = some (key, d)) (hcurrent : writes[current.version]? = some (key, current))
    (hmatches : kind.matches d current = true) (hexpired : d.expired kind now = true) :
    current.expired kind now = true := by
  have hexpiry : current.expiry = d.expiry → current.expired kind now = true := by
    intro hexpiry
    rwa [Doc.expired, hexpiry]
  rcases kind with _ | _ | _
  · exact hexpiry (of_decide_eq_true hmatches)
  · exact hexpiry (of_decide_eq_true hmatches)
  · have hversion : current.version = d.version := of_decide_eq_true hmatches
    rwa [eq_of_version hd hcurrent hversion]

omit [DecidableEq ω] in
theorem Core.reaps_remove (h : Core kind s) (hd : s.writes[d.version]? = some (key, d))
    (hexpired : d.expired kind s.now = true) :
    Reaps kind s.now s.docs (remove kind s.docs key d) := by
  rcases remove_cases kind s.docs key d with heq | ⟨current, hdoc, hmatches, heq⟩ <;> rw [heq]
  · exact .of_eq rfl
  · intro k
    by_cases hk : k = key
    · subst hk
      have hcurrent := h.written k current hdoc
      have hold := expired_of_matches hd hcurrent hmatches hexpired
      have hrounded : current.Ok kind := h.rounded _ (List.mem_of_getElem? hcurrent)
      obtain ⟨deadline, hdeadline, hle⟩ := hrounded.deadline_of_expired hold
      exact .inr ⟨Function.update_self .., current, deadline, hdoc, hold, hdeadline, hle⟩
    · exact .inl (Function.update_of_ne hk _ _)

omit [DecidableEq κ] in
theorem docs_judge (s : State κ β ω) : (s.judge kind w op key d gone changed).docs = s.docs := by
  unfold State.judge
  by_cases hexpired : d.expired kind s.now = true
  · rw [if_pos hexpired]
    rfl
  · rw [if_neg hexpired]
    split
    · rfl
    · rfl
    · rfl
    · split_ifs <;> rfl

theorem Core.reaps_reaped (h : Core kind s) (hd : s.writes[d.version]? = some (key, d))
    (hexpired : d.expired kind s.now = true) (reaped : Reaped) :
    Reaps kind s.now s.docs (s.reaped kind w op key d gone changed reaped).docs := by
  have hremove := h.reaps_remove hd hexpired
  rcases reaped with _ | ⟨effect, driver⟩
  · exact hremove
  · have hafter : Reaps kind s.now s.docs
        (if effect then { s with docs := remove kind s.docs key d } else s).docs := by
      split_ifs
      · exact hremove
      · exact .of_eq rfl
    simp only [State.reaped]
    by_cases hswallows : kind.swallows driver = true
    · rw [if_pos hswallows]
      exact hafter
    · rw [if_neg hswallows]
      exact hafter

theorem Core.reaps (h : Core kind s) {a : Label κ β ω} (ha : a.isRead = true)
    (ht : LazyExpiry.act kind s a = some t) : Reaps kind s.now s.docs t.docs := by
  rcases a with _ | _ | _ | _ | ⟨w, op, key⟩ | w | w | ⟨w, reaped⟩ | w
  · exact nomatch ha
  · exact nomatch ha
  · exact nomatch ha
  · exact nomatch ha
  all_goals simp only [LazyExpiry.act] at ht
  · split_ifs at ht
    obtain rfl := Option.some.inj ht
    exact .of_eq rfl
  · split at ht
    · split at ht
      · obtain rfl := Option.some.inj ht
        exact .of_eq rfl
      · obtain rfl := Option.some.inj ht
        exact .of_eq rfl
    · exact nomatch ht
  · split at ht
    · obtain rfl := Option.some.inj ht
      exact .of_eq (docs_judge s)
    · obtain rfl := Option.some.inj ht
      exact .of_eq rfl
    · exact nomatch ht
  · split at ht
    · next op key d gone changed hcall =>
      obtain rfl := Option.some.inj ht
      have hcallOk : s.writes[d.version]? = some (key, d) ∧ d.expired kind s.now = true ∧
          (gone = true ∨ changed = true) := h.calls w _ hcall
      exact h.reaps_reaped hcallOk.1 hcallOk.2.1 reaped
    · exact nomatch ht
  · split_ifs at ht
    obtain rfl := Option.some.inj ht
    exact .of_eq rfl

end Invariant

/-- A read removes only what has expired, and it reports absence only if at some moment of the call the
key was absent or expired, or what it had fetched was replaced before it looked at the clock. -/
theorem lazy_expiry {kind : Kind} {s : State κ β ω} (h : (machine kind).Reachable s) :
    (∀ (a : Label κ β ω) t, a.isRead = true → (machine kind).step s a = some t →
      Reaps kind s.now s.docs t.docs ∧
        ∀ later, s.now ≤ later → ∀ k, live kind t.docs later k = live kind s.docs later k) ∧
      ∀ x ∈ s.answers, x.answer = .absent → Absence kind s.now x := by
  obtain ⟨hcore, -⟩ := core_of_reachable h
  refine ⟨fun a t ha ht ↦ ?_, hcore.answers⟩
  obtain ⟨t', ht', rfl⟩ := Option.map_eq_some_iff.1 ht
  have hreaps : Reaps kind s.now s.docs t'.docs := hcore.reaps ha ht'
  exact ⟨hreaps, fun _ hlater ↦ hreaps.live hlater⟩

/-- A value is stored that expires in a second. -/
def storeSteps : List (Label Unit ℕ Bool) :=
  [.store false () 1 (some 1), .put false true, .tick 900000]

/-- A client fetches it; another client replaces it in time; the clock goes past the deadline; the
reader looks at the clock. -/
def raceSteps : List (Label Unit ℕ Bool) :=
  [.read true .retrieve (), .fetch true, .store false () 2 none, .put false true, .tick 1100000,
    .look true, .reap true .done]

/-- The value is stored after half a millisecond, and read a fifth of a millisecond after a second. -/
def earlySteps : List (Label Unit ℕ Bool) :=
  [.tick 500, .store false () 1 (some 1), .put false true, .tick 999700, .read true .retrieve (),
    .fetch true, .look true]

/-- There is a value, and its deadline, not rounded, has not passed. -/
def held (s : State Unit ℕ Bool) : Bool :=
  (s.docs ()).any fun d ↦ d.deadline.all fun deadline ↦ decide (s.now < deadline)

/-- In the race on DynamoDB the replacement stays, and so do the marks. -/
theorem lazy_expiry_race :
    ∃ s, (machine .dynamodb).run (machine .dynamodb).init (storeSteps ++ raceSteps) = some s ∧
      (∀ (a : Label Unit ℕ Bool) t, a.isRead = true → (machine .dynamodb).step s a = some t →
        Reaps .dynamodb s.now s.docs t.docs ∧ ∀ later, s.now ≤ later → ∀ k,
          live .dynamodb t.docs later k = live .dynamodb s.docs later k) ∧
        ∀ x ∈ s.answers, x.answer = .absent → Absence .dynamodb s.now x :=
  ⟨_, rfl, lazy_expiry ⟨storeSteps ++ raceSteps, rfl⟩⟩

/-- A read reports the absence of a key that had a value all along; and on MongoDB a read removes a value
before its deadline. -/
theorem held_reported_absent :
    (∀ kind, ∃ s t, (machine kind).run (machine kind).init storeSteps = some s ∧
      (machine kind).Along (fun s _ ↦ held s = true) s raceSteps ∧
      (machine kind).run s raceSteps = some t ∧ held t = true ∧
      ∃ x ∈ t.answers, x.op = .retrieve ∧ x.answer = .absent) ∧
    ∃ s t, (machine .mongodb).run (machine .mongodb).init earlySteps = some s ∧ held s = true ∧
      (machine .mongodb).step s (.reap true .done) = some t ∧ t.docs () = none := by
  constructor
  · rintro (_ | _ | _)
    · exact ⟨_, _, rfl, by decide, rfl, by decide, _, List.mem_singleton_self _, rfl, rfl⟩
    · exact ⟨_, _, rfl, by decide, rfl, by decide, _, List.mem_singleton_self _, rfl, rfl⟩
    · exact ⟨_, _, rfl, by decide, rfl, by decide, _, List.mem_singleton_self _, rfl, rfl⟩
  · exact ⟨_, _, rfl, by decide, rfl, rfl⟩

end LazyExpiry

end ScrapyExtension
