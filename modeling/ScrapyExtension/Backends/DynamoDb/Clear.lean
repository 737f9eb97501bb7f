import Mathlib.Data.Prod.Lex
import Mathlib.Order.WellFounded
import ScrapyExtension.Machine.Basic
import ScrapyExtension.Program.Except
import ScrapyExtension.Py.OrderedDict
import ScrapyExtension.Py.Text

/-!
# Clearing a table that others write

`clear_storage` scans a table page by page and deletes each row on the condition that its revision is
still the one that was read. The pages come from a service that may answer anything: what is not a page,
rows without a key, rows outside the prefix, a cursor that has been there before. Other clients write and
delete rows at any time. What the service is trusted with is the condition of a delete.

## Order of the checks

A page is checked as a whole, rows first, then the prefix, then the cursor, before any of its rows is
deleted; rows are deleted in order, each confirmed by the answer before the next. So what has been
deleted when the call fails is always a first part of what the accepted pages list.

## Moments

Revisions are drawn at random, so a write never has one that was written or read before. Rows carry the
number of writes there were before theirs, and so does the page that is being deleted; a row whose
revision is the one that the page lists was then written before the page was read.
-/

namespace ScrapyExtension

namespace DynamoDb

open Py
open Program (bind_ok_iff check_bind_ok_iff mapM_ok_iff)

/-! ## Rows -/

/-- A value of an attribute: a text, or anything else, up to `==`. -/
inductive Attr (ω : Type)
  | str (s : Str)
  | other (v : ω)
deriving DecidableEq

/-- A row, as it is read and written. -/
abbrev Item (ω : Type) := OrderedDict Str (Attr ω)

/-- `"pk"` -/
def pk : Str := str "pk"

/-- `_DDB_REVISION_ATTRIBUTE` -/
def revisionAttribute : Str := str "_scrapy_revision"

/-- `_DDB_REVISION_BYTES` -/
def revisionBytes : ℕ := 32

variable {ω δ : Type}

/-- The text under `pk`. -/
def key? (item : Item ω) : Option Str :=
  match item.get? pk with
  | some (.str key) => some key
  | some (.other _) | none => none

/-- `item.get(_DDB_REVISION_ATTRIBUTE, _MISSING)` -/
def revision? (item : Item ω) : Option (Attr ω) := item.get? revisionAttribute

/-- `_is_valid_item_revision` -/
def isValidItemRevision : Attr ω → Bool
  | .str s => s.length = revisionBytes && s.all fun c ↦ decide (c ∈ str "0123456789abcdef")
  | .other _ => false

/-- A key that the clear is about. -/
def InScope (scope : Option Str) (key : Str) : Prop := ∀ p ∈ scope, p <+: key

instance (scope : Option Str) (key : Str) : Decidable (InScope scope key) :=
  inferInstanceAs (Decidable (∀ p ∈ scope, p <+: key))

/-- A row of a page that was checked. -/
structure Observed (ω : Type) where
  item : Item ω
  key : Str
  key_eq : key? item = some key
  valid : ∀ r, revision? item = some r → isValidItemRevision r = true

/-! ## What can go wrong -/

/-- The errors of a clear. -/
inductive Refusal
  | malformedScan
  | malformedRevision
  | outOfScope
  | repeatedCursor
  | unfencedLegacy
  | concurrentWrite
  | malformedDelete
  /-- An exception of the driver, or of `encode`. -/
  | failed
deriving DecidableEq, Repr

/-- The text of an error. -/
def Refusal.message : Refusal → String
  | .malformedScan =>
    "DynamoDB returned a malformed scan response; the clear may be partially complete"
  | .malformedRevision =>
    "DynamoDB clear is partially complete: stopped at an item with malformed revision metadata; " ++
      "the item was preserved"
  | .outOfScope =>
    "DynamoDB returned a malformed out-of-scope scan response; the clear may be partially complete"
  | .repeatedCursor =>
    "DynamoDB clear is partially complete: Scan returned a repeated pagination cursor"
  | .unfencedLegacy =>
    "DynamoDB clear is partially complete: stopped at an unfenced legacy item; the item was preserved"
  | .concurrentWrite =>
    "DynamoDB clear is partially complete: an observed item changed before conditional deletion"
  | .malformedDelete =>
    "DynamoDB returned a malformed conditional DeleteItem response; the clear may be partially complete"
  | .failed => "Failed to clear DynamoDB table; the clear may be partially complete"

/-! ## Pages -/

/-- An element of `Items`. -/
inductive Element (ω : Type)
  | dict (item : Item ω)
  | other

/-- `response.get("Items", _MISSING)` -/
inductive Items (ω : Type)
  | list (elements : List (Element ω))
  | other

/-- `response.get("LastEvaluatedKey")` -/
inductive Cursor (ω : Type)
  | none
  | dict (cursor : Item ω)
  | other

/-- What `scan` returns. -/
inductive Page (ω : Type)
  | dict (items : Items ω) (cursor : Cursor ω)
  | other

/-- What is asked of a revision that is there. -/
def RevisionOk (item : Item ω) : Prop := ∀ r ∈ revision? item, isValidItemRevision r = true

instance (item : Item ω) : Decidable (RevisionOk item) :=
  inferInstanceAs (Decidable (∀ r ∈ revision? item, isValidItemRevision r = true))

/-- One row of `_validated_scan_page`. -/
def validatedElement : Element ω → Except Refusal (Observed ω)
  | .other => .error .malformedScan
  | .dict item =>
    match h : key? item with
    | none => .error .malformedScan
    | some key =>
      if hr : RevisionOk item then .ok ⟨item, key, h, hr⟩ else .error .malformedRevision

/-- The cursor of a page, by its key. -/
def validatedCursor : Cursor ω → Except Refusal (Option Str)
  | .none => .ok none
  | .other => .error .malformedScan
  | .dict cursor =>
    match cursor.entries with
    | [] => .ok none
    | [(name, .str key)] => if name = pk then .ok (some key) else .error .malformedScan
    | _ => .error .malformedScan

/-- `_validated_scan_page` -/
def validatedScanPage : Page ω → Except Refusal (List (Observed ω) × Option Str)
  | .other => .error .malformedScan
  | .dict .other _ => .error .malformedScan
  | .dict (.list elements) cursor => do
    let items ← elements.mapM validatedElement
    let next ← validatedCursor cursor
    return (items, next)

variable [DecidableEq δ]

/-- `seen_cursor_digests` after a page. -/
def seeCursor (digest : Bytes → δ) (seen : List δ) : Option Str → Except Refusal (List δ)
  | none => .ok seen
  | some cursor =>
    match encodeUtf8 cursor with
    | none => .error .failed
    | some octets =>
      if digest octets ∈ seen then .error .repeatedCursor else .ok (seen ++ [digest octets])

/-- What is done with a page before any of its rows is deleted. -/
def readPage (digest : Bytes → δ) (scope : Option Str) (seen : List δ) (page : Page ω) :
    Except Refusal (List (Observed ω) × Option Str × List δ) := do
  let (items, next) ← validatedScanPage page
  if ∀ item ∈ items, InScope scope item.key then
    let seen ← seeCursor digest seen next
    return (items, next, seen)
  else throw .outOfScope

/-! ## Deletes -/

/-- `ConditionExpression` -/
inductive Condition (ω : Type)
  /-- `#revision = :revision` -/
  | revision (r : Attr ω)
  /-- There is no revision, and the other attributes are these. -/
  | legacy (attributes : List (Str × Attr ω))

variable [DecidableEq ω]

/-- The condition holds of what is under a key. -/
def Condition.holds (current : Option (Item ω)) : Condition ω → Bool
  | .revision r => decide (current.bind revision? = some r)
  | .legacy attributes => current.any fun item ↦ decide (revision? item = none) &&
      attributes.all fun a ↦ decide (item.get? a.1 = some a.2)

omit [DecidableEq ω] in
/-- The condition that `_delete_clear_item` puts on the delete of a row. -/
def deleteCondition (allowUnfenced : Bool) (item : Item ω) : Except Refusal (Condition ω) :=
  match revision? item with
  | some r => if isValidItemRevision r then .ok (.revision r) else .error .malformedRevision
  | none =>
    if allowUnfenced then
      .ok (.legacy (item.entries.filter fun a ↦ decide (a.1 ≠ pk ∧ a.1 ≠ revisionAttribute)))
    else .error .unfencedLegacy

/-- What `delete_item` returns. -/
inductive Deleted (ω : Type)
  /-- `Attributes` is a dict. -/
  | attributes (old : Item ω)
  | other

/-- Equality of dicts. -/
def sameItem (a b : Item ω) : Bool :=
  a.entries.all (fun e ↦ decide (b.get? e.1 = some e.2)) &&
    b.entries.all fun e ↦ decide (a.get? e.1 = some e.2)

/-- `_validate_clear_delete_response` -/
def validateDeleted (response : Deleted ω) (item : Item ω) : Except Refusal Unit :=
  match response with
  | .other => .error .malformedDelete
  | .attributes old =>
    if (key? old).isNone ∨ key? old ≠ key? item then .error .malformedDelete
    else
      match revision? item with
      | none => if (revision? old).isSome ∨ !sameItem old item then .error .malformedDelete else .ok ()
      | some (.other _) => .error .malformedDelete
      | some (.str r) => if revision? old = some (.str r) then .ok () else .error .malformedDelete

/-! ## The table and the call -/

/-- What is under a key. -/
structure Row (ω : Type) where
  item : Item ω
  /-- How many writes there were before. -/
  written : ℕ

/-- Where the call is. -/
inductive Phase (ω : Type)
  /-- Before a scan, from a cursor on. -/
  | scan (start : Option Str)
  /-- What is left of a page, and the cursor after it. -/
  | delete (rest : List (Observed ω)) (next : Option Str)
  /-- It has returned, or raised. `rest` is what it has left of the page. -/
  | done (rest : List (Observed ω)) (outcome : Except Refusal Unit)

/-- The table, the other clients and the call. -/
structure State (δ ω : Type) where
  table : Str → Option (Row ω)
  writes : ℕ
  /-- The revisions that were written or read. -/
  revisions : List (Attr ω)
  phase : Phase ω
  /-- `seen_cursor_digests` -/
  digests : List δ
  /-- The pages that were accepted. -/
  pages : List (List (Observed ω))
  /-- The rows whose delete was confirmed. -/
  confirmed : List (Observed ω)
  /-- The cursors of the accepted pages. -/
  cursors : List Str
  /-- `ExclusiveStartKey`, of every scan. -/
  starts : List (Option Str)
  /-- How many writes there were when the last page was read. -/
  readAt : ℕ

/-- How a `delete_item` ends. -/
inductive Reply (ω : Type)
  | returned (response : Deleted ω)
  /-- It raises, with or without effect; `conditional` is `_is_conditional_check_failed`. -/
  | raised (effect conditional : Bool)

/-- What can happen. -/
inductive Label (ω : Type)
  /-- Another client writes a row. -/
  | write (item : Item ω)
  /-- Another client deletes one. -/
  | remove (key : Str)
  | scan (page : Page ω)
  | scanFails
  | delete (reply : Reply ω)

/-- A step of the call. -/
def Label.isClear : Label ω → Bool
  | .scan _ | .scanFails | .delete _ => true
  | .write _ | .remove _ => false

/-- The cursor of a page, if it has a text for a key. -/
def Label.cursor? : Label ω → Option Str
  | .scan (.dict _ (.dict cursor)) => key? cursor
  | _ => none

/-- The revisions that a page shows. -/
def Page.revisions : Page ω → List (Attr ω)
  | .dict (.list elements) _ => elements.filterMap fun
    | .dict item => revision? item
    | .other => none
  | .dict .other _ | .other => []

/-- After a row, or before the first. -/
def Phase.enter (rest : List (Observed ω)) (next : Option Str) : Phase ω :=
  match rest, next with
  | [], none => .done [] (.ok ())
  | [], some cursor => .scan (some cursor)
  | _ :: _, _ => .delete rest next

/-- A page is read. -/
def State.read (digest : Bytes → δ) (scope : Option Str) (s : State δ ω) (start : Option Str)
    (page : Page ω) : State δ ω :=
  let s := { s with
    revisions := s.revisions ++ page.revisions
    starts := s.starts ++ [start] }
  match readPage digest scope s.digests page with
  | .error e => { s with phase := .done [] (.error e) }
  | .ok (items, next, seen) =>
    { s with
      phase := .enter items next
      digests := seen
      pages := s.pages ++ [items]
      cursors := s.cursors ++ next.toList
      readAt := s.writes }

/-- A row of the page is deleted. -/
def State.deleteRow (allowUnfenced : Bool) (s : State δ ω) (item : Observed ω)
    (rest : List (Observed ω)) (next : Option Str) (reply : Reply ω) : Option (State δ ω) :=
  match deleteCondition allowUnfenced item.item with
  | .error e => some { s with phase := .done (item :: rest) (.error e) }
  | .ok condition =>
    let holds := condition.holds ((s.table item.key).map (·.item))
    let removed := Function.update s.table item.key none
    match reply with
    | .returned response =>
      if holds then
        match validateDeleted response item.item with
        | .error e => some { s with table := removed, phase := .done (item :: rest) (.error e) }
        | .ok () => some { s with
            table := removed
            phase := .enter rest next
            confirmed := s.confirmed ++ [item] }
      else none
    | .raised effect conditional =>
      if effect && !holds then none
      else some { s with
        table := if effect then removed else s.table
        phase := .done (item :: rest)
          (.error (if conditional then .concurrentWrite else .failed)) }

/-- One step. The service deletes a row only if the condition holds of it. -/
def step (digest : Bytes → δ) (scope : Option Str) (allowUnfenced : Bool) (s : State δ ω) :
    Label ω → Option (State δ ω)
  | .write item =>
    match key? item with
    | none => none
    | some key =>
      if ∀ r ∈ revision? item, r ∉ s.revisions then
        some { s with
          table := Function.update s.table key (some ⟨item, s.writes⟩)
          writes := s.writes + 1
          revisions := s.revisions ++ (revision? item).toList }
      else none
  | .remove key => some { s with table := Function.update s.table key none }
  | .scan page =>
    match s.phase with
    | .scan start => some (s.read digest scope start page)
    | .delete .. | .done .. => none
  | .scanFails =>
    match s.phase with
    | .scan start => some { s with
        phase := .done [] (.error .failed)
        starts := s.starts ++ [start] }
    | .delete .. | .done .. => none
  | .delete reply =>
    match s.phase with
    | .delete (item :: rest) next => s.deleteRow allowUnfenced item rest next reply
    | .delete [] _ | .scan _ | .done .. => none

/-- One call, on a table that others write. -/
def machine (digest : Bytes → δ) (scope : Option Str) (allowUnfenced : Bool) :
    Machine (State δ ω) (Label ω) where
  init := ⟨fun _ ↦ none, 0, [], .scan none, [], [], [], [], [], 0⟩
  step := step digest scope allowUnfenced

/-! ## What a page is -/

/-- A row that the clear goes on with. -/
def Element.Good (scope : Option Str) (e : Element ω) : Prop :=
  ∃ item key, e = .dict item ∧ key? item = some key ∧ RevisionOk item ∧ InScope scope key

/-- A page without anything malformed or out of scope. -/
def Page.Good (scope : Option Str) (page : Page ω) : Prop :=
  ∃ elements cursor next, page = .dict (.list elements) cursor ∧ (∀ e ∈ elements, e.Good scope) ∧
    validatedCursor cursor = .ok next

/-- What `seen_cursor_digests` keeps of a cursor. -/
def mark (digest : Bytes → δ) (cursor : Str) : Option δ := (encodeUtf8 cursor).map digest

section Pages

variable {digest : Bytes → δ} {scope : Option Str} {seen seen' : List δ} {page : Page ω}
  {items : List (Observed ω)} {next : Option Str}

omit [DecidableEq ω] [DecidableEq δ]

theorem validatedElement_ok {e : Element ω} {o : Observed ω} (h : validatedElement e = .ok o) :
    e = .dict o.item := by
  rcases e with item | -
  · rw [validatedElement] at h
    split at h
    · exact nomatch h
    · split_ifs at h
      rw [← Except.ok.inj h]
  · exact nomatch h

theorem validatedElements_ok {elements : List (Element ω)}
    (h : elements.mapM validatedElement = .ok items) : elements = items.map fun o ↦ .dict o.item := by
  have hall := mapM_ok_iff.1 h
  clear h
  induction hall with
  | nil => rfl
  | cons he _ ih => rw [List.map_cons, ← ih, validatedElement_ok he]

theorem validatedCursor_ok {cursor : Cursor ω} {c : Str} (h : validatedCursor cursor = .ok (some c)) :
    ∃ d, cursor = .dict d ∧ key? d = some c := by
  rcases cursor with - | d | -
  · cases h
  · refine ⟨d, rfl, ?_⟩
    rw [validatedCursor] at h
    split at h
    · cases h
    · next name key hentries =>
      split_ifs at h with hname
      obtain rfl := Option.some.inj (Except.ok.inj h)
      rw [key?, OrderedDict.get?, hentries, OrderedDict.lookup_cons_eq_ite, if_pos hname.symm]
    · cases h
  · cases h

theorem validatedScanPage_ok (h : validatedScanPage page = .ok (items, next)) :
    ∃ cursor, page = .dict (.list (items.map fun o ↦ .dict o.item)) cursor ∧
      validatedCursor cursor = .ok next := by
  rcases page with ⟨⟨elements⟩ | -, cursor⟩ | -
  · rw [validatedScanPage] at h
    obtain ⟨items', hitems, hrest⟩ := bind_ok_iff.1 h
    obtain ⟨next', hnext, hreturn⟩ := bind_ok_iff.1 hrest
    obtain ⟨rfl, rfl⟩ := Prod.mk.inj (Except.ok.inj hreturn)
    exact ⟨cursor, by rw [validatedElements_ok hitems], hnext⟩
  · exact nomatch h
  · exact nomatch h

variable [DecidableEq δ]

theorem seeCursor_ok (h : seeCursor digest seen next = .ok seen') (hseen : seen.Nodup) :
    seen'.map some = seen.map some ++ next.toList.map (mark digest) ∧ seen'.Nodup := by
  rcases next with _ | cursor
  · obtain rfl := Except.ok.inj h
    exact ⟨(List.append_nil _).symm, hseen⟩
  · rw [seeCursor] at h
    split at h
    · exact nomatch h
    · next octets hoctets =>
      split_ifs at h with hmem
      obtain rfl := Except.ok.inj h
      refine ⟨?_, hseen.append (List.nodup_singleton _) (List.disjoint_singleton.2 hmem)⟩
      rw [List.map_append, Option.toList_some, List.map_singleton, List.map_singleton, mark, hoctets,
        Option.map_some]

/-- **What an accepted page is.** -/
theorem readPage_ok (h : readPage digest scope seen page = .ok (items, next, seen')) :
    (∃ cursor, page = .dict (.list (items.map fun o ↦ .dict o.item)) cursor ∧
      validatedCursor cursor = .ok next) ∧ (∀ o ∈ items, InScope scope o.key) ∧
      seeCursor digest seen next = .ok seen' := by
  rw [readPage] at h
  obtain ⟨⟨items', next'⟩, hpage, hrest⟩ := bind_ok_iff.1 h
  dsimp only at hrest
  split_ifs at hrest with hscope
  obtain ⟨seen₁, hseen, hreturn⟩ := bind_ok_iff.1 hrest
  obtain ⟨rfl, hnext⟩ := Prod.mk.inj (Except.ok.inj hreturn)
  obtain ⟨rfl, rfl⟩ := Prod.mk.inj hnext
  exact ⟨validatedScanPage_ok hpage, hscope, hseen⟩

theorem good_of_readPage (h : readPage digest scope seen page = .ok (items, next, seen')) :
    page.Good scope := by
  obtain ⟨⟨cursor, rfl, hcursor⟩, hscope, -⟩ := readPage_ok h
  refine ⟨_, cursor, next, rfl, fun e he ↦ ?_, hcursor⟩
  obtain ⟨o, ho, rfl⟩ := List.mem_map.1 he
  exact ⟨o.item, o.key, rfl, o.key_eq, o.valid, hscope o ho⟩

end Pages

/-! ## What a step does -/

/-- What is left of the page. -/
def Phase.rest : Phase ω → List (Observed ω)
  | .scan _ => []
  | .delete rest _ | .done rest _ => rest

/-- Where the next scan will start, if there is one. -/
def Phase.pending : Phase ω → List (Option Str)
  | .scan start => [start]
  | .delete _ next => next.toList.map some
  | .done .. => []

/-- It has not raised. -/
def Phase.fine : Phase ω → Bool
  | .scan _ | .delete .. | .done _ (.ok ()) => true
  | .done _ (.error _) => false

/-- The last page. -/
def State.page (s : State δ ω) : List (Observed ω) := s.pages.getLast?.getD []

/-- The row is there, with the revision that was read. -/
def Current (s : State δ ω) (o : Observed ω) : Prop :=
  ∃ row r, s.table o.key = some row ∧ revision? o.item = some r ∧ revision? row.item = some r

omit [DecidableEq ω] in
@[simp] theorem rest_enter (rest : List (Observed ω)) (next : Option Str) :
    (Phase.enter rest next).rest = rest := by
  rcases rest with _ | ⟨o, rest⟩
  · rcases next with _ | c
    · rfl
    · rfl
  · rfl

omit [DecidableEq ω] in
theorem pending_enter (rest : List (Observed ω)) (next : Option Str) :
    (Phase.enter rest next).pending = next.toList.map some := by
  rcases rest with _ | ⟨o, rest⟩
  · rcases next with _ | c
    · rfl
    · rfl
  · rfl

omit [DecidableEq ω] in
theorem enter_ne_delete_nil (rest : List (Observed ω)) (next next' : Option Str) :
    Phase.enter rest next ≠ .delete [] next' := by
  rcases rest with _ | ⟨o, rest⟩
  · rcases next with _ | c
    · exact fun h ↦ (nomatch h)
    · exact fun h ↦ (nomatch h)
  · intro h
    exact List.cons_ne_nil o rest (Phase.delete.inj h).1

omit [DecidableEq ω] in
theorem rest_of_enter_ok {rest rest' : List (Observed ω)} {next : Option Str}
    (h : Phase.enter rest next = .done rest' (.ok ())) : rest' = [] := by
  rcases rest with _ | ⟨o, rest⟩
  · rcases next with _ | c
    · exact (Phase.done.inj h).1.symm
    · exact nomatch h
  · exact nomatch h

section Steps

variable {digest : Bytes → δ} {scope : Option Str} {allowUnfenced : Bool} {s t : State δ ω}
  {o : Observed ω} {rest : List (Observed ω)} {next : Option Str}

omit [DecidableEq δ] in
/-- **Deletes.** Nothing is deleted, and the call raises; or the condition holds and the row is deleted;
then the answer is refused or confirms it. -/
theorem deleteRow_cases {reply : Reply ω} (h : s.deleteRow allowUnfenced o rest next reply = some t) :
    (∃ e, t = { s with phase := .done (o :: rest) (.error e) }) ∨
    ∃ condition, deleteCondition allowUnfenced o.item = .ok condition ∧
      condition.holds ((s.table o.key).map (·.item)) = true ∧
      ((∃ e, t = { s with
          table := Function.update s.table o.key none
          phase := .done (o :: rest) (.error e) }) ∨
        t = { s with
          table := Function.update s.table o.key none
          phase := .enter rest next
          confirmed := s.confirmed ++ [o] }) := by
  unfold State.deleteRow at h
  rcases hcondition : deleteCondition allowUnfenced o.item with e | condition
  · rw [hcondition] at h
    exact .inl ⟨e, (Option.some.inj h).symm⟩
  rw [hcondition] at h
  dsimp only at h
  rcases hholds : condition.holds ((s.table o.key).map (·.item)) with _ | _
  · rw [hholds] at h
    rcases reply with response | ⟨_ | _, conditional⟩
    · exact nomatch h
    · exact .inl ⟨_, (Option.some.inj h).symm⟩
    · exact nomatch h
  · rw [hholds] at h
    rcases reply with response | ⟨_ | _, conditional⟩
    · refine .inr ⟨condition, rfl, hholds, ?_⟩
      dsimp only at h
      rw [if_pos rfl] at h
      rcases hresponse : validateDeleted response o.item with e | ⟨⟩
      · rw [hresponse] at h
        exact .inl ⟨e, (Option.some.inj h).symm⟩
      · rw [hresponse] at h
        exact .inr (Option.some.inj h).symm
    · exact .inl ⟨_, (Option.some.inj h).symm⟩
    · exact .inr ⟨condition, rfl, hholds, .inl ⟨_, (Option.some.inj h).symm⟩⟩

omit [DecidableEq δ] in
/-- Without the override a condition is a revision, and what it holds of has it. -/
theorem current_of_holds {condition : Condition ω} (hcondition : deleteCondition false o.item = .ok condition)
    (hholds : condition.holds ((s.table o.key).map (·.item)) = true) : Current s o := by
  rw [deleteCondition] at hcondition
  split at hcondition
  · next r hr =>
    split_ifs at hcondition
    obtain rfl := Except.ok.inj hcondition
    have hcurrent := of_decide_eq_true hholds
    obtain ⟨item, hitem, hrevision⟩ := Option.bind_eq_some_iff.1 hcurrent
    obtain ⟨row, hrow, rfl⟩ := Option.map_eq_some_iff.1 hitem
    exact ⟨row, r, hrow, hr, hrevision⟩
  · exact nomatch hcondition

omit [DecidableEq ω] in
/-- **Reads.** A page is refused, or accepted as it is. -/
theorem read_cases (digest : Bytes → δ) (scope : Option Str) (s : State δ ω) (start : Option Str)
    (page : Page ω) :
    (∃ e, readPage digest scope s.digests page = .error e ∧ s.read digest scope start page = { s with
      revisions := s.revisions ++ page.revisions
      starts := s.starts ++ [start]
      phase := .done [] (.error e) }) ∨
    ∃ items next seen, readPage digest scope s.digests page = .ok (items, next, seen) ∧
      s.read digest scope start page = { s with
        revisions := s.revisions ++ page.revisions
        starts := s.starts ++ [start]
        phase := .enter items next
        digests := seen
        pages := s.pages ++ [items]
        cursors := s.cursors ++ next.toList
        readAt := s.writes } := by
  unfold State.read
  rcases hread : readPage digest scope s.digests page with e | ⟨items, next, seen⟩
  · exact .inl ⟨e, rfl, by simp only [hread]⟩
  · exact .inr ⟨items, next, seen, rfl, by simp only [hread]⟩

/-- **Steps.** -/
theorem step_cases {a : Label ω} (h : step digest scope allowUnfenced s a = some t) :
    (∃ item key, a = .write item ∧ (∀ r ∈ revision? item, r ∉ s.revisions) ∧ t = { s with
      table := Function.update s.table key (some ⟨item, s.writes⟩)
      writes := s.writes + 1
      revisions := s.revisions ++ (revision? item).toList }) ∨
    (∃ key, a = .remove key ∧ t = { s with table := Function.update s.table key none }) ∨
    (∃ page start, a = .scan page ∧ s.phase = .scan start ∧
      t = s.read digest scope start page) ∨
    (∃ start, a = .scanFails ∧ s.phase = .scan start ∧
      t = { s with phase := .done [] (.error .failed), starts := s.starts ++ [start] }) ∨
    ∃ reply o rest next, a = .delete reply ∧ s.phase = .delete (o :: rest) next ∧
      s.deleteRow allowUnfenced o rest next reply = some t := by
  rcases a with item | key | page | - | reply <;> simp only [step] at h
  · split at h
    · exact nomatch h
    · next key _ =>
      split_ifs at h with hfresh
      exact .inl ⟨item, key, rfl, hfresh, (Option.some.inj h).symm⟩
  · exact .inr (.inl ⟨key, rfl, (Option.some.inj h).symm⟩)
  · split at h
    · next start hphase => exact .inr (.inr (.inl ⟨page, start, rfl, hphase, (Option.some.inj h).symm⟩))
    · exact nomatch h
    · exact nomatch h
  · split at h
    · next start hphase =>
      exact .inr (.inr (.inr (.inl ⟨start, rfl, hphase, (Option.some.inj h).symm⟩)))
    · exact nomatch h
    · exact nomatch h
  · split at h
    · next o rest next hphase => exact .inr (.inr (.inr (.inr ⟨reply, o, rest, next, rfl, hphase, h⟩)))
    · exact nomatch h
    · exact nomatch h
    · exact nomatch h

end Steps

/-! ## Invariants -/

/-- What has the revision of a row of the page was written before the page was read. -/
structure Stamped (s : State δ ω) : Prop where
  written_lt : ∀ k row, s.table k = some row → row.written < s.writes
  known : ∀ k row, s.table k = some row → ∀ r ∈ revision? row.item, r ∈ s.revisions
  shown : ∀ o ∈ s.page, ∀ r ∈ revision? o.item, r ∈ s.revisions
  older : ∀ o ∈ s.page, ∀ r ∈ revision? o.item, ∀ k row, s.table k = some row →
    r ∈ revision? row.item → row.written < s.readAt

/-- What has been deleted is a first part of what the pages list. -/
structure Listed (scope : Option Str) (allowUnfenced : Bool) (s : State δ ω) : Prop where
  listed : s.confirmed ++ s.phase.rest = s.pages.flatten
  last : s.phase.rest <:+ s.page
  inScope : ∀ o ∈ s.pages.flatten, InScope scope o.key
  fenced : allowUnfenced = false → ∀ o ∈ s.confirmed, revision? o.item ≠ none
  busy : ∀ next, s.phase ≠ .delete [] next
  finished : ∀ rest, s.phase = .done rest (.ok ()) → rest = []

/-- No cursor comes twice, and the scans start where the cursors say, in their order. -/
structure Followed (digest : Bytes → δ) (s : State δ ω) : Prop where
  marks : s.digests.map some = s.cursors.map (mark digest)
  nodup : s.digests.Nodup
  starts : s.starts ++ s.phase.pending <+: none :: s.cursors.map some
  fine : s.phase.fine = true → s.starts ++ s.phase.pending = none :: s.cursors.map some

section Invariants

variable {digest : Bytes → δ} {scope : Option Str} {allowUnfenced : Bool} {s t : State δ ω}

omit [DecidableEq ω] [DecidableEq δ]

theorem mem_revisions {items : List (Observed ω)} {cursor : Cursor ω} {o : Observed ω} (ho : o ∈ items)
    {r : Attr ω} (hr : r ∈ revision? o.item) :
    r ∈ (Page.dict (.list (items.map fun o ↦ .dict o.item)) cursor).revisions :=
  List.mem_filterMap.2 ⟨.dict o.item, List.mem_map.2 ⟨o, ho, rfl⟩, hr⟩

/-- Rows may go. -/
theorem Stamped.shrink (h : Stamped s) {key : Str} {phase : Phase ω} {confirmed : List (Observed ω)} :
    Stamped { s with
      table := Function.update s.table key none
      phase := phase
      confirmed := confirmed } := by
  have hold : ∀ k row, Function.update s.table key none k = some row → s.table k = some row := by
    intro k row hk
    by_cases heq : k = key
    · subst heq
      rw [Function.update_self] at hk
      exact nomatch hk
    · rwa [Function.update_of_ne heq] at hk
  exact ⟨fun k row hk ↦ h.written_lt k row (hold k row hk), fun k row hk ↦ h.known k row (hold k row hk),
    h.shown, fun o ho r hr k row hk ↦ h.older o ho r hr k row (hold k row hk)⟩

theorem Stamped.phase (h : Stamped s) {phase : Phase ω} {starts : List (Option Str)} :
    Stamped { s with phase := phase, starts := starts } :=
  ⟨h.written_lt, h.known, h.shown, h.older⟩

/-- A row that is written has a revision of its own. -/
theorem Stamped.write (h : Stamped s) {item : Item ω} (key : Str)
    (hfresh : ∀ r ∈ revision? item, r ∉ s.revisions) : Stamped { s with
      table := Function.update s.table key (some ⟨item, s.writes⟩)
      writes := s.writes + 1
      revisions := s.revisions ++ (revision? item).toList } := by
  have hcases : ∀ k row, Function.update s.table key (some ⟨item, s.writes⟩) k = some row →
      row = ⟨item, s.writes⟩ ∨ s.table k = some row := by
    intro k row hk
    by_cases heq : k = key
    · subst heq
      rw [Function.update_self] at hk
      exact .inl (Option.some.inj hk).symm
    · rw [Function.update_of_ne heq] at hk
      exact .inr hk
  refine ⟨fun k row hk ↦ ?_, fun k row hk r hr ↦ ?_,
    fun o ho r hr ↦ List.mem_append_left _ (h.shown o ho r hr), fun o ho r hr k row hk hrow ↦ ?_⟩
  · rcases hcases k row hk with rfl | hk
    · exact Nat.lt_succ_self _
    · exact (h.written_lt k row hk).trans (Nat.lt_succ_self _)
  · rcases hcases k row hk with rfl | hk
    · exact List.mem_append_right _ (Option.mem_toList.2 hr)
    · exact List.mem_append_left _ (h.known k row hk r hr)
  · rcases hcases k row hk with rfl | hk
    · exact absurd (h.shown o ho r hr) (hfresh r hrow)
    · exact h.older o ho r hr k row hk hrow

/-- What the page shows was written before. -/
theorem Stamped.accept (h : Stamped s) {items : List (Observed ω)} {cursor : Cursor ω}
    {phase : Phase ω} {seen : List δ} {cursors : List Str} {starts : List (Option Str)} : Stamped { s with
      revisions :=
        s.revisions ++ (Page.dict (.list (items.map fun o ↦ .dict o.item)) cursor).revisions
      starts := starts
      phase := phase
      digests := seen
      pages := s.pages ++ [items]
      cursors := cursors
      readAt := s.writes } := by
  refine ⟨h.written_lt, fun k row hk r hr ↦ List.mem_append_left _ (h.known k row hk r hr),
    fun o ho r hr ↦ ?_, fun _ _ _ _ k row hk _ ↦ h.written_lt k row hk⟩
  have ho' : o ∈ items := by
    rwa [State.page, List.getLast?_concat, Option.getD_some] at ho
  exact List.mem_append_right _ (mem_revisions ho' hr)

variable [DecidableEq ω] [DecidableEq δ]

theorem Stamped.step (h : Stamped s) {a : Label ω}
    (ht : DynamoDb.step digest scope allowUnfenced s a = some t) : Stamped t := by
  rcases step_cases ht with ⟨item, key, -, hfresh, rfl⟩ | ⟨key, -, rfl⟩ | ⟨page, start, -, -, rfl⟩ |
    ⟨start, -, -, rfl⟩ | ⟨reply, o, rest, next, -, -, hdelete⟩
  · exact h.write key hfresh
  · exact h.shrink
  · rcases read_cases digest scope s start page with ⟨e, -, heq⟩ | ⟨items, next, seen, hread, heq⟩ <;> rw [heq]
    · exact ⟨h.written_lt, fun k row hk r hr ↦ List.mem_append_left _ (h.known k row hk r hr),
        fun o ho r hr ↦ List.mem_append_left _ (h.shown o ho r hr), h.older⟩
    · obtain ⟨⟨cursor, rfl, -⟩, -, -⟩ := readPage_ok hread
      exact h.accept
  · exact h.phase
  · rcases deleteRow_cases hdelete with ⟨e, rfl⟩ | ⟨condition, -, -, ⟨e, rfl⟩ | rfl⟩
    · exact h.phase
    · exact h.shrink
    · exact h.shrink

theorem Listed.step (h : Listed scope allowUnfenced s) {a : Label ω}
    (ht : DynamoDb.step digest scope allowUnfenced s a = some t) : Listed scope allowUnfenced t := by
  rcases step_cases ht with ⟨item, key, -, -, rfl⟩ | ⟨key, -, rfl⟩ | ⟨page, start, -, hphase, rfl⟩ |
    ⟨start, -, hphase, rfl⟩ | ⟨reply, o, rest, next, -, hphase, hdelete⟩
  · exact ⟨h.listed, h.last, h.inScope, h.fenced, h.busy, h.finished⟩
  · exact ⟨h.listed, h.last, h.inScope, h.fenced, h.busy, h.finished⟩
  · have hlisted : s.confirmed ++ [] = s.pages.flatten := by
      have hold := h.listed
      rwa [hphase] at hold
    rcases read_cases digest scope s start page with ⟨e, -, heq⟩ | ⟨items, next, seen, hread, heq⟩ <;> rw [heq]
    · exact ⟨hlisted, List.nil_suffix, h.inScope, h.fenced, fun _ h ↦ (nomatch h),
        fun _ h ↦ (Phase.done.inj h).1.symm⟩
    · obtain ⟨-, hscope, -⟩ := readPage_ok hread
      have hflatten : (s.pages ++ [items]).flatten = s.pages.flatten ++ items := by
        rw [List.flatten_append, List.flatten_singleton]
      refine ⟨?_, ?_, fun o ho ↦ ?_, h.fenced, fun next' ↦ enter_ne_delete_nil items next next',
        fun rest hrest ↦ ?_⟩
      · rw [hflatten, rest_enter, ← hlisted, List.append_nil]
      · rw [rest_enter, State.page, List.getLast?_concat, Option.getD_some]
      · rw [hflatten] at ho
        rcases List.mem_append.1 ho with ho | ho
        · exact h.inScope o ho
        · exact hscope o ho
      · exact rest_of_enter_ok hrest
  · have hlisted : s.confirmed ++ [] = s.pages.flatten := by
      have hold := h.listed
      rwa [hphase] at hold
    exact ⟨hlisted, List.nil_suffix, h.inScope, h.fenced, fun _ h ↦ (nomatch h),
      fun _ h ↦ (Phase.done.inj h).1.symm⟩
  · have hlisted : s.confirmed ++ (o :: rest) = s.pages.flatten := by
      have hold := h.listed
      rwa [hphase] at hold
    have hlast : o :: rest <:+ s.page := by
      have hold := h.last
      rwa [hphase] at hold
    have hraised : ∀ table e, Listed scope allowUnfenced
        { s with table := table, phase := .done (o :: rest) (.error e) } := fun table e ↦
      ⟨hlisted, hlast, h.inScope, h.fenced, fun _ h ↦ (nomatch h), fun _ h ↦ (nomatch h)⟩
    rcases deleteRow_cases hdelete with ⟨e, rfl⟩ | ⟨condition, hcondition, -, ⟨e, rfl⟩ | rfl⟩
    · exact hraised s.table e
    · exact hraised _ e
    · refine ⟨?_, ?_, h.inScope, fun hallow o' ho' ↦ ?_, fun next' ↦ enter_ne_delete_nil rest next next',
        fun rest' hrest ↦ rest_of_enter_ok hrest⟩
      · rw [rest_enter, List.append_assoc]
        exact hlisted
      · rw [rest_enter]
        exact (List.suffix_cons o rest).trans hlast
      · rcases List.mem_append.1 ho' with ho' | ho'
        · exact h.fenced hallow o' ho'
        · obtain rfl := List.mem_singleton.1 ho'
          intro hnone
          rw [deleteCondition, hnone, hallow] at hcondition
          exact nomatch hcondition

theorem Followed.step (h : Followed digest s) {a : Label ω}
    (ht : DynamoDb.step digest scope allowUnfenced s a = some t) : Followed digest t := by
  rcases step_cases ht with ⟨item, key, -, -, rfl⟩ | ⟨key, -, rfl⟩ | ⟨page, start, -, hphase, rfl⟩ |
    ⟨start, -, hphase, rfl⟩ | ⟨reply, o, rest, next, -, hphase, hdelete⟩
  · exact ⟨h.marks, h.nodup, h.starts, h.fine⟩
  · exact ⟨h.marks, h.nodup, h.starts, h.fine⟩
  · have hstarts : s.starts ++ [start] = none :: s.cursors.map some := by
      have hold := h.fine (by rw [hphase]; rfl)
      rwa [hphase] at hold
    rcases read_cases digest scope s start page with ⟨e, -, heq⟩ | ⟨items, next, seen, hread, heq⟩ <;>
      rw [heq]
    · refine ⟨h.marks, h.nodup, ?_, fun h ↦ (nomatch h)⟩
      rw [Phase.pending, List.append_nil, hstarts]
    · obtain ⟨-, -, hsee⟩ := readPage_ok hread
      obtain ⟨hmarks, hnodup⟩ := seeCursor_ok hsee h.nodup
      have hnext : s.starts ++ [start] ++ (Phase.enter items next).pending =
          none :: (s.cursors ++ next.toList).map some := by
        rw [hstarts, pending_enter, List.cons_append, List.map_append]
      refine ⟨?_, hnodup, hnext ▸ List.prefix_refl _, fun _ ↦ hnext⟩
      rw [hmarks, h.marks, List.map_append]
  · have hstarts : s.starts ++ [start] = none :: s.cursors.map some := by
      have hold := h.fine (by rw [hphase]; rfl)
      rwa [hphase] at hold
    refine ⟨h.marks, h.nodup, ?_, fun h ↦ (nomatch h)⟩
    rw [Phase.pending, List.append_nil, hstarts]
  · have hstarts : s.starts ++ next.toList.map some = none :: s.cursors.map some := by
      have hold := h.fine (by rw [hphase]; rfl)
      rwa [hphase] at hold
    have hraised : ∀ table e, Followed digest
        { s with table := table, phase := .done (o :: rest) (.error e) } := by
      intro table e
      refine ⟨h.marks, h.nodup, ?_, fun h ↦ (nomatch h)⟩
      rw [Phase.pending, List.append_nil, ← hstarts]
      exact List.prefix_append _ _
    rcases deleteRow_cases hdelete with ⟨e, rfl⟩ | ⟨condition, -, -, ⟨e, rfl⟩ | rfl⟩
    · exact hraised s.table e
    · exact hraised _ e
    · have hnext : s.starts ++ (Phase.enter rest next).pending = none :: s.cursors.map some := by
        rw [pending_enter, hstarts]
      exact ⟨h.marks, h.nodup, hnext ▸ List.prefix_refl _, fun _ ↦ hnext⟩

/-- In every reachable state. -/
theorem invariants_of_reachable (h : (machine digest scope allowUnfenced).Reachable s) :
    Stamped s ∧ Listed scope allowUnfenced s ∧ Followed digest s := by
  refine ⟨h.invariant ?_ fun _ _ _ hs ht ↦ hs.step ht, h.invariant ?_ fun _ _ _ hs ht ↦ hs.step ht,
    h.invariant ?_ fun _ _ _ hs ht ↦ hs.step ht⟩
  · exact ⟨fun _ _ h ↦ (nomatch h), fun _ _ h ↦ (nomatch h), fun _ h ↦ absurd h List.not_mem_nil,
      fun _ h ↦ absurd h List.not_mem_nil⟩
  · exact ⟨rfl, List.nil_suffix, fun _ h ↦ absurd h List.not_mem_nil,
      fun _ _ h ↦ absurd h List.not_mem_nil, fun _ h ↦ (nomatch h), fun _ h ↦ (nomatch h)⟩
  · exact ⟨rfl, List.nodup_nil, List.prefix_refl _, fun _ ↦ rfl⟩

omit [DecidableEq ω] [DecidableEq δ] in
/-- No scan starts where another one did. -/
theorem Followed.starts_nodup (h : Followed digest s) : s.starts.Nodup := by
  have hsome : (s.digests.map some).Nodup := h.nodup.map (Option.some_injective δ)
  rw [h.marks] at hsome
  have hcursors : s.cursors.Nodup := hsome.of_map _
  have hall : (none :: s.cursors.map some).Nodup := by
    refine List.nodup_cons.2 ⟨fun hmem ↦ ?_, hcursors.map (Option.some_injective Str)⟩
    obtain ⟨c, -, hc⟩ := List.mem_map.1 hmem
    exact nomatch hc
  exact (hall.sublist h.starts.sublist).sublist (List.sublist_append_left _ _)

end Invariants

/-! ## A clear is careful -/

/-- The call takes nothing from the table but a row of the page, in scope, that is as it was read. -/
def Fenced (scope : Option Str) (s t : State δ ω) : Prop :=
  ∀ k, t.table k = s.table k ∨ t.table k = none ∧ ∃ o ∈ s.page, ∃ row r, o.key = k ∧ InScope scope k ∧
    s.table k = some row ∧ revision? o.item = some r ∧ revision? row.item = some r ∧
    row.written < s.readAt

/-- What is confirmed was there as it was read, and is gone. -/
def Confirms (s t : State δ ω) : Prop :=
  t.confirmed = s.confirmed ∨ ∃ o, t.confirmed = s.confirmed ++ [o] ∧ Current s o ∧ t.table o.key = none

/-- The call raises, and the table is as it was. -/
def Stops (s t : State δ ω) : Prop := t.table = s.table ∧ ∃ rest e, t.phase = .done rest (.error e)

/-- What is asked of a clear without the override. -/
structure Careful (digest : Bytes → δ) (scope : Option Str) (s : State δ ω) : Prop where
  fenced : ∀ a t, a.isClear = true → step digest scope false s a = some t →
    Fenced scope s t ∧ Confirms s t
  stopsAtPage : ∀ page t, ¬ page.Good scope → step digest scope false s (.scan page) = some t → Stops s t
  stopsAtRow : ∀ reply o rest next t, s.phase = .delete (o :: rest) next → ¬ Current s o →
    step digest scope false s (.delete reply) = some t → Stops s t
  stopped : ∀ rest outcome a, s.phase = .done rest outcome → a.isClear = true →
    step digest scope false s a = none
  goesOn : (∃ rest outcome, s.phase = .done rest outcome) ∨
    ∃ a, a.isClear = true ∧ (step digest scope false s a).isSome = true
  ordered : s.confirmed <+: s.pages.flatten
  starts : s.starts.Nodup
  complete : ∀ rest, s.phase = .done rest (.ok ()) → s.confirmed = s.pages.flatten

section Careful

variable {digest : Bytes → δ} {scope : Option Str} {allowUnfenced : Bool} {s t : State δ ω}
  {o : Observed ω} {rest : List (Observed ω)} {next : Option Str}

omit [DecidableEq ω] [DecidableEq δ] in
theorem Fenced.of_eq (h : t.table = s.table) : Fenced scope s t := fun k ↦ .inl (congrFun h k)

omit [DecidableEq ω] [DecidableEq δ] in
theorem Listed.mem_page (h : Listed scope allowUnfenced s) (ho : o ∈ s.phase.rest) :
    o ∈ s.page ∧ InScope scope o.key := by
  refine ⟨h.last.subset ho, h.inScope o ?_⟩
  rw [← h.listed]
  exact List.mem_append_right _ ho

omit [DecidableEq ω] [DecidableEq δ] in
/-- A row of the page that is still as it was read may go. -/
theorem Stamped.fenced (h : Stamped s) (hpage : o ∈ s.page) (hscope : InScope scope o.key)
    (hcurrent : Current s o) (ht : t.table = Function.update s.table o.key none) : Fenced scope s t := by
  intro k
  rw [ht]
  by_cases hk : k = o.key
  · subst hk
    obtain ⟨row, r, hrow, hr, hrevision⟩ := hcurrent
    exact .inr ⟨Function.update_self .., o, hpage, row, r, rfl, hscope, hrow, hr, hrevision,
      h.older o hpage r hr _ row hrow hrevision⟩
  · exact .inl (Function.update_of_ne hk _ _)

omit [DecidableEq ω] in
theorem read_table (digest : Bytes → δ) (scope : Option Str) (s : State δ ω) (start : Option Str)
    (page : Page ω) :
    (s.read digest scope start page).table = s.table ∧
      (s.read digest scope start page).confirmed = s.confirmed := by
  rcases read_cases digest scope s start page with ⟨e, -, heq⟩ | ⟨items, next, seen, -, heq⟩ <;> rw [heq]
  · exact ⟨rfl, rfl⟩
  · exact ⟨rfl, rfl⟩

/-- **Safety.** -/
theorem fenced_step (hs : Stamped s) (hl : Listed scope false s) {a : Label ω} (ha : a.isClear = true)
    (ht : step digest scope false s a = some t) : Fenced scope s t ∧ Confirms s t := by
  rcases step_cases ht with ⟨item, key, rfl, -, -⟩ | ⟨key, rfl, -⟩ | ⟨page, start, -, hphase, rfl⟩ |
    ⟨start, -, -, rfl⟩ | ⟨reply, o, rest, next, -, hphase, hdelete⟩
  · exact nomatch ha
  · exact nomatch ha
  · obtain ⟨htable, hconfirmed⟩ := read_table digest scope s start page
    exact ⟨.of_eq htable, .inl hconfirmed⟩
  · exact ⟨.of_eq rfl, .inl rfl⟩
  · have hrest : o ∈ s.phase.rest := by
      rw [hphase]
      exact List.mem_cons_self
    obtain ⟨hpage, hscope⟩ := hl.mem_page hrest
    rcases deleteRow_cases hdelete with ⟨e, rfl⟩ | ⟨condition, hcondition, hholds, ⟨e, rfl⟩ | rfl⟩
    · exact ⟨.of_eq rfl, .inl rfl⟩
    · exact ⟨hs.fenced hpage hscope (current_of_holds hcondition hholds) rfl, .inl rfl⟩
    · have hcurrent := current_of_holds hcondition hholds
      exact ⟨hs.fenced hpage hscope hcurrent rfl, .inr ⟨o, rfl, hcurrent, Function.update_self ..⟩⟩

/-- A page that is not good is refused as a whole. -/
theorem stops_at_page {page : Page ω} (hbad : ¬ page.Good scope)
    (ht : step digest scope allowUnfenced s (.scan page) = some t) : Stops s t := by
  rcases step_cases ht with ⟨_, _, h, -⟩ | ⟨_, h, -⟩ | ⟨page', start, h, -, rfl⟩ | ⟨_, h, -⟩ |
    ⟨_, _, _, _, h, -⟩
  · exact nomatch h
  · exact nomatch h
  · obtain rfl := Label.scan.inj h
    rcases read_cases digest scope s start page with ⟨e, -, heq⟩ | ⟨items, next, seen, hread, -⟩
    · rw [heq]
      exact ⟨rfl, [], e, rfl⟩
    · exact absurd (good_of_readPage hread) hbad
  · exact nomatch h
  · exact nomatch h

/-- A row that has changed, or has no revision, stays. -/
theorem stops_at_row {reply : Reply ω} (hphase : s.phase = .delete (o :: rest) next)
    (hchanged : ¬ Current s o) (ht : step digest scope false s (.delete reply) = some t) : Stops s t := by
  have hdelete : s.deleteRow false o rest next reply = some t := by
    rw [step, hphase] at ht
    exact ht
  rcases deleteRow_cases hdelete with ⟨e, rfl⟩ | ⟨condition, hcondition, hholds, -⟩
  · exact ⟨rfl, _, e, rfl⟩
  · exact absurd (current_of_holds hcondition hholds) hchanged

theorem stopped {outcome : Except Refusal Unit} (hphase : s.phase = .done rest outcome) {a : Label ω}
    (ha : a.isClear = true) : step digest scope allowUnfenced s a = none := by
  rcases a with item | key | page | - | reply
  · exact nomatch ha
  · exact nomatch ha
  · rw [step, hphase]
  · rw [step, hphase]
  · rw [step, hphase]

/-- Whatever the service does, the call goes on until it is done. -/
theorem goes_on (h : Listed scope allowUnfenced s) : (∃ rest outcome, s.phase = .done rest outcome) ∨
    ∃ a, a.isClear = true ∧ (step digest scope allowUnfenced s a).isSome = true := by
  rcases hphase : s.phase with start | ⟨_ | ⟨o, rest⟩, next⟩ | ⟨rest, outcome⟩
  · refine .inr ⟨.scanFails, rfl, ?_⟩
    rw [step, hphase]
    rfl
  · exact absurd hphase (h.busy next)
  · refine .inr ⟨.delete (.raised false false), rfl, ?_⟩
    rw [step, hphase]
    dsimp only
    unfold State.deleteRow
    rcases deleteCondition allowUnfenced o.item with e | condition
    · rfl
    · rfl
  · exact .inl ⟨rest, outcome, rfl⟩

theorem careful_of_reachable (h : (machine digest scope false).Reachable s) : Careful digest scope s := by
  obtain ⟨hstamped, hlisted, hfollowed⟩ := invariants_of_reachable h
  refine ⟨fun a t ha ht ↦ fenced_step hstamped hlisted ha ht, fun page t hbad ht ↦ stops_at_page hbad ht,
    fun reply o rest next t hphase hchanged ht ↦ stops_at_row hphase hchanged ht,
    fun rest outcome a hphase ha ↦ stopped hphase ha, goes_on hlisted,
    hlisted.listed ▸ List.prefix_append _ _, hfollowed.starts_nodup, fun rest hphase ↦ ?_⟩
  have hall := hlisted.listed
  rw [hphase, Phase.rest, hlisted.finished rest hphase, List.append_nil] at hall
  exact hall

end Careful

/-! ## A clear ends -/

/-- What there is to do before the next scan. -/
def Phase.work : Phase ω → ℕ
  | .scan _ => 1
  | .delete rest _ => rest.length + 1
  | .done .. => 0

/-- Scans that are left, and what there is to do before the next. -/
def State.rank (bound : ℕ) (s : State δ ω) : ℕ ×ₗ ℕ := toLex (bound - s.starts.length, s.phase.work)

section Ends

variable {digest : Bytes → δ} {scope : Option Str} {allowUnfenced : Bool} {s t : State δ ω}
  {cursors : Finset Str}

omit [DecidableEq ω] in
theorem work_enter_le (rest : List (Observed ω)) (next : Option Str) :
    (Phase.enter rest next).work ≤ rest.length + 1 := by
  rcases rest with _ | ⟨o, rest⟩
  · rcases next with _ | c
    · exact Nat.zero_le _
    · exact le_rfl
  · exact le_rfl

/-- The accepted cursors come from the service. -/
theorem cursors_of_step {a : Label ω} (ht : step digest scope allowUnfenced s a = some t) {c : Str}
    (hc : c ∈ t.cursors) : c ∈ s.cursors ∨ a.cursor? = some c := by
  rcases step_cases ht with ⟨item, key, -, -, rfl⟩ | ⟨key, -, rfl⟩ | ⟨page, start, rfl, -, rfl⟩ |
    ⟨start, -, -, rfl⟩ | ⟨reply, o, rest, next, -, -, hdelete⟩
  · exact .inl hc
  · exact .inl hc
  · rcases read_cases digest scope s start page with ⟨e, -, heq⟩ | ⟨items, next, seen, hread, heq⟩ <;>
      rw [heq] at hc
    · exact .inl hc
    · refine (List.mem_append.1 hc).imp_right fun hnext ↦ ?_
      obtain ⟨⟨cursor, rfl, hcursor⟩, -, -⟩ := readPage_ok hread
      obtain rfl := Option.mem_toList.1 hnext
      obtain ⟨d, rfl, hd⟩ := validatedCursor_ok hcursor
      exact hd
  · exact .inl hc
  · rcases deleteRow_cases hdelete with ⟨e, rfl⟩ | ⟨condition, -, -, ⟨e, rfl⟩ | rfl⟩
    · exact .inl hc
    · exact .inl hc
    · exact .inl hc

omit [DecidableEq ω] [DecidableEq δ] in
/-- There is one scan more than there are cursors, at most. -/
theorem Followed.starts_length_le (h : Followed digest s) (hcursors : ∀ c ∈ s.cursors, c ∈ cursors) :
    s.starts.length ≤ cursors.card + 1 := by
  have hsome : (s.digests.map some).Nodup := h.nodup.map (Option.some_injective δ)
  rw [h.marks] at hsome
  have hnodup : s.cursors.Nodup := hsome.of_map _
  have hle : s.cursors.length ≤ cursors.card := by
    rw [← List.toFinset_card_of_nodup hnodup]
    exact Finset.card_le_card fun c hc ↦ hcursors c (List.mem_toFinset.1 hc)
  have hstarts := h.starts.length_le
  rw [List.length_append, List.length_cons, List.length_map] at hstarts
  omega

/-- Another client does not change what there is to do. -/
theorem rank_other {a : Label ω} (ha : a.isClear = false) (bound : ℕ)
    (ht : step digest scope allowUnfenced s a = some t) : t.rank bound = s.rank bound := by
  rcases step_cases ht with ⟨item, key, -, -, rfl⟩ | ⟨key, -, rfl⟩ | ⟨_, _, rfl, -⟩ | ⟨_, rfl, -⟩ |
    ⟨_, _, _, _, rfl, -⟩
  · rfl
  · rfl
  · exact nomatch ha
  · exact nomatch ha
  · exact nomatch ha

/-- A step of the call leaves less to do. -/
theorem rank_lt {a : Label ω} (ha : a.isClear = true) {bound : ℕ} (hbound : t.starts.length ≤ bound)
    (ht : step digest scope allowUnfenced s a = some t) : t.rank bound < s.rank bound := by
  have hscan : ∀ start, t.starts = s.starts ++ [start] → t.rank bound < s.rank bound := by
    intro start hstarts
    rw [hstarts, List.length_append, List.length_singleton] at hbound
    refine Prod.Lex.toLex_lt_toLex.2 (.inl ?_)
    rw [hstarts, List.length_append, List.length_singleton]
    omega
  rcases step_cases ht with ⟨_, _, rfl, -⟩ | ⟨_, rfl, -⟩ | ⟨page, start, -, -, rfl⟩ |
    ⟨start, -, -, rfl⟩ | ⟨reply, o, rest, next, -, hphase, hdelete⟩
  · exact nomatch ha
  · exact nomatch ha
  · refine hscan start ?_
    rcases read_cases digest scope s start page with ⟨e, -, heq⟩ | ⟨items, next, seen, -, heq⟩ <;> rw [heq]
  · exact hscan start rfl
  · have hwork : ∀ phase : Phase ω, phase.work ≤ rest.length + 1 → ∀ table confirmed,
        State.rank bound { s with table := table, phase := phase, confirmed := confirmed } <
          s.rank bound := by
      intro phase hphase' table confirmed
      refine Prod.Lex.toLex_lt_toLex.2 (.inr ⟨rfl, ?_⟩)
      rw [hphase]
      exact Nat.lt_succ_of_le hphase'
    rcases deleteRow_cases hdelete with ⟨e, rfl⟩ | ⟨condition, -, -, ⟨e, rfl⟩ | rfl⟩
    · exact hwork _ (Nat.zero_le _) _ _
    · exact hwork _ (Nat.zero_le _) _ _
    · exact hwork _ (work_enter_le rest next) _ _

/-- With finitely many cursors there are finitely many steps of the call. -/
theorem ends_of_stream {states : ℕ → State δ ω} {labels : ℕ → Label ω}
    (h : (machine digest scope allowUnfenced).Stream states labels)
    (hcursors : ∀ n c, (labels n).cursor? = some c → c ∈ cursors) :
    ∃ N, ∀ n, N ≤ n → (labels n).isClear = false := by
  have hfrom : ∀ n, ∀ c ∈ (states n).cursors, c ∈ cursors := by
    intro n
    induction n with
    | zero =>
      rw [h.start]
      exact fun _ h ↦ absurd h List.not_mem_nil
    | succ n ih =>
      intro c hc
      rcases cursors_of_step (h.step n) hc with hc | hc
      · exact ih c hc
      · exact hcursors n c hc
  have hbound : ∀ n, (states n).starts.length ≤ cursors.card + 1 := fun n ↦
    (invariants_of_reachable (h.reachable n)).2.2.starts_length_le (hfrom n)
  have hlt : ∀ n, (labels n).isClear = true →
      (states (n + 1)).rank (cursors.card + 1) < (states n).rank (cursors.card + 1) :=
    fun n ha ↦ rank_lt ha (hbound (n + 1)) (h.step n)
  refine Machine.settles (State.rank (cursors.card + 1)) (fun n ↦ ?_) hlt
  rcases ha : (labels n).isClear with _ | _
  · exact (rank_other ha _ (h.step n)).le
  · exact (hlt n ha).le

end Ends

/-- Without the override `clear_storage` deletes nothing but rows in scope that are as they were read,
stops at whatever is malformed, unfenced or changed, starts no two scans at one cursor, has deleted all it
has read when it returns, and ends if there are finitely many cursors. -/
theorem clear_storage_careful (digest : Bytes → δ) (scope : Option Str) :
    (∀ s : State δ ω, (machine digest scope false).Reachable s → Careful digest scope s) ∧
      ∀ (states : ℕ → State δ ω) labels (cursors : Finset Str),
        (machine digest scope false).Stream states labels →
        (∀ n c, (labels n).cursor? = some c → c ∈ cursors) →
          ∃ N, ∀ n, N ≤ n → (labels n).isClear = false :=
  ⟨fun _ ↦ careful_of_reachable, fun _ _ _ ↦ ends_of_stream⟩

/-- A row with a revision of one digit. -/
def numberedRow (key : String) (d : Fin 16) : Item Unit :=
  ⟨[(pk, .str (str key)), (revisionAttribute, .str (List.replicate revisionBytes (hexDigit d)))],
    by simp [pk, revisionAttribute, str]⟩

/-- Two rows are read, and one of them is written again before it is deleted. -/
def rewriteSteps : List (Label Unit) :=
  [.write (numberedRow "a" 1), .write (numberedRow "ab" 2), .write (numberedRow "b" 3),
    .scan (.dict (.list [.dict (numberedRow "a" 1), .dict (numberedRow "ab" 2)]) .none),
    .delete (.returned (.attributes (numberedRow "a" 1))), .write (numberedRow "ab" 4),
    .delete (.raised false true)]

/-- The call raises, and the row that was written again is still there. -/
theorem clear_storage_careful_rewritten :
    ∃ s, (machine (ω := Unit) (id : Bytes → Bytes) (some (str "a")) false).run
        (machine (id : Bytes → Bytes) (some (str "a")) false).init rewriteSteps = some s ∧
      s.confirmed.length = 1 ∧ (s.table (str "ab")).isSome = true ∧
      Careful (id : Bytes → Bytes) (some (str "a")) s := by
  have hrun : ((machine (ω := Unit) (id : Bytes → Bytes) (some (str "a")) false).run
      (machine (id : Bytes → Bytes) (some (str "a")) false).init rewriteSteps).any
        (fun s ↦ decide (s.confirmed.length = 1) && (s.table (str "ab")).isSome) = true := by
    decide +kernel
  obtain ⟨s, hs, hend⟩ := (Option.any_eq_true _ _).1 hrun
  rw [Bool.and_eq_true, decide_eq_true_eq] at hend
  exact ⟨s, hs, hend.1, hend.2, (clear_storage_careful id (some (str "a"))).1 s ⟨rewriteSteps, hs⟩⟩

end DynamoDb

end ScrapyExtension
