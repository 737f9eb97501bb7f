import Mathlib.Data.List.Basic
import Mathlib.Tactic
import ScrapyExtension.Py.Text

/-!
# The physical keys of the Redis backend

Every key is made of a namespace, a domain and a logical name. The three keys of a queue have the same
text in braces, which Redis Cluster takes as their hash tag; the keys of sets and of the storage have no
braces at all.

## Why keys are apart

A logical name may contain a colon, and may look like the inside of any other key. A namespace contains
no colon, and neither contains a brace. The namespace of a key therefore ends at its first colon, the
text in braces at the first closing brace, and what is left tells the domain from the name.

The glob of `clear_storage` is a storage key with a star behind it. None of the characters of namespaces
and names is special to the glob matcher, so the star is the only wildcard.
-/

namespace ScrapyExtension

open Py

namespace Redis

/-! ## Namespaces and names -/

/-- `[a-zA-Z0-9._-]` -/
def isNamespaceChar (c : CodePoint) : Bool :=
  (chr 'a' ≤ c && c ≤ chr 'z') || (chr 'A' ≤ c && c ≤ chr 'Z') || (chr '0' ≤ c && c ≤ chr '9') ||
    c == chr '.' || c == chr '_' || c == chr '-'

/-- `[a-zA-Z0-9._:-]` -/
def isNameChar (c : CodePoint) : Bool := isNamespaceChar c || c == chr ':'

/-- `RedisSettings.namespace` -/
structure Namespace where
  text : Str
  nonempty : text ≠ []
  length_le : text.length ≤ 128
  chars : text.all isNamespaceChar = true
deriving DecidableEq

/-- `validate_key_name`, which accepts or raises -/
def validateKeyName (name : Str) : Bool := !name.isEmpty && name.all isNameChar

/-- A logical name of a queue, a set or a storage entry. -/
structure Name where
  text : Str
  valid : validateKeyName text = true
deriving DecidableEq

/-! ## Keys -/

/-- The text in the braces of the keys of a queue. -/
def queueTag (ns : Namespace) (queueName : Str) : Str := ns.text ++ chr ':' :: (str "queue:" ++ queueName)

/-- `_queue_key` -/
def queueKey (ns : Namespace) (queueName : Str) : Str :=
  chr '{' :: (queueTag ns queueName ++ chr '}' :: str ":items")

/-- `_payload_key` -/
def payloadKey (ns : Namespace) (queueName : Str) : Str :=
  chr '{' :: (queueTag ns queueName ++ chr '}' :: str ":payload")

/-- `_counter_key` -/
def counterKey (ns : Namespace) (queueName : Str) : Str :=
  chr '{' :: (queueTag ns queueName ++ chr '}' :: str ":counter")

/-- `_set_key` -/
def setKey (ns : Namespace) (setName : Str) : Str := ns.text ++ chr ':' :: (str "set:" ++ setName)

/-- `_storage_key` -/
def storageKey (ns : Namespace) (key : Str) : Str := ns.text ++ chr ':' :: (str "storage:" ++ key)

/-- What a key is for. -/
inductive Domain
  | items
  | payload
  | counter
  | set
  | storage
deriving DecidableEq

/-- The key of a namespace, a domain and a name. -/
def physicalKey (ns : Namespace) (domain : Domain) (name : Name) : Str :=
  match domain with
  | .items => queueKey ns name.text
  | .payload => payloadKey ns name.text
  | .counter => counterKey ns name.text
  | .set => setKey ns name.text
  | .storage => storageKey ns name.text

/-! ## `clear_storage` -/

/-- The glob of `clear_storage`. The text of the prefix is empty when there is none. -/
def clearPattern (ns : Namespace) (start : Option Name) : Str :=
  storageKey ns (start.elim [] Name.text) ++ [chr '*']

/-- `clear_storage`: the keys that the scan yields are deleted one by one, all of them unless a call of
the client fails after the first `deletions`. -/
def clearStorage (scan : Str → List Str) (ns : Namespace) (start : Option Name) (deletions : ℕ)
    (keys : List Str) : List Str :=
  ((scan (clearPattern ns start)).take deletions).foldl (fun keys key ↦ keys.filter (· ≠ key)) keys

/-! ## What Redis documents -/

/-- The characters that are special to the glob matcher outside of brackets. -/
def globSpecial : List CodePoint := [chr '*', chr '?', chr '[', chr '\\']

/-- The glob matcher of Redis, as far as patterns without `?`, brackets and escapes go. -/
structure GlobStyle (glob : Str → Str → Prop) : Prop where
  nil : ∀ key, glob [] key ↔ key = []
  star : ∀ pattern key, glob (chr '*' :: pattern) key ↔ ∃ s t, key = s ++ t ∧ glob pattern t
  literal : ∀ c pattern key, c ∉ globSpecial →
    (glob (c :: pattern) key ↔ ∃ t, key = c :: t ∧ glob pattern t)

/-- The hash tag of a key is the text between the first opening brace and the first closing brace behind
it, unless this is empty. -/
structure HashTag (key tag : Str) : Prop where
  nonempty : tag ≠ []
  closed : chr '}' ∉ tag
  split : ∃ s t, chr '{' ∉ s ∧ key = s ++ chr '{' :: (tag ++ chr '}' :: t)

/-! ## Characters -/

theorem isNameChar_of_isNamespaceChar {c : CodePoint} (h : isNamespaceChar c = true) :
    isNameChar c = true := by
  rw [isNameChar, h]
  rfl

variable {ns ns' : Namespace} {name name' : Name} {c : CodePoint}

theorem Namespace.not_mem (ns : Namespace) (h : isNamespaceChar c = false) : c ∉ ns.text := by
  intro hmem
  rw [List.all_eq_true.mp ns.chars c hmem] at h
  exact Bool.false_ne_true h.symm

theorem Name.all (name : Name) : name.text.all isNameChar = true :=
  (Bool.and_eq_true _ _ ▸ name.valid).2

theorem Name.not_mem (name : Name) (h : isNameChar c = false) : c ∉ name.text := by
  intro hmem
  rw [List.all_eq_true.mp name.all c hmem] at h
  exact Bool.false_ne_true h.symm

theorem Namespace.ext_text (h : ns.text = ns'.text) : ns = ns' := by
  cases ns
  cases ns'
  simpa using h

theorem Name.ext_text (h : name.text = name'.text) : name = name' := by
  cases name
  cases name'
  simpa using h

theorem closing_not_mem_queueTag (ns : Namespace) (name : Name) :
    chr '}' ∉ queueTag ns name.text := by
  unfold queueTag
  simp only [List.mem_append, List.mem_cons, not_or]
  refine ⟨ns.not_mem (by decide), by decide, by decide, name.not_mem (by decide)⟩

/-! ## Keys are apart -/

namespace Domain

/-- A domain of a queue. -/
def isQueue : Domain → Bool
  | items | payload | counter => true
  | set | storage => false

/-- What is behind the braces of a queue key. -/
def suffix : Domain → Str
  | items => str ":items"
  | payload => str ":payload"
  | counter => str ":counter"
  | set | storage => []

/-- What is between the colons of any other key. -/
def label : Domain → Str
  | set => str "set"
  | storage => str "storage"
  | items | payload | counter => []

theorem suffix_inj {d d' : Domain} (hd : d.isQueue = true) (hd' : d'.isQueue = true)
    (h : d.suffix = d'.suffix) : d = d' := by
  revert hd hd' h
  cases d <;> cases d' <;> decide

theorem label_inj {d d' : Domain} (hd : d.isQueue = false) (hd' : d'.isQueue = false)
    (h : d.label = d'.label) : d = d' := by
  revert hd hd' h
  cases d <;> cases d' <;> decide

theorem colon_not_mem_label (d : Domain) : chr ':' ∉ d.label := by
  cases d <;> decide

theorem opening_not_mem_label (d : Domain) : chr '{' ∉ d.label := by
  cases d <;> decide

end Domain

variable {d d' : Domain}

theorem physicalKey_of_isQueue (ns : Namespace) (hd : d.isQueue = true) (name : Name) :
    physicalKey ns d name = chr '{' :: (queueTag ns name.text ++ chr '}' :: d.suffix) := by
  cases d with
  | items | payload | counter => rfl
  | set | storage => exact absurd hd Bool.false_ne_true

theorem physicalKey_of_not_isQueue (ns : Namespace) (hd : d.isQueue = false) (name : Name) :
    physicalKey ns d name = ns.text ++ chr ':' :: (d.label ++ chr ':' :: name.text) := by
  cases d with
  | set | storage => rfl
  | items | payload | counter => exact absurd hd.symm Bool.false_ne_true

theorem opening_not_mem_physicalKey (ns : Namespace) (hd : d.isQueue = false) (name : Name) :
    chr '{' ∉ physicalKey ns d name := by
  rw [physicalKey_of_not_isQueue ns hd]
  simp only [List.mem_append, List.mem_cons, not_or]
  exact ⟨ns.not_mem (by decide), by decide, d.opening_not_mem_label, by decide,
    name.not_mem (by decide)⟩

/-- A text is split at the first occurrence of a separator. -/
theorem append_cons_inj_of_first {a b s t : Str} (ha : c ∉ a) (hb : c ∉ b)
    (h : a ++ c :: s = b ++ c :: t) : a = b ∧ s = t := by
  induction a generalizing b with
  | nil =>
    cases b with
    | nil => exact ⟨rfl, List.tail_eq_of_cons_eq h⟩
    | cons x b =>
      obtain rfl : c = x := List.head_eq_of_cons_eq h
      exact absurd List.mem_cons_self hb
  | cons x a ih =>
    cases b with
    | nil =>
      obtain rfl : x = c := List.head_eq_of_cons_eq h
      exact absurd List.mem_cons_self ha
    | cons y b =>
      obtain rfl : x = y := List.head_eq_of_cons_eq h
      obtain ⟨rfl, rfl⟩ := ih (fun hmem ↦ ha (List.mem_cons_of_mem _ hmem))
        (fun hmem ↦ hb (List.mem_cons_of_mem _ hmem)) (List.tail_eq_of_cons_eq h)
      exact ⟨rfl, rfl⟩

/-- The namespace ends at the first colon. -/
theorem namespace_append_inj {s t : Str} (h : ns.text ++ chr ':' :: s = ns'.text ++ chr ':' :: t) :
    ns = ns' ∧ s = t := by
  obtain ⟨htext, hrest⟩ := append_cons_inj_of_first (ns.not_mem (by decide)) (ns'.not_mem (by decide)) h
  exact ⟨Namespace.ext_text htext, hrest⟩

theorem queueTag_inj (h : queueTag ns name.text = queueTag ns' name'.text) : ns = ns' ∧ name = name' := by
  obtain ⟨hns, hrest⟩ := namespace_append_inj h
  exact ⟨hns, Name.ext_text (List.append_cancel_left hrest)⟩

/-- **Keys are apart**: a key tells its namespace, its domain and its name. -/
theorem physicalKey_inj (h : physicalKey ns d name = physicalKey ns' d' name') :
    ns = ns' ∧ d = d' ∧ name = name' := by
  cases hd : d.isQueue with
  | true =>
    cases hd' : d'.isQueue with
    | true =>
      rw [physicalKey_of_isQueue ns hd, physicalKey_of_isQueue ns' hd'] at h
      obtain ⟨htag, hsuffix⟩ := append_cons_inj_of_first (closing_not_mem_queueTag ns name)
        (closing_not_mem_queueTag ns' name') (List.tail_eq_of_cons_eq h)
      obtain ⟨rfl, rfl⟩ := queueTag_inj htag
      exact ⟨rfl, Domain.suffix_inj hd hd' hsuffix, rfl⟩
    | false =>
      -- Only the keys of a queue have a brace.
      rw [physicalKey_of_isQueue ns hd] at h
      exact absurd (h ▸ List.mem_cons_self) (opening_not_mem_physicalKey ns' hd' name')
  | false =>
    cases hd' : d'.isQueue with
    | true =>
      rw [physicalKey_of_isQueue ns' hd'] at h
      exact absurd (h.symm ▸ List.mem_cons_self) (opening_not_mem_physicalKey ns hd name)
    | false =>
      rw [physicalKey_of_not_isQueue ns hd, physicalKey_of_not_isQueue ns' hd'] at h
      obtain ⟨rfl, hrest⟩ := namespace_append_inj h
      obtain ⟨hlabel, htext⟩ := append_cons_inj_of_first d.colon_not_mem_label
        d'.colon_not_mem_label hrest
      exact ⟨rfl, Domain.label_inj hd hd' hlabel, Name.ext_text htext⟩

/-- The text in braces is the hash tag of each key of a queue. -/
theorem hashTag_physicalKey (ns : Namespace) (hd : d.isQueue = true) (name : Name) :
    HashTag (physicalKey ns d name) (queueTag ns name.text) := by
  refine ⟨?_, closing_not_mem_queueTag ns name, [], d.suffix, List.not_mem_nil,
    physicalKey_of_isQueue ns hd name⟩
  unfold queueTag
  simp

/-! ## The glob -/

/-- A text without special characters and a star behind it match what begins with the text. -/
theorem GlobStyle.append_star {glob : Str → Str → Prop} (h : GlobStyle glob) {text key : Str}
    (htext : ∀ c ∈ text, c ∉ globSpecial) : glob (text ++ [chr '*']) key ↔ text <+: key := by
  induction text generalizing key with
  | nil =>
    rw [List.nil_append, h.star]
    refine iff_of_true ⟨key, [], (List.append_nil key).symm, (h.nil []).mpr rfl⟩ ?_
    exact List.nil_prefix
  | cons c text ih =>
    obtain ⟨hc, htext⟩ := List.forall_mem_cons.mp htext
    rw [List.cons_append, h.literal c _ _ hc]
    constructor
    · rintro ⟨t, rfl, hglob⟩
      exact List.cons_prefix_cons.mpr ⟨rfl, (ih htext).mp hglob⟩
    · rintro ⟨t, rfl⟩
      exact ⟨text ++ t, rfl, (ih htext).mpr (List.prefix_append _ _)⟩

/-- No character of a name is special to the glob matcher. -/
theorem not_mem_globSpecial (h : isNameChar c = true) : c ∉ globSpecial := by
  rintro hmem
  simp only [globSpecial, List.mem_cons, List.not_mem_nil, or_false] at hmem
  rcases hmem with rfl | rfl | rfl | rfl <;> exact absurd h (by decide)

theorem all_start (start : Option Name) : (start.elim [] Name.text).all isNameChar = true := by
  cases start with
  | none => rfl
  | some name => exact name.all

/-- The glob of `clear_storage` matches what begins with the storage key of the prefix. -/
theorem glob_clearPattern {glob : Str → Str → Prop} (h : GlobStyle glob) (ns : Namespace)
    (start : Option Name) (key : Str) :
    glob (clearPattern ns start) key ↔ storageKey ns (start.elim [] Name.text) <+: key := by
  refine h.append_star fun c hc ↦ not_mem_globSpecial ?_
  simp only [storageKey, List.mem_append, List.mem_cons] at hc
  rcases hc with hc | rfl | hc | hc
  · exact isNameChar_of_isNamespaceChar (List.all_eq_true.mp ns.chars c hc)
  · decide
  · have hstorage : (str "storage:").all isNameChar = true := by decide
    exact List.all_eq_true.mp hstorage c hc
  · exact List.all_eq_true.mp (all_start start) c hc

/-- What begins with a storage key is a storage key of the same namespace. -/
theorem storageKey_prefix_iff (ns ns' : Namespace) (start : Str) (d : Domain) (name : Name) :
    storageKey ns start <+: physicalKey ns' d name ↔ ns' = ns ∧ d = .storage ∧ start <+: name.text := by
  constructor
  · rintro ⟨rest, hrest⟩
    rw [storageKey, List.append_assoc, List.cons_append, List.append_assoc] at hrest
    cases hd : d.isQueue with
    | true =>
      -- The key of a queue begins with a brace.
      rw [physicalKey_of_isQueue ns' hd] at hrest
      have hmem : chr '{' ∈ ns.text := by
        cases htext : ns.text with
        | nil => exact absurd htext ns.nonempty
        | cons c text =>
          rw [htext] at hrest
          exact (List.head_eq_of_cons_eq hrest) ▸ List.mem_cons_self
      exact absurd hmem (ns.not_mem (by decide))
    | false =>
      rw [physicalKey_of_not_isQueue ns' hd] at hrest
      obtain ⟨hns, hlast⟩ := namespace_append_inj hrest
      have hlabel : str "storage:" ++ (start ++ rest) = str "storage" ++ chr ':' :: (start ++ rest) := rfl
      rw [hlabel] at hlast
      obtain ⟨hdomain, htext⟩ := append_cons_inj_of_first
        (Domain.colon_not_mem_label .storage) d.colon_not_mem_label hlast
      exact ⟨hns.symm, (Domain.label_inj (d := .storage) rfl hd hdomain).symm, rest, htext⟩
  · rintro ⟨rfl, rfl, rest, hrest⟩
    refine ⟨rest, ?_⟩
    simp only [storageKey, physicalKey, ← hrest, List.append_assoc, List.cons_append]

/-! ## Isolation -/

theorem mem_clearStorage {scan : Str → List Str} {start : Option Name} {deletions : ℕ}
    {keys : List Str} {key : Str} :
    key ∈ clearStorage scan ns start deletions keys ↔
      key ∈ keys ∧ key ∉ (scan (clearPattern ns start)).take deletions := by
  unfold clearStorage
  generalize (scan (clearPattern ns start)).take deletions = deleted
  induction deleted generalizing keys with
  | nil => simp
  | cons x deleted ih =>
    rw [List.foldl_cons, ih, List.mem_filter, List.mem_cons, not_or, and_assoc]
    simp

/-- **Keys are isolated**: no two of them coincide, the keys of a queue have one hash tag, and
`clear_storage` matches, and deletes, storage keys of its own namespace with its prefix only. -/
theorem key_isolation {glob : Str → Str → Prop} (h : GlobStyle glob) :
    (∀ ns ns' d d' name name', physicalKey ns d name = physicalKey ns' d' name' →
      ns = ns' ∧ d = d' ∧ name = name') ∧
    (∀ (ns : Namespace) (name : Name), ∃ tag, HashTag (queueKey ns name.text) tag ∧
      HashTag (payloadKey ns name.text) tag ∧ HashTag (counterKey ns name.text) tag) ∧
    (∀ ns start ns' d name, glob (clearPattern ns start) (physicalKey ns' d name) ↔
      ns' = ns ∧ d = .storage ∧ start.elim [] Name.text <+: name.text) ∧
    (∀ scan ns start deletions keys,
      (∀ key ∈ scan (clearPattern ns start), glob (clearPattern ns start) key) →
      ∀ ns' d name, physicalKey ns' d name ∈ keys →
        physicalKey ns' d name ∉ clearStorage scan ns start deletions keys →
        ns' = ns ∧ d = .storage ∧ start.elim [] Name.text <+: name.text) := by
  have hglob : ∀ ns start ns' d name, glob (clearPattern ns start) (physicalKey ns' d name) ↔
      ns' = ns ∧ d = .storage ∧ start.elim [] Name.text <+: name.text := fun ns start ns' d name ↦
    (glob_clearPattern h ns start _).trans (storageKey_prefix_iff ns ns' _ d name)
  refine ⟨fun _ _ _ _ _ _ ↦ physicalKey_inj, fun ns name ↦ ?_, hglob, ?_⟩
  · exact ⟨queueTag ns name.text, hashTag_physicalKey ns (d := .items) rfl name,
      hashTag_physicalKey ns (d := .payload) rfl name, hashTag_physicalKey ns (d := .counter) rfl name⟩
  · intro scan ns start deletions keys hscan ns' d name hmem hnot
    rw [mem_clearStorage, not_and_not_right] at hnot
    exact (hglob ns start ns' d name).mp (hscan _ (List.mem_of_mem_take (hnot hmem)))

/-- A glob matcher for patterns without brackets and escapes. -/
def globMatch : Str → Str → Bool
  | [], key => key.isEmpty
  | c :: pattern, key =>
    if c = chr '*' then key.tails.any (globMatch pattern)
    else
      match key with
      | [] => false
      | x :: key => (c = chr '?' || c = x) && globMatch pattern key

theorem globStyle_globMatch : GlobStyle fun pattern key ↦ globMatch pattern key = true where
  nil key := by simp [globMatch]
  star pattern key := by
    simp only [globMatch, if_true, List.any_eq_true, List.mem_tails]
    constructor
    · rintro ⟨t, ⟨s, hs⟩, hglob⟩
      exact ⟨s, t, hs.symm, hglob⟩
    · rintro ⟨s, t, hs, hglob⟩
      exact ⟨t, ⟨s, hs.symm⟩, hglob⟩
  literal c pattern key hc := by
    simp only [globSpecial, List.mem_cons, List.not_mem_nil, or_false, not_or] at hc
    cases key with
    | nil => simp [globMatch, hc.1]
    | cons x key =>
      simp only [globMatch, if_neg hc.1, hc.2.1, decide_false, Bool.false_or, Bool.and_eq_true,
        decide_eq_true_eq, List.cons.injEq]
      constructor
      · rintro ⟨rfl, hglob⟩
        exact ⟨key, ⟨rfl, rfl⟩, hglob⟩
      · rintro ⟨t, ⟨rfl, rfl⟩, hglob⟩
        exact ⟨rfl, hglob⟩

/-- A storage name that looks like the key of a queue. -/
theorem key_isolation_lookalike :
    (∀ ns ns' d d' name name', physicalKey ns d name = physicalKey ns' d' name' →
      ns = ns' ∧ d = d' ∧ name = name') ∧
    (∀ (ns : Namespace) (name : Name), ∃ tag, HashTag (queueKey ns name.text) tag ∧
      HashTag (payloadKey ns name.text) tag ∧ HashTag (counterKey ns name.text) tag) ∧
    (∀ ns start ns' d name,
      globMatch (clearPattern ns start) (physicalKey ns' d name) = true ↔
        ns' = ns ∧ d = .storage ∧ start.elim [] Name.text <+: name.text) ∧
    (∀ scan ns start deletions keys,
      (∀ key ∈ scan (clearPattern ns start), globMatch (clearPattern ns start) key = true) →
      ∀ ns' d name, physicalKey ns' d name ∈ keys →
        physicalKey ns' d name ∉ clearStorage scan ns start deletions keys →
        ns' = ns ∧ d = .storage ∧ start.elim [] Name.text <+: name.text) ∧
    globMatch (clearPattern ⟨str "a", by decide, by decide, by decide⟩ none)
      (physicalKey ⟨str "a", by decide, by decide, by decide⟩ .storage
        ⟨str "a:queue:b", by decide⟩) = true := by
  obtain ⟨hinj, htag, hglob, hclear⟩ := key_isolation globStyle_globMatch
  exact ⟨hinj, htag, hglob, hclear, by decide +kernel⟩

end Redis

end ScrapyExtension
