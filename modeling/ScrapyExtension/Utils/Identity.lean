import ScrapyExtension.Py.Methods

/-!
# Identities in keys

The keys of queues and of duplicate filters come from templates with the fields `{project}` and
`{spider}`, which are replaced one after the other. Fields are delimited by colons, and a value with a
colon is refused.

## What can collide

The project is substituted first, so a project whose name has the text `{spider}` in it gets the name of
the spider there as well. Two pairs share a key exactly when they share the spider and their projects
agree after that.
-/

namespace ScrapyExtension

open Py

namespace IdentityTemplate

/-! ## Templates -/

/-- The placeholder of the project. -/
def projectPlaceholder : Str := Py.str "\x7bproject\x7d"

/-- The placeholder of the spider. -/
def spiderPlaceholder : Str := Py.str "\x7bspider\x7d"

/-- `DEFAULT_PROJECT_NAME` -/
def defaultProjectName : Str := Py.str "default"

/-- `DEFAULT_QUEUE_KEY_TEMPLATE` -/
def defaultQueueKeyTemplate : Str := Py.str "scheduler-queue:\x7bproject\x7d:\x7bspider\x7d"

/-- `DEFAULT_DUPEFILTER_KEY_TEMPLATE` -/
def defaultDupefilterKeyTemplate : Str := Py.str "dupefilter:\x7bproject\x7d:\x7bspider\x7d"

/-- `project_name_from_settings`, by the text of `BOT_NAME`, if there is one. -/
def projectNameFromSettings (botName : Option Str) : Str :=
  match botName with
  | some value => if strip value ≠ [] then strip value else defaultProjectName
  | none => defaultProjectName

/-- One round of the check for colons. The error is the text of the `ValueError`. -/
def checkField (template : Str) (field : String) (value : Option Str) (placeholder : Str) :
    Except String Unit :=
  match value with
  | some text =>
    if placeholder <:+: template ∧ chr ':' ∈ text then
      .error ("Identity field '" ++ field ++ "' must not contain ':' — ':' is the delimiter of " ++
        "identity key templates, and a value carrying it would make distinct (project, spider) " ++
        "pairs collide on one backend key.")
    else .ok ()
  | none => .ok ()

/-- The substitution of one placeholder, if there is a value for it. -/
def substitute (resolved placeholder : Str) (value : Option Str) : Str :=
  match value with
  | some text => replace resolved placeholder text
  | none => resolved

/-- `resolve_identity_template` -/
def resolveIdentityTemplate (template : Str) (spiderName projectName : Option Str) :
    Except String Str := do
  checkField template "project" projectName projectPlaceholder
  checkField template "spider" spiderName spiderPlaceholder
  let resolved := substitute template projectPlaceholder projectName
  .ok (substitute resolved spiderPlaceholder spiderName)

/-! ## Fields -/

/-- The fields of a template. -/
def fields (template : Str) : List Str := template.splitOn (chr ':')

/-- Both placeholders are fields. -/
structure Delimited (template : Str) : Prop where
  project : projectPlaceholder ∈ fields template
  spider : spiderPlaceholder ∈ fields template

/-- Nothing but whole fields is replaced. -/
def WholeFields (template : Str) : Prop :=
  ∀ field ∈ fields template, field ≠ projectPlaceholder → field ≠ spiderPlaceholder →
    ¬ projectPlaceholder <:+: field ∧ ¬ spiderPlaceholder <:+: field

instance (template : Str) : Decidable (WholeFields template) :=
  inferInstanceAs (Decidable (∀ field ∈ fields template, _))

/-- A project and a spider, each of which may be missing. -/
structure Pair where
  project : Option Str
  spider : Option Str
deriving DecidableEq

/-- The text that stands for the spider: a missing one leaves the placeholder. -/
def Pair.spiderText (p : Pair) : Str := p.spider.getD spiderPlaceholder

/-- The text that stands for the project. -/
def Pair.projectText (p : Pair) : Str := p.project.getD projectPlaceholder

/-- The text of the project once the spider is substituted in it. -/
def Pair.projectField (p : Pair) : Str := replace p.projectText spiderPlaceholder p.spiderText

/-- The spiders differ, or the projects do after the spider is substituted in them. -/
def Pair.Separated (p q : Pair) : Prop :=
  p.spiderText ≠ q.spiderText ∨ p.projectField ≠ q.projectField

instance (p q : Pair) : Decidable (p.Separated q) := inferInstanceAs (Decidable (_ ∨ _))

/-- The key of a pair. -/
def Pair.key (template : Str) (p : Pair) : Except String Str :=
  resolveIdentityTemplate template p.spider p.project

/-- What a field of the template becomes. -/
def Pair.field (p : Pair) (field : Str) : Str :=
  replace (replace field projectPlaceholder p.projectText) spiderPlaceholder p.spiderText

variable {template key key' : Str} {p q : Pair}

theorem substitute_eq_replace {placeholder : Str} (h : placeholder ≠ []) (s : Str)
    (value : Option Str) :
    substitute s placeholder value = replace s placeholder (value.getD placeholder) := by
  rcases value with - | text
  · exact (replace_same h s).symm
  · rfl

theorem checkField_ok {field : String} {value : Option Str} {placeholder : Str}
    (h : checkField template field value placeholder = .ok ()) (hin : placeholder <:+: template)
    (hcolon : chr ':' ∉ placeholder) : chr ':' ∉ value.getD placeholder := by
  rcases value with - | text
  · exact hcolon
  · rw [checkField] at h
    split_ifs at h with hnot
    exact fun hmem ↦ hnot ⟨hin, hmem⟩

/-- What an accepted pair passed, and its key. -/
theorem resolveIdentityTemplate_ok {spiderName projectName : Option Str}
    (h : resolveIdentityTemplate template spiderName projectName = .ok key) :
    checkField template "project" projectName projectPlaceholder = .ok () ∧
      checkField template "spider" spiderName spiderPlaceholder = .ok () ∧
      key = substitute (substitute template projectPlaceholder projectName) spiderPlaceholder
        spiderName := by
  rw [resolveIdentityTemplate] at h
  rcases hproject : checkField template "project" projectName projectPlaceholder with e | ⟨⟩
  · rw [hproject] at h
    exact nomatch h
  rcases hspider : checkField template "spider" spiderName spiderPlaceholder with e | ⟨⟩
  · rw [hproject, hspider] at h
    exact nomatch h
  rw [hproject, hspider] at h
  exact ⟨rfl, rfl, (Except.ok.inj h).symm⟩

/-- The key of an accepted pair has the fields of the template, each with its values. -/
theorem fields_key (ht : Delimited template) (h : p.key template = .ok key) :
    fields key = (fields template).map p.field := by
  obtain ⟨hproject, hspider, rfl⟩ := resolveIdentityTemplate_ok h
  have hp := checkField_ok hproject (infix_of_mem_splitOn ht.project) (by decide)
  have hs := checkField_ok hspider (infix_of_mem_splitOn ht.spider) (by decide)
  rw [substitute_eq_replace (by decide), substitute_eq_replace (by decide), fields,
    splitOn_replace (by decide) (by decide) hs, splitOn_replace (by decide) (by decide) hp,
    List.map_map]
  rfl

theorem field_projectPlaceholder (p : Pair) : p.field projectPlaceholder = p.projectField := by
  rw [Pair.field, replace_self (by decide), Pair.projectField]

theorem field_spiderPlaceholder (p : Pair) : p.field spiderPlaceholder = p.spiderText := by
  have hnot : ¬ projectPlaceholder <:+: spiderPlaceholder := by decide
  rw [Pair.field, replace_of_not_infix hnot, replace_self (by decide)]

/-- A field without placeholders is the same in every key. -/
theorem field_of_no_placeholder (p : Pair) {field : Str} (hproject : ¬ projectPlaceholder <:+: field)
    (hspider : ¬ spiderPlaceholder <:+: field) : p.field field = field := by
  rw [Pair.field, replace_of_not_infix hproject, replace_of_not_infix hspider]

theorem wholeFields_defaultQueueKeyTemplate : WholeFields defaultQueueKeyTemplate := by decide

theorem wholeFields_defaultDupefilterKeyTemplate : WholeFields defaultDupefilterKeyTemplate := by
  decide

/-- Keys are equal when their fields are. -/
theorem eq_of_fields_eq (h : fields key = fields key') : key = key' := by
  rw [← @List.intercalate_splitOn _ key _ _ (chr ':'), ← @List.intercalate_splitOn _ key' _ _ (chr ':')]
  exact congrArg _ h

/-- Separated pairs have distinct keys, and where placeholders only occur as whole fields, no
others have. -/
theorem identity_keys (ht : Delimited template) (hp : p.key template = .ok key)
    (hq : q.key template = .ok key') :
    (p.Separated q → key ≠ key') ∧ (WholeFields template → (key ≠ key' ↔ p.Separated q)) := by
  have hkey := fields_key ht hp
  have hkey' := fields_key ht hq
  have hseparated : p.Separated q → key ≠ key' := by
    rintro hsep rfl
    have hmap := List.map_inj_left.1 (hkey.symm.trans hkey')
    have hspider := hmap _ ht.spider
    have hproject := hmap _ ht.project
    rw [field_spiderPlaceholder, field_spiderPlaceholder] at hspider
    rw [field_projectPlaceholder, field_projectPlaceholder] at hproject
    exact hsep.elim (fun hne ↦ hne hspider) fun hne ↦ hne hproject
  refine ⟨hseparated, fun hwhole ↦ ⟨fun hne ↦ ?_, hseparated⟩⟩
  by_contra hnot
  obtain ⟨hspider, hproject⟩ := not_or.1 hnot
  rw [not_not] at hspider hproject
  refine hne (eq_of_fields_eq ?_)
  rw [hkey, hkey']
  refine List.map_congr_left fun field hfield ↦ ?_
  by_cases h₁ : field = projectPlaceholder
  · rw [h₁, field_projectPlaceholder, field_projectPlaceholder, hproject]
  by_cases h₂ : field = spiderPlaceholder
  · rw [h₂, field_spiderPlaceholder, field_spiderPlaceholder, hspider]
  obtain ⟨hnot₁, hnot₂⟩ := hwhole field hfield h₁ h₂
  rw [field_of_no_placeholder p hnot₁ hnot₂, field_of_no_placeholder q hnot₁ hnot₂]

theorem delimited_defaultQueueKeyTemplate : Delimited defaultQueueKeyTemplate :=
  ⟨by decide, by decide⟩

/-- Two spiders of one project, in the template of the queue. -/
theorem identity_keys_default :
    ∃ key key', (Pair.mk (some (Py.str "shop")) (some (Py.str "a"))).key defaultQueueKeyTemplate = .ok key ∧
      (Pair.mk (some (Py.str "shop")) (some (Py.str "b"))).key defaultQueueKeyTemplate = .ok key' ∧
      key ≠ key' := by
  refine ⟨_, _, rfl, rfl, ?_⟩
  exact (identity_keys (p := ⟨some (Py.str "shop"), some (Py.str "a")⟩)
    (q := ⟨some (Py.str "shop"), some (Py.str "b")⟩) delimited_defaultQueueKeyTemplate rfl rfl).1
    (by decide)

/-- A project may be named after the placeholder of the spider. -/
theorem shared_identity_key :
    ∃ p q : Pair, p ≠ q ∧ Delimited defaultQueueKeyTemplate ∧ ∃ key,
      p.key defaultQueueKeyTemplate = .ok key ∧ q.key defaultQueueKeyTemplate = .ok key :=
  ⟨⟨some spiderPlaceholder, some (Py.str "s")⟩, ⟨some (Py.str "s"), some (Py.str "s")⟩, by decide,
    delimited_defaultQueueKeyTemplate, _, rfl, rfl⟩

end IdentityTemplate

end ScrapyExtension
