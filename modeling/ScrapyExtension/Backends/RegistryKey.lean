import ScrapyExtension.Json.Distinct
import ScrapyExtension.Json.Load
import ScrapyExtension.Py.Hex
import ScrapyExtension.Py.Unordered
import ScrapyExtension.Queue.SnapshotFormat

/-!
# The keys of connection managers

Managers are shared by a key: the backend type and the SHA-256 of a normal form of the settings. The normal
form is JSON. Every value carries a tag for its type, and the entries of a dict and the items of a set are
sorted by their own texts, so that their order does not matter.

## What the key tells apart

Two settings have one normal text exactly if they are the same up to the order of dicts and sets, with the
types told apart, where two strings count as one if they are equal once every surrogate pair in them is read
as the character that it encodes: under `ensure_ascii` both are written alike. So the key separates all
settings but those that differ in nothing else.

A float is told from another one by what `float.hex` shows, the sign of a zero included; all
not-a-numbers are one.

## Values

A value of the model is a tree. A dict is the list of its entries and a set the list of its items, in the
order in which Python goes through them.
-/

namespace ScrapyExtension

open Py Json

namespace RegistryKey

/-- A value without parts. -/
inductive Scalar
  | none
  | bool (b : Bool)
  | int (i : ℤ)
  | float (x : FloatBits)
  | str (s : Str)
  | bytes (b : Bytes)
  /-- `SecretStr` -/
  | secretStr (s : Str)
  /-- `SecretBytes` -/
  | secretBytes (b : Bytes)
deriving DecidableEq

/-- The types of a sequence. -/
inductive SequenceKind
  | list
  | tuple
deriving DecidableEq

/-- The types of a set. -/
inductive SetKind
  | set
  | frozenset
deriving DecidableEq

/-- A value of the settings. -/
inductive Setting
  | scalar (x : Scalar)
  | sequence (kind : SequenceKind) (items : List Setting)
  | set (kind : SetKind) (items : List Setting)
  | mapping (entries : List (Setting × Setting))

/-- Induction over the tree. -/
theorem Setting.induct {P : Setting → Prop} (scalar : ∀ x, P (.scalar x))
    (sequence : ∀ kind items, (∀ v ∈ items, P v) → P (.sequence kind items))
    (set : ∀ kind items, (∀ v ∈ items, P v) → P (.set kind items))
    (mapping : ∀ entries, (∀ e ∈ entries, P e.1 ∧ P e.2) → P (.mapping entries)) (v : Setting) : P v :=
  @Setting.rec P (fun vs ↦ ∀ w ∈ vs, P w) (fun es ↦ ∀ e ∈ es, P e.1 ∧ P e.2) (fun e ↦ P e.1 ∧ P e.2)
    scalar sequence set mapping
    (fun _ h ↦ absurd h List.not_mem_nil)
    (fun _ _ hv hvs w hw ↦ (List.mem_cons.mp hw).elim (fun h ↦ h ▸ hv) (hvs w))
    (fun _ h ↦ absurd h List.not_mem_nil)
    (fun _ _ he hes e hmem ↦ (List.mem_cons.mp hmem).elim (fun h ↦ h ▸ he) (hes e))
    (fun _ _ hk hv ↦ ⟨hk, hv⟩) v

/-! ## The normal form -/

/-- `_registry_type_name` -/
def SequenceKind.typeName : SequenceKind → Str
  | .list => Py.str "builtins.list"
  | .tuple => Py.str "builtins.tuple"

/-- `_registry_type_name` -/
def SetKind.typeName : SetKind → Str
  | .set => Py.str "builtins.set"
  | .frozenset => Py.str "builtins.frozenset"

/-- The first item of a normal form. -/
inductive Tag
  | secretStr
  | secretBytes
  | none
  | bool
  | int
  | float
  | str
  | bytes
  | mapping
  | sequence
  | set
deriving DecidableEq

/-- The text of a tag. -/
def Tag.text : Tag → Str
  | .secretStr => Py.str "secret-str"
  | .secretBytes => Py.str "secret-bytes"
  | .none => Py.str "none"
  | .bool => Py.str "bool"
  | .int => Py.str "int"
  | .float => Py.str "float"
  | .str => Py.str "str"
  | .bytes => Py.str "bytes"
  | .mapping => Py.str "mapping"
  | .sequence => Py.str "sequence"
  | .set => Py.str "set"

/-- A list that begins with its tag. -/
def tagged (tag : Tag) (rest : List Value) : Value := .arr (.str tag.text :: rest)

/-- What the interpreter does not do. -/
structure Interpreter where
  /-- `sys.get_int_max_str_digits()`; `none` when there is no limit -/
  maxStrDigits : Option ℕ
  /-- How deep a tree it can go through. -/
  maxDepth : ℕ

/-- `str(i)`; `none` when that raises -/
def Interpreter.strInt (I : Interpreter) (i : ℤ) : Option Str :=
  if I.maxStrDigits.any (· < (decimal i.natAbs).length) then .none else some (intText i)

/-- `_canonical_registry_json` -/
def canonicalRegistryJson (v : Value) : Str := dumps .compact v

variable (I : Interpreter)

/-- `_normalize_registry_value`, of a value without parts -/
def Scalar.normalize : Scalar → Option Value
  | .secretStr s => some (tagged .secretStr [.str s])
  | .secretBytes b => some (tagged .secretBytes [.str (hexBytes b)])
  | .none => some (tagged .none [])
  | .bool b => some (tagged .bool [.bool b])
  | .int i => (I.strInt i).map fun text ↦ tagged .int [.str text]
  | .float x => some (tagged .float [.str x.hex])
  | .str s => some (tagged .str [.str s])
  | .bytes b => some (tagged .bytes [.str (hexBytes b)])

mutual

/-- `_normalize_registry_value`; `none` when it raises -/
def Setting.normalize : Setting → Option Value
  | .scalar x => x.normalize I
  | .mapping entries => (normalizeEntries entries).map fun entries ↦
      tagged .mapping [.str (Py.str "builtins.dict"), .arr (Heapq.sorted canonicalRegistryJson entries)]
  | .sequence kind items => (normalizeItems items).map fun items ↦
      tagged .sequence [.str kind.typeName, .arr items]
  | .set kind items => (normalizeItems items).map fun items ↦
      tagged .set [.str kind.typeName, .arr (Heapq.sorted canonicalRegistryJson items)]

/-- The normal forms of the items. -/
def normalizeItems : List Setting → Option (List Value)
  | [] => some []
  | v :: vs => do
    let x ← v.normalize
    let xs ← normalizeItems vs
    return x :: xs

/-- The normal forms of the entries. -/
def normalizeEntries : List (Setting × Setting) → Option (List Value)
  | [] => some []
  | (key, item) :: rest => do
    let k ← key.normalize
    let x ← item.normalize
    let xs ← normalizeEntries rest
    return .arr [k, x] :: xs

end

mutual

/-- How deep the calls of `_normalize_registry_value` are nested. -/
def Setting.depth : Setting → ℕ
  | .scalar _ => 1
  | .mapping entries => entriesDepth entries + 1
  | .sequence _ items => itemsDepth items + 1
  | .set _ items => itemsDepth items + 1

/-- The depth of the deepest item. -/
def itemsDepth : List Setting → ℕ
  | [] => 0
  | v :: vs => max v.depth (itemsDepth vs)

/-- The depth of the deepest key or value. -/
def entriesDepth : List (Setting × Setting) → ℕ
  | [] => 0
  | (key, item) :: rest => max (max key.depth item.depth) (entriesDepth rest)

end

/-- The text that is hashed; `none` when the settings cannot be normalised. -/
def settingsKey (settings : List (Setting × Setting)) : Option Bytes :=
  if (Setting.mapping settings).depth ≤ I.maxDepth then
    ((Setting.mapping settings).normalize I).map fun v ↦
      dumpBytes .compact (.arr [.str (Py.str "connection-manager-registry-v1"), v])
  else .none

/-- `_registry_key`; `none` when it raises -/
def registryKey (sha : Snapshot.Sha256) (backendType : Str) (settings : List (Setting × Setting)) : Option Str :=
  (settingsKey I settings).map fun text ↦ backendType ++ Py.str ":" ++ (sha text).text

/-! ## The same settings -/

/-- Of one type, and equal; strings after `f`. -/
def Scalar.Same (f : Str → Str) : Scalar → Scalar → Prop
  | .none, .none => True
  | .bool a, .bool b => a = b
  | .int i, .int j => i = j
  | .float x, .float y => x = y
  | .str s, .str t => f s = f t
  | .bytes a, .bytes b => a = b
  | .secretStr s, .secretStr t => f s = f t
  | .secretBytes a, .secretBytes b => a = b
  | _, _ => False

mutual

/-- Of one type, and equal up to the order of dicts and sets; strings after `f`. -/
def Setting.Same (f : Str → Str) : Setting → Setting → Prop
  | .scalar x, .scalar y => x.Same f y
  | .sequence kind vs, .sequence kind' ws => kind = kind' ∧ SameItems f vs ws
  | .set kind vs, .set kind' ws => kind = kind' ∧ ∃ us, ws.Perm us ∧ SameItems f vs us
  | .mapping es, .mapping fs => ∃ gs, fs.Perm gs ∧ SameEntries f es gs
  | _, _ => False

/-- `Setting.Same`, one by one. -/
def SameItems (f : Str → Str) : List Setting → List Setting → Prop
  | [], [] => True
  | v :: vs, w :: ws => v.Same f w ∧ SameItems f vs ws
  | _, _ => False

/-- `Setting.Same` of keys and of values, one by one. -/
def SameEntries (f : Str → Str) : List (Setting × Setting) → List (Setting × Setting) → Prop
  | [], [] => True
  | (k, v) :: es, (l, w) :: fs => k.Same f l ∧ v.Same f w ∧ SameEntries f es fs
  | _, _ => False

end

/-! ## Normal forms with the same text -/

variable {I} {v w : Setting} {x y : Scalar} {A B : Value}

theorem Tag.isAscii_text (t : Tag) : t.text.IsAscii := by
  rcases t with - | - | - | - | - | - | - | - | - | - | - <;> decide

/-- The tags. -/
def Tag.all : List Tag :=
  [.secretStr, .secretBytes, .none, .bool, .int, .float, .str, .bytes, .mapping, .sequence, .set]

theorem Tag.mem_all (t : Tag) : t ∈ Tag.all := by
  rcases t with - | - | - | - | - | - | - | - | - | - | - <;> decide

theorem Tag.text_injective : Function.Injective Tag.text := by
  have hnodup : (Tag.all.map Tag.text).Nodup := by decide
  exact fun t u h ↦ List.inj_on_of_nodup_map hnodup t.mem_all u.mem_all h

theorem canonical_str_eq_iff {s t : Str} :
    canonicalRegistryJson (.str s) = canonicalRegistryJson (.str t) ↔ joinPairs s = joinPairs t :=
  dumps_str_eq_iff .compact

/-- ASCII strings have texts of their own. -/
theorem canonical_str_eq_iff_of_isAscii {s t : Str} (hs : s.IsAscii) (ht : t.IsAscii) :
    canonicalRegistryJson (.str s) = canonicalRegistryJson (.str t) ↔ s = t := by
  have hjoin : ∀ {u : Str}, u.IsAscii → joinPairs u = u := fun hu ↦ readBack_of_isAscii true hu
  rw [canonical_str_eq_iff, hjoin hs, hjoin ht]

theorem canonical_arr_eq_iff {as bs : List Value} (has : ∀ a ∈ as, a.IsTextual) (hbs : ∀ b ∈ bs, b.IsTextual) :
    canonicalRegistryJson (.arr as) = canonicalRegistryJson (.arr bs) ↔
      as.map canonicalRegistryJson = bs.map canonicalRegistryJson := dumps_arr_eq_iff .compact has hbs

theorem canonical_tagged_eq_iff {t u : Tag} {as bs : List Value} (has : ∀ a ∈ as, a.IsTextual)
    (hbs : ∀ b ∈ bs, b.IsTextual) :
    canonicalRegistryJson (tagged t as) = canonicalRegistryJson (tagged u bs) ↔
      t = u ∧ as.map canonicalRegistryJson = bs.map canonicalRegistryJson := by
  have htag : ∀ tag : Tag, (Value.str tag.text).IsTextual := fun _ ↦ trivial
  rw [tagged, tagged, canonical_arr_eq_iff (List.forall_mem_cons.2 ⟨htag t, has⟩)
    (List.forall_mem_cons.2 ⟨htag u, hbs⟩), List.map_cons, List.map_cons, List.cons.injEq,
    canonical_str_eq_iff_of_isAscii t.isAscii_text u.isAscii_text, Tag.text_injective.eq_iff]

/-- With one tag and one text in the payload. -/
theorem canonical_tagged_str_eq_iff {t : Tag} {s s' : Str} :
    canonicalRegistryJson (tagged t [.str s]) = canonicalRegistryJson (tagged t [.str s']) ↔
      joinPairs s = joinPairs s' := by
  have hstr : ∀ u, ∀ r ∈ [Value.str u], r.IsTextual := fun u r hr ↦ List.mem_singleton.1 hr ▸ trivial
  rw [canonical_tagged_eq_iff (hstr s) (hstr s'), ← canonical_str_eq_iff]
  simp

theorem canonical_tagged_str_eq_iff_of_isAscii {t : Tag} {s s' : Str} (hs : s.IsAscii) (hs' : s'.IsAscii) :
    canonicalRegistryJson (tagged t [.str s]) = canonicalRegistryJson (tagged t [.str s']) ↔ s = s' := by
  have hjoin : ∀ {u : Str}, u.IsAscii → joinPairs u = u := fun hu ↦ readBack_of_isAscii true hu
  rw [canonical_tagged_str_eq_iff, hjoin hs, hjoin hs']

/-- The name of a type and a list of items as the payload. -/
theorem textual_payload {s : Str} {as : List Value} (has : ∀ a ∈ as, a.IsTextual) :
    ∀ r ∈ [Value.str s, .arr as], r.IsTextual := by
  intro r hr
  rcases List.mem_pair.1 hr with rfl | rfl
  · trivial
  · exact itemsTextual_iff.2 has

/-- With one tag, the name of a type and a list in the payload. -/
theorem canonical_tagged_list_eq_iff {t : Tag} {s s' : Str} {as bs : List Value} (hs : s.IsAscii)
    (hs' : s'.IsAscii) (has : ∀ a ∈ as, a.IsTextual) (hbs : ∀ b ∈ bs, b.IsTextual) :
    canonicalRegistryJson (tagged t [.str s, .arr as]) = canonicalRegistryJson (tagged t [.str s', .arr bs]) ↔
      s = s' ∧ as.map canonicalRegistryJson = bs.map canonicalRegistryJson := by
  rw [canonical_tagged_eq_iff (textual_payload has) (textual_payload hbs),
    ← canonical_str_eq_iff_of_isAscii hs hs', ← canonical_arr_eq_iff has hbs]
  simp

/-- The tag of a value without parts. -/
def Scalar.tag : Scalar → Tag
  | .none => .none
  | .bool _ => .bool
  | .int _ => .int
  | .float _ => .float
  | .str _ => .str
  | .bytes _ => .bytes
  | .secretStr _ => .secretStr
  | .secretBytes _ => .secretBytes

/-- The tag of a value. -/
def Setting.tag : Setting → Tag
  | .scalar x => x.tag
  | .sequence _ _ => .sequence
  | .set _ _ => .set
  | .mapping _ => .mapping

theorem Setting.Same.tag_eq {f : Str → Str} (h : v.Same f w) : v.tag = w.tag := by
  rcases v with x | ⟨kind, vs⟩ | ⟨kind, vs⟩ | es <;> rcases w with y | ⟨kind', ws⟩ | ⟨kind', ws⟩ | fs <;>
    simp only [Setting.Same] at h
  · rcases x with - | b | i | z | s | b | s | b <;> rcases y with - | b' | j | z' | t | b' | t | b' <;>
      first | rfl | exact absurd h id
  all_goals rfl

/-- The items of the payload of a value without parts. -/
theorem Scalar.normalize_eq_tagged (h : x.normalize I = some A) :
    ∃ rest, (∀ r ∈ rest, r.IsTextual) ∧ A = tagged x.tag rest := by
  have hstr : ∀ s, ∀ r ∈ [Value.str s], r.IsTextual := fun s r hr ↦ List.mem_singleton.1 hr ▸ trivial
  have hbool : ∀ b, ∀ r ∈ [Value.bool b], r.IsTextual := fun b r hr ↦ List.mem_singleton.1 hr ▸ trivial
  rcases x with - | b | i | z | s | b | s | b
  · exact ⟨[], nofun, (Option.some.inj h).symm⟩
  · exact ⟨_, hbool b, (Option.some.inj h).symm⟩
  · obtain ⟨text, -, rfl⟩ := Option.map_eq_some_iff.1 h
    exact ⟨_, hstr text, rfl⟩
  · exact ⟨_, hstr _, (Option.some.inj h).symm⟩
  · exact ⟨_, hstr _, (Option.some.inj h).symm⟩
  · exact ⟨_, hstr _, (Option.some.inj h).symm⟩
  · exact ⟨_, hstr _, (Option.some.inj h).symm⟩
  · exact ⟨_, hstr _, (Option.some.inj h).symm⟩

theorem normalizeItems_eq_some_iff {vs : List Setting} {as : List Value} :
    normalizeItems I vs = some as ↔ List.Forall₂ (fun v A ↦ v.normalize I = some A) vs as := by
  induction vs generalizing as with
  | nil => simp [normalizeItems, eq_comm]
  | cons v vs ih =>
    rw [normalizeItems, List.forall₂_cons_left_iff]
    simp only [Option.bind_eq_bind, Option.bind_eq_some_iff, Option.pure_def, Option.some.injEq, ih]
    constructor
    · rintro ⟨x, hx, xs, hxs, rfl⟩
      exact ⟨x, xs, hx, hxs, rfl⟩
    · rintro ⟨x, xs, hx, hxs, rfl⟩
      exact ⟨x, hx, xs, hxs, rfl⟩

/-- An entry and its normal form. -/
def NormalEntry (I : Interpreter) (e : Setting × Setting) (A : Value) : Prop :=
  ∃ k x, e.1.normalize I = some k ∧ e.2.normalize I = some x ∧ A = .arr [k, x]

theorem normalizeEntries_eq_some_iff {es : List (Setting × Setting)} {as : List Value} :
    normalizeEntries I es = some as ↔ List.Forall₂ (NormalEntry I) es as := by
  induction es generalizing as with
  | nil => simp [normalizeEntries, eq_comm]
  | cons e es ih =>
    obtain ⟨key, item⟩ := e
    rw [normalizeEntries, List.forall₂_cons_left_iff]
    simp only [Option.bind_eq_bind, Option.bind_eq_some_iff, Option.pure_def, Option.some.injEq, ih, NormalEntry]
    constructor
    · rintro ⟨k, hk, x, hx, xs, hxs, rfl⟩
      exact ⟨_, xs, ⟨k, x, hk, hx, rfl⟩, hxs, rfl⟩
    · rintro ⟨_, xs, ⟨k, x, hk, hx, rfl⟩, hxs, rfl⟩
      exact ⟨k, hk, x, hx, xs, hxs, rfl⟩

theorem sameItems_iff {f : Str → Str} {vs ws : List Setting} :
    SameItems f vs ws ↔ List.Forall₂ (Setting.Same f) vs ws := by
  induction vs generalizing ws with
  | nil => rcases ws with - | ⟨w, ws⟩ <;> simp [SameItems]
  | cons v vs ih => rcases ws with - | ⟨w, ws⟩ <;> simp [SameItems, ih]

theorem sameEntries_iff {f : Str → Str} {es fs : List (Setting × Setting)} :
    SameEntries f es fs ↔ List.Forall₂ (fun e g ↦ e.1.Same f g.1 ∧ e.2.Same f g.2) es fs := by
  induction es generalizing fs with
  | nil => rcases fs with - | ⟨g, fs⟩ <;> simp [SameEntries]
  | cons e es ih => rcases fs with - | ⟨g, fs⟩ <;> simp [SameEntries, ih, and_assoc]

theorem forall_mem_of_forall₂ {α : Type} {R : α → Value → Prop} {xs : List α} {as : List Value}
    {P : Value → Prop} (h : List.Forall₂ R xs as) (hP : ∀ x ∈ xs, ∀ a, R x a → P a) : ∀ a ∈ as, P a := by
  induction h with
  | nil => exact nofun
  | cons hx hxs ih =>
    exact List.forall_mem_cons.2 ⟨hP _ List.mem_cons_self _ hx,
      ih fun x hx ↦ hP x (List.mem_cons_of_mem _ hx)⟩

theorem textual_tagged_iff {t : Tag} {rest : List Value} :
    (tagged t rest).IsTextual ↔ ∀ r ∈ rest, r.IsTextual := by
  have htag : (Value.str t.text).IsTextual := trivial
  change (Value.str t.text).IsTextual ∧ ItemsTextual rest ↔ _
  rw [itemsTextual_iff, and_iff_right htag]

theorem SequenceKind.isAscii_typeName (kind : SequenceKind) : kind.typeName.IsAscii := by
  rcases kind with - | - <;> decide

theorem SetKind.isAscii_typeName (kind : SetKind) : kind.typeName.IsAscii := by
  rcases kind with - | - <;> decide

theorem SequenceKind.typeName_inj {kind kind' : SequenceKind} : kind.typeName = kind'.typeName ↔ kind = kind' := by
  rcases kind with - | - <;> rcases kind' with - | - <;> decide

theorem SetKind.typeName_inj {kind kind' : SetKind} : kind.typeName = kind'.typeName ↔ kind = kind' := by
  rcases kind with - | - <;> rcases kind' with - | - <;> decide

/-- A normal form begins with the tag of its value. -/
theorem Setting.normalize_eq_tagged (h : v.normalize I = some A) :
    ∃ rest, (∀ r ∈ rest, r.IsTextual) ∧ A = tagged v.tag rest := by
  induction v using Setting.induct generalizing A with
  | scalar x =>
    rw [Setting.normalize] at h
    exact Scalar.normalize_eq_tagged h
  | sequence kind vs ih =>
    rw [Setting.normalize] at h
    obtain ⟨as, has, rfl⟩ := Option.map_eq_some_iff.1 h
    refine ⟨_, textual_payload ?_, rfl⟩
    refine forall_mem_of_forall₂ (normalizeItems_eq_some_iff.1 has) fun v hv A hA ↦ ?_
    obtain ⟨rest, hrest, rfl⟩ := ih v hv hA
    exact textual_tagged_iff.2 hrest
  | set kind vs ih =>
    rw [Setting.normalize] at h
    obtain ⟨as, has, rfl⟩ := Option.map_eq_some_iff.1 h
    refine ⟨_, textual_payload fun a ha ↦ ?_, rfl⟩
    refine forall_mem_of_forall₂ (normalizeItems_eq_some_iff.1 has) (fun v hv A hA ↦ ?_) a
      (Heapq.mem_sorted.1 ha)
    obtain ⟨rest, hrest, rfl⟩ := ih v hv hA
    exact textual_tagged_iff.2 hrest
  | mapping es ih =>
    rw [Setting.normalize] at h
    obtain ⟨as, has, rfl⟩ := Option.map_eq_some_iff.1 h
    refine ⟨_, textual_payload fun a ha ↦ ?_, rfl⟩
    refine forall_mem_of_forall₂ (normalizeEntries_eq_some_iff.1 has) (fun e he A hA ↦ ?_) a
      (Heapq.mem_sorted.1 ha)
    obtain ⟨k, x, hk, hx, rfl⟩ := hA
    obtain ⟨rest, hrest, rfl⟩ := (ih e he).1 hk
    obtain ⟨rest', hrest', rfl⟩ := (ih e he).2 hx
    refine itemsTextual_iff.2 fun r hr ↦ ?_
    rcases List.mem_pair.1 hr with rfl | rfl
    · exact textual_tagged_iff.2 hrest
    · exact textual_tagged_iff.2 hrest'

theorem Setting.isTextual_normalize (h : v.normalize I = some A) : A.IsTextual := by
  obtain ⟨rest, hrest, rfl⟩ := Setting.normalize_eq_tagged h
  exact textual_tagged_iff.2 hrest

theorem Interpreter.strInt_eq {i : ℤ} {text : Str} (h : I.strInt i = some text) : text = intText i := by
  unfold Interpreter.strInt at h
  split_ifs at h
  exact (Option.some.inj h).symm

theorem textual_entry (hv : v.normalize I = some A) (hw : w.normalize I = some B) :
    ∀ r ∈ [A, B], r.IsTextual := by
  intro r hr
  rcases List.mem_pair.1 hr with rfl | rfl
  · exact Setting.isTextual_normalize hv
  · exact Setting.isTextual_normalize hw

theorem NormalEntry.isTextual {e : Setting × Setting} (h : NormalEntry I e A) : A.IsTextual := by
  obtain ⟨k, x, hk, hx, rfl⟩ := h
  exact itemsTextual_iff.2 (textual_entry hk hx)

/-- The text of an entry tells its key and its value. -/
theorem NormalEntry.canonical_eq_iff {e g : Setting × Setting} {P Q : Prop} (he : NormalEntry I e A)
    (hg : NormalEntry I g B)
    (hkey : ∀ {C D}, e.1.normalize I = some C → g.1.normalize I = some D →
      (canonicalRegistryJson C = canonicalRegistryJson D ↔ P))
    (hitem : ∀ {C D}, e.2.normalize I = some C → g.2.normalize I = some D →
      (canonicalRegistryJson C = canonicalRegistryJson D ↔ Q)) :
    canonicalRegistryJson A = canonicalRegistryJson B ↔ P ∧ Q := by
  obtain ⟨k, x, hk, hx, rfl⟩ := he
  obtain ⟨l, y, hl, hy, rfl⟩ := hg
  rw [canonical_arr_eq_iff (textual_entry hk hx) (textual_entry hl hy), ← hkey hk hl, ← hitem hx hy]
  simp

/-- Values with different tags have different texts, and are not the same. -/
theorem canonical_eq_iff_of_tag_ne {f : Str → Str} (hv : v.normalize I = some A) (hw : w.normalize I = some B)
    (h : v.tag ≠ w.tag) : canonicalRegistryJson A = canonicalRegistryJson B ↔ v.Same f w := by
  obtain ⟨rest, hrest, rfl⟩ := Setting.normalize_eq_tagged hv
  obtain ⟨rest', hrest', rfl⟩ := Setting.normalize_eq_tagged hw
  refine iff_of_false (fun heq ↦ h ?_) fun hsame ↦ h hsame.tag_eq
  exact ((canonical_tagged_eq_iff hrest hrest').1 heq).1

/-- Values without parts. -/
theorem Scalar.canonical_eq_iff (hx : x.normalize I = some A) (hy : y.normalize I = some B) :
    canonicalRegistryJson A = canonicalRegistryJson B ↔ x.Same joinPairs y := by
  by_cases htag : x.tag = y.tag
  · rcases x with - | b | i | z | s | b | s | b <;> rcases y with - | b' | j | z' | t | b' | t | b' <;>
      simp only [Scalar.tag, reduceCtorEq] at htag
    · rw [← Option.some.inj hx, ← Option.some.inj hy]
      exact iff_of_true rfl trivial
    · have hbool : ∀ c, ∀ r ∈ [Value.bool c], r.IsTextual := fun c r hr ↦ List.mem_singleton.1 hr ▸ trivial
      rw [← Option.some.inj hx, ← Option.some.inj hy, canonical_tagged_eq_iff (hbool b) (hbool b'),
        List.map_singleton, List.map_singleton, List.cons.injEq]
      simpa [Scalar.Same, canonicalRegistryJson] using dumps_bool_eq_iff .compact
    · obtain ⟨text, hi, rfl⟩ := Option.map_eq_some_iff.1 hx
      obtain ⟨text', hj, rfl⟩ := Option.map_eq_some_iff.1 hy
      rw [I.strInt_eq hi, I.strInt_eq hj,
        canonical_tagged_str_eq_iff_of_isAscii (intText_isAscii i) (intText_isAscii j), intText_injective.eq_iff,
        Scalar.Same]
    · rw [← Option.some.inj hx, ← Option.some.inj hy,
        canonical_tagged_str_eq_iff_of_isAscii z.isAscii_hex z'.isAscii_hex, FloatBits.hex_injective.eq_iff,
        Scalar.Same]
    · rw [← Option.some.inj hx, ← Option.some.inj hy, canonical_tagged_str_eq_iff, Scalar.Same]
    · rw [← Option.some.inj hx, ← Option.some.inj hy,
        canonical_tagged_str_eq_iff_of_isAscii (isAscii_hexBytes b) (isAscii_hexBytes b'),
        hexBytes_injective.eq_iff, Scalar.Same]
    · rw [← Option.some.inj hx, ← Option.some.inj hy, canonical_tagged_str_eq_iff, Scalar.Same]
    · rw [← Option.some.inj hx, ← Option.some.inj hy,
        canonical_tagged_str_eq_iff_of_isAscii (isAscii_hexBytes b) (isAscii_hexBytes b'),
        hexBytes_injective.eq_iff, Scalar.Same]
  · have hne : (Setting.scalar x).tag ≠ (Setting.scalar y).tag := htag
    have := canonical_eq_iff_of_tag_ne (f := joinPairs) (v := .scalar x) (w := .scalar y)
      (by rw [Setting.normalize]; exact hx) (by rw [Setting.normalize]; exact hy) hne
    rwa [Setting.Same] at this

/-- **The text of a normal form.** Two values have one text if they are the same up to the order of dicts and
sets, once the pairs in their strings are joined. -/
theorem Setting.canonical_eq_iff (hv : v.normalize I = some A) (hw : w.normalize I = some B) :
    canonicalRegistryJson A = canonicalRegistryJson B ↔ v.Same joinPairs w := by
  induction v using Setting.induct generalizing w A B with
  | scalar x =>
    by_cases htag : (Setting.scalar x).tag = w.tag
    · rcases w with y | ⟨kind', ws⟩ | ⟨kind', ws⟩ | fs
      · rw [Setting.normalize] at hv hw
        exact Scalar.canonical_eq_iff hv hw
      all_goals rcases x <;> simp [Setting.tag, Scalar.tag] at htag
    · exact canonical_eq_iff_of_tag_ne hv hw htag
  | sequence kind vs ih =>
    by_cases htag : (Setting.sequence kind vs).tag = w.tag
    · rcases w with y | ⟨kind', ws⟩ | ⟨kind', ws⟩ | fs
      · rcases y <;> simp [Setting.tag, Scalar.tag] at htag
      · rw [Setting.normalize] at hv hw
        obtain ⟨as, has, rfl⟩ := Option.map_eq_some_iff.1 hv
        obtain ⟨bs, hbs, rfl⟩ := Option.map_eq_some_iff.1 hw
        rw [normalizeItems_eq_some_iff] at has hbs
        rw [canonical_tagged_list_eq_iff kind.isAscii_typeName kind'.isAscii_typeName
          (forall_mem_of_forall₂ has fun _ _ _ ↦ Setting.isTextual_normalize)
          (forall_mem_of_forall₂ hbs fun _ _ _ ↦ Setting.isTextual_normalize), SequenceKind.typeName_inj,
          Setting.Same, sameItems_iff,
          Heapq.map_eq_iff_forall₂ has hbs fun v hv a w b ha hb ↦ ih v hv ha hb]
      all_goals simp [Setting.tag] at htag
    · exact canonical_eq_iff_of_tag_ne hv hw htag
  | set kind vs ih =>
    by_cases htag : (Setting.set kind vs).tag = w.tag
    · rcases w with y | ⟨kind', ws⟩ | ⟨kind', ws⟩ | fs
      · rcases y <;> simp [Setting.tag, Scalar.tag] at htag
      · simp [Setting.tag] at htag
      · rw [Setting.normalize] at hv hw
        obtain ⟨as, has, rfl⟩ := Option.map_eq_some_iff.1 hv
        obtain ⟨bs, hbs, rfl⟩ := Option.map_eq_some_iff.1 hw
        rw [normalizeItems_eq_some_iff] at has hbs
        rw [canonical_tagged_list_eq_iff kind.isAscii_typeName kind'.isAscii_typeName
          (fun a ha ↦ forall_mem_of_forall₂ has (fun _ _ _ ↦ Setting.isTextual_normalize) a
            (Heapq.mem_sorted.1 ha))
          (fun b hb ↦ forall_mem_of_forall₂ hbs (fun _ _ _ ↦ Setting.isTextual_normalize) b
            (Heapq.mem_sorted.1 hb)), SetKind.typeName_inj, Heapq.map_sorted_eq_iff,
          Heapq.map_perm_iff_forall₂ has hbs fun v hv a w b ha hb ↦ ih v hv ha hb, Setting.Same]
        simp only [sameItems_iff]
      · simp [Setting.tag] at htag
    · exact canonical_eq_iff_of_tag_ne hv hw htag
  | mapping es ih =>
    by_cases htag : (Setting.mapping es).tag = w.tag
    · rcases w with y | ⟨kind', ws⟩ | ⟨kind', ws⟩ | fs
      · rcases y <;> simp [Setting.tag, Scalar.tag] at htag
      · simp [Setting.tag] at htag
      · simp [Setting.tag] at htag
      · rw [Setting.normalize] at hv hw
        obtain ⟨as, has, rfl⟩ := Option.map_eq_some_iff.1 hv
        obtain ⟨bs, hbs, rfl⟩ := Option.map_eq_some_iff.1 hw
        rw [normalizeEntries_eq_some_iff] at has hbs
        have hname : (Py.str "builtins.dict").IsAscii := by decide
        rw [canonical_tagged_list_eq_iff hname hname
          (fun a ha ↦ forall_mem_of_forall₂ has (fun _ _ _ h ↦ h.isTextual) a (Heapq.mem_sorted.1 ha))
          (fun b hb ↦ forall_mem_of_forall₂ hbs (fun _ _ _ h ↦ h.isTextual) b (Heapq.mem_sorted.1 hb)),
          and_iff_right rfl, Heapq.map_sorted_eq_iff,
          Heapq.map_perm_iff_forall₂ has hbs fun e he a g b ha hb ↦
            ha.canonical_eq_iff hb (fun hk hl ↦ (ih e he).1 hk hl) fun hx hy ↦ (ih e he).2 hx hy, Setting.Same]
        simp only [sameEntries_iff]
    · exact canonical_eq_iff_of_tag_ne hv hw htag

/-- `True` and `1` are equal in Python, but not the same setting. -/
example : canonicalRegistryJson (tagged .bool [.bool true]) ≠ canonicalRegistryJson (tagged .int [.int 1]) := by
  decide +kernel

/-! ## Settings that have a key -/

/-- `v` can be normalised at a depth of `n`. -/
def Setting.Normalizes (I : Interpreter) (n : ℕ) (v : Setting) : Prop := v.depth ≤ n ∧ (v.normalize I).isSome

variable {n : ℕ} {f : Str → Str}

theorem isSome_normalizeItems {vs : List Setting} :
    (normalizeItems I vs).isSome ↔ ∀ v ∈ vs, (v.normalize I).isSome := by
  induction vs with
  | nil => simp [normalizeItems]
  | cons v vs ih =>
    rw [List.forall_mem_cons, ← ih, normalizeItems]
    rcases v.normalize I with - | x <;> rcases normalizeItems I vs with - | xs <;> simp

theorem isSome_normalizeEntries {es : List (Setting × Setting)} :
    (normalizeEntries I es).isSome ↔ ∀ e ∈ es, (e.1.normalize I).isSome ∧ (e.2.normalize I).isSome := by
  induction es with
  | nil => simp [normalizeEntries]
  | cons e es ih =>
    obtain ⟨key, item⟩ := e
    rw [List.forall_mem_cons, ← ih, normalizeEntries]
    rcases key.normalize I with - | k <;> rcases item.normalize I with - | x <;>
      rcases normalizeEntries I es with - | xs <;> simp

theorem itemsDepth_le_iff {vs : List Setting} : itemsDepth vs ≤ n ↔ ∀ v ∈ vs, v.depth ≤ n := by
  induction vs with
  | nil => simp [itemsDepth]
  | cons v vs ih => rw [itemsDepth, max_le_iff, ih, List.forall_mem_cons]

theorem entriesDepth_le_iff {es : List (Setting × Setting)} :
    entriesDepth es ≤ n ↔ ∀ e ∈ es, e.1.depth ≤ n ∧ e.2.depth ≤ n := by
  induction es with
  | nil => simp [entriesDepth]
  | cons e es ih => rw [entriesDepth, max_le_iff, max_le_iff, ih, List.forall_mem_cons]

theorem normalizes_sequence {kind : SequenceKind} {vs : List Setting} :
    (Setting.sequence kind vs).Normalizes I n ↔ 0 < n ∧ ∀ v ∈ vs, v.Normalizes I (n - 1) := by
  rw [Setting.Normalizes, Setting.depth, Setting.normalize, Option.isSome_map, isSome_normalizeItems]
  rcases n with - | n
  · simp
  · rw [Nat.add_le_add_iff_right, itemsDepth_le_iff, Nat.add_sub_cancel, and_iff_right n.succ_pos]
    exact ⟨fun h v hv ↦ ⟨h.1 v hv, h.2 v hv⟩, fun h ↦ ⟨fun v hv ↦ (h v hv).1, fun v hv ↦ (h v hv).2⟩⟩

theorem normalizes_set {kind : SetKind} {vs : List Setting} :
    (Setting.set kind vs).Normalizes I n ↔ 0 < n ∧ ∀ v ∈ vs, v.Normalizes I (n - 1) := by
  rw [← @normalizes_sequence _ _ .list, Setting.Normalizes, Setting.Normalizes, Setting.depth, Setting.depth,
    Setting.normalize, Setting.normalize, Option.isSome_map, Option.isSome_map]

theorem normalizes_mapping {es : List (Setting × Setting)} :
    (Setting.mapping es).Normalizes I n ↔
      0 < n ∧ ∀ e ∈ es, e.1.Normalizes I (n - 1) ∧ e.2.Normalizes I (n - 1) := by
  rw [Setting.Normalizes, Setting.depth, Setting.normalize, Option.isSome_map, isSome_normalizeEntries]
  rcases n with - | n
  · simp
  · rw [Nat.add_le_add_iff_right, entriesDepth_le_iff, Nat.add_sub_cancel, and_iff_right n.succ_pos]
    constructor
    · rintro ⟨hdepth, hsome⟩ e he
      exact ⟨⟨(hdepth e he).1, (hsome e he).1⟩, (hdepth e he).2, (hsome e he).2⟩
    · intro h
      exact ⟨fun e he ↦ ⟨(h e he).1.1, (h e he).2.1⟩, fun e he ↦ ⟨(h e he).1.2, (h e he).2.2⟩⟩

theorem forall_mem_iff_of_forall₂ {α : Type} {R : α → α → Prop} {P : α → Prop} {xs ys : List α}
    (h : List.Forall₂ R xs ys) (hP : ∀ x ∈ xs, ∀ y, R x y → (P x ↔ P y)) : (∀ x ∈ xs, P x) ↔ ∀ y ∈ ys, P y := by
  induction h with
  | nil => exact Iff.rfl
  | cons hx hxs ih =>
    rw [List.forall_mem_cons, List.forall_mem_cons, hP _ List.mem_cons_self _ hx,
      ih fun x hx ↦ hP x (List.mem_cons_of_mem _ hx)]

/-- Of two values that are the same, both can be normalised or none. -/
theorem Setting.Same.normalizes_iff (h : v.Same f w) : v.Normalizes I n ↔ w.Normalizes I n := by
  induction v using Setting.induct generalizing w n with
  | scalar x =>
    rcases w with y | ⟨kind', ws⟩ | ⟨kind', ws⟩ | fs <;> simp only [Setting.Same] at h
    have hsome : (x.normalize I).isSome ↔ (y.normalize I).isSome := by
      rcases x with - | b | i | z | s | b | s | b <;> rcases y with - | b' | j | z' | t | b' | t | b' <;>
        simp only [Scalar.Same] at h
      · rfl
      · rfl
      · rw [h]
      all_goals rfl
    rw [Setting.Normalizes, Setting.Normalizes, Setting.depth, Setting.depth, Setting.normalize,
      Setting.normalize, hsome]
  | sequence kind vs ih =>
    rcases w with y | ⟨kind', ws⟩ | ⟨kind', ws⟩ | fs <;> simp only [Setting.Same] at h
    rw [normalizes_sequence, normalizes_sequence,
      forall_mem_iff_of_forall₂ (sameItems_iff.1 h.2) fun v hv w hw ↦ ih v hv hw]
  | set kind vs ih =>
    rcases w with y | ⟨kind', ws⟩ | ⟨kind', ws⟩ | fs <;> simp only [Setting.Same] at h
    obtain ⟨-, us, hperm, hus⟩ := h
    rw [normalizes_set, normalizes_set,
      forall_mem_iff_of_forall₂ (sameItems_iff.1 hus) fun v hv w hw ↦ ih v hv hw]
    simp only [hperm.mem_iff]
  | mapping es ih =>
    rcases w with y | ⟨kind', ws⟩ | ⟨kind', ws⟩ | fs <;> simp only [Setting.Same] at h
    obtain ⟨gs, hperm, hgs⟩ := h
    rw [normalizes_mapping, normalizes_mapping,
      forall_mem_iff_of_forall₂ (sameEntries_iff.1 hgs) fun e he g hg ↦
        and_congr ((ih e he).1 hg.1) ((ih e he).2 hg.2)]
    simp only [hperm.mem_iff]

/-! ## Strings without pairs -/

/-- The strings of a value without parts. -/
def Scalar.strings : Scalar → List Str
  | .str s => [s]
  | .secretStr s => [s]
  | _ => []

mutual

/-- The strings in a value, the secret ones too. -/
def Setting.strings : Setting → List Str
  | .scalar x => x.strings
  | .sequence _ items => itemsStrings items
  | .set _ items => itemsStrings items
  | .mapping entries => entriesStrings entries

/-- `Setting.strings` of the items. -/
def itemsStrings : List Setting → List Str
  | [] => []
  | v :: vs => v.strings ++ itemsStrings vs

/-- `Setting.strings` of the keys and values. -/
def entriesStrings : List (Setting × Setting) → List Str
  | [] => []
  | (key, item) :: rest => key.strings ++ item.strings ++ entriesStrings rest

end

theorem mem_itemsStrings {vs : List Setting} {s : Str} : s ∈ itemsStrings vs ↔ ∃ v ∈ vs, s ∈ v.strings := by
  induction vs with
  | nil => simp [itemsStrings]
  | cons v vs ih => rw [itemsStrings, List.mem_append, ih, List.exists_mem_cons_iff]

theorem mem_entriesStrings {es : List (Setting × Setting)} {s : Str} :
    s ∈ entriesStrings es ↔ ∃ e ∈ es, s ∈ e.1.strings ∨ s ∈ e.2.strings := by
  induction es with
  | nil => simp [entriesStrings]
  | cons e es ih => rw [entriesStrings, List.mem_append, List.mem_append, ih, List.exists_mem_cons_iff]

/-- No string of the value has a pair. -/
def Setting.Unpaired (v : Setting) : Prop := ∀ s ∈ v.strings, hasPair s = false

instance (v : Setting) : Decidable v.Unpaired := inferInstanceAs (Decidable (∀ s ∈ v.strings, hasPair s = false))

theorem forall₂_imp_mem {α : Type} {R S : α → α → Prop} {xs ys : List α} (h : List.Forall₂ R xs ys)
    (hRS : ∀ x ∈ xs, ∀ y ∈ ys, R x y → S x y) : List.Forall₂ S xs ys := by
  induction h with
  | nil => exact .nil
  | cons hx hxs ih =>
    exact .cons (hRS _ List.mem_cons_self _ List.mem_cons_self hx) <| ih fun x hx y hy ↦
      hRS x (List.mem_cons_of_mem _ hx) y (List.mem_cons_of_mem _ hy)

/-- Strings may be read in any way that tells no more of them apart. -/
theorem Setting.Same.map {g : Str → Str} (h : v.Same f w)
    (hfg : ∀ s ∈ v.strings, ∀ t ∈ w.strings, f s = f t → g s = g t) : v.Same g w := by
  induction v using Setting.induct generalizing w with
  | scalar x =>
    rcases w with y | ⟨kind', ws⟩ | ⟨kind', ws⟩ | fs <;> simp only [Setting.Same] at h ⊢
    rcases x with - | b | i | z | s | b | s | b <;> rcases y with - | b' | j | z' | t | b' | t | b' <;>
      first
      | exact absurd h id
      | exact hfg s (List.mem_singleton.2 rfl) t (List.mem_singleton.2 rfl) h
      | exact h
  | sequence kind vs ih =>
    rcases w with y | ⟨kind', ws⟩ | ⟨kind', ws⟩ | fs <;> simp only [Setting.Same] at h ⊢
    refine ⟨h.1, sameItems_iff.2 (forall₂_imp_mem (sameItems_iff.1 h.2) fun v hv w hw hsame ↦ ?_)⟩
    exact ih v hv hsame fun s hs t ht ↦
      hfg s (mem_itemsStrings.2 ⟨v, hv, hs⟩) t (mem_itemsStrings.2 ⟨w, hw, ht⟩)
  | set kind vs ih =>
    rcases w with y | ⟨kind', ws⟩ | ⟨kind', ws⟩ | fs <;> simp only [Setting.Same] at h ⊢
    obtain ⟨hkind, us, hperm, hus⟩ := h
    refine ⟨hkind, us, hperm, sameItems_iff.2 (forall₂_imp_mem (sameItems_iff.1 hus) fun v hv w hw hsame ↦ ?_)⟩
    exact ih v hv hsame fun s hs t ht ↦
      hfg s (mem_itemsStrings.2 ⟨v, hv, hs⟩) t (mem_itemsStrings.2 ⟨w, hperm.mem_iff.2 hw, ht⟩)
  | mapping es ih =>
    rcases w with y | ⟨kind', ws⟩ | ⟨kind', ws⟩ | fs <;> simp only [Setting.Same] at h ⊢
    obtain ⟨gs, hperm, hgs⟩ := h
    refine ⟨gs, hperm, sameEntries_iff.2 (forall₂_imp_mem (sameEntries_iff.1 hgs) fun e he g hg hsame ↦ ?_)⟩
    have hentry : ∀ s, s ∈ e.1.strings ∨ s ∈ e.2.strings → ∀ t, t ∈ g.1.strings ∨ t ∈ g.2.strings → _ :=
      fun s hs t ht ↦ hfg s (mem_entriesStrings.2 ⟨e, he, hs⟩) t
        (mem_entriesStrings.2 ⟨g, hperm.mem_iff.2 hg, ht⟩)
    constructor
    · exact (ih e he).1 hsame.1 fun s hs t ht ↦ hentry s (.inl hs) t (.inl ht)
    · exact (ih e he).2 hsame.2 fun s hs t ht ↦ hentry s (.inr hs) t (.inr ht)

/-- Without pairs there is nothing to join. -/
theorem Setting.Same.of_unpaired (h : v.Same joinPairs w) (hv : v.Unpaired) (hw : w.Unpaired) : v.Same id w := by
  refine h.map fun s hs t ht heq ↦ ?_
  rwa [joinPairs_of_not_hasPair (hv s hs), joinPairs_of_not_hasPair (hw t ht)] at heq

/-! ## Keys -/

variable {sha : Snapshot.Sha256} {type type' : Str} {settings settings' : List (Setting × Setting)}

theorem isSome_settingsKey :
    (settingsKey I settings).isSome ↔ (Setting.mapping settings).Normalizes I I.maxDepth := by
  rw [settingsKey, Setting.Normalizes]
  split_ifs with hdepth
  · rw [Option.isSome_map, and_iff_right hdepth]
  · exact iff_of_false (by simp) fun h ↦ hdepth h.1

theorem isSome_registryKey :
    (registryKey I sha type settings).isSome ↔ (Setting.mapping settings).Normalizes I I.maxDepth := by
  rw [registryKey, Option.isSome_map, isSome_settingsKey]

theorem ascii_injOn {s t : Str} (hs : s.IsAscii) (ht : t.IsAscii) : s.ascii = t.ascii ↔ s = t := by
  refine ⟨fun h ↦ ?_, congrArg Str.ascii⟩
  have hread := congrArg (decodeUtf8 false) h
  rw [decodeUtf8_ascii hs, decodeUtf8_ascii ht] at hread
  exact Option.some.inj hread

/-- The texts that are hashed. -/
theorem settingsKey_eq_iff {text text' : Bytes} (h : settingsKey I settings = some text)
    (h' : settingsKey I settings' = some text') :
    text = text' ↔ (Setting.mapping settings).Same joinPairs (.mapping settings') := by
  have hread : ∀ {es : List (Setting × Setting)} {b}, settingsKey I es = some b →
      ∃ A, (Setting.mapping es).normalize I = some A ∧
        b = dumpBytes .compact (.arr [.str (Py.str "connection-manager-registry-v1"), A]) := by
    intro es b hb
    rw [settingsKey] at hb
    split_ifs at hb
    obtain ⟨A, hA, rfl⟩ := Option.map_eq_some_iff.1 hb
    exact ⟨A, hA, rfl⟩
  have hitems : ∀ {C : Value}, C.IsTextual →
      ∀ r ∈ [Value.str (Py.str "connection-manager-registry-v1"), C], r.IsTextual := by
    intro C hC r hr
    rcases List.mem_pair.1 hr with rfl | rfl
    · trivial
    · exact hC
  obtain ⟨A, hA, rfl⟩ := hread h
  obtain ⟨B, hB, rfl⟩ := hread h'
  have hascii : ∀ C, (dumps .compact C).IsAscii := fun C ↦ dumps_isAscii rfl C
  rw [dumpBytes, dumpBytes, ascii_injOn (hascii _) (hascii _),
    dumps_arr_eq_iff .compact (hitems (Setting.isTextual_normalize hA)) (hitems (Setting.isTextual_normalize hB)),
    ← Setting.canonical_eq_iff hA hB]
  simp [canonicalRegistryJson]

/-- Two requests with one key, if the two texts do not collide. -/
theorem registryKey_eq_iff {key key' : Str} (h : registryKey I sha type settings = some key)
    (h' : registryKey I sha type' settings' = some key')
    (hsha : ∀ text ∈ settingsKey I settings, ∀ text' ∈ settingsKey I settings', sha text = sha text' → text = text') :
    key = key' ↔ type = type' ∧ (Setting.mapping settings).Same joinPairs (.mapping settings') := by
  obtain ⟨text, htext, rfl⟩ := Option.map_eq_some_iff.1 h
  obtain ⟨text', htext', rfl⟩ := Option.map_eq_some_iff.1 h'
  rw [← settingsKey_eq_iff htext htext']
  constructor
  · intro heq
    have hlength : (sha text).text.length = (sha text').text.length := by
      rw [Snapshot.Hex.length_text, Snapshot.Hex.length_text]
    obtain ⟨hfront, hdigest⟩ := List.append_inj' heq hlength
    exact ⟨List.append_cancel_right hfront, hsha text htext text' htext' (Snapshot.Hex.text_injective hdigest)⟩
  · rintro ⟨rfl, rfl⟩
    rfl

/-- An interpreter with its usual limits. -/
def usual : Interpreter := ⟨some 4300, 1000⟩

/-- The number of a database. -/
def database (x : Scalar) : List (Setting × Setting) := [(.scalar (.str (Py.str "db")), .scalar x)]

/-- A digest that tells one text from all others. -/
def knownDigest (known : Bytes) : Snapshot.Sha256 := fun text ↦ .replicate 64 (if text = known then 1 else 0)

/-- A digest under which the number of a database does not collide. -/
def numberDigest : Snapshot.Sha256 := knownDigest ((settingsKey usual (database (.int 0))).getD [])

/-- The password of a request. -/
def password (s : Str) : List (Setting × Setting) :=
  [(.scalar (.str (Py.str "password")), .scalar (.secretStr s))]

/-- One character outside the basic plane. -/
def astral : Str := [⟨0x1F600, by decide⟩]

private theorem high_lt : 0xD83D < 0x110000 := by decide

private theorem low_lt : 0xDE00 < 0x110000 := by decide

/-- The two surrogates that encode it in UTF-16. -/
def pair : Str := [⟨0xD83D, high_lt⟩, ⟨0xDE00, low_lt⟩]

end RegistryKey

end ScrapyExtension
