import ScrapyExtension.Json.RoundTrip
import ScrapyExtension.Py.Base64

/-!
# The escaped JSON codec

The codec of `backends/_json_codec.py`. The encoder writes bytes, datetimes and dates as tagged
*marker* objects; a caller's dict that has the shape of a marker is wrapped into an escape marker
that lists its items, so that it is not retyped on the way back. The decoder undoes this inside
`object_pairs_hook`, one object at a time from the leaves up.

## Why the two shape tests agree

The encoder looks at a dict whose values are already *encoded*, the decoder at one whose values
are already *decoded*. The tests compare string values only, and a supported value encodes to a
string exactly when it is that string (`encodeJsonValue_eq_str`), so the tests see the same
strings. `Encodes` packages what the induction carries from the values of a dict to the dict.

## What is outside the model

Floats, datetimes and dates are a parameter `Host` with their printers and readers. The
interpreter's recursion limit and its limit on integer digits are left out: the text is read with
enough depth for any tree it can contain.
-/

namespace ScrapyExtension

open Py Json

namespace JsonCodec

/-! ## Objects -/

/-- The library types whose text form the codec relies on, finite floats among them. -/
structure Host where
  /-- Finite floats. -/
  Float : Type
  /-- `datetime` -/
  DateTime : Type
  /-- `date` -/
  Date : Type
  /-- `float.__repr__` -/
  floatRepr : Float → FloatToken
  /-- `float(text)`; `none` if the result is not finite -/
  float? : Str → Option Float
  /-- `datetime.isoformat` -/
  dateTimeIso : DateTime → Str
  /-- `datetime.fromisoformat` -/
  dateTime? : Str → Option DateTime
  /-- `date.isoformat` -/
  dateIso : Date → Str
  /-- `date.fromisoformat` -/
  date? : Str → Option Date

/-- What is assumed of the library types: their text forms read back, and ISO texts are ASCII. -/
structure Host.Faithful (H : Host) : Prop where
  float?_repr : ∀ x, H.float? (H.floatRepr x).text = some x
  dateTime?_iso : ∀ d, H.dateTime? (H.dateTimeIso d) = some d
  date?_iso : ∀ d, H.date? (H.dateIso d) = some d
  dateTimeIso_isAscii : ∀ d, Str.IsAscii (H.dateTimeIso d)
  dateIso_isAscii : ∀ d, Str.IsAscii (H.dateIso d)

/-- The secret wrappers, known by their type name. -/
inductive Secret where
  /-- `SecretStr` -/
  | secretStr
  /-- `SecretBytes` -/
  | secretBytes
deriving DecidableEq

/-- `type(obj).__name__` of a secret wrapper. -/
def Secret.typeName : Secret → String
  | .secretStr => "SecretStr"
  | .secretBytes => "SecretBytes"

/-- The floats without a JSON text. -/
inductive NonFinite where
  /-- Not a number. -/
  | nan
  /-- Positive infinity. -/
  | inf
  /-- Negative infinity. -/
  | negInf
deriving DecidableEq

/-- `repr` of a non-finite float. -/
def NonFinite.repr : NonFinite → String
  | .nan => "nan"
  | .inf => "inf"
  | .negInf => "-inf"

/-- A key of a Python dict, as far as the codec looks at it. -/
inductive Key where
  /-- A string. -/
  | str (s : Str)
  /-- A secret wrapper. -/
  | secret (w : Secret)
  /-- Any other hashable object, by its type name. -/
  | other (typeName : String)
deriving DecidableEq

/-- A Python object, as far as the codec looks at it. -/
inductive Obj (H : Host) where
  /-- `None` -/
  | none
  /-- `bool` -/
  | bool (b : Bool)
  /-- `int` -/
  | int (i : ℤ)
  /-- A finite `float`. -/
  | float (x : H.Float)
  /-- A non-finite `float`. -/
  | nonFinite (x : NonFinite)
  /-- `str` -/
  | str (s : Str)
  /-- `bytes` -/
  | bytes (b : Bytes)
  /-- `bytearray` -/
  | bytearray (b : Bytes)
  /-- `datetime` -/
  | datetime (d : H.DateTime)
  /-- `date` -/
  | date (d : H.Date)
  /-- `list` -/
  | list (xs : List (Obj H))
  /-- `tuple` -/
  | tuple (xs : List (Obj H))
  /-- `dict`, in insertion order -/
  | dict (ms : List (Key × Obj H))
  /-- `SecretStr` or `SecretBytes` -/
  | secret (w : Secret)
  /-- A finite `Decimal`, by its `str`. -/
  | decimal (text : Str)
  /-- A non-finite `Decimal`, by its `repr`. -/
  | nonFiniteDecimal (repr : String)
  /-- `UUID`, by its `str` -/
  | uuid (text : Str)
  /-- `set` or `frozenset`, in its iteration order -/
  | set (xs : List (Obj H))
  /-- `Enum`, by its value -/
  | enum (value : Obj H)
  /-- `Path`, by its `str` -/
  | path (text : Str)
  /-- An object of any other type, by its type name. -/
  | other (typeName : String)

variable {H : Host}

/-! ## Encoding -/

/-- The exceptions of the encoder. -/
inductive EncodeError where
  /-- `_SecretWrapperSerializationRejected` -/
  | secretRejected (w : Secret)
  /-- `TypeError` -/
  | typeError (message : String)
  /-- `ValueError` -/
  | valueError (message : String)
deriving DecidableEq

/-- `_BYTES_TAG` -/
def bytesTag : Str := Py.str "__b64__"

/-- `_CODEC_TAG` -/
def codecTag : Str := Py.str "__scrapy_extension_json_type__"

/-- `_CODEC_DATA` -/
def codecData : Str := Py.str "data"

/-- `_CODEC_BYTES` -/
def codecBytes : Str := Py.str "bytes"

/-- `_CODEC_DICT` -/
def codecDict : Str := Py.str "dict"

/-- `_CODEC_DATETIME` -/
def codecDatetime : Str := Py.str "datetime"

/-- `_CODEC_DATE` -/
def codecDate : Str := Py.str "date"

/-- A tagged marker. -/
def marker (tag : Str) (data : Value) : Value := .obj [(codecTag, .str tag), (codecData, data)]

/-- The value is a string. -/
def isStr : Value → Bool
  | .str _ => true
  | _ => false

/-- `obj.get(_CODEC_TAG) in (_CODEC_BYTES, _CODEC_DICT, _CODEC_DATETIME, _CODEC_DATE)` -/
def isTagValue : Value → Bool
  | .str s => s = codecBytes || s = codecDict || s = codecDatetime || s = codecDate
  | _ => false

/-- `_looks_like_codec_marker` -/
def looksLikeCodecMarker (obj : List (Str × Value)) : Bool :=
  (obj.length == 1 && (obj.lookup bytesTag).any isStr) ||
    (obj.length == 2 && (obj.lookup codecTag).any isTagValue && (obj.lookup codecData).isSome)

/-- The escape marker of a dict, `list(encoded.items())` as pairs. -/
def escapeDict (encoded : List (Str × Value)) : Value :=
  marker codecDict (.arr (encoded.map fun m ↦ .arr [.str m.1, m.2]))

/-- The key checks at the start of the `dict` branch. -/
def checkKeys : List Key → Except EncodeError Unit
  | [] => .ok ()
  | .str _ :: ks => checkKeys ks
  | .secret w :: _ => .error (.secretRejected w)
  | .other typeName :: _ =>
    .error (.typeError ("JSON object keys must be strings, got " ++ typeName))

/-- The text of a key that passed `checkKeys`. -/
def Key.text : Key → Str
  | .str s => s
  | _ => []

/-- The `TypeError` at the end of `_json_default`. -/
def notSerializable (typeName : String) : EncodeError :=
  .typeError ("Object of type " ++ typeName ++ " is not JSON serializable. Pre-serialize " ++
    typeName ++ " instances before pushing to the queue, or extend " ++
    "scrapy_extension.backends.base._json_default.")

mutual

/-- `_encode_json_value`, with the cases of `_json_default` written out. -/
def encodeJsonValue : Obj H → Except EncodeError Value
  | .secret w => .error (.secretRejected w)
  | .bytes b | .bytearray b => .ok (marker codecBytes (.str (Base64.encode b)))
  | .datetime d => .ok (marker codecDatetime (.str (H.dateTimeIso d)))
  | .date d => .ok (marker codecDate (.str (H.dateIso d)))
  | .dict ms => do
    checkKeys (ms.map Prod.fst)
    let encoded ← encodeMembers ms
    .ok (if looksLikeCodecMarker encoded then escapeDict encoded else .obj encoded)
  | .list xs | .tuple xs | .set xs => do
    let encoded ← encodeItems xs
    .ok (.arr encoded)
  | .nonFinite x => .error (.valueError ("JSON numbers must be finite, got " ++ x.repr))
  | .none => .ok .null
  | .bool b => .ok (.bool b)
  | .int i => .ok (.int i)
  | .float x => .ok (.float (H.floatRepr x))
  | .str s => .ok (.str s)
  | .decimal text | .uuid text | .path text => .ok (.str text)
  | .nonFiniteDecimal repr =>
    .error (.valueError ("Cannot serialize non-finite Decimal: " ++ repr))
  | .enum value => encodeJsonValue value
  | .other typeName => .error (notSerializable typeName)

/-- The items of a list, in order. -/
def encodeItems : List (Obj H) → Except EncodeError (List Value)
  | [] => .ok []
  | x :: xs => do
    let y ← encodeJsonValue x
    let ys ← encodeItems xs
    .ok (y :: ys)

/-- The items of a dict, in order. -/
def encodeMembers : List (Key × Obj H) → Except EncodeError (List (Str × Value))
  | [] => .ok []
  | (k, x) :: ms => do
    let y ← encodeJsonValue x
    let ys ← encodeMembers ms
    .ok ((k.text, y) :: ys)

end

/-- The public errors of `serialize`: the secret signal is replaced at the boundary. -/
def publicError : EncodeError → EncodeError
  | .secretRejected w =>
    .typeError (w.typeName ++ " values cannot be JSON serialized; explicitly encrypt or " ++
      "unwrap only after accepting persistence risk.")
  | e => e

/-- `JSONSerializer.serialize`. The text is ASCII, so `encode("utf-8")` is octet for character. -/
def serialize (obj : Obj H) : Except EncodeError Bytes :=
  match encodeJsonValue obj with
  | .ok v => .ok (Str.ascii (dumps .default v))
  | .error e => .error (publicError e)

/-! ## Decoding -/

/-- A string-keyed dict. -/
def strDict (ms : List (Str × Obj H)) : Obj H := .dict (ms.map fun m ↦ (.str m.1, m.2))

/-- Build a dict from pairs; `none` is the `ValueError` for a repeated key. -/
def buildDict (pairs : List (Str × Obj H)) : Option (List (Str × Obj H)) :=
  pairs.foldlM (fun result m ↦ if (result.lookup m.1).isSome then none else some (result ++ [m]))
    []

/-- `_decode_bytes_tag` on a dict. -/
def decodeBytesTag (obj : List (Str × Obj H)) : Obj H :=
  if obj.length = 1 then
    match obj.lookup bytesTag with
    | some (.str value) => ((Base64.decode value).map Obj.bytes).getD (strDict obj)
    | _ => strDict obj
  else strDict obj

/-- An item of an escape marker: a two-element list that starts with a string. -/
def escapedPair : Obj H → Option (Str × Obj H)
  | .list [.str k, v] => some (k, v)
  | _ => none

/-- The items of an escape marker, if `obj` is one. -/
def escapedItems (obj : List (Str × Obj H)) : Option (List (Str × Obj H)) :=
  match obj.length == 2, obj.lookup codecTag, obj.lookup codecData with
  | true, some (.str tag), some (.list items) =>
    if tag = codecDict then items.mapM escapedPair else none
  | _, _, _ => none

/-- The bytes, datetime or date of a typed marker, if `obj` is a valid one. -/
def typedMarker (obj : List (Str × Obj H)) : Option (Obj H) :=
  match obj.length == 2, obj.lookup codecTag, obj.lookup codecData with
  | true, some (.str tag), some (.str data) =>
    if tag = codecBytes then (Base64.decode data).map Obj.bytes
    else if tag = codecDatetime then (H.dateTime? data).map Obj.datetime
    else if tag = codecDate then (H.date? data).map Obj.date
    else none
  | _, _, _ => none

/-- `_decode_marker_dict`; `none` is the `ValueError` for a repeated escaped key. -/
def decodeMarkerDict (obj : List (Str × Obj H)) : Option (Obj H) :=
  match escapedItems obj with
  | some items => (buildDict items).map strDict
  | none => some ((typedMarker obj).getD (decodeBytesTag obj))

/-- `_json_object_from_pairs` -/
def jsonObjectFromPairs (pairs : List (Str × Obj H)) : Option (Obj H) :=
  (buildDict pairs).bind decodeMarkerDict

/-- The hooks that `deserialize` passes to `json.loads`. -/
def hooks (H : Host) : Hooks (Obj H) where
  null := .none
  bool := .bool
  int := fun i ↦ some (.int i)
  float := fun token ↦ (H.float? token).map Obj.float
  constant := fun _ ↦ none
  str := .str
  arr := .list
  obj := jsonObjectFromPairs

/-- The exceptions of the decoder. -/
inductive DecodeError where
  /-- `UnicodeDecodeError` -/
  | unicodeDecodeError
  /-- `json.loads` failed, or a hook raised `ValueError`. -/
  | jsonError (e : Json.Error)
deriving DecidableEq

/-- `JSONSerializer.deserialize` -/
def deserialize (H : Host) (data : Bytes) : Except DecodeError (Obj H) :=
  match decodeUtf8 false data with
  | none => .error .unicodeDecodeError
  | some text =>
    match loads (hooks H) text.length text with
    | .ok obj => .ok obj
    | .error e => .error (.jsonError e)

/-! ## The supported values -/

mutual

/-- The value trees the codec preserves: `None`, booleans, integers, finite floats, strings
without lone surrogates, bytes, datetimes, dates, lists of these, and dicts of these under
distinct string keys. -/
def Supported : Obj H → Prop
  | .none | .bool _ | .int _ | .float _ | .bytes _ | .datetime _ | .date _ => True
  | .str s => s.IsScalar
  | .list xs => ItemsSupported xs
  | .dict ms => (ms.map Prod.fst).Nodup ∧ MembersSupported ms
  | _ => False

/-- Every item of a list is supported. -/
def ItemsSupported : List (Obj H) → Prop
  | [] => True
  | x :: xs => Supported x ∧ ItemsSupported xs

/-- Every key is a string without lone surrogates and every value is supported. -/
def MembersSupported : List (Key × Obj H) → Prop
  | [] => True
  | (k, x) :: ms => (∃ s : Str, k = .str s ∧ s.IsScalar) ∧ Supported x ∧ MembersSupported ms

end

mutual

/-- The value trees that a text of the codec can carry: of their strings it is only asked that no high
surrogate stands in front of a low one, since the two would be read back as one code point. -/
def Stable : Obj H → Prop
  | .none | .bool _ | .int _ | .float _ | .bytes _ | .datetime _ | .date _ => True
  | .str s => joinPairs s = s
  | .list xs => ItemsStable xs
  | .dict ms => (ms.map Prod.fst).Nodup ∧ MembersStable ms
  | _ => False

/-- Every item of a list is stable. -/
def ItemsStable : List (Obj H) → Prop
  | [] => True
  | x :: xs => Stable x ∧ ItemsStable xs

/-- Every key is a string without surrogate pairs and every value is stable. -/
def MembersStable : List (Key × Obj H) → Prop
  | [] => True
  | (k, x) :: ms => (∃ s : Str, k = .str s ∧ joinPairs s = s) ∧ Stable x ∧ MembersStable ms

end

mutual

theorem Supported.stable : ∀ {v : Obj H}, Supported v → Stable v
  | .none, _ | .bool _, _ | .int _, _ | .float _, _ | .bytes _, _ | .datetime _, _ | .date _, _ => trivial
  | .str _, hs => readBack_of_isScalar true hs
  | .list _, hxs => ItemsSupported.stable hxs
  | .dict _, hms => ⟨hms.1, MembersSupported.stable hms.2⟩

theorem ItemsSupported.stable : ∀ {xs : List (Obj H)}, ItemsSupported xs → ItemsStable xs
  | [], _ => trivial
  | _ :: _, h => ⟨h.1.stable, ItemsSupported.stable h.2⟩

theorem MembersSupported.stable : ∀ {ms : List (Key × Obj H)}, MembersSupported ms → MembersStable ms
  | [], _ => trivial
  | (_, _) :: _, h => by
    obtain ⟨⟨s, rfl, hs⟩, hx, hms⟩ := h
    exact ⟨⟨s, rfl, readBack_of_isScalar true hs⟩, hx.stable, MembersSupported.stable hms⟩

end

/-! ## One object -/

/-- `e` is the encoding of `v`, it reads back as `v`, and only strings encode to strings. -/
structure Encodes (v : Obj H) (e : Value) : Prop where
  encode : encodeJsonValue v = .ok e
  readBack : e.readBack .default = e
  fold : e.fold (hooks H) = some v
  str : ∀ s, e = .str s ↔ v = .str s

/-- A string-keyed member and its encoding. -/
structure EncodesMember (p : Str × Obj H) (e : Str × Value) : Prop where
  key : e.1 = p.1
  joined : joinPairs p.1 = p.1
  value : Encodes p.2 e.2

private theorem lookup_isSome {β : Type} {k : Str} {ms : List (Str × β)} :
    (ms.lookup k).isSome = true ↔ k ∈ ms.map Prod.fst := by
  induction ms with
  | nil => simp
  | cons m ms ih =>
    obtain ⟨k', x⟩ := m
    rw [List.lookup_cons, List.map_cons, List.mem_cons]
    by_cases hk : k = k'
    · simp [hk]
    · have hbeq : (k == k') = false := by simpa using hk
      simp only [hbeq]
      rw [ih]
      simp [hk]

/-- Distinct keys are built into a dict as they come. -/
private theorem buildDict_eq {pairs : List (Str × Obj H)} (hnodup : (pairs.map Prod.fst).Nodup) :
    buildDict pairs = some pairs := by
  have hloop : ∀ (acc rest : List (Str × Obj H)), ((acc ++ rest).map Prod.fst).Nodup →
      rest.foldlM (fun result m ↦ if (result.lookup m.1).isSome then none
        else some (result ++ [m])) acc = some (acc ++ rest) := by
    intro acc rest
    induction rest generalizing acc with
    | nil =>
      intro _
      simp
    | cons m rest ih =>
      intro hacc
      have hnew : ¬ (acc.lookup m.1).isSome = true := by
        rw [lookup_isSome]
        rw [List.map_append, List.map_cons] at hacc
        exact fun hmem ↦ List.disjoint_of_nodup_append hacc hmem List.mem_cons_self
      rw [List.foldlM_cons, if_neg hnew]
      have hrest := ih (acc ++ [m]) (by simpa using hacc)
      simpa using hrest
  exact hloop [] pairs hnodup

section Members

variable {ps : List (Str × Obj H)} {es : List (Str × Value)}

private theorem checkKeys_str (ks : List Str) : checkKeys (ks.map Key.str) = .ok () := by
  induction ks with
  | nil => rfl
  | cons k ks ih => exact ih

private theorem encodeMembers_eq (h : List.Forall₂ EncodesMember ps es) :
    encodeMembers (ps.map fun m ↦ (Key.str m.1, m.2)) = .ok es := by
  induction h with
  | nil => rfl
  | @cons p e ps es hpe _ ih =>
    rw [List.map_cons, encodeMembers, hpe.value.encode, ih]
    simp only [Key.text, ← hpe.key]
    rfl

private theorem readBackMembers_eq (h : List.Forall₂ EncodesMember ps es) :
    readBackMembers .default es = es := by
  induction h with
  | nil => rfl
  | @cons p e ps es hpe _ ih =>
    have hkey : Json.readBack Layout.default.ensureAscii e.1 = e.1 := by
      rw [hpe.key]
      exact hpe.joined
    rw [readBackMembers, hpe.value.readBack, hkey, ih]

private theorem foldMembers_eq (h : List.Forall₂ EncodesMember ps es) :
    foldMembers (hooks H) es = some ps := by
  induction h with
  | nil => rfl
  | cons hpe _ ih =>
    rw [foldMembers, hpe.value.fold, ih, hpe.key]
    rfl

/-- A key is bound on both sides or on neither, to a value and its encoding. -/
private theorem lookup_encodes (h : List.Forall₂ EncodesMember ps es) (k : Str) :
    Option.Rel Encodes (ps.lookup k) (es.lookup k) := by
  induction h with
  | nil => exact .none
  | @cons p e ps es hpe _ ih =>
    obtain ⟨k', x⟩ := p
    obtain ⟨k'', y⟩ := e
    obtain rfl : k'' = k' := hpe.key
    rw [List.lookup_cons, List.lookup_cons]
    cases k == k'' with
    | true => exact .some hpe.value
    | false => exact ih

private theorem lookup_str (h : List.Forall₂ EncodesMember ps es) {k s : Str}
    (hs : ps.lookup k = some (.str s)) : es.lookup k = some (.str s) := by
  have hrel := lookup_encodes h k
  rw [hs] at hrel
  cases hlook : es.lookup k with
  | none =>
    rw [hlook] at hrel
    cases hrel
  | some e =>
    rw [hlook] at hrel
    obtain ⟨henc⟩ := hrel
    rw [(henc.str s).mpr rfl]

private theorem lookup_isSome_of_encodes (h : List.Forall₂ EncodesMember ps es) {k : Str} {v : Obj H}
    (hv : ps.lookup k = some v) : (es.lookup k).isSome = true := by
  have hrel := lookup_encodes h k
  rw [hv] at hrel
  cases hlook : es.lookup k with
  | none =>
    rw [hlook] at hrel
    cases hrel
  | some e => rfl

/-- A decoded dict that the decoder would take for a tagged marker had an encoding that the
encoder escapes. -/
private theorem looksLike_of_tag (h : List.Forall₂ EncodesMember ps es) {tag : Str} {data : Obj H}
    (hlen : ps.length = 2) (htag : ps.lookup codecTag = some (.str tag))
    (hdata : ps.lookup codecData = some data)
    (hknown : tag = codecBytes ∨ tag = codecDict ∨ tag = codecDatetime ∨ tag = codecDate) :
    looksLikeCodecMarker es = true := by
  have hlen' : es.length = 2 := h.length_eq ▸ hlen
  have htag' := lookup_str h htag
  have hdata' := lookup_isSome_of_encodes h hdata
  have hvalue : isTagValue (.str tag) = true := by
    simpa [isTagValue, or_assoc] using hknown
  simp [looksLikeCodecMarker, hlen', htag', hdata', hvalue]

private theorem escapedItems_eq_none (h : List.Forall₂ EncodesMember ps es)
    (hplain : looksLikeCodecMarker es = false) : escapedItems ps = none := by
  rw [escapedItems]
  split
  · next hlen htag hdata =>
    split_ifs with hdict
    · have hlooks := looksLike_of_tag h (by simpa using hlen) htag hdata (.inr (.inl hdict))
      rw [hplain] at hlooks
      exact absurd hlooks Bool.false_ne_true
    · rfl
  · rfl

private theorem typedMarker_eq_none (h : List.Forall₂ EncodesMember ps es)
    (hplain : looksLikeCodecMarker es = false) : typedMarker ps = none := by
  rw [typedMarker]
  split
  · next tag data hlen htag hdata =>
    have hunknown : ¬(tag = codecBytes ∨ tag = codecDict ∨ tag = codecDatetime ∨
        tag = codecDate) := by
      intro hknown
      have hlooks := looksLike_of_tag h (by simpa using hlen) htag hdata hknown
      rw [hplain] at hlooks
      exact Bool.false_ne_true hlooks
    simp only [not_or] at hunknown
    rw [if_neg hunknown.1, if_neg hunknown.2.2.1, if_neg hunknown.2.2.2]
  · rfl

private theorem decodeBytesTag_eq (h : List.Forall₂ EncodesMember ps es)
    (hplain : looksLikeCodecMarker es = false) : decodeBytesTag ps = strDict ps := by
  rw [decodeBytesTag]
  split_ifs with hlen
  · split
    · next value hvalue =>
      have hlen' : es.length = 1 := h.length_eq ▸ hlen
      have hvalue' := lookup_str h hvalue
      have hlooks : looksLikeCodecMarker es = true := by
        simp [looksLikeCodecMarker, hlen', hvalue', isStr]
      rw [hplain] at hlooks
      exact absurd hlooks Bool.false_ne_true
    · rfl
  · rfl

/-- A dict that does not look like a marker is left alone by the decoder. -/
private theorem decodeMarkerDict_plain (h : List.Forall₂ EncodesMember ps es)
    (hplain : looksLikeCodecMarker es = false) : decodeMarkerDict ps = some (strDict ps) := by
  rw [decodeMarkerDict, escapedItems_eq_none h hplain, typedMarker_eq_none h hplain,
    decodeBytesTag_eq h hplain]
  rfl

end Members

/-! ## Markers -/

/-- Reading a marker back: the two members under their distinct names. -/
private theorem jsonObjectFromPairs_marker (tag : Str) (data : Obj H) :
    jsonObjectFromPairs [(codecTag, .str tag), (codecData, data)] =
      decodeMarkerDict [(codecTag, .str tag), (codecData, data)] := by
  have hne : codecTag ≠ codecData := by decide
  rw [jsonObjectFromPairs, buildDict_eq (by simp [hne])]
  rfl

private theorem lookup_codecTag (tag : Str) (data : Obj H) :
    List.lookup codecTag [(codecTag, .str tag), (codecData, data)] = some (.str tag) := by
  rw [List.lookup_cons]
  simp

private theorem lookup_codecData (tag : Str) (data : Obj H) :
    List.lookup codecData [(codecTag, .str tag), (codecData, data)] = some data := by
  have hne : (codecData == codecTag) = false := by decide
  rw [List.lookup_cons, hne, List.lookup_cons]
  simp

/-- A marker whose data is a string is no escape marker. -/
private theorem decodeMarkerDict_typed {tag data : Str} {v : Obj H}
    (htyped : typedMarker [(codecTag, .str tag), (codecData, .str data)] = some v) :
    decodeMarkerDict [(codecTag, .str tag), (codecData, .str data)] = some v := by
  have hescaped : escapedItems (H := H) [(codecTag, .str tag), (codecData, .str data)] = none := by
    rw [escapedItems, lookup_codecTag, lookup_codecData]
    rfl
  rw [decodeMarkerDict, hescaped, htyped]
  rfl

private theorem fold_marker_str (tag data : Str) :
    (marker tag (.str data)).fold (hooks H) =
      decodeMarkerDict [(codecTag, .str tag), (codecData, .str data)] := by
  rw [← jsonObjectFromPairs_marker]
  rfl

private theorem readBack_marker {tag : Str} {data : Value} (htag : tag.IsScalar)
    (hdata : data.readBack .default = data) : (marker tag data).readBack .default = marker tag data := by
  rw [marker, Value.readBack, readBackMembers, readBackMembers, readBackMembers, Value.readBack, hdata,
    readBack_of_isScalar _ htag, readBack_of_isScalar _ (by decide : codecTag.IsScalar),
    readBack_of_isScalar _ (by decide : codecData.IsScalar)]

private theorem isScalar_of_isAscii {s : Str} (hs : s.IsAscii) : s.IsScalar :=
  fun c hc ↦ (hs c hc).isScalar

/-- A typed marker whose data is ASCII encodes whatever the decoder makes of it. -/
private theorem encodes_marker {v : Obj H} {tag data : Str} (htag : tag.IsScalar)
    (hdata : data.IsAscii) (henc : encodeJsonValue v = .ok (marker tag (.str data)))
    (htyped : typedMarker [(codecTag, .str tag), (codecData, .str data)] = some v)
    (hstr : ∀ s, v ≠ .str s) : Encodes v (marker tag (.str data)) where
  encode := henc
  readBack := readBack_marker htag (Value.readBack_of_isScalar _ (isScalar_of_isAscii hdata))
  fold := (fold_marker_str tag data).trans (decodeMarkerDict_typed htyped)
  str := fun s ↦ ⟨fun h ↦ (by cases h), fun h ↦ absurd h (hstr s)⟩

private theorem encodes_bytes (b : Bytes) :
    Encodes (H := H) (.bytes b) (marker codecBytes (.str (Base64.encode b))) := by
  refine encodes_marker (by decide) (Base64.encode_isAscii b) (by rw [encodeJsonValue]) ?_
    (fun s h ↦ by cases h)
  rw [typedMarker, lookup_codecTag, lookup_codecData]
  simp only [List.length_cons, List.length_nil, BEq.rfl, if_true, Base64.decode_encode]
  rfl

private theorem encodes_datetime (hH : H.Faithful) (d : H.DateTime) :
    Encodes (.datetime d) (marker codecDatetime (.str (H.dateTimeIso d))) := by
  refine encodes_marker (by decide) (hH.dateTimeIso_isAscii d) (by rw [encodeJsonValue]) ?_
    (fun s h ↦ by cases h)
  rw [typedMarker, lookup_codecTag, lookup_codecData]
  simp only [List.length_cons, List.length_nil, BEq.rfl, if_true, hH.dateTime?_iso]
  rfl

private theorem encodes_date (hH : H.Faithful) (d : H.Date) :
    Encodes (.date d) (marker codecDate (.str (H.dateIso d))) := by
  refine encodes_marker (by decide) (hH.dateIso_isAscii d) (by rw [encodeJsonValue]) ?_
    (fun s h ↦ by cases h)
  rw [typedMarker, lookup_codecTag, lookup_codecData]
  simp only [List.length_cons, List.length_nil, BEq.rfl, if_true, hH.date?_iso]
  rfl

/-! ## Lists and dicts -/

section Items

variable {xs : List (Obj H)} {es : List Value}

private theorem encodeItems_eq (h : List.Forall₂ Encodes xs es) : encodeItems xs = .ok es := by
  induction h with
  | nil => rfl
  | cons hxe _ ih =>
    rw [encodeItems, hxe.encode, ih]
    rfl

private theorem readBackItems_eq (h : List.Forall₂ Encodes xs es) : readBackItems .default es = es := by
  induction h with
  | nil => rfl
  | cons hxe _ ih => rw [readBackItems, hxe.readBack, ih]

private theorem foldItems_eq (h : List.Forall₂ Encodes xs es) :
    foldItems (hooks H) es = some xs := by
  induction h with
  | nil => rfl
  | cons hxe _ ih =>
    rw [foldItems, hxe.fold, ih]
    rfl

private theorem encodes_list (h : List.Forall₂ Encodes xs es) : Encodes (.list xs) (.arr es) where
  encode := by
    rw [encodeJsonValue, encodeItems_eq h]
    rfl
  readBack := by rw [Value.readBack, readBackItems_eq h]
  fold := by
    rw [Value.fold, foldItems_eq h]
    rfl
  str := fun s ↦ ⟨fun h ↦ (by cases h), fun h ↦ (by cases h)⟩

end Items

section Dicts

variable {ps : List (Str × Obj H)} {es : List (Str × Value)}

private theorem encode_strDict (h : List.Forall₂ EncodesMember ps es) :
    encodeJsonValue (strDict ps) =
      .ok (if looksLikeCodecMarker es then escapeDict es else .obj es) := by
  have hkeys : checkKeys ((ps.map fun m ↦ (Key.str m.1, m.2)).map Prod.fst) = .ok () := by
    rw [List.map_map]
    have hstr := checkKeys_str (ps.map Prod.fst)
    rw [List.map_map] at hstr
    exact hstr
  rw [strDict, encodeJsonValue, hkeys, encodeMembers_eq h]
  rfl

/-- The items of an escape marker as they arrive at the hook. -/
private theorem foldItems_escaped (h : List.Forall₂ EncodesMember ps es) :
    foldItems (hooks H) (es.map fun m ↦ .arr [.str m.1, m.2]) =
      some (ps.map fun p ↦ .list [.str p.1, p.2]) := by
  induction h with
  | nil => rfl
  | cons hpe _ ih =>
    rw [List.map_cons, foldItems, ih, Value.fold, foldItems, foldItems, foldItems, hpe.value.fold,
      Value.fold, hpe.key]
    rfl

private theorem readBackItems_escaped (h : List.Forall₂ EncodesMember ps es) :
    readBackItems .default (es.map fun m ↦ .arr [.str m.1, m.2]) = es.map fun m ↦ .arr [.str m.1, m.2] := by
  induction h with
  | nil => rfl
  | @cons p e ps es hpe _ ih =>
    have hkey : Json.readBack Layout.default.ensureAscii e.1 = e.1 := by
      rw [hpe.key]
      exact hpe.joined
    rw [List.map_cons, readBackItems, ih, Value.readBack, readBackItems, readBackItems, readBackItems,
      Value.readBack, hkey, hpe.value.readBack]

private theorem mapM_escapedPair (ps : List (Str × Obj H)) :
    (ps.map fun p ↦ Obj.list [.str p.1, p.2]).mapM escapedPair = some ps := by
  induction ps with
  | nil => rfl
  | cons p ps ih =>
    rw [List.map_cons, List.mapM_cons, ih]
    rfl

/-- The escape marker of a dict reads back as the dict. -/
private theorem fold_escapeDict (h : List.Forall₂ EncodesMember ps es)
    (hnodup : (ps.map Prod.fst).Nodup) :
    (escapeDict es).fold (hooks H) = some (strDict ps) := by
  have hfold : (escapeDict es).fold (hooks H) =
      jsonObjectFromPairs [(codecTag, .str codecDict),
        (codecData, .list (ps.map fun p ↦ .list [.str p.1, p.2]))] := by
    rw [escapeDict, marker, Value.fold, foldMembers, foldMembers, foldMembers, Value.fold,
      Value.fold, foldItems_escaped h]
    rfl
  have hitems : escapedItems [(codecTag, .str codecDict),
      (codecData, Obj.list (ps.map fun p ↦ .list [.str p.1, p.2]))] = some ps := by
    rw [escapedItems, lookup_codecTag, lookup_codecData]
    simp only [List.length_cons, List.length_nil, BEq.rfl, if_true, mapM_escapedPair]
  rw [hfold, jsonObjectFromPairs_marker, decodeMarkerDict, hitems]
  simp only [buildDict_eq hnodup, Option.map_some]

private theorem exists_encodes_strDict (h : List.Forall₂ EncodesMember ps es)
    (hnodup : (ps.map Prod.fst).Nodup) : ∃ e, Encodes (strDict ps) e := by
  have henc := encode_strDict h
  cases hlooks : looksLikeCodecMarker es with
  | true =>
    rw [hlooks, if_pos rfl] at henc
    refine ⟨escapeDict es, henc, ?_, fold_escapeDict h hnodup, ?_⟩
    · exact readBack_marker (by decide) (by rw [Value.readBack, readBackItems_escaped h])
    · exact fun s ↦ ⟨fun h ↦ (by cases h), fun h ↦ (by cases h)⟩
  | false =>
    rw [hlooks, if_neg Bool.false_ne_true] at henc
    refine ⟨.obj es, henc, by rw [Value.readBack, readBackMembers_eq h], ?_, ?_⟩
    · rw [Value.fold, foldMembers_eq h, Option.bind_some]
      show jsonObjectFromPairs ps = some (strDict ps)
      rw [jsonObjectFromPairs, buildDict_eq hnodup, Option.bind_some,
        decodeMarkerDict_plain h hlooks]
    · exact fun s ↦ ⟨fun h ↦ (by cases h), fun h ↦ (by cases h)⟩

end Dicts

/-! ## Whole trees -/

mutual

/-- Every stable value has an encoding that reads back as the value. -/
theorem exists_encodes (hH : H.Faithful) : ∀ v : Obj H, Stable v → ∃ e, Encodes v e
  | .none, _ => ⟨.null, by rw [encodeJsonValue], rfl, rfl, by simp⟩
  | .bool b, _ => ⟨.bool b, by rw [encodeJsonValue], rfl, rfl, by simp⟩
  | .int i, _ => ⟨.int i, by rw [encodeJsonValue], rfl, rfl, by simp⟩
  | .float x, _ => by
    refine ⟨.float (H.floatRepr x), by rw [encodeJsonValue], rfl, ?_, by simp⟩
    show (H.float? (H.floatRepr x).text).map Obj.float = some (.float x)
    rw [hH.float?_repr]
    rfl
  | .str s, hs => ⟨.str s, by rw [encodeJsonValue], congrArg Value.str hs, rfl, by simp⟩
  | .bytes b, _ => ⟨_, encodes_bytes b⟩
  | .datetime d, _ => ⟨_, encodes_datetime hH d⟩
  | .date d, _ => ⟨_, encodes_date hH d⟩
  | .list xs, hxs => by
    obtain ⟨es, h⟩ := exists_encodesItems hH xs hxs
    exact ⟨_, encodes_list h⟩
  | .dict ms, hms => by
    obtain ⟨ps, es, hps, h⟩ := exists_encodesMembers hH ms hms.2
    have hkeys : ms.map Prod.fst = (ps.map Prod.fst).map Key.str := by
      rw [hps, List.map_map, List.map_map]
      rfl
    have hnodup : (ps.map Prod.fst).Nodup := List.Nodup.of_map Key.str (hkeys ▸ hms.1)
    obtain ⟨e, he⟩ := exists_encodes_strDict h hnodup
    rw [hps]
    exact ⟨e, he⟩

theorem exists_encodesItems (hH : H.Faithful) : ∀ xs : List (Obj H), ItemsStable xs →
    ∃ es, List.Forall₂ Encodes xs es
  | [], _ => ⟨[], .nil⟩
  | x :: xs, h => by
    obtain ⟨e, he⟩ := exists_encodes hH x h.1
    obtain ⟨es, hes⟩ := exists_encodesItems hH xs h.2
    exact ⟨e :: es, .cons he hes⟩

theorem exists_encodesMembers (hH : H.Faithful) : ∀ ms : List (Key × Obj H),
    MembersStable ms → ∃ ps es, ms = ps.map (fun m ↦ (Key.str m.1, m.2)) ∧
      List.Forall₂ EncodesMember ps es
  | [], _ => ⟨[], [], rfl, .nil⟩
  | (k, x) :: ms, h => by
    obtain ⟨⟨s, rfl, hs⟩, hx, hms⟩ := h
    obtain ⟨e, he⟩ := exists_encodes hH x hx
    obtain ⟨ps, es, rfl, hes⟩ := exists_encodesMembers hH ms hms
    exact ⟨(s, x) :: ps, (s, e) :: es, rfl, .cons ⟨rfl, hs, he⟩ hes⟩

end

/-- The bytes of a stable value deserialize to the value. -/
theorem Stable.roundTrip (hH : H.Faithful) {v : Obj H} (hv : Stable v) :
    ∃ data, serialize v = .ok data ∧ deserialize H data = .ok v := by
  obtain ⟨e, he⟩ := exists_encodes hH v hv
  refine ⟨Str.ascii (dumps .default e), by rw [serialize, he.encode], ?_⟩
  rw [deserialize, decodeUtf8_ascii (dumps_isAscii rfl e)]
  simp only [loads_dumps_readBack (hooks H) .default (depth_le_length .default e), he.readBack, he.fold]
  rfl

/-- A library with one float, `0.5`, one datetime and one date. -/
def sampleHost : Host where
  Float := Unit
  DateTime := Unit
  Date := Unit
  floatRepr := fun _ ↦ ⟨false, 0, [5], none, .inl (List.cons_ne_nil _ _)⟩
  float? := fun s ↦ if s = Py.str "0.5" then some () else none
  dateTimeIso := fun _ ↦ Py.str "2024-01-02T03:04:05"
  dateTime? := fun s ↦ if s = Py.str "2024-01-02T03:04:05" then some () else none
  dateIso := fun _ ↦ Py.str "2024-01-02"
  date? := fun s ↦ if s = Py.str "2024-01-02" then some () else none

theorem sampleHost_faithful : sampleHost.Faithful where
  float?_repr := fun _ ↦ rfl
  dateTime?_iso := fun _ ↦ rfl
  date?_iso := fun _ ↦ rfl
  dateTimeIso_isAscii := fun _ ↦ (by decide : (Py.str "2024-01-02T03:04:05").IsAscii)
  dateIso_isAscii := fun _ ↦ (by decide : (Py.str "2024-01-02").IsAscii)

/-- A dict in the shape of an escape marker, with a legacy bytes marker inside. -/
def imitation : Obj sampleHost :=
  .dict [(.str codecTag, .str codecDict),
    (.str codecData, .list [.list [.str bytesTag, .dict [(.str bytesTag, .str (Py.str "AAAA"))]],
      .bytes [0, 255], .datetime (), .date (), .float (), .none])]

end JsonCodec

end ScrapyExtension
