import ScrapyExtension.Backends.JsonCodec
import ScrapyExtension.Program.Except

/-!
# Requests on the wire

A request crosses the queue as the JSON text of a dict. This file is the way back: the checks of
`BackendQueue` on the bytes of a pop, in the order of the source, up to the call of Scrapy's constructor.
Each check says which field it refuses (`Reject`). The text of the exception is not kept, since
`_process_pop` raises a fixed one in its place.

## What accepted bytes are

The checks are written twice. The definitions under the source's names compute; next to them stand what
they decide: `Opens` for size, text and priority, `Accepts` for the identity, `Rebuilds` for the rest.
-/

namespace ScrapyExtension

open Py Json JsonCodec
open Program (bind_ok_iff check_bind_ok_iff forM_ok_iff)

namespace Wire

/-! ## Dicts -/

variable {H : Host}

/-- A `dict`, in insertion order. -/
abbrev Dict (H : Host) := List (Key × Obj H)

/-- `d.get(field)`, where a missing field is `None` -/
def Dict.get (d : Dict H) (field : String) : Obj H := (d.lookup (.str (Py.str field))).getD .none

/-- `field in d` -/
def Dict.has (d : Dict H) (field : String) : Bool := (d.lookup (.str (Py.str field))).isSome

/-- `d[field] = value`, for a field of the dict -/
def Dict.replaceValue (d : Dict H) (field : String) (value : Obj H) : Dict H :=
  d.map fun m ↦ if m.1 = .str (Py.str field) then (m.1, value) else m

/-- `d.pop(field, None)`, as the dict that is left -/
def Dict.drop (d : Dict H) (field : String) : Dict H := d.filter fun m ↦ m.1 ≠ .str (Py.str field)

/-- A type that `isinstance` is asked about. -/
inductive Kind
  | str
  | bytes
  | bool
  | dict
  | list
  | noneType
deriving DecidableEq, Repr

/-- `isinstance(value, kind)` -/
def Kind.admits : Kind → Obj H → Bool
  | .str, .str _ => true
  | .bytes, .bytes _ => true
  | .bool, .bool _ => true
  | .dict, .dict _ => true
  | .list, .list _ => true
  | .noneType, .none => true
  | _, _ => false

/-- What a check has against the bytes. -/
inductive Reject
  /-- The payload exceeds `max_item_bytes`. -/
  | oversize
  /-- `deserialize` raised. -/
  | codec (e : DecodeError)
  /-- The text is no JSON object. -/
  | notObject
  /-- The priority is no finite integer. -/
  | priority
  /-- The envelope identity is malformed. -/
  | identityMalformed
  /-- The envelope belongs to another spider or project. -/
  | identityForeign
  /-- The body codec is not supported. -/
  | bodyCodec
  /-- The body is not valid base64. -/
  | body
  /-- A field has none of the types it must have. -/
  | field (name : String) (expected : List Kind)
  /-- A flag is no string. -/
  | flag
  /-- The name of a header is no string. -/
  | headerName
  /-- The values of a header are no text or bytes, or list of them. -/
  | headerValues (name : Str)
  /-- `_class` is none of the supported ones. -/
  | requestClass
  /-- A callback has a dunder name. -/
  | dunder (field : String)
  /-- A callback is no instance method of the spider. -/
  | method (field : String)
  /-- The constructor raised. -/
  | constructor

/-! ## Surroundings -/

/-- The request classes of `_REQUEST_CLASSES`. -/
inductive RequestClass
  | request
  | formRequest
  | jsonRequest
  | xmlRpcRequest
deriving DecidableEq, Repr

/-- How a name of a callback resolves on the spider. -/
inductive Lookup
  /-- `getattr` raised. -/
  | missing
  /-- It is no method that is bound to the spider. -/
  | unbound
  | bound
deriving DecidableEq

/-- The spider of a queue. -/
structure Spider where
  /-- `name`, if it is a `str` -/
  name : Option Str
  /-- The attributes that are asked for as callbacks. -/
  method : Str → Lookup

/-- A keyword argument of a request. -/
inductive Arg (H : Host)
  | value (x : Obj H)
  /-- The method of the spider under this name. -/
  | method (name : Str)

/-- What is used of Scrapy and of the float type. -/
structure Platform (H : Host) where
  Request : Type
  /-- `Request.attributes` -/
  attributes : RequestClass → List Str
  /-- The constructor, or nothing if it raises. -/
  construct : RequestClass → List (Key × Arg H) → Option Request
  /-- `int(x)`, if `x.is_integer()` -/
  integer? : H.Float → Option ℤ
  /-- `0.0` -/
  zero : H.Float

/-- A queue, as far as it reads bytes. -/
structure Consumer where
  /-- `_spider` -/
  spider : Option Spider
  /-- `_project_name` -/
  projectName : Str
  /-- `project_name or project_name_from_spider(spider)` is not empty. -/
  projectName_ne_nil : projectName ≠ []
  /-- `_allow_cross_spider` -/
  allowCrossSpider : Bool
  /-- `max_item_bytes` -/
  maxItemBytes : ℕ

/-- `getattr(self._spider, "name", None)`, if it is a `str` -/
def Consumer.expectedSpider (c : Consumer) : Option Str := c.spider.bind Spider.name

variable (P : Platform H) (c : Consumer)

/-! ## Size, text and priority -/

/-- The integers that convert to a float are below this one. -/
def floatLimit : ℕ := 2 ^ 1024 - 2 ^ 970

/-- The value of a finite integer, which is no `bool`. -/
def integral : Obj H → Option ℤ
  | .int i => if i.natAbs < floatLimit then some i else none
  | .float x => P.integer? x
  | _ => none

/-- `_validate_serialized_priority`. The priority is made an `int`. -/
def validateSerializedPriority (d : Dict H) : Except Reject (Dict H) :=
  match d.get "priority" with
  | .none => .ok d
  | x =>
    match integral P x with
    | some i => .ok (d.replaceValue "priority" (.int i))
    | none => .error .priority

/-- The part of the suite of `_process_pop` before the identity is looked at. -/
def readEnvelope (data : Bytes) : Except Reject (Dict H) :=
  if c.maxItemBytes < data.length then .error .oversize
  else
    match deserialize H data with
    | .error e => .error (.codec e)
    | .ok (.dict d) => validateSerializedPriority P d
    | .ok _ => .error .notObject

/-! ## Identity -/

/-- `_ENVELOPE_PROJECT_FIELD` -/
def envelopeProjectField : String := "_scrapy_extension_project"

/-- `_ENVELOPE_SPIDER_FIELD` -/
def envelopeSpiderField : String := "_scrapy_extension_spider"

/-- `_validate_envelope_identity` -/
def validateEnvelopeIdentity (d : Dict H) : Except Reject Unit :=
  match c.allowCrossSpider, c.expectedSpider with
  | false, some expected =>
    match d.get envelopeSpiderField, d.get envelopeProjectField with
    | .none, .none => .ok ()
    | .str spider, .str project =>
      if spider ≠ expected ∨ project ≠ c.projectName then .error .identityForeign else .ok ()
    | _, _ => .error .identityMalformed
  | _, _ => .ok ()

/-! ## Body -/

/-- `_BODY_CODEC_FIELD` -/
def bodyCodecField : String := "_scrapy_extension_body_codec"

/-- `_BODY_CODEC_BASE64_V1` -/
def bodyCodecBase64V1 : Str := Py.str "base64-v1"

/-- `base64.b64decode(body, validate=True)`, or nothing if it raises -/
def b64decode : Obj H → Option Bytes
  | .str s => Base64.decode s
  | .bytes b => Base64.decode (b.map Byte.toCodePoint)
  | _ => none

/-- The body of `_decode_body` after the codec. A text that is not base64 may be one of a version before
there was a codec field. -/
def readBody (rest : Dict H) (legacy : Bool) : Except Reject (Dict H) :=
  match rest.get "body" with
  | .none => .ok rest
  | body =>
    match b64decode body with
    | some b => .ok (rest.replaceValue "body" (.bytes b))
    | none =>
      match legacy, body with
      | true, .str s =>
        match encodeUtf8 s with
        | some b => .ok (rest.replaceValue "body" (.bytes b))
        | none => .error .body
      | _, _ => .error .body

/-- `_decode_body` -/
def decodeBody (d : Dict H) : Except Reject (Dict H) :=
  match d.get bodyCodecField with
  | .none => readBody (d.drop bodyCodecField) true
  | .str s =>
    if s = bodyCodecBase64V1 then readBody (d.drop bodyCodecField) false else .error .bodyCodec
  | _ => .error .bodyCodec

/-! ## Shape -/

/-- `require_type` of `_validate_request_dict` -/
def requireType (d : Dict H) (field : String) (expected : List Kind) : Except Reject Unit :=
  if d.has field ∧ ¬ expected.any fun kind ↦ kind.admits (d.get field) then
    .error (.field field expected)
  else .ok ()

/-- The calls of `require_type`, in order. -/
def requiredTypes : List (String × List Kind) :=
  [("url", [.str]), ("method", [.str]), ("encoding", [.str]), ("headers", [.dict]),
    ("meta", [.dict]), ("cb_kwargs", [.dict]), ("cookies", [.dict, .list]),
    ("body", [.bytes, .noneType]), ("callback", [.str, .noneType]), ("errback", [.str, .noneType]),
    ("dont_filter", [.bool]), ("flags", [.list]), ("_class", [.str]), ("dumps_kwargs", [.dict])]

/-- A text or bytes. -/
def isText (x : Obj H) : Bool := Kind.admits .str x || Kind.admits .bytes x

/-- The check of the flags. -/
def validateFlags (d : Dict H) : Except Reject Unit :=
  match d.get "flags" with
  | .list flags => if flags.all (Kind.admits .str) then .ok () else .error .flag
  | _ => .ok ()

/-- The check of one header. -/
def validateHeader : Key × Obj H → Except Reject Unit
  | (.str name, values) =>
    match values with
    | .str _ | .bytes _ => .ok ()
    | .list values => if values.all isText then .ok () else .error (.headerValues name)
    | _ => .error (.headerValues name)
  | _ => .error .headerName

/-- The check of the headers. -/
def validateHeaders (d : Dict H) : Except Reject Unit :=
  match d.get "headers" with
  | .dict headers => headers.forM validateHeader
  | _ => .ok ()

/-- `_validate_request_dict` -/
def validateRequestDict (d : Dict H) : Except Reject (Dict H) := do
  requiredTypes.forM fun (field, expected) ↦ requireType d field expected
  validateFlags d
  validateHeaders d
  validateSerializedPriority P d

/-! ## Request -/

/-- `_REQUEST_CLASSES` -/
def requestClasses : List (Str × RequestClass) :=
  [(Py.str "scrapy.http.request.Request", .request),
    (Py.str "scrapy.http.request.form.FormRequest", .formRequest),
    (Py.str "scrapy.http.request.json_request.JsonRequest", .jsonRequest),
    (Py.str "scrapy.http.request.rpc.XmlRpcRequest", .xmlRpcRequest)]

/-- The class that `_class` names. -/
def requestClass (d : Dict H) : Except Reject RequestClass :=
  match d.get "_class" with
  | .none => .ok .request
  | .str path =>
    match requestClasses.lookup path with
    | some cls => .ok cls
    | none => .error .requestClass
  | _ => .error .requestClass

/-- A callback of the dict, as a method of the spider if there is one. -/
def resolveMethod (spider : Option Spider) (d : Dict H) (field : String) :
    Except Reject (Option Str) :=
  match spider, d.get field with
  | some spider, .str (ch :: name) =>
    if Py.str "__" <+: ch :: name then .error (.dunder field)
    else
      match spider.method (ch :: name) with
      | .bound => .ok (some (ch :: name))
      | _ => .error (.method field)
  | _, _ => .ok none

/-- `kwargs[field] = method` -/
def setMethod (kwargs : List (Key × Arg H)) (field : String) (method : Option Str) :
    List (Key × Arg H) :=
  match method with
  | some name =>
    kwargs.filter (fun m ↦ m.1 ≠ .str (Py.str field)) ++ [(.str (Py.str field), .method name)]
  | none => kwargs

/-- The items of the dict that are attributes of the class. -/
def attributeItems (d : Dict H) (cls : RequestClass) : List (Key × Arg H) :=
  (d.filter fun m ↦ match m.1 with
    | .str name => name ∈ P.attributes cls
    | _ => false).map fun m ↦ (m.1, .value m.2)

/-- `_request_from_dict` -/
def requestFromDict (d : Dict H) : Except Reject P.Request := do
  let cls ← requestClass d
  let callback ← resolveMethod c.spider d "callback"
  let errback ← resolveMethod c.spider d "errback"
  let kwargs := setMethod (setMethod (attributeItems P d cls) "callback" callback) "errback" errback
  match P.construct cls kwargs with
  | some request => .ok request
  | none => .error .constructor

/-- The part of the suite of `_process_pop` after the identity was looked at. -/
def rebuild (d : Dict H) : Except Reject P.Request := do
  let d ← decodeBody d
  let d ← validateRequestDict P d
  requestFromDict P c d

/-! ## What the checks decide -/

/-- The priority is absent, or it is made an `int`. -/
inductive Normalizes : Dict H → Dict H → Prop
  | absent {d : Dict H} : d.get "priority" = .none → Normalizes d d
  | integer {d : Dict H} {i : ℤ} : integral P (d.get "priority") = some i →
      Normalizes d (d.replaceValue "priority" (.int i))

/-- The bytes are within the limit, and the text of a dict with a valid priority. -/
structure Opens (data : Bytes) (d : Dict H) : Prop where
  fits : data.length ≤ c.maxItemBytes
  reads : ∃ decoded, deserialize H data = .ok (.dict decoded) ∧ Normalizes P decoded d

/-- The envelope has no identity. -/
def Unstamped (d : Dict H) : Prop := d.get envelopeSpiderField = .none ∧ d.get envelopeProjectField = .none

/-- The envelope has the identity of this spider and project. -/
def Stamped (d : Dict H) (spider project : Str) : Prop :=
  d.get envelopeSpiderField = .str spider ∧ d.get envelopeProjectField = .str project

/-- The queue reads envelopes of this identity. -/
def Accepts (d : Dict H) : Prop :=
  c.allowCrossSpider = true ∨ c.expectedSpider = none ∨ Unstamped d ∨
    ∃ expected, c.expectedSpider = some expected ∧ Stamped d expected c.projectName

/-- The codec field is absent, or it is the one there is. -/
def SupportedCodec (d : Dict H) : Prop :=
  d.get bodyCodecField = .none ∨ d.get bodyCodecField = .str bodyCodecBase64V1

/-- The body of one dict is read into the other. -/
inductive BodyReads (d : Dict H) : Dict H → Prop
  | absent : SupportedCodec d → (d.drop bodyCodecField).get "body" = .none →
      BodyReads d (d.drop bodyCodecField)
  | base64 {b : Bytes} : SupportedCodec d → b64decode ((d.drop bodyCodecField).get "body") = some b →
      BodyReads d ((d.drop bodyCodecField).replaceValue "body" (.bytes b))
  | legacy {s : Str} {b : Bytes} : d.get bodyCodecField = .none →
      (d.drop bodyCodecField).get "body" = .str s → Base64.decode s = none → encodeUtf8 s = some b →
      BodyReads d ((d.drop bodyCodecField).replaceValue "body" (.bytes b))

/-- The values of a header are a text or bytes, or a list of them. -/
def HeaderValues (x : Obj H) : Prop := isText x = true ∨ ∃ xs, x = .list xs ∧ ∀ y ∈ xs, isText y = true

/-- Every field has one of its types, and so have the flags and the headers. -/
structure WellShaped (d : Dict H) : Prop where
  types : ∀ field expected, (field, expected) ∈ requiredTypes → d.has field = true →
    ∃ kind ∈ expected, kind.admits (d.get field) = true
  flags : ∀ flags, d.get "flags" = .list flags → ∀ x ∈ flags, Kind.admits .str x = true
  headers : ∀ headers, d.get "headers" = .dict headers → ∀ m ∈ headers,
    (∃ name, m.1 = .str name) ∧ HeaderValues m.2

/-- The request that a dict stands for. -/
def Rebuilds (d : Dict H) (request : P.Request) : Prop :=
  ∃ d₁ d₂, BodyReads d d₁ ∧ WellShaped d₁ ∧ Normalizes P d₁ d₂ ∧ requestFromDict P c d₂ = .ok request

variable {P c} {d d' : Dict H}

theorem validateSerializedPriority_ok_iff :
    validateSerializedPriority P d = .ok d' ↔ Normalizes P d d' := by
  constructor
  · intro h
    unfold validateSerializedPriority at h
    split at h
    · next hnone =>
      obtain rfl := Except.ok.inj h
      exact .absent hnone
    · split at h
      · next i hi =>
        obtain rfl := Except.ok.inj h
        exact .integer hi
      · exact nomatch h
  · rintro (hnone | hi)
    · simp only [validateSerializedPriority, hnone]
    · unfold validateSerializedPriority
      split
      · next hnone =>
        rw [hnone] at hi
        exact absurd hi.symm (Option.some_ne_none _)
      · rw [hi]

theorem readEnvelope_ok_iff {data : Bytes} : readEnvelope P c data = .ok d ↔ Opens P c data d := by
  unfold readEnvelope
  constructor
  · intro h
    split_ifs at h with hlength
    split at h
    · exact nomatch h
    · next decoded hdecoded => exact ⟨not_lt.1 hlength, decoded, hdecoded, validateSerializedPriority_ok_iff.1 h⟩
    · exact nomatch h
  · rintro ⟨hfits, decoded, hdecoded, hnormalizes⟩
    rw [if_neg (not_lt.2 hfits), hdecoded]
    exact validateSerializedPriority_ok_iff.2 hnormalizes

/-- The bytes open in one way. -/
theorem Opens.unique {c' : Consumer} {data : Bytes} (h : Opens P c data d) (h' : Opens P c' data d') :
    d' = d := by
  obtain ⟨decoded, hdecoded, hnormalizes⟩ := h.reads
  obtain ⟨decoded', hdecoded', hnormalizes'⟩ := h'.reads
  obtain rfl : decoded = decoded' := by
    rw [hdecoded] at hdecoded'
    injection hdecoded' with hdict
    injection hdict
  rw [← validateSerializedPriority_ok_iff] at hnormalizes hnormalizes'
  rw [hnormalizes] at hnormalizes'
  exact (Except.ok.inj hnormalizes').symm

theorem validateEnvelopeIdentity_ok_iff : validateEnvelopeIdentity c d = .ok () ↔ Accepts c d := by
  unfold validateEnvelopeIdentity Accepts Unstamped Stamped
  split
  · next expected hcross hexpected =>
    simp only [hcross, hexpected, Bool.false_eq_true, reduceCtorEq, false_or, Option.some.injEq,
      exists_eq_left']
    split
    · next hspider hproject => simp [hspider, hproject]
    · next spider project hspider hproject =>
      simp only [hspider, hproject, reduceCtorEq, false_and, false_or, Obj.str.injEq]
      split_ifs with hne
      · simp only [false_iff, not_and_or]
        exact hne
      · simp only [true_iff]
        exact ⟨not_not.1 fun h ↦ hne (.inl h), not_not.1 fun h ↦ hne (.inr h)⟩
    · next hnone hstr =>
      simp only [reduceCtorEq, false_iff, not_or]
      exact ⟨fun h ↦ hnone h.1 h.2, fun h ↦ hstr _ _ h.1 h.2⟩
  · next hnot =>
    simp only [true_iff]
    rcases hcross : c.allowCrossSpider with - | -
    · rcases hexpected : c.expectedSpider with - | expected
      · exact .inr (.inl rfl)
      · exact absurd hexpected (hnot expected hcross)
    · exact .inl rfl

theorem readBody_ok_iff {rest : Dict H} {legacy : Bool} :
    readBody rest legacy = .ok d' ↔
      (rest.get "body" = .none ∧ d' = rest) ∨
      (∃ b, b64decode (rest.get "body") = some b ∧ d' = rest.replaceValue "body" (.bytes b)) ∨
      ∃ s b, legacy = true ∧ rest.get "body" = .str s ∧ Base64.decode s = none ∧
        encodeUtf8 s = some b ∧ d' = rest.replaceValue "body" (.bytes b) := by
  unfold readBody
  constructor
  · intro h
    split at h
    · next hnone => exact .inl ⟨hnone, (Except.ok.inj h).symm⟩
    · split at h
      · next b hb => exact .inr (.inl ⟨b, hb, (Except.ok.inj h).symm⟩)
      · next hdecode =>
        split at h
        · next s hs =>
          split at h
          · next b hb =>
            rw [hs] at hdecode
            exact .inr (.inr ⟨s, b, rfl, hs, hdecode, hb, (Except.ok.inj h).symm⟩)
          · exact nomatch h
        · exact nomatch h
  · rintro (⟨hnone, rfl⟩ | ⟨b, hb, rfl⟩ | ⟨s, b, rfl, hs, hdecode, hb, rfl⟩)
    · rw [hnone]
    · split
      · next hnone =>
        rw [hnone] at hb
        exact absurd hb.symm (Option.some_ne_none _)
      · rw [hb]
    · have hnot : b64decode (Obj.str (H := H) s) = none := hdecode
      simp only [hs, hnot, hb]

theorem decodeBody_ok_iff : decodeBody d = .ok d' ↔ BodyReads d d' := by
  constructor
  · intro h
    unfold decodeBody at h
    split at h
    · next hcodec =>
      rcases readBody_ok_iff.1 h with ⟨hnone, rfl⟩ | ⟨b, hb, rfl⟩ | ⟨s, b, -, hs, hdecode, hb, rfl⟩
      · exact .absent (.inl hcodec) hnone
      · exact .base64 (.inl hcodec) hb
      · exact .legacy hcodec hs hdecode hb
    · next s hcodec =>
      split_ifs at h with hs
      rw [hs] at hcodec
      rcases readBody_ok_iff.1 h with ⟨hnone, rfl⟩ | ⟨b, hb, rfl⟩ | ⟨s, b, hlegacy, -⟩
      · exact .absent (.inr hcodec) hnone
      · exact .base64 (.inr hcodec) hb
      · exact nomatch hlegacy
    · exact nomatch h
  · -- a supported codec leaves the body to be read
    have hsupported : ∀ {d'' : Dict H}, SupportedCodec d →
        (∀ legacy, readBody (d.drop bodyCodecField) legacy = .ok d'') → decodeBody d = .ok d'' := by
      rintro d'' (hcodec | hcodec) hread
      · rw [decodeBody, hcodec]
        exact hread true
      · rw [decodeBody, hcodec]
        exact (if_pos rfl).trans (hread false)
    rintro (⟨hcodec, hnone⟩ | ⟨hcodec, hb⟩ | ⟨hcodec, hs, hdecode, hb⟩)
    · exact hsupported hcodec fun legacy ↦ readBody_ok_iff.2 (.inl ⟨hnone, rfl⟩)
    · exact hsupported hcodec fun legacy ↦ readBody_ok_iff.2 (.inr (.inl ⟨_, hb, rfl⟩))
    · rw [decodeBody, hcodec]
      exact readBody_ok_iff.2 (.inr (.inr ⟨_, _, rfl, hs, hdecode, hb, rfl⟩))

theorem requireType_ok_iff {field : String} {expected : List Kind} :
    requireType d field expected = .ok () ↔
      (d.has field = true → ∃ kind ∈ expected, kind.admits (d.get field) = true) := by
  unfold requireType
  split_ifs with h
  · simp only [false_iff]
    intro hall
    exact h.2 (List.any_eq_true.2 (hall h.1))
  · simp only [true_iff]
    intro hhas
    by_contra hnot
    exact h ⟨hhas, fun hany ↦ hnot (List.any_eq_true.1 hany)⟩

theorem validateFlags_ok_iff :
    validateFlags d = .ok () ↔
      ∀ flags, d.get "flags" = .list flags → ∀ x ∈ flags, Kind.admits .str x = true := by
  unfold validateFlags
  split
  · next flags hflags =>
    simp only [hflags, Obj.list.injEq, forall_eq']
    rw [← List.all_eq_true]
    split_ifs with hall
    · exact ⟨fun _ ↦ hall, fun _ ↦ rfl⟩
    · exact ⟨fun h ↦ (nomatch h), fun h ↦ absurd h hall⟩
  · next hnot => exact ⟨fun _ flags hflags ↦ absurd hflags (hnot flags), fun _ ↦ rfl⟩

theorem validateHeader_ok_iff {m : Key × Obj H} :
    validateHeader m = .ok () ↔ (∃ name, m.1 = .str name) ∧ HeaderValues m.2 := by
  obtain ⟨key, values⟩ := m
  rcases key with name | w | typeName
  · have hlist : ∀ xs : List (Obj H), HeaderValues (.list xs) ↔ xs.all isText = true := by
      intro xs
      simp [HeaderValues, isText, Kind.admits]
    unfold validateHeader
    dsimp only
    split
    · simp [HeaderValues, isText, Kind.admits]
    · simp [HeaderValues, isText, Kind.admits]
    · next xs =>
      rw [hlist]
      split_ifs with hall
      · exact ⟨fun _ ↦ ⟨⟨name, rfl⟩, hall⟩, fun _ ↦ rfl⟩
      · exact ⟨fun h ↦ (nomatch h), fun h ↦ absurd h.2 hall⟩
    · next hstr hbytes hnot =>
      refine ⟨fun h ↦ (nomatch h), ?_⟩
      rintro ⟨-, htext | ⟨xs, rfl, -⟩⟩
      · exfalso
        cases values with
        | str s => exact hstr s rfl
        | bytes b => exact hbytes b rfl
        | _ => simp [isText, Kind.admits] at htext
      · exact absurd rfl (hnot xs)
  · exact ⟨fun h ↦ (nomatch h), fun h ↦ (nomatch h.1.choose_spec)⟩
  · exact ⟨fun h ↦ (nomatch h), fun h ↦ (nomatch h.1.choose_spec)⟩

theorem validateHeaders_ok_iff :
    validateHeaders d = .ok () ↔ ∀ headers, d.get "headers" = .dict headers → ∀ m ∈ headers,
      (∃ name, m.1 = .str name) ∧ HeaderValues m.2 := by
  unfold validateHeaders
  split
  · next headers hheaders =>
    simp only [hheaders, Obj.dict.injEq, forall_eq', forM_ok_iff, validateHeader_ok_iff]
  · next hnot => exact ⟨fun _ headers hheaders ↦ absurd hheaders (hnot headers), fun _ ↦ rfl⟩

theorem validateRequestDict_ok_iff :
    validateRequestDict P d = .ok d' ↔ WellShaped d ∧ Normalizes P d d' := by
  simp only [validateRequestDict, check_bind_ok_iff, forM_ok_iff, validateFlags_ok_iff,
    validateHeaders_ok_iff, validateSerializedPriority_ok_iff]
  have htypes : (∀ x ∈ requiredTypes, requireType d x.1 x.2 = .ok ()) ↔
      ∀ field expected, (field, expected) ∈ requiredTypes → d.has field = true →
        ∃ kind ∈ expected, kind.admits (d.get field) = true := by
    simp only [Prod.forall, requireType_ok_iff]
  rw [htypes]
  exact ⟨fun ⟨htypes, hflags, hheaders, h⟩ ↦ ⟨⟨htypes, hflags, hheaders⟩, h⟩,
    fun ⟨⟨htypes, hflags, hheaders⟩, h⟩ ↦ ⟨htypes, hflags, hheaders, h⟩⟩

theorem rebuild_ok_iff {request : P.Request} :
    rebuild P c d = .ok request ↔ Rebuilds P c d request := by
  simp only [rebuild, bind_ok_iff, decodeBody_ok_iff, validateRequestDict_ok_iff, Rebuilds]
  exact ⟨fun ⟨d₁, h₁, d₂, ⟨h₂, h₃⟩, h₄⟩ ↦ ⟨d₁, d₂, h₁, h₂, h₃, h₄⟩,
    fun ⟨d₁, d₂, h₁, h₂, h₃, h₄⟩ ↦ ⟨d₁, h₁, d₂, ⟨h₂, h₃⟩, h₄⟩⟩

/-- A dict stands for one request. -/
theorem Rebuilds.unique {request request' : P.Request} (h : Rebuilds P c d request)
    (h' : Rebuilds P c d request') : request = request' := by
  rw [← rebuild_ok_iff] at h h'
  rw [h] at h'
  exact Except.ok.inj h'

end Wire

end ScrapyExtension
