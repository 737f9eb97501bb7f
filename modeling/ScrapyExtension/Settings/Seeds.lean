import ScrapyExtension.Program.Except
import ScrapyExtension.Settings.Brokers

/-!
# Redis endpoints and MongoDB seeds

Redis takes one endpoint with its port and gives back the pair; `format_redis_endpoint` writes the pair
again. MongoDB takes a seed, whose port may be missing, and gives back its text for the URI together with
the host; names are put into lower case.

MongoDB takes `127.1` for a name. The other parsers do not.
-/

namespace ScrapyExtension

namespace Endpoints

open Py

variable (V6 : Ipv6)

/-! ## Redis -/

/-- `_redis_address_error` -/
def redisAddressError (settingName : String) (index : Option ℤ) : ConfigurationError :=
  ⟨"Redis setting '" ++ settingName ++ "' contains an invalid address" ++
    (match index with
      | none => ""
      | some i => " at index " ++ toString i) ++ ".", settingName⟩

/-- What a text for Redis may not have. -/
def redisForbidden (text : Str) : Bool :=
  text.isEmpty || !decide text.IsAscii || (text.any fun c ↦ isSpace c || isControl c) ||
    text.any (· ∈ str "@/?#\\%")

/-- The host that `normalize_redis_host` returns, if it does. -/
def redisHost? (host : Str) : Option Str :=
  if redisForbidden host then none
  else
    let bracketed := startsWith (chr '[') host || endsWith (chr ']') host
    if bracketed && !(startsWith (chr '[') host && endsWith (chr ']') host) then none
    else
      let candidate := if bracketed then host.tail.dropLast else host
      match ipAddress V6 candidate with
      | some (.v4 ip) => if bracketed then none else some ip.print
      | some (.v6 ip) => some (V6.compressed ip)
      | none =>
        if bracketed ∨ chr ':' ∈ candidate then none
        else
          let dnsName := withoutDot candidate
          if dnsName.isEmpty ∨ 253 < dnsName.length ∨ isPseudoIpv4 dnsName ∨
              !(dnsName.splitOn (chr '.')).all isDnsLabel then none
          else some candidate

/-- `normalize_redis_host` -/
def normalizeRedisHost (host : Str) (settingName : String) : Except ConfigurationError Str :=
  match redisHost? V6 host with
  | none => .error (redisAddressError settingName none)
  | some host => .ok host

/-- `normalize_redis_port`, of a text. -/
def normalizeRedisPort (port : Str) (settingName : String) (index : Option ℤ) :
    Except ConfigurationError ℕ :=
  if isDigits port ∧ port.length ≤ 5 ∧ 1 ≤ readDecimal port ∧ readDecimal port ≤ 65535 then
    .ok (readDecimal port)
  else .error (redisAddressError settingName index)

/-- `parse_redis_endpoint` -/
def parseRedisEndpoint (endpoint : Str) (settingName : String) (index : Option ℤ) :
    Except ConfigurationError (Str × ℕ) :=
  if redisForbidden endpoint then .error (redisAddressError settingName index)
  else if startsWith (chr '[') endpoint then
    match brackets endpoint with
    | some (literal, c :: portText) =>
      if c ≠ chr ':' ∨ chr ']' ∈ c :: portText then .error (redisAddressError settingName index)
      else
        match ipAddress V6 literal with
        | some (.v6 ip) => do
          let port ← normalizeRedisPort portText settingName index
          return (V6.compressed ip, port)
        | some (.v4 _) | none => .error (redisAddressError settingName index)
    | some (_, []) | none => .error (redisAddressError settingName index)
  else if endpoint.count (chr ':') ≠ 1 then .error (redisAddressError settingName index)
  else do
    let (hostText, portText) := splitColon endpoint
    let host ← normalizeRedisHost V6 hostText settingName
    let port ← normalizeRedisPort portText settingName index
    return (host, port)

/-- `format_redis_endpoint` -/
def formatRedisEndpoint (host : Str) (port : ℕ) : Str :=
  (if chr ':' ∈ host then chr '[' :: host ++ [chr ']'] else host) ++ chr ':' :: decimal port

/-! ## MongoDB -/

/-- `_invalid_mongodb_seed_endpoint` -/
def invalidMongodbSeedEndpoint (settingName : String) : ConfigurationError :=
  ⟨"MongoDB seed endpoints must be host, host:port, or '[IPv6]:port' values.", settingName⟩

/-- A label of a name for MongoDB. -/
def isMongodbLabel (label : Str) : Bool :=
  !label.isEmpty && label.length ≤ 63 && label.head? ≠ some (chr '-') && label.getLast? ≠ some (chr '-') &&
    label.all fun c ↦ isAlnum c || c = chr '-'

/-- `_normalize_mongodb_seed_host`. `none` is the error of `_invalid_mongodb_seed_endpoint`. -/
def normalizeMongodbSeedHost (host : Str) : Option Str :=
  if host.isEmpty ∨ ¬ host.IsAscii ∨ host.any (fun c ↦ isSpace c || c ∈ str "/@?#\\%") then none
  else
    match ipAddress V6 host with
    | some ip => some ip.print
    | none =>
      let hostname := withoutDot host
      if hostname.isEmpty ∨ 253 < hostname.length ∨ !(hostname.splitOn (chr '.')).all isMongodbLabel then
        none
      else some (lower host)

/-- The seed and the host of `_parse_mongodb_seed_endpoint`, if it returns. -/
def mongodbSeed? (value : Str) : Option (Str × Str) :=
  if value.isEmpty ∨ value ≠ strip value then none
  else if chr ',' ∈ value ∨ value.any (fun c ↦ isSpace c || c ∈ str "/@?#\\%") then none
  else if startsWith (chr '[') value then do
    let (literal, remainder) ← brackets value
    let port ← remainderPort remainder
    match ipAddress V6 literal with
    | some (.v6 ip) =>
      some (chr '[' :: V6.compressed ip ++ [chr ']'] ++ renderPort port, V6.compressed ip)
    | some (.v4 _) | none => none
  else
    match ipAddress V6 value with
    | some (.v4 ip) => some (ip.print, ip.print)
    | some (.v6 ip) => some (chr '[' :: V6.compressed ip ++ [chr ']'], V6.compressed ip)
    | none =>
      if 1 < value.count (chr ':') then none
      else if chr ':' ∈ value then do
        let (host, portText) := splitColon value
        let port ← parseEndpointPort portText
        let normalizedHost ← normalizeMongodbSeedHost V6 host
        some (normalizedHost ++ renderPort (some port), normalizedHost)
      else do
        let normalizedHost ← normalizeMongodbSeedHost V6 value
        some (normalizedHost, normalizedHost)

/-- `_parse_mongodb_seed_endpoint` -/
def parseMongodbSeedEndpoint (value : Str) (settingName : String) :
    Except ConfigurationError (Str × Str) :=
  match mongodbSeed? V6 value with
  | none => .error (invalidMongodbSeedEndpoint settingName)
  | some seed => .ok seed

/-! ## Redis: normal forms -/

section Redis

variable {V6} {host text endpoint : Str} {settingName : String} {index : Option ℤ} {port : ℕ}
  {shape : Shape V6}

theorem redisForbidden_of_plain (hne : text ≠ []) (h : ∀ c ∈ text, isPlain c = true) :
    redisForbidden text = false := by
  have hspace : (text.any fun c ↦ isSpace c || isControl c) = false := by
    rw [List.any_eq_false]
    intro c hc
    rw [isSpace_of_isPlain (h c hc), isControl_of_isPlain (h c hc)]
    exact Bool.false_ne_true
  rw [redisForbidden, hspace, any_mem_of_plain (by decide) h, decide_eq_true (isAscii_of_plain h),
    List.isEmpty_eq_false_iff.2 hne]
  rfl

theorem notMem_of_redisForbidden (h : redisForbidden text = false) :
    text ≠ [] ∧ chr ' ' ∉ text ∧ chr '%' ∉ text := by
  simp only [redisForbidden, Bool.or_eq_false_iff, List.any_eq_false, List.isEmpty_eq_false_iff] at h
  obtain ⟨⟨⟨hne, -⟩, hspace⟩, hmem⟩ := h
  exact ⟨hne, fun hc ↦ absurd (hspace _ hc) (by decide), fun hc ↦ absurd (hmem _ hc) (by decide)⟩

theorem parse_of_colon {ip : V6.Address} (h : V6.parse text = some ip) : chr ':' ∈ text := by
  refine List.count_pos_iff.1 (Nat.lt_of_lt_of_le Nat.two_pos (V6.two_le_count text ip h))

/-- A host without colons stays as it is. -/
theorem redisHost?_spec (h : redisHost? V6 host = some text) (hcolon : chr ':' ∉ host) :
    text = host ∧ ∃ shape : Shape V6, shape.Ok ∧ shape.isV6 = false ∧ host = shape.bracketed ∧
      readHost V6 host = shape.host := by
  unfold redisHost? at h
  split_ifs at h with hforbidden
  rw [Bool.not_eq_true] at hforbidden
  dsimp only at h
  split at h
  · cases h
  rcases hbracketed : startsWith (chr '[') host || endsWith (chr ']') host
  · rw [hbracketed, if_neg Bool.false_ne_true] at h
    split at h
    · next ip hip =>
      rw [if_neg Bool.false_ne_true] at h
      obtain rfl := Option.some.inj h
      have hprint := print_of_ipAddress hip
      have hok : (Shape.v4 ip : Shape V6).Ok := trivial
      refine ⟨hprint.symm, .v4 ip, hok, rfl, hprint, ?_⟩
      rw [hprint]
      exact hok.readHost rfl
    · next ip hip => exact absurd (parse_of_colon (parse_of_ipAddress hip)) hcolon
    · next hip =>
      split at h
      · cases h
      split_ifs at h with hname
      obtain rfl := Option.some.inj h
      simp only [not_or, Bool.not_eq_true', Bool.not_eq_false] at hname
      have hparse : Ipv4.parse host = none := by
        rcases hv4 : Ipv4.parse host with _ | ip
        · rfl
        · rw [ipAddress, hv4] at hip
          cases hip
      have hok : (Shape.dns host : Shape V6).Ok := ⟨(notMem_of_redisForbidden hforbidden).1,
        hostChars_of_withoutDot hname.2.2.2, hparse⟩
      exact ⟨rfl, .dns host, hok, rfl, rfl, hok.readHost rfl⟩
  · rw [hbracketed, if_pos rfl] at h
    split at h
    · cases h
    · next ip hip =>
      have hmem := parse_of_colon (parse_of_ipAddress hip)
      exact absurd (List.mem_of_mem_tail (List.dropLast_subset _ hmem)) hcolon
    · rw [if_pos (.inl rfl)] at h
      cases h

/-- A host that `normalize_redis_host` returns looks like an address only if it is a dotted quad. -/
theorem canonical_of_redisHost? (h : redisHost? V6 host = some text) (hlook : LookAlike text) :
    ∃ a : Ipv4, text = a.print := by
  unfold redisHost? at h
  split_ifs at h with hforbidden
  dsimp only at h
  split at h
  · exact nomatch h
  split at h
  · next ip hip =>
    split_ifs at h
    exact ⟨ip, (Option.some.inj h).symm⟩
  · next ip hip =>
    obtain rfl := Option.some.inj h
    exact absurd hlook (not_lookAlike_compressed (parse_of_ipAddress hip))
  · by_cases hcolon : (startsWith (chr '[') host || endsWith (chr ']') host) = true ∨
        chr ':' ∈ if startsWith (chr '[') host || endsWith (chr ']') host then host.tail.dropLast else host
    · rw [if_pos hcolon] at h
      exact nomatch h
    rw [if_neg hcolon, if_neg fun hbracketed ↦ hcolon (.inl hbracketed)] at h
    split at h
    · exact nomatch h
    · next hname =>
      obtain rfl := Option.some.inj h
      exact absurd (.inr (.inr (.inl hlook.isPseudoIpv4))) hname

theorem normalizeRedisHost_ok_iff :
    normalizeRedisHost V6 host settingName = .ok text ↔ redisHost? V6 host = some text := by
  unfold normalizeRedisHost
  rcases redisHost? V6 host with _ | t
  · exact ⟨fun h ↦ (nomatch h), fun h ↦ (nomatch h)⟩
  · exact ⟨fun h ↦ congrArg some (Except.ok.inj h), fun h ↦ congrArg Except.ok (Option.some.inj h)⟩

theorem normalizeRedisPort_ok_iff {portText : Str} :
    normalizeRedisPort portText settingName index = .ok port ↔ isDigits portText = true ∧
      portText.length ≤ 5 ∧ readDecimal portText = port ∧ 1 ≤ port ∧ port ≤ 65535 := by
  unfold normalizeRedisPort
  split_ifs with h
  · constructor
    · intro heq
      obtain rfl := Except.ok.inj heq
      exact ⟨h.1, h.2.1, rfl, h.2.2⟩
    · rintro ⟨-, -, rfl, -⟩
      rfl
  · refine ⟨fun heq ↦ (nomatch heq), ?_⟩
    rintro ⟨hdigits, hlength, rfl, hrange⟩
    exact absurd ⟨hdigits, hlength, hrange⟩ h

theorem normalizeRedisPort_decimal (h : 1 ≤ port ∧ port ≤ 65535) :
    normalizeRedisPort (decimal port) settingName index = .ok port :=
  normalizeRedisPort_ok_iff.2 ⟨isDigits_decimal port,
    length_decimal_le (by norm_num) (h.2.trans_lt (by norm_num)), readDecimal_decimal port, h⟩

/-- **Accepted endpoints of Redis.** -/
theorem parseRedisEndpoint_spec
    (h : parseRedisEndpoint V6 endpoint settingName index = .ok (host, port)) :
    ∃ shape : Shape V6, shape.Ok ∧ (1 ≤ port ∧ port ≤ 65535) ∧
      (shape.isV6 = false → redisHost? V6 shape.bracketed = some shape.bracketed) ∧
      host = shape.text ∧ reading V6 endpoint = some (shape.host, some port) := by
  unfold parseRedisEndpoint at h
  split_ifs at h with hforbidden hstart hcount
  · -- in brackets
    rw [Bool.not_eq_true] at hforbidden
    obtain ⟨-, hspace, hscope⟩ := notMem_of_redisForbidden hforbidden
    have hstrip := stripSpaces_eq_self hspace
    split at h
    · next literal c portText hbrackets =>
      split_ifs at h with hcolon
      rw [not_or, not_not] at hcolon
      split at h
      · next ip hip =>
        obtain ⟨p, hp, heq⟩ := Program.bind_ok_iff.1 h
        obtain ⟨rfl, rfl⟩ := Prod.mk.inj (Except.ok.inj heq)
        obtain ⟨hdigits, -, hvalue, hrange⟩ := normalizeRedisPort_ok_iff.1 hp
        have hparse := parse_of_ipAddress hip
        have hread : readPort (c :: portText) = some (some p) := by
          rw [readPort, if_pos ⟨hcolon.1, hdigits⟩, hvalue]
        refine ⟨.v6 ip, ok_of_parse hparse (notMem_literal hbrackets hscope), hrange,
          by rintro ⟨⟩, rfl, ?_⟩
        exact reading_of_brackets (by rw [hstrip]; exact hstart) (by rw [hstrip]; exact hbrackets) hparse
          hread
      · cases h
      · cases h
    · cases h
    · cases h
  · -- a host and a port
    rw [Bool.not_eq_true] at hforbidden hstart
    rw [not_not] at hcount
    obtain ⟨-, hspace, -⟩ := notMem_of_redisForbidden hforbidden
    have hstrip := stripSpaces_eq_self hspace
    have hmem : chr ':' ∈ endpoint := List.count_pos_iff.1 (hcount ▸ Nat.one_pos)
    dsimp only at h
    obtain ⟨host', hhost, hrest⟩ := Program.bind_ok_iff.1 h
    obtain ⟨p, hp, heq⟩ := Program.bind_ok_iff.1 hrest
    obtain ⟨rfl, rfl⟩ := Prod.mk.inj (Except.ok.inj heq)
    obtain ⟨hdigits, -, hvalue, hrange⟩ := normalizeRedisPort_ok_iff.1 hp
    rw [normalizeRedisHost_ok_iff] at hhost
    obtain ⟨rfl, shape, hok, hv6, hbracketed, hread⟩ :=
      redisHost?_spec hhost (splitColon_spec hmem).2
    refine ⟨shape, hok, hrange, fun _ ↦ ?_, ?_, ?_⟩
    · rw [← hbracketed]
      exact hhost
    · rw [hbracketed]
      rcases shape with ip | ip | n
      · rfl
      · cases hv6
      · rfl
    · rw [← hread, ← hvalue]
      exact reading_of_colon (by rw [hstrip]; exact hstart) (by rw [hstrip]; exact hcount)
        (by rw [hstrip]) hdigits

/-- The pair is written in its normal form. -/
theorem formatRedisEndpoint_text (h : shape.Ok) (port : ℕ) :
    formatRedisEndpoint shape.text port = render shape (some port) := by
  rcases shape with ip | ip | n
  · rw [formatRedisEndpoint, Shape.text, if_neg (colon_notMem_print ip)]
    rfl
  · rw [formatRedisEndpoint, Shape.text, if_pos (parse_of_colon h.1)]
    rfl
  · rw [formatRedisEndpoint, Shape.text, if_neg (notMem_of_hostChars (by decide) h.2.1)]
    rfl

theorem parseRedisEndpoint_render (h : shape.Ok) (hport : 1 ≤ port ∧ port ≤ 65535)
    (hhost : shape.isV6 = false → redisHost? V6 shape.bracketed = some shape.bracketed) :
    parseRedisEndpoint V6 (render shape (some port)) settingName index = .ok (shape.text, port) := by
  have hplain := h.plain (some port)
  rw [parseRedisEndpoint, redisForbidden_of_plain (render_ne_nil h) hplain, if_neg Bool.false_ne_true,
    h.startsWith]
  rcases hv6 : shape.isV6
  · rw [if_neg Bool.false_ne_true, h.count hv6, Option.isSome_some, if_pos rfl, if_neg (not_not.2 rfl),
      h.splitColon hv6]
    dsimp only
    rw [normalizeRedisHost_ok_iff.2 (hhost hv6), normalizeRedisPort_decimal hport]
    rcases shape with ip | ip | n
    · rfl
    · exact nomatch hv6
    · rfl
  · rcases shape with ip | ip | n
    · exact nomatch hv6
    · have hremainder : renderPort (some port) = chr ':' :: decimal port := rfl
      have hclean : ¬ (chr ':' ≠ chr ':' ∨ chr ']' ∈ chr ':' :: decimal port) := by
        rw [not_or, not_not]
        exact ⟨rfl, notMem_renderPort (by decide) (by decide) (some port)⟩
      rw [if_pos rfl, Shape.Ok.brackets h, hremainder]
      dsimp only
      rw [if_neg hclean, ipAddress_of_parse h.1]
      dsimp only
      rw [normalizeRedisPort_decimal hport]
      rfl
    · exact nomatch hv6

/-- **Endpoints of Redis.** -/
theorem parseRedisEndpoint_format
    (h : parseRedisEndpoint V6 endpoint settingName index = .ok (host, port)) :
    parseRedisEndpoint V6 (formatRedisEndpoint host port) settingName index = .ok (host, port) ∧
      reading V6 (formatRedisEndpoint host port) = reading V6 endpoint ∧
      reading V6 endpoint = some (readHost V6 host, some port) := by
  obtain ⟨shape, hok, hport, hhost, rfl, hread⟩ := parseRedisEndpoint_spec h
  rw [formatRedisEndpoint_text hok, hread]
  refine ⟨parseRedisEndpoint_render hok hport hhost, hok.reading (some port), ?_⟩
  rcases shape with ip | ip | n
  · rw [Shape.text, ← hok.readHost rfl]
    rfl
  · rw [Shape.text, readHost, ipAddress_of_parse hok.1]
    rfl
  · rw [Shape.text, ← hok.readHost rfl]
    rfl

theorem canonical_of_parseRedisEndpoint
    (h : parseRedisEndpoint V6 endpoint settingName index = .ok (host, port)) (hlook : LookAlike host) :
    ∃ a : Ipv4, host = a.print := by
  obtain ⟨shape, hok, -, hhost, rfl, -⟩ := parseRedisEndpoint_spec h
  rcases shape with ip | ip | n
  · exact ⟨ip, rfl⟩
  · exact absurd hlook (not_lookAlike_compressed hok.1)
  · exact canonical_of_redisHost? (hhost rfl) hlook

end Redis

/-! ## MongoDB: normal forms -/

section MongoDb

variable {V6} {host text value : Str} {settingName : String}

theorem isMongodbLabel_lower {label : Str} (h : isMongodbLabel label = true) :
    isMongodbLabel (lower label) = true := by
  have hhyphen : ∀ c : CodePoint, lowerChar c = chr '-' ↔ c = chr '-' :=
    fun c ↦ lowerChar_eq_iff (by decide) (by decide)
  simp only [isMongodbLabel, lower, Bool.and_eq_true, Bool.not_eq_true', List.isEmpty_eq_false_iff,
    decide_eq_true_eq, ne_eq, List.all_eq_true, List.mem_map, forall_exists_index, and_imp,
    forall_apply_eq_imp_iff₂, List.map_eq_nil_iff, List.length_map, List.head?_map, List.getLast?_map,
    Option.map_eq_some_iff, hhyphen, exists_eq_right, isAlnum_lowerChar, Bool.or_eq_true] at h ⊢
  exact h

theorem hostChars_of_mongodbLabels
    (h : ((withoutDot host).splitOn (chr '.')).all isMongodbLabel = true) :
    ∀ c ∈ host, isHostChar c = true := by
  intro c hc
  by_cases hdot : c = chr '.'
  · rw [hdot]
    decide
  have hbare : c ∈ withoutDot host := by
    unfold withoutDot
    split_ifs with hends
    · obtain ⟨hne, heq⟩ := List.mem_getLast?_eq_getLast (of_decide_eq_true hends)
      rw [← List.dropLast_append_getLast hne, ← heq] at hc
      exact (List.mem_append.1 hc).resolve_right fun hc ↦ hdot (List.mem_singleton.1 hc)
    · exact hc
  obtain ⟨l, hl, hcl⟩ := mem_field hbare hdot
  have hlabel := List.all_eq_true.1 h l hl
  rw [isMongodbLabel, Bool.and_eq_true] at hlabel
  have hchar := List.all_eq_true.1 hlabel.2 c hcl
  rw [isHostChar, hchar, Bool.true_or]

theorem isHostChar_lowerChar {c : CodePoint} (h : isHostChar c = true) :
    isHostChar (lowerChar c) = true := by
  simp only [isHostChar, Bool.or_eq_true, decide_eq_true_eq] at h ⊢
  rw [isAlnum_lowerChar, lowerChar_eq_iff (by decide) (by decide),
    lowerChar_eq_iff (by decide) (by decide)]
  exact h

theorem withoutDot_lower (s : Str) : withoutDot (lower s) = lower (withoutDot s) := by
  have hends : endsWith (chr '.') (lower s) = endsWith (chr '.') s := by
    rw [endsWith, endsWith, lower, List.getLast?_map, Bool.eq_iff_iff, decide_eq_true_eq,
      decide_eq_true_eq, Option.map_eq_some_iff]
    constructor
    · rintro ⟨c, hc, hdot⟩
      rwa [(lowerChar_eq_iff (by decide) (by decide)).1 hdot] at hc
    · exact fun h ↦ ⟨chr '.', h, by decide⟩
  rw [withoutDot, withoutDot, hends]
  split_ifs
  · rw [lower, lower, List.map_dropLast]
  · rfl

/-- Case does not make an address, as far as it is read as one. -/
theorem parse_lower (h : Ipv4.parse host = none) : Ipv4.parse (lower host) = none := by
  rcases hip : Ipv4.parse (lower host) with _ | ip
  · rfl
  have hprint := Ipv4.parse_eq_some_iff.1 hip
  have hsame : lower host = host := by
    refine (List.map_congr_left fun c hc ↦ ?_).trans (List.map_id host)
    have hmem : lowerChar c ∈ ip.print := hprint ▸ List.mem_map_of_mem hc
    rcases ip.print_chars _ hmem with hdigit | hdot
    · have hc' : isDigit c = true := (isDigit_lowerChar c).symm.trans hdigit
      have hval := val_lowerChar c
      simp only [isDigit, Bool.and_eq_true, decide_eq_true_eq] at hc'
      rw [if_neg (by omega)] at hval
      exact Fin.ext hval
    · rw [hdot, (lowerChar_eq_iff (by decide) (by decide)).1 hdot]
      rfl
  rw [hsame, h] at hip
  cases hip

/-- What a host for MongoDB may not have. -/
theorem mongodbForbidden_of_plain (h : ∀ c ∈ text, isPlain c = true) :
    (text.any fun c ↦ isSpace c || c ∈ str "/@?#\\%") = false := by
  have hmem := any_mem_of_plain (by decide : (str "/@?#\\%").any isPlain = false) h
  rw [List.any_eq_false] at hmem ⊢
  intro c hc
  rw [isSpace_of_isPlain (h c hc), Bool.false_or]
  exact hmem c hc

theorem ne_nil_of_mongodbLabels (h : (withoutDot host).isEmpty = false) : host ≠ [] := by
  rintro rfl
  exact nomatch h

/-- **Hosts of MongoDB.** An IPv4 address, or a name in lower case. -/
theorem normalizeMongodbSeedHost_spec (h : normalizeMongodbSeedHost V6 host = some text)
    (hcolon : chr ':' ∉ host) :
    ∃ shape : Shape V6, shape.Ok ∧ shape.isV6 = false ∧ text = shape.bracketed ∧
      readHost V6 host = shape.host ∧
      normalizeMongodbSeedHost V6 shape.bracketed = some shape.bracketed := by
  have hagain := h
  unfold normalizeMongodbSeedHost at h
  split_ifs at h with hbad
  split at h
  · next ip hip =>
    rcases ip with ip | ip
    · obtain rfl := Option.some.inj h
      have hprint := print_of_ipAddress hip
      have hok : (Shape.v4 ip : Shape V6).Ok := trivial
      rw [hprint] at hagain
      refine ⟨.v4 ip, hok, rfl, rfl, ?_, hagain⟩
      rw [hprint]
      exact hok.readHost rfl
    · exact absurd (parse_of_colon (parse_of_ipAddress hip)) hcolon
  · next hip =>
    dsimp only at h
    split_ifs at h with hname
    obtain rfl := Option.some.inj h
    simp only [not_or, Bool.not_eq_true, Bool.not_eq_false', Nat.not_lt] at hname
    have hparse : Ipv4.parse host = none := by
      rcases hv4 : Ipv4.parse host with _ | ip
      · rfl
      · rw [ipAddress, hv4] at hip
        cases hip
    have hchars : ∀ c ∈ lower host, isHostChar c = true := by
      intro c hc
      obtain ⟨d, hd, rfl⟩ := List.mem_map.1 hc
      exact isHostChar_lowerChar (hostChars_of_mongodbLabels hname.2.2 d hd)
    have hne : lower host ≠ [] := fun hnil ↦
      ne_nil_of_mongodbLabels hname.1 (List.map_eq_nil_iff.1 hnil)
    have hok : (Shape.dns (lower host) : Shape V6).Ok := ⟨hne, hchars, parse_lower hparse⟩
    have hplain : ∀ c ∈ lower host, isPlain c = true := fun c hc ↦ isPlain_of_isHostChar (hchars c hc)
    have hlower : ipAddress V6 (lower host) = none := by
      rw [ipAddress_of_count (by
        rw [List.count_eq_zero_of_not_mem (notMem_of_hostChars (by decide) hchars)]; decide),
        parse_lower hparse]
      rfl
    refine ⟨.dns (lower host), hok, rfl, rfl, ?_, ?_⟩
    · rw [readHost, hip, Shape.host, lower_lower]
    · have hclean : ¬ ((lower host).isEmpty = true ∨ ¬ (lower host).IsAscii ∨
          ((lower host).any fun c ↦ isSpace c || c ∈ str "/@?#\\%") = true) := by
        rw [mongodbForbidden_of_plain hplain, List.isEmpty_iff]
        rintro (hnil | hascii | hforbidden)
        · exact hne hnil
        · exact hascii (isAscii_of_plain hplain)
        · cases hforbidden
      have hvalid : ¬ ((withoutDot (lower host)).isEmpty = true ∨ 253 < (withoutDot (lower host)).length ∨
          (!((withoutDot (lower host)).splitOn (chr '.')).all isMongodbLabel) = true) := by
        rw [withoutDot_lower, splitOn_lower, lower, List.isEmpty_map, List.length_map, List.all_map,
          Bool.not_eq_true']
        rintro (hempty | hlong | hlabels)
        · rw [hname.1] at hempty
          cases hempty
        · exact absurd hname.2.1 (Nat.not_le.2 hlong)
        · rw [List.all_eq_false] at hlabels
          obtain ⟨l, hl, hlabel⟩ := hlabels
          exact hlabel (isMongodbLabel_lower (List.all_eq_true.1 hname.2.2 l hl))
      rw [Shape.bracketed, normalizeMongodbSeedHost, if_neg hclean, hlower]
      dsimp only
      rw [if_neg hvalid, lower_lower]

/-- An IPv4 address is its own. -/
theorem normalizeMongodbSeedHost_print (ip : Ipv4) :
    normalizeMongodbSeedHost V6 ip.print = some ip.print := by
  have hplain : ∀ c ∈ ip.print, isPlain c = true := fun c hc ↦
    isPlain_of_isHostChar (print_hostChars ip c hc)
  have hclean : ¬ (ip.print.isEmpty = true ∨ ¬ Str.IsAscii ip.print ∨
      (ip.print.any fun c ↦ isSpace c || c ∈ str "/@?#\\%") = true) := by
    rw [mongodbForbidden_of_plain hplain, List.isEmpty_iff]
    rintro (hnil | hascii | hforbidden)
    · have hparse := ip.parse_print
      rw [hnil] at hparse
      exact nomatch hparse
    · exact hascii (isAscii_of_plain hplain)
    · exact nomatch hforbidden
  rw [normalizeMongodbSeedHost, if_neg hclean, ipAddress, Ipv4.parse_print]
  rfl

/-- A seed without spaces has none to strip. -/
theorem stripSpaces_of_mongodb
    (h : (value.any fun c ↦ isSpace c || c ∈ str "/@?#\\%") = false) :
    stripSpaces value = value ∧ chr '%' ∉ value := by
  rw [List.any_eq_false] at h
  exact ⟨stripSpaces_eq_self fun hmem ↦ absurd (h _ hmem) (by decide),
    fun hmem ↦ absurd (h _ hmem) (by decide)⟩

end MongoDb

section MongoDbSeeds

variable {V6} {host text value : Str} {settingName : String}

/-- **Accepted seeds of MongoDB.** -/
theorem mongodbSeed?_spec (h : mongodbSeed? V6 value = some (text, host)) :
    ∃ (shape : Shape V6) (port : Option ℕ), shape.Ok ∧ PortOk port ∧
      (shape.isV6 = false → normalizeMongodbSeedHost V6 shape.bracketed = some shape.bracketed) ∧
      text = render shape port ∧ host = shape.text ∧ reading V6 value = some (shape.host, port) := by
  unfold mongodbSeed? at h
  split at h
  · exact nomatch h
  by_cases hforbidden : chr ',' ∈ value ∨ (value.any fun c ↦ isSpace c || c ∈ str "/@?#\\%") = true
  · rw [if_pos hforbidden] at h
    exact nomatch h
  rw [if_neg hforbidden] at h
  by_cases hstart : startsWith (chr '[') value = true
  · -- in brackets
    rw [if_pos hstart] at h
    simp only [not_or, Bool.not_eq_true] at hforbidden
    obtain ⟨hstrip, hscope⟩ := stripSpaces_of_mongodb hforbidden.2
    simp only [Option.bind_eq_bind, Option.bind_eq_some_iff] at h
    obtain ⟨⟨literal, remainder⟩, hbrackets, port, hport, h⟩ := h
    split at h
    · next ip hip =>
      obtain ⟨rfl, rfl⟩ := Prod.mk.inj (Option.some.inj h)
      have hparse := parse_of_ipAddress hip
      obtain ⟨hread, hok⟩ := remainderPort_spec hport
      refine ⟨.v6 ip, port, ok_of_parse hparse (notMem_literal hbrackets hscope), hok,
        fun h ↦ (nomatch h), rfl, rfl, ?_⟩
      exact reading_of_brackets (by rw [hstrip]; exact hstart) (by rw [hstrip]; exact hbrackets) hparse
        hread
    · exact nomatch h
    · exact nomatch h
  · rw [if_neg hstart] at h
    simp only [not_or, Bool.not_eq_true] at hforbidden
    obtain ⟨hstrip, hscope⟩ := stripSpaces_of_mongodb hforbidden.2
    have hstart' : startsWith (chr '[') (stripSpaces value) = false := by
      rw [hstrip]
      exact Bool.eq_false_iff.2 hstart
    split at h
    · next ip hip =>
      obtain ⟨rfl, rfl⟩ := Prod.mk.inj (Option.some.inj h)
      have hprint := print_of_ipAddress hip
      have hok : (Shape.v4 ip : Shape V6).Ok := trivial
      have hcount : (stripSpaces value).count (chr ':') = 0 := by
        rw [hstrip, hprint, List.count_eq_zero_of_not_mem (colon_notMem_print ip)]
      refine ⟨.v4 ip, none, hok, fun _ h ↦ (nomatch h), fun _ ↦ normalizeMongodbSeedHost_print ip,
        (List.append_nil _).symm, rfl, ?_⟩
      rw [reading_of_bare hstart' hcount, hstrip, hprint, ← hok.readHost rfl]
      rfl
    · next ip hip =>
      obtain ⟨rfl, rfl⟩ := Prod.mk.inj (Option.some.inj h)
      have hparse := parse_of_ipAddress hip
      exact ⟨.v6 ip, none, ok_of_parse hparse hscope, fun _ h ↦ (nomatch h), fun h ↦ (nomatch h),
        (List.append_nil _).symm, rfl, reading_of_parse hstart' (by rw [hstrip]; exact hparse)⟩
    · split_ifs at h with hmany hmem
      · -- a host and a port
        have hcount : value.count (chr ':') = 1 :=
          le_antisymm (Nat.not_lt.1 hmany) (List.count_pos_iff.2 hmem)
        simp only [Option.bind_eq_bind, Option.bind_eq_some_iff] at h
        obtain ⟨p, hport, normalized, hhost, heq⟩ := h
        obtain ⟨rfl, rfl⟩ := Prod.mk.inj (Option.some.inj heq)
        obtain ⟨shape, hok, hv6, rfl, hread, hagain⟩ :=
          normalizeMongodbSeedHost_spec hhost (splitColon_spec hmem).2
        obtain ⟨hdigits, hvalue, hrange⟩ := parseEndpointPort_spec hport
        have hsplit : splitColon value = ((splitColon value).1, (splitColon value).2) := rfl
        refine ⟨shape, some p, hok, fun q hq ↦ ?_, fun _ ↦ hagain, rfl, ?_, ?_⟩
        · obtain rfl := Option.some.inj hq
          exact hrange
        · rcases shape with ip | ip | n
          · rfl
          · exact nomatch hv6
          · rfl
        · rw [reading_of_colon hstart' (by rw [hstrip, hcount]) (by rw [hstrip, hsplit]) hdigits, hread,
            hvalue]
      · -- a host
        simp only [Option.bind_eq_bind, Option.bind_eq_some_iff] at h
        obtain ⟨normalized, hhost, heq⟩ := h
        obtain ⟨rfl, rfl⟩ := Prod.mk.inj (Option.some.inj heq)
        obtain ⟨shape, hok, hv6, rfl, hread, hagain⟩ := normalizeMongodbSeedHost_spec hhost hmem
        refine ⟨shape, none, hok, fun _ h ↦ (nomatch h), fun _ ↦ hagain, (List.append_nil _).symm, ?_, ?_⟩
        · rcases shape with ip | ip | n
          · rfl
          · exact nomatch hv6
          · rfl
        · rw [reading_of_bare hstart' (by rw [hstrip, List.count_eq_zero_of_not_mem hmem]), hstrip, hread]

theorem mongodbSeed?_render {shape : Shape V6} {port : Option ℕ} (h : shape.Ok) (hport : PortOk port)
    (hhost : shape.isV6 = false → normalizeMongodbSeedHost V6 shape.bracketed = some shape.bracketed) :
    mongodbSeed? V6 (render shape port) = some (render shape port, shape.text) := by
  have hplain := h.plain port
  have hspace := any_isSpace_of_plain hplain
  have hempty : ¬ ((render shape port).isEmpty = true ∨ render shape port ≠ strip (render shape port)) := by
    rw [List.isEmpty_iff, strip_eq_self hspace]
    rintro (hnil | hne)
    · exact render_ne_nil h hnil
    · exact hne rfl
  have hclean : ¬ (chr ',' ∈ render shape port ∨
      ((render shape port).any fun c ↦ isSpace c || c ∈ str "/@?#\\%") = true) := by
    rw [mongodbForbidden_of_plain hplain]
    rintro (hmem | hforbidden)
    · exact notMem_of_plain (by decide) hplain hmem
    · cases hforbidden
  rw [mongodbSeed?, if_neg hempty, if_neg hclean, h.startsWith]
  rcases hv6 : shape.isV6
  · have hcount := h.count hv6 port
    rw [if_neg Bool.false_ne_true]
    rcases port with _ | p
    · have hbare : render shape none = shape.bracketed := List.append_nil _
      rw [hbare] at hcount ⊢
      rw [ipAddress_of_count (by rw [hcount]; decide)]
      rcases shape with ip | ip | n
      · rw [Shape.bracketed, Ipv4.parse_print]
        rfl
      · cases hv6
      · have hmem : chr ':' ∉ n := notMem_of_hostChars (by decide) h.2.1
        have hone : ¬ 1 < n.count (chr ':') := by
          rw [List.count_eq_zero_of_not_mem hmem]
          decide
        rw [Shape.bracketed, h.2.2, Option.map_none]
        dsimp only
        rw [if_neg hone, if_neg hmem]
        have hname := hhost rfl
        rw [Shape.bracketed] at hname
        rw [hname]
        rfl
    · have hone : (render shape (some p)).count (chr ':') = 1 := hcount
      have hmem : chr ':' ∈ render shape (some p) := List.count_pos_iff.1 (hone ▸ Nat.one_pos)
      rw [ipAddress_of_colon hone]
      dsimp only
      rw [if_neg (by rw [hone]; decide), if_pos hmem, h.splitColon hv6]
      dsimp only
      rw [parseEndpointPort_decimal (hport p rfl), Option.bind_eq_bind, Option.bind_some, hhost hv6]
      rcases shape with ip | ip | n
      · rfl
      · cases hv6
      · rfl
  · rcases shape with ip | ip | n
    · cases hv6
    · rw [if_pos rfl, Shape.Ok.brackets h]
      simp only [Option.bind_eq_bind, Option.bind_some, remainderPort_renderPort hport,
        ipAddress_of_parse h.1]
      rfl
    · cases hv6

/-- **Seeds of MongoDB.** -/
theorem parseMongodbSeedEndpoint_spec
    (h : parseMongodbSeedEndpoint V6 value settingName = .ok (text, host)) :
    parseMongodbSeedEndpoint V6 text settingName = .ok (text, host) ∧
      reading V6 text = reading V6 value ∧ ∃ port, reading V6 value = some (readHost V6 host, port) := by
  unfold parseMongodbSeedEndpoint at h
  rcases hseed : mongodbSeed? V6 value with _ | ⟨text', host'⟩
  · rw [hseed] at h
    exact nomatch h
  rw [hseed] at h
  obtain ⟨rfl, rfl⟩ := Prod.mk.inj (Except.ok.inj h)
  obtain ⟨shape, port, hok, hport, hhost, rfl, rfl, hread⟩ := mongodbSeed?_spec hseed
  rw [hread]
  refine ⟨?_, hok.reading port, port, ?_⟩
  · rw [parseMongodbSeedEndpoint, mongodbSeed?_render hok hport hhost]
  · rcases shape with ip | ip | n
    · rw [Shape.text, ← hok.readHost rfl]
      rfl
    · rw [Shape.text, readHost, ipAddress_of_parse hok.1]
      rfl
    · rw [Shape.text, ← hok.readHost rfl]
      rfl

end MongoDbSeeds

/-! ## Endpoints -/

/-- A host that one of the parsers accepts, MongoDB apart. -/
inductive Accepted : Str → Prop
  | broker {value host : Str} {kind : HostKind} (h : parseHost value = some (kind, host)) : Accepted host
  | redisHost {value host : Str} {settingName : String}
      (h : normalizeRedisHost V6 value settingName = .ok host) : Accepted host
  | redis {value host : Str} {settingName : String} {index : Option ℤ} {port : ℕ}
      (h : parseRedisEndpoint V6 value settingName index = .ok (host, port)) : Accepted host
  | host {value host : Str} {allowBrackets : Bool}
      (h : parseEndpointHost V6 value allowBrackets = some host) : Accepted host
  | authority {value host : Str} {defaultPort port : Option ℕ} {requirePort : Bool}
      (h : parseHostPortAuthority V6 value defaultPort requirePort = some (host, port)) : Accepted host

theorem Accepted.canonical {V6} {host : Str} (h : Accepted V6 host) (hlook : LookAlike host) :
    ∃ ip : Ipv4, host = ip.print := by
  rcases h with h | h | h | h | h
  · exact canonical_of_parseHost h hlook
  · exact canonical_of_redisHost? (normalizeRedisHost_ok_iff.1 h) hlook
  · exact canonical_of_parseRedisEndpoint h hlook
  · exact canonical_of_parseEndpointHost h hlook
  · exact canonical_of_parseHostPortAuthority h hlook

/-- What the parsers accept they put into a normal form that says the same and is its own; and what looks
like an IPv4 address is one. -/
theorem endpoints_canonical :
    (∀ value text settingName, normalizeKafkaBrokerEndpoints V6 value settingName = .ok text →
      normalizeKafkaBrokerEndpoints V6 text settingName = .ok text ∧
        readings V6 (chr ',') text = readings V6 (chr ',') value ∧
        ∀ r ∈ readings V6 (chr ',') value, ∃ host port, r = some (host, port) ∧ host.Plain) ∧
    (∀ value text, normalizeRocketmqNamesrvEndpoints value = .ok text →
      normalizeRocketmqNamesrvEndpoints text = .ok text ∧
        readings V6 (chr ';') text = readings V6 (chr ';') value ∧
        ∀ r ∈ readings V6 (chr ';') value, ∃ host port, r = some (host, port) ∧ host.Plain) ∧
    (∀ endpoint settingName index host port,
      parseRedisEndpoint V6 endpoint settingName index = .ok (host, port) →
        parseRedisEndpoint V6 (formatRedisEndpoint host port) settingName index = .ok (host, port) ∧
          reading V6 (formatRedisEndpoint host port) = reading V6 endpoint ∧
          reading V6 endpoint = some (readHost V6 host, some port)) ∧
    (∀ value settingName text host, parseMongodbSeedEndpoint V6 value settingName = .ok (text, host) →
      parseMongodbSeedEndpoint V6 text settingName = .ok (text, host) ∧
        reading V6 text = reading V6 value ∧ ∃ port, reading V6 value = some (readHost V6 host, port)) ∧
    ∀ host, Accepted V6 host → LookAlike host → ∃ ip : Ipv4, host = ip.print :=
  ⟨fun _ _ _ ↦ normalizeKafkaBrokerEndpoints_spec, fun _ _ ↦ normalizeRocketmqNamesrvEndpoints_spec,
    fun _ _ _ _ _ ↦ parseRedisEndpoint_format, fun _ _ _ _ ↦ parseMongodbSeedEndpoint_spec,
    fun _ ↦ Accepted.canonical⟩

/-- The loopback address, and nothing else. -/
def loopback : Ipv6 where
  Address := Unit
  parse s := if s = str "::1" ∨ s = str "0:0:0:0:0:0:0:1" then some () else none
  compressed _ := str "::1"
  parse_compressed _ _ _ := rfl
  two_le_count s ip h := by
    split_ifs at h with hs
    rcases hs with rfl | rfl
    · decide
    · decide
  chars s ip h _ c hc := by
    have hall : (str "::1").all isIpv6Char = true := by decide
    exact List.all_eq_true.1 hall c hc

/-- An address and a name with a padded port. -/
theorem endpoints_canonical_loopback :
    normalizeKafkaBrokerEndpoints loopback (str "[::1],Foo:80") "bootstrap_servers" =
        .ok (str "[::1],Foo:80") ∧
      readings loopback (chr ',') (str "[::1],Foo:80") =
        readings loopback (chr ',') (str "0:0:0:0:0:0:0:1, Foo:0080") := by
  have h : normalizeKafkaBrokerEndpoints loopback (str "0:0:0:0:0:0:0:1, Foo:0080") "bootstrap_servers" =
      .ok (str "[::1],Foo:80") := by
    decide +kernel
  obtain ⟨hagain, hsame, -⟩ := (endpoints_canonical loopback).1 _ _ _ h
  exact ⟨hagain, hsame⟩

end Endpoints

end ScrapyExtension
