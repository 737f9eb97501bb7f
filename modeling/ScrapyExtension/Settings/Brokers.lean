import ScrapyExtension.Settings.Endpoints

/-!
# Broker lists

Kafka takes a list of endpoints, separated by commas, in which the port may be missing and an IPv6
address may do without brackets. RocketMQ takes one name or a list of IPv4 addresses, separated by
semicolons, with their ports. Either list is normalized member by member.
-/

namespace ScrapyExtension

namespace Endpoints

open Py

/-- `ConfigurationError` -/
structure ConfigurationError where
  message : String
  settingName : String
deriving DecidableEq

/-- `KAFKA_BROKER_ENDPOINTS_ERROR` -/
def kafkaBrokerEndpointsError (settingName : String) : ConfigurationError :=
  ⟨"Kafka broker endpoints must be a comma-separated list of valid host[:port] values.", settingName⟩

/-- `ROCKETMQ_NAMESRV_ENDPOINTS_ERROR` -/
def rocketmqNamesrvEndpointsError : ConfigurationError :=
  ⟨"RocketMQ namesrv_address must be one DNS endpoint or a semicolon-separated IPv4 endpoint list.",
    "namesrv_address"⟩

/-! ## Hosts -/

/-- `_contains_forbidden_characters` -/
def containsForbiddenCharacters (value : Str) : Bool := !decide value.IsAscii || value.any isControl

/-- `_parse_port` -/
def parsePort (value : Str) : Option Str := (parseEndpointPort value).map decimal

/-- `_parse_ipv4` -/
def parseIpv4 (value : Str) : Option Str := (Ipv4.parse value).map Ipv4.print

/-- `_parse_dns` -/
def parseDns (value : Str) : Option Str :=
  if value.isEmpty ∨ 253 < value.length ∨ isPseudoIpv4 value then none
  else if (value.splitOn (chr '.')).all isDnsLabel then some value
  else none

/-- What `_parse_host` calls a host. -/
inductive HostKind
  | ipv4
  | dns
deriving DecidableEq, Repr

/-- `_parse_host` -/
def parseHost (value : Str) : Option (HostKind × Str) :=
  match parseIpv4 value with
  | some ipv4 => some (.ipv4, ipv4)
  | none => (parseDns value).map fun dns ↦ (.dns, dns)

/-! ## Endpoints and lists -/

variable (V6 : Ipv6)

/-- `_parse_kafka_endpoint` -/
def parseKafkaEndpoint (value : Str) : Option Str :=
  if containsForbiddenCharacters value then none
  else
    let endpoint := stripSpaces value
    if endpoint.isEmpty ∨ chr '%' ∈ endpoint ∨ endpoint.any isSpace then none
    else if startsWith (chr '[') endpoint then do
      let (literal, remainder) ← brackets endpoint
      let port ← remainderPort remainder
      let address ← V6.parse literal
      return chr '[' :: V6.compressed address ++ [chr ']'] ++ renderPort port
    else if endpoint.count (chr ':') = 0 then (parseHost endpoint).map Prod.snd
    else if endpoint.count (chr ':') = 1 then do
      let (host, portText) := splitColon endpoint
      let (_, parsedHost) ← parseHost host
      let port ← parsePort portText
      return parsedHost ++ chr ':' :: port
    else do
      let address ← V6.parse endpoint
      return chr '[' :: V6.compressed address ++ [chr ']']

/-- `normalize_kafka_broker_endpoints` -/
def normalizeKafkaBrokerEndpoints (value : Str) (settingName : String) : Except ConfigurationError Str :=
  if containsForbiddenCharacters value then .error (kafkaBrokerEndpointsError settingName)
  else
    match (value.splitOn (chr ',')).mapM (parseKafkaEndpoint V6) with
    | none => .error (kafkaBrokerEndpointsError settingName)
    | some [] => .error (kafkaBrokerEndpointsError settingName)
    | some normalized => .ok ([chr ','].intercalate normalized)

/-- `_parse_rocketmq_endpoint` -/
def parseRocketmqEndpoint (value : Str) : Option (HostKind × Str) :=
  if containsForbiddenCharacters value then none
  else
    let endpoint := stripSpaces value
    if endpoint.isEmpty ∨ endpoint.any isSpace then none
    else if endpoint.count (chr ':') ≠ 1 then none
    else do
      let (host, portText) := splitColon endpoint
      let (kind, normalizedHost) ← parseHost host
      let port ← parsePort portText
      return (kind, normalizedHost ++ chr ':' :: port)

/-- `normalize_rocketmq_namesrv_endpoints` -/
def normalizeRocketmqNamesrvEndpoints (value : Str) : Except ConfigurationError Str :=
  if containsForbiddenCharacters value then .error rocketmqNamesrvEndpointsError
  else
    match (value.splitOn (chr ';')).mapM parseRocketmqEndpoint with
    | none => .error rocketmqNamesrvEndpointsError
    | some [] => .error rocketmqNamesrvEndpointsError
    | some [(.dns, endpoint)] => .ok endpoint
    | some parsed =>
      if ∀ x ∈ parsed, x.1 = .ipv4 then .ok ([chr ';'].intercalate (parsed.map Prod.snd))
      else .error rocketmqNamesrvEndpointsError

/-! ## Hosts are shapes -/

section Hosts

variable {V6} {value text : Str} {kind : HostKind}

theorem parseDns_spec (h : parseDns value = some text) :
    text = value ∧ value ≠ [] ∧ (∀ c ∈ value, isHostChar c = true) ∧ ¬ LookAlike value := by
  unfold parseDns at h
  split_ifs at h with hbad hlabels
  obtain rfl := Option.some.inj h
  refine ⟨rfl, fun hnil ↦ hbad (.inl ?_), hostChars_of_labels hlabels, fun hlook ↦
    hbad (.inr (.inr (hlook.isPseudoIpv4_of_labels hlabels)))⟩
  rw [hnil]
  rfl

/-- The kind of a shape. -/
def HostKind.Of (kind : HostKind) : Shape V6 → Prop
  | .v4 _ => kind = .ipv4
  | .v6 _ => False
  | .dns n => kind = .dns ∧ parseDns n = some n

/-- **Hosts.** A host is an IPv4 address or a name. -/
theorem parseHost_spec (h : parseHost value = some (kind, text)) :
    ∃ shape : Shape V6, shape.Ok ∧ shape.isV6 = false ∧ kind.Of shape ∧ text = shape.bracketed ∧
      readHost V6 value = shape.host ∧ shape.host.Plain := by
  unfold parseHost parseIpv4 at h
  rcases hip : Ipv4.parse value with _ | ip
  · rw [hip, Option.map_none] at h
    obtain ⟨dns, hdns, heq⟩ := Option.map_eq_some_iff.1 h
    obtain ⟨rfl, rfl⟩ := Prod.mk.inj heq
    obtain ⟨rfl, hne, hchars, hlook⟩ := parseDns_spec hdns
    have hok : (Shape.dns dns : Shape V6).Ok := ⟨hne, hchars, hip⟩
    exact ⟨.dns dns, hok, rfl, ⟨rfl, hdns⟩, rfl, hok.readHost rfl, fun hlower ↦ hlook hlower.of_lower⟩
  · rw [hip, Option.map_some] at h
    obtain ⟨rfl, rfl⟩ := Prod.mk.inj (Option.some.inj h)
    obtain rfl := Ipv4.parse_eq_some_iff.1 hip
    have hok : (Shape.v4 ip : Shape V6).Ok := trivial
    exact ⟨.v4 ip, hok, rfl, rfl, rfl, hok.readHost rfl, trivial⟩

theorem parseHost_bracketed {shape : Shape V6} (h : shape.Ok) (hkind : kind.Of shape) :
    parseHost shape.bracketed = some (kind, shape.bracketed) := by
  rcases shape with ip | ip | n
  · obtain rfl : kind = .ipv4 := hkind
    rw [Shape.bracketed, parseHost, parseIpv4, Ipv4.parse_print]
    rfl
  · exact hkind.elim
  · obtain ⟨rfl, hdns⟩ := hkind
    rw [Shape.bracketed, parseHost, parseIpv4, h.2.2, Option.map_none, hdns]
    rfl

/-- A host of `_parse_host` looks like an address only if it is a dotted quad. -/
theorem canonical_of_parseHost (h : parseHost value = some (kind, text)) (hlook : LookAlike text) :
    ∃ a : Ipv4, text = a.print := by
  unfold parseHost parseIpv4 at h
  rcases hip : Ipv4.parse value with _ | ip
  · rw [hip, Option.map_none] at h
    obtain ⟨dns, hdns, heq⟩ := Option.map_eq_some_iff.1 h
    obtain ⟨-, rfl⟩ := Prod.mk.inj heq
    obtain ⟨rfl, -, -, hnot⟩ := parseDns_spec hdns
    exact absurd hlook hnot
  · rw [hip, Option.map_some] at h
    obtain ⟨-, rfl⟩ := Prod.mk.inj (Option.some.inj h)
    exact ⟨ip, rfl⟩

theorem parseHost_nil : parseHost [] ≠ some (kind, text) := by
  intro h
  rw [parseHost, parseIpv4, show Ipv4.parse [] = none by decide, Option.map_none, parseDns] at h
  exact nomatch h

theorem hostChars_of_parseHost (h : parseHost value = some (kind, text)) :
    ∀ c ∈ value, isHostChar c = true := by
  unfold parseHost parseIpv4 at h
  rcases hip : Ipv4.parse value with _ | ip
  · rw [hip, Option.map_none] at h
    obtain ⟨dns, hdns, -⟩ := Option.map_eq_some_iff.1 h
    exact (parseDns_spec hdns).2.2.1
  · obtain rfl := Ipv4.parse_eq_some_iff.1 hip
    exact print_hostChars ip

theorem containsForbiddenCharacters_of_plain (h : ∀ c ∈ value, isPlain c = true) :
    containsForbiddenCharacters value = false := by
  rw [containsForbiddenCharacters, any_isControl_of_plain h, decide_eq_true (isAscii_of_plain h)]
  rfl

end Hosts

/-! ## Kafka -/

section Kafka

variable {V6} {value text : Str} {shape : Shape V6} {port : Option ℕ}

/-- A name is one that `_parse_dns` takes. -/
def Shape.Known : Shape V6 → Prop
  | .v4 _ | .v6 _ => True
  | .dns n => parseDns n = some n

theorem HostKind.Of.known {kind : HostKind} (h : kind.Of shape) : shape.Known := by
  rcases shape with ip | ip | n
  · trivial
  · trivial
  · exact h.2

theorem Shape.Known.of {shape : Shape V6} (h : shape.Known) (hv6 : shape.isV6 = false) :
    ∃ kind : HostKind, kind.Of shape := by
  rcases shape with ip | ip | n
  · exact ⟨.ipv4, rfl⟩
  · exact nomatch hv6
  · exact ⟨.dns, rfl, h⟩

/-- An address that was read without a scope is fine. -/
theorem ok_of_parse {ip : V6.Address} (h : V6.parse text = some ip) (hscope : chr '%' ∉ text) :
    (Shape.v6 ip).Ok := ⟨V6.parse_compressed text ip h, V6.chars text ip h hscope⟩

theorem notMem_literal {literal remainder : Str} {c : CodePoint}
    (h : brackets text = some (literal, remainder)) (hc : c ∉ text) : c ∉ literal := by
  obtain ⟨rfl, -, -⟩ := brackets_spec h
  intro hmem
  exact hc (List.mem_of_mem_tail (List.takeWhile_subset _ hmem))

theorem parsePort_spec (h : parsePort value = some text) : ∃ p, text = decimal p ∧
    isDigits value = true ∧ readDecimal value = p ∧ 1 ≤ p ∧ p ≤ 65535 := by
  obtain ⟨p, hp, rfl⟩ := Option.map_eq_some_iff.1 h
  exact ⟨p, rfl, parseEndpointPort_spec hp⟩

/-- **Accepted endpoints of Kafka.** -/
theorem parseKafkaEndpoint_spec (h : parseKafkaEndpoint V6 value = some text) :
    ∃ (shape : Shape V6) (port : Option ℕ), shape.Ok ∧ PortOk port ∧ shape.Known ∧
      text = render shape port ∧ reading V6 value = some (shape.host, port) ∧ shape.host.Plain := by
  unfold parseKafkaEndpoint at h
  split_ifs at h with hforbidden
  dsimp only at h
  split_ifs at h with hbad hstart hzero hone
  · -- in brackets
    simp only [Option.bind_eq_bind, Option.bind_eq_some_iff, Option.pure_def, Option.some.injEq] at h
    obtain ⟨⟨literal, remainder⟩, hbrackets, port, hport, ip, hip, rfl⟩ := h
    have hscope : chr '%' ∉ literal :=
      notMem_literal hbrackets fun hmem ↦ hbad (.inr (.inl hmem))
    obtain ⟨hread, hok⟩ := remainderPort_spec hport
    exact ⟨.v6 ip, port, ok_of_parse hip hscope, hok, trivial, rfl,
      reading_of_brackets hstart hbrackets hip hread, trivial⟩
  · -- a host
    obtain ⟨⟨kind, parsed⟩, hhost, rfl⟩ := Option.map_eq_some_iff.1 h
    obtain ⟨shape, hok, -, hkind, rfl, hread, hplain⟩ := @parseHost_spec V6 _ _ _ hhost
    refine ⟨shape, none, hok, fun _ h ↦ (nomatch h), hkind.known, (List.append_nil _).symm, ?_, hplain⟩
    rw [reading_of_bare (Bool.eq_false_iff.2 hstart) hzero, hread]
  · -- a host and a port
    simp only [Option.bind_eq_bind, Option.bind_eq_some_iff, Option.pure_def, Option.some.injEq] at h
    obtain ⟨⟨kind, parsed⟩, hhost, portText, hport, rfl⟩ := h
    obtain ⟨shape, hok, -, hkind, rfl, hread, hplain⟩ := @parseHost_spec V6 _ _ _ hhost
    obtain ⟨p, rfl, hdigits, hvalue, hrange⟩ := parsePort_spec hport
    refine ⟨shape, some p, hok, fun q hq ↦ ?_, hkind.known, rfl, ?_, hplain⟩
    · obtain rfl := Option.some.inj hq
      exact hrange
    · have hsplit : splitColon (stripSpaces value) =
          ((splitColon (stripSpaces value)).1, (splitColon (stripSpaces value)).2) := rfl
      rw [reading_of_colon (Bool.eq_false_iff.2 hstart) hone hsplit hdigits, hread, hvalue]
  · -- an address alone
    simp only [Option.bind_eq_bind, Option.bind_eq_some_iff, Option.pure_def, Option.some.injEq] at h
    obtain ⟨ip, hip, rfl⟩ := h
    exact ⟨.v6 ip, none, ok_of_parse hip fun hmem ↦ hbad (.inr (.inl hmem)), fun _ h ↦ (nomatch h),
      trivial, (List.append_nil _).symm, reading_of_parse (Bool.eq_false_iff.2 hstart) hip, trivial⟩

theorem render_ne_nil (h : shape.Ok) : render shape port ≠ [] := by
  rcases shape with ip | ip | n
  · intro hnil
    have hprint : ip.print = [] := (List.append_eq_nil_iff.1 hnil).1
    have hparse := ip.parse_print
    rw [hprint] at hparse
    exact nomatch hparse
  · exact fun hnil ↦ absurd (List.append_eq_nil_iff.1 (List.append_eq_nil_iff.1 hnil).1).2
      (List.cons_ne_nil _ _)
  · exact fun hnil ↦ h.1 (List.append_eq_nil_iff.1 hnil).1

/-- A normal form is its own. -/
theorem parseKafkaEndpoint_render (h : shape.Ok) (hport : PortOk port) (hknown : shape.Known) :
    parseKafkaEndpoint V6 (render shape port) = some (render shape port) := by
  have hplain := h.plain port
  have hstrip : stripSpaces (render shape port) = render shape port :=
    stripSpaces_eq_self (notMem_of_plain (by decide) hplain)
  have hbad : ¬ ((render shape port).isEmpty = true ∨ chr '%' ∈ render shape port ∨
      (render shape port).any isSpace = true) := by
    rw [any_isSpace_of_plain hplain, List.isEmpty_iff]
    rintro (hnil | hmem | hspace)
    · exact render_ne_nil h hnil
    · exact notMem_of_plain (by decide) hplain hmem
    · exact nomatch hspace
  rw [parseKafkaEndpoint, containsForbiddenCharacters_of_plain hplain, if_neg Bool.false_ne_true]
  dsimp only
  rw [hstrip, if_neg hbad, h.startsWith]
  rcases hv6 : shape.isV6
  · obtain ⟨kind, hkind⟩ := hknown.of hv6
    rw [if_neg Bool.false_ne_true, h.count hv6]
    rcases port with _ | p
    · have hbare : render shape none = shape.bracketed := List.append_nil _
      rw [hbare, Option.isSome_none, if_neg Bool.false_ne_true, if_pos rfl,
        parseHost_bracketed h hkind, Option.map_some]
    · rw [Option.isSome_some, if_pos rfl, if_neg Nat.one_ne_zero, if_pos rfl, h.splitColon hv6]
      dsimp only
      rw [parseHost_bracketed h hkind, parsePort, parseEndpointPort_decimal (hport p rfl)]
      rfl
  · rcases shape with ip | ip | n
    · exact nomatch hv6
    · rw [if_pos rfl, Shape.Ok.brackets h]
      simp only [Option.bind_eq_bind, Option.bind_some, remainderPort_renderPort hport, h.1]
      rfl
    · exact nomatch hv6

theorem normalizes_kafka : Normalizes V6 Host.Plain (parseKafkaEndpoint V6) id := by
  refine ⟨fun v a h ↦ ?_, fun v a h ↦ ?_, fun v a h ↦ ?_, fun v a h ↦ ?_⟩ <;>
    obtain ⟨shape, port, hok, hport, hknown, rfl, hread, hplain⟩ := parseKafkaEndpoint_spec h
  · exact parseKafkaEndpoint_render hok hport hknown
  · exact hok.plain port
  · rw [hread]
    exact hok.reading port
  · exact ⟨shape.host, port, hread, hplain⟩

end Kafka

theorem containsForbiddenCharacters_of_list {value : Str} {separator : CodePoint}
    (hascii : separator.IsAscii) (hcontrol : isControl separator = false)
    (h : ∀ c ∈ value, isPlain c = true ∨ c = separator) : containsForbiddenCharacters value = false := by
  have hchars : value.IsAscii := fun c hc ↦
    (h c hc).elim isAscii_of_isPlain fun heq ↦ heq ▸ hascii
  have hnone : value.any isControl = false := by
    rw [List.any_eq_false]
    exact fun c hc ↦ Bool.eq_false_iff.1 ((h c hc).elim isControl_of_isPlain fun heq ↦ heq ▸ hcontrol)
  rw [containsForbiddenCharacters, hnone, decide_eq_true hchars]
  rfl

/-- **Lists of Kafka.** -/
theorem normalizeKafkaBrokerEndpoints_spec {V6} {value text : Str} {settingName : String}
    (h : normalizeKafkaBrokerEndpoints V6 value settingName = .ok text) :
    normalizeKafkaBrokerEndpoints V6 text settingName = .ok text ∧
      readings V6 (chr ',') text = readings V6 (chr ',') value ∧
      ∀ r ∈ readings V6 (chr ',') value, ∃ host port, r = some (host, port) ∧ host.Plain := by
  unfold normalizeKafkaBrokerEndpoints at h
  split_ifs at h with hforbidden
  split at h
  · exact nomatch h
  · exact nomatch h
  next normalized hnonempty hmap =>
  obtain rfl := Except.ok.inj h
  obtain ⟨hagain, hsame, hreads⟩ := normalizes_kafka.list (by decide) hmap
  rw [List.map_id] at hagain hsame
  refine ⟨?_, hsame, hreads⟩
  have hplain := normalizes_kafka.plain_list hmap
  rw [List.map_id] at hplain
  rw [normalizeKafkaBrokerEndpoints, containsForbiddenCharacters_of_list (by decide) (by decide) hplain,
    if_neg Bool.false_ne_true, hagain]
  rcases normalized with _ | ⟨a, as⟩
  · exact (hnonempty rfl).elim
  · rfl

/-! ## RocketMQ -/

section RocketMq

variable {V6} {value text : Str} {kind : HostKind}

/-- **Accepted endpoints of RocketMQ.** -/
theorem parseRocketmqEndpoint_spec (h : parseRocketmqEndpoint value = some (kind, text)) :
    ∃ (shape : Shape V6) (p : ℕ), shape.Ok ∧ (1 ≤ p ∧ p ≤ 65535) ∧ shape.isV6 = false ∧ kind.Of shape ∧
      text = render shape (some p) ∧ reading V6 value = some (shape.host, some p) ∧
      shape.host.Plain := by
  unfold parseRocketmqEndpoint at h
  split_ifs at h with hforbidden
  dsimp only at h
  split_ifs at h with hbad hone
  rw [not_not] at hone
  simp only [Option.bind_eq_bind, Option.bind_eq_some_iff, Option.pure_def, Option.some.injEq] at h
  obtain ⟨⟨kind', parsed⟩, hhost, portText, hport, heq⟩ := h
  obtain ⟨rfl, rfl⟩ := Prod.mk.inj heq
  obtain ⟨shape, hok, hv6, hkind, rfl, hread, hplain⟩ := @parseHost_spec V6 _ _ _ hhost
  obtain ⟨p, rfl, hdigits, hvalue, hrange⟩ := parsePort_spec hport
  have hsplit : splitColon (stripSpaces value) =
      ((splitColon (stripSpaces value)).1, (splitColon (stripSpaces value)).2) := rfl
  -- before the colon there is a host, so there is no bracket
  have hstart : startsWith (chr '[') (stripSpaces value) = false := by
    have hmem : chr ':' ∈ stripSpaces value := List.count_pos_iff.1 (hone ▸ Nat.one_pos)
    have hchars := hostChars_of_parseHost hhost
    rcases hfirst : (splitColon (stripSpaces value)).1 with _ | ⟨c, host⟩
    · rw [hfirst] at hhost
      exact absurd hhost parseHost_nil
    · have hsplit' := (splitColon_spec hmem).1
      rw [hfirst] at hsplit' hchars
      rw [hsplit']
      exact decide_eq_false fun heq ↦ absurd (hchars c List.mem_cons_self)
        (by rw [Option.some.inj heq]; decide)
  refine ⟨shape, p, hok, hrange, hv6, hkind, rfl, ?_, hplain⟩
  rw [reading_of_colon hstart hone hsplit hdigits, hread, hvalue]

theorem parseRocketmqEndpoint_render {shape : Shape V6} {p : ℕ} (h : shape.Ok)
    (hp : 1 ≤ p ∧ p ≤ 65535) (hv6 : shape.isV6 = false) (hkind : kind.Of shape) :
    parseRocketmqEndpoint (render shape (some p)) = some (kind, render shape (some p)) := by
  have hplain := h.plain (some p)
  have hstrip : stripSpaces (render shape (some p)) = render shape (some p) :=
    stripSpaces_eq_self (notMem_of_plain (by decide) hplain)
  have hbad : ¬ ((render shape (some p)).isEmpty = true ∨ (render shape (some p)).any isSpace = true) := by
    rw [any_isSpace_of_plain hplain, List.isEmpty_iff]
    rintro (hnil | hspace)
    · exact render_ne_nil h hnil
    · exact nomatch hspace
  rw [parseRocketmqEndpoint, containsForbiddenCharacters_of_plain hplain, if_neg Bool.false_ne_true]
  dsimp only
  rw [hstrip, if_neg hbad, h.count hv6, Option.isSome_some, if_pos rfl, if_neg (not_not.2 rfl),
    h.splitColon hv6]
  dsimp only
  rw [parseHost_bracketed h hkind, parsePort, parseEndpointPort_decimal hp]
  rfl

theorem normalizes_rocketmq : Normalizes V6 Host.Plain parseRocketmqEndpoint Prod.snd := by
  refine ⟨fun v a h ↦ ?_, fun v a h ↦ ?_, fun v a h ↦ ?_, fun v a h ↦ ?_⟩ <;>
    obtain ⟨shape, p, hok, hp, hv6, hkind, heq, hread, hplain⟩ :=
      @parseRocketmqEndpoint_spec V6 _ a.2 a.1 h
  · rw [heq, parseRocketmqEndpoint_render hok hp hv6 hkind, ← heq]
  · rw [heq]
    exact hok.plain (some p)
  · rw [heq, hread]
    exact hok.reading (some p)
  · exact ⟨shape.host, some p, hread, hplain⟩

/-- **Lists of RocketMQ.** -/
theorem normalizeRocketmqNamesrvEndpoints_spec
    (h : normalizeRocketmqNamesrvEndpoints value = .ok text) :
    normalizeRocketmqNamesrvEndpoints text = .ok text ∧
      readings V6 (chr ';') text = readings V6 (chr ';') value ∧
      ∀ r ∈ readings V6 (chr ';') value, ∃ host port, r = some (host, port) ∧ host.Plain := by
  unfold normalizeRocketmqNamesrvEndpoints at h
  split_ifs at h with hforbidden
  have hnormal : ∀ parsed, (value.splitOn (chr ';')).mapM parseRocketmqEndpoint = some parsed →
      text = [chr ';'].intercalate (parsed.map Prod.snd) →
      containsForbiddenCharacters text = false ∧
        (text.splitOn (chr ';')).mapM parseRocketmqEndpoint = some parsed ∧
        readings V6 (chr ';') text = readings V6 (chr ';') value ∧
        ∀ r ∈ readings V6 (chr ';') value, ∃ host port, r = some (host, port) ∧ host.Plain := by
    rintro parsed hmap rfl
    have hplain := (@normalizes_rocketmq V6).plain_list hmap
    obtain ⟨hagain, hsame, hreads⟩ := (@normalizes_rocketmq V6).list (by decide) hmap
    exact ⟨containsForbiddenCharacters_of_list (by decide) (by decide) hplain, hagain, hsame, hreads⟩
  split at h
  · exact nomatch h
  · exact nomatch h
  · next endpoint hmap =>
    obtain rfl := Except.ok.inj h
    obtain ⟨hclean, hagain, hsame, hreads⟩ :=
      hnormal _ hmap (by rw [List.map_singleton, List.intercalate_singleton])
    refine ⟨?_, hsame, hreads⟩
    rw [normalizeRocketmqNamesrvEndpoints, hclean, if_neg Bool.false_ne_true, hagain]
  · next parsed hnonempty hnotdns hmap =>
    split_ifs at h with hkinds
    obtain ⟨hclean, hagain, hsame, hreads⟩ := hnormal _ hmap (Except.ok.inj h).symm
    refine ⟨?_, hsame, hreads⟩
    rw [normalizeRocketmqNamesrvEndpoints, hclean, if_neg Bool.false_ne_true, hagain]
    split
    · next heq => exact nomatch heq
    · next heq => exact (hnonempty (Option.some.inj heq)).elim
    · next endpoint heq => exact (hnotdns endpoint (Option.some.inj heq)).elim
    · next parsed' _ _ heq =>
      obtain rfl := Option.some.inj heq
      rw [if_pos hkinds, Except.ok.inj h]

end RocketMq

end Endpoints

end ScrapyExtension
