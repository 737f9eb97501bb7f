import ScrapyExtension.Py.Bytes

/-!
# Physical names

A strategy that fans one logical queue out gives each of its parts a physical name. The current names
are digests of the logical name, the namespace of the strategy and the discriminator of the part, each
preceded by its length; the old layout, `{queue}:{discriminator}`, is kept for draining, on the backends
where such names existed.

Two parts have the same physical name only if the digest has a collision: the texts that are hashed are
different, and a name of the old layout has a colon, which a current name has not.
-/

namespace ScrapyExtension

open Py

namespace Names

/-- `hashlib.blake2s(digest_size=16)`, whose `hexdigest` is written in hexadecimal digits. -/
structure Blake2s where
  hexdigest : Bytes → Str
  digits : ∀ text, ∀ c ∈ hexdigest text, c ∈ str "0123456789abcdef"

/-- `name_generation` -/
inductive Generation
  | v2
  | legacyV1
deriving DecidableEq, Repr

/-- What the names depend on besides the identity of a part. -/
structure Naming where
  hash : Blake2s
  generation : Generation
  /-- `_backend_type_name` -/
  backendType : Option Str

/-- `_LEGACY_COLON_QUEUE_BACKENDS` -/
def legacyColonQueueBackends : List Str :=
  [str "elasticsearch", str "mongodb", str "pulsar", str "rabbitmq", str "redis"]

/-- A part of the text that is hashed: its length, and its octets. -/
def framed (part : Str) : Option Bytes := do
  let encoded ← encodeUtf8 part
  let length ← toBytes 8 encoded.length
  return length ++ encoded

/-- The text that is hashed. -/
def hashed (queueName space discriminator : Str) : Option Bytes := do
  let a ← framed queueName
  let b ← framed space
  let c ← framed discriminator
  return a ++ (b ++ c)

/-- `strategy_queue_name`; `none` when a part cannot be encoded. -/
def strategyQueueName (hash : Blake2s) (queueName space discriminator : Str) : Option Str :=
  (hashed queueName space discriminator).map fun text ↦
    str "scrapyext-v2-" ++ space ++ str "-" ++ hash.hexdigest text

/-- `rabbit_name_fits`; `none` when the name cannot be encoded. -/
def rabbitNameFits (backendType : Option Str) (legacyName : Str) : Option Bool :=
  if backendType ≠ some (str "rabbitmq") then some true
  else (encodeUtf8 legacyName).map fun b ↦ decide (b.length ≤ 255)

/-- `physical_strategy_queue_name`; `none` when it raises. -/
def physicalStrategyQueueName (k : Naming) (queueName space discriminator legacyName : Str) : Option Str := do
  let fits ← rabbitNameFits k.backendType legacyName
  if k.generation = .legacyV1 ∧ k.backendType.any (· ∈ legacyColonQueueBackends) ∧ fits ∧
      chr ':' ∉ discriminator then
    return legacyName
  else strategyQueueName k.hash queueName space discriminator

/-! ## Distinct parts have distinct names -/

theorem framed_append_inj {p q : Str} {a b s t : Bytes} (ha : framed p = some a) (hb : framed q = some b)
    (h : a ++ s = b ++ t) : p = q ∧ s = t := by
  obtain ⟨x, hx, m, hm, rfl⟩ : ∃ x, encodeUtf8 p = some x ∧ ∃ m, toBytes 8 x.length = some m ∧ m ++ x = a := by
    simpa [framed, Option.bind_eq_some_iff] using ha
  obtain ⟨y, hy, n, hn, rfl⟩ : ∃ y, encodeUtf8 q = some y ∧ ∃ n, toBytes 8 y.length = some n ∧ n ++ y = b := by
    simpa [framed, Option.bind_eq_some_iff] using hb
  rw [List.append_assoc, List.append_assoc] at h
  -- the lengths have eight bytes each
  obtain ⟨rfl, hrest⟩ := List.append_inj h
    ((length_of_toBytes hm).trans (length_of_toBytes hn).symm)
  have hlength : x.length = y.length := (fromBytes_toBytes hm).symm.trans (fromBytes_toBytes hn)
  obtain ⟨rfl, hst⟩ := List.append_inj hrest hlength
  refine ⟨?_, hst⟩
  have hp := decodeUtf8_encodeUtf8 hx true
  rw [decodeUtf8_encodeUtf8 hy true] at hp
  exact (Option.some.inj hp).symm

theorem hashed_inj {p q d e space space' : Str} {t : Bytes} (hp : hashed p space d = some t)
    (hq : hashed q space' e = some t) : p = q ∧ space = space' ∧ d = e := by
  obtain ⟨a, ha, b, hb, c, hc, rfl⟩ : ∃ a, framed p = some a ∧ ∃ b, framed space = some b ∧
      ∃ c, framed d = some c ∧ a ++ (b ++ c) = t := by
    simpa [hashed, Option.bind_eq_some_iff] using hp
  obtain ⟨a', ha', b', hb', c', hc', heq⟩ : ∃ a', framed q = some a' ∧ ∃ b', framed space' = some b' ∧
      ∃ c', framed e = some c' ∧ a' ++ (b' ++ c') = a ++ (b ++ c) := by
    simpa [hashed, Option.bind_eq_some_iff] using hq
  obtain ⟨rfl, hrest⟩ := framed_append_inj ha' ha heq
  obtain ⟨rfl, hlast⟩ := framed_append_inj hb' hb hrest
  obtain ⟨rfl, -⟩ := framed_append_inj (s := []) (t := []) hc' hc (by simpa using hlast)
  exact ⟨rfl, rfl, rfl⟩

/-- `physical_strategy_queue_name` gives the old name or the digest. -/
theorem physicalStrategyQueueName_cases {k : Naming} {queueName space discriminator legacyName name : Str}
    (h : physicalStrategyQueueName k queueName space discriminator legacyName = some name) :
    name = legacyName ∨ strategyQueueName k.hash queueName space discriminator = some name := by
  obtain ⟨fits, -, hname⟩ := Option.bind_eq_some_iff.mp h
  split_ifs at hname
  · exact .inl (Option.some.inj hname).symm
  · exact .inr hname

/-- When the old name is kept. -/
theorem eq_legacyName_of_ne {k : Naming} {queueName space discriminator legacyName name : Str}
    (h : physicalStrategyQueueName k queueName space discriminator legacyName = some name)
    (hdigest : strategyQueueName k.hash queueName space discriminator ≠ some name) :
    name = legacyName ∧ k.generation = .legacyV1 ∧ k.backendType.any (· ∈ legacyColonQueueBackends) = true ∧
      rabbitNameFits k.backendType legacyName = some true ∧ chr ':' ∉ discriminator := by
  obtain ⟨fits, hfits, hname⟩ := Option.bind_eq_some_iff.mp h
  split_ifs at hname with hlegacy
  · obtain ⟨hgeneration, hbackend, rfl, hcolon⟩ := hlegacy
    exact ⟨(Option.some.inj hname).symm, hgeneration, hbackend, hfits, hcolon⟩
  · exact absurd hname hdigest

/-- The old name is kept for a discriminator without a colon only. -/
theorem colon_not_mem_discriminator {k : Naming} {queueName space discriminator legacyName name : Str}
    (h : physicalStrategyQueueName k queueName space discriminator legacyName = some name)
    (hdigest : strategyQueueName k.hash queueName space discriminator ≠ some name) :
    chr ':' ∉ discriminator := (eq_legacyName_of_ne h hdigest).2.2.2.2

theorem colon_not_mem_strategyQueueName {hash : Blake2s} {queueName space discriminator name : Str}
    (hspace : chr ':' ∉ space) (h : strategyQueueName hash queueName space discriminator = some name) :
    chr ':' ∉ name := by
  obtain ⟨text, -, rfl⟩ := Option.map_eq_some_iff.mp h
  intro hmem
  rw [List.mem_append, List.mem_append, List.mem_append] at hmem
  rcases hmem with ((hmem | hmem) | hmem) | hmem
  · exact absurd hmem (by decide)
  · exact hspace hmem
  · exact absurd hmem (by decide)
  · exact absurd (hash.digits text _ hmem) (by decide)

end Names

end ScrapyExtension
