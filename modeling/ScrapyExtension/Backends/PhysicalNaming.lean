import ScrapyExtension.Queue.Strategies.Names

/-!
# Kafka topics

One logical queue is one topic. `AUTO` keeps the name of the old mapping, a fixed prefix and the
logical name, where Kafka takes it as it is, and takes a digest of both parts otherwise. `LEGACY_V1`
has no digests and fails instead, and `V2` has nothing else.

A kept name and a digest lie in one space of names, and Kafka has no way to tell them apart.
-/

namespace ScrapyExtension

open Py

namespace PhysicalNaming

/-- `hashlib.blake2s(digest_size=size)` -/
structure Digest (size : ℕ) extends Names.Blake2s where
  length : ∀ text, (hexdigest text).length = 2 * size

/-- `_KAFKA_V2_DOMAIN` -/
def kafkaV2Domain : Bytes := Str.ascii (str "scrapy-extension:kafka:physical-topic:v2") ++ [0]

/-- The text that `_length_prefixed_digest` hashes for a topic; `none` when a part cannot be encoded. -/
def topicText (topicPrefix logicalQueueName : Str) : Option Bytes := do
  let a ← Names.framed topicPrefix
  let b ← Names.framed logicalQueueName
  return kafkaV2Domain ++ (a ++ b)

/-- A character of `_KAFKA_TOPIC_PATTERN`. -/
def isTopicChar (c : CodePoint) : Bool :=
  (97 ≤ c.val && c.val ≤ 122) || (65 ≤ c.val && c.val ≤ 90) || isDigit c || c = chr '.' || c = chr '_' ||
    c = chr '-'

/-- `_is_valid_kafka_topic`; `none` when the name cannot be encoded. -/
def isValidKafkaTopic (name : Str) : Option Bool :=
  (encodeUtf8 name).map fun encoded ↦
    decide (1 ≤ encoded.length ∧ encoded.length ≤ 249 ∧ name ≠ str "." ∧ name ≠ str "..") &&
      (name ≠ [] && name.all isTopicChar)

/-- `KafkaTopicNameGeneration` -/
inductive KafkaTopicNameGeneration
  | auto
  | legacyV1
  | v2
deriving DecidableEq, Repr

/-- The name that does not show the queue. -/
def kafkaV2Name (hash : Digest 20) (topicPrefix logicalQueueName : Str) : Option Str :=
  (topicText topicPrefix logicalQueueName).map fun text ↦ str "scrapyext-v2-" ++ hash.hexdigest text

/-- `kafka_physical_topic_name`; `none` when it raises. -/
def kafkaPhysicalTopicName (hash : Digest 20) (topicPrefix logicalQueueName : Str) :
    KafkaTopicNameGeneration → Option Str
  | .legacyV1 =>
    (isValidKafkaTopic (topicPrefix ++ logicalQueueName)).bind fun valid ↦
      if valid then some (topicPrefix ++ logicalQueueName) else none
  | .auto =>
    (isValidKafkaTopic (topicPrefix ++ logicalQueueName)).bind fun valid ↦
      if valid then some (topicPrefix ++ logicalQueueName)
      else kafkaV2Name hash topicPrefix logicalQueueName
  | .v2 => kafkaV2Name hash topicPrefix logicalQueueName

/-! ## Lemmas -/

theorem topicText_inj {p q l m : Str} {t : Bytes} (h : topicText p l = some t)
    (h' : topicText q m = some t) : p = q ∧ l = m := by
  obtain ⟨a, ha, b, hb, rfl⟩ : ∃ a, Names.framed p = some a ∧ ∃ b, Names.framed l = some b ∧
      kafkaV2Domain ++ (a ++ b) = t := by
    simpa [topicText, Option.bind_eq_some_iff] using h
  obtain ⟨a', ha', b', hb', heq⟩ : ∃ a', Names.framed q = some a' ∧ ∃ b', Names.framed m = some b' ∧
      kafkaV2Domain ++ (a' ++ b') = kafkaV2Domain ++ (a ++ b) := by
    simpa [topicText, Option.bind_eq_some_iff] using h'
  obtain ⟨rfl, hrest⟩ := Names.framed_append_inj ha' ha (List.append_cancel_left heq)
  obtain ⟨rfl, -⟩ := Names.framed_append_inj (s := []) (t := []) hb' hb (by simpa using hrest)
  exact ⟨rfl, rfl⟩

/-- A topic is the old name, which Kafka takes, or the digest. -/
theorem kafkaPhysicalTopicName_cases {hash : Digest 20} {p l topic : Str} {g : KafkaTopicNameGeneration}
    (h : kafkaPhysicalTopicName hash p l g = some topic) :
    (topic = p ++ l ∧ isValidKafkaTopic (p ++ l) = some true) ∨ kafkaV2Name hash p l = some topic := by
  rcases g with - | - | -
  · obtain ⟨valid, hvalid, htopic⟩ := Option.bind_eq_some_iff.1 h
    by_cases hv : valid = true
    · rw [if_pos hv] at htopic
      exact .inl ⟨(Option.some.inj htopic).symm, hv ▸ hvalid⟩
    · rw [if_neg hv] at htopic
      exact .inr htopic
  · obtain ⟨valid, hvalid, htopic⟩ := Option.bind_eq_some_iff.1 h
    by_cases hv : valid = true
    · rw [if_pos hv] at htopic
      exact .inl ⟨(Option.some.inj htopic).symm, hv ▸ hvalid⟩
    · rw [if_neg hv] at htopic
      exact absurd htopic nofun
  · exact .inr h

/-- Kafka takes a name of at most 249 of its characters that has one besides dots. -/
theorem isValidKafkaTopic_of_all {name : Str} (hall : name.all isTopicChar = true) (hlength : name.length ≤ 249)
    {c : CodePoint} (hc : c ∈ name) (hdot : c ≠ chr '.') : isValidKafkaTopic name = some true := by
  have hascii : name.IsAscii := by
    intro d hd
    have hchar := List.all_eq_true.1 hall d hd
    simp only [isTopicChar, isDigit, chr, Bool.or_eq_true, Bool.and_eq_true, decide_eq_true_eq] at hchar
    change d.val < 0x80
    rcases hchar with ((((h | h) | h) | h) | h) | h
    · omega
    · omega
    · omega
    · rw [of_decide_eq_true h]
      decide
    · rw [of_decide_eq_true h]
      decide
    · rw [of_decide_eq_true h]
      decide
  have hne : name ≠ [] := List.ne_nil_of_mem hc
  have hpos : 1 ≤ name.length := List.length_pos_iff.2 hne
  have hsingle : name ≠ str "." := by
    rintro rfl
    exact hdot (List.mem_singleton.1 hc)
  have hdouble : name ≠ str ".." := by
    rintro rfl
    rcases List.mem_cons.1 hc with h | h
    · exact hdot h
    · exact hdot (List.mem_singleton.1 h)
  rw [isValidKafkaTopic, encodeUtf8_ascii hascii]
  simp [Str.ascii, hall, hlength, hpos, hne, hsingle, hdouble]

theorem isTopicChar_of_hex {c : CodePoint} (hc : c ∈ str "0123456789abcdef") : isTopicChar c = true := by
  have hall : (str "0123456789abcdef").all isTopicChar = true := by decide
  exact List.all_eq_true.1 hall c hc

/-- Kafka takes what `V2` makes. -/
theorem isValidKafkaTopic_kafkaV2Name {hash : Digest 20} {p l topic : Str}
    (h : kafkaV2Name hash p l = some topic) : isValidKafkaTopic topic = some true := by
  obtain ⟨text, -, rfl⟩ := Option.map_eq_some_iff.1 h
  have hfront : (str "scrapyext-v2-").all isTopicChar = true := by decide
  refine isValidKafkaTopic_of_all (c := chr '-') ?_ ?_ (List.mem_append_left _ (by decide)) (by decide)
  · rw [List.all_append, hfront, Bool.true_and, List.all_eq_true]
    exact fun c hc ↦ isTopicChar_of_hex (hash.digits text c hc)
  · rw [List.length_append, hash.length]
    decide

end PhysicalNaming

end ScrapyExtension
