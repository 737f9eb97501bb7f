import ScrapyExtension.Backends.PhysicalNaming
import ScrapyExtension.Queue.Strategies.Priority
import ScrapyExtension.Queue.Strategies.WorkStealing

/-!
# Physical names do not meet

The two strategies that fan a logical queue out name its parts by one function, and on Kafka the name
would go through a second one. Three kinds of names share one space: the digest of a part, the old
name of a part, which shows the queue and the discriminator, and the topic, which is either of them
behind a prefix, or a digest of its own.

## Telling them apart

An old name has a colon, and neither a digest nor a topic that Kafka takes has one. Two digests of one
strategy end in their 32 hexadecimal digits, and the digits are those of one text only. A topic that is
a digest of its own ends in 40 hexadecimal digits, where a digest behind a prefix has a hyphen before
the last 32.

A digest function has collisions, as every function into a finite set. What is assumed is that none of
them is among the texts that are hashed.
-/

namespace ScrapyExtension

open Py

namespace PhysicalNames

open Names PhysicalNaming

/-- The strategies that call `physical_strategy_queue_name`. -/
inductive Fanout
  | priority
  | workStealing
deriving DecidableEq, Repr

/-- The namespace. -/
def Fanout.space : Fanout → Str
  | .priority => str "priority"
  | .workStealing => str "worker"

/-- The old name of a part. -/
def Fanout.legacyName (queueName discriminator : Str) : Fanout → Str
  | .priority => queueName ++ str ":p" ++ discriminator
  | .workStealing => queueName ++ str ":" ++ discriminator

/-- The name of a part; `none` when there is none. -/
def Fanout.physicalName (f : Fanout) (k : Naming) (queueName discriminator : Str) : Option Str :=
  physicalStrategyQueueName k queueName f.space discriminator (f.legacyName queueName discriminator)

theorem bucketQueue_eq_physicalName (c : Priority.Config) (queue : Str) (level : ℕ) :
    c.bucketQueue queue level = Fanout.priority.physicalName c.naming queue (decimal level) := rfl

theorem workerQueue_eq_physicalName (c : WorkStealing.Config) (queue worker : Str) :
    c.workerQueue queue worker = Fanout.workStealing.physicalName c.naming queue worker := rfl

/-- The discriminators that a strategy uses. -/
def Fanout.Discriminates (discriminator : Str) : Fanout → Prop
  | .priority => ∃ level, discriminator = decimal level
  | .workStealing => Snapshot.validKeyName discriminator = true

/-! ## The rules of the backends -/

/-- A character of `_SQS_QUEUE_NAME_PATTERN`. -/
def isSqsChar (c : CodePoint) : Bool :=
  (97 ≤ c.val && c.val ≤ 122) || (65 ≤ c.val && c.val ≤ 90) || isDigit c || c = chr '_' || c = chr '-'

/-- The names that a backend takes for a queue. -/
def admits (backendType : Option Str) (name : Str) : Bool :=
  if backendType = some (str "kafka") then isValidKafkaTopic name = some true
  else if backendType = some (str "sqs") then name ≠ [] && name.length ≤ 80 && name.all isSqsChar
  else if backendType = some (str "rabbitmq") then
    Snapshot.validKeyName name && (encodeUtf8 name).any fun encoded ↦ encoded.length ≤ 255
  else Snapshot.validKeyName name

/-! ## The digest of a part -/

variable {hash : Digest 16} {topicHash : Digest 20}

/-- The texts that are hashed for some parts, each a queue, a namespace and a discriminator. -/
def partTexts (parts : Set (Str × Str × Str)) : Set Bytes :=
  {t | ∃ p ∈ parts, hashed p.1 p.2.1 p.2.2 = some t}

/-- The texts that are hashed for some topics, each a prefix and a queue. -/
def topicTexts (topics : Set (Str × Str)) : Set Bytes := {t | ∃ p ∈ topics, topicText p.1 p.2 = some t}

/-- The digits of two digests are the same only if they are of the same text. -/
theorem digits_inj {s s' t t' : Str} (ht : t.length = 32) (ht' : t'.length = 32) (h : s ++ t = s' ++ t') :
    s = s' ∧ t = t' := List.append_inj' h (ht.trans ht'.symm)

theorem strategyQueueName_inj {parts : Set (Str × Str × Str)}
    (hfree : Set.InjOn hash.hexdigest (partTexts parts)) {q s d q' s' d' : Str} (hp : (q, s, d) ∈ parts)
    (hp' : (q', s', d') ∈ parts) {front front' name name' : Str}
    (h : strategyQueueName hash.toBlake2s q s d = some name)
    (h' : strategyQueueName hash.toBlake2s q' s' d' = some name') (heq : front ++ name = front' ++ name') :
    q = q' ∧ s = s' ∧ d = d' ∧ front = front' := by
  obtain ⟨t, ht, rfl⟩ := Option.map_eq_some_iff.1 h
  obtain ⟨t', ht', rfl⟩ := Option.map_eq_some_iff.1 h'
  rw [← List.append_assoc front, ← List.append_assoc front'] at heq
  obtain ⟨hfront, hdigits⟩ := digits_inj (hash.length t) (hash.length t') heq
  obtain rfl := hfree ⟨_, hp, ht⟩ ⟨_, hp', ht'⟩ hdigits
  obtain ⟨rfl, rfl, rfl⟩ := hashed_inj ht ht'
  exact ⟨rfl, rfl, rfl, List.append_cancel_right hfront⟩

/-! ## Two parts -/

theorem Fanout.colon_mem_legacyName (f : Fanout) (q d : Str) : chr ':' ∈ f.legacyName q d := by
  rcases f with - | -
  · exact List.mem_append_left _ (List.mem_append_right _ (by decide))
  · exact List.mem_append_left _ (List.mem_append_right _ (by decide))

theorem Fanout.colon_not_mem_space (f : Fanout) : chr ':' ∉ f.space := by
  rcases f with - | - <;> decide

theorem Fanout.legacyName_inj (f : Fanout) {q q' d d' : Str} (hd : chr ':' ∉ d) (hd' : chr ':' ∉ d')
    (h : f.legacyName q d = f.legacyName q' d') : q = q' ∧ d = d' := by
  rcases f with - | -
  · have hp : ∀ d, chr ':' ∉ d → chr ':' ∉ str "p" ++ d := by
      intro d hd hmem
      rcases List.mem_append.1 hmem with hmem | hmem
      · exact absurd hmem (by decide)
      · exact hd hmem
    have heq : q ++ str ":" ++ (str "p" ++ d) = q' ++ str ":" ++ (str "p" ++ d') := by
      have hcolon : str ":p" = str ":" ++ str "p" := rfl
      simpa [Fanout.legacyName, hcolon] using h
    obtain ⟨rfl, htail⟩ := WorkStealing.legacyName_inj (hp d hd) (hp d' hd') heq
    exact ⟨rfl, List.append_cancel_left htail⟩
  · exact WorkStealing.legacyName_inj hd hd' h

/-- A name is the old one, which has a colon, or the digest, which has none. -/
theorem Fanout.physicalName_cases {f : Fanout} {k : Naming} {q d name : Str}
    (h : f.physicalName k q d = some name) :
    (strategyQueueName k.hash q f.space d = some name ∧ chr ':' ∉ name) ∨
      (name = f.legacyName q d ∧ chr ':' ∈ name ∧ chr ':' ∉ d) := by
  by_cases hd : strategyQueueName k.hash q f.space d = some name
  · exact .inl ⟨hd, colon_not_mem_strategyQueueName f.colon_not_mem_space hd⟩
  · have hname := (physicalStrategyQueueName_cases h).resolve_right hd
    exact .inr ⟨hname, hname ▸ f.colon_mem_legacyName q d, colon_not_mem_discriminator h hd⟩

theorem Fanout.physicalName_inj {f : Fanout} {k : Naming} (hk : k.hash = hash.toBlake2s)
    {parts : Set (Str × Str × Str)} (hfree : Set.InjOn hash.hexdigest (partTexts parts)) {q d q' d' : Str}
    (hp : (q, f.space, d) ∈ parts) (hp' : (q', f.space, d') ∈ parts) {name : Str}
    (h : f.physicalName k q d = some name) (h' : f.physicalName k q' d' = some name) : q = q' ∧ d = d' := by
  rcases physicalName_cases h with ⟨hd, hcolon⟩ | ⟨hname, hcolon, hd⟩ <;>
    rcases physicalName_cases h' with ⟨hd', hcolon'⟩ | ⟨hname', hcolon', hd'⟩
  · rw [hk] at hd hd'
    obtain ⟨hq, -, hd, -⟩ := strategyQueueName_inj hfree hp hp' hd hd' (rfl : [] ++ name = [] ++ name)
    exact ⟨hq, hd⟩
  · exact absurd hcolon' hcolon
  · exact absurd hcolon hcolon'
  · exact f.legacyName_inj hd hd' (hname.symm.trans hname')

/-! ## Topics -/

theorem chars_of_isValidKafkaTopic {name : Str} (h : isValidKafkaTopic name = some true) :
    ∀ c ∈ name, isTopicChar c = true := by
  obtain ⟨encoded, -, hvalid⟩ := Option.map_eq_some_iff.1 h
  rw [Bool.and_eq_true, Bool.and_eq_true] at hvalid
  exact List.all_eq_true.1 hvalid.2.2

/-- Behind a prefix that Kafka takes, a name is a digest. -/
theorem Fanout.strategyQueueName_of_valid {f : Fanout} {k : Naming} {q d name front : Str}
    (h : f.physicalName k q d = some name) (hvalid : isValidKafkaTopic (front ++ name) = some true) :
    strategyQueueName k.hash q f.space d = some name := by
  rcases physicalName_cases h with ⟨hd, -⟩ | ⟨-, hcolon, -⟩
  · exact hd
  · have hchar := chars_of_isValidKafkaTopic hvalid _ (List.mem_append_right front hcolon)
    exact absurd hchar (by decide)

/-- The digest of a part behind a prefix is not the digest of a topic: of the last 33 characters the
first is a hyphen in the one and a digit in the other. -/
theorem kafkaV2Name_ne {p l front q s d name : Str} {h : Blake2s} (hlength : ∀ t, (h.hexdigest t).length = 32)
    (hname : strategyQueueName h q s d = some name) : kafkaV2Name topicHash p l ≠ some (front ++ name) := by
  intro htopic
  obtain ⟨t, -, rfl⟩ := Option.map_eq_some_iff.1 hname
  obtain ⟨u, -, heq⟩ := Option.map_eq_some_iff.1 htopic
  have hforty : (topicHash.hexdigest u).length = 40 := topicHash.length u
  have hlast : ((topicHash.hexdigest u).drop 8).length = 32 := by
    rw [List.length_drop, hforty]
  have hsplit : (str "scrapyext-v2-" ++ (topicHash.hexdigest u).take 8) ++ (topicHash.hexdigest u).drop 8 =
      (front ++ (str "scrapyext-v2-" ++ s) ++ [chr '-']) ++ h.hexdigest t := by
    rw [List.append_assoc, List.take_append_drop, heq]
    have hhyphen : str "-" = [chr '-'] := rfl
    simp only [List.append_assoc, hhyphen]
  obtain ⟨hfront, -⟩ := digits_inj hlast (hlength t) hsplit
  have hne : (topicHash.hexdigest u).take 8 ≠ [] := by
    rw [← List.length_pos_iff, List.length_take, hforty]
    decide
  have hhyphen := congrArg List.getLast? hfront
  rw [List.getLast?_append_of_ne_nil _ hne, List.getLast?_concat] at hhyphen
  have hdigit := topicHash.digits u _ (List.mem_of_mem_take (List.mem_of_getLast? hhyphen))
  exact absurd hdigit (by decide)

theorem Fanout.topic_inj {f : Fanout} {k : Naming} (hk : k.hash = hash.toBlake2s)
    {parts : Set (Str × Str × Str)} (hfree : Set.InjOn hash.hexdigest (partTexts parts))
    {topics : Set (Str × Str)} (htopics : Set.InjOn topicHash.hexdigest (topicTexts topics))
    {q d q' d' name name' p p' topic : Str} (hp : (q, f.space, d) ∈ parts) (hp' : (q', f.space, d') ∈ parts)
    (h : f.physicalName k q d = some name) (h' : f.physicalName k q' d' = some name')
    (ht : (p, name) ∈ topics) (ht' : (p', name') ∈ topics) {g : KafkaTopicNameGeneration}
    (htopic : kafkaPhysicalTopicName topicHash p name g = some topic)
    (htopic' : kafkaPhysicalTopicName topicHash p' name' g = some topic) : p = p' ∧ q = q' ∧ d = d' := by
  have hlength : ∀ t, (k.hash.hexdigest t).length = 32 := hk ▸ hash.length
  rcases kafkaPhysicalTopicName_cases htopic with ⟨heq, hvalid⟩ | hdigest <;>
    rcases kafkaPhysicalTopicName_cases htopic' with ⟨heq', hvalid'⟩ | hdigest'
  · have hname := f.strategyQueueName_of_valid h hvalid
    have hname' := f.strategyQueueName_of_valid h' hvalid'
    rw [hk] at hname hname'
    obtain ⟨hq, -, hd, hfront⟩ := strategyQueueName_inj hfree hp hp' hname hname' (heq.symm.trans heq')
    exact ⟨hfront, hq, hd⟩
  · exact absurd (heq ▸ hdigest') (kafkaV2Name_ne hlength (f.strategyQueueName_of_valid h hvalid))
  · exact absurd (heq' ▸ hdigest) (kafkaV2Name_ne hlength (f.strategyQueueName_of_valid h' hvalid'))
  · obtain ⟨t, htext, hname⟩ := Option.map_eq_some_iff.1 hdigest
    obtain ⟨t', htext', hname'⟩ := Option.map_eq_some_iff.1 hdigest'
    obtain rfl := htopics ⟨_, ht, htext⟩ ⟨_, ht', htext'⟩
      (List.append_cancel_left (hname.trans hname'.symm))
    obtain ⟨rfl, rfl⟩ := topicText_inj htext htext'
    exact ⟨rfl, physicalName_inj hk hfree hp hp' h h'⟩

/-! ## What the backends take -/

/-- A character of a digest, hyphens included. -/
def isPlain (c : CodePoint) : Bool := (97 ≤ c.val && c.val ≤ 122) || isDigit c || c = chr '-'

theorem isPlain_of_hex {c : CodePoint} (hc : c ∈ str "0123456789abcdef") : isPlain c = true := by
  have hall : (str "0123456789abcdef").all isPlain = true := by decide
  exact List.all_eq_true.1 hall c hc

/-- The digest of a part is 52 or 54 plain characters. -/
theorem Fanout.plain_strategyQueueName (f : Fanout) {q d name : Str}
    (h : strategyQueueName hash.toBlake2s q f.space d = some name) :
    name.all isPlain = true ∧ name.length ≤ 54 ∧ chr '-' ∈ name := by
  obtain ⟨t, -, rfl⟩ := Option.map_eq_some_iff.1 h
  have hfront : (str "scrapyext-v2-" ++ f.space ++ str "-").all isPlain = true := by
    rcases f with - | - <;> decide
  have hlength : (str "scrapyext-v2-" ++ f.space ++ str "-").length ≤ 22 := by
    rcases f with - | - <;> decide
  refine ⟨?_, ?_, List.mem_append_left _ (List.mem_append_right _ (by decide))⟩
  · rw [List.all_append, hfront, Bool.true_and, List.all_eq_true]
    exact fun c hc ↦ isPlain_of_hex (hash.digits t c hc)
  · rw [List.length_append, hash.length]
    omega

theorem isTopicChar_of_isPlain {c : CodePoint} (hc : isPlain c = true) : isTopicChar c = true := by
  simp only [isPlain, Bool.or_eq_true] at hc
  simp only [isTopicChar, Bool.or_eq_true]
  tauto

theorem isSqsChar_of_isPlain {c : CodePoint} (hc : isPlain c = true) : isSqsChar c = true := by
  simp only [isPlain, Bool.or_eq_true] at hc
  simp only [isSqsChar, Bool.or_eq_true]
  tauto

theorem isKeyChar_of_isPlain {c : CodePoint} (hc : isPlain c = true) : Snapshot.isKeyChar c = true := by
  simp only [isPlain, Bool.or_eq_true] at hc
  simp only [Snapshot.isKeyChar, Bool.or_eq_true]
  tauto

theorem isAscii_of_isPlain {name : Str} (h : name.all isPlain = true) : name.IsAscii := by
  intro c hc
  have hchar := List.all_eq_true.1 h c hc
  simp only [isPlain, isDigit, Bool.or_eq_true, Bool.and_eq_true, decide_eq_true_eq] at hchar
  change c.val < 0x80
  rcases hchar with (h | h) | h
  · omega
  · omega
  · rw [h]
    decide

/-- Every backend takes a short plain name. -/
theorem admits_of_isPlain (backendType : Option Str) {name : Str} (hall : name.all isPlain = true)
    (hlength : name.length ≤ 54) (hmem : chr '-' ∈ name) : admits backendType name = true := by
  have hne : name ≠ [] := List.ne_nil_of_mem hmem
  have hall' : ∀ {p : CodePoint → Bool}, (∀ {c}, isPlain c = true → p c = true) → name.all p = true :=
    fun hp ↦ List.all_eq_true.2 fun c hc ↦ hp (List.all_eq_true.1 hall c hc)
  have hkey : Snapshot.validKeyName name = true := by
    simp [Snapshot.validKeyName, hne, hall' isKeyChar_of_isPlain]
  unfold admits
  split_ifs
  · rw [decide_eq_true_eq]
    exact isValidKafkaTopic_of_all (hall' isTopicChar_of_isPlain) (by omega) hmem (by decide)
  · have hle : name.length ≤ 80 := by omega
    simp [hne, hle, hall' isSqsChar_of_isPlain]
  · have hle : name.length ≤ 255 := by omega
    rw [hkey, encodeUtf8_ascii (isAscii_of_isPlain hall)]
    simp [Str.ascii, hle]
  · exact hkey

theorem isKeyChar_of_discriminates {f : Fanout} {d : Str} (h : f.Discriminates d) :
    d.all Snapshot.isKeyChar = true := by
  rcases f with - | -
  · obtain ⟨level, rfl⟩ := h
    rw [List.all_eq_true]
    intro c hc
    simp [Snapshot.isKeyChar, decimal_isDigit level c hc]
  · exact (Bool.and_eq_true_iff.1 h).2

/-- An old name of a queue that the backends take is one. -/
theorem Fanout.validKeyName_legacyName (f : Fanout) {q d : Str} (hq : Snapshot.validKeyName q = true)
    (hd : f.Discriminates d) : Snapshot.validKeyName (f.legacyName q d) = true := by
  have hqueue : q.all Snapshot.isKeyChar = true := (Bool.and_eq_true_iff.1 hq).2
  have hpart := isKeyChar_of_discriminates hd
  have hne := List.ne_nil_of_mem (f.colon_mem_legacyName q d)
  have hall : (f.legacyName q d).all Snapshot.isKeyChar = true := by
    have hcolon : (str ":").all Snapshot.isKeyChar = true := by decide
    have hcolonp : (str ":p").all Snapshot.isKeyChar = true := by decide
    rcases f with - | - <;> simp only [Fanout.legacyName, List.all_append, hqueue, hpart, hcolon, hcolonp] <;> rfl
  simp [Snapshot.validKeyName, hne, hall]

theorem Fanout.admits_physicalName {f : Fanout} {k : Naming} (hk : k.hash = hash.toBlake2s) {q d name : Str}
    (hq : Snapshot.validKeyName q = true) (hd : f.Discriminates d) (h : f.physicalName k q d = some name) :
    admits k.backendType name = true := by
  by_cases hdigest : strategyQueueName k.hash q f.space d = some name
  · rw [hk] at hdigest
    obtain ⟨hall, hlength, hmem⟩ := f.plain_strategyQueueName hdigest
    exact admits_of_isPlain k.backendType hall hlength hmem
  · obtain ⟨rfl, -, hbackend, hfits, -⟩ := eq_legacyName_of_ne h hdigest
    have hkey := f.validKeyName_legacyName hq hd
    -- The backends with names of their own never had the old ones.
    have hkafka : k.backendType ≠ some (str "kafka") := by
      intro heq
      rw [heq] at hbackend
      exact absurd hbackend (by decide)
    have hsqs : k.backendType ≠ some (str "sqs") := by
      intro heq
      rw [heq] at hbackend
      exact absurd hbackend (by decide)
    rw [admits, if_neg hkafka, if_neg hsqs]
    by_cases hrabbit : k.backendType = some (str "rabbitmq")
    · rw [if_pos hrabbit, hkey, Bool.true_and]
      rw [rabbitNameFits, if_neg (not_not_intro hrabbit)] at hfits
      obtain ⟨encoded, hencoded, hle⟩ := Option.map_eq_some_iff.1 hfits
      rw [hencoded]
      exact hle
    · rw [if_neg hrabbit]
      exact hkey

/-- A key name is encoded as it stands. -/
theorem isAscii_of_isKeyChar {name : Str} (h : name.all Snapshot.isKeyChar = true) : name.IsAscii := by
  intro c hc
  have hchar := List.all_eq_true.1 h c hc
  simp only [Snapshot.isKeyChar, isDigit, Bool.or_eq_true, Bool.and_eq_true, decide_eq_true_eq] at hchar
  change c.val < 0x80
  rcases hchar with (((((h | h) | h) | h) | h) | h) | h
  · omega
  · omega
  · omega
  all_goals
    rw [h]
    decide

theorem Fanout.isSome_physicalName (f : Fanout) (k : Naming) {q d : Str} (hq : Snapshot.validKeyName q = true)
    (hd : f.Discriminates d) (hqlength : q.length < 2 ^ 64) (hdlength : d.length < 2 ^ 64) :
    (f.physicalName k q d).isSome = true := by
  have hspace : f.space.IsAscii ∧ f.space.length < 256 ^ 8 := by
    rcases f with - | - <;> exact ⟨by decide, by decide⟩
  obtain ⟨a, ha⟩ := Option.isSome_iff_exists.1 (Priority.framed_isSome_of_isAscii
    (isAscii_of_isKeyChar (Bool.and_eq_true_iff.1 hq).2) (hqlength.trans_le (by norm_num)))
  obtain ⟨b, hb⟩ := Option.isSome_iff_exists.1 (Priority.framed_isSome_of_isAscii hspace.1 hspace.2)
  obtain ⟨e, he⟩ := Option.isSome_iff_exists.1 (Priority.framed_isSome_of_isAscii
    (isAscii_of_isKeyChar (isKeyChar_of_discriminates hd)) (hdlength.trans_le (by norm_num)))
  have hdigest : (strategyQueueName k.hash q f.space d).isSome = true := by
    simp [strategyQueueName, hashed, ha, hb, he]
  have hlegacy : (f.legacyName q d).IsAscii :=
    isAscii_of_isKeyChar (Bool.and_eq_true_iff.1 (f.validKeyName_legacyName hq hd)).2
  obtain ⟨fits, hfits⟩ : ∃ fits, rabbitNameFits k.backendType (f.legacyName q d) = some fits := by
    rw [rabbitNameFits, encodeUtf8_ascii hlegacy]
    split_ifs
    · exact ⟨_, rfl⟩
    · exact ⟨_, rfl⟩
  rw [Fanout.physicalName, physicalStrategyQueueName, hfits, Option.bind_eq_bind, Option.bind_some]
  split_ifs
  · rfl
  · exact hdigest

/-! ## The names -/

/-- `_blake2s`, a generation and a backend. -/
def naming (hash : Digest 16) (generation : Generation) (backendType : Option Str) : Naming :=
  ⟨hash.toBlake2s, generation, backendType⟩

/-- The names of parts and of topics are told apart, and the backends take them. -/
structure Apart (hash : Digest 16) (topicHash : Digest 20) (parts : Set (Str × Str × Str))
    (topics : Set (Str × Str)) : Prop where
  /-- Two parts of one strategy have two names. -/
  distinct : ∀ generation backendType (f : Fanout) q d q' d', (q, f.space, d) ∈ parts →
    (q', f.space, d') ∈ parts → (q, d) ≠ (q', d') →
    ∀ name ∈ f.physicalName (naming hash generation backendType) q d,
      ∀ name' ∈ f.physicalName (naming hash generation backendType) q' d', name ≠ name'
  /-- A part that the strategy and the backend accept has a name. -/
  named : ∀ generation backendType (f : Fanout) q d, Snapshot.validKeyName q = true → f.Discriminates d →
    q.length < 2 ^ 64 → d.length < 2 ^ 64 →
    (f.physicalName (naming hash generation backendType) q d).isSome = true
  /-- The backend takes the name. -/
  admitted : ∀ generation backendType (f : Fanout) q d, Snapshot.validKeyName q = true → f.Discriminates d →
    ∀ name ∈ f.physicalName (naming hash generation backendType) q d, admits backendType name = true
  /-- Two parts have two topics, also behind two prefixes. -/
  topics : ∀ generation backendType (f : Fanout) q d q' d' p p', (q, f.space, d) ∈ parts →
    (q', f.space, d') ∈ parts → (p, q, d) ≠ (p', q', d') →
    ∀ name ∈ f.physicalName (naming hash generation backendType) q d,
      ∀ name' ∈ f.physicalName (naming hash generation backendType) q' d', (p, name) ∈ topics →
        (p', name') ∈ topics → ∀ g, ∀ topic ∈ kafkaPhysicalTopicName topicHash p name g,
          ∀ topic' ∈ kafkaPhysicalTopicName topicHash p' name' g, topic ≠ topic'
  /-- Kafka takes the topic. -/
  topicAdmitted : ∀ p name g, ∀ topic ∈ kafkaPhysicalTopicName topicHash p name g,
    isValidKafkaTopic topic = some true
  /-- Two namespaces have no current name in common. -/
  spaces : ∀ backendType q s d legacyName q' s' d' legacyName', (q, s, d) ∈ parts → (q', s', d') ∈ parts →
    s ≠ s' → ∀ name ∈ physicalStrategyQueueName (naming hash .v2 backendType) q s d legacyName,
      ∀ name' ∈ physicalStrategyQueueName (naming hash .v2 backendType) q' s' d' legacyName', name ≠ name'

theorem isValidKafkaTopic_kafkaPhysicalTopicName {p name topic : Str} {g : KafkaTopicNameGeneration}
    (h : kafkaPhysicalTopicName topicHash p name g = some topic) : isValidKafkaTopic topic = some true := by
  rcases kafkaPhysicalTopicName_cases h with ⟨rfl, hvalid⟩ | hdigest
  · exact hvalid
  · exact isValidKafkaTopic_kafkaV2Name hdigest

/-- A current name is a digest. -/
theorem strategyQueueName_of_v2 {backendType : Option Str} {q s d legacyName name : Str}
    (h : physicalStrategyQueueName (naming hash .v2 backendType) q s d legacyName = some name) :
    strategyQueueName hash.toBlake2s q s d = some name := by
  by_contra hne
  exact absurd (eq_legacyName_of_ne h hne).2.1 (by simp [naming])

/-- A digest that tells one text from all others. -/
def oneApart {size : ℕ} (text : Option Bytes) (a b : Str) (ha : a.length = 2 * size) (hb : b.length = 2 * size)
    (hdigits : (a ++ b).all (fun c ↦ decide (c ∈ str "0123456789abcdef")) = true) : Digest size where
  hexdigest t := if text = some t then a else b
  digits t c hc := by
    refine of_decide_eq_true (List.all_eq_true.1 hdigits c ?_)
    split_ifs at hc
    · exact List.mem_append_left b hc
    · exact List.mem_append_right a hc
  length t := by
    split_ifs
    · exact ha
    · exact hb

theorem injOn_oneApart {size : ℕ} {text text' : Option Bytes} {a b : Str} {ha : a.length = 2 * size}
    {hb : b.length = 2 * size} {hdigits : (a ++ b).all (fun c ↦ decide (c ∈ str "0123456789abcdef")) = true}
    (hab : a ≠ b) (hne : text ≠ text') {texts : Set Bytes} (h : ∀ t ∈ texts, text = some t ∨ text' = some t) :
    Set.InjOn (oneApart text a b ha hb hdigits).hexdigest texts := by
  have hother : ∀ t, text' = some t → (oneApart text a b ha hb hdigits).hexdigest t = b :=
    fun t ht ↦ if_neg fun heq ↦ hne (heq.trans ht.symm)
  have hone : ∀ t, text = some t → (oneApart text a b ha hb hdigits).hexdigest t = a := fun t ht ↦ if_pos ht
  intro t ht u hu heq
  rcases h t ht with ht | ht <;> rcases h u hu with hu | hu
  · exact Option.some.inj (ht.symm.trans hu)
  · exact absurd ((hone t ht).symm.trans (heq.trans (hother u hu))) hab
  · exact absurd ((hone u hu).symm.trans (heq.symm.trans (hother t ht))) hab
  · exact Option.some.inj (ht.symm.trans hu)

/-- The digests of two levels of the queue `q`. -/
def levelDigest : Digest 16 :=
  oneApart (hashed (str "q") (str "priority") (str "0")) (str "87670f11881c93a575c75926cba82ad6")
    (str "c3480423a891404eb41394c65bad0342") (by decide) (by decide) (by decide)

/-- The current name of a level of the queue `q`. -/
def levelName (level : ℕ) : Str :=
  if level = 0 then str "scrapyext-v2-priority-87670f11881c93a575c75926cba82ad6"
  else str "scrapyext-v2-priority-c3480423a891404eb41394c65bad0342"

/-- The digests of their topics. -/
def topicDigest : Digest 20 :=
  oneApart (topicText (str "scrapy-") (levelName 0)) (str "5e2a4f3f0c6ad8f0a9a8d9b0c1d2e3f405162738")
    (str "1b2c3d4e5f60718293a4b5c6d7e8f90a1b2c3d4e") (by decide) (by decide) (by decide)

end PhysicalNames

end ScrapyExtension
