import Mathlib.Data.Nat.Digits.Lemmas
import ScrapyExtension.Py.Float
import ScrapyExtension.Queue.Strategies.Names

/-!
# Priorities by physical queues

`PriorityQueueStrategy` keeps one physical queue for each of a fixed number of levels, so that a backend
without priorities has them. A push goes to the level of its priority, a pop takes from the first level
that has something.

## Levels

Priorities are integers or floats. An integer is subtracted from the centre exactly; a float in double
precision, and then rounded to the nearest level. The two agree on the order of all priorities together:
rounding is monotone, and the numbers that matter, the halves around the levels, are not moved by it.
Far away from the levels rounding may do what it likes, as everything is clamped.

## Refinement

The specification is one list for each logical queue, of items with their levels in the order of
arrival. A pop removes the first item of the lowest level. The physical queues are its parts.
-/

namespace ScrapyExtension

open Py

namespace Priority

/-- `MAX_PRIORITY_LEVELS` -/
def maxPriorityLevels : ℕ := 256

/-- A priority, as a caller may give it. -/
inductive Value
  | bool (b : Bool)
  | int (n : ℤ)
  | float (d : Double)
  /-- An infinity, or not a number. -/
  | nonFinite
  /-- Neither an `int` nor a `float`. -/
  | other

/-- The number that a priority is. -/
def Value.number? : Value → Option ℚ
  | .int n => some n
  | .float d => some d.value
  | .bool _ => none
  | .nonFinite => none
  | .other => none

/-- What the constructor has accepted. -/
structure Config where
  /-- `_levels` -/
  levels : ℕ
  pos : 1 ≤ levels
  le_max : levels ≤ maxPriorityLevels
  naming : Names.Naming

/-- `center` -/
def Config.center (c : Config) : ℕ := c.levels / 2

/-- `min(self._levels - 1, max(0, level))` -/
def Config.clamp (c : Config) (level : ℤ) : ℕ := (min ((c.levels : ℤ) - 1) (max 0 level)).toNat

/-- The level before it is clamped; `none` when the priority is refused. -/
def Config.rawLevel (c : Config) : Value → Option ℤ
  | .bool _ => none
  | .nonFinite => none
  | .other => none
  -- an integer that is too large for a `float` makes `isfinite` raise
  | .int n => if (Double.ofRat n).isSome then some (c.center - n) else none
  | .float d => do
    let difference ← Double.ofRat (c.center - d.value)
    let shifted ← Double.ofRat (difference.value + 1 / 2)
    return ⌊shifted.value⌋

/-- `_level_for` -/
def Config.levelFor (c : Config) (priority : Value) : Option ℕ := (c.rawLevel priority).map c.clamp

/-! ## The order of the levels -/

section Levels

variable {c : Config}

theorem Config.clamp_lt (c : Config) (level : ℤ) : c.clamp level < c.levels := by
  have := c.pos
  unfold Config.clamp
  omega

theorem Config.clamp_mono (c : Config) : Monotone c.clamp := by
  intro a b hab
  unfold Config.clamp
  omega

theorem Config.center_le (c : Config) : (c.center : ℚ) ≤ 2 ^ 7 := by
  have hmax := c.le_max
  rw [maxPriorityLevels] at hmax
  have hle : c.center ≤ 2 ^ 7 := by
    unfold Config.center
    omega
  exact_mod_cast hle

/-- The level of a float, by its two roundings. -/
theorem rawLevel_float (c : Config) (d : Double) : c.rawLevel (.float d) =
    some ⌊roundDouble (roundDouble (c.center - d.value) + 1 / 2)⌋ := by
  have hcenter : |(c.center : ℚ)| ≤ 2 ^ 7 := by
    rw [abs_of_nonneg (Nat.cast_nonneg _)]
    exact c.center_le
  have hhalf : |(1 / 2 : ℚ)| ≤ 2 ^ 7 := by norm_num
  obtain ⟨e, he, hvalue⟩ := Double.ofRat_eq_some
    (d.abs_add_lt_maxRounded hcenter (abs_neg d.value))
  obtain ⟨f, hf, hvalue'⟩ := Double.ofRat_eq_some (e.abs_add_lt_maxRounded hhalf rfl)
  rw [← sub_eq_add_neg] at he hvalue
  rw [add_comm (1 / 2 : ℚ)] at hf hvalue'
  simp only [Config.rawLevel, he, hf, Option.bind_eq_bind, Option.bind_some, Option.pure_def]
  rw [hvalue', hvalue]

/-- The two roundings, of an exact difference. -/
def nearestLevel (x : ℚ) : ℤ := ⌊roundDouble (roundDouble x + 1 / 2)⌋

theorem nearestLevel_mono : Monotone nearestLevel := fun _ _ h ↦
  Int.floor_mono (roundDouble_mono (by linarith [roundDouble_mono h]))

/-- A difference that is a level is that level. -/
theorem nearestLevel_intCast {n : ℤ} (hlow : -1 ≤ n) (hhigh : n ≤ maxPriorityLevels) :
    nearestLevel n = n := by
  rw [maxPriorityLevels] at hhigh
  have hexact : roundDouble (n : ℚ) = n := by
    have hhalf := roundDouble_half (m := 2 * n) (by rw [abs_le]; omega)
    push_cast at hhalf
    rwa [mul_div_cancel_left₀ _ two_ne_zero] at hhalf
  have hshifted : roundDouble ((n : ℚ) + 1 / 2) = n + 1 / 2 := by
    have hhalf := roundDouble_half (m := 2 * n + 1) (by rw [abs_le]; omega)
    push_cast at hhalf
    rwa [add_div, mul_div_cancel_left₀ _ two_ne_zero] at hhalf
  rw [nearestLevel, hexact, hshifted, Int.floor_eq_iff]
  constructor <;> linarith

/-- **The levels are antitone**, over integers and floats together. -/
theorem levelFor_antitone {p q : Value} {x y : ℚ} {i j : ℕ} (hp : p.number? = some x)
    (hq : q.number? = some y) (hi : c.levelFor p = some i) (hj : c.levelFor q = some j) (hxy : x ≤ y) :
    j ≤ i := by
  obtain ⟨a, ha, rfl⟩ := Option.map_eq_some_iff.mp hi
  obtain ⟨b, hb, rfl⟩ := Option.map_eq_some_iff.mp hj
  have hmax : (c.levels : ℤ) ≤ maxPriorityLevels := by exact_mod_cast c.le_max
  have hint : ∀ {n : ℤ} {l : ℤ}, c.rawLevel (.int n) = some l → l = c.center - n := by
    intro n l h
    simp only [Config.rawLevel] at h
    split_ifs at h
    exact (Option.some.inj h).symm
  have hfloat : ∀ {d : Double} {l : ℤ}, c.rawLevel (.float d) = some l →
      l = nearestLevel (c.center - d.value) := by
    intro d l h
    rw [rawLevel_float] at h
    exact (Option.some.inj h).symm
  match p, q, hp, hq with
  | .int m, .int n, hp, hq =>
    obtain rfl : (m : ℚ) = x := Option.some.inj hp
    obtain rfl : (n : ℚ) = y := Option.some.inj hq
    rw [hint ha, hint hb]
    have hle : m ≤ n := by exact_mod_cast hxy
    exact c.clamp_mono (by omega)
  | .float d, .float e, hp, hq =>
    obtain rfl : d.value = x := Option.some.inj hp
    obtain rfl : e.value = y := Option.some.inj hq
    rw [hfloat ha, hfloat hb]
    exact c.clamp_mono (nearestLevel_mono (by linarith))
  | .int m, .float e, hp, hq =>
    obtain rfl : (m : ℚ) = x := Option.some.inj hp
    obtain rfl : e.value = y := Option.some.inj hq
    rw [hfloat hb, hint ha]
    -- the level of the integer, as far as it matters
    have hle : nearestLevel (c.center - e.value) ≤ nearestLevel ((max (-1) (c.center - m) : ℤ) : ℚ) := by
      refine nearestLevel_mono ?_
      have hmaxle : ((c.center - m : ℤ) : ℚ) ≤ ((max (-1) (c.center - m) : ℤ) : ℚ) := by
        exact_mod_cast le_max_right _ _
      push_cast at hmaxle ⊢
      linarith
    rcases le_or_gt (max (-1) (c.center - m) : ℤ) maxPriorityLevels with hsmall | hbig
    · rw [nearestLevel_intCast (le_max_left _ _) hsmall] at hle
      refine (c.clamp_mono hle).trans_eq ?_
      unfold Config.clamp
      omega
    · have htop : c.clamp (c.center - m) = c.levels - 1 := by
        unfold Config.clamp
        omega
      have := c.clamp_lt (nearestLevel (c.center - e.value))
      omega
  | .float d, .int n, hp, hq =>
    obtain rfl : d.value = x := Option.some.inj hp
    obtain rfl : (n : ℚ) = y := Option.some.inj hq
    rw [hfloat ha, hint hb]
    have hle : nearestLevel ((min maxPriorityLevels (c.center - n) : ℤ) : ℚ) ≤
        nearestLevel (c.center - d.value) := by
      refine nearestLevel_mono ?_
      have hminle : ((min maxPriorityLevels (c.center - n) : ℤ) : ℚ) ≤ ((c.center - n : ℤ) : ℚ) := by
        exact_mod_cast min_le_right _ _
      push_cast at hminle ⊢
      linarith
    rcases le_or_gt (-1) (min maxPriorityLevels (c.center - n) : ℤ) with hsmall | hbig
    · rw [nearestLevel_intCast hsmall (min_le_left _ _)] at hle
      refine (c.clamp_mono hle).trans' (le_of_eq ?_)
      unfold Config.clamp
      omega
    · have hbottom : c.clamp (c.center - n) = 0 := by
        unfold Config.clamp
        omega
      omega

end Levels

/-! ## The strategy -/

variable {α : Type*}

/-- The physical queues of a backend, and the number of tokens that it has issued. -/
structure Backend (α : Type*) where
  queues : Str → List α
  issued : ℕ

/-- `push` on the backend -/
def Backend.push (b : Backend α) (name : Str) (item : α) : Backend α :=
  { b with queues := Function.update b.queues name (b.queues name ++ [item]) }

/-- `pop` on the backend. In a sequential run nothing comes while it waits, so that the timeout makes no
difference to what it returns. -/
def Backend.pop (b : Backend α) (name : Str) : Backend α × Option α :=
  match b.queues name with
  | [] => (b, none)
  | item :: rest => ({ b with queues := Function.update b.queues name rest }, some item)

/-- `_pop_backend_instance_with_ack`: a backend with acknowledgements issues a token with the item. -/
def Backend.popWithAck (acks : Bool) (b : Backend α) (name : Str) : Backend α × (Option α × Option ℕ) :=
  match b.pop name with
  | (b, none) => (b, none, none)
  | (b, some item) => if acks then ({ b with issued := b.issued + 1 }, some item, some b.issued)
    else (b, some item, none)

/-- `_bucket_queue`; `none` when the name cannot be encoded. -/
def Config.bucketQueue (c : Config) (queue : Str) (level : ℕ) : Option Str :=
  Names.physicalStrategyQueueName c.naming queue (str "priority") (decimal level)
    (queue ++ str ":p" ++ decimal level)

/-- One way to take from a physical queue: what it returns for an empty one, and how the strategy sees
that it has got something. -/
structure Take (α ρ : Type*) where
  take : Backend α → Str → Backend α × ρ
  nothing : ρ
  found : ρ → Bool

/-- The loop over the levels, from `level` on; `none` when it raises. -/
def scan {ρ : Type*} (t : Take α ρ) (name : ℕ → Option Str) :
    (left level : ℕ) → Backend α → Backend α × Option ρ
  | 0, _, b => (b, some t.nothing)
  | left + 1, level, b =>
    match name level with
    | none => (b, none)
    | some n =>
      let taken := t.take b n
      if t.found taken.2 then (taken.1, some taken.2) else scan t name left (level + 1) taken.1

/-- The body that `pop` and `pop_with_ack` share: a scan, and with a timeout a wait on the first level and
another scan. -/
def Config.popBy {ρ : Type*} (c : Config) (t : Take α ρ) (queue : Str) (timeout : ℚ) (b : Backend α) :
    Backend α × Option ρ :=
  if timeout < 0 then (b, none) else
  match scan t (c.bucketQueue queue) c.levels 0 b with
  | (b, none) => (b, none)
  | (b, some r) =>
    if t.found r then (b, some r)
    else if 0 < timeout then
      match c.bucketQueue queue 0 with
      | none => (b, none)
      | some n =>
        let taken := t.take b n
        if t.found taken.2 then (taken.1, some taken.2)
        else scan t (c.bucketQueue queue) c.levels 0 taken.1
    else (b, some t.nothing)

/-- How `pop` takes. -/
def plain : Take α (Option α) := ⟨Backend.pop, none, Option.isSome⟩

/-- How `pop_with_ack` takes: a token without an item is something, too. -/
def acknowledged (acks : Bool) : Take α (Option α × Option ℕ) :=
  ⟨Backend.popWithAck acks, (none, none), fun r ↦ r.1.isSome || r.2.isSome⟩

/-- `pop` -/
def Config.pop (c : Config) (queue : Str) (timeout : ℚ) (b : Backend α) :
    Backend α × Option (Option α) :=
  c.popBy plain queue timeout b

/-- `pop_with_ack` -/
def Config.popWithAck (c : Config) (acks : Bool) (queue : Str) (timeout : ℚ) (b : Backend α) :
    Backend α × Option (Option α × Option ℕ) :=
  c.popBy (acknowledged acks) queue timeout b

/-- `push`; the second component says whether it returned. -/
def Config.push (c : Config) (queue : Str) (item : α) (priority : Value) (b : Backend α) :
    Backend α × Bool :=
  match c.levelFor priority with
  | none => (b, false)
  | some level =>
    match c.bucketQueue queue level with
    | none => (b, false)
    | some name => (b.push name item, true)

/-- A call of the strategy. -/
inductive Call (α : Type*)
  | push (queue : Str) (item : α) (priority : Value)
  | pop (queue : Str) (timeout : ℚ)
  | popWithAck (queue : Str) (timeout : ℚ)

/-- The logical queue of a call. -/
def Call.queue : Call α → Str
  | .push queue _ _ => queue
  | .pop queue _ => queue
  | .popWithAck queue _ => queue

/-- What a caller sees of a call, the token apart. -/
inductive Seen (α : Type*)
  | raised
  | pushed
  | popped (item : Option α)
deriving DecidableEq, Repr

/-- One call. -/
def Config.call (c : Config) (acks : Bool) (b : Backend α) : Call α → Backend α × Seen α
  | .push queue item priority =>
    let r := c.push queue item priority b
    (r.1, if r.2 then .pushed else .raised)
  | .pop queue timeout =>
    let r := c.pop queue timeout b
    (r.1, r.2.elim .raised .popped)
  | .popWithAck queue timeout =>
    let r := c.popWithAck acks queue timeout b
    (r.1, r.2.elim .raised fun x ↦ .popped x.1)

/-- What the caller sees of some calls. -/
def Config.results (c : Config) (acks : Bool) : Backend α → List (Call α) → List (Seen α)
  | _, [] => []
  | b, a :: as => (c.call acks b a).2 :: Config.results c acks (c.call acks b a).1 as

/-- A backend without items. -/
def Backend.empty : Backend α := ⟨fun _ ↦ [], 0⟩

/-! ## The specification -/

/-- Of each logical queue the items with their levels, in the order of arrival. -/
abbrev Spec (α : Type*) := Str → List (ℕ × α)

/-- The lowest level that has an item. -/
def lowest (l : List (ℕ × α)) : Option ℕ := (l.map Prod.fst).min?

/-- The first item of a level, and what is left without it. -/
def takeOldest (level : ℕ) : List (ℕ × α) → Option α × List (ℕ × α)
  | [] => (none, [])
  | e :: l =>
    if e.1 = level then (some e.2, l)
    else ((takeOldest level l).1, e :: (takeOldest level l).2)

/-- A pop takes the oldest item of the lowest level. -/
def specPop (l : List (ℕ × α)) : Option α × List (ℕ × α) :=
  match lowest l with
  | none => (none, l)
  | some level => takeOldest level l

/-- One call: it is refused for a priority without level, for a negative timeout, and for a queue whose
name cannot be encoded. -/
def Config.specCall (c : Config) (s : Spec α) : Call α → Spec α × Seen α
  | .push queue item priority =>
    match c.levelFor priority with
    | none => (s, .raised)
    | some level =>
      if c.bucketQueue queue 0 = none then (s, .raised)
      else (Function.update s queue (s queue ++ [(level, item)]), .pushed)
  | .pop queue timeout => popCall s queue timeout
  | .popWithAck queue timeout => popCall s queue timeout
where
  /-- Both kinds of pop. -/
  popCall (s : Spec α) (queue : Str) (timeout : ℚ) : Spec α × Seen α :=
    if timeout < 0 ∨ c.bucketQueue queue 0 = none then (s, .raised)
    else (Function.update s queue (specPop (s queue)).2, .popped (specPop (s queue)).1)

/-- What the caller sees of some calls, by the specification. -/
def Config.specResults (c : Config) : Spec α → List (Call α) → List (Seen α)
  | _, [] => []
  | s, a :: as => (c.specCall s a).2 :: Config.specResults c (c.specCall s a).1 as

/-- The specification after some calls. -/
def Config.specAfter (c : Config) : Spec α → List (Call α) → Spec α
  | s, [] => s
  | s, a :: as => Config.specAfter c (c.specCall s a).1 as

/-! ## The names of the levels -/

section Naming

variable {c : Config} {queue queue' : Str} {level level' : ℕ}

theorem decimal_isAscii (n : ℕ) : (decimal n).IsAscii := by
  intro d hd
  have hdigit := decimal_isDigit n d hd
  simp only [isDigit, Bool.and_eq_true, decide_eq_true_eq] at hdigit
  unfold CodePoint.IsAscii
  omega

theorem not_mem_decimal {ch : CodePoint} (h : isDigit ch = false) (n : ℕ) : ch ∉ decimal n := by
  intro hmem
  rw [decimal_isDigit n ch hmem] at h
  simp at h

theorem decimal_injective : Function.Injective decimal := by
  intro m n h
  rw [← readDecimal_decimal m, ← readDecimal_decimal n, h]

theorem length_decimal_le (h : level < c.levels) : (decimal level).length ≤ 3 := by
  have hmax := c.le_max
  rw [maxPriorityLevels] at hmax
  unfold decimal
  split_ifs
  · simp
  · rw [List.length_map, List.length_reverse, Nat.digits_length_le_iff (by norm_num)]
    omega

theorem framed_isSome_of_isAscii {part : Str} (h : part.IsAscii) (hlength : part.length < 256 ^ 8) :
    (Names.framed part).isSome := by
  obtain ⟨n, hn⟩ := Option.isSome_iff_exists.mp (toBytes_isSome hlength)
  simp [Names.framed, encodeUtf8_ascii h, Str.ascii, hn]

theorem hashed_isSome_iff (h : level < c.levels) :
    (Names.hashed queue (str "priority") (decimal level)).isSome ↔ (Names.framed queue).isSome := by
  have hpriority : (Names.framed (str "priority")).isSome := framed_isSome_of_isAscii (by decide)
    ((by decide : (str "priority").length ≤ 8).trans_lt (by norm_num))
  obtain ⟨a, ha⟩ := Option.isSome_iff_exists.mp hpriority
  obtain ⟨b, hb⟩ := Option.isSome_iff_exists.mp
    (framed_isSome_of_isAscii (decimal_isAscii level)
      ((length_decimal_le h).trans_lt (by norm_num)))
  cases hq : Names.framed queue with
  | none => simp [Names.hashed, hq]
  | some x => simp [Names.hashed, hq, ha, hb]

/-- The backend has the old names, whatever they are. -/
def Config.LegacyAlways (c : Config) : Prop :=
  c.naming.generation = .legacyV1 ∧
    c.naming.backendType.any (· ∈ Names.legacyColonQueueBackends) = true ∧
    c.naming.backendType ≠ some (str "rabbitmq")

theorem isScalar_append_ascii {s t : Str} (ht : t.IsAscii) : (s ++ t).IsScalar ↔ s.IsScalar := by
  constructor
  · exact fun h ch hch ↦ h ch (List.mem_append_left t hch)
  · intro h ch hch
    rcases List.mem_append.mp hch with hch | hch
    · exact h ch hch
    · exact (ht ch hch).isScalar

/-- Whether a queue has names does not depend on the level. -/
theorem bucketQueue_isSome_iff (h : level < c.levels) :
    (c.bucketQueue queue level).isSome ↔ c.LegacyAlways ∨ (Names.framed queue).isSome := by
  have hhashed : (Names.strategyQueueName c.naming.hash queue (str "priority") (decimal level)).isSome ↔
      (Names.framed queue).isSome := by
    rw [Names.strategyQueueName, Option.isSome_map]
    exact hashed_isSome_iff h
  have hcolon : chr ':' ∉ decimal level := not_mem_decimal (by decide) level
  by_cases hrabbit : c.naming.backendType = some (str "rabbitmq")
  · have hnever : ¬ c.LegacyAlways := fun h ↦ h.2.2 hrabbit
    have hsuffix : (str ":p" ++ decimal level).IsAscii :=
      (by decide : (str ":p").IsAscii).append (decimal_isAscii level)
    rw [Config.bucketQueue, Names.physicalStrategyQueueName, Names.rabbitNameFits, if_neg (not_not_intro hrabbit),
      List.append_assoc]
    by_cases hscalar : queue.IsScalar
    · have hname := (isScalar_append_ascii hsuffix).mpr hscalar
      simp only [encodeUtf8, if_pos hname, Option.map_some, Option.bind_eq_bind, Option.bind_some]
      split_ifs with hlegacy
      · -- a name that fits has a short queue in front
        have hlength : (queue.flatMap utf8CodePoint).length < 256 ^ 8 := by
          have hfits := of_decide_eq_true hlegacy.2.2.1
          rw [List.flatMap_append, List.length_append] at hfits
          exact (Nat.le_of_add_right_le hfits).trans_lt (by norm_num)
        obtain ⟨n, hn⟩ := Option.isSome_iff_exists.mp (toBytes_isSome hlength)
        refine iff_of_true rfl (.inr ?_)
        simp only [Names.framed, encodeUtf8, if_pos hscalar, Option.bind_eq_bind, Option.bind_some, hn]
        rfl
      · rw [hhashed]
        simp [hnever]
    · have hname : ¬ (queue ++ (str ":p" ++ decimal level)).IsScalar := fun h ↦
        hscalar ((isScalar_append_ascii hsuffix).mp h)
      simp [encodeUtf8, hname, hnever, Names.framed, hscalar]
  · rw [Config.bucketQueue, Names.physicalStrategyQueueName, Names.rabbitNameFits, if_pos hrabbit]
    simp only [Option.bind_eq_bind, Option.bind_some]
    split_ifs with hlegacy
    · exact iff_of_true rfl (.inl ⟨hlegacy.1, hlegacy.2.1, hrabbit⟩)
    · have hnever : ¬ c.LegacyAlways := fun h ↦ hlegacy ⟨h.1, h.2.1, trivial, hcolon⟩
      rw [hhashed]
      simp [hnever]

/-- What is before the last run of digits, and that run, are determined by a text. -/
theorem append_digits_inj {s t : Str} {a b : CodePoint} {d e : Str} (ha : isDigit a = false)
    (hb : isDigit b = false) (hd : ∀ ch ∈ d, isDigit ch = true) (he : ∀ ch ∈ e, isDigit ch = true)
    (h : s ++ a :: d = t ++ b :: e) : s = t ∧ d = e := by
  have hrev : d.reverse ++ a :: s.reverse = e.reverse ++ b :: t.reverse := by
    have := congrArg List.reverse h
    simpa using this
  have htake := congrArg (List.takeWhile isDigit) hrev
  rw [List.takeWhile_append_of_pos (by simpa using hd), List.takeWhile_append_of_pos (by simpa using he),
    List.takeWhile_cons_of_neg (by simp [ha]), List.takeWhile_cons_of_neg (by simp [hb]), List.append_nil,
    List.append_nil, List.reverse_inj] at htake
  subst htake
  have hback := List.append_cancel_left hrev
  rw [List.cons.injEq, List.reverse_inj] at hback
  exact ⟨hback.2, rfl⟩

/-- Among the names of some logical queues, the digest has no collision. -/
def Config.NoCollision (c : Config) (queues : List Str) : Prop :=
  ∀ q ∈ queues, ∀ q' ∈ queues, ∀ l < c.levels, ∀ l' < c.levels, ∀ t t',
    Names.hashed q (str "priority") (decimal l) = some t →
      Names.hashed q' (str "priority") (decimal l') = some t' →
        c.naming.hash.hexdigest t = c.naming.hash.hexdigest t' → t = t'

/-- Without collisions, a physical queue belongs to one level of one logical queue. -/
theorem bucketQueue_inj {queues : List Str} (hno : c.NoCollision queues) (hq : queue ∈ queues)
    (hq' : queue' ∈ queues) (hl : level < c.levels) (hl' : level' < c.levels) {name : Str}
    (h : c.bucketQueue queue level = some name) (h' : c.bucketQueue queue' level' = some name) :
    queue = queue' ∧ level = level' := by
  have hspace : chr ':' ∉ str "priority" := by decide
  have hcolon : ∀ q l, chr ':' ∈ q ++ str ":p" ++ decimal l := by
    intro q l
    exact List.mem_append_left _ (List.mem_append_right _ (by decide))
  rcases Names.physicalStrategyQueueName_cases h with hlegacy | hdigest <;>
    rcases Names.physicalStrategyQueueName_cases h' with hlegacy' | hdigest'
  · have hsame : (queue ++ [chr ':']) ++ chr 'p' :: decimal level =
        (queue' ++ [chr ':']) ++ chr 'p' :: decimal level' := by
      have heq := hlegacy.symm.trans hlegacy'
      simpa [str] using heq
    obtain ⟨hfront, hdigits⟩ := append_digits_inj (by decide) (by decide) (decimal_isDigit level)
      (decimal_isDigit level') hsame
    exact ⟨List.append_cancel_right hfront, decimal_injective hdigits⟩
  · exact absurd (hlegacy ▸ hcolon queue level) (Names.colon_not_mem_strategyQueueName hspace hdigest')
  · exact absurd (hlegacy' ▸ hcolon queue' level') (Names.colon_not_mem_strategyQueueName hspace hdigest)
  · obtain ⟨t, ht, hname⟩ := Option.map_eq_some_iff.mp hdigest
    obtain ⟨t', ht', hname'⟩ := Option.map_eq_some_iff.mp hdigest'
    obtain rfl := hno queue hq queue' hq' level hl level' hl' t t' ht ht'
      (List.append_cancel_left (hname.trans hname'.symm))
    obtain ⟨hqueue, -, hdigits⟩ := Names.hashed_inj ht ht'
    exact ⟨hqueue, decimal_injective hdigits⟩

end Naming

/-! ## The scan -/

section Scan

variable {ρ : Type*}

/-- A way of taking is lawful if an empty queue gives nothing, and another one its first item. -/
structure Take.Lawful (t : Take α ρ) (item : ρ → Option α) : Prop where
  found_nothing : t.found t.nothing = false
  item_nothing : item t.nothing = none
  empty : ∀ b n, b.queues n = [] → t.take b n = (b, t.nothing)
  cons : ∀ b n x rest, b.queues n = x :: rest →
    (t.take b n).1.queues = Function.update b.queues n rest ∧ t.found (t.take b n).2 = true ∧
      item (t.take b n).2 = some x

theorem lawful_plain : (plain : Take α (Option α)).Lawful id := by
  refine ⟨rfl, rfl, fun b n h ↦ ?_, fun b n x rest h ↦ ?_⟩
  · simp [plain, Backend.pop, h]
  · simp [plain, Backend.pop, h]

theorem lawful_acknowledged (acks : Bool) :
    (acknowledged acks : Take α (Option α × Option ℕ)).Lawful Prod.fst := by
  refine ⟨rfl, rfl, fun b n h ↦ ?_, fun b n x rest h ↦ ?_⟩
  · simp [acknowledged, Backend.popWithAck, Backend.pop, h]
  · cases acks <;> simp [acknowledged, Backend.popWithAck, Backend.pop, h]

variable {t : Take α ρ} {item : ρ → Option α} {b : Backend α} {name : ℕ → Option Str}

theorem scan_of_empty (ht : t.Lawful item) (left : ℕ) {level : ℕ}
    (h : ∀ l, level ≤ l → l < level + left → ∃ n, name l = some n ∧ b.queues n = []) :
    scan t name left level b = (b, some t.nothing) := by
  induction left generalizing level with
  | zero => rfl
  | succ left ih =>
    obtain ⟨n, hn, hempty⟩ := h level le_rfl (by omega)
    simp only [scan, hn, ht.empty b n hempty, ht.found_nothing]
    exact ih fun l hlow hhigh ↦ h l (by omega) (by omega)

/-- The scan takes from the first level that has something. -/
theorem scan_of_first (ht : t.Lawful item) (left : ℕ) {level first : ℕ} {n : Str} {x : α} {rest : List α}
    (hlow : level ≤ first) (hhigh : first < level + left)
    (h : ∀ l, level ≤ l → l < first → ∃ n, name l = some n ∧ b.queues n = [])
    (hn : name first = some n) (hcons : b.queues n = x :: rest) :
    scan t name left level b = ((t.take b n).1, some (t.take b n).2) := by
  induction left generalizing level with
  | zero => omega
  | succ left ih =>
    rcases hlow.eq_or_lt with rfl | hlt
    · simp only [scan, hn, (ht.cons b n x rest hcons).2.1, if_true]
    · obtain ⟨n', hn', hempty⟩ := h level le_rfl hlt
      simp only [scan, hn', ht.empty b n' hempty, ht.found_nothing]
      exact ih hlt (by omega) fun l hl hl' ↦ h l (by omega) hl'

variable {c : Config} {queue : Str} {timeout : ℚ}

theorem popBy_of_empty (ht : t.Lawful item) (htimeout : 0 ≤ timeout)
    (h : ∀ l < c.levels, ∃ n, c.bucketQueue queue l = some n ∧ b.queues n = []) :
    c.popBy t queue timeout b = (b, some t.nothing) := by
  have hscan : scan t (c.bucketQueue queue) c.levels 0 b = (b, some t.nothing) :=
    scan_of_empty ht c.levels fun l _ hl ↦ h l (by omega)
  obtain ⟨n, hn, hempty⟩ := h 0 c.pos
  simp only [Config.popBy, if_neg (not_lt.mpr htimeout), hscan, ht.found_nothing, hn,
    ht.empty b n hempty]
  simp

theorem popBy_of_first (ht : t.Lawful item) (htimeout : 0 ≤ timeout) {first : ℕ} {n : Str} {x : α}
    {rest : List α} (hfirst : first < c.levels)
    (h : ∀ l < first, ∃ n, c.bucketQueue queue l = some n ∧ b.queues n = [])
    (hn : c.bucketQueue queue first = some n) (hcons : b.queues n = x :: rest) :
    c.popBy t queue timeout b = ((t.take b n).1, some (t.take b n).2) := by
  have hscan : scan t (c.bucketQueue queue) c.levels 0 b = ((t.take b n).1, some (t.take b n).2) :=
    scan_of_first ht c.levels (Nat.zero_le first) (by omega) (fun l _ hl ↦ h l hl) hn hcons
  simp only [Config.popBy, if_neg (not_lt.mpr htimeout), hscan, (ht.cons b n x rest hcons).2.1, if_true]

theorem popBy_of_unnamed (htimeout : 0 ≤ timeout) (h : c.bucketQueue queue 0 = none) :
    c.popBy t queue timeout b = (b, none) := by
  obtain ⟨left, hleft⟩ : ∃ left, c.levels = left + 1 := ⟨c.levels - 1, by have := c.pos; omega⟩
  simp only [Config.popBy, if_neg (not_lt.mpr htimeout), hleft, scan, h]

theorem popBy_of_neg (htimeout : timeout < 0) : c.popBy t queue timeout b = (b, none) := by
  simp only [Config.popBy, if_pos htimeout]

end Scan

/-! ## The oldest item of the lowest level -/

section Oldest

variable {l : List (ℕ × α)} {level other : ℕ}

/-- The items of a level. -/
def ofLevel (level : ℕ) (l : List (ℕ × α)) : List α := (l.filter (·.1 = level)).map Prod.snd

theorem lowest_eq_none_iff : lowest l = none ↔ l = [] := by
  simp [lowest, List.min?_eq_none_iff]

theorem ofLevel_of_lt_lowest (h : lowest l = some level) (hlt : other < level) : ofLevel other l = [] := by
  rw [lowest, List.min?_eq_some_iff] at h
  rw [ofLevel, List.map_eq_nil_iff, List.filter_eq_nil_iff]
  intro e he
  have hle := h.2 e.1 (List.mem_map_of_mem he)
  simpa using (by omega : e.1 ≠ other)

theorem ofLevel_lowest_ne_nil (h : lowest l = some level) : ofLevel level l ≠ [] := by
  rw [lowest, List.min?_eq_some_iff] at h
  obtain ⟨e, he, rfl⟩ := List.mem_map.mp h.1
  rw [ofLevel, Ne, List.map_eq_nil_iff, List.filter_eq_nil_iff]
  exact fun hnone ↦ hnone e he (by simp)

private theorem takeOldest_nil (level : ℕ) : takeOldest level ([] : List (ℕ × α)) = (none, []) := rfl

private theorem takeOldest_cons (level : ℕ) (e : ℕ × α) (l : List (ℕ × α)) :
    takeOldest level (e :: l) =
      if e.1 = level then (some e.2, l) else ((takeOldest level l).1, e :: (takeOldest level l).2) := rfl

/-- The item that is taken is the first of its level. -/
theorem takeOldest_fst (level : ℕ) (l : List (ℕ × α)) : (takeOldest level l).1 = (ofLevel level l).head? := by
  induction l with
  | nil => rfl
  | cons e l ih =>
    by_cases he : e.1 = level
    · simp [takeOldest_cons, ofLevel, he]
    · simpa [takeOldest_cons, ofLevel, he] using ih

theorem ofLevel_takeOldest (level other : ℕ) (l : List (ℕ × α)) :
    ofLevel other (takeOldest level l).2 =
      if other = level then (ofLevel level l).tail else ofLevel other l := by
  induction l with
  | nil => simp [takeOldest_nil, ofLevel]
  | cons e l ih =>
    by_cases he : e.1 = level
    · by_cases ho : other = level
      · simp [takeOldest_cons, ofLevel, he, ho]
      · simp [takeOldest_cons, ofLevel, he, ho, Ne.symm ho]
    · by_cases ho : other = level
      · subst ho
        simpa [takeOldest_cons, ofLevel, he] using ih
      · by_cases heo : e.1 = other
        · simpa [takeOldest_cons, ofLevel, he, heo, ho] using ih
        · simpa [takeOldest_cons, ofLevel, he, heo, ho] using ih

theorem takeOldest_subset (level : ℕ) (l : List (ℕ × α)) : ∀ e ∈ (takeOldest level l).2, e ∈ l := by
  induction l with
  | nil => simp [takeOldest_nil]
  | cons e l ih =>
    intro f hf
    by_cases he : e.1 = level
    · rw [takeOldest_cons, if_pos he] at hf
      exact List.mem_cons_of_mem e hf
    · rw [takeOldest_cons, if_neg he] at hf
      rcases List.mem_cons.mp hf with rfl | hf
      · exact List.mem_cons_self
      · exact List.mem_cons_of_mem e (ih f hf)

/-- Nothing is lost or made up. -/
theorem perm_takeOldest (level : ℕ) (l : List (ℕ × α)) :
    (l.map Prod.snd).Perm ((takeOldest level l).1.toList ++ (takeOldest level l).2.map Prod.snd) := by
  induction l with
  | nil => simp [takeOldest_nil]
  | cons e l ih =>
    by_cases he : e.1 = level
    · simp [takeOldest_cons, he]
    · rw [takeOldest_cons, if_neg he]
      exact (ih.cons e.2).trans List.perm_middle.symm

theorem perm_specPop (l : List (ℕ × α)) :
    (l.map Prod.snd).Perm ((specPop l).1.toList ++ (specPop l).2.map Prod.snd) := by
  unfold specPop
  split
  · simp
  · exact perm_takeOldest _ l

end Oldest

/-! ## Refinement -/

section Refinement

variable {c : Config} {queues : List Str} {b : Backend α} {s : Spec α} {queue : Str}

/-- The physical queues are the parts of the lists. -/
structure Sim (c : Config) (queues : List Str) (b : Backend α) (s : Spec α) : Prop where
  parts : ∀ q ∈ queues, ∀ l < c.levels, ∀ n, c.bucketQueue q l = some n → b.queues n = ofLevel l (s q)
  levels : ∀ q ∈ queues, ∀ e ∈ s q, e.1 < c.levels

theorem sim_empty (c : Config) (queues : List Str) : Sim c queues (Backend.empty : Backend α) fun _ ↦ [] :=
  ⟨fun _ _ _ _ _ _ ↦ rfl, fun _ _ _ he ↦ absurd he List.not_mem_nil⟩

/-- One level of one logical queue changes, and so does its physical queue. -/
theorem Sim.update (h : Sim c queues b s) (hno : c.NoCollision queues) (hq : queue ∈ queues) {level : ℕ}
    (hl : level < c.levels) {name : Str} (hn : c.bucketQueue queue level = some name) {b' : Backend α}
    {l : List (ℕ × α)} (hb : b'.queues = Function.update b.queues name (ofLevel level l))
    (hother : ∀ k, k ≠ level → ofLevel k l = ofLevel k (s queue)) (hlevels : ∀ e ∈ l, e.1 < c.levels) :
    Sim c queues b' (Function.update s queue l) := by
  refine ⟨fun q hmem k hk n hname ↦ ?_, fun q hmem e he ↦ ?_⟩
  · rw [hb]
    by_cases hsame : q = queue ∧ k = level
    · obtain ⟨rfl, rfl⟩ := hsame
      obtain rfl : n = name := Option.some.inj (hname.symm.trans hn)
      rw [Function.update_self, Function.update_self]
    · -- another part has another name
      have hne : n ≠ name := by
        rintro rfl
        exact hsame (bucketQueue_inj hno hmem hq hk hl hname hn)
      rw [Function.update_of_ne hne, h.parts q hmem k hk n hname]
      by_cases hqueue : q = queue
      · subst hqueue
        rw [Function.update_self, hother k fun hkl ↦ hsame ⟨rfl, hkl⟩]
      · rw [Function.update_of_ne hqueue]
  · by_cases hqueue : q = queue
    · subst hqueue
      rw [Function.update_self] at he
      exact hlevels e he
    · rw [Function.update_of_ne hqueue] at he
      exact h.levels q hmem e he

theorem exists_bucketQueue (h : c.bucketQueue queue 0 ≠ none) {level : ℕ} (hl : level < c.levels) :
    ∃ n, c.bucketQueue queue level = some n := by
  have hzero : (c.bucketQueue queue 0).isSome := Option.isSome_iff_ne_none.mpr h
  rw [bucketQueue_isSome_iff c.pos, ← bucketQueue_isSome_iff hl] at hzero
  exact Option.isSome_iff_exists.mp hzero

theorem Sim.push (h : Sim c queues b s) (hno : c.NoCollision queues) (hq : queue ∈ queues) {level : ℕ}
    (hl : level < c.levels) {name : Str} (hn : c.bucketQueue queue level = some name) (item : α) :
    Sim c queues (b.push name item) (Function.update s queue (s queue ++ [(level, item)])) := by
  refine h.update hno hq hl hn ?_ (fun k hk ↦ ?_) fun e he ↦ ?_
  · rw [Backend.push, h.parts queue hq level hl name hn]
    simp [ofLevel]
  · simp [ofLevel, Ne.symm hk]
  · rcases List.mem_append.mp he with he | he
    · exact h.levels queue hq e he
    · rw [List.mem_singleton.mp he]
      exact hl

/-- Either kind of pop takes what the specification takes. -/
theorem Sim.popBy {ρ : Type*} {t : Take α ρ} {item : ρ → Option α} (ht : t.Lawful item)
    (h : Sim c queues b s) (hno : c.NoCollision queues) (hq : queue ∈ queues) {timeout : ℚ}
    (htimeout : 0 ≤ timeout) (hnamed : c.bucketQueue queue 0 ≠ none) :
    ∃ r, (c.popBy t queue timeout b).2 = some r ∧ item r = (specPop (s queue)).1 ∧
      Sim c queues (c.popBy t queue timeout b).1 (Function.update s queue (specPop (s queue)).2) := by
  cases hlowest : lowest (s queue) with
  | none =>
    have hnil := lowest_eq_none_iff.mp hlowest
    have hspec : specPop (s queue) = (none, s queue) := by simp [specPop, hlowest]
    have hpop : c.popBy t queue timeout b = (b, some t.nothing) := by
      refine popBy_of_empty ht htimeout fun l hl ↦ ?_
      obtain ⟨n, hn⟩ := exists_bucketQueue hnamed hl
      exact ⟨n, hn, by rw [h.parts queue hq l hl n hn, hnil]; rfl⟩
    rw [hspec, hpop]
    exact ⟨t.nothing, rfl, ht.item_nothing, by rwa [Function.update_eq_self]⟩
  | some level =>
    have hspec : specPop (s queue) = takeOldest level (s queue) := by simp [specPop, hlowest]
    have hl : level < c.levels := by
      rw [lowest, List.min?_eq_some_iff] at hlowest
      obtain ⟨e, he, rfl⟩ := List.mem_map.mp hlowest.1
      exact h.levels queue hq e he
    obtain ⟨n, hn⟩ := exists_bucketQueue hnamed hl
    have hpart := h.parts queue hq level hl n hn
    obtain ⟨x, rest, hcons⟩ := List.exists_cons_of_ne_nil (ofLevel_lowest_ne_nil hlowest)
    rw [hcons] at hpart
    have hpop : c.popBy t queue timeout b = ((t.take b n).1, some (t.take b n).2) := by
      refine popBy_of_first ht htimeout hl (fun k hk ↦ ?_) hn hpart
      obtain ⟨m, hm⟩ := exists_bucketQueue hnamed (hk.trans hl)
      exact ⟨m, hm, by
        rw [h.parts queue hq k (hk.trans hl) m hm, ofLevel_of_lt_lowest hlowest hk]⟩
    obtain ⟨hqueues, -, hitem⟩ := ht.cons b n x rest hpart
    rw [hspec, hpop]
    refine ⟨_, rfl, ?_, ?_⟩
    · rw [hitem, takeOldest_fst, hcons, List.head?_cons]
    · refine h.update hno hq hl hn ?_ (fun k hk ↦ ?_) fun e he ↦ ?_
      · rw [hqueues, ofLevel_takeOldest, if_pos rfl, hcons, List.tail_cons]
      · rw [ofLevel_takeOldest, if_neg hk]
      · exact h.levels queue hq e (takeOldest_subset level _ e he)

/-- One call: the caller sees the same, and the physical queues remain the parts. -/
theorem sim_call (h : Sim c queues b s) (hno : c.NoCollision queues) (acks : Bool) (a : Call α)
    (hq : a.queue ∈ queues) :
    Sim c queues (c.call acks b a).1 (c.specCall s a).1 ∧ (c.call acks b a).2 = (c.specCall s a).2 := by
  -- what both kinds of pop have in common
  have hpop : ∀ {ρ : Type _} {t : Take α ρ} {item : ρ → Option α}, t.Lawful item → ∀ {q timeout},
      q ∈ queues →
      Sim c queues (c.popBy t q timeout b).1 (Config.specCall.popCall c s q timeout).1 ∧
        (c.popBy t q timeout b).2.elim .raised (fun r ↦ .popped (item r)) =
          (Config.specCall.popCall c s q timeout).2 := by
    intro ρ t item ht q timeout hq
    rw [Config.specCall.popCall]
    rcases lt_or_ge timeout 0 with htimeout | htimeout
    · rw [if_pos (.inl htimeout), popBy_of_neg htimeout]
      exact ⟨h, rfl⟩
    by_cases hnamed : c.bucketQueue q 0 = none
    · rw [if_pos (.inr hnamed), popBy_of_unnamed htimeout hnamed]
      exact ⟨h, rfl⟩
    · rw [if_neg (not_or.mpr ⟨not_lt.mpr htimeout, hnamed⟩)]
      obtain ⟨r, hr, hitem, hsim⟩ := h.popBy ht hno hq htimeout hnamed
      refine ⟨hsim, ?_⟩
      rw [hr, Option.elim_some, hitem]
  cases a with
  | pop q timeout => exact hpop lawful_plain hq
  | popWithAck q timeout => exact hpop (lawful_acknowledged acks) hq
  | push q item priority =>
    cases hlevel : c.levelFor priority with
    | none => simpa [Config.call, Config.push, Config.specCall, hlevel] using h
    | some level =>
      have hl : level < c.levels := by
        obtain ⟨raw, -, rfl⟩ := Option.map_eq_some_iff.mp hlevel
        exact c.clamp_lt raw
      by_cases hzero : c.bucketQueue q 0 = none
      · have hnone : c.bucketQueue q level = none := by
          rw [← Option.not_isSome_iff_eq_none, bucketQueue_isSome_iff hl, ← bucketQueue_isSome_iff c.pos,
            hzero]
          simp
        simpa [Config.call, Config.push, Config.specCall, hlevel, hzero, hnone] using h
      · have hq : q ∈ queues := hq
        obtain ⟨n, hn⟩ := exists_bucketQueue hzero hl
        simpa [Config.call, Config.push, Config.specCall, hlevel, hzero, hn] using
          h.push hno hq hl hn item

theorem results_eq_specResults (h : Sim c queues b s) (hno : c.NoCollision queues) (acks : Bool)
    (as : List (Call α)) (hqueues : ∀ a ∈ as, a.queue ∈ queues) :
    c.results acks b as = c.specResults s as := by
  induction as generalizing b s with
  | nil => rfl
  | cons a as ih =>
    rw [List.forall_mem_cons] at hqueues
    obtain ⟨hsim, hseen⟩ := sim_call h hno acks a hqueues.1
    rw [Config.results, Config.specResults, hseen, ih hsim hqueues.2]

/-- The item, if a call pushed it to a logical queue. -/
def pushedTo (queue : Str) : Call α × Seen α → Option α
  | (.push q item _, .pushed) => if q = queue then some item else none
  | _ => none

/-- The item, if a call returned it from a logical queue. -/
def returnedFrom (queue : Str) : Call α × Seen α → Option α
  | (.pop q _, .popped item) => if q = queue then item else none
  | (.popWithAck q _, .popped item) => if q = queue then item else none
  | _ => none

theorem perm_popCall (c : Config) (s : Spec α) (q : Str) (timeout : ℚ) (queue : Str) {seen : Seen α}
    (hseen : (Config.specCall.popCall c s q timeout).2 = seen) :
    ((s queue).map Prod.snd).Perm
      ((returnedFrom queue (.pop q timeout, seen)).toList ++
        ((Config.specCall.popCall c s q timeout).1 queue).map Prod.snd) := by
  subst hseen
  rw [Config.specCall.popCall]
  by_cases hraised : timeout < 0 ∨ c.bucketQueue q 0 = none
  · simp [if_pos hraised, returnedFrom]
  · rw [if_neg hraised]
    by_cases hq : q = queue
    · subst hq
      simpa [returnedFrom] using perm_specPop (s q)
    · simp [returnedFrom, hq, Function.update_of_ne (Ne.symm hq)]

theorem perm_specCall (c : Config) (s : Spec α) (a : Call α) (queue : Str) :
    ((s queue).map Prod.snd ++ (pushedTo queue (a, (c.specCall s a).2)).toList).Perm
      ((returnedFrom queue (a, (c.specCall s a).2)).toList ++ ((c.specCall s a).1 queue).map Prod.snd) := by
  cases a with
  | pop q timeout => simpa [pushedTo, Config.specCall] using perm_popCall c s q timeout queue rfl
  | popWithAck q timeout =>
    have hpop := perm_popCall c s q timeout queue rfl
    simp only [Config.specCall]
    cases hseen : (Config.specCall.popCall c s q timeout).2 <;>
      simpa [hseen, pushedTo, returnedFrom] using hpop
  | push q item priority =>
    cases hlevel : c.levelFor priority with
    | none => simp [Config.specCall, hlevel, pushedTo, returnedFrom]
    | some level =>
      by_cases hzero : c.bucketQueue q 0 = none
      · simp [Config.specCall, hlevel, hzero, pushedTo, returnedFrom]
      · by_cases hq : q = queue
        · subst hq
          simp [Config.specCall, hlevel, hzero, pushedTo, returnedFrom]
        · simp [Config.specCall, hlevel, hzero, pushedTo, returnedFrom, hq,
            Function.update_of_ne (Ne.symm hq)]

/-- Over a run: what was held and what was pushed is what was returned and what is held then. -/
theorem perm_specAfter (c : Config) (s : Spec α) (as : List (Call α)) (queue : Str) :
    ((s queue).map Prod.snd ++ (as.zip (c.specResults s as)).filterMap (pushedTo queue)).Perm
      ((as.zip (c.specResults s as)).filterMap (returnedFrom queue) ++
        (c.specAfter s as queue).map Prod.snd) := by
  induction as generalizing s with
  | nil => simp [Config.specResults, Config.specAfter]
  | cons a as ih =>
    have hcall := perm_specCall c s a queue
    have hrest := ih (c.specCall s a).1
    have hcons : ∀ (f : Call α × Seen α → Option α) (e : Call α × Seen α) l,
        (e :: l).filterMap f = (f e).toList ++ l.filterMap f := by
      intro f e l
      cases hf : f e <;> simp [hf]
    rw [Config.specResults, Config.specAfter, List.zip_cons_cons, hcons, hcons, ← List.append_assoc]
    refine (hcall.append_right _).trans ?_
    rw [List.append_assoc, List.append_assoc]
    exact hrest.append_left _

theorem specPop_eq_none_iff (l : List (ℕ × α)) : (specPop l).1 = none ↔ l = [] := by
  unfold specPop
  split
  · next h => simpa using lowest_eq_none_iff.mp h
  · next level h =>
    rw [takeOldest_fst, List.head?_eq_none_iff]
    refine iff_of_false (ofLevel_lowest_ne_nil h) ?_
    rintro rfl
    simp [lowest] at h

/-- **Refinement.** Every run over queues that are first in, first out shows what the stable bucketed
priority queue shows, unless the digest of the names collides: a pop returns the oldest item of the lowest
level, and nothing only if there is none; what was pushed to a queue is what was returned from it and what
it still holds. The levels are in range, and antitone over integers and floats together. -/
theorem priority_refines (c : Config) (acks : Bool) (as : List (Call α))
    (hno : c.NoCollision (as.map Call.queue)) :
    c.results acks Backend.empty as = c.specResults (fun _ ↦ []) as ∧
    (∀ l : List (ℕ × α), (specPop l).1 = none ↔ l = []) ∧
    (∀ queue, ((as.zip (c.results acks Backend.empty as)).filterMap (pushedTo queue)).Perm
      ((as.zip (c.results acks Backend.empty as)).filterMap (returnedFrom queue) ++
        (c.specAfter (fun _ ↦ []) as queue).map Prod.snd)) ∧
    (∀ priority level, c.levelFor priority = some level → level < c.levels) ∧
    (∀ d, (c.levelFor (.float d)).isSome) ∧
    (∀ p q x y i j, p.number? = some x → q.number? = some y → c.levelFor p = some i →
      c.levelFor q = some j → (x < y → j ≤ i) ∧ (x = y → i = j)) := by
  have hresults : c.results acks (Backend.empty : Backend α) as = c.specResults (fun _ ↦ []) as :=
    results_eq_specResults (sim_empty c _) hno acks as fun a ha ↦ List.mem_map_of_mem ha
  refine ⟨hresults, specPop_eq_none_iff, fun queue ↦ ?_, fun priority level h ↦ ?_, fun d ↦ ?_, ?_⟩
  · rw [hresults]
    simpa using perm_specAfter c (fun _ ↦ []) as queue
  · obtain ⟨raw, -, rfl⟩ := Option.map_eq_some_iff.mp h
    exact c.clamp_lt raw
  · simp [Config.levelFor, rawLevel_float]
  · intro p q x y i j hp hq hi hj
    refine ⟨fun hlt ↦ levelFor_antitone hp hq hi hj hlt.le, fun heq ↦ ?_⟩
    exact le_antisymm (levelFor_antitone hq hp hj hi heq.ge) (levelFor_antitone hp hq hi hj heq.le)

/-- The digests of the two levels of the queue `q`. -/
def twoDigests (text : Bytes) : Str :=
  if Names.hashed (str "q") (str "priority") (decimal 0) = some text then
    str "87670f11881c93a575c75926cba82ad6"
  else if Names.hashed (str "q") (str "priority") (decimal 1) = some text then
    str "c3480423a891404eb41394c65bad0342"
  else []

theorem twoDigests_all (text : Bytes) :
    (twoDigests text).all (fun d ↦ decide (d ∈ str "0123456789abcdef")) = true := by
  unfold twoDigests
  split_ifs <;> decide

/-- Two levels, with current names. -/
def twoLevels : Config where
  levels := 2
  pos := Nat.zero_lt_two
  le_max := by decide
  naming :=
    { hash := ⟨twoDigests, fun text d hd ↦ of_decide_eq_true (List.all_eq_true.mp (twoDigests_all text) d hd)⟩
      generation := .v2
      backendType := some (str "redis") }

theorem noCollision_twoLevels : twoLevels.NoCollision [str "q", str "q"] := by
  have hdigests : ∀ l < 2, ∀ l' < 2,
      ∀ t ∈ Names.hashed (str "q") (str "priority") (decimal l),
      ∀ t' ∈ Names.hashed (str "q") (str "priority") (decimal l'),
        twoDigests t = twoDigests t' → t = t' := by
    decide
  intro q hq q' hq' l hl l' hl' t t' ht ht' heq
  obtain rfl : q = str "q" := by simpa using hq
  obtain rfl : q' = str "q" := by simpa using hq'
  exact hdigests l hl l' hl' t ht t' ht' heq

theorem priority_refines_twoLevels : twoLevels.NoCollision [str "q", str "q"] ∧
    twoLevels.results true (Backend.empty : Backend ℕ) [.push (str "q") 7 (.int 5), .pop (str "q") 1] =
      twoLevels.specResults (fun _ ↦ []) [.push (str "q") 7 (.int 5), .pop (str "q") 1] :=
  ⟨noCollision_twoLevels,
    (priority_refines twoLevels true [.push (str "q") 7 (.int 5), .pop (str "q") 1]
      noCollision_twoLevels).1⟩

end Refinement

end Priority

end ScrapyExtension
