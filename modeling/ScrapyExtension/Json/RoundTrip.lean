import ScrapyExtension.Json.Parse

/-!
# Reading back what was written

`loads_dumps`: reading the text of a tree yields what the hooks make of the tree, in either
layout and whatever the hooks do. The proof follows the scanner: strings, numbers and literals
are read back in front of any continuation that cannot extend them, and the three mutually
recursive readers are then handled by one induction over the tree.

The only continuation that matters is the one after a number, since nothing else is read
greedily; `NumberEnd` says that it does not extend one.
-/

namespace Json

open Py

/-! ## Strings -/

private theorem hex4_hexDigit {n : ℕ} (hn : n < 0x10000) :
    hex4 (hexDigit (Fin.ofNat 16 (n / 4096))) (hexDigit (Fin.ofNat 16 (n / 256)))
      (hexDigit (Fin.ofNat 16 (n / 16))) (hexDigit (Fin.ofNat 16 n)) = some n := by
  simp only [hex4, hexValue_hexDigit, Fin.val_ofNat, Option.bind_eq_bind, Option.bind_some]
  congr 1
  omega

/-- Prepend to the string that was read. -/
private def consRead (c : CodePoint) (r : Option (Str × Str)) : Option (Str × Str) :=
  r.map fun (t, rest) ↦ (c :: t, rest)

private theorem scanString_quote (rest : Str) : scanString (chr '"' :: rest) = some ([], rest) := by
  rw [scanString.eq_def]
  rfl

private theorem scanString_simple {e c : CodePoint} (he : e ≠ chr 'u') (hc : unescape e = some c)
    (s : Str) : scanString (chr '\\' :: e :: s) = consRead c (scanString s) := by
  have hq : chr '\\' ≠ chr '"' := by decide
  rw [scanString.eq_def]
  simp only [if_neg hq, if_true, if_neg he, hc]
  rfl

private theorem scanString_literal {c : CodePoint} (hq : c ≠ chr '"') (hb : c ≠ chr '\\')
    (hc : ¬ c.val < 0x20) (s : Str) : scanString (c :: s) = consRead c (scanString s) := by
  rw [scanString.eq_def]
  simp only [if_neg hq, if_neg hb, if_neg hc]
  rfl

/-- An escape is read by itself, unless it is a high surrogate in front of a low one. -/
private theorem scanString_unicode {n : ℕ} (hn : n < 0x10000) {s : Str}
    (hs : 0xD800 ≤ n ∧ n < 0xDC00 → lowSurrogate? s = none) :
    scanString (unicodeEscape n ++ s) = consRead (Fin.ofNat _ n) (scanString s) := by
  have hq : chr '\\' ≠ chr '"' := by decide
  rw [unicodeEscape, scanString.eq_def]
  simp only [List.cons_append, List.nil_append, if_neg hq, if_true, hex4_hexDigit hn]
  split_ifs with hhigh
  · rw [hs hhigh]
    rfl
  · rfl

private theorem lowSurrogate?_unicode {m : ℕ} (hm : 0xDC00 ≤ m ∧ m < 0xE000) (s : Str) :
    lowSurrogate? (unicodeEscape m ++ s) = some m := by
  simp only [unicodeEscape, List.cons_append, List.nil_append, lowSurrogate?, and_self, if_true]
  rw [hex4_hexDigit (by omega)]
  simp [hm]

private theorem scanString_pair {n m : ℕ} (hn : 0xD800 ≤ n ∧ n < 0xDC00)
    (hm : 0xDC00 ≤ m ∧ m < 0xE000) (s : Str) :
    scanString (unicodeEscape n ++ (unicodeEscape m ++ s)) =
      consRead (Fin.ofNat _ (0x10000 + (n - 0xD800) * 0x400 + (m - 0xDC00))) (scanString s) := by
  have hq : chr '\\' ≠ chr '"' := by decide
  have hlow := lowSurrogate?_unicode hm s
  rw [scanString.eq_def]
  rw [unicodeEscape] at hlow ⊢
  simp only [unicodeEscape, List.cons_append, List.nil_append] at hlow ⊢
  simp only [if_neg hq, if_true, hex4_hexDigit (show n < 0x10000 by omega), if_pos hn, hlow]
  rfl

/-- The forms of an escape. -/
inductive Escaped (ensureAscii : Bool) (c : CodePoint) : Str → Prop
  /-- A backslash and a letter. -/
  | short {e : CodePoint} : e.IsAscii → e ≠ chr 'u' → unescape e = some c → Escaped ensureAscii c [chr '\\', e]
  /-- The code point itself. -/
  | literal : c ≠ chr '"' → c ≠ chr '\\' → ¬ c.val < 0x20 → (c.val < 0x7F ∨ ensureAscii = false) →
      Escaped ensureAscii c [c]
  | unicode : c.val < 0x10000 → Escaped ensureAscii c (unicodeEscape c.val)
  | pair : 0x10000 ≤ c.val → Escaped ensureAscii c
      (unicodeEscape (0xD800 + (c.val - 0x10000) / 0x400) ++ unicodeEscape (0xDC00 + (c.val - 0x10000) % 0x400))

theorem escaped_escape (ensureAscii : Bool) (c : CodePoint) : Escaped ensureAscii c (escape ensureAscii c) := by
  have hshort : ∀ {d e : CodePoint}, e.IsAscii ∧ e ≠ chr 'u' ∧ unescape e = some d → c = d →
      Escaped ensureAscii c [chr '\\', e] := fun he hc ↦ .short he.1 he.2.1 (hc ▸ he.2.2)
  unfold escape
  by_cases hquote : c = chr '"'
  · rw [if_pos hquote]
    exact hshort (by decide) hquote
  by_cases hbackslash : c = chr '\\'
  · rw [if_neg hquote, if_pos hbackslash]
    exact hshort (by decide) hbackslash
  rw [if_neg hquote, if_neg hbackslash]
  by_cases hb : c.val = 0x08
  · rw [if_pos hb]
    exact hshort (by decide) (Fin.ext hb : c = 0x08)
  by_cases hf : c.val = 0x0C
  · rw [if_neg hb, if_pos hf]
    exact hshort (by decide) (Fin.ext hf : c = 0x0C)
  by_cases hn : c.val = 0x0A
  · rw [if_neg hb, if_neg hf, if_pos hn]
    exact hshort (by decide) (Fin.ext hn : c = 0x0A)
  by_cases hr : c.val = 0x0D
  · rw [if_neg hb, if_neg hf, if_neg hn, if_pos hr]
    exact hshort (by decide) (Fin.ext hr : c = 0x0D)
  by_cases ht : c.val = 0x09
  · rw [if_neg hb, if_neg hf, if_neg hn, if_neg hr, if_pos ht]
    exact hshort (by decide) (Fin.ext ht : c = 0x09)
  rw [if_neg hb, if_neg hf, if_neg hn, if_neg hr, if_neg ht]
  by_cases hcontrol : c.val < 0x20
  · rw [if_pos hcontrol]
    exact .unicode (by omega)
  rw [if_neg hcontrol]
  by_cases hself : c.val < 0x7F ∨ ensureAscii = false
  · rw [if_pos hself]
    exact .literal hquote hbackslash hcontrol hself
  rw [if_neg hself]
  by_cases hbasic : c.val < 0x10000
  · rw [if_pos hbasic]
    exact .unicode hbasic
  · rw [if_neg hbasic]
    exact .pair (not_lt.1 hbasic)

/-- One escaped code point is read back as itself. -/
private theorem scanString_escape (ensureAscii : Bool) {c : CodePoint} (hc : c.IsScalar) (s : Str) :
    scanString (escape ensureAscii c ++ s) = consRead c (scanString s) := by
  have hlt : c.val < 0x110000 := c.isLt
  have hscalar : c.val < 0xD800 ∨ 0xE000 ≤ c.val := hc
  have hself : (Fin.ofNat 0x110000 c.val) = c := Fin.ext (Nat.mod_eq_of_lt hlt)
  have hescaped := escaped_escape ensureAscii c
  generalize escape ensureAscii c = text at hescaped ⊢
  rcases hescaped with ⟨-, he, hread⟩ | ⟨hquote, hbackslash, hcontrol, -⟩ | hbasic | hastral
  · exact scanString_simple he hread s
  · exact scanString_literal hquote hbackslash hcontrol s
  · rw [scanString_unicode hbasic fun h ↦ absurd h (by omega), hself]
  · have hjoin : 0x10000 + (0xD800 + (c.val - 0x10000) / 0x400 - 0xD800) * 0x400 +
        (0xDC00 + (c.val - 0x10000) % 0x400 - 0xDC00) = c.val := by omega
    rw [List.append_assoc, scanString_pair (by omega) (by omega), hjoin, hself]

/-- A string literal is read back whatever follows it. -/
theorem scanString_stringBody (ensureAscii : Bool) {s : Str} (hs : s.IsScalar) (rest : Str) :
    scanString (stringBody ensureAscii s ++ rest) = some (s, rest) := by
  rw [stringBody, List.append_assoc]
  induction s with
  | nil => exact scanString_quote rest
  | cons c s ih =>
    have hc := hs c List.mem_cons_self
    have hrest := ih fun d hd ↦ hs d (List.mem_cons_of_mem c hd)
    rw [List.flatMap_cons, List.append_assoc, scanString_escape ensureAscii hc, hrest]
    rfl

/-! ## Surrogates

Under `ensure_ascii` a surrogate is written as an escape of its own, and so are the two halves of a
code point above the basic plane. A high surrogate in front of a low one is therefore read back as one
code point; all other strings are read back as they were. -/

/-- A high surrogate. -/
def isHigh (c : CodePoint) : Bool := 0xD800 ≤ c.val && c.val < 0xDC00

/-- A low surrogate. -/
def isLow (c : CodePoint) : Bool := 0xDC00 ≤ c.val && c.val < 0xE000

/-- The code point of a surrogate pair. -/
def joinPair (c d : CodePoint) : CodePoint :=
  Fin.ofNat _ (0x10000 + (c.val - 0xD800) * 0x400 + (d.val - 0xDC00))

/-- A string with its surrogate pairs joined, from the left. -/
def joinPairs : Str → Str
  | [] => []
  | [c] => [c]
  | c :: d :: s => if isHigh c && isLow d then joinPair c d :: joinPairs s else c :: joinPairs (d :: s)

/-- What a string is read back as. -/
def readBack (ensureAscii : Bool) (s : Str) : Str := if ensureAscii then joinPairs s else s

private theorem lowSurrogate?_head {c : CodePoint} (hc : c ≠ chr '\\') (s : Str) :
    lowSurrogate? (c :: s) = none := by
  unfold lowSurrogate?
  split
  · rename_i heq
    obtain ⟨rfl, -⟩ := List.cons.inj heq
    exact if_neg fun h ↦ hc h.1
  · rfl

private theorem lowSurrogate?_second {c : CodePoint} (hc : c ≠ chr 'u') (b : CodePoint) (s : Str) :
    lowSurrogate? (b :: c :: s) = none := by
  unfold lowSurrogate?
  split
  · rename_i heq
    obtain ⟨-, heq⟩ := List.cons.inj heq
    obtain ⟨rfl, -⟩ := List.cons.inj heq
    exact if_neg fun h ↦ hc h.2
  · rfl

private theorem lowSurrogate?_unicodeEscape {m : ℕ} (hm : m < 0x10000) (hlow : ¬ (0xDC00 ≤ m ∧ m < 0xE000))
    (s : Str) : lowSurrogate? (unicodeEscape m ++ s) = none := by
  simp only [unicodeEscape, List.cons_append, List.nil_append, lowSurrogate?, and_self, if_true]
  rw [hex4_hexDigit hm]
  simp only [Option.filter_some, decide_eq_true_eq]
  rw [if_neg hlow]

/-- What is not a low surrogate does not look like one. -/
private theorem lowSurrogate?_escape {c : CodePoint} (hc : isLow c = false) (s : Str) :
    lowSurrogate? (escape true c ++ s) = none := by
  have hlow : ¬ (0xDC00 ≤ c.val ∧ c.val < 0xE000) := by simpa [isLow] using hc
  have hlt : c.val < 0x110000 := c.isLt
  have hescaped := escaped_escape true c
  generalize escape true c = text at hescaped ⊢
  rcases hescaped with ⟨-, he, -⟩ | ⟨-, hbackslash, -, -⟩ | hbasic | hastral
  · exact lowSurrogate?_second he _ _
  · exact lowSurrogate?_head hbackslash _
  · exact lowSurrogate?_unicodeEscape hbasic hlow _
  · rw [List.append_assoc]
    exact lowSurrogate?_unicodeEscape (by omega) (by omega) _

theorem escape_surrogate {c : CodePoint} (hc : 0xD800 ≤ c.val ∧ c.val < 0xE000) :
    escape true c = unicodeEscape c.val := by
  have hne : ∀ d : CodePoint, d.val < 0xD800 → c ≠ d := fun d hd heq ↦ by
    subst heq
    omega
  rw [escape, if_neg (hne _ (by decide)), if_neg (hne _ (by decide)), if_neg (by omega), if_neg (by omega),
    if_neg (by omega), if_neg (by omega), if_neg (by omega), if_neg (by omega), if_neg (by simp; omega),
    if_pos (by omega)]

/-- A surrogate is read back as itself, unless it is the first half of a pair. -/
private theorem scanString_surrogate {c : CodePoint} (hc : 0xD800 ≤ c.val ∧ c.val < 0xE000) {s : Str}
    (hs : isHigh c = true → lowSurrogate? s = none) :
    scanString (escape true c ++ s) = consRead c (scanString s) := by
  have hself : (Fin.ofNat 0x110000 c.val) = c := Fin.ext (Nat.mod_eq_of_lt c.isLt)
  have hnone : 0xD800 ≤ c.val ∧ c.val < 0xDC00 → lowSurrogate? s = none := fun h ↦ hs (by simpa [isHigh] using h)
  rw [escape_surrogate hc, scanString_unicode (by omega) hnone, hself]

/-- Two halves of a pair are read back as one code point. -/
private theorem scanString_joinPair {c d : CodePoint} (hc : isHigh c = true) (hd : isLow d = true) (s : Str) :
    scanString (escape true c ++ (escape true d ++ s)) = consRead (joinPair c d) (scanString s) := by
  have hhigh : 0xD800 ≤ c.val ∧ c.val < 0xDC00 := by simpa [isHigh] using hc
  have hlow : 0xDC00 ≤ d.val ∧ d.val < 0xE000 := by simpa [isLow] using hd
  rw [escape_surrogate (by omega), escape_surrogate (by omega), scanString_pair hhigh hlow, joinPair]

private theorem surrogate_of_not_isScalar {c : CodePoint} (hc : ¬ c.IsScalar) :
    0xD800 ≤ c.val ∧ c.val < 0xE000 := by
  have hc' : ¬ (c.val < 0xD800 ∨ 0xE000 ≤ c.val) := hc
  omega

/-- Without `ensure_ascii` a surrogate is written as it is. -/
private theorem scanString_raw (c : CodePoint) (s : Str) :
    scanString (escape false c ++ s) = consRead c (scanString s) := by
  by_cases hc : c.IsScalar
  · exact scanString_escape false hc s
  · have hsurrogate := surrogate_of_not_isScalar hc
    have hne : ∀ d : CodePoint, d.val < 0xD800 → c ≠ d := fun d hd heq ↦ by
      subst heq
      omega
    have hescape : escape false c = [c] := by
      rw [escape, if_neg (hne _ (by decide)), if_neg (hne _ (by decide)), if_neg (by omega), if_neg (by omega),
        if_neg (by omega), if_neg (by omega), if_neg (by omega), if_neg (by omega), if_pos (by simp)]
    rw [hescape, List.singleton_append]
    exact scanString_literal (hne _ (by decide)) (hne _ (by decide)) (by omega) s

/-- One code point in front of a text that does not make it the first half of a pair. -/
private theorem scanString_unpaired (c : CodePoint) {s : Str} (hs : isHigh c = true → lowSurrogate? s = none) :
    scanString (escape true c ++ s) = consRead c (scanString s) := by
  by_cases hc : c.IsScalar
  · exact scanString_escape true hc s
  · exact scanString_surrogate (surrogate_of_not_isScalar hc) hs

private theorem scanString_joinPairs (s rest : Str) :
    scanString (s.flatMap (escape true) ++ chr '"' :: rest) = some (joinPairs s, rest) := by
  induction s using joinPairs.induct with
  | case1 => exact scanString_quote rest
  | case2 c =>
    rw [List.flatMap_cons, List.flatMap_nil, List.append_nil,
      scanString_unpaired c fun _ ↦ lowSurrogate?_head (by decide) _, scanString_quote]
    rfl
  | case3 c d s hpair ih =>
    obtain ⟨hc, hd⟩ := by simpa using hpair
    rw [List.flatMap_cons, List.flatMap_cons, List.append_assoc, List.append_assoc, scanString_joinPair hc hd, ih,
      joinPairs, if_pos hpair]
    rfl
  | case4 c d s hpair ih =>
    have hlow : isHigh c = true → isLow d = false := fun hc ↦ by simpa [hc] using hpair
    have hnone : isHigh c = true → lowSurrogate? ((d :: s).flatMap (escape true) ++ chr '"' :: rest) = none := by
      intro hc
      rw [List.flatMap_cons, List.append_assoc]
      exact lowSurrogate?_escape (hlow hc) _
    rw [List.flatMap_cons, List.append_assoc, scanString_unpaired c hnone, ih, joinPairs, if_neg hpair]
    rfl

/-- A string literal of any string is read back with its pairs joined, whatever follows it. -/
theorem scanString_readBack (ensureAscii : Bool) (s rest : Str) :
    scanString (stringBody ensureAscii s ++ rest) = some (readBack ensureAscii s, rest) := by
  rw [stringBody, List.append_assoc]
  cases ensureAscii with
  | true => exact scanString_joinPairs s rest
  | false =>
    induction s with
    | nil => exact scanString_quote rest
    | cons c s ih =>
      rw [List.flatMap_cons, List.append_assoc, scanString_raw, ih]
      rfl

/-- Without surrogates, that is the string. -/
theorem readBack_of_isScalar (ensureAscii : Bool) {s : Str} (hs : s.IsScalar) : readBack ensureAscii s = s := by
  have hread := scanString_readBack ensureAscii s []
  rw [scanString_stringBody ensureAscii hs] at hread
  exact (Prod.mk.inj (Option.some.inj hread)).1.symm

mutual

/-- What a tree is read back as. -/
def Value.readBack (l : Layout) : Value → Value
  | .str s => .str (Json.readBack l.ensureAscii s)
  | .arr xs => .arr (readBackItems l xs)
  | .obj ms => .obj (readBackMembers l ms)
  | .null => .null
  | .bool b => .bool b
  | .int i => .int i
  | .float x => .float x

/-- `Value.readBack` for every item. -/
def readBackItems (l : Layout) : List Value → List Value
  | [] => []
  | x :: xs => x.readBack l :: readBackItems l xs

/-- `Value.readBack` for every member, names included. -/
def readBackMembers (l : Layout) : List (Str × Value) → List (Str × Value)
  | [] => []
  | (k, x) :: ms => (readBack l.ensureAscii k, x.readBack l) :: readBackMembers l ms

end

/-- Without surrogates, that is the tree. -/
theorem Value.readBack_of_isScalar (l : Layout) {v : Value} (hv : v.IsScalar) : v.readBack l = v := by
  induction v using Value.induct with
  | null => rfl
  | bool b => rfl
  | int i => rfl
  | float x => rfl
  | str s => rw [Value.readBack, Json.readBack_of_isScalar _ hv]
  | arr xs ih =>
    have hitems : ∀ ys : List Value, (∀ y ∈ ys, y.IsScalar → y.readBack l = y) → ItemsScalar ys →
        readBackItems l ys = ys := by
      intro ys
      induction ys with
      | nil => exact fun _ _ ↦ rfl
      | cons y ys ihs =>
        intro hall hys
        rw [readBackItems, hall y List.mem_cons_self hys.1,
          ihs (fun z hz ↦ hall z (List.mem_cons_of_mem y hz)) hys.2]
    rw [Value.readBack, hitems xs ih hv]
  | obj ms ih =>
    have hmembers : ∀ ns : List (Str × Value), (∀ n ∈ ns, n.2.IsScalar → n.2.readBack l = n.2) →
        MembersScalar ns → readBackMembers l ns = ns := by
      intro ns
      induction ns with
      | nil => exact fun _ _ ↦ rfl
      | cons n ns ihs =>
        obtain ⟨k, x⟩ := n
        intro hall hns
        rw [readBackMembers, Json.readBack_of_isScalar _ hns.1, hall (k, x) List.mem_cons_self hns.2.1,
          ihs (fun z hz ↦ hall z (List.mem_cons_of_mem (k, x) hz)) hns.2.2]
    rw [Value.readBack, hmembers ms ih hv]

/-! ## Numbers -/

/-- The continuation `rest` does not extend a number. -/
def NumberEnd (rest : Str) : Prop :=
  ∀ c ∈ rest.head?, isDigit c = false ∧ c ≠ chr '.' ∧ c ≠ chr 'e' ∧ c ≠ chr 'E'

/-- The continuation `rest` does not start with a digit. -/
private def DigitsEnd (rest : Str) : Prop := ∀ c ∈ rest.head?, isDigit c = false

private theorem NumberEnd.digitsEnd {rest : Str} (h : NumberEnd rest) : DigitsEnd rest :=
  fun c hc ↦ (h c hc).1

private theorem takeWhile_digits {ds rest : Str} (hds : ∀ c ∈ ds, isDigit c = true)
    (hrest : DigitsEnd rest) : (ds ++ rest).takeWhile isDigit = ds := by
  rw [List.takeWhile_append_of_pos hds]
  cases rest with
  | nil => simp
  | cons c rest => simp [hrest c rfl]

private theorem dropWhile_digits {ds rest : Str} (hds : ∀ c ∈ ds, isDigit c = true)
    (hrest : DigitsEnd rest) : (ds ++ rest).dropWhile isDigit = rest := by
  rw [List.dropWhile_append_of_pos hds]
  cases rest with
  | nil => rfl
  | cons c rest => simp [hrest c rfl]

private theorem map_digit_isDigit (ds : List (Fin 10)) : ∀ c ∈ ds.map digit, isDigit c = true := by
  intro c hc
  obtain ⟨d, -, rfl⟩ := List.mem_map.mp hc
  exact isDigit_digit d

private theorem scanWhole_decimal (n : ℕ) {rest : Str} (hrest : DigitsEnd rest) :
    scanWhole (decimal n ++ rest) = some (decimal n, rest) := by
  rcases decimal_cases n with h | ⟨c, s, h, hc, hne, hs⟩
  · rw [h]
    rfl
  · rw [h, List.cons_append, scanWhole, if_neg hne, if_pos hc, takeWhile_digits hs hrest,
      dropWhile_digits hs hrest]

private theorem scanFraction_text (ds : List (Fin 10)) {rest : Str} (hrest : DigitsEnd rest)
    (hdot : ∀ c ∈ rest.head?, c ≠ chr '.') :
    scanFraction (fractionText ds ++ rest) = (fractionText ds, rest) := by
  cases ds with
  | nil =>
    cases rest with
    | nil => rfl
    | cons c rest =>
      cases rest with
      | nil => rfl
      | cons d rest =>
        have hc : ¬(c = chr '.' ∧ isDigit d = true) := fun h ↦ hdot c rfl h.1
        exact if_neg hc
  | cons d ds =>
    have hds := map_digit_isDigit ds
    rw [fractionText, if_neg (List.cons_ne_nil d ds), List.map_cons, List.cons_append,
      List.cons_append, scanFraction, if_pos ⟨rfl, isDigit_digit d⟩, takeWhile_digits hds hrest,
      dropWhile_digits hds hrest]

private theorem scanDigits_digits (lead : Str) {ds : List (Fin 10)} (hne : ds ≠ []) {rest : Str}
    (hrest : DigitsEnd rest) :
    scanDigits lead (ds.map digit ++ rest) = some (lead ++ ds.map digit, rest) := by
  cases ds with
  | nil => exact absurd rfl hne
  | cons d ds =>
    have hds := map_digit_isDigit ds
    rw [List.map_cons, List.cons_append, scanDigits, if_pos (isDigit_digit d),
      takeWhile_digits hds hrest, dropWhile_digits hds hrest]

private theorem digit_ne_sign (d : Fin 10) : ¬(digit d = chr '-' ∨ digit d = chr '+') := by
  revert d
  decide

private theorem scanExponent_text (e : Exponent) {rest : Str} (hrest : DigitsEnd rest) :
    scanExponent (e.text ++ rest) = (e.text, rest) := by
  obtain ⟨upper, sign, digits, hne⟩ := e
  have hmark : (if upper = true then chr 'E' else chr 'e') = chr 'e' ∨
      (if upper = true then chr 'E' else chr 'e') = chr 'E' := by
    cases upper
    · exact .inl rfl
    · exact .inr rfl
  rw [Exponent.text]
  simp only [List.cons_append, List.append_assoc]
  rw [scanExponent.eq_def]
  simp only [if_pos hmark]
  cases sign with
  | none =>
    cases digits with
    | nil => exact absurd rfl hne
    | cons d ds =>
      have hscan := scanDigits_digits [if upper = true then chr 'E' else chr 'e'] hne hrest
      simp only [List.map_cons, List.nil_append, List.cons_append] at hscan ⊢
      rw [if_neg (digit_ne_sign d), hscan]
      rfl
  | some minus =>
    cases minus
    all_goals
      simp only [List.cons_append, List.nil_append, or_true, true_or, if_true]
      rw [scanDigits_digits _ hne hrest]
      rfl

private theorem scanExponent_none {rest : Str} (hrest : NumberEnd rest) :
    scanExponent rest = ([], rest) := by
  cases rest with
  | nil => rfl
  | cons c rest =>
    have hc := hrest c rfl
    exact if_neg (not_or.mpr hc.2.2)

private theorem scanUnsigned_decimal (n : ℕ) {rest : Str} (hrest : NumberEnd rest) :
    scanUnsigned (decimal n ++ rest) = some (decimal n, false, rest) := by
  have hfrac := scanFraction_text [] hrest.digitsEnd fun c hc ↦ (hrest c hc).2.1
  rw [fractionText, if_pos rfl, List.nil_append] at hfrac
  rw [scanUnsigned, scanWhole_decimal n hrest.digitsEnd]
  simp [hfrac, scanExponent_none hrest]

/-- The exponent part of a float, possibly empty. -/
private def exponentText (e : Option Exponent) : Str := (e.map Exponent.text).getD []

private theorem FloatToken.text_eq (x : FloatToken) :
    x.text = (if x.negative then [chr '-'] else []) ++
      (decimal x.whole ++ (fractionText x.fraction ++ exponentText x.exponent)) := by
  rw [FloatToken.text, exponentText]
  cases x.exponent <;> rfl

private theorem scanExponent_exponentText (e : Option Exponent) {rest : Str}
    (hrest : NumberEnd rest) : scanExponent (exponentText e ++ rest) = (exponentText e, rest) := by
  cases e with
  | none => exact scanExponent_none hrest
  | some e => exact scanExponent_text e hrest.digitsEnd

private theorem exponentText_head (e : Option Exponent) {rest : Str} (hrest : NumberEnd rest) :
    ∀ c ∈ (exponentText e ++ rest).head?, isDigit c = false ∧ c ≠ chr '.' := by
  intro c hc
  cases e with
  | none => exact ⟨(hrest c hc).1, (hrest c hc).2.1⟩
  | some e =>
    have hc : (if e.upper = true then chr 'E' else chr 'e') = c := Option.some.inj hc
    rw [← hc]
    split_ifs <;> decide

private theorem fractionText_head (ds : List (Fin 10)) {rest : Str} (hrest : DigitsEnd rest) :
    DigitsEnd (fractionText ds ++ rest) := by
  intro c hc
  cases ds with
  | nil => exact hrest c hc
  | cons d ds =>
    have hc : chr '.' = c := Option.some.inj hc
    rw [← hc]
    decide

private theorem FloatToken.digits_ne_nil (x : FloatToken) :
    fractionText x.fraction ++ exponentText x.exponent ≠ [] := by
  rcases x.isFloat with h | h
  · rw [fractionText, if_neg h]
    exact List.cons_ne_nil _ _
  · obtain ⟨e, he⟩ := Option.ne_none_iff_exists'.mp h
    rw [he]
    intro hnil
    exact List.cons_ne_nil _ _ (List.append_eq_nil_iff.mp hnil).2

private theorem scanUnsigned_float (x : FloatToken) {rest : Str} (hrest : NumberEnd rest) :
    scanUnsigned (decimal x.whole ++ (fractionText x.fraction ++ (exponentText x.exponent ++ rest))) =
      some (decimal x.whole ++ (fractionText x.fraction ++ exponentText x.exponent), true, rest) := by
  have hexp := scanExponent_exponentText x.exponent hrest
  have hhead := exponentText_head x.exponent hrest
  have hfrac := scanFraction_text x.fraction (fun c hc ↦ (hhead c hc).1) fun c hc ↦ (hhead c hc).2
  have hwhole := scanWhole_decimal x.whole
    (fractionText_head x.fraction fun c hc ↦ (hhead c hc).1)
  rw [scanUnsigned, hwhole]
  simp only [Option.bind_eq_bind, Option.bind_some, hfrac, hexp]
  simp [x.digits_ne_nil]

private theorem decimal_head (n : ℕ) : ∃ c s, decimal n = c :: s ∧ isDigit c = true := by
  rcases decimal_cases n with h | ⟨c, s, h, hc, -, -⟩
  · exact ⟨_, _, h, by decide⟩
  · exact ⟨c, s, h, hc⟩

private theorem ne_minus_of_isDigit {c : CodePoint} (hc : isDigit c = true) : c ≠ chr '-' := by
  rintro rfl
  revert hc
  decide

variable {α : Type} (h : Hooks α)

private theorem scanNumber_int (i : ℤ) {rest : Str} (hrest : NumberEnd rest) :
    scanNumber h (intText i ++ rest) = some (h.int i, rest) := by
  rw [intText]
  have hscan := scanUnsigned_decimal i.natAbs hrest
  split_ifs with hi
  · rw [List.cons_append, scanNumber, if_pos rfl, hscan]
    simp only [Option.map_some, Bool.false_eq_true, if_false, readDecimal_decimal]
    rw [show -((i.natAbs : ℕ) : ℤ) = i by omega]
  · obtain ⟨c, s, hd, hc⟩ := decimal_head i.natAbs
    rw [hd, List.cons_append] at hscan
    rw [hd, List.cons_append, scanNumber, if_neg (ne_minus_of_isDigit hc), hscan, ← hd]
    simp only [Option.map_some, Bool.false_eq_true, if_false, readDecimal_decimal]
    rw [show ((i.natAbs : ℕ) : ℤ) = i by omega]

private theorem scanNumber_float (x : FloatToken) {rest : Str} (hrest : NumberEnd rest) :
    scanNumber h (x.text ++ rest) = some (h.float x.text, rest) := by
  have hscan := scanUnsigned_float x hrest
  rw [x.text_eq]
  simp only [List.append_assoc]
  split_ifs with hneg
  · rw [List.cons_append, List.nil_append, scanNumber, if_pos rfl, hscan]
    rfl
  · obtain ⟨c, s, hd, hc⟩ := decimal_head x.whole
    rw [hd] at hscan ⊢
    simp only [List.nil_append, List.cons_append] at hscan ⊢
    rw [scanNumber, if_neg (ne_minus_of_isDigit hc), hscan]
    rfl

/-! ## Atoms -/

private theorem afterLiteral_append (w : String) (rest : Str) :
    afterLiteral w (Py.str w ++ rest) = some rest := by
  rw [afterLiteral, if_pos (List.prefix_append _ _), List.drop_left]

/-- A literal is not found in a text that starts with another character. -/
private theorem afterLiteral_eq_none {w : String} {a c : CodePoint} {u s : Str}
    (hw : Py.str w = a :: u) (hne : a ≠ c) : afterLiteral w (c :: s) = none := by
  rw [afterLiteral, if_neg]
  rintro ⟨t, ht⟩
  rw [hw, List.cons_append] at ht
  exact hne (List.cons.inj ht).1

/-- The first character of a number is a digit or a minus sign. -/
private def NumberStart (c : CodePoint) : Prop := isDigit c = true ∨ c = chr '-'

private theorem intText_head (i : ℤ) : ∃ c s, intText i = c :: s ∧ NumberStart c := by
  rw [intText]
  split_ifs
  · exact ⟨_, _, rfl, .inr rfl⟩
  · obtain ⟨c, s, hd, hc⟩ := decimal_head i.natAbs
    exact ⟨c, s, hd, .inl hc⟩

private theorem FloatToken.text_head (x : FloatToken) :
    ∃ c s, x.text = c :: s ∧ NumberStart c := by
  rw [x.text_eq]
  split_ifs
  · exact ⟨_, _, rfl, .inr rfl⟩
  · obtain ⟨c, s, hd, hc⟩ := decimal_head x.whole
    rw [hd]
    exact ⟨c, _, rfl, .inl hc⟩

private theorem NumberStart.ne {c d : CodePoint} (hc : NumberStart c) (hd : isDigit d = false)
    (hm : d ≠ chr '-') : d ≠ c := by
  rintro rfl
  rcases hc with hc | hc
  · rw [hd] at hc
    exact Bool.false_ne_true hc
  · exact hm hc

/-- A text that starts like a number and scans as one is read as one. -/
private theorem scanAtom_number {c : CodePoint} {s rest : Str} {o : Option α}
    (hc : NumberStart c) (hscan : scanNumber h (c :: s) = some (o, rest)) :
    scanAtom h (c :: s) = o.elim (.error .hookError) fun x ↦ .ok (x, rest) := by
  have hnull : afterLiteral "null" (c :: s) = none :=
    afterLiteral_eq_none rfl (hc.ne (by decide) (by decide))
  have htrue : afterLiteral "true" (c :: s) = none :=
    afterLiteral_eq_none rfl (hc.ne (by decide) (by decide))
  have hfalse : afterLiteral "false" (c :: s) = none :=
    afterLiteral_eq_none rfl (hc.ne (by decide) (by decide))
  rw [scanAtom]
  simp only [hnull, htrue, hfalse, hscan]
  cases o <;> rfl

private theorem scanAtom_bool (b : Bool) (rest : Str) (l : Layout) :
    scanAtom h (dumps l (.bool b) ++ rest) = .ok (h.bool b, rest) := by
  cases b with
  | true =>
    have hnull : afterLiteral "null" (Py.str "true" ++ rest) = none :=
      afterLiteral_eq_none rfl (by decide)
    rw [dumps, scanAtom]
    simp only [hnull, afterLiteral_append]
  | false =>
    have hnull : afterLiteral "null" (Py.str "false" ++ rest) = none :=
      afterLiteral_eq_none rfl (by decide)
    have htrue : afterLiteral "true" (Py.str "false" ++ rest) = none :=
      afterLiteral_eq_none rfl (by decide)
    rw [dumps, scanAtom]
    simp only [hnull, htrue, afterLiteral_append]

/-! ## Whitespace -/

/-- The head of `s` is neither whitespace nor a closing bracket. -/
def ValueStart (s : Str) : Prop := ∃ c t, s = c :: t ∧ isSpace c = false ∧ c ≠ chr ']'

private theorem NumberStart.valueStart {c : CodePoint} (hc : NumberStart c) (s : Str) :
    ValueStart (c :: s) := by
  refine ⟨c, s, rfl, ?_, (hc.ne (by decide) (by decide)).symm⟩
  rcases hc with hc | rfl
  · simp only [isDigit, Bool.and_eq_true, decide_eq_true_eq] at hc
    have h₁ := hc.1
    have h₂ : c.val ≠ 0x20 ∧ c.val ≠ 0x09 ∧ c.val ≠ 0x0A ∧ c.val ≠ 0x0D := by omega
    simp [isSpace, h₂.1, h₂.2.1, h₂.2.2.1, h₂.2.2.2]
  · decide

theorem dumps_valueStart (l : Layout) (v : Value) (rest : Str) :
    ValueStart (dumps l v ++ rest) := by
  cases v with
  | null => exact ⟨_, _, rfl, by decide, by decide⟩
  | bool b => cases b <;> exact ⟨_, _, rfl, by decide, by decide⟩
  | int i =>
    obtain ⟨c, s, hd, hc⟩ := intText_head i
    rw [dumps, hd]
    exact hc.valueStart _
  | float x =>
    obtain ⟨c, s, hd, hc⟩ := x.text_head
    rw [dumps, hd]
    exact hc.valueStart _
  | str s =>
    rw [dumps]
    exact ⟨_, _, rfl, by decide, by decide⟩
  | arr xs =>
    cases xs with
    | nil => exact ⟨_, _, rfl, by decide, by decide⟩
    | cons x xs =>
      rw [dumps]
      exact ⟨_, _, rfl, by decide, by decide⟩
  | obj ms =>
    cases ms with
    | nil => exact ⟨_, _, rfl, by decide, by decide⟩
    | cons m ms =>
      rw [dumps]
      exact ⟨_, _, rfl, by decide, by decide⟩

theorem skip_cons {c : CodePoint} (hc : isSpace c = false) (s : Str) :
    skip (c :: s) = c :: s := by
  rw [skip, List.dropWhile_cons, hc]
  rfl

theorem ValueStart.skip_eq {s : Str} (hs : ValueStart s) : skip s = s := by
  obtain ⟨c, t, rfl, hc, -⟩ := hs
  exact skip_cons hc t

theorem skip_blank (l : Layout) {s : Str} (hs : skip s = s) : skip (l.blank ++ s) = s := by
  rw [Layout.blank]
  split_ifs
  · rw [List.cons_append, List.nil_append, skip, List.dropWhile_cons]
    exact hs
  · exact hs

/-! ## The reader -/

theorem expect_cons (c : CodePoint) (s : Str) : expect c (c :: s) = .ok s := if_pos rfl

theorem expect_ne {c d : CodePoint} (hd : d ≠ c) (s : Str) :
    expect c (d :: s) = .error .syntaxError := if_neg hd

/-- A result in front of a continuation; a failed fold is a hook that raised. -/
private def read {β : Type} (rest : Str) (o : Option β) : Except Error (β × Str) :=
  o.elim (.error .hookError) fun x ↦ .ok (x, rest)

/-- What `parseValue` does on the text of `v`. -/
private def ReadsBack (l : Layout) (v : Value) : Prop :=
  ∀ fuel depth rest, (dumps l v).length ≤ fuel → v.depth ≤ depth → NumberEnd rest →
    parseValue h fuel depth (dumps l v ++ rest) = read rest ((v.readBack l).fold h)

private theorem numberEnd_dumpItems (l : Layout) (xs : List Value) (rest : Str) :
    NumberEnd (dumpItems l xs ++ rest) := by
  intro c hc
  cases xs <;>
  · rw [dumpItems] at hc
    obtain rfl := Option.some.inj hc
    decide

theorem numberEnd_dumpMembers (l : Layout) (ms : List (Str × Value)) (rest : Str) :
    NumberEnd (dumpMembers l ms ++ rest) := by
  intro c hc
  cases ms <;>
  · rw [dumpMembers] at hc
    obtain rfl := Option.some.inj hc
    decide

/-- The items of an array are read back if each of them is. -/
private theorem parseItems_dumpItems (l : Layout) (xs : List Value) (x : Value)
    (hall : ∀ v ∈ x :: xs, ReadsBack h l v) (fuel depth : ℕ)
    (hfuel : (dumps l x ++ dumpItems l xs).length ≤ fuel) (hdepth : itemsDepth (x :: xs) ≤ depth)
    (rest : Str) :
    parseItems h fuel depth (dumps l x ++ (dumpItems l xs ++ rest)) =
      read rest (foldItems h (readBackItems l (x :: xs))) := by
  induction xs generalizing x fuel with
  | nil =>
    rw [dumpItems, List.length_append, List.length_singleton] at hfuel
    obtain ⟨fuel, rfl⟩ : ∃ n, fuel = n + 1 := ⟨fuel - 1, by omega⟩
    rw [itemsDepth, max_le_iff] at hdepth
    have hx := hall x List.mem_cons_self fuel depth (dumpItems l [] ++ rest)
      (by omega) hdepth.1 (numberEnd_dumpItems l [] rest)
    rw [parseItems, hx, readBackItems, foldItems]
    cases (x.readBack l).fold h with
    | none => rfl
    | some y => rfl
  | cons y ys ih =>
    rw [dumpItems, List.length_append, List.length_cons, List.length_append] at hfuel
    obtain ⟨fuel, rfl⟩ : ∃ n, fuel = n + 1 := ⟨fuel - 1, by omega⟩
    rw [itemsDepth, max_le_iff] at hdepth
    have hx := hall x List.mem_cons_self fuel depth (dumpItems l (y :: ys) ++ rest)
      (by omega) hdepth.1 (numberEnd_dumpItems l (y :: ys) rest)
    have hlen : (dumps l y ++ dumpItems l ys).length ≤ fuel := by omega
    have hys := ih y (fun v hv ↦ hall v (List.mem_cons_of_mem x hv)) fuel hlen hdepth.2
    have hskip : skip (l.blank ++ (dumps l y ++ dumpItems l ys) ++ rest) =
        dumps l y ++ (dumpItems l ys ++ rest) := by
      rw [List.append_assoc, skip_blank l]
      · rw [List.append_assoc]
      · rw [List.append_assoc]
        exact (dumps_valueStart l y _).skip_eq
    rw [parseItems, hx, readBackItems, foldItems]
    cases (x.readBack l).fold h with
    | none => rfl
    | some z =>
      simp only [read, Option.elim, bind, Except.bind]
      rw [dumpItems, List.cons_append, skip_cons (by decide), expect_ne (by decide)]
      simp only [expect_cons, hskip, hys]
      cases foldItems h (readBackItems l (y :: ys)) <;> rfl

/-- A member of an object, from its opening quote on, and the members after it. -/
def memberText (l : Layout) (k : Str) (x : Value) (tail : Str) : Str :=
  chr '"' :: (stringBody l.ensureAscii k ++ (chr ':' :: (l.blank ++ (dumps l x ++ tail))))

theorem dumpMembers_cons (l : Layout) (k : Str) (x : Value) (ms : List (Str × Value)) :
    dumpMembers l ((k, x) :: ms) =
      chr ',' :: (l.blank ++ memberText l k x (dumpMembers l ms)) := by
  rw [dumpMembers, memberText]

private theorem memberText_append (l : Layout) (k : Str) (x : Value) (tail rest : Str) :
    memberText l k x tail ++ rest = memberText l k x (tail ++ rest) := by
  simp only [memberText, List.cons_append, List.append_assoc]

private theorem length_memberText (l : Layout) (k : Str) (x : Value) (tail : Str) :
    (dumps l x).length + tail.length < (memberText l k x tail).length := by
  simp only [memberText, List.length_cons, List.length_append]
  omega

/-- What `parseMembers` does after one member. -/
private def membersAfter (fuel depth : ℕ) (k : Str) (tail : Str) (y : α) :
    Except Error (List (Str × α) × Str) :=
  match expect (chr '\x7d') (skip tail) with
  | .ok rest => .ok ([(k, y)], rest)
  | .error _ => do
    let s ← expect (chr ',') (skip tail)
    let (ms, rest) ← parseMembers h fuel depth (skip s)
    .ok ((k, y) :: ms, rest)

/-- Reading one member: its name, the colon, and its value. -/
private theorem parseMembers_memberText (l : Layout) (k : Str) (x : Value)
    {fuel depth : ℕ} {tail : Str} {o : Option α}
    (hx : parseValue h fuel depth (dumps l x ++ tail) = read tail o) :
    parseMembers h (fuel + 1) depth (memberText l k x tail) =
      o.elim (.error .hookError) (membersAfter h fuel depth (readBack l.ensureAscii k) tail) := by
  have hskip : skip (l.blank ++ (dumps l x ++ tail)) = dumps l x ++ tail :=
    skip_blank l (dumps_valueStart l x tail).skip_eq
  rw [parseMembers, memberText, scanKey, if_pos rfl, scanString_readBack]
  simp only [Option.elim, bind, Except.bind]
  rw [skip_cons (by decide), expect_cons]
  simp only [hskip, hx]
  cases o <;> rfl

/-- The members of an object are read back if each of their values is. -/
private theorem parseMembers_dumpMembers (l : Layout) (ms : List (Str × Value)) (k : Str)
    (x : Value) (hall : ∀ m ∈ (k, x) :: ms, ReadsBack h l m.2) (fuel depth : ℕ)
    (hfuel : (memberText l k x (dumpMembers l ms)).length ≤ fuel)
    (hdepth : membersDepth ((k, x) :: ms) ≤ depth) (rest : Str) :
    parseMembers h fuel depth (memberText l k x (dumpMembers l ms ++ rest)) =
      read rest (foldMembers h (readBackMembers l ((k, x) :: ms))) := by
  induction ms generalizing k x fuel with
  | nil =>
    have hlen := length_memberText l k x (dumpMembers l [])
    obtain ⟨fuel, rfl⟩ : ∃ n, fuel = n + 1 := ⟨fuel - 1, by omega⟩
    rw [membersDepth, max_le_iff] at hdepth
    have hx := hall (k, x) List.mem_cons_self fuel depth (dumpMembers l [] ++ rest)
      (by simp only; omega) hdepth.1 (numberEnd_dumpMembers l [] rest)
    rw [parseMembers_memberText h l k x hx, readBackMembers, foldMembers]
    cases (x.readBack l).fold h with
    | none => rfl
    | some y => rfl
  | cons m ms ih =>
    obtain ⟨k', y⟩ := m
    have hlen := length_memberText l k x (dumpMembers l ((k', y) :: ms))
    rw [membersDepth, max_le_iff] at hdepth
    obtain ⟨fuel, rfl⟩ : ∃ n, fuel = n + 1 := ⟨fuel - 1, by omega⟩
    have hx := hall (k, x) List.mem_cons_self fuel depth
      (dumpMembers l ((k', y) :: ms) ++ rest) (by simp only; omega) hdepth.1
      (numberEnd_dumpMembers l _ rest)
    have htail : (memberText l k' y (dumpMembers l ms)).length ≤ fuel := by
      have hsep := congrArg List.length (dumpMembers_cons l k' y ms)
      rw [List.length_cons, List.length_append] at hsep
      omega
    have hms := ih k' y (fun n hn ↦ hall n (List.mem_cons_of_mem _ hn)) fuel htail hdepth.2
    have hskip : skip (l.blank ++ memberText l k' y (dumpMembers l ms ++ rest)) =
        memberText l k' y (dumpMembers l ms ++ rest) :=
      skip_blank l (skip_cons (by decide) _)
    rw [parseMembers_memberText h l k x hx, readBackMembers, foldMembers]
    cases (x.readBack l).fold h with
    | none => rfl
    | some z =>
      rw [dumpMembers_cons, List.cons_append, List.append_assoc, memberText_append]
      simp only [Option.elim, membersAfter, bind, Except.bind]
      rw [skip_cons (by decide), expect_ne (by decide), expect_cons]
      simp only [hskip, hms]
      cases foldMembers h (readBackMembers l ((k', y) :: ms)) <;> rfl

private theorem dumps_length_pos (l : Layout) (v : Value) : 0 < (dumps l v).length := by
  obtain ⟨c, t, hv, -, -⟩ := dumps_valueStart l v []
  rw [List.append_nil] at hv
  rw [hv]
  exact Nat.succ_pos _

/-- On a character that opens neither a string, an array nor an object, an atom is read. -/
private theorem parseValue_atom {c : CodePoint} (hq : c ≠ chr '"') (hb : c ≠ chr '[')
    (ho : c ≠ chr '\x7b') (fuel depth : ℕ) (s : Str) :
    parseValue h (fuel + 1) depth (c :: s) = scanAtom h (c :: s) := by
  rw [parseValue, if_neg hq, if_neg hb, if_neg ho]

private theorem parseValue_number {c : CodePoint} (hc : NumberStart c) (fuel depth : ℕ) (s : Str) :
    parseValue h (fuel + 1) depth (c :: s) = scanAtom h (c :: s) :=
  parseValue_atom h (hc.ne (by decide) (by decide)).symm (hc.ne (by decide) (by decide)).symm
    (hc.ne (by decide) (by decide)).symm fuel depth s

/-- An integer is read in front of anything that does not extend it. -/
theorem parseValue_int (l : Layout) (i : ℤ) {rest : Str} (hrest : NumberEnd rest)
    (fuel depth : ℕ) :
    parseValue h (fuel + 1) depth (dumps l (.int i) ++ rest) =
      (h.int i).elim (.error .hookError) fun x ↦ .ok (x, rest) := by
  obtain ⟨c, s, hi, hc⟩ := intText_head i
  have hscan := scanNumber_int h i hrest
  rw [dumps, hi, List.cons_append] at *
  rw [parseValue_number h hc, scanAtom_number h hc hscan]

/-- A string is read in front of anything. -/
theorem parseValue_str (l : Layout) {s : Str} (hs : s.IsScalar) (rest : Str) (fuel depth : ℕ) :
    parseValue h (fuel + 1) depth (dumps l (.str s) ++ rest) = .ok (h.str s, rest) := by
  rw [dumps, List.cons_append, parseValue, if_pos rfl, scanString_stringBody _ hs]

/-- Every tree is read back: by induction over the tree, an array or object spending one level of
the recursion limit. -/
private theorem readsBack (l : Layout) (v : Value) : ReadsBack h l v := by
  induction v using Value.induct with
  | null =>
    intro fuel depth rest hfuel _ _
    obtain ⟨fuel, rfl⟩ := Nat.exists_eq_add_of_le' ((dumps_length_pos l _).trans_le hfuel)
    have hatom : scanAtom h (Py.str "null" ++ rest) = .ok (h.null, rest) := by
      rw [scanAtom]
      simp only [afterLiteral_append]
    rw [dumps]
    exact (parseValue_atom h (by decide) (by decide) (by decide) _ _ _).trans hatom
  | bool b =>
    intro fuel depth rest hfuel _ _
    obtain ⟨fuel, rfl⟩ := Nat.exists_eq_add_of_le' ((dumps_length_pos l _).trans_le hfuel)
    refine Eq.trans ?_ (scanAtom_bool h b rest l)
    cases b with
    | true => exact parseValue_atom h (by decide) (by decide) (by decide) _ _ _
    | false => exact parseValue_atom h (by decide) (by decide) (by decide) _ _ _
  | int i =>
    intro fuel depth rest hfuel _ hrest
    obtain ⟨fuel, rfl⟩ := Nat.exists_eq_add_of_le' ((dumps_length_pos l _).trans_le hfuel)
    exact parseValue_int h l i hrest fuel depth
  | float x =>
    intro fuel depth rest hfuel _ hrest
    obtain ⟨fuel, rfl⟩ := Nat.exists_eq_add_of_le' ((dumps_length_pos l _).trans_le hfuel)
    obtain ⟨c, s, hx, hc⟩ := x.text_head
    have hscan := scanNumber_float h x hrest
    rw [dumps, Value.readBack, Value.fold]
    rw [hx, List.cons_append] at hscan ⊢
    rw [parseValue_number h hc, scanAtom_number h hc hscan]
    rfl
  | str s =>
    intro fuel depth rest hfuel _ _
    obtain ⟨fuel, rfl⟩ := Nat.exists_eq_add_of_le' ((dumps_length_pos l _).trans_le hfuel)
    rw [dumps, List.cons_append, parseValue, if_pos rfl, scanString_readBack]
    rfl
  | arr xs ih =>
    intro fuel depth rest hfuel hdepth _
    obtain ⟨fuel, rfl⟩ := Nat.exists_eq_add_of_le' ((dumps_length_pos l _).trans_le hfuel)
    rw [Value.depth] at hdepth
    cases xs with
    | nil =>
      have hopen : dumps l (.arr []) ++ rest = chr '[' :: chr ']' :: rest := by
        rw [dumps]
        rfl
      rw [hopen, parseValue, if_neg (by decide), if_pos rfl, if_neg (by omega),
        skip_cons (by decide), expect_cons]
      rfl
    | cons x xs =>
      rw [dumps, List.length_cons] at hfuel
      have hitems := parseItems_dumpItems h l xs x ih fuel (depth - 1) (by omega) (by omega) rest
      obtain ⟨c, t, hstart, hspace, hclose⟩ := dumps_valueStart l x (dumpItems l xs ++ rest)
      rw [dumps, List.cons_append, List.append_assoc, parseValue, if_neg (by decide), if_pos rfl,
        if_neg (by omega)]
      rw [hstart] at hitems ⊢
      rw [skip_cons hspace, expect_ne hclose]
      simp only [hitems, Value.readBack, Value.fold]
      cases foldItems h (readBackItems l (x :: xs)) <;> rfl
  | obj ms ih =>
    intro fuel depth rest hfuel hdepth _
    obtain ⟨fuel, rfl⟩ := Nat.exists_eq_add_of_le' ((dumps_length_pos l _).trans_le hfuel)
    rw [Value.depth] at hdepth
    cases ms with
    | nil =>
      have hopen : dumps l (.obj []) ++ rest = chr '\x7b' :: chr '\x7d' :: rest := by
        rw [dumps]
        rfl
      rw [hopen, parseValue, if_neg (by decide), if_neg (by decide), if_pos rfl,
        if_neg (by omega), skip_cons (by decide), expect_cons]
      simp only [bind, Except.bind, Value.readBack, readBackMembers, Value.fold, foldMembers, Option.bind_some]
      cases h.obj [] <;> rfl
    | cons m ms =>
      obtain ⟨k, x⟩ := m
      have hopen : dumps l (.obj ((k, x) :: ms)) =
          chr '\x7b' :: memberText l k x (dumpMembers l ms) := by
        rw [dumps, memberText]
      rw [hopen, List.length_cons] at hfuel
      have hmembers := parseMembers_dumpMembers h l ms k x ih fuel (depth - 1) (by omega)
        (by omega) rest
      rw [hopen, List.cons_append, memberText_append, parseValue, if_neg (by decide),
        if_neg (by decide), if_pos rfl, if_neg (by omega)]
      rw [memberText] at hmembers ⊢
      rw [skip_cons (by decide), expect_ne (by decide)]
      simp only [hmembers, Value.readBack, Value.fold]
      cases foldMembers h (readBackMembers l ((k, x) :: ms)) with
      | none => rfl
      | some ys =>
        simp only [read, Option.elim, bind, Except.bind, Option.bind_some]
        cases h.obj ys <;> rfl

/-- **Round trip** of any tree: reading its text yields what the hooks make of the tree with the
surrogate pairs of its strings joined, as long as its depth is within the recursion limit. -/
theorem loads_dumps_readBack (l : Layout) {v : Value} {limit : ℕ} (hlimit : v.depth ≤ limit) :
    loads h limit (dumps l v) = ((v.readBack l).fold h).elim (.error .hookError) .ok := by
  have hend : NumberEnd [] := fun c hc ↦ absurd hc (Option.not_mem_none c)
  have hread := readsBack h l v ((dumps l v).length + 1) limit [] (Nat.le_succ _) hlimit hend
  have hskip := (dumps_valueStart l v []).skip_eq
  rw [List.append_nil] at hread hskip
  rw [loads, hskip, hread]
  cases (v.readBack l).fold h <;> rfl

/-- **Round trip.** Reading the text of a tree yields what the hooks make of the tree, as long as
its depth is within the recursion limit. -/
theorem loads_dumps (l : Layout) {v : Value} (hv : v.IsScalar) {limit : ℕ}
    (hlimit : v.depth ≤ limit) :
    loads h limit (dumps l v) = (v.fold h).elim (.error .hookError) .ok := by
  rw [loads_dumps_readBack h l hlimit, v.readBack_of_isScalar l hv]

/-! ## Shape of the text -/

private theorem itemsDepth_le {xs : List Value} {n : ℕ} (hn : ∀ v ∈ xs, v.depth ≤ n) :
    itemsDepth xs ≤ n := by
  induction xs with
  | nil => exact Nat.zero_le n
  | cons x xs ih =>
    rw [itemsDepth]
    exact max_le (hn x List.mem_cons_self) (ih fun v hv ↦ hn v (List.mem_cons_of_mem x hv))

private theorem membersDepth_le {ms : List (Str × Value)} {n : ℕ} (hn : ∀ m ∈ ms, m.2.depth ≤ n) :
    membersDepth ms ≤ n := by
  induction ms with
  | nil => exact Nat.zero_le n
  | cons m ms ih =>
    rw [membersDepth]
    exact max_le (hn m List.mem_cons_self) (ih fun m' hm ↦ hn m' (List.mem_cons_of_mem m hm))

private theorem length_le_dumpItems (l : Layout) (xs : List Value) :
    ∀ v ∈ xs, (dumps l v).length ≤ (dumpItems l xs).length := by
  induction xs with
  | nil => exact fun v hv ↦ absurd hv List.not_mem_nil
  | cons x xs ih =>
    intro v hv
    rw [dumpItems, List.length_cons, List.length_append, List.length_append]
    rcases List.mem_cons.mp hv with rfl | hv
    · omega
    · have hle := ih v hv
      omega

private theorem length_le_dumpMembers (l : Layout) (ms : List (Str × Value)) :
    ∀ m ∈ ms, (dumps l m.2).length ≤ (dumpMembers l ms).length := by
  induction ms with
  | nil => exact fun m hm ↦ absurd hm List.not_mem_nil
  | cons n ms ih =>
    obtain ⟨k, x⟩ := n
    intro m hm
    rw [dumpMembers_cons, List.length_cons, List.length_append]
    have hlen := length_memberText l k x (dumpMembers l ms)
    rcases List.mem_cons.mp hm with rfl | hm
    · simp only
      omega
    · have hle := ih m hm
      omega

/-- A tree is not deeper than its text is long. -/
theorem depth_le_length (l : Layout) (v : Value) : v.depth ≤ (dumps l v).length := by
  induction v using Value.induct with
  | null => exact Nat.zero_le _
  | bool b => exact Nat.zero_le _
  | int i => exact Nat.zero_le _
  | float x => exact Nat.zero_le _
  | str s => exact Nat.zero_le _
  | arr xs ih =>
    cases xs with
    | nil => exact Nat.le_of_ble_eq_true rfl
    | cons x xs =>
      have hle : itemsDepth (x :: xs) ≤ (dumps l x ++ dumpItems l xs).length := by
        refine itemsDepth_le fun v hv ↦ (ih v hv).trans ?_
        rw [List.length_append]
        rcases List.mem_cons.mp hv with rfl | hv
        · omega
        · have hle := length_le_dumpItems l xs v hv
          omega
      rw [Value.depth, dumps, List.length_cons]
      omega
  | obj ms ih =>
    cases ms with
    | nil => exact Nat.le_of_ble_eq_true rfl
    | cons m ms =>
      obtain ⟨k, x⟩ := m
      have hle : membersDepth ((k, x) :: ms) ≤ (memberText l k x (dumpMembers l ms)).length := by
        refine membersDepth_le fun m hm ↦ (ih m hm).trans ?_
        have hlen := length_memberText l k x (dumpMembers l ms)
        rcases List.mem_cons.mp hm with rfl | hm
        · simp only
          omega
        · have hle := length_le_dumpMembers l ms m hm
          omega
      rw [memberText] at hle
      rw [Value.depth, dumps, List.length_cons]
      omega

private theorem hexDigit_isAscii (d : Fin 16) : (hexDigit d).IsAscii := by
  revert d
  decide

private theorem digit_isAscii (d : Fin 10) : (digit d).IsAscii := by
  revert d
  decide

private theorem unicodeEscape_isAscii (n : ℕ) : Str.IsAscii (unicodeEscape n) :=
  .cons (by decide) <| .cons (by decide) <| .cons (hexDigit_isAscii _) <|
    .cons (hexDigit_isAscii _) <| .cons (hexDigit_isAscii _) <| .cons (hexDigit_isAscii _) .nil

private theorem escape_isAscii (c : CodePoint) : Str.IsAscii (escape true c) := by
  have hescaped := escaped_escape true c
  generalize escape true c = text at hescaped ⊢
  rcases hescaped with ⟨he, -, -⟩ | ⟨-, -, -, hself⟩ | - | -
  · exact .cons (by decide) (.cons he .nil)
  · have hlt : c.val < 0x7F := hself.resolve_right (by decide)
    exact .cons (show c.val < 0x80 by omega) .nil
  · exact unicodeEscape_isAscii _
  · exact (unicodeEscape_isAscii _).append (unicodeEscape_isAscii _)

private theorem stringBody_isAscii (s : Str) : Str.IsAscii (stringBody true s) := by
  refine Str.IsAscii.append (fun c hc ↦ ?_) (.cons (by decide) .nil)
  obtain ⟨d, -, hd⟩ := List.mem_flatMap.mp hc
  exact escape_isAscii d c hd

private theorem decimal_isAscii (n : ℕ) : Str.IsAscii (decimal n) := by
  intro c hc
  have hd := decimal_isDigit n c hc
  simp only [isDigit, Bool.and_eq_true, decide_eq_true_eq] at hd
  show c.val < 0x80
  omega

theorem intText_isAscii (i : ℤ) : Str.IsAscii (intText i) := by
  rw [intText]
  split_ifs
  · exact .cons (by decide) (decimal_isAscii _)
  · exact decimal_isAscii _

private theorem map_digit_isAscii (ds : List (Fin 10)) : Str.IsAscii (ds.map digit) := by
  intro c hc
  obtain ⟨d, -, rfl⟩ := List.mem_map.mp hc
  exact digit_isAscii d

private theorem exponentText_isAscii (e : Option Exponent) : Str.IsAscii (exponentText e) := by
  cases e with
  | none => exact .nil
  | some e =>
    refine .cons (by split_ifs <;> decide) (Str.IsAscii.append ?_ (map_digit_isAscii _))
    cases e.sign with
    | none => exact .nil
    | some minus => cases minus <;> exact .cons (by decide) .nil

private theorem FloatToken.text_isAscii (x : FloatToken) : Str.IsAscii x.text := by
  have hfrac : Str.IsAscii (fractionText x.fraction) := by
    rw [fractionText]
    split_ifs
    · exact .nil
    · exact .cons (by decide) (map_digit_isAscii _)
  rw [x.text_eq]
  refine Str.IsAscii.append ?_ ((decimal_isAscii _).append (hfrac.append (exponentText_isAscii _)))
  split_ifs
  · exact .cons (by decide) .nil
  · exact .nil

private theorem blank_isAscii (l : Layout) : Str.IsAscii l.blank := by
  rw [Layout.blank]
  split_ifs
  · exact .cons (by decide) .nil
  · exact .nil

private theorem dumpItems_isAscii (l : Layout) {xs : List Value}
    (hxs : ∀ v ∈ xs, Str.IsAscii (dumps l v)) : Str.IsAscii (dumpItems l xs) := by
  induction xs with
  | nil => exact .cons (by decide) .nil
  | cons x xs ih =>
    have hrest := ih fun v hv ↦ hxs v (List.mem_cons_of_mem x hv)
    rw [dumpItems]
    exact .cons (by decide) ((blank_isAscii l).append
      ((hxs x List.mem_cons_self).append hrest))

private theorem memberText_isAscii {l : Layout} (hl : l.ensureAscii = true) (k : Str) {x : Value}
    (hx : Str.IsAscii (dumps l x)) {tail : Str} (htail : Str.IsAscii tail) :
    Str.IsAscii (memberText l k x tail) := by
  rw [memberText, hl]
  exact .cons (by decide) ((stringBody_isAscii k).append (.cons (by decide)
    ((blank_isAscii l).append (hx.append htail))))

private theorem dumpMembers_isAscii {l : Layout} (hl : l.ensureAscii = true)
    {ms : List (Str × Value)} (hms : ∀ m ∈ ms, Str.IsAscii (dumps l m.2)) :
    Str.IsAscii (dumpMembers l ms) := by
  induction ms with
  | nil => exact .cons (by decide) .nil
  | cons m ms ih =>
    obtain ⟨k, x⟩ := m
    have hrest := ih fun m' hm ↦ hms m' (List.mem_cons_of_mem (k, x) hm)
    rw [dumpMembers_cons]
    exact .cons (by decide) ((blank_isAscii l).append
      (memberText_isAscii hl k (hms (k, x) List.mem_cons_self) hrest))

/-- Under `ensure_ascii` the text is ASCII, whatever the strings contain. -/
theorem dumps_isAscii {l : Layout} (hl : l.ensureAscii = true) (v : Value) :
    Str.IsAscii (dumps l v) := by
  induction v using Value.induct with
  | null =>
    rw [dumps]
    decide
  | bool b =>
    cases b <;>
    · rw [dumps]
      decide
  | int i => exact intText_isAscii i
  | float x => exact x.text_isAscii
  | str s =>
    rw [dumps, hl]
    exact .cons (by decide) (stringBody_isAscii s)
  | arr xs ih =>
    cases xs with
    | nil => exact .cons (by decide) (.cons (by decide) .nil)
    | cons x xs =>
      rw [dumps]
      exact .cons (by decide) ((ih x List.mem_cons_self).append
        (dumpItems_isAscii l fun v hv ↦ ih v (List.mem_cons_of_mem x hv)))
  | obj ms ih =>
    cases ms with
    | nil => exact .cons (by decide) (.cons (by decide) .nil)
    | cons m ms =>
      obtain ⟨k, x⟩ := m
      have hmembers := memberText_isAscii hl k (ih (k, x) List.mem_cons_self)
        (dumpMembers_isAscii hl fun m hm ↦ ih m (List.mem_cons_of_mem (k, x) hm))
      rw [memberText] at hmembers
      rw [dumps]
      exact .cons (by decide) hmembers

end Json
