import Mathlib.Algebra.Order.Field.Rat
import ScrapyExtension.Json.RoundTrip
import ScrapyExtension.Py.Base64

/-!
# What `json.loads` returns

The objects that a plain `json.loads` builds, and the conversions to `float` that a reader applies to
them. A finite float is its value; the numbers that are not finite are one object. Of two members of one
name the later one counts, in the place of the earlier one.

The text of a float is a parameter: what is assumed of it is that `float(repr(x))` is `x`. The limit on the
digits of an integer is left out.
-/

namespace Json

open Py

/-- The text of floats. -/
structure Floats where
  /-- `float.__repr__` -/
  repr : ℚ → FloatToken
  /-- `float(text)`; `none` when that raises, or is not finite -/
  value : Str → Option ℚ
  /-- `float(i)`; `none` when that raises -/
  ofInt : ℤ → Option ℚ

/-- A float is read back from its text. -/
def Floats.Faithful (F : Floats) : Prop := ∀ x, F.value (F.repr x).text = some x

/-- What `json.loads` returns. -/
inductive Loaded where
  /-- `None` -/
  | none
  /-- `bool` -/
  | bool (b : Bool)
  /-- `int` -/
  | int (i : ℤ)
  /-- `float`; `none` when it is not finite -/
  | float (x : Option ℚ)
  /-- `str` -/
  | str (s : Str)
  /-- `list` -/
  | list (xs : List Loaded)
  /-- `dict`, without repeated keys -/
  | dict (ms : List (Str × Loaded))

/-- A dict of pairs: the last value of a key counts. -/
def dictOf (pairs : List (Str × Loaded)) : List (Str × Loaded) :=
  pairs.foldl
    (fun ms m ↦ if (ms.lookup m.1).isSome then ms.map fun n ↦ if n.1 = m.1 then m else n else ms ++ [m]) []

/-- The hooks of a plain `json.loads`. -/
def loadHooks (F : Floats) : Hooks Loaded where
  null := .none
  bool := .bool
  int i := some (.int i)
  float token := some (.float (F.value token))
  constant _ := some (.float none)
  str := .str
  arr := .list
  obj ms := some (.dict (dictOf ms))

/-- `json.loads(state.decode("utf-8"))`; `none` when that raises -/
def loadBytes (F : Floats) (limit : ℕ) (state : Bytes) : Option Loaded :=
  (decodeUtf8 false state).bind fun text ↦ (loads (loadHooks F) limit text).toOption

/-- `json.dumps(v).encode("utf-8")`. The text is ASCII, so that is octet for character. -/
def dumpBytes (l : Layout) (v : Value) : Bytes := Str.ascii (dumps l v)

/-! ## Conversions -/

/-- A finite number, but no boolean. -/
def Loaded.finiteNumber (F : Floats) : Loaded → Option ℚ
  | .int i => F.ofInt i
  | .float x => x
  | _ => Option.none

/-- `float(x)`, when that is finite. -/
def Loaded.toFloat (F : Floats) : Loaded → Option ℚ
  | .bool b => some (if b then 1 else 0)
  | .int i => F.ofInt i
  | .float x => x
  | .str s => F.value s
  | _ => Option.none

/-- `base64.b64decode(x, validate=True)`; `none` when that raises -/
def Loaded.base64 : Loaded → Option Bytes
  | .str s => Base64.decode s
  | _ => Option.none

/-! ## Round trip -/

variable {F : Floats}

theorem dictOf_eq {pairs : List (Str × Loaded)} (hnodup : (pairs.map Prod.fst).Nodup) :
    dictOf pairs = pairs := by
  have hloop : ∀ acc rest : List (Str × Loaded), ((acc ++ rest).map Prod.fst).Nodup →
      rest.foldl (fun ms m ↦ if (ms.lookup m.1).isSome then ms.map fun n ↦ if n.1 = m.1 then m else n
        else ms ++ [m]) acc = acc ++ rest := by
    intro acc rest
    induction rest generalizing acc with
    | nil =>
      intro _
      rw [List.foldl_nil, List.append_nil]
    | cons m rest ih =>
      intro hacc
      have hnew : acc.lookup m.1 = Option.none := by
        rw [List.lookup_eq_none_iff]
        intro n hn
        rw [List.map_append, List.map_cons] at hacc
        have hne : m.1 ≠ n.1 := fun heq ↦ List.disjoint_of_nodup_append hacc
          (List.mem_map_of_mem hn) (heq ▸ List.mem_cons_self)
        simpa using hne
      rw [List.foldl_cons, hnew, if_neg (by simp), ih (acc ++ [m]) (by simpa using hacc), List.append_assoc]
      rfl
  exact hloop [] pairs hnodup

/-- **Round trip** of a text under `ensure_ascii`. -/
theorem loadBytes_dumpBytes {l : Layout} (hl : l.ensureAscii = true) {v : Value} {limit : ℕ}
    (hlimit : v.depth ≤ limit) : loadBytes F limit (dumpBytes l v) = (v.readBack l).fold (loadHooks F) := by
  rw [loadBytes, dumpBytes, decodeUtf8_ascii (dumps_isAscii hl v), Option.bind_some, loads_dumps_readBack _ l hlimit]
  rcases (v.readBack l).fold (loadHooks F) with - | x <;> rfl

theorem foldItems_map {β : Type} {xs : List β} {f : β → Value} {g : β → Loaded}
    (h : ∀ x ∈ xs, (f x).fold (loadHooks F) = some (g x)) :
    foldItems (loadHooks F) (xs.map f) = some (xs.map g) := by
  induction xs with
  | nil => rfl
  | cons x xs ih =>
    rw [List.map_cons, foldItems, h x List.mem_cons_self, ih fun y hy ↦ h y (List.mem_cons_of_mem x hy)]
    rfl

theorem itemsScalar_map {β : Type} {xs : List β} {f : β → Value} (h : ∀ x ∈ xs, (f x).IsScalar) :
    ItemsScalar (xs.map f) := by
  induction xs with
  | nil => exact trivial
  | cons x xs ih => exact ⟨h x List.mem_cons_self, ih fun y hy ↦ h y (List.mem_cons_of_mem x hy)⟩

theorem itemsDepth_map_le {β : Type} {xs : List β} {f : β → Value} {n : ℕ} (h : ∀ x ∈ xs, (f x).depth ≤ n) :
    itemsDepth (xs.map f) ≤ n := by
  induction xs with
  | nil => exact Nat.zero_le n
  | cons x xs ih =>
    rw [List.map_cons, itemsDepth]
    exact max_le (h x List.mem_cons_self) (ih fun y hy ↦ h y (List.mem_cons_of_mem x hy))

theorem mapM_map_eq {β γ δ : Type} {f : γ → Option δ} {g : β → γ} {k : β → δ} {l : List β}
    (h : ∀ x ∈ l, f (g x) = some (k x)) : (l.map g).mapM f = some (l.map k) := by
  induction l with
  | nil => rfl
  | cons x l ih =>
    rw [List.map_cons, List.mapM_cons, h x List.mem_cons_self, ih fun y hy ↦ h y (List.mem_cons_of_mem x hy)]
    rfl

/-! ## Strings with surrogate pairs -/

/-- A high surrogate comes right before a low one. -/
def hasPair : Str → Bool
  | c :: d :: s => (isHigh c && isLow d) || hasPair (d :: s)
  | _ => false

theorem isLow_joinPair {c d : CodePoint} (hc : isHigh c = true) (hd : isLow d = true) :
    isLow (joinPair c d) = false ∧ isHigh (joinPair c d) = false := by
  rw [isHigh, Bool.and_eq_true, decide_eq_true_eq, decide_eq_true_eq] at hc
  rw [isLow, Bool.and_eq_true, decide_eq_true_eq, decide_eq_true_eq] at hd
  have hval : (joinPair c d).val = 0x10000 + (c.val - 0xD800) * 0x400 + (d.val - 0xDC00) :=
    Nat.mod_eq_of_lt (by omega)
  rw [isLow, isHigh, hval]
  constructor
  · rw [Bool.and_eq_false_iff, decide_eq_false_iff_not, decide_eq_false_iff_not]
    omega
  · rw [Bool.and_eq_false_iff, decide_eq_false_iff_not, decide_eq_false_iff_not]
    omega

/-- A joined string begins with a low surrogate only if the string does. -/
theorem head_joinPairs {c d : CodePoint} {s t : Str} (h : joinPairs (c :: s) = d :: t) :
    d = c ∨ isLow d = false := by
  rcases s with - | ⟨e, s⟩
  · rw [joinPairs, List.cons.injEq] at h
    exact .inl h.1.symm
  · rw [joinPairs] at h
    split_ifs at h with hpair
    · rw [Bool.and_eq_true] at hpair
      obtain ⟨rfl, -⟩ := List.cons.inj h
      exact .inr (isLow_joinPair hpair.1 hpair.2).1
    · obtain ⟨rfl, -⟩ := List.cons.inj h
      exact .inl rfl

theorem hasPair_cons_of_not_high {c : CodePoint} (hc : isHigh c = false) (s : Str) :
    hasPair (c :: s) = hasPair s := by
  rcases s with - | ⟨d, s⟩
  · rfl
  · rw [hasPair, hc, Bool.false_and, Bool.false_or]

/-- **No pair is left** when all are joined. -/
theorem hasPair_joinPairs (s : Str) : hasPair (joinPairs s) = false := by
  induction s using joinPairs.induct with
  | case1 => rfl
  | case2 c => rfl
  | case3 c d s hpair ih =>
    rw [joinPairs, if_pos hpair]
    rw [Bool.and_eq_true] at hpair
    rw [hasPair_cons_of_not_high (isLow_joinPair hpair.1 hpair.2).2, ih]
  | case4 c d s hpair ih =>
    rw [joinPairs, if_neg hpair]
    rcases hjoin : joinPairs (d :: s) with - | ⟨e, t⟩
    · rfl
    · have hfirst : (isHigh c && isLow e) = false := by
        rcases head_joinPairs hjoin with rfl | hlow
        · exact Bool.not_eq_true _ ▸ hpair
        · rw [hlow, Bool.and_false]
      rw [hasPair, hfirst, Bool.false_or, ← hjoin, ih]

theorem joinPairs_of_not_hasPair {s : Str} (h : hasPair s = false) : joinPairs s = s := by
  induction s using joinPairs.induct with
  | case1 => rfl
  | case2 c => rfl
  | case3 c d s hpair ih =>
    rw [hasPair, hpair, Bool.true_or] at h
    exact absurd h (by decide)
  | case4 c d s hpair ih =>
    rw [hasPair, Bool.or_eq_false_iff] at h
    rw [joinPairs, if_neg hpair, ih h.2]

/-! ## Fractions as floats -/

/-- The digits of a positive number. -/
def digitsOf (n : ℕ) : List (Fin 10) := (Nat.digits 10 n).reverse.map (Fin.ofNat 10)

theorem digitsOf_ne_nil {n : ℕ} (h : n ≠ 0) : digitsOf n ≠ [] := by
  have hne : Nat.digits 10 n ≠ [] := Nat.digits_ne_nil_iff_ne_zero.mpr h
  simpa only [digitsOf, ne_eq, List.map_eq_nil_iff, List.reverse_eq_nil_iff] using hne

theorem map_digitsOf {n : ℕ} (h : n ≠ 0) : (digitsOf n).map digit = decimal n := by
  rw [digitsOf, decimal, if_neg h, List.map_map]
  rfl

/-- Exact numbers in place of floats. A whole number has its text; of another one the denominator is in the
place of the exponent. -/
def fractions : Floats where
  repr x :=
    ⟨decide (x < 0), x.num.natAbs, [0],
      if x.den = 1 then Option.none else some ⟨true, Option.none, digitsOf x.den, digitsOf_ne_nil x.den_nz⟩,
      .inl (List.cons_ne_nil _ _)⟩
  value s :=
    let unsigned := if s.head? = some (chr '-') then s.tail else s
    let whole : ℚ := readDecimal (unsigned.takeWhile isDigit)
    let size := match (unsigned.dropWhile isDigit).drop 2 with
      | [] => whole
      | _ :: ds => whole / readDecimal ds
    some (if s.head? = some (chr '-') then -size else size)
  ofInt i := some i

/-- The text without its sign. -/
def unsignedText (x : ℚ) : Str :=
  decimal x.num.natAbs ++ (chr '.' :: chr '0' :: if x.den = 1 then [] else chr 'E' :: decimal x.den)

theorem text_fractions (x : ℚ) :
    (fractions.repr x).text = (if x < 0 then [chr '-'] else []) ++ unsignedText x := by
  rw [unsignedText, FloatToken.text]
  simp only [fractions, decide_eq_true_eq, fractionText, List.cons_ne_nil, if_false, List.map_cons, List.map_nil,
    List.cons_append, List.nil_append]
  split_ifs with hneg hden hden <;>
    simp only [Exponent.text, if_true, List.nil_append, map_digitsOf x.den_nz] <;> rfl

theorem fractions_faithful : fractions.Faithful := by
  intro x
  have hdigit : ∀ c ∈ decimal x.num.natAbs, isDigit c = true := decimal_isDigit _
  have hpoint : ¬ isDigit (chr '.') = true := by decide
  have htake : (unsignedText x).takeWhile isDigit = decimal x.num.natAbs := by
    rw [unsignedText, List.takeWhile_append_of_pos hdigit, List.takeWhile_cons_of_neg hpoint, List.append_nil]
  have hdrop : (unsignedText x).dropWhile isDigit =
      chr '.' :: chr '0' :: if x.den = 1 then [] else chr 'E' :: decimal x.den := by
    rw [unsignedText, List.dropWhile_append_of_pos hdigit, List.dropWhile_cons_of_neg hpoint]
  have hhead : (unsignedText x).head? ≠ some (chr '-') := by
    rcases hdecimal : decimal x.num.natAbs with - | ⟨d, ds⟩
    · rw [unsignedText, hdecimal, List.nil_append, List.head?_cons]
      decide
    · rw [unsignedText, hdecimal]
      intro heq
      have hd := hdigit d (hdecimal ▸ List.mem_cons_self)
      rw [List.cons_append, List.head?_cons, Option.some.injEq] at heq
      rw [heq] at hd
      exact absurd hd (by decide)
  have hsize : (match ((unsignedText x).dropWhile isDigit).drop 2 with
      | [] => (readDecimal ((unsignedText x).takeWhile isDigit) : ℚ)
      | _ :: ds => readDecimal ((unsignedText x).takeWhile isDigit) / readDecimal ds) = |x| := by
    have habs : |x| = (x.num.natAbs : ℚ) / x.den := by
      rw [Nat.cast_natAbs, Int.cast_abs]
      conv_lhs => rw [← Rat.num_div_den x]
      rw [abs_div, Nat.abs_cast]
    rw [hdrop, htake, readDecimal_decimal]
    by_cases hden : x.den = 1
    · simp [hden, habs]
    · simp [hden, habs]
  rw [text_fractions]
  by_cases hneg : x < 0
  · rw [if_pos hneg]
    simp only [fractions, List.cons_append, List.nil_append, List.head?_cons, List.tail_cons, if_true, hsize]
    rw [abs_of_neg hneg, neg_neg]
  · rw [if_neg hneg, List.nil_append]
    simp only [fractions, if_neg hhead, hsize]
    rw [abs_of_nonneg (not_lt.mp hneg)]

end Json
