import Mathlib.Data.Nat.Digits.Defs
import Mathlib.Tactic

/-!
# Text, bytes and numerals

A Python `str` is a sequence of code points, surrogates included, and a `bytes` is a sequence of
octets. Lean's `String` cannot hold a lone surrogate, so text is kept as a list of code points;
`str "abc"` is the text of a Lean literal.

## Numerals

The two numeral systems that occur in texts, decimal integers and four-digit hexadecimal escapes,
are written here together with the readers that invert them. Both are big-endian lists of code
points; the arithmetic behind the decimal case is Mathlib's `Nat.digits`.
-/

namespace Py

/-- A Unicode code point, surrogates included. -/
abbrev CodePoint := Fin 0x110000

/-- A Python `str`. -/
abbrev Str := List CodePoint

/-- One octet. -/
abbrev Byte := Fin 0x100

/-- A Python `bytes`. -/
abbrev Bytes := List Byte

/-! Instances that every text needs, under names of their own. -/

instance neZero_codePoint : NeZero 0x110000 := ⟨by decide⟩

instance neZero_byte : NeZero 0x100 := ⟨by decide⟩

instance neZero_ten : NeZero 10 := ⟨by decide⟩

instance neZero_sixteen : NeZero 16 := ⟨by decide⟩

instance CodePoint.lawfulBEq : LawfulBEq CodePoint := inferInstance

instance Str.lawfulBEq : LawfulBEq Str := inferInstance

instance Byte.lawfulBEq : LawfulBEq Byte := inferInstance

instance Bytes.lawfulBEq : LawfulBEq Bytes := inferInstance

/-- The code point of a character. -/
def chr (c : Char) : CodePoint := Fin.ofNat _ c.toNat

/-- The text of a literal. -/
def str (s : String) : Str := s.toList.map chr

/-- Not a surrogate. -/
def CodePoint.IsScalar (c : CodePoint) : Prop := c.val < 0xD800 ∨ 0xE000 ≤ c.val

instance (c : CodePoint) : Decidable c.IsScalar := inferInstanceAs (Decidable (_ ∨ _))

/-- A text without lone surrogates. -/
def Str.IsScalar (s : Str) : Prop := ∀ c ∈ s, CodePoint.IsScalar c

instance (s : Str) : Decidable s.IsScalar := List.decidableBAll CodePoint.IsScalar s

/-! ## ASCII -/

/-- A code point below `0x80`. -/
def CodePoint.IsAscii (c : CodePoint) : Prop := c.val < 0x80

/-- A text of ASCII code points only. -/
def Str.IsAscii (s : Str) : Prop := ∀ c ∈ s, CodePoint.IsAscii c

instance (c : CodePoint) : Decidable c.IsAscii := inferInstanceAs (Decidable (_ < _))

instance (s : Str) : Decidable s.IsAscii := List.decidableBAll CodePoint.IsAscii s

/-- The octet of an ASCII code point. -/
def CodePoint.toByte (c : CodePoint) : Byte := Fin.ofNat _ c.val

/-- The code point of an octet. -/
def Byte.toCodePoint (b : Byte) : CodePoint := Fin.ofNat _ b.val

theorem CodePoint.toCodePoint_toByte {c : CodePoint} (hc : c.IsAscii) :
    Byte.toCodePoint c.toByte = c := by
  have h : c.val < 0x80 := hc
  apply Fin.ext
  simp only [Byte.toCodePoint, CodePoint.toByte, Fin.val_ofNat]
  omega

theorem CodePoint.toByte_lt {c : CodePoint} (hc : c.IsAscii) : c.toByte.val < 0x80 := by
  have h : c.val < 0x80 := hc
  simp only [CodePoint.toByte, Fin.val_ofNat]
  omega

theorem CodePoint.IsAscii.isScalar {c : CodePoint} (hc : c.IsAscii) : c.IsScalar := by
  have h : c.val < 0x80 := hc
  left
  omega

theorem Str.IsAscii.nil : Str.IsAscii [] := fun _ hc ↦ absurd hc List.not_mem_nil

theorem Str.IsAscii.cons {c : CodePoint} {s : Str} (hc : c.IsAscii) (hs : s.IsAscii) :
    Str.IsAscii (c :: s) := by
  intro d hd
  rcases List.mem_cons.mp hd with rfl | hd
  · exact hc
  · exact hs d hd

theorem Str.IsAscii.append {s t : Str} (hs : s.IsAscii) (ht : t.IsAscii) : (s ++ t).IsAscii := by
  intro c hc
  rcases List.mem_append.mp hc with h | h
  · exact hs c h
  · exact ht c h

/-! ## UTF-8 -/

/-- The octet with a given value. -/
def byte (n : ℕ) : Byte := Fin.ofNat _ n

/-- The UTF-8 octets of a code point. Surrogates get the three-octet form that Python writes
under the `surrogatepass` error handler. -/
def utf8CodePoint (c : CodePoint) : Bytes :=
  let n := c.val
  if n < 0x80 then [byte n]
  else if n < 0x800 then [byte (0xC0 + n / 0x40), byte (0x80 + n % 0x40)]
  else if n < 0x10000 then
    [byte (0xE0 + n / 0x1000), byte (0x80 + n / 0x40 % 0x40), byte (0x80 + n % 0x40)]
  else
    [byte (0xF0 + n / 0x40000), byte (0x80 + n / 0x1000 % 0x40), byte (0x80 + n / 0x40 % 0x40),
      byte (0x80 + n % 0x40)]

/-- `s.encode("utf-8")`; `none` is the `UnicodeEncodeError` of a lone surrogate. -/
def encodeUtf8 (s : Str) : Option Bytes :=
  if s.IsScalar then some (s.flatMap utf8CodePoint) else none

/-- A continuation octet. -/
def isContinuation (b : Byte) : Bool := 0x80 ≤ b.val && b.val < 0xC0

/-- The six payload bits of a continuation octet. -/
def continuation (b : Byte) : ℕ := b.val % 0x40

/-- Decode UTF-8. Overlong forms and values above `0x10FFFF` are refused; surrogates only pass
with `surrogatepass`. -/
def decodeUtf8 (surrogatepass : Bool) : Bytes → Option Str
  | [] => some []
  | a :: s =>
    if a.val < 0x80 then (Byte.toCodePoint a :: ·) <$> decodeUtf8 surrogatepass s
    else if a.val < 0xC2 then none
    else if a.val < 0xE0 then
      match s with
      | b :: s =>
        if isContinuation b then
          (Fin.ofNat _ ((a.val - 0xC0) * 0x40 + continuation b) :: ·) <$>
            decodeUtf8 surrogatepass s
        else none
      | _ => none
    else if a.val < 0xF0 then
      match s with
      | b :: c :: s =>
        let n := (a.val - 0xE0) * 0x1000 + continuation b * 0x40 + continuation c
        if isContinuation b && isContinuation c && 0x800 ≤ n &&
            (surrogatepass || n < 0xD800 || 0xE000 ≤ n) then
          (Fin.ofNat _ n :: ·) <$> decodeUtf8 surrogatepass s
        else none
      | _ => none
    else
      match s with
      | b :: c :: d :: s =>
        let n := (a.val - 0xF0) * 0x40000 + continuation b * 0x1000 + continuation c * 0x40 +
          continuation d
        if a.val < 0xF5 && isContinuation b && isContinuation c && isContinuation d &&
            0x10000 ≤ n && n < 0x110000 then
          (Fin.ofNat _ n :: ·) <$> decodeUtf8 surrogatepass s
        else none
      | _ => none

/-- The octets of an ASCII text. -/
def Str.ascii (s : Str) : Bytes := s.map CodePoint.toByte

theorem encodeUtf8_ascii {s : Str} (hs : s.IsAscii) : encodeUtf8 s = some s.ascii := by
  have hscalar : s.IsScalar := fun c hc ↦ (hs c hc).isScalar
  rw [encodeUtf8, if_pos hscalar]
  congr 1
  induction s with
  | nil => rfl
  | cons c s ih =>
    have hc : c.val < 0x80 := hs c List.mem_cons_self
    have hrest := ih (fun d hd ↦ hs d (List.mem_cons_of_mem c hd))
      (fun d hd ↦ hscalar d (List.mem_cons_of_mem c hd))
    rw [List.flatMap_cons, hrest]
    simp [utf8CodePoint, hc, Str.ascii, CodePoint.toByte, byte]

theorem decodeUtf8_cons {a : Byte} (ha : a.val < 0x80) (surrogatepass : Bool) (s : Bytes) :
    decodeUtf8 surrogatepass (a :: s) =
      (Byte.toCodePoint a :: ·) <$> decodeUtf8 surrogatepass s := by
  rw [decodeUtf8.eq_def]
  simp only [if_pos ha]

theorem decodeUtf8_ascii {s : Str} (hs : s.IsAscii) (surrogatepass : Bool) :
    decodeUtf8 surrogatepass s.ascii = some s := by
  induction s with
  | nil => rfl
  | cons c s ih =>
    have hc := hs c List.mem_cons_self
    have hrest := ih fun d hd ↦ hs d (List.mem_cons_of_mem c hd)
    rw [Str.ascii] at hrest ⊢
    rw [List.map_cons, decodeUtf8_cons (CodePoint.toByte_lt hc), hrest,
      CodePoint.toCodePoint_toByte hc]
    rfl

theorem val_byte {n : ℕ} (h : n < 256) : (byte n).val = n := Nat.mod_eq_of_lt h

/-- A code point that is not a surrogate is read back from its octets. -/
theorem decodeUtf8_utf8CodePoint {c : CodePoint} (hc : c.IsScalar) (surrogatepass : Bool) (s : Bytes) :
    decodeUtf8 surrogatepass (utf8CodePoint c ++ s) = (c :: ·) <$> decodeUtf8 surrogatepass s := by
  have hlt := c.isLt
  unfold CodePoint.IsScalar at hc
  unfold utf8CodePoint
  simp only
  have hself : ∀ n, n = c.val → (Fin.ofNat 0x110000 n : CodePoint) = c := by
    rintro n rfl
    exact Fin.ext (Nat.mod_eq_of_lt hlt)
  split_ifs with h₁ h₂ h₃
  · rw [List.singleton_append, decodeUtf8_cons (by rw [val_byte (by omega)]; exact h₁)]
    have hback : Byte.toCodePoint (byte c.val) = c := by
      rw [Byte.toCodePoint, val_byte (by omega)]
      exact hself _ rfl
    rw [hback]
  · have ha : (byte (0xC0 + c.val / 0x40)).val = 0xC0 + c.val / 0x40 := val_byte (by omega)
    have hb : (byte (0x80 + c.val % 0x40)).val = 0x80 + c.val % 0x40 := val_byte (by omega)
    simp only [List.cons_append, List.nil_append]
    rw [decodeUtf8.eq_def]
    simp only [ha, isContinuation, continuation, hb]
    rw [if_neg (by omega), if_neg (by omega), if_pos (by omega), if_pos (by simp; omega), hself _ (by omega)]
  · have ha : (byte (0xE0 + c.val / 0x1000)).val = 0xE0 + c.val / 0x1000 := val_byte (by omega)
    have hb : (byte (0x80 + c.val / 0x40 % 0x40)).val = 0x80 + c.val / 0x40 % 0x40 := val_byte (by omega)
    have hd : (byte (0x80 + c.val % 0x40)).val = 0x80 + c.val % 0x40 := val_byte (by omega)
    simp only [List.cons_append, List.nil_append]
    rw [decodeUtf8.eq_def]
    simp only [ha, isContinuation, continuation, hb, hd]
    rw [if_neg (by omega), if_neg (by omega), if_neg (by omega), if_pos (by omega), if_pos (by simp; omega),
      hself _ (by omega)]
  · have ha : (byte (0xF0 + c.val / 0x40000)).val = 0xF0 + c.val / 0x40000 := val_byte (by omega)
    have hb : (byte (0x80 + c.val / 0x1000 % 0x40)).val = 0x80 + c.val / 0x1000 % 0x40 := val_byte (by omega)
    have hd : (byte (0x80 + c.val / 0x40 % 0x40)).val = 0x80 + c.val / 0x40 % 0x40 := val_byte (by omega)
    have he : (byte (0x80 + c.val % 0x40)).val = 0x80 + c.val % 0x40 := val_byte (by omega)
    simp only [List.cons_append, List.nil_append]
    rw [decodeUtf8.eq_def]
    simp only [ha, isContinuation, continuation, hb, hd, he]
    rw [if_neg (by omega), if_neg (by omega), if_neg (by omega), if_neg (by omega), if_pos (by simp; omega),
      hself _ (by omega)]

/-- A text is read back from its octets. -/
theorem decodeUtf8_encodeUtf8 {s : Str} {b : Bytes} (h : encodeUtf8 s = some b) (surrogatepass : Bool) :
    decodeUtf8 surrogatepass b = some s := by
  unfold encodeUtf8 at h
  split_ifs at h with hscalar
  obtain rfl := Option.some.inj h
  clear h
  induction s with
  | nil => rfl
  | cons c s ih =>
    rw [List.flatMap_cons, decodeUtf8_utf8CodePoint (hscalar c List.mem_cons_self),
      ih fun d hd ↦ hscalar d (List.mem_cons_of_mem c hd)]
    rfl

/-! ## Decimal numerals -/

/-- The code point of a decimal digit. -/
def digit (d : Fin 10) : CodePoint := ⟨48 + d.val, by omega⟩

/-- `0` to `9`. -/
def isDigit (c : CodePoint) : Bool := 48 ≤ c.val && c.val ≤ 57

/-- The value of a decimal digit. -/
def digitValue (c : CodePoint) : ℕ := c.val - 48

/-- The decimal digits of a natural number, most significant first. -/
def decimal (n : ℕ) : Str :=
  if n = 0 then [chr '0'] else (Nat.digits 10 n).reverse.map fun d ↦ digit (Fin.ofNat 10 d)

/-- The value of a run of decimal digits. -/
def readDecimal (s : Str) : ℕ := s.foldl (fun n c ↦ 10 * n + digitValue c) 0

@[simp] theorem isDigit_digit (d : Fin 10) : isDigit (digit d) = true := by
  revert d
  decide

@[simp] theorem digitValue_digit (d : Fin 10) : digitValue (digit d) = d.val := by
  simp [digitValue, digit]

theorem decimal_isDigit (n : ℕ) : ∀ c ∈ decimal n, isDigit c = true := by
  intro c hc
  rw [decimal] at hc
  split at hc
  · rw [List.mem_singleton] at hc
    rw [hc]
    decide
  · obtain ⟨d, -, rfl⟩ := List.mem_map.mp hc
    exact isDigit_digit _

private theorem foldl_reverse_digits (ds : List ℕ) (hds : ∀ d ∈ ds, d < 10) :
    (ds.reverse.map fun d ↦ digit (Fin.ofNat 10 d)).foldl (fun n c ↦ 10 * n + digitValue c) 0 =
      Nat.ofDigits 10 ds := by
  induction ds with
  | nil => rfl
  | cons d ds ih =>
    have hd : d < 10 := hds d List.mem_cons_self
    have hrest := ih fun e he ↦ hds e (List.mem_cons_of_mem d he)
    rw [List.reverse_cons, List.map_append, List.foldl_append, hrest, Nat.ofDigits_cons]
    simp only [List.map_cons, List.map_nil, List.foldl_cons, List.foldl_nil, digitValue_digit,
      Fin.val_ofNat, Nat.mod_eq_of_lt hd]
    exact Nat.add_comm _ _

@[simp] theorem readDecimal_decimal (n : ℕ) : readDecimal (decimal n) = n := by
  rw [readDecimal, decimal]
  split
  · next h =>
    rw [h]
    decide
  · rw [foldl_reverse_digits _ fun d hd ↦ Nat.digits_lt_base (by omega) hd, Nat.ofDigits_digits]

/-- A numeral has a leading zero only if it is `0`. -/
theorem decimal_cases (n : ℕ) :
    decimal n = [chr '0'] ∨
      ∃ c s, decimal n = c :: s ∧ isDigit c = true ∧ c ≠ chr '0' ∧ ∀ d ∈ s, isDigit d = true := by
  by_cases hn : n = 0
  · left
    rw [decimal, if_pos hn]
  · right
    have hne : Nat.digits 10 n ≠ [] := Nat.digits_ne_nil_iff_ne_zero.mpr hn
    have hlead := Nat.getLast_digit_ne_zero 10 hn
    have hlt := Nat.digits_lt_base (b := 10) (m := n) (by omega) (List.getLast_mem hne)
    have hsplit : decimal n =
        digit (Fin.ofNat 10 ((Nat.digits 10 n).getLast hne)) ::
          ((Nat.digits 10 n).dropLast.reverse.map fun d ↦ digit (Fin.ofNat 10 d)) := by
      rw [decimal, if_neg hn]
      nth_rewrite 1 [← List.dropLast_append_getLast hne]
      rw [List.reverse_append]
      rfl
    refine ⟨_, _, hsplit, isDigit_digit _, ?_, ?_⟩
    · intro heq
      have hval := congrArg digitValue heq
      rw [digitValue_digit, Fin.val_ofNat, Nat.mod_eq_of_lt hlt] at hval
      exact hlead (hval.trans (by decide))
    · intro d hd
      obtain ⟨e, -, rfl⟩ := List.mem_map.mp hd
      exact isDigit_digit _

/-! ## Hexadecimal digits -/

/-- The code point of a lower-case hexadecimal digit. -/
def hexDigit (d : Fin 16) : CodePoint :=
  if d.val < 10 then ⟨48 + d.val, by omega⟩ else ⟨87 + d.val, by omega⟩

/-- The value of a hexadecimal digit of either case. -/
def hexValue (c : CodePoint) : Option ℕ :=
  if 48 ≤ c.val ∧ c.val ≤ 57 then some (c.val - 48)
  else if 97 ≤ c.val ∧ c.val ≤ 102 then some (c.val - 87)
  else if 65 ≤ c.val ∧ c.val ≤ 70 then some (c.val - 55)
  else none

@[simp] theorem hexValue_hexDigit (d : Fin 16) : hexValue (hexDigit d) = some d.val := by
  revert d
  decide

end Py
