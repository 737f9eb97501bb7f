import ScrapyExtension.Py.Text

/-!
# Escaped octets

The `surrogateescape` error handler lets any `bytes` through a `str` and back. What is not UTF-8 becomes
lone surrogates, one for each octet, and these become the octets again.

A decoder that escapes one octet at a time and goes on behind it escapes the same octets as one that
escapes a whole malformed sequence: a continuation octet never begins a sequence.
-/

namespace Py

/-- The code point that begins an octet string, and what is behind it. -/
def decodeFirst : Bytes → Option (CodePoint × Bytes)
  | [] => none
  | a :: s =>
    if a.val < 0x80 then some (Byte.toCodePoint a, s)
    else if a.val < 0xC2 then none
    else if a.val < 0xE0 then
      match s with
      | b :: s =>
        if isContinuation b then some (Fin.ofNat _ ((a.val - 0xC0) * 0x40 + continuation b), s)
        else none
      | _ => none
    else if a.val < 0xF0 then
      match s with
      | b :: c :: s =>
        let n := (a.val - 0xE0) * 0x1000 + continuation b * 0x40 + continuation c
        if isContinuation b && isContinuation c && 0x800 ≤ n && (n < 0xD800 || 0xE000 ≤ n) then
          some (Fin.ofNat _ n, s)
        else none
      | _ => none
    else
      match s with
      | b :: c :: d :: s =>
        let n := (a.val - 0xF0) * 0x40000 + continuation b * 0x1000 + continuation c * 0x40 +
          continuation d
        if a.val < 0xF5 && isContinuation b && isContinuation c && isContinuation d &&
            0x10000 ≤ n && n < 0x110000 then some (Fin.ofNat _ n, s)
        else none
      | _ => none

/-- The surrogate that stands for an octet. -/
def escape (a : Byte) : CodePoint := Fin.ofNat _ (0xDC00 + a.val)

/-- Decode at most `fuel` code points. -/
def decodeEscapedLoop : ℕ → Bytes → Str
  | 0, _ => []
  | _ + 1, [] => []
  | fuel + 1, a :: s =>
    match decodeFirst (a :: s) with
    | some (c, rest) => c :: decodeEscapedLoop fuel rest
    | none => escape a :: decodeEscapedLoop fuel s

/-- `b.decode("utf-8", errors="surrogateescape")` -/
def decodeEscaped (b : Bytes) : Str := decodeEscapedLoop b.length b

/-- The octets of a code point. `none` is the `UnicodeEncodeError` of a surrogate that stands for no
octet. -/
def encodeEscapedCodePoint (c : CodePoint) : Option Bytes :=
  if c.IsScalar then some (utf8CodePoint c)
  else if 0xDC80 ≤ c.val ∧ c.val ≤ 0xDCFF then some [byte (c.val - 0xDC00)]
  else none

/-- `s.encode("utf-8", errors="surrogateescape")` -/
def encodeEscaped : Str → Option Bytes
  | [] => some []
  | c :: s => do
    let octets ← encodeEscapedCodePoint c
    let rest ← encodeEscaped s
    return octets ++ rest

/-! ## There and back -/

theorem val_continuation {b : Byte} (h : isContinuation b = true) :
    b.val = 0x80 + continuation b ∧ continuation b < 0x40 := by
  simp only [isContinuation, Bool.and_eq_true, decide_eq_true_eq] at h
  unfold continuation
  omega

theorem byte_eq {n : ℕ} {a : Byte} (h : n = a.val) : byte n = a := by
  subst h
  exact Fin.ext (Nat.mod_eq_of_lt a.isLt)

theorem val_ofNat {n : ℕ} (h : n < 0x110000) : (Fin.ofNat 0x110000 n).val = n := Nat.mod_eq_of_lt h

/-- A code point that was read is written as the octets it was read from. -/
theorem utf8CodePoint_of_decodeFirst {b rest : Bytes} {c : CodePoint}
    (h : decodeFirst b = some (c, rest)) : c.IsScalar ∧ utf8CodePoint c ++ rest = b := by
  unfold decodeFirst at h
  split at h
  · simp at h
  rename_i a s
  have ha := a.isLt
  unfold CodePoint.IsScalar utf8CodePoint
  split_ifs at h with h₁ h₂ h₃ h₄
  · -- one octet
    obtain ⟨rfl, rfl⟩ := Prod.mk.inj (Option.some.inj h)
    have hval : (Byte.toCodePoint a).val = a.val := val_ofNat (by omega)
    rw [hval]
    refine ⟨.inl (by omega), ?_⟩
    dsimp only
    rw [if_pos h₁, byte_eq rfl, List.singleton_append]
  · -- two octets
    split at h
    · rename_i b s
      split_ifs at h with hb
      obtain ⟨hbval, hblt⟩ := val_continuation hb
      obtain ⟨rfl, rfl⟩ := Prod.mk.inj (Option.some.inj h)
      rw [val_ofNat (by omega)]
      refine ⟨.inl (by omega), ?_⟩
      dsimp only
      rw [if_neg (by omega), if_pos (by omega), byte_eq (a := a) (by omega),
        byte_eq (a := b) (by omega)]
      rfl
    · simp at h
  · -- three octets
    split at h
    · rename_i b d s
      dsimp only at h
      split_ifs at h with hn
      simp only [Bool.and_eq_true, Bool.or_eq_true, decide_eq_true_eq] at hn
      obtain ⟨⟨⟨hb, hd⟩, hlow⟩, hscalar⟩ := hn
      obtain ⟨hbval, hblt⟩ := val_continuation hb
      obtain ⟨hdval, hdlt⟩ := val_continuation hd
      obtain ⟨rfl, rfl⟩ := Prod.mk.inj (Option.some.inj h)
      rw [val_ofNat (by omega)]
      refine ⟨hscalar, ?_⟩
      dsimp only
      rw [if_neg (by omega), if_neg (by omega), if_pos (by omega), byte_eq (a := a) (by omega),
        byte_eq (a := b) (by omega), byte_eq (a := d) (by omega)]
      rfl
    · simp at h
  · -- four octets
    split at h
    · rename_i b d e s
      dsimp only at h
      split_ifs at h with hn
      simp only [Bool.and_eq_true, decide_eq_true_eq] at hn
      obtain ⟨⟨⟨⟨⟨hmax, hb⟩, hd⟩, he⟩, hlow⟩, hhigh⟩ := hn
      obtain ⟨hbval, hblt⟩ := val_continuation hb
      obtain ⟨hdval, hdlt⟩ := val_continuation hd
      obtain ⟨heval, helt⟩ := val_continuation he
      obtain ⟨rfl, rfl⟩ := Prod.mk.inj (Option.some.inj h)
      rw [val_ofNat (by omega)]
      refine ⟨.inr (by omega), ?_⟩
      dsimp only
      rw [if_neg (by omega), if_neg (by omega), if_neg (by omega), byte_eq (a := a) (by omega),
        byte_eq (a := b) (by omega), byte_eq (a := d) (by omega), byte_eq (a := e) (by omega)]
      rfl
    · simp at h

theorem length_lt_of_decodeFirst {b rest : Bytes} {c : CodePoint}
    (h : decodeFirst b = some (c, rest)) : rest.length < b.length := by
  obtain ⟨-, rfl⟩ := utf8CodePoint_of_decodeFirst h
  rw [List.length_append]
  apply Nat.lt_add_of_pos_left
  unfold utf8CodePoint
  dsimp only
  split_ifs <;> simp

/-- An octet that begins nothing is not an ASCII octet, and its surrogate stands for it. -/
theorem encodeEscapedCodePoint_escape {a : Byte} {s : Bytes} (h : decodeFirst (a :: s) = none) :
    encodeEscapedCodePoint (escape a) = some [a] := by
  have ha : 0x80 ≤ a.val := by
    by_contra hlt
    rw [not_le] at hlt
    simp [decodeFirst, hlt] at h
  have hlt := a.isLt
  have hval : (escape a).val = 0xDC00 + a.val := val_ofNat (by omega)
  have hnot : ¬ (escape a).IsScalar := by
    unfold CodePoint.IsScalar
    omega
  rw [encodeEscapedCodePoint, if_neg hnot, if_pos (by omega), byte_eq (a := a) (by omega)]

theorem encodeEscaped_decodeEscapedLoop (fuel : ℕ) (b : Bytes) (hfuel : b.length ≤ fuel) :
    encodeEscaped (decodeEscapedLoop fuel b) = some b := by
  induction fuel generalizing b with
  | zero =>
    obtain rfl : b = [] := List.length_eq_zero_iff.mp (Nat.le_zero.mp hfuel)
    rfl
  | succ fuel ih =>
    cases b with
    | nil => rfl
    | cons a s =>
      have hs : s.length ≤ fuel := Nat.le_of_succ_le_succ hfuel
      cases hfirst : decodeFirst (a :: s) with
      | none =>
        simp only [decodeEscapedLoop, hfirst, encodeEscaped, encodeEscapedCodePoint_escape hfirst,
          ih s hs]
        rfl
      | some p =>
        obtain ⟨c, rest⟩ := p
        obtain ⟨hscalar, hoctets⟩ := utf8CodePoint_of_decodeFirst hfirst
        have hrest : rest.length ≤ fuel :=
          Nat.le_of_lt_succ ((length_lt_of_decodeFirst hfirst).trans_le hfuel)
        simp only [decodeEscapedLoop, hfirst, encodeEscaped, encodeEscapedCodePoint, if_pos hscalar,
          ih rest hrest]
        exact congrArg some hoctets

/-- **Escaped octets come back.** -/
theorem encodeEscaped_decodeEscaped (b : Bytes) : encodeEscaped (decodeEscaped b) = some b :=
  encodeEscaped_decodeEscapedLoop _ b le_rfl

end Py
