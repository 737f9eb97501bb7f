import ScrapyExtension.Py.Text

/-!
# Base64

The standard alphabet with padding, as `base64.b64encode` writes it and as `base64.b64decode`
reads it under `validate=True`: four-character groups, padding only in the last group and nothing
after it. The unused low bits of a padded group are not checked, as in `binascii`.
-/

namespace Py

namespace Base64

/-- The character of a six-bit value. -/
def char (n : Fin 64) : CodePoint :=
  if n.val < 26 then ⟨65 + n.val, by omega⟩
  else if n.val < 52 then ⟨71 + n.val, by omega⟩
  else if n.val < 62 then ⟨n.val - 4, by omega⟩
  else if n.val = 62 then chr '+'
  else chr '/'

/-- The six-bit value of a character of the alphabet. -/
def value (c : CodePoint) : Option (Fin 64) :=
  if h : 65 ≤ c.val ∧ c.val ≤ 90 then some ⟨c.val - 65, by omega⟩
  else if h : 97 ≤ c.val ∧ c.val ≤ 122 then some ⟨c.val - 71, by omega⟩
  else if h : 48 ≤ c.val ∧ c.val ≤ 57 then some ⟨c.val + 4, by omega⟩
  else if c = chr '+' then some 62
  else if c = chr '/' then some 63
  else none

/-- The padding character. -/
def pad : CodePoint := chr '='

private def sextet (n : ℕ) : CodePoint := char (Fin.ofNat 64 n)

/-- `base64.b64encode(data).decode("ascii")`. -/
def encode : Bytes → Str
  | [] => []
  | [a] => [sextet (a.val / 4), sextet (a.val % 4 * 16), pad, pad]
  | [a, b] =>
    [sextet (a.val / 4), sextet (a.val % 4 * 16 + b.val / 16), sextet (b.val % 16 * 4), pad]
  | a :: b :: c :: s =>
    sextet (a.val / 4) :: sextet (a.val % 4 * 16 + b.val / 16) ::
      sextet (b.val % 16 * 4 + c.val / 64) :: sextet (c.val % 64) :: encode s

/-- `base64.b64decode(s, validate=True)`; `none` is `binascii.Error` or `ValueError`. -/
def decode : Str → Option Bytes
  | [] => some []
  | a :: b :: c :: d :: s => do
    let w ← value a
    let x ← value b
    if d = pad then
      if s ≠ [] then none
      else if c = pad then some [byte (w.val * 4 + x.val / 16)]
      else do
        let y ← value c
        some [byte (w.val * 4 + x.val / 16), byte (x.val % 16 * 16 + y.val / 4)]
    else do
      let y ← value c
      let z ← value d
      let rest ← decode s
      some (byte (w.val * 4 + x.val / 16) :: byte (x.val % 16 * 16 + y.val / 4) ::
        byte (y.val % 4 * 64 + z.val) :: rest)
  | _ => none

@[simp] theorem value_char (n : Fin 64) : value (char n) = some n := by
  revert n
  decide

private theorem char_ne_pad (n : Fin 64) : char n ≠ pad := by
  revert n
  decide

private theorem char_isAscii (n : Fin 64) : (char n).IsAscii := by
  revert n
  decide

private theorem sextet_ne_pad (n : ℕ) : sextet n ≠ pad := char_ne_pad _

private theorem value_sextet {n : ℕ} (hn : n < 64) : value (sextet n) = some ⟨n, hn⟩ := by
  rw [sextet, value_char]
  congr 1
  exact Fin.ext (Nat.mod_eq_of_lt hn)

private theorem byte_eq {n : ℕ} {b : Byte} (h : n = b.val) : byte n = b := by
  apply Fin.ext
  rw [byte, Fin.val_ofNat, h]
  exact Nat.mod_eq_of_lt b.isLt

theorem encode_isAscii (s : Bytes) : Str.IsAscii (encode s) := by
  have hpad : pad.IsAscii := by decide
  intro c hc
  induction s using encode.induct with
  | case1 => cases hc
  | case2 a =>
    simp only [encode, List.mem_cons, List.not_mem_nil, or_false] at hc
    rcases hc with rfl | rfl | rfl | rfl
    exacts [char_isAscii _, char_isAscii _, hpad, hpad]
  | case3 a b =>
    simp only [encode, List.mem_cons, List.not_mem_nil, or_false] at hc
    rcases hc with rfl | rfl | rfl | rfl
    exacts [char_isAscii _, char_isAscii _, char_isAscii _, hpad]
  | case4 a b d s ih =>
    simp only [encode, List.mem_cons] at hc
    rcases hc with rfl | rfl | rfl | rfl | hc
    exacts [char_isAscii _, char_isAscii _, char_isAscii _, char_isAscii _, ih hc]

/-- Decoding inverts encoding. -/
@[simp] theorem decode_encode (s : Bytes) : decode (encode s) = some s := by
  induction s using encode.induct with
  | case1 => rfl
  | case2 a =>
    have ha := a.isLt
    rw [encode, decode, value_sextet (by omega), value_sextet (by omega)]
    simp only [Option.bind_eq_bind, Option.bind_some, if_true, ne_eq, not_true_eq_false, if_false]
    rw [byte_eq (b := a) (by omega)]
  | case3 a b =>
    have ha := a.isLt
    have hb := b.isLt
    rw [encode, decode, value_sextet (by omega), value_sextet (by omega)]
    simp only [Option.bind_eq_bind, Option.bind_some, if_true, ne_eq, not_true_eq_false, if_false,
      if_neg (sextet_ne_pad _)]
    rw [value_sextet (by omega)]
    simp only [Option.bind_some]
    rw [byte_eq (b := a) (by omega), byte_eq (b := b) (by omega)]
  | case4 a b c s ih =>
    have ha := a.isLt
    have hb := b.isLt
    have hc := c.isLt
    rw [encode, decode, value_sextet (by omega), value_sextet (by omega)]
    simp only [Option.bind_eq_bind, Option.bind_some, if_neg (sextet_ne_pad _)]
    rw [value_sextet (by omega), value_sextet (by omega), ih]
    simp only [Option.bind_some]
    rw [byte_eq (b := a) (by omega), byte_eq (b := b) (by omega), byte_eq (b := c) (by omega)]

end Base64

end Py
