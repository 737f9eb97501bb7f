import ScrapyExtension.Py.Text

/-!
# Integers and bytes

`int.to_bytes` and `int.from_bytes`, in big-endian order, for the numbers that are written into the
text of a hash or read from its digest.
-/

namespace Py

/-- The lowest `length` bytes of a number, the last one the lowest. -/
def lowBytes : (length n : ℕ) → Bytes
  | 0, _ => []
  | length + 1, n => lowBytes length (n / 256) ++ [byte n]

/-- `n.to_bytes(length, "big")`; a number that does not fit is an error. -/
def toBytes (length n : ℕ) : Option Bytes :=
  if n < 256 ^ length then some (lowBytes length n) else none

/-- `int.from_bytes(bytes, "big")` -/
def fromBytes (bytes : Bytes) : ℕ := bytes.foldl (fun n b ↦ 256 * n + b.val) 0

theorem toBytes_isSome {length n : ℕ} (h : n < 256 ^ length) : (toBytes length n).isSome := by
  simp [toBytes, h]

theorem fromBytes_lt (bytes : Bytes) : fromBytes bytes < 256 ^ bytes.length := by
  have hfold : ∀ n, bytes.foldl (fun n (b : Byte) ↦ 256 * n + b.val) n < (n + 1) * 256 ^ bytes.length := by
    induction bytes with
    | nil => simp
    | cons b bytes ih =>
      intro n
      refine (ih (256 * n + b.val)).trans_le ?_
      rw [List.length_cons, pow_succ', ← mul_assoc]
      exact Nat.mul_le_mul_right _ (by have := b.isLt; omega)
  simpa [fromBytes] using hfold 0

@[simp] theorem length_lowBytes (length n : ℕ) : (lowBytes length n).length = length := by
  induction length generalizing n with
  | zero => rfl
  | succ length ih => simp [lowBytes, ih]

theorem fromBytes_lowBytes {length n : ℕ} (h : n < 256 ^ length) : fromBytes (lowBytes length n) = n := by
  induction length generalizing n with
  | zero =>
    have hzero : n = 0 := by simpa using h
    rw [hzero]
    rfl
  | succ length ih =>
    have hdiv : n / 256 < 256 ^ length := Nat.div_lt_of_lt_mul (by rwa [← pow_succ'])
    have hrest := ih hdiv
    rw [fromBytes] at hrest
    simp only [fromBytes, lowBytes, List.foldl_append, List.foldl_cons, List.foldl_nil, hrest]
    exact Nat.div_add_mod n 256

theorem length_of_toBytes {length n : ℕ} {bytes : Bytes} (h : toBytes length n = some bytes) :
    bytes.length = length := by
  unfold toBytes at h
  split_ifs at h
  rw [← Option.some.inj h, length_lowBytes]

/-- A number is read back from its bytes. -/
theorem fromBytes_toBytes {length n : ℕ} {bytes : Bytes} (h : toBytes length n = some bytes) :
    fromBytes bytes = n := by
  unfold toBytes at h
  split_ifs at h with hlt
  rw [← Option.some.inj h, fromBytes_lowBytes hlt]

example : toBytes 4 258 = some [0, 0, 1, 2] := by decide

end Py
