import Mathlib.Data.Vector.Defs
import ScrapyExtension.Py.Text

/-!
# Hexadecimal texts

`bytes.hex` writes each byte as two digits. `float.hex` writes a float exactly: the sign, the leading bit, the
thirteen digits of the fraction and the exponent of two; a zero is short, and keeps its sign. Either text is of
one value only, where all not-a-numbers count as one.
-/

namespace Py

theorem hexDigit_injective : Function.Injective hexDigit := by decide

theorem isAscii_hexDigit (d : Fin 16) : (hexDigit d).IsAscii := by
  revert d
  decide

/-! ## Bytes -/

/-- `bytes.hex()` -/
def hexBytes (b : Bytes) : Str :=
  b.flatMap fun x ↦ [hexDigit (Fin.ofNat 16 (x.val / 16)), hexDigit (Fin.ofNat 16 x.val)]

theorem hexBytes_injective : Function.Injective hexBytes := by
  intro s
  induction s with
  | nil =>
    intro t h
    rcases t with - | ⟨y, t⟩
    · rfl
    · exact absurd h (by simp [hexBytes])
  | cons x s ih =>
    intro t h
    rcases t with - | ⟨y, t⟩
    · exact absurd h (by simp [hexBytes])
    simp only [hexBytes, List.flatMap_cons, List.cons_append, List.nil_append, List.cons.injEq] at h
    obtain ⟨hhigh, hlow, hrest⟩ := h
    have hh := congrArg Fin.val (hexDigit_injective hhigh)
    have hl := congrArg Fin.val (hexDigit_injective hlow)
    rw [Fin.val_ofNat, Fin.val_ofNat] at hh hl
    have hxy : x = y := by
      have := x.isLt
      have := y.isLt
      exact Fin.ext (by omega)
    rw [hxy, ih hrest]

theorem isAscii_hexBytes (b : Bytes) : (hexBytes b).IsAscii := by
  intro c hc
  obtain ⟨x, -, hc⟩ := List.mem_flatMap.1 hc
  rcases List.mem_cons.1 hc with rfl | hc
  · exact isAscii_hexDigit _
  · rw [List.mem_singleton.1 hc]
    exact isAscii_hexDigit _

/-! ## Floats -/

/-- A float: the sign, the biased exponent and the 52 bits of the fraction as hexadecimal digits. -/
inductive FloatBits
  | nan
  | inf (negative : Bool)
  | finite (negative : Bool) (exponent : Fin 2047) (fraction : List.Vector (Fin 16) 13)
deriving DecidableEq

namespace FloatBits

/-- A leading minus sign. -/
def sign (negative : Bool) : Str := if negative then [chr '-'] else []

/-- The digits of a fraction. -/
def digits (fraction : List.Vector (Fin 16) 13) : Str := fraction.toList.map hexDigit

/-- An exponent with its sign. -/
def signed (i : ℤ) : Str := (if i < 0 then chr '-' else chr '+') :: decimal i.natAbs

/-- The text of a finite float without its sign. -/
def magnitude (exponent : Fin 2047) (fraction : List.Vector (Fin 16) 13) : Str :=
  if exponent = 0 ∧ ∀ d ∈ fraction.toList, d = 0 then str "0x0.0p+0"
  else if exponent = 0 then str "0x0." ++ (digits fraction ++ str "p-1022")
  else str "0x1." ++ (digits fraction ++ (chr 'p' :: signed (exponent.val - 1023)))

/-- `float.hex()` -/
def hex : FloatBits → Str
  | .nan => str "nan"
  | .inf negative => sign negative ++ str "inf"
  | .finite negative exponent fraction => sign negative ++ magnitude exponent fraction

example : hex (.finite false 1023 (.replicate 13 0)) = str "0x1.0000000000000p+0" := by decide

variable {e e' : Fin 2047} {f f' : List.Vector (Fin 16) 13}

theorem length_digits (f : List.Vector (Fin 16) 13) : (digits f).length = 13 := by
  rw [digits, List.length_map, List.Vector.toList_length]

theorem digits_injective : Function.Injective digits := fun _ _ h ↦
  List.Vector.toList_injective (List.map_injective_iff.2 hexDigit_injective h)

theorem signed_injective : Function.Injective signed := by
  intro i j h
  rw [signed, signed, List.cons.injEq] at h
  obtain ⟨hsign, hdigits⟩ := h
  have habs : i.natAbs = j.natAbs := by
    rw [← readDecimal_decimal i.natAbs, hdigits, readDecimal_decimal]
  have hiff : i < 0 ↔ j < 0 := by
    by_cases hi : i < 0 <;> by_cases hj : j < 0
    · exact iff_of_true hi hj
    · rw [if_pos hi, if_neg hj] at hsign
      exact absurd hsign (by decide)
    · rw [if_neg hi, if_pos hj] at hsign
      exact absurd hsign (by decide)
    · exact iff_of_false hi hj
  omega

/-- A zero. -/
def IsZero (e : Fin 2047) (f : List.Vector (Fin 16) 13) : Prop := e = 0 ∧ ∀ d ∈ f.toList, d = 0

theorem IsZero.eq (h : IsZero e f) (h' : IsZero e' f') : e = e' ∧ f = f' := by
  refine ⟨h.1.trans h'.1.symm, List.Vector.toList_injective ?_⟩
  have hlength : f.toList.length = f'.toList.length := by
    rw [List.Vector.toList_length, List.Vector.toList_length]
  refine List.ext_getElem hlength fun i hi hi' ↦ ?_
  rw [h.2 _ (List.getElem_mem hi), h'.2 _ (List.getElem_mem hi')]

/-- The three forms of a finite float. -/
theorem magnitude_cases (e : Fin 2047) (f : List.Vector (Fin 16) 13) :
    (IsZero e f ∧ magnitude e f = str "0x0.0p+0") ∨
    (e = 0 ∧ magnitude e f = str "0x0." ++ (digits f ++ str "p-1022")) ∨
    magnitude e f = str "0x1." ++ (digits f ++ (chr 'p' :: signed (e.val - 1023))) := by
  unfold magnitude
  split_ifs with hzero hexponent
  · exact .inl ⟨hzero, rfl⟩
  · exact .inr (.inl ⟨hexponent, rfl⟩)
  · exact .inr (.inr rfl)

theorem magnitude_inj (h : magnitude e f = magnitude e' f') : e = e' ∧ f = f' := by
  have hcut : ∀ {s t : Str}, digits f ++ s = digits f' ++ t → f = f' ∧ s = t := by
    intro s t heq
    obtain ⟨hdigits, hrest⟩ := List.append_inj heq ((length_digits f).trans (length_digits f').symm)
    exact ⟨digits_injective hdigits, hrest⟩
  -- The third character tells a normal float, and the length a zero.
  have hthird : ∀ s t : Str, str "0x0." ++ s ≠ str "0x1." ++ t := by
    intro s t heq
    exact absurd (congrArg (·[2]?) heq) (by simp [str, chr])
  have hlength : ∀ g : List.Vector (Fin 16) 13, str "0x0.0p+0" ≠ str "0x0." ++ (digits g ++ str "p-1022") := by
    intro g heq
    have hlen := congrArg List.length heq
    rw [List.length_append, List.length_append, length_digits] at hlen
    exact absurd hlen (by decide)
  rcases magnitude_cases e f with ⟨hz, hm⟩ | ⟨he, hm⟩ | hm <;>
    rcases magnitude_cases e' f' with ⟨hz', hm'⟩ | ⟨he', hm'⟩ | hm' <;> rw [hm, hm'] at h
  · exact hz.eq hz'
  · exact absurd h (hlength f')
  · exact absurd h (hthird (str "0p+0") _)
  · exact absurd h.symm (hlength f)
  · exact ⟨he.trans he'.symm, (hcut (List.append_cancel_left h)).1⟩
  · exact absurd h (hthird _ _)
  · exact absurd h.symm (hthird (str "0p+0") _)
  · exact absurd h.symm (hthird _ _)
  · obtain ⟨hf, hrest⟩ := hcut (List.append_cancel_left h)
    have hexponent := signed_injective (List.cons.inj hrest).2
    exact ⟨Fin.ext (by omega), hf⟩

/-- A finite float begins with a zero. -/
theorem head_magnitude (e : Fin 2047) (f : List.Vector (Fin 16) 13) : (magnitude e f).head? = some (chr '0') := by
  rcases magnitude_cases e f with ⟨-, hm⟩ | ⟨-, hm⟩ | hm <;> rw [hm] <;> rfl

/-- What comes after a sign does not begin with one. -/
theorem sign_append_inj {n n' : Bool} {s t : Str} (hs : s.head? ≠ some (chr '-')) (ht : t.head? ≠ some (chr '-'))
    (h : sign n ++ s = sign n' ++ t) : n = n' ∧ s = t := by
  rcases n with - | - <;> rcases n' with - | -
  · exact ⟨rfl, h⟩
  · have hs' : s = chr '-' :: t := h
    exact absurd (by rw [hs']; rfl) hs
  · have ht' : chr '-' :: s = t := h
    exact absurd (by rw [← ht']; rfl) ht
  · exact ⟨rfl, (List.cons.inj h).2⟩

theorem hex_injective : Function.Injective hex := by
  have hfinite : ∀ e f, (magnitude e f).head? ≠ some (chr '-') := by
    intro e f
    rw [head_magnitude]
    decide
  have hinf : (str "inf").head? ≠ some (chr '-') := by decide
  have hnan : (str "nan").head? ≠ some (chr '-') := by decide
  -- The first character after the sign tells the kind.
  have hkind : ∀ e f, magnitude e f ≠ str "inf" ∧ magnitude e f ≠ str "nan" := by
    intro e f
    constructor
    · intro heq
      exact absurd (heq ▸ head_magnitude e f) (by decide)
    · intro heq
      exact absurd (heq ▸ head_magnitude e f) (by decide)
  intro x y h
  rcases x with - | n | ⟨n, e, f⟩ <;> rcases y with - | n' | ⟨n', e', f'⟩
  · rfl
  · exact absurd (@sign_append_inj false _ _ _ hnan hinf h).2 (by decide)
  · exact absurd (@sign_append_inj false _ _ _ hnan (hfinite e' f') h).2.symm (hkind e' f').2
  · exact absurd (@sign_append_inj _ false _ _ hinf hnan h).2 (by decide)
  · rw [(sign_append_inj hinf hinf h).1]
  · exact absurd (sign_append_inj hinf (hfinite e' f') h).2.symm (hkind e' f').1
  · exact absurd (@sign_append_inj _ false _ _ (hfinite e f) hnan h).2 (hkind e f).2
  · exact absurd (sign_append_inj (hfinite e f) hinf h).2 (hkind e f).1
  · obtain ⟨hn, hm⟩ := sign_append_inj (hfinite e f) (hfinite e' f') h
    obtain ⟨he, hf⟩ := magnitude_inj hm
    rw [hn, he, hf]

/-! ## Characters -/

theorem isAscii_signed (i : ℤ) : (signed i).IsAscii := by
  have hdecimal : (decimal i.natAbs).IsAscii := by
    intro c hc
    have hdigit := decimal_isDigit _ c hc
    rw [isDigit, Bool.and_eq_true, decide_eq_true_eq, decide_eq_true_eq] at hdigit
    change c.val < 0x80
    omega
  unfold signed
  split_ifs
  · exact .cons (by decide) hdecimal
  · exact .cons (by decide) hdecimal

theorem isAscii_digits (f : List.Vector (Fin 16) 13) : (digits f).IsAscii := by
  intro c hc
  obtain ⟨d, -, rfl⟩ := List.mem_map.1 hc
  exact isAscii_hexDigit d

theorem isAscii_hex (x : FloatBits) : x.hex.IsAscii := by
  have hsign : ∀ n, (sign n).IsAscii := by
    intro n
    rcases n with - | - <;> decide
  rcases x with - | n | ⟨n, e, f⟩
  · decide
  · exact (hsign n).append (by decide)
  · refine (hsign n).append ?_
    rcases magnitude_cases e f with ⟨-, hm⟩ | ⟨-, hm⟩ | hm <;> rw [hm]
    · decide
    · exact Str.IsAscii.append (by decide) ((isAscii_digits f).append (by decide))
    · exact Str.IsAscii.append (by decide) ((isAscii_digits f).append (.cons (by decide) (isAscii_signed _)))

end FloatBits

end Py
