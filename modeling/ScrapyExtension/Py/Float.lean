import Mathlib.Data.Int.Log
import Mathlib.Data.Rat.Floor
import Mathlib.Tactic

/-!
# Double precision

The values of a Python `float` that are finite, as rationals, and the rounding of an exact result to
one of them: to the nearest one, and between two that are equally near to the one with an even
significand. The distance between neighbours is a power of two, which depends on the binade of the
number; near zero it is that of the subnormal numbers.

## Order

Rounding is monotone. Within a binade that is the monotonicity of rounding to integers; between two
binades there is a power of two, and powers of two are not moved.
-/

namespace Py

/-! ## Rounding to integers -/

/-- The nearest integer, and the even one of two. -/
def roundEven (x : ℚ) : ℤ :=
  if x - ⌊x⌋ < 1 / 2 then ⌊x⌋
  else if 1 / 2 < x - ⌊x⌋ then ⌊x⌋ + 1
  else if Even ⌊x⌋ then ⌊x⌋ else ⌊x⌋ + 1

theorem roundEven_le (x : ℚ) : (roundEven x : ℚ) ≤ x + 1 / 2 := by
  have hfloor := Int.floor_le x
  unfold roundEven
  split_ifs <;> push_cast <;> linarith

theorem le_roundEven (x : ℚ) : x - 1 / 2 ≤ roundEven x := by
  have hfloor := Int.lt_floor_add_one x
  unfold roundEven
  split_ifs <;> push_cast <;> linarith

@[simp] theorem roundEven_intCast (n : ℤ) : roundEven n = n := by
  simp [roundEven]

theorem roundEven_mono : Monotone roundEven := by
  intro x y hxy
  rcases hxy.eq_or_lt with rfl | hlt
  · exact le_rfl
  by_contra hgt
  have hnext : (roundEven y : ℚ) + 1 ≤ roundEven x := by exact_mod_cast not_le.mp hgt
  have hx := roundEven_le x
  have hy := le_roundEven y
  linarith

theorem roundEven_neg (x : ℚ) : roundEven (-x) = -roundEven x := by
  by_cases hint : x = ⌊x⌋
  · rw [hint, roundEven_intCast, ← Int.cast_neg, roundEven_intCast]
  have hlt : (⌊x⌋ : ℚ) < x := lt_of_le_of_ne (Int.floor_le x) (Ne.symm hint)
  have hupper := Int.lt_floor_add_one x
  have hfloor : ⌊-x⌋ = -⌊x⌋ - 1 := by
    rw [Int.floor_eq_iff]
    push_cast
    constructor <;> linarith
  have hparity : Even (-⌊x⌋ - 1) ↔ ¬ Even ⌊x⌋ := by
    rw [Int.even_sub_one, even_neg]
  unfold roundEven
  rw [hfloor]
  push_cast
  rcases lt_trichotomy (x - ⌊x⌋) (1 / 2) with h | h | h
  · rw [if_neg (by linarith), if_pos (by linarith), if_pos h]
    ring
  · -- exactly between: of the two, one is even
    have h' : -x - (-(⌊x⌋ : ℚ) - 1) = 1 / 2 := by linarith
    simp only [h, h', lt_irrefl, if_false, hparity]
    by_cases heven : Even ⌊x⌋
    · simp [heven]
    · simp only [heven, not_false_eq_true, if_true, if_false]
      ring
  · rw [if_pos (by linarith), if_neg (by linarith), if_pos h]
    ring

/-! ## Rounding to doubles -/

/-- The exponent of the distance between the neighbours of a number. -/
def ulpExponent (x : ℚ) : ℤ := max (Int.log 2 |x| - 52) (-1074)

/-- The distance between the neighbours of a number. -/
def ulp (x : ℚ) : ℚ := 2 ^ ulpExponent x

/-- An exact result, rounded, as long as the exponent has no upper end. -/
def roundDouble (x : ℚ) : ℚ := roundEven (x / ulp x) * ulp x

theorem ulp_pos (x : ℚ) : 0 < ulp x := zpow_pos (by norm_num) _

@[simp] theorem ulp_neg (x : ℚ) : ulp (-x) = ulp x := by simp [ulp, ulpExponent]

theorem roundDouble_neg (x : ℚ) : roundDouble (-x) = -roundDouble x := by
  rw [roundDouble, roundDouble, ulp_neg, neg_div, roundEven_neg]
  push_cast
  ring

/-- A multiple of the distance of its neighbours is not moved. -/
theorem roundDouble_of_multiple {x : ℚ} {n : ℤ} (h : x = n * ulp x) : roundDouble x = x := by
  have hdiv : x / ulp x = n := by rw [div_eq_iff (ulp_pos x).ne', ← h]
  rw [roundDouble, hdiv, roundEven_intCast, ← h]

theorem roundDouble_nonneg {x : ℚ} (h : 0 ≤ x) : 0 ≤ roundDouble x := by
  have hzero : (0 : ℤ) ≤ roundEven (x / ulp x) := by
    rw [← roundEven_intCast 0]
    exact roundEven_mono (by simpa using div_nonneg h (ulp_pos x).le)
  exact mul_nonneg (by exact_mod_cast hzero) (ulp_pos x).le

theorem lt_two_zpow (x : ℚ) : |x| < 2 ^ (ulpExponent x + 53) := by
  have hlog := Int.lt_zpow_succ_log_self (b := 2) (by norm_num) |x|
  refine hlog.trans_le (zpow_le_zpow_right₀ (by norm_num) ?_)
  have := le_max_left (Int.log 2 |x| - 52) (-1074)
  rw [ulpExponent]
  omega

/-- A power of two is a multiple of the smaller ones. -/
theorem zpow_eq_mul_ulp {x : ℚ} {e : ℤ} (he : ulpExponent x ≤ e) :
    ∃ k : ℕ, (2 : ℚ) ^ e = (2 ^ k : ℤ) * ulp x := by
  obtain ⟨k, hk⟩ := Int.eq_ofNat_of_zero_le (sub_nonneg.mpr he)
  refine ⟨k, ?_⟩
  rw [ulp, Int.cast_pow, Int.cast_ofNat, ← zpow_natCast, ← zpow_add₀ two_ne_zero, ← hk]
  congr 1
  ring

/-- A power of two above a number is above what it is rounded to. -/
theorem roundDouble_le_zpow {x : ℚ} {e : ℤ} (he : ulpExponent x ≤ e) (h : x ≤ 2 ^ e) :
    roundDouble x ≤ 2 ^ e := by
  obtain ⟨k, hsplit⟩ := zpow_eq_mul_ulp he
  have hle : roundEven (x / ulp x) ≤ 2 ^ k := by
    rw [← roundEven_intCast (2 ^ k)]
    exact roundEven_mono (by rw [div_le_iff₀ (ulp_pos x), ← hsplit]; exact h)
  rw [hsplit, roundDouble]
  exact mul_le_mul_of_nonneg_right (by exact_mod_cast hle) (ulp_pos x).le

theorem zpow_le_roundDouble {y : ℚ} {e : ℤ} (he : ulpExponent y ≤ e) (h : 2 ^ e ≤ y) :
    2 ^ e ≤ roundDouble y := by
  obtain ⟨k, hsplit⟩ := zpow_eq_mul_ulp he
  have hle : 2 ^ k ≤ roundEven (y / ulp y) := by
    rw [← roundEven_intCast (2 ^ k)]
    exact roundEven_mono (by rw [le_div_iff₀ (ulp_pos y), ← hsplit]; exact h)
  rw [hsplit, roundDouble]
  exact mul_le_mul_of_nonneg_right (by exact_mod_cast hle) (ulp_pos y).le

theorem roundDouble_le_of_pos {x y : ℚ} (hx : 0 < x) (hxy : x ≤ y) : roundDouble x ≤ roundDouble y := by
  have hexp : ulpExponent x ≤ ulpExponent y := by
    rw [ulpExponent, ulpExponent, abs_of_pos hx, abs_of_pos (hx.trans_le hxy)]
    exact max_le_max_right _ (Int.sub_le_sub_right (Int.log_mono_right hx hxy) 52)
  rcases hexp.eq_or_lt with heq | hlt
  · -- the same binade
    have hulp : ulp x = ulp y := by rw [ulp, ulp, heq]
    rw [roundDouble, roundDouble, hulp]
    refine mul_le_mul_of_nonneg_right ?_ (ulp_pos y).le
    exact_mod_cast roundEven_mono (div_le_div_of_nonneg_right hxy (ulp_pos y).le)
  · -- the power of two at which the binade of `y` begins
    have hlog : ulpExponent y + 52 = Int.log 2 |y| := by
      have hmin := le_max_right (Int.log 2 |x| - 52) (-1074)
      rw [ulpExponent] at hlt ⊢
      rcases max_choice (Int.log 2 |y| - 52) (-1074) with h | h
      · rw [h]
        ring
      · rw [ulpExponent, h] at hlt
        omega
    have hbelow : x ≤ 2 ^ (ulpExponent y + 52) := by
      have hlt' := lt_two_zpow x
      rw [abs_of_pos hx] at hlt'
      exact hlt'.le.trans (zpow_le_zpow_right₀ (by norm_num) (by omega))
    have habove : (2 : ℚ) ^ (ulpExponent y + 52) ≤ y := by
      have hle := Int.zpow_log_le_self (b := 2) (r := |y|) (by norm_num)
        (abs_pos.mpr (hx.trans_le hxy).ne')
      rw [abs_of_pos (hx.trans_le hxy)] at hle hlog
      rw [hlog]
      exact_mod_cast hle
    exact (roundDouble_le_zpow (by omega) hbelow).trans (zpow_le_roundDouble (by omega) habove)

/-- **Rounding is monotone.** -/
theorem roundDouble_mono : Monotone roundDouble := by
  intro x y hxy
  rcases lt_trichotomy 0 x with hx | rfl | hx
  · exact roundDouble_le_of_pos hx hxy
  · have hzero : roundDouble 0 = 0 := roundDouble_of_multiple (n := 0) (by simp)
    rw [hzero]
    exact roundDouble_nonneg hxy
  · rcases lt_or_ge y 0 with hy | hy
    · have hneg := roundDouble_le_of_pos (neg_pos.mpr hy) (neg_le_neg hxy)
      rw [roundDouble_neg, roundDouble_neg] at hneg
      exact neg_le_neg_iff.mp hneg
    · have hneg := roundDouble_nonneg (neg_nonneg.mpr hx.le)
      rw [roundDouble_neg] at hneg
      exact (neg_nonneg.mp hneg).trans (roundDouble_nonneg hy)

/-- A significand of at most `2 ^ 53`, scaled, is not moved. -/
theorem roundDouble_mul_zpow {n e : ℤ} (hn : |n| ≤ 2 ^ 53) (he : -1074 ≤ e) :
    roundDouble (n * 2 ^ e) = n * 2 ^ e := by
  rcases eq_or_ne n 0 with rfl | hne
  · exact roundDouble_of_multiple (n := 0) (by simp)
  have hpos : 0 < |(n : ℚ) * 2 ^ e| := by
    rw [abs_pos]
    exact mul_ne_zero (by exact_mod_cast hne) (zpow_ne_zero _ two_ne_zero)
  have habs : |(n : ℚ) * 2 ^ e| = |(n : ℚ)| * 2 ^ e := by
    rw [abs_mul, abs_of_pos (zpow_pos two_pos e : (0 : ℚ) < 2 ^ e)]
  rcases hn.lt_or_eq with hlt | heq
  · -- the distance of the neighbours is at most the scale
    have hexp : ulpExponent (n * 2 ^ e) ≤ e := by
      have hbound : |(n : ℚ) * 2 ^ e| < ((2 : ℕ) : ℚ) ^ (53 + e) := by
        rw [habs, Nat.cast_ofNat, zpow_add₀ two_ne_zero]
        refine mul_lt_mul_of_pos_right ?_ (zpow_pos two_pos e)
        exact_mod_cast hlt
      have hlog := (Int.lt_zpow_iff_log_lt (b := 2) (by norm_num) hpos).mp hbound
      rw [ulpExponent]
      omega
    obtain ⟨k, hsplit⟩ := zpow_eq_mul_ulp hexp
    refine roundDouble_of_multiple (n := n * 2 ^ k) ?_
    conv_lhs => rw [hsplit]
    push_cast
    ring
  · -- the number is a power of two, and has one bit less than its significand
    have hpow : |(n : ℚ) * 2 ^ e| = ((2 : ℕ) : ℚ) ^ (53 + e) := by
      rw [habs, Nat.cast_ofNat, zpow_add₀ two_ne_zero, ← Int.cast_abs, heq]
      norm_num
    have hexp : ulpExponent (n * 2 ^ e) = e + 1 := by
      rw [ulpExponent, hpow, Int.log_zpow (by norm_num)]
      omega
    obtain ⟨m, hm⟩ : ∃ m, n = m * 2 := by
      rcases abs_eq (by norm_num : (0 : ℤ) ≤ 2 ^ 53) |>.mp heq with h | h
      · exact ⟨2 ^ 52, by rw [h]; norm_num⟩
      · exact ⟨-2 ^ 52, by rw [h]; norm_num⟩
    refine roundDouble_of_multiple (n := m) ?_
    rw [ulp, hexp, zpow_add_one₀ two_ne_zero, hm]
    push_cast
    ring

theorem abs_roundEven_le (x : ℚ) : |roundEven (x / ulp x)| ≤ 2 ^ 53 := by
  have hlt : |x / ulp x| < 2 ^ 53 := by
    rw [abs_div, abs_of_pos (ulp_pos x), div_lt_iff₀ (ulp_pos x), ulp]
    have hbound := lt_two_zpow x
    rw [zpow_add₀ two_ne_zero, mul_comm] at hbound
    exact_mod_cast hbound
  rw [abs_lt] at hlt
  rw [abs_le]
  constructor
  · have hmono := roundEven_mono (a := ((-2 ^ 53 : ℤ) : ℚ)) (b := x / ulp x) (by push_cast; linarith)
    rwa [roundEven_intCast] at hmono
  · have hmono := roundEven_mono (a := x / ulp x) (b := ((2 ^ 53 : ℤ) : ℚ)) (by push_cast; linarith)
    rwa [roundEven_intCast] at hmono

/-- A rounded result is not moved again. -/
theorem roundDouble_roundDouble (x : ℚ) : roundDouble (roundDouble x) = roundDouble x :=
  roundDouble_mul_zpow (abs_roundEven_le x) (le_max_right _ _)

/-- Halves below `2 ^ 52` are not moved. -/
theorem roundDouble_half {m : ℤ} (h : |m| ≤ 2 ^ 53) : roundDouble ((m : ℚ) / 2) = m / 2 := by
  have hmul := roundDouble_mul_zpow (e := -1) h (by norm_num)
  rwa [zpow_neg_one, ← div_eq_mul_inv] at hmul

/-- The end of the range: numbers below it are rounded to finite values. -/
def maxRounded : ℚ := 2 ^ 1024 - 2 ^ 970

theorem two_pow_1024 : (2 : ℚ) ^ 1024 = 2 ^ 53 * 2 ^ 971 := by rw [← pow_add]

theorem two_zpow_971 : (2 : ℚ) ^ (971 : ℤ) = 2 ^ 971 := zpow_natCast 2 971

theorem maxRounded_eq : maxRounded = (2 ^ 53 - 1 / 2) * 2 ^ 971 := by
  rw [maxRounded, two_pow_1024, pow_succ 2 970]
  generalize (2 : ℚ) ^ 970 = p
  ring

theorem ulp_of_last_binade {x : ℚ} (hlow : 2 ^ (1023 : ℤ) ≤ x) (hhigh : x < 2 ^ 1024) :
    ulp x = 2 ^ 971 := by
  have hpos : 0 < x := (zpow_pos two_pos _).trans_le hlow
  have hlog := (Int.zpow_le_iff_le_log (b := 2) (by norm_num) hpos).mp
    (by rw [Nat.cast_ofNat]; exact hlow : ((2 : ℕ) : ℚ) ^ (1023 : ℤ) ≤ x)
  have hend : x < ((2 : ℕ) : ℚ) ^ (1024 : ℤ) := by
    rw [Nat.cast_ofNat, show (1024 : ℤ) = (1024 : ℕ) from rfl, zpow_natCast]
    exact hhigh
  have hlog' := (Int.lt_zpow_iff_log_lt (b := 2) (by norm_num) hpos).mp hend
  have hexp : ulpExponent x = 971 := by
    rw [ulpExponent, abs_of_pos hpos]
    omega
  rw [ulp, hexp, two_zpow_971]

theorem roundDouble_lt {x : ℚ} (h : x < maxRounded) : roundDouble x < 2 ^ 1024 := by
  rcases lt_or_ge x (2 ^ (1023 : ℤ)) with hsmall | hbig
  · -- below the last binade
    refine (roundDouble_mono hsmall.le).trans_lt ((roundDouble_le_zpow ?_ le_rfl).trans_lt ?_)
    · have hlog := Int.log_zpow (R := ℚ) (b := 2) (by norm_num) 1023
      rw [Nat.cast_ofNat] at hlog
      rw [ulpExponent, abs_of_pos (zpow_pos two_pos _), hlog]
      omega
    · rw [← zpow_natCast]
      exact zpow_lt_zpow_right₀ one_lt_two (by omega)
  · have hulp : ulp x = 2 ^ 971 :=
      ulp_of_last_binade hbig (h.trans (sub_lt_self _ (pow_pos two_pos 970)))
    -- the significand is below `2 ^ 53 - 1 / 2`
    have hlt : x / ulp x < 2 ^ 53 - 1 / 2 := by
      rw [hulp, div_lt_iff₀ (pow_pos two_pos _), ← maxRounded_eq]
      exact h
    have hround : (roundEven (x / ulp x) : ℚ) < 2 ^ 53 := by
      have hle := roundEven_le (x / ulp x)
      linarith
    calc roundDouble x = roundEven (x / ulp x) * ulp x := rfl
      _ < 2 ^ 53 * ulp x := mul_lt_mul_of_pos_right hround (ulp_pos x)
      _ = 2 ^ 1024 := by rw [hulp, two_pow_1024]

theorem abs_roundDouble_lt {x : ℚ} (h : |x| < maxRounded) : |roundDouble x| < 2 ^ 1024 := by
  rw [abs_lt] at h ⊢
  have hneg := roundDouble_lt (neg_lt.mp h.1)
  rw [roundDouble_neg] at hneg
  exact ⟨neg_lt.mp hneg, roundDouble_lt h.2⟩

/-- A finite `float`. -/
structure Double where
  value : ℚ
  representable : roundDouble value = value
  bounded : |value| < 2 ^ 1024

theorem add_le_of_representable {x : ℚ} (h : roundDouble x = x) (hlt : x < 2 ^ 1024) :
    x + 2 ^ 971 ≤ 2 ^ 1024 := by
  rcases lt_or_ge x (2 ^ (1023 : ℤ)) with hsmall | hbig
  · rw [show (1023 : ℤ) = (1023 : ℕ) from rfl, zpow_natCast] at hsmall
    have hpow : (2 : ℚ) ^ 971 ≤ 2 ^ 1023 := pow_le_pow_right₀ one_le_two (by omega)
    rw [pow_succ 2 1023, mul_two]
    exact add_le_add hsmall.le hpow
  · have hulp := ulp_of_last_binade hbig hlt
    rw [roundDouble, hulp] at h
    have hround : roundEven (x / 2 ^ 971) + 1 ≤ 2 ^ 53 := by
      rw [← h, two_pow_1024] at hlt
      have := lt_of_mul_lt_mul_right hlt (pow_pos two_pos 971).le
      exact_mod_cast this
    calc x + 2 ^ 971 = (roundEven (x / 2 ^ 971) + 1) * 2 ^ 971 := by rw [add_mul, one_mul, h]
      _ ≤ 2 ^ 53 * 2 ^ 971 :=
          mul_le_mul_of_nonneg_right (by exact_mod_cast hround) (pow_pos two_pos 971).le
      _ = 2 ^ 1024 := two_pow_1024.symm

/-- The largest finite values are a whole step away from the end. -/
theorem Double.abs_value_add_le (d : Double) : |d.value| + 2 ^ 971 ≤ 2 ^ 1024 := by
  have hbounded := d.bounded
  rcases abs_choice d.value with h | h
  · rw [h] at hbounded ⊢
    exact add_le_of_representable d.representable hbounded
  · rw [h] at hbounded ⊢
    exact add_le_of_representable (by rw [roundDouble_neg, d.representable]) hbounded

/-- A rounded result; `none` when it is too large for a `float`. -/
def Double.ofRat (x : ℚ) : Option Double :=
  if h : |roundDouble x| < 2 ^ 1024 then some ⟨roundDouble x, roundDouble_roundDouble x, h⟩ else none

theorem Double.ofRat_eq_some {x : ℚ} (h : |x| < maxRounded) :
    ∃ d, Double.ofRat x = some d ∧ d.value = roundDouble x := by
  have hlt := abs_roundDouble_lt h
  exact ⟨⟨roundDouble x, roundDouble_roundDouble x, hlt⟩, dif_pos hlt, rfl⟩

/-- A small number does not carry a finite value out of the range. -/
theorem Double.abs_add_lt_maxRounded (d : Double) {x y : ℚ} (hx : |x| ≤ 2 ^ 7) (hy : |y| = |d.value|) :
    |x + y| < maxRounded := by
  have hsmall : (2 : ℚ) ^ 7 < 2 ^ 970 := pow_lt_pow_right₀ one_lt_two (by omega)
  have hend := d.abs_value_add_le
  rw [pow_succ 2 970] at hend
  rw [maxRounded]
  generalize (2 : ℚ) ^ 1024 = e at hend ⊢
  generalize (2 : ℚ) ^ 970 = p at hend hsmall ⊢
  have hadd := abs_add_le x y
  linarith

end Py
