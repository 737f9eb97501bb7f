import Mathlib.Data.Nat.Digits.Lemmas
import Mathlib.Tactic
import ScrapyExtension.Py.Text

/-!
# Addresses

`ipaddress.IPv4Address` is strict: four decimal octets without leading zeros, so that an address has one
text (`Ipv4.parse_eq_some_iff`). Of `ipaddress.IPv6Address` only what its texts have in common is
recorded: a text that it prints is read back, has no characters but hexadecimal digits, colons and dots
unless there is a scope, and every text that it reads has two colons.
-/

namespace Py

/-! ## Numerals without leading zeros -/

theorem digit_digitValue {c : CodePoint} (hc : isDigit c = true) :
    digit (Fin.ofNat 10 (digitValue c)) = c := by
  rw [isDigit, Bool.and_eq_true, decide_eq_true_eq, decide_eq_true_eq] at hc
  apply Fin.ext
  simp only [digit, digitValue, Fin.val_ofNat]
  omega

theorem digitValue_lt {c : CodePoint} (hc : isDigit c = true) : digitValue c < 10 := by
  rw [isDigit, Bool.and_eq_true, decide_eq_true_eq, decide_eq_true_eq] at hc
  unfold digitValue
  omega

theorem readDecimal_eq_ofDigits (s : Str) :
    readDecimal s = Nat.ofDigits 10 (s.map digitValue).reverse := by
  rw [readDecimal, Nat.ofDigits_eq_foldr, List.foldr_reverse, List.foldl_map]
  refine congrArg (fun f ↦ List.foldl f 0 s) (funext fun n ↦ funext fun c ↦ ?_)
  exact Nat.add_comm _ _

/-- A numeral without leading zeros is the one that is printed. -/
theorem decimal_readDecimal {c : CodePoint} {s : Str} (hdigits : ∀ d ∈ c :: s, isDigit d = true)
    (hlead : c ≠ chr '0') : decimal (readDecimal (c :: s)) = c :: s := by
  have hvalue : digitValue c ≠ 0 := by
    intro hzero
    have hc := digit_digitValue (hdigits c List.mem_cons_self)
    rw [hzero] at hc
    exact hlead hc.symm
  have hdigitsOf : Nat.digits 10 (readDecimal (c :: s)) = ((c :: s).map digitValue).reverse := by
    rw [readDecimal_eq_ofDigits]
    refine Nat.digits_ofDigits 10 (by norm_num) _ (fun n hn ↦ ?_) fun hne ↦ ?_
    · obtain ⟨d, hd, rfl⟩ := List.mem_map.1 (List.mem_reverse.1 hn)
      exact digitValue_lt (hdigits d hd)
    · rw [List.getLast_reverse]
      exact hvalue
  have hne : readDecimal (c :: s) ≠ 0 := by
    intro hzero
    rw [hzero, Nat.digits_zero] at hdigitsOf
    exact absurd (congrArg List.length hdigitsOf) (by simp)
  rw [decimal, if_neg hne, hdigitsOf, List.reverse_reverse, List.map_map]
  exact (List.map_congr_left fun d hd ↦ digit_digitValue (hdigits d hd)).trans (List.map_id _)

theorem length_decimal_le {n k : ℕ} (hk : 0 < k) (hn : n < 10 ^ k) : (decimal n).length ≤ k := by
  rw [decimal]
  split_ifs
  · exact hk
  · rw [List.length_map, List.length_reverse]
    exact (Nat.digits_length_le_iff (by norm_num) n).2 hn

/-! ## IPv4 -/

/-- `ipaddress.IPv4Address` -/
structure Ipv4 where
  a : Fin 256
  b : Fin 256
  c : Fin 256
  d : Fin 256
deriving DecidableEq

/-- `_parse_octet` -/
def octet (s : Str) : Option (Fin 256) :=
  if s = [] then none
  else if !s.all isDigit then none
  else if 3 < s.length then none
  else if s ≠ [chr '0'] ∧ s.head? = some (chr '0') then none
  else if h : readDecimal s < 256 then some ⟨readDecimal s, h⟩
  else none

namespace Ipv4

/-- `str(address)` -/
def print (ip : Ipv4) : Str :=
  [chr '.'].intercalate [decimal ip.a.val, decimal ip.b.val, decimal ip.c.val, decimal ip.d.val]

/-- `IPv4Address(text)`. `none` is an `AddressValueError`. -/
def parse (s : Str) : Option Ipv4 :=
  match s.splitOn (chr '.') with
  | [a, b, c, d] => do return ⟨← octet a, ← octet b, ← octet c, ← octet d⟩
  | _ => none

end Ipv4

theorem octet_eq_some_iff {s : Str} {n : Fin 256} : octet s = some n ↔ s = decimal n.val := by
  constructor
  · intro h
    unfold octet at h
    split_ifs at h with hempty hdigits _ hlead hlt
    obtain rfl := Option.some.inj h
    rw [Bool.not_eq_true', Bool.not_eq_false, List.all_eq_true] at hdigits
    obtain ⟨c, s, rfl⟩ := List.exists_cons_of_ne_nil hempty
    by_cases hc : c = chr '0'
    · have hzero : c :: s = [chr '0'] := by
        by_contra hne
        exact hlead ⟨hne, congrArg some hc⟩
      change c :: s = decimal (readDecimal (c :: s))
      rw [hzero]
      decide
    · exact (decimal_readDecimal hdigits hc).symm
  · rintro rfl
    have hlength : ¬ 3 < (decimal n.val).length :=
      Nat.not_lt.2 (length_decimal_le (by norm_num) (n.isLt.trans (by norm_num)))
    have hdigits : (!(decimal n.val).all isDigit) = false := by
      rw [Bool.not_eq_false', List.all_eq_true]
      exact decimal_isDigit n.val
    have hempty : decimal n.val ≠ [] := by
      rcases decimal_cases n.val with h | ⟨c, s, h, -⟩ <;> rw [h] <;> exact List.cons_ne_nil _ _
    have hlead : ¬ (decimal n.val ≠ [chr '0'] ∧ (decimal n.val).head? = some (chr '0')) := by
      rintro ⟨hne, hhead⟩
      rcases decimal_cases n.val with h | ⟨c, s, h, -, hc, -⟩
      · exact hne h
      · rw [h] at hhead
        exact hc (Option.some.inj hhead)
    have hlt : readDecimal (decimal n.val) < 256 := by
      rw [readDecimal_decimal]
      exact n.isLt
    rw [octet, if_neg hempty, if_neg (by rw [hdigits]; decide), if_neg hlength, if_neg hlead, dif_pos hlt]
    exact congrArg some (Fin.ext (readDecimal_decimal n.val))

theorem notMem_decimal {c : CodePoint} (hc : isDigit c = false) (n : ℕ) : c ∉ decimal n := by
  intro h
  rw [decimal_isDigit n c h] at hc
  exact nomatch hc

namespace Ipv4

theorem splitOn_print (ip : Ipv4) : ip.print.splitOn (chr '.') =
    [decimal ip.a.val, decimal ip.b.val, decimal ip.c.val, decimal ip.d.val] := by
  refine List.splitOn_intercalate _ (fun l hl ↦ ?_) (List.cons_ne_nil _ _)
  have hdot : isDigit (chr '.') = false := by decide
  simp only [List.mem_cons, List.not_mem_nil, or_false] at hl
  rcases hl with rfl | rfl | rfl | rfl <;> exact notMem_decimal hdot _

/-- **One text for an address.** -/
theorem parse_eq_some_iff {s : Str} {ip : Ipv4} : parse s = some ip ↔ s = ip.print := by
  constructor
  · intro h
    unfold parse at h
    split at h
    · next a b c d hsplit =>
      simp only [Option.bind_eq_bind, Option.bind_eq_some_iff, Option.pure_def, Option.some.injEq,
        octet_eq_some_iff] at h
      obtain ⟨a', rfl, b', rfl, c', rfl, d', rfl, rfl⟩ := h
      rw [← @List.intercalate_splitOn _ s _ _ (chr '.'), hsplit]
      rfl
    · exact nomatch h
  · rintro rfl
    rw [parse, splitOn_print]
    simp only [octet_eq_some_iff.2 rfl]
    rfl

theorem parse_print (ip : Ipv4) : parse ip.print = some ip := parse_eq_some_iff.2 rfl

theorem print_chars (ip : Ipv4) : ∀ c ∈ ip.print, isDigit c = true ∨ c = chr '.' := by
  intro c hc
  rw [print] at hc
  simp only [List.intercalate, List.intersperse, List.flatten_cons, List.mem_append,
    List.mem_singleton, List.flatten_nil, List.not_mem_nil, or_false] at hc
  rcases hc with h | h | h | h | h | h | h
  · exact .inl (decimal_isDigit _ c h)
  · exact .inr h
  · exact .inl (decimal_isDigit _ c h)
  · exact .inr h
  · exact .inl (decimal_isDigit _ c h)
  · exact .inr h
  · exact .inl (decimal_isDigit _ c h)

end Ipv4

/-! ## IPv6 -/

/-- A hexadecimal digit, a colon or a dot. -/
def isIpv6Char (c : CodePoint) : Bool := (hexValue c).isSome || c = chr ':' || c = chr '.'

/-- `ipaddress.IPv6Address`, as far as its texts go. -/
structure Ipv6 where
  Address : Type
  /-- `IPv6Address(text)`. `none` is an `AddressValueError`. -/
  parse : Str → Option Address
  /-- `address.compressed`, which is `str(address)`. -/
  compressed : Address → Str
  parse_compressed : ∀ s ip, parse s = some ip → parse (compressed ip) = some ip
  two_le_count : ∀ s ip, parse s = some ip → 2 ≤ s.count (chr ':')
  chars : ∀ s ip, parse s = some ip → chr '%' ∉ s → ∀ c ∈ compressed ip, isIpv6Char c = true

/-- What `ip_address` returns. -/
inductive Ip (V6 : Ipv6)
  | v4 (ip : Ipv4)
  | v6 (ip : V6.Address)

/-- `str(address)` -/
def Ip.print {V6 : Ipv6} : Ip V6 → Str
  | .v4 ip => ip.print
  | .v6 ip => V6.compressed ip

/-- `ip_address(text)`. `none` is a `ValueError`. -/
def ipAddress (V6 : Ipv6) (s : Str) : Option (Ip V6) :=
  match Ipv4.parse s with
  | some ip => some (.v4 ip)
  | none => (V6.parse s).map .v6

end Py
