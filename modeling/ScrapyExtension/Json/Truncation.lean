import ScrapyExtension.Json.RoundTrip

/-!
# Texts that were cut off

A text that ends too early is not JSON. `loads_cut` says so for a flat object, one whose members
are strings without escapes and natural numbers: whatever is lost at the end, be it in the middle
of a name, of a string or of a number, reading what is left is a syntax error.

The argument goes along the members. A cut inside a name or a string leaves it unterminated; a cut
inside a number leaves a shorter number, after which a separator is missing; and a cut behind a
member is a cut of the members that follow.
-/

namespace Json

open Py

/-! ## Proper initial segments -/

/-- `p` is what is left of `s` when something is cut off its end. -/
def Cut (p s : Str) : Prop := p <+: s ∧ p ≠ s

theorem cut_take {s : Str} {k : ℕ} (hk : k < s.length) : Cut (s.take k) s := by
  refine ⟨List.take_prefix k s, fun heq ↦ ?_⟩
  have hlen := congrArg List.length heq
  rw [List.length_take] at hlen
  omega

theorem Cut.length_lt {p s : Str} (h : Cut p s) : p.length < s.length :=
  lt_of_le_of_ne h.1.length_le fun heq ↦ h.2 (h.1.eq_of_length heq)

theorem cut_cons {c : CodePoint} {p s : Str} (h : Cut p (c :: s)) :
    p = [] ∨ ∃ q, p = c :: q ∧ Cut q s := by
  obtain ⟨hpre, hne⟩ := h
  rcases p with _ | ⟨d, q⟩
  · exact .inl rfl
  · obtain ⟨rfl, hq⟩ := List.cons_prefix_cons.1 hpre
    exact .inr ⟨q, rfl, hq, fun heq ↦ hne (heq ▸ rfl)⟩

/-- A cut of a concatenation falls into its first or into its second part. -/
theorem cut_append {a b p : Str} (h : Cut p (a ++ b)) :
    Cut p a ∨ ∃ q, p = a ++ q ∧ Cut q b := by
  induction a generalizing p with
  | nil => exact .inr ⟨p, rfl, h⟩
  | cons c a ih =>
    rcases cut_cons h with rfl | ⟨q, rfl, hq⟩
    · exact .inl ⟨List.nil_prefix, (List.cons_ne_nil _ _).symm⟩
    · rcases ih hq with hcut | ⟨r, rfl, hr⟩
      · refine .inl ⟨(List.prefix_cons_inj c).2 hcut.1, fun heq ↦ hcut.2 ?_⟩
        exact (List.cons.inj heq).2
      · exact .inr ⟨r, rfl, hr⟩

/-- What is left of a text before its last character is an initial segment of the rest. -/
theorem Cut.prefix_of_concat {p s : Str} {c : CodePoint} (h : Cut p (s ++ [c])) : p <+: s :=
  (List.prefix_concat_iff.1 h.1).resolve_left h.2

/-- Of the blank of a layout, a cut leaves nothing. -/
theorem cut_blank {l : Layout} {p : Str} (h : Cut p l.blank) : p = [] := by
  have hlt := h.length_lt
  have hle : l.blank.length ≤ 1 := by
    rw [Layout.blank]
    split_ifs
    · exact le_rfl
    · exact Nat.zero_le 1
  exact List.length_eq_zero_iff.1 (by omega)

theorem skip_blank_append (l : Layout) (s : Str) : skip (l.blank ++ s) = skip s := by
  rw [Layout.blank]
  split_ifs
  · rfl
  · rfl

/-! ## Cut tokens -/

/-- A printable character other than the quote and the backslash: it is written as itself. -/
def Verbatim (c : CodePoint) : Prop :=
  0x20 ≤ c.val ∧ c.val < 0x7F ∧ c ≠ chr '"' ∧ c ≠ chr '\\'

instance (c : CodePoint) : Decidable (Verbatim c) :=
  inferInstanceAs (Decidable (0x20 ≤ c.val ∧ c.val < 0x7F ∧ c ≠ chr '"' ∧ c ≠ chr '\\'))

/-- A text whose characters are all written as themselves. -/
def IsVerbatim (s : Str) : Prop := ∀ c ∈ s, Verbatim c

instance (s : Str) : Decidable (IsVerbatim s) := List.decidableBAll Verbatim s

theorem Verbatim.escape {c : CodePoint} (hc : Verbatim c) (ensureAscii : Bool) :
    Json.escape ensureAscii c = [c] := by
  obtain ⟨h₁, h₂, hq, hb⟩ := hc
  rw [Json.escape, if_neg hq, if_neg hb, if_neg (by omega), if_neg (by omega), if_neg (by omega),
    if_neg (by omega), if_neg (by omega), if_neg (by omega), if_pos (.inl h₂)]

theorem stringBody_verbatim (ensureAscii : Bool) {s : Str} (hs : IsVerbatim s) :
    stringBody ensureAscii s = s ++ [chr '"'] := by
  rw [stringBody, List.append_cancel_right_eq]
  induction s with
  | nil => rfl
  | cons c s ih =>
    rw [List.flatMap_cons, (hs c List.mem_cons_self).escape,
      ih fun d hd ↦ hs d (List.mem_cons_of_mem c hd)]
    rfl

theorem isScalar_verbatim {s : Str} (hs : IsVerbatim s) : s.IsScalar := by
  intro c hc
  have hval := (hs c hc).2.1
  left
  omega

/-- A string literal without its closing quote is no literal. -/
theorem scanString_unterminated {s : Str} (hs : IsVerbatim s) : scanString s = none := by
  induction s with
  | nil => rw [scanString]
  | cons c s ih =>
    obtain ⟨hc, -, hq, hb⟩ := hs c List.mem_cons_self
    rw [scanString.eq_def]
    simp only [if_neg hq, if_neg hb]
    rw [if_neg (by omega), ih fun d hd ↦ hs d (List.mem_cons_of_mem c hd)]
    rfl

theorem scanString_cut (ensureAscii : Bool) {p s : Str} (hs : IsVerbatim s)
    (h : Cut p (stringBody ensureAscii s)) : scanString p = none := by
  rw [stringBody_verbatim _ hs] at h
  exact scanString_unterminated fun c hc ↦ hs c (h.prefix_of_concat.subset hc)

/-- The last digit of a number of more than one digit. -/
theorem decimal_concat {n : ℕ} (hn : 10 ≤ n) :
    decimal n = decimal (n / 10) ++ [digit (Fin.ofNat 10 (n % 10))] := by
  rw [decimal, decimal, if_neg (by omega), if_neg (by omega),
    Nat.digits_def' (by decide) (by omega), List.reverse_cons, List.map_append]
  rfl

/-- A number that is cut off reads as a smaller number. -/
theorem decimal_of_prefix {n : ℕ} {p : Str} (hp : p <+: decimal n) (hne : p ≠ []) :
    ∃ m ≤ n, p = decimal m := by
  induction n using Nat.strong_induction_on with
  | _ n ih =>
    by_cases hn : 10 ≤ n
    · rw [decimal_concat hn, List.prefix_concat_iff] at hp
      rcases hp with rfl | hp
      · exact ⟨n, le_rfl, (decimal_concat hn).symm⟩
      · obtain ⟨m, hm, rfl⟩ := ih (n / 10) (by omega) hp
        exact ⟨m, hm.trans (Nat.div_le_self n 10), rfl⟩
    · have hone : ∀ m < 10, (decimal m).length = 1 := by
        intro m hm
        rw [decimal]
        split_ifs with h0
        · rfl
        · rw [List.length_map, List.length_reverse, Nat.digits_of_lt 10 m h0 hm]
          rfl
      have hpos := List.length_pos_iff.2 hne
      refine ⟨n, le_rfl, hp.eq_of_length ?_⟩
      have hle := hp.length_le
      rw [hone n (by omega)] at hle ⊢
      omega

/-! ## Cut objects -/

variable {α : Type} (h : Hooks α)

/-- A value without structure: a string that is written as it stands, or a natural number that the
hooks accept together with all smaller ones. -/
inductive Flat : Value → Prop
  | str {s : Str} : IsVerbatim s → Flat (.str s)
  | int {n : ℕ} : (∀ m ≤ n, (h.int m).isSome) → Flat (.int n)

/-- A flat value is read in front of what is left of the following members. -/
theorem Flat.parseValue_append {v : Value} (hv : Flat h v) (l : Layout) {rest : Str}
    (hrest : NumberEnd rest) (fuel depth : ℕ) :
    ∃ x, parseValue h (fuel + 1) depth (dumps l v ++ rest) = .ok (x, rest) := by
  rcases hv with hs | hn
  · exact ⟨_, parseValue_str h l (isScalar_verbatim hs) rest fuel depth⟩
  · obtain ⟨x, hx⟩ := Option.isSome_iff_exists.1 (hn _ le_rfl)
    refine ⟨x, ?_⟩
    rw [parseValue_int h l _ hrest, hx]
    rfl

/-- Where a flat value was cut, it is not read, or it is read with nothing behind it. -/
theorem Flat.parseValue_cut {v : Value} (hv : Flat h v) (l : Layout) {p : Str}
    (hcut : Cut p (dumps l v)) (fuel depth : ℕ) :
    parseValue h (fuel + 1) depth (skip p) = .error .syntaxError ∨
      ∃ x, parseValue h (fuel + 1) depth (skip p) = .ok (x, []) := by
  rcases p with _ | ⟨c, p⟩
  · exact .inl rfl
  rcases hv with hs | @⟨n, hn⟩
  · rw [dumps] at hcut
    rcases cut_cons hcut with hnil | ⟨q, heq, hq⟩
    · exact absurd hnil (List.cons_ne_nil c p)
    · left
      rw [heq, skip_cons (by decide), parseValue, if_pos rfl, scanString_cut l.ensureAscii hs hq]
  · right
    have htext : dumps l (.int n) = decimal n := by
      rw [dumps, intText, if_neg (by omega), Int.natAbs_natCast]
    rw [htext] at hcut
    obtain ⟨m, hm, hp⟩ := decimal_of_prefix hcut.1 (List.cons_ne_nil c p)
    obtain ⟨x, hx⟩ := Option.isSome_iff_exists.1 (hn m hm)
    have htext' : c :: p = dumps l (.int m) := by
      rw [dumps, intText, if_neg (by omega), Int.natAbs_natCast, hp]
    have hskip := (dumps_valueStart l (.int m) []).skip_eq
    have hread := @parseValue_int _ h l m [] (fun c hc ↦ absurd hc (Option.not_mem_none c))
      fuel depth
    rw [List.append_nil] at hskip hread
    refine ⟨x, ?_⟩
    rw [htext', hskip, hread, hx]
    rfl

/-- A cut of the first member leaves no member; any other is a cut of what follows it. -/
theorem parseMembers_cut_member (l : Layout) {k : Str} {v : Value} (hk : IsVerbatim k)
    (hv : Flat h v) {tail p : Str} (hcut : Cut p (memberText l k v tail)) {fuel : ℕ}
    (hfuel : p.length < fuel) (depth : ℕ) :
    parseMembers h fuel depth p = .error .syntaxError ∨
      ∃ q, p = memberText l k v q ∧ Cut q tail := by
  obtain ⟨fuel, rfl⟩ := Nat.exists_eq_add_of_le' ((Nat.zero_le _).trans_lt hfuel)
  rcases cut_cons hcut with rfl | ⟨p₁, rfl, hp₁⟩
  · exact .inl rfl
  obtain ⟨fuel, rfl⟩ : ∃ n, fuel = n + 1 := by
    rw [List.length_cons] at hfuel
    exact ⟨fuel - 1, by omega⟩
  rcases cut_append hp₁ with hname | ⟨p₂, rfl, hp₂⟩
  · -- the name is not terminated
    left
    rw [parseMembers, scanKey, if_pos rfl, scanString_cut _ hk hname]
    rfl
  have hkey : scanKey (chr '"' :: (stringBody l.ensureAscii k ++ p₂)) = .ok (k, p₂) := by
    rw [scanKey, if_pos rfl, scanString_stringBody _ (isScalar_verbatim hk)]
    rfl
  rcases cut_cons hp₂ with rfl | ⟨p₃, rfl, hp₃⟩
  · -- there is no colon
    left
    rw [parseMembers, hkey]
    rfl
  rcases cut_append hp₃ with hblank | ⟨p₄, rfl, hp₄⟩
  · -- there is no value
    left
    rw [parseMembers, hkey, cut_blank hblank]
    rfl
  rcases cut_append hp₄ with hvalue | ⟨q, rfl, hq⟩
  · -- the value is cut: nothing follows it
    left
    rw [parseMembers, hkey]
    simp only [bind, Except.bind]
    rw [skip_cons (by decide), expect_cons]
    simp only [skip_blank_append]
    rcases hv.parseValue_cut h l hvalue fuel depth with herr | ⟨x, hx⟩
    · rw [herr]
    · rw [hx]
      rfl
  · exact .inr ⟨q, rfl, hq⟩

/-- A flat member with nothing behind it: neither a separator nor the closing brace is there. -/
theorem parseMembers_unclosed (l : Layout) {k : Str} {v : Value} (hk : IsVerbatim k)
    (hv : Flat h v) (fuel depth : ℕ) :
    parseMembers h (fuel + 2) depth (memberText l k v []) = .error .syntaxError := by
  obtain ⟨x, hx⟩ := @Flat.parseValue_append _ h _ hv l []
    (fun c hc ↦ absurd hc (Option.not_mem_none c)) fuel depth
  have hskip := (dumps_valueStart l v []).skip_eq
  rw [parseMembers, memberText, scanKey, if_pos rfl, scanString_stringBody _ (isScalar_verbatim hk)]
  simp only [Option.elim, bind, Except.bind]
  rw [skip_cons (by decide), expect_cons]
  simp only [skip_blank_append, hskip, hx]
  rfl

/-- A flat member with a separator behind it: reading fails where it fails behind the separator. -/
theorem parseMembers_separated (l : Layout) {k : Str} {v : Value} (hk : IsVerbatim k)
    (hv : Flat h v) {fuel depth : ℕ} {rest : Str}
    (hrest : parseMembers h (fuel + 1) depth (skip rest) = .error .syntaxError) :
    parseMembers h (fuel + 2) depth (memberText l k v (chr ',' :: rest)) = .error .syntaxError := by
  have hend : NumberEnd (chr ',' :: rest) := by
    intro c hc
    obtain rfl := Option.some.inj hc
    decide
  obtain ⟨x, hx⟩ := hv.parseValue_append h l hend fuel depth
  have hskip := (dumps_valueStart l v (chr ',' :: rest)).skip_eq
  rw [parseMembers, memberText, scanKey, if_pos rfl, scanString_stringBody _ (isScalar_verbatim hk)]
  simp only [Option.elim, bind, Except.bind]
  rw [skip_cons (by decide), expect_cons]
  simp only [skip_blank_append, hskip, hx]
  rw [skip_cons (by decide), expect_ne (by decide), expect_cons]
  simp only [hrest]

theorem fuel_of_member {l : Layout} {k : Str} {v : Value} {q : Str} {fuel : ℕ}
    (hfuel : (memberText l k v q).length < fuel) : ∃ n, fuel = n + 2 ∧ q.length < n + 1 := by
  simp only [memberText, List.length_cons, List.length_append] at hfuel
  exact ⟨fuel - 2, by omega, by omega⟩

/-- **Cut members.** By induction over the members: a cut falls into the first one, or it is a cut
of the others. -/
theorem parseMembers_cut (l : Layout) (ms : List (Str × Value)) (k : Str) (v : Value)
    (hflat : ∀ m ∈ (k, v) :: ms, IsVerbatim m.1 ∧ Flat h m.2) {p : Str}
    (hcut : Cut p (memberText l k v (dumpMembers l ms))) {fuel : ℕ} (hfuel : p.length < fuel)
    (depth : ℕ) : parseMembers h fuel depth p = .error .syntaxError := by
  induction ms generalizing k v p fuel with
  | nil =>
    obtain ⟨hk, hv⟩ := hflat (k, v) List.mem_cons_self
    rcases parseMembers_cut_member h l hk hv hcut hfuel depth with herr | ⟨q, rfl, hq⟩
    · exact herr
    obtain ⟨n, rfl, -⟩ := fuel_of_member hfuel
    rw [dumpMembers] at hq
    rcases cut_cons hq with rfl | ⟨r, -, hr⟩
    · exact parseMembers_unclosed h l hk hv n depth
    · exact absurd hr.length_lt (Nat.not_lt_zero _)
  | cons m ms ih =>
    obtain ⟨k', v'⟩ := m
    obtain ⟨hk, hv⟩ := hflat (k, v) List.mem_cons_self
    rcases parseMembers_cut_member h l hk hv hcut hfuel depth with herr | ⟨q, rfl, hq⟩
    · exact herr
    obtain ⟨n, rfl, hn⟩ := fuel_of_member hfuel
    rw [dumpMembers_cons] at hq
    rcases cut_cons hq with rfl | ⟨r, rfl, hr⟩
    · exact parseMembers_unclosed h l hk hv n depth
    -- what is left behind the separator is a cut of the other members
    refine parseMembers_separated h l hk hv ?_
    rcases cut_append hr with hblank | ⟨r', rfl, hr'⟩
    · rw [cut_blank hblank]
      rfl
    have hskip : skip r' = r' := by
      rcases cut_cons hr' with rfl | ⟨r'', rfl, -⟩
      · rfl
      · exact skip_cons (by decide) _
    rw [skip_blank_append, hskip]
    refine ih k' v' (fun m hm ↦ hflat m (List.mem_cons_of_mem _ hm)) hr' ?_
    rw [List.length_cons, List.length_append] at hn
    omega

/-- **Cut objects.** What is left of the text of a flat object is not JSON. -/
theorem loads_cut (l : Layout) {k : Str} {v : Value} {ms : List (Str × Value)}
    (hflat : ∀ m ∈ (k, v) :: ms, IsVerbatim m.1 ∧ Flat h m.2) {limit : ℕ}
    (hlimit : 1 ≤ limit) {p : Str} (hcut : Cut p (dumps l (.obj ((k, v) :: ms)))) :
    loads h limit p = .error .syntaxError := by
  have htext : dumps l (.obj ((k, v) :: ms)) =
      chr '\x7b' :: memberText l k v (dumpMembers l ms) := by
    rw [dumps, memberText]
  rw [htext] at hcut
  rcases cut_cons hcut with rfl | ⟨q, rfl, hq⟩
  · rfl
  have hopen : expect (chr '\x7d') (skip q) = .error .syntaxError ∧ skip q = q := by
    rcases cut_cons hq with rfl | ⟨r, rfl, -⟩
    · exact ⟨rfl, rfl⟩
    · rw [skip_cons (by decide)]
      exact ⟨expect_ne (by decide) r, rfl⟩
  have hmembers := parseMembers_cut h l ms k v hflat hq (Nat.lt_succ_self q.length) (limit - 1)
  rw [loads, skip_cons (by decide), List.length_cons, parseValue, if_neg (by decide),
    if_neg (by decide), if_pos rfl, if_neg (by omega), hopen.2]
  rw [hopen.2] at hopen
  simp only [hopen.1, hmembers]
  rfl

end Json
