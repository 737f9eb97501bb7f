import Mathlib.Data.List.Infix
import Mathlib.Tactic
import ScrapyExtension.Py.Text

/-!
# Methods of texts

`str.replace`, `str.split` and `str.strip`. Replacement goes from left to right and does not look into
what it has written. Splitting is `List.splitOn`.

## Separators

A replacement whose two texts are free of a separator works on the fields of a text one by one
(`splitOn_replace`).
-/

namespace Py

/-! ## Replacement -/

section Replace

variable {α : Type*} [DecidableEq α]

/-- The replacement of `old` by `new`, while the next `skip` letters belong to an occurrence that is
already replaced. -/
def replaceFrom (old new : List α) : ℕ → List α → List α
  | _, [] => []
  | skip + 1, _ :: s => replaceFrom old new skip s
  | 0, c :: s =>
    if old <+: c :: s then new ++ replaceFrom old new (old.length - 1) s
    else c :: replaceFrom old new 0 s

/-- `s.replace(old, new)`, for an `old` that is not empty. -/
def replace (s old new : List α) : List α := replaceFrom old new 0 s

variable {old new : List α} {x : α}

private theorem replaceFrom_nil (skip : ℕ) : replaceFrom old new skip [] = [] := by
  rcases skip with - | skip <;> rfl

private theorem replaceFrom_succ (skip : ℕ) (c : α) (s : List α) :
    replaceFrom old new (skip + 1) (c :: s) = replaceFrom old new skip s := rfl

private theorem replaceFrom_zero (c : α) (s : List α) :
    replaceFrom old new 0 (c :: s) =
      if old <+: c :: s then new ++ replaceFrom old new (old.length - 1) s
      else c :: replaceFrom old new 0 s := rfl

omit [DecidableEq α] in
/-- A separator ends what a text without it can be a start of. -/
theorem prefix_append_cons_iff (hx : x ∉ old) (s t : List α) :
    old <+: s ++ x :: t ↔ old <+: s := by
  constructor
  · intro h
    rcases List.prefix_or_prefix_of_prefix h (List.prefix_append s (x :: t)) with h' | ⟨r, rfl⟩
    · exact h'
    · rw [List.prefix_append_right_inj] at h
      rcases r with - | ⟨y, r⟩
      · rw [List.append_nil]
      · obtain rfl := (List.cons_prefix_cons.1 h).1
        exact absurd (by simp) hx
  · intro h
    exact h.trans (List.prefix_append _ _)

omit [DecidableEq α] in
/-- Two texts are cut at their first separators alike. -/
theorem append_cons_inj {s t u v : List α} (hs : x ∉ s) (ht : x ∉ t)
    (h : s ++ x :: u = t ++ x :: v) : s = t ∧ u = v := by
  rcases List.append_eq_append_iff.1 h with ⟨l, rfl, hl⟩ | ⟨l, rfl, hl⟩ <;>
    rcases l with - | ⟨y, l⟩
  · exact ⟨(List.append_nil s).symm, (List.cons.inj hl).2⟩
  · obtain rfl := (List.cons.inj hl).1
    exact absurd (by simp) ht
  · exact ⟨List.append_nil t, (List.cons.inj hl).2.symm⟩
  · obtain rfl := (List.cons.inj hl).1
    exact absurd (by simp) hs

private theorem replaceFrom_append (hold : old ≠ []) (hx : x ∉ old) (t : List α) :
    ∀ (s : List α) (skip : ℕ), skip ≤ s.length →
      replaceFrom old new skip (s ++ x :: t) =
        replaceFrom old new skip s ++ x :: replaceFrom old new 0 t := by
  intro s
  induction s with
  | nil =>
    intro skip hskip
    obtain rfl : skip = 0 := Nat.le_zero.1 hskip
    have hnot : ¬ old <+: x :: t := by
      intro h
      exact hold (List.prefix_nil.1 ((prefix_append_cons_iff hx [] t).1 h))
    rw [List.nil_append, replaceFrom_zero, if_neg hnot, replaceFrom_nil, List.nil_append]
  | cons c s ih =>
    rintro (- | skip) hskip
    · have hiff := prefix_append_cons_iff hx (c :: s) t
      rw [List.cons_append] at hiff ⊢
      by_cases h : old <+: c :: s
      · have hlength := h.length_le
        rw [List.length_cons] at hlength
        rw [replaceFrom_zero, replaceFrom_zero, if_pos (hiff.2 h), if_pos h, ih _ (by omega), List.append_assoc]
      · rw [replaceFrom_zero, replaceFrom_zero, if_neg (mt hiff.1 h), if_neg h, ih 0 (Nat.zero_le _),
          List.cons_append]
    · rw [List.cons_append, replaceFrom_succ, replaceFrom_succ]
      exact ih skip (Nat.le_of_succ_le_succ hskip)

theorem replace_append_cons (hold : old ≠ []) (hx : x ∉ old) (s t : List α) :
    replace (s ++ x :: t) old new = replace s old new ++ x :: replace t old new :=
  replaceFrom_append hold hx t s 0 (Nat.zero_le _)

private theorem notMem_replaceFrom (hnew : x ∉ new) :
    ∀ (s : List α) (skip : ℕ), x ∉ s → x ∉ replaceFrom old new skip s := by
  intro s
  induction s with
  | nil =>
    intro skip _
    rw [replaceFrom_nil]
    exact List.not_mem_nil
  | cons c s ih =>
    intro skip hs
    obtain ⟨hc, hs⟩ := not_or.1 (mt List.mem_cons.2 hs)
    rcases skip with - | skip
    · rw [replaceFrom_zero]
      split_ifs
      · exact fun h ↦ (List.mem_append.1 h).elim hnew (ih _ hs)
      · exact fun h ↦ (List.mem_cons.1 h).elim hc (ih _ hs)
    · rw [replaceFrom_succ]
      exact ih skip hs

theorem notMem_replace (hnew : x ∉ new) {s : List α} (hs : x ∉ s) : x ∉ replace s old new :=
  notMem_replaceFrom hnew s 0 hs

/-- A text without an occurrence stays as it is. -/
theorem replace_of_not_infix {s : List α} (hs : ¬ old <:+: s) : replace s old new = s := by
  rw [replace]
  induction s with
  | nil => rw [replaceFrom_nil]
  | cons c s ih =>
    rw [replaceFrom_zero, if_neg (mt List.IsPrefix.isInfix hs),
      ih (mt (fun h ↦ h.trans (List.suffix_cons c s).isInfix) hs)]

private theorem replaceFrom_of_length_le {s : List α} :
    ∀ {skip : ℕ}, s.length ≤ skip → replaceFrom old new skip s = [] := by
  induction s with
  | nil =>
    intro skip _
    rw [replaceFrom_nil]
  | cons c s ih =>
    rintro (- | skip) hskip
    · exact absurd hskip (by simp)
    · rw [replaceFrom_succ]
      exact ih (Nat.le_of_succ_le_succ hskip)

/-- The text itself is replaced as a whole. -/
theorem replace_self (hold : old ≠ []) : replace old old new = new := by
  obtain ⟨c, s, rfl⟩ := List.exists_cons_of_ne_nil hold
  rw [replace, replaceFrom_zero, if_pos List.prefix_rfl, replaceFrom_of_length_le (by simp),
    List.append_nil]

private theorem replaceFrom_same (hold : old ≠ []) (s : List α) :
    ∀ skip, replaceFrom old old skip s = s.drop skip := by
  induction s with
  | nil =>
    intro skip
    rw [replaceFrom_nil, List.drop_nil]
  | cons c s ih =>
    rintro (- | skip)
    · rw [replaceFrom_zero]
      split_ifs with h
      · obtain ⟨r, hr⟩ := h
        obtain ⟨d, old, rfl⟩ := List.exists_cons_of_ne_nil hold
        obtain ⟨rfl, hs⟩ := List.cons.inj hr
        change old ++ r = s at hs
        subst hs
        rw [ih, List.length_cons, Nat.add_sub_cancel, List.drop_left, List.drop_zero,
          List.cons_append]
      · rw [ih, List.drop_zero, List.drop_zero]
    · rw [replaceFrom_succ, ih, List.drop_succ_cons]

/-- Nothing changes when a text is replaced by itself. -/
theorem replace_same (hold : old ≠ []) (s : List α) : replace s old old = s :=
  replaceFrom_same hold s 0

/-- Induction on the fields of a text, from the last one on. -/
theorem fields_induction {P : List α → Prop} (x : α) (single : ∀ s, x ∉ s → P s)
    (cons : ∀ s t, x ∉ s → P t → P (s ++ x :: t)) (s : List α) : P s := by
  induction hn : s.length using Nat.strong_induction_on generalizing s with
  | _ n ih =>
    by_cases hmem : x ∈ s
    · obtain ⟨t, u, rfl, ht⟩ := List.eq_append_cons_of_mem hmem
      have hlt : u.length < n := by
        rw [← hn, List.length_append, List.length_cons]
        omega
      exact cons t u ht (ih _ hlt u rfl)
    · exact single s hmem

/-- A text is replaced field by field. -/
theorem splitOn_replace (hold : old ≠ []) (hx : x ∉ old) (hnew : x ∉ new) (s : List α) :
    (replace s old new).splitOn x = (s.splitOn x).map fun field ↦ replace field old new := by
  induction s using fields_induction x with
  | single s hs =>
    rw [List.splitOn_eq_singleton hs, List.splitOn_eq_singleton (notMem_replace hnew hs),
      List.map_singleton]
  | cons s t hs ih =>
    rw [replace_append_cons hold hx, List.splitOn_append_cons_self_of_not_mem hs,
      List.splitOn_append_cons_self_of_not_mem (notMem_replace hnew hs), List.map_cons, ih]

/-- A field is a part of the text. -/
theorem infix_of_mem_splitOn {s field : List α} (h : field ∈ s.splitOn x) : field <:+: s := by
  induction s using fields_induction x with
  | single s hs =>
    rw [List.splitOn_eq_singleton hs, List.mem_singleton] at h
    rw [h]
  | cons s t hs ih =>
    rw [List.splitOn_append_cons_self_of_not_mem hs] at h
    rcases List.mem_cons.1 h with rfl | h
    · exact (List.prefix_append _ _).isInfix
    · exact (ih h).trans ⟨s ++ [x], [], by simp⟩

end Replace

/-! ## Strip -/

/-- White space, as `str.isspace` has it. -/
def isSpace (c : CodePoint) : Bool :=
  (9 ≤ c.val && c.val ≤ 13) || (28 ≤ c.val && c.val ≤ 32) || c.val = 0x85 || c.val = 0xA0 ||
    c.val = 0x1680 || (0x2000 ≤ c.val && c.val ≤ 0x200A) || c.val = 0x2028 || c.val = 0x2029 ||
    c.val = 0x202F || c.val = 0x205F || c.val = 0x3000

/-- `s.strip()` -/
def strip (s : Str) : Str := ((s.dropWhile isSpace).reverse.dropWhile isSpace).reverse

end Py
