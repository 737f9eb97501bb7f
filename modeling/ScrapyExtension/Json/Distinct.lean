import ScrapyExtension.Json.RoundTrip

/-!
# Values with the same text

Under `ensure_ascii` a surrogate pair and the character that it encodes are written alike, so two
values have the same text exactly if they are read back alike. For two strings that says that they
are equal once their pairs are joined, and for two arrays that the texts of their items are the
same, one by one: the text of an array determines the texts of its items.

The values here are made of strings, booleans and arrays.
-/

namespace Json

open Py

mutual

/-- Made of strings, booleans, arrays and `null`. -/
def Value.IsTextual : Value → Prop
  | .null => True
  | .bool _ => True
  | .str _ => True
  | .arr xs => ItemsTextual xs
  | _ => False

/-- `Value.IsTextual` for every item. -/
def ItemsTextual : List Value → Prop
  | [] => True
  | x :: xs => x.IsTextual ∧ ItemsTextual xs

end

theorem itemsTextual_iff {xs : List Value} : ItemsTextual xs ↔ ∀ x ∈ xs, x.IsTextual := by
  induction xs with
  | nil => simp [ItemsTextual]
  | cons x xs ih => rw [ItemsTextual, ih, List.forall_mem_cons]

/-! ## Joined pairs are written alike -/

theorem escape_joinPair {c d : CodePoint} (hc : isHigh c = true) (hd : isLow d = true) :
    escape true (joinPair c d) = escape true c ++ escape true d := by
  have hhigh : 0xD800 ≤ c.val ∧ c.val < 0xDC00 := by simpa [isHigh] using hc
  have hlow : 0xDC00 ≤ d.val ∧ d.val < 0xE000 := by simpa [isLow] using hd
  have hval : (joinPair c d).val = 0x10000 + (c.val - 0xD800) * 0x400 + (d.val - 0xDC00) :=
    Nat.mod_eq_of_lt (by omega)
  have hne : ∀ e : CodePoint, e.val < 0x10000 → joinPair c d ≠ e := by
    rintro e he rfl
    omega
  have hfirst : 0xD800 + ((joinPair c d).val - 0x10000) / 0x400 = c.val := by omega
  have hsecond : 0xDC00 + ((joinPair c d).val - 0x10000) % 0x400 = d.val := by omega
  rw [escape_surrogate (c := c) (by omega), escape_surrogate (c := d) (by omega), escape,
    if_neg (hne _ (by decide)), if_neg (hne _ (by decide)), if_neg (by omega), if_neg (by omega), if_neg (by omega),
    if_neg (by omega), if_neg (by omega), if_neg (by omega), if_neg (by simp; omega), if_neg (by omega), hfirst,
    hsecond]

theorem flatMap_escape_joinPairs (s : Str) : (joinPairs s).flatMap (escape true) = s.flatMap (escape true) := by
  induction s using joinPairs.induct with
  | case1 => rfl
  | case2 c => rfl
  | case3 c d s hpair ih =>
    rw [joinPairs, if_pos hpair]
    rw [Bool.and_eq_true] at hpair
    rw [List.flatMap_cons, List.flatMap_cons, List.flatMap_cons, escape_joinPair hpair.1 hpair.2, ih,
      List.append_assoc]
  | case4 c d s hpair ih =>
    rw [joinPairs, if_neg hpair, List.flatMap_cons, ih]
    rfl

theorem stringBody_readBack (ensureAscii : Bool) (s : Str) :
    stringBody ensureAscii (readBack ensureAscii s) = stringBody ensureAscii s := by
  rcases ensureAscii with - | -
  · rfl
  · change (joinPairs s).flatMap (escape true) ++ [chr '"'] = s.flatMap (escape true) ++ [chr '"']
    rw [flatMap_escape_joinPairs]

theorem readBackItems_eq_map (l : Layout) (xs : List Value) :
    readBackItems l xs = xs.map (Value.readBack l) := by
  induction xs with
  | nil => rfl
  | cons x xs ih => rw [readBackItems, ih, List.map_cons]

theorem dumpItems_congr {l : Layout} {f : Value → Value} {xs : List Value}
    (h : ∀ x ∈ xs, dumps l (f x) = dumps l x) : dumpItems l (xs.map f) = dumpItems l xs := by
  induction xs with
  | nil => rfl
  | cons x xs ih =>
    rw [List.map_cons, dumpItems, dumpItems, h x List.mem_cons_self,
      ih fun y hy ↦ h y (List.mem_cons_of_mem x hy)]

/-- What is read back is written as before. -/
theorem dumps_readBack (l : Layout) {v : Value} (hv : v.IsTextual) : dumps l (v.readBack l) = dumps l v := by
  induction v using Value.induct with
  | null => rfl
  | bool b => rfl
  | int i => rfl
  | float x => rfl
  | str s => rw [Value.readBack, dumps, dumps, stringBody_readBack]
  | arr xs ih =>
    have hitems : ∀ x ∈ xs, dumps l (x.readBack l) = dumps l x :=
      fun x hx ↦ ih x hx (itemsTextual_iff.1 hv x hx)
    rw [Value.readBack, readBackItems_eq_map]
    rcases xs with - | ⟨x, xs⟩
    · rfl
    · rw [List.map_cons, dumps, dumps, hitems x List.mem_cons_self,
        dumpItems_congr fun y hy ↦ hitems y (List.mem_cons_of_mem x hy)]
  | obj ms ih => exact absurd hv (by simp [Value.IsTextual])

/-! ## A text is read back as one value -/

/-- The hooks that build the value itself; a number or an object raises. -/
def textualHooks : Hooks Value where
  null := .null
  bool := .bool
  int _ := none
  float _ := none
  constant _ := none
  str := .str
  arr := .arr
  obj _ := none

/-- The value of a text. -/
def readText (text : Str) : Option Value := (loads textualHooks text.length text).toOption

theorem fold_textualHooks {v : Value} (l : Layout) (hv : v.IsTextual) :
    (v.readBack l).fold textualHooks = some (v.readBack l) := by
  induction v using Value.induct with
  | null => rfl
  | bool b => rfl
  | int i => exact absurd hv (by simp [Value.IsTextual])
  | float x => exact absurd hv (by simp [Value.IsTextual])
  | str s => rfl
  | arr xs ih =>
    have hitems : ∀ ys : List Value, (∀ y ∈ ys, (y.readBack l).fold textualHooks = some (y.readBack l)) →
        foldItems textualHooks (ys.map (Value.readBack l)) = some (ys.map (Value.readBack l)) := by
      intro ys hys
      induction ys with
      | nil => rfl
      | cons y ys ihs =>
        rw [List.map_cons, foldItems, hys y List.mem_cons_self,
          ihs fun z hz ↦ hys z (List.mem_cons_of_mem y hz)]
        rfl
    rw [Value.readBack, readBackItems_eq_map, Value.fold,
      hitems xs fun x hx ↦ ih x hx (itemsTextual_iff.1 hv x hx)]
    rfl
  | obj ms ih => exact absurd hv (by simp [Value.IsTextual])

theorem readText_dumps (l : Layout) {v : Value} (hv : v.IsTextual) :
    readText (dumps l v) = some (v.readBack l) := by
  rw [readText, loads_dumps_readBack textualHooks l (depth_le_length l v), fold_textualHooks l hv]
  rfl

theorem dumps_eq_iff (l : Layout) {v w : Value} (hv : v.IsTextual) (hw : w.IsTextual) :
    dumps l v = dumps l w ↔ v.readBack l = w.readBack l := by
  constructor
  · intro h
    have hread := congrArg readText h
    rw [readText_dumps l hv, readText_dumps l hw] at hread
    exact Option.some.inj hread
  · intro h
    rw [← dumps_readBack l hv, h, dumps_readBack l hw]

theorem dumps_str_eq_iff (l : Layout) {s t : Str} :
    dumps l (.str s) = dumps l (.str t) ↔ readBack l.ensureAscii s = readBack l.ensureAscii t := by
  rw [dumps_eq_iff (v := .str s) (w := .str t) l trivial trivial, Value.readBack, Value.readBack, Value.str.injEq]

theorem dumps_bool_eq_iff (l : Layout) {a b : Bool} : dumps l (.bool a) = dumps l (.bool b) ↔ a = b := by
  rw [dumps_eq_iff (v := .bool a) (w := .bool b) l trivial trivial, Value.readBack, Value.readBack,
    Value.bool.injEq]

/-- **Items.** The text of an array determines the texts of its items. -/
theorem dumps_arr_eq_iff (l : Layout) {xs ys : List Value} (hxs : ∀ x ∈ xs, x.IsTextual)
    (hys : ∀ y ∈ ys, y.IsTextual) :
    dumps l (.arr xs) = dumps l (.arr ys) ↔ xs.map (dumps l) = ys.map (dumps l) := by
  have hread : ∀ zs : List Value, (∀ z ∈ zs, z.IsTextual) →
      (zs.map (dumps l)).map readText = (zs.map (Value.readBack l)).map some := by
    intro zs hzs
    rw [List.map_map, List.map_map]
    exact List.map_congr_left fun z hz ↦ readText_dumps l (hzs z hz)
  have hwrite : ∀ zs : List Value, (∀ z ∈ zs, z.IsTextual) →
      (zs.map (Value.readBack l)).map (dumps l) = zs.map (dumps l) := by
    intro zs hzs
    rw [List.map_map]
    exact List.map_congr_left fun z hz ↦ dumps_readBack l (hzs z hz)
  have hv : (Value.arr xs).IsTextual := itemsTextual_iff.2 hxs
  have hw : (Value.arr ys).IsTextual := itemsTextual_iff.2 hys
  rw [dumps_eq_iff l hv hw, Value.readBack, Value.readBack, Value.arr.injEq, readBackItems_eq_map,
    readBackItems_eq_map]
  constructor
  · intro h
    rw [← hwrite xs hxs, h, hwrite ys hys]
  · intro h
    have hsome := congrArg (List.map readText) h
    rw [hread xs hxs, hread ys hys] at hsome
    exact List.map_injective_iff.2 (Option.some_injective _) hsome

theorem intText_injective : Function.Injective intText := by
  have hhead : ∀ m n, chr '-' :: decimal m ≠ decimal n := by
    intro m n h
    have hdigit := decimal_isDigit n (chr '-') (h ▸ List.mem_cons_self)
    exact absurd hdigit (by decide)
  have hread : ∀ {m n}, decimal m = decimal n → m = n := by
    intro m n h
    rw [← readDecimal_decimal m, h, readDecimal_decimal]
  intro i j h
  unfold intText at h
  split_ifs at h with hi hj hj
  · have := hread (List.cons.inj h).2
    omega
  · exact absurd h (hhead _ _)
  · exact absurd h.symm (hhead _ _)
  · have := hread h
    omega

/-- An ASCII string is read back as it is. -/
theorem readBack_of_isAscii (ensureAscii : Bool) {s : Str} (hs : s.IsAscii) : readBack ensureAscii s = s :=
  readBack_of_isScalar ensureAscii fun c hc ↦ (hs c hc).isScalar

end Json
