import ScrapyExtension.Py.Text

/-!
# JSON values and their text

`Value` is what `json.dumps` can be handed once every Python object has been reduced to the JSON
types, and `dumps` is its text. Numbers come in two kinds, because the reader calls a different
function for each: an integer is its value, and a float is the *token* that `float.__repr__`
writes. A `FloatToken` is a number with a fraction or an exponent, so a float never reads back as
an integer.

Objects are lists of members. Nothing here forbids two members of one name: whether that is an
error is decided by whoever reads the object.
-/

namespace Json

open Py

/-! ## Values -/

/-- The exponent part of a number. -/
structure Exponent where
  /-- Written `E` rather than `e`. -/
  upper : Bool
  /-- An explicit sign, `some true` for `-`. -/
  sign : Option Bool
  /-- The digits, most significant first. -/
  digits : List (Fin 10)
  /-- There is at least one. -/
  digits_ne_nil : digits ≠ []
deriving DecidableEq

/-- A number that is written with a fraction or an exponent. -/
structure FloatToken where
  /-- A leading minus sign. -/
  negative : Bool
  /-- The integer part. -/
  whole : ℕ
  /-- The digits after the point; none if there is no point. -/
  fraction : List (Fin 10)
  /-- The exponent part. -/
  exponent : Option Exponent
  /-- It does not look like an integer. -/
  isFloat : fraction ≠ [] ∨ exponent ≠ none
deriving DecidableEq

/-- A JSON value. -/
inductive Value where
  /-- `null` -/
  | null
  /-- `true` or `false` -/
  | bool (b : Bool)
  /-- A number without fraction and exponent. -/
  | int (i : ℤ)
  /-- A number with a fraction or an exponent. -/
  | float (x : FloatToken)
  /-- A string. -/
  | str (s : Str)
  /-- An array. -/
  | arr (xs : List Value)
  /-- An object, as the list of its members. -/
  | obj (ms : List (Str × Value))

namespace Value

/-- Induction over the tree: an array by its items, an object by the values of its members. -/
theorem induct {P : Value → Prop} (null : P .null) (bool : ∀ b, P (.bool b)) (int : ∀ i, P (.int i))
    (float : ∀ x, P (.float x)) (str : ∀ s, P (.str s))
    (arr : ∀ xs, (∀ v ∈ xs, P v) → P (.arr xs))
    (obj : ∀ ms, (∀ m ∈ ms, P m.2) → P (.obj ms)) (v : Value) : P v :=
  @Value.rec P (fun xs ↦ ∀ w ∈ xs, P w) (fun ms ↦ ∀ m ∈ ms, P m.2) (fun m ↦ P m.2)
    null bool int float str arr obj
    (fun _ h ↦ absurd h List.not_mem_nil)
    (fun _ _ hx hxs w hw ↦ (List.mem_cons.mp hw).elim (fun h ↦ h ▸ hx) (hxs w))
    (fun _ h ↦ absurd h List.not_mem_nil)
    (fun _ _ hm hms n hn ↦ (List.mem_cons.mp hn).elim (fun h ↦ h ▸ hm) (hms n))
    (fun _ _ h ↦ h) v

end Value

mutual

/-- How deep arrays and objects are nested. -/
def Value.depth : Value → ℕ
  | .arr xs => itemsDepth xs + 1
  | .obj ms => membersDepth ms + 1
  | _ => 0

/-- The depth of the deepest item. -/
def itemsDepth : List Value → ℕ
  | [] => 0
  | x :: xs => max x.depth (itemsDepth xs)

/-- The depth of the deepest member. -/
def membersDepth : List (Str × Value) → ℕ
  | [] => 0
  | (_, x) :: ms => max x.depth (membersDepth ms)

end

mutual

/-- No string and no member name contains a lone surrogate. -/
def Value.IsScalar : Value → Prop
  | .str s => s.IsScalar
  | .arr xs => ItemsScalar xs
  | .obj ms => MembersScalar ms
  | _ => True

/-- `Value.IsScalar` for every item. -/
def ItemsScalar : List Value → Prop
  | [] => True
  | x :: xs => x.IsScalar ∧ ItemsScalar xs

/-- `Value.IsScalar` for every member, names included. -/
def MembersScalar : List (Str × Value) → Prop
  | [] => True
  | (k, x) :: ms => k.IsScalar ∧ x.IsScalar ∧ MembersScalar ms

end

/-! ## Strings -/

/-- Four hexadecimal digits after a `\u`. -/
def unicodeEscape (n : ℕ) : Str :=
  [chr '\\', chr 'u', hexDigit (Fin.ofNat 16 (n / 4096)), hexDigit (Fin.ofNat 16 (n / 256)),
    hexDigit (Fin.ofNat 16 (n / 16)), hexDigit (Fin.ofNat 16 n)]

/-- The escape of one code point. `json` escapes the quote, the backslash and the control
characters, and under `ensure_ascii` everything outside the printable ASCII range as well, with a
surrogate pair above the basic plane. -/
def escape (ensureAscii : Bool) (c : CodePoint) : Str :=
  if c = chr '"' then [chr '\\', chr '"']
  else if c = chr '\\' then [chr '\\', chr '\\']
  else if c.val = 0x08 then [chr '\\', chr 'b']
  else if c.val = 0x0C then [chr '\\', chr 'f']
  else if c.val = 0x0A then [chr '\\', chr 'n']
  else if c.val = 0x0D then [chr '\\', chr 'r']
  else if c.val = 0x09 then [chr '\\', chr 't']
  else if c.val < 0x20 then unicodeEscape c.val
  else if c.val < 0x7F ∨ ensureAscii = false then [c]
  else if c.val < 0x10000 then unicodeEscape c.val
  else
    unicodeEscape (0xD800 + (c.val - 0x10000) / 0x400) ++
      unicodeEscape (0xDC00 + (c.val - 0x10000) % 0x400)

/-- A string with its closing quote, the opening one apart. -/
def stringBody (ensureAscii : Bool) (s : Str) : Str := s.flatMap (escape ensureAscii) ++ [chr '"']

/-! ## Numbers -/

/-- The text of an integer. -/
def intText (i : ℤ) : Str :=
  if i < 0 then chr '-' :: decimal i.natAbs else decimal i.natAbs

/-- The text of an exponent part. -/
def Exponent.text (e : Exponent) : Str :=
  (if e.upper then chr 'E' else chr 'e') ::
    ((match e.sign with
      | none => []
      | some true => [chr '-']
      | some false => [chr '+']) ++ e.digits.map digit)

/-- The fraction of a number, with its point. -/
def fractionText (ds : List (Fin 10)) : Str :=
  if ds = [] then [] else chr '.' :: ds.map digit

/-- The text of a float. -/
def FloatToken.text (x : FloatToken) : Str :=
  (if x.negative then [chr '-'] else []) ++ (decimal x.whole ++ (fractionText x.fraction ++
    (match x.exponent with
      | none => []
      | some e => e.text)))

/-! ## Layout -/

/-- The parameters of `json.dumps` that are used. -/
structure Layout where
  /-- Separators `", "` and `": "` rather than `","` and `":"`. -/
  spaced : Bool
  /-- `ensure_ascii` -/
  ensureAscii : Bool

/-- The defaults of `json.dumps`. -/
def Layout.default : Layout where
  spaced := true
  ensureAscii := true

/-- `separators=(",", ":")`. -/
def Layout.compact : Layout where
  spaced := false
  ensureAscii := true

/-- The blank after a separator. -/
def Layout.blank (l : Layout) : Str := if l.spaced then [chr ' '] else []

mutual

/-- `json.dumps`. -/
def dumps (l : Layout) : Value → Str
  | .null => Py.str "null"
  | .bool true => Py.str "true"
  | .bool false => Py.str "false"
  | .int i => intText i
  | .float x => x.text
  | .str s => chr '"' :: stringBody l.ensureAscii s
  | .arr [] => Py.str "[]"
  | .arr (x :: xs) => chr '[' :: (dumps l x ++ dumpItems l xs)
  | .obj [] => Py.str "\x7b\x7d"
  | .obj ((k, x) :: ms) =>
    chr '\x7b' :: chr '"' :: (stringBody l.ensureAscii k ++
      (chr ':' :: (l.blank ++ (dumps l x ++ dumpMembers l ms))))

/-- The items of an array from the second on, each after its separator, and the closing
bracket. -/
def dumpItems (l : Layout) : List Value → Str
  | [] => [chr ']']
  | x :: xs => chr ',' :: (l.blank ++ (dumps l x ++ dumpItems l xs))

/-- The members of an object from the second on, each after its separator, and the closing
brace. -/
def dumpMembers (l : Layout) : List (Str × Value) → Str
  | [] => [chr '\x7d']
  | (k, x) :: ms =>
    chr ',' :: (l.blank ++ (chr '"' :: (stringBody l.ensureAscii k ++
      (chr ':' :: (l.blank ++ (dumps l x ++ dumpMembers l ms))))))

end

end Json
