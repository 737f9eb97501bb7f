import ScrapyExtension.Json.Syntax

/-!
# Reading JSON

`loads` follows the scanner of the `json` module: one pass, depth first, with the caller's hooks
applied while the tree is built. The hooks make the reader generic in what it produces, so the
same definition serves a plain `json.loads` and a reader that decodes objects on the way up.

## Failures

A hook may raise, the text may not be JSON, and the interpreter's recursion limit may be hit.
Callers distinguish the three, so `Error` does. Recursion is counted by `depth`, the number of
arrays and objects that may still be opened.

## Fuel

The three mutually recursive readers are structural in a fuel that every call spends once. Each
call also consumes a character, so one unit more than the length of the text is always enough;
`loads` supplies it.
-/

namespace Json

open Py

/-- What a reader builds, and what it calls: `parse_int`, `parse_float`, `parse_constant` and
`object_pairs_hook`. A hook that raises returns `none`. -/
structure Hooks (α : Type) where
  /-- The value of `null`. -/
  null : α
  /-- The value of a boolean. -/
  bool : Bool → α
  /-- `parse_int` -/
  int : ℤ → Option α
  /-- `parse_float`, applied to the token -/
  float : Str → Option α
  /-- `parse_constant`, applied to `NaN`, `Infinity` or `-Infinity` -/
  constant : Str → Option α
  /-- The value of a string. -/
  str : Str → α
  /-- The value of an array. -/
  arr : List α → α
  /-- `object_pairs_hook` -/
  obj : List (Str × α) → Option α

/-- Why a text was not read. -/
inductive Error where
  /-- `JSONDecodeError` -/
  | syntaxError
  /-- `RecursionError` -/
  | recursionError
  /-- A hook raised. -/
  | hookError
deriving DecidableEq

/-! ## Tokens -/

/-- Blank, tab, line feed, carriage return. -/
def isSpace (c : CodePoint) : Bool := c.val = 0x20 || c.val = 0x09 || c.val = 0x0A || c.val = 0x0D

/-- Skip whitespace. -/
def skip (s : Str) : Str := s.dropWhile isSpace

/-- The value of four hexadecimal digits. -/
def hex4 (a b c d : CodePoint) : Option ℕ := do
  let a ← hexValue a
  let b ← hexValue b
  let c ← hexValue c
  let d ← hexValue d
  some (a * 4096 + b * 256 + c * 16 + d)

/-- The character of a one-letter escape. -/
def unescape (e : CodePoint) : Option CodePoint :=
  if e = chr '"' then some e
  else if e = chr '\\' then some e
  else if e = chr '/' then some e
  else if e = chr 'b' then some 0x08
  else if e = chr 'f' then some 0x0C
  else if e = chr 'n' then some 0x0A
  else if e = chr 'r' then some 0x0D
  else if e = chr 't' then some 0x09
  else none

/-- The low surrogate that a text continues with, written as an escape. -/
def lowSurrogate? : Str → Option ℕ
  | b :: u :: w :: x :: y :: z :: _ =>
    if b = chr '\\' ∧ u = chr 'u' then
      (hex4 w x y z).filter fun n ↦ decide (0xDC00 ≤ n ∧ n < 0xE000)
    else none
  | _ => none

/-- The rest of a string literal after its opening quote, and what follows the literal. A high
surrogate escape takes a low one that follows it along; control characters are refused. -/
def scanString : Str → Option (Str × Str)
  | [] => none
  | c :: s =>
    if c = chr '"' then some ([], s)
    else if c = chr '\\' then
      match s with
      | [] => none
      | e :: s =>
        if e = chr 'u' then
          match s with
          | w :: x :: y :: z :: s =>
            match hex4 w x y z with
            | none => none
            | some n =>
              if 0xD800 ≤ n ∧ n < 0xDC00 then
                match lowSurrogate? s, s with
                | some m, _ :: _ :: _ :: _ :: _ :: _ :: s =>
                  (scanString s).map fun (t, rest) ↦
                    (Fin.ofNat _ (0x10000 + (n - 0xD800) * 0x400 + (m - 0xDC00)) :: t, rest)
                | _, s => (scanString s).map fun (t, rest) ↦ (Fin.ofNat _ n :: t, rest)
              else (scanString s).map fun (t, rest) ↦ (Fin.ofNat _ n :: t, rest)
          | _ => none
        else
          match unescape e with
          | none => none
          | some c => (scanString s).map fun (t, rest) ↦ (c :: t, rest)
    else if c.val < 0x20 then none
    else (scanString s).map fun (t, rest) ↦ (c :: t, rest)

/-- The integer part of a number without its sign: `0`, or digits that do not start with `0`. -/
def scanWhole : Str → Option (Str × Str)
  | [] => none
  | c :: s =>
    if c = chr '0' then some ([c], s)
    else if isDigit c then some (c :: s.takeWhile isDigit, s.dropWhile isDigit)
    else none

/-- A point and at least one digit, or nothing. -/
def scanFraction : Str → Str × Str
  | c :: d :: s =>
    if c = chr '.' ∧ isDigit d then (c :: d :: s.takeWhile isDigit, s.dropWhile isDigit)
    else ([], c :: d :: s)
  | s => ([], s)

/-- At least one digit. -/
def scanDigits (lead : Str) : Str → Option (Str × Str)
  | d :: s => if isDigit d then some (lead ++ d :: s.takeWhile isDigit, s.dropWhile isDigit) else none
  | [] => none

/-- `e`, a sign if there is one, and at least one digit, or nothing. -/
def scanExponent : Str → Str × Str
  | [] => ([], [])
  | c :: s =>
    if c = chr 'e' ∨ c = chr 'E' then
      match s with
      | [] => ([], [c])
      | d :: t =>
        if d = chr '-' ∨ d = chr '+' then (scanDigits [c, d] t).getD ([], c :: d :: t)
        else (scanDigits [c] (d :: t)).getD ([], c :: d :: t)
    else ([], c :: s)

/-- A number that starts with a digit, and whether it is a float. -/
def scanUnsigned (s : Str) : Option (Str × Bool × Str) := do
  let (whole, s) ← scanWhole s
  let (fraction, s) := scanFraction s
  let (exponent, s) := scanExponent s
  some (whole ++ (fraction ++ exponent), decide (fraction ++ exponent ≠ []), s)

variable {α : Type}

/-- A number. -/
def scanNumber (h : Hooks α) (s : Str) : Option (Option α × Str) :=
  match s with
  | [] => none
  | c :: t =>
    if c = chr '-' then
      (scanUnsigned t).map fun (token, isFloat, rest) ↦
        (if isFloat then h.float (c :: token) else h.int (-(readDecimal token : ℤ)), rest)
    else
      (scanUnsigned s).map fun (token, isFloat, rest) ↦
        (if isFloat then h.float token else h.int (readDecimal token : ℤ), rest)

/-- The text after a literal it starts with. -/
def afterLiteral (literal : String) (s : Str) : Option Str :=
  if Py.str literal <+: s then some (s.drop (Py.str literal).length) else none

/-- A value that is neither a string, an array nor an object. -/
def scanAtom (h : Hooks α) (s : Str) : Except Error (α × Str) :=
  match afterLiteral "null" s with
  | some rest => .ok (h.null, rest)
  | none =>
  match afterLiteral "true" s with
  | some rest => .ok (h.bool true, rest)
  | none =>
  match afterLiteral "false" s with
  | some rest => .ok (h.bool false, rest)
  | none =>
  match scanNumber h s with
  | some (some x, rest) => .ok (x, rest)
  | some (none, _) => .error .hookError
  | none =>
  match ["NaN", "Infinity", "-Infinity"].find? fun w ↦ (afterLiteral w s).isSome with
  | some w =>
    match h.constant (Py.str w) with
    | some x => .ok (x, s.drop (Py.str w).length)
    | none => .error .hookError
  | none => .error .syntaxError

/-! ## The reader -/

/-- A string literal, opening quote included. -/
def scanKey : Str → Except Error (Str × Str)
  | c :: s => if c = chr '"' then (scanString s).elim (.error .syntaxError) .ok
      else .error .syntaxError
  | [] => .error .syntaxError

/-- Drop one expected character. -/
def expect (c : CodePoint) : Str → Except Error Str
  | d :: s => if d = c then .ok s else .error .syntaxError
  | [] => .error .syntaxError

mutual

/-- One value, and the text that follows it. -/
def parseValue (h : Hooks α) : ℕ → ℕ → Str → Except Error (α × Str)
  | 0, _, _ => .error .recursionError
  | _ + 1, _, [] => .error .syntaxError
  | fuel + 1, depth, c :: s =>
    if c = chr '"' then
      match scanString s with
      | some (t, rest) => .ok (h.str t, rest)
      | none => .error .syntaxError
    else if c = chr '[' then
      if depth = 0 then .error .recursionError
      else do
        let (xs, rest) ←
          match expect (chr ']') (skip s) with
          | .ok rest => .ok ([], rest)
          | .error _ => parseItems h fuel (depth - 1) (skip s)
        .ok (h.arr xs, rest)
    else if c = chr '\x7b' then
      if depth = 0 then .error .recursionError
      else do
        let (ms, rest) ←
          match expect (chr '\x7d') (skip s) with
          | .ok rest => .ok ([], rest)
          | .error _ => parseMembers h fuel (depth - 1) (skip s)
        match h.obj ms with
        | some x => .ok (x, rest)
        | none => .error .hookError
    else scanAtom h (c :: s)

/-- The items of an array, up to the closing bracket. -/
def parseItems (h : Hooks α) : ℕ → ℕ → Str → Except Error (List α × Str)
  | 0, _, _ => .error .recursionError
  | fuel + 1, depth, s => do
    let (x, s) ← parseValue h fuel depth s
    match expect (chr ']') (skip s) with
    | .ok rest => .ok ([x], rest)
    | .error _ => do
      let s ← expect (chr ',') (skip s)
      let (xs, rest) ← parseItems h fuel depth (skip s)
      .ok (x :: xs, rest)

/-- The members of an object, up to the closing brace. -/
def parseMembers (h : Hooks α) : ℕ → ℕ → Str → Except Error (List (Str × α) × Str)
  | 0, _, _ => .error .recursionError
  | fuel + 1, depth, s => do
    let (k, s) ← scanKey s
    let s ← expect (chr ':') (skip s)
    let (x, s) ← parseValue h fuel depth (skip s)
    match expect (chr '\x7d') (skip s) with
    | .ok rest => .ok ([(k, x)], rest)
    | .error _ => do
      let s ← expect (chr ',') (skip s)
      let (ms, rest) ← parseMembers h fuel depth (skip s)
      .ok ((k, x) :: ms, rest)

end

/-- `json.loads` with the given hooks, under a recursion limit. -/
def loads (h : Hooks α) (limit : ℕ) (s : Str) : Except Error α := do
  let (x, rest) ← parseValue h (s.length + 1) limit (skip s)
  if skip rest = [] then .ok x else .error .syntaxError

/-! ## The value of a tree under the hooks -/

mutual

/-- What the hooks make of a tree. -/
def Value.fold (h : Hooks α) : Value → Option α
  | .null => some h.null
  | .bool b => some (h.bool b)
  | .int i => h.int i
  | .float x => h.float x.text
  | .str s => some (h.str s)
  | .arr xs => (foldItems h xs).map h.arr
  | .obj ms => (foldMembers h ms).bind h.obj

/-- `Value.fold` for every item. -/
def foldItems (h : Hooks α) : List Value → Option (List α)
  | [] => some []
  | x :: xs => do
    let y ← x.fold h
    let ys ← foldItems h xs
    some (y :: ys)

/-- `Value.fold` for every member. -/
def foldMembers (h : Hooks α) : List (Str × Value) → Option (List (Str × α))
  | [] => some []
  | (k, x) :: ms => do
    let y ← x.fold h
    let ys ← foldMembers h ms
    some ((k, y) :: ys)

end

end Json
