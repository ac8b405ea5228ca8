/-!
# String literals

What stands between the quotes of a string literal. `encode` escapes the quote, the backslash and
the control characters; `decode` reads every escape, and refuses a surrogate that is not half of a
pair; `scan` finds the end of a literal without reading its escapes.
-/

namespace Stylesheet.Json.Quoted

/-- The lower case hexadecimal digit of a number below 16. -/
def hexDigit (n : Nat) : Char := if n < 10 then Char.ofNat (48 + n) else Char.ofNat (87 + n)

/-- The value of a hexadecimal digit of either case. -/
def hexValue? (c : Char) : Option Nat :=
  let n := c.toNat
  if 48 ≤ n && n ≤ 57 then some (n - 48)
  else if 97 ≤ n && n ≤ 102 then some (n - 87)
  else if 65 ≤ n && n ≤ 70 then some (n - 55)
  else none

/-- The 16-bit unit that four hexadecimal digits stand for. -/
def unit? (a b c d : Char) : Option Nat := do
  return (((← hexValue? a) * 16 + (← hexValue? b)) * 16 + (← hexValue? c)) * 16 + (← hexValue? d)

/-- The letter of the short escape in which a character is written. -/
def escapeLetter? : Char → Option Char
  | '"' => some '"'
  | '\\' => some '\\'
  | '\x08' => some 'b'
  | '\x0c' => some 'f'
  | '\n' => some 'n'
  | '\r' => some 'r'
  | '\t' => some 't'
  | _ => none

/-- The character that a short escape stands for. -/
def escapedChar? : Char → Option Char
  | '"' => some '"'
  | '\\' => some '\\'
  | '/' => some '/'
  | 'b' => some '\x08'
  | 'f' => some '\x0c'
  | 'n' => some '\n'
  | 'r' => some '\r'
  | 't' => some '\t'
  | _ => none

/-- A control character may not stand in a literal as itself. -/
def isControl (c : Char) : Bool := c.toNat < 0x20

/-- One character as it stands in a literal. -/
def encodeChar (c : Char) : List Char :=
  match escapeLetter? c with
  | some letter => ['\\', letter]
  | none =>
    if isControl c then ['\\', 'u', '0', '0', hexDigit (c.toNat / 16), hexDigit (c.toNat % 16)]
    else [c]

/-- A text as it stands in a literal. -/
def encode (cs : List Char) : List Char := cs.flatMap encodeChar

/-- A trailing surrogate: the second half of a pair. -/
def isTrailing (u : Nat) : Bool := 0xDC00 ≤ u && u < 0xE000

/-- A leading surrogate: the first half of a pair. -/
def isLeading (u : Nat) : Bool := 0xD800 ≤ u && u < 0xDC00

/-- The character that a pair of surrogates stands for. -/
def pairChar (lead trail : Nat) : Char :=
  Char.ofNat (0x10000 + (lead - 0xD800) * 0x400 + (trail - 0xDC00))

/-- The text that a literal stands for. -/
def decode : List Char → Option (List Char)
  | [] => some []
  | '\\' :: 'u' :: a :: b :: c :: d :: rest => do
    let u ← unit? a b c d
    if isTrailing u then none
    else if isLeading u then
      match rest with
      | '\\' :: 'u' :: a' :: b' :: c' :: d' :: rest => do
        let t ← unit? a' b' c' d'
        if isTrailing t then return pairChar u t :: (← decode rest) else none
      | _ => none
    else return Char.ofNat u :: (← decode rest)
  | '\\' :: e :: rest => do
    let c ← escapedChar? e
    return c :: (← decode rest)
  | c :: rest => if c = '\\' then none else return c :: (← decode rest)

/-- The inside of a literal whose opening quote was read, and what follows its closing quote. -/
def scan : List Char → Option (List Char × List Char)
  | [] => none
  | '"' :: rest => some ([], rest)
  | '\\' :: 'u' :: a :: b :: c :: d :: rest => do
    let _ ← unit? a b c d
    let (inside, after) ← scan rest
    return ('\\' :: 'u' :: a :: b :: c :: d :: inside, after)
  | '\\' :: e :: rest => do
    let _ ← escapedChar? e
    let (inside, after) ← scan rest
    return ('\\' :: e :: inside, after)
  | c :: rest =>
    if c = '\\' || isControl c then none
    else do
      let (inside, after) ← scan rest
      return (c :: inside, after)

end Stylesheet.Json.Quoted
