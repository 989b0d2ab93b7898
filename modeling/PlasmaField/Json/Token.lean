import PlasmaField.Scalar.Binary64

/-!
# Tokens of JSON texts

A text is split into tokens by a machine that reads one character at a time. It refuses whatever no
JSON text contains: unknown words, malformed numbers, raw control characters in strings and unknown
escapes. Numbers beyond the range of doubles and strings with an escaped surrogate that has no
partner are tokens without a value.

A number is read as its digits, taken as a whole number and multiplied or divided by one power of
ten. Digits that do not fit into 64 bits are dropped, those before the point and those after it
separately.
-/

namespace PlasmaField.Json

/-- A token of a JSON text. -/
inductive Token where
  | openObject
  | closeObject
  | openList
  | closeList
  | colon
  | comma
  | null
  | bool (b : Bool)
  | natural (n : UInt64)
  | number (x : Option Float)
  | text (s : Option String)

namespace Number

/-- The power of ten as the nearest double. -/
def tenTo (k : Nat) : Float :=
  Float.ofScientific 1 false k

/-- Divides by a power of ten in steps of at most `10^308`, until nothing is left. -/
def scaleDown (x : Float) (k : Nat) : Float :=
  if k ≤ 308 then x / tenTo k
  else if x == 0 then x
  else scaleDown (x / tenTo 308) (k - 308)
termination_by k

/-- Multiplies by a power of ten; `none` beyond the range of doubles. -/
def scaleUp? (x : Float) (k : Nat) : Option Float :=
  if x == 0 then some x
  else if 308 < k then none
  else
    let y := x * tenTo k
    if y.isFinite then some y else none

/-- The whole number that digits form, and how many digits had to be dropped because the number
would not fit into 64 bits. -/
def cut (acc : Nat) : List Nat → Nat × Nat
  | [] => (acc, 0)
  | d :: ds =>
    let next := acc * 10 + d
    if Nat.pow 2 64 ≤ next then (acc, ds.length + 1) else cut next ds

/-- The double with the given digits before and after the point, scaled by a power of ten; `none`
beyond the range of doubles. A dropped digit before the point counts as a power of ten. The digits
after the point are taken on where the ones before it were cut, as long as they fit. -/
def ofDigits? (negative : Bool) (digits decimals : List Nat) (exponent : Int) : Option Float := do
  let (n, dropped) := cut 0 digits
  let (m, left) := cut n decimals
  let x := Float.ofNat m
  let y ← match exponent + dropped + left - decimals.length with
    | .ofNat k => scaleUp? x k
    | .negSucc k => some (scaleDown x (k + 1))
  return if negative then -y else y

/-- The values of decimal digits. -/
def values (digits : List Char) : List Nat :=
  digits.map fun c ↦ c.toNat - '0'.toNat

/-- The whole number that decimal digits form. -/
def whole (digits : List Nat) : Nat :=
  digits.foldl (fun acc d ↦ acc * 10 + d) 0

/-- Splits off the digits after a point, of which there must be one. -/
def fraction? (cs : List Char) : Option (List Char × List Char) :=
  match cs with
  | '.' :: rest =>
    let (digits, rest) := rest.span Char.isDigit
    if digits.isEmpty then none else some (digits, rest)
  | _ => some ([], cs)

/-- Splits off an exponent, whose mark must be followed by a digit. -/
def exponent? (cs : List Char) : Option (Option Int × List Char) :=
  let signed (negative : Bool) (cs : List Char) : Option (Option Int × List Char) :=
    let (digits, rest) := cs.span Char.isDigit
    let e : Int := whole (values digits)
    if digits.isEmpty then none else some (some (if negative then -e else e), rest)
  match cs with
  | c :: rest =>
    if c = 'e' || c = 'E' then
      match rest with
      | '-' :: rest => signed true rest
      | '+' :: rest => signed false rest
      | rest => signed false rest
    else some (none, cs)
  | [] => some (none, [])

/-- The token of a number's characters: a sign, digits without a leading zero, and a fraction and an
exponent where given. A natural number of 64 bits keeps its value. -/
def ofChars? (cs : List Char) : Option Token := do
  let negative := cs.head? == some '-'
  let (digits, rest) := (if negative then cs.drop 1 else cs).span Char.isDigit
  if digits.isEmpty || (digits.head? == some '0' && digits.length != 1) then none
  let (decimals, rest) ← fraction? rest
  let (exponent, rest) ← exponent? rest
  if !rest.isEmpty then none
  let n := whole (values digits)
  if decimals.isEmpty && exponent.isNone && !negative && n < Nat.pow 2 64 then
    return .natural (UInt64.ofNat n)
  else
    return .number (ofDigits? negative (values digits) (values decimals) (exponent.getD 0))

end Number

namespace Text

/-- The code point is one half of a surrogate pair. No character has it, but an escape may. -/
def isSurrogate (code : Nat) : Bool :=
  0xD800 ≤ code && code ≤ 0xDFFF

/-- Two code points form a surrogate pair. -/
def isPair (high low : Nat) : Bool :=
  0xD800 ≤ high && high ≤ 0xDBFF && 0xDC00 ≤ low && low ≤ 0xDFFF

/-- Puts the characters that code points in reverse form before those of the rest; `none` if a
surrogate is left without its partner. -/
def charactersBefore? (rest : List Char) : List Nat → Option (List Char)
  | [] => some rest
  | [code] => if isSurrogate code then none else some (Char.ofNat code :: rest)
  | low :: high :: read =>
    if isPair high low then
      charactersBefore?
        (Char.ofNat (0x10000 + (high - 0xD800) * 0x400 + (low - 0xDC00)) :: rest) read
    else if isSurrogate low then none
    else charactersBefore? (Char.ofNat low :: rest) (high :: read)

/-- The string that code points in reverse form, if every surrogate has its partner. -/
def ofReversed? (read : List Nat) : Option String :=
  (charactersBefore? [] read).map String.ofList

end Text

/-- What the machine is in the middle of. What was read stands in reverse, a string as its code
points. -/
inductive Reading where
  | between
  | word (read : List Char)
  | number (read : List Char)
  | text (read : List Nat)
  | escape (read : List Nat)
  /-- In the digits of an escaped code point. -/
  | hex (read : List Nat) (value count : Nat)

/-- The machine's state: the tokens so far, in reverse, and what it is in the middle of. -/
structure Lexer where
  tokens : List Token
  reading : Reading

namespace Lexer

/-- The characters that a number can consist of. -/
def inNumber (c : Char) : Bool :=
  c.isDigit || c = '-' || c = '+' || c = '.' || c = 'e' || c = 'E'

/-- The token of a word. -/
def word? (read : List Char) : Option Token :=
  match String.ofList read.reverse with
  | "null" => some .null
  | "true" => some (.bool true)
  | "false" => some (.bool false)
  | _ => none

/-- Reads a character between tokens. -/
def start (tokens : List Token) (c : Char) : Option Lexer :=
  let token (t : Token) : Option Lexer := some ⟨t :: tokens, .between⟩
  match c with
  | ' ' | '\t' | '\n' | '\r' => some ⟨tokens, .between⟩
  | '\x7b' => token .openObject
  | '\x7d' => token .closeObject
  | '[' => token .openList
  | ']' => token .closeList
  | ':' => token .colon
  | ',' => token .comma
  | '"' => some ⟨tokens, .text []⟩
  | c =>
    if c = '-' || c.isDigit then some ⟨tokens, .number [c]⟩
    else if c.isLower then some ⟨tokens, .word [c]⟩
    else none

/-- The character that a one-letter escape stands for. -/
def escaped? : Char → Option Char
  | '"' => some '"'
  | '\\' => some '\\'
  | '/' => some '/'
  | 'b' => some '\x08'
  | 'f' => some '\x0c'
  | 'n' => some '\n'
  | 'r' => some '\r'
  | 't' => some '\t'
  | _ => none

/-- The value of a hexadecimal digit. -/
def hexDigit? (c : Char) : Option Nat :=
  if c.isDigit then some (c.toNat - '0'.toNat)
  else if 'a' ≤ c && c ≤ 'f' then some (c.toNat - 'a'.toNat + 10)
  else if 'A' ≤ c && c ≤ 'F' then some (c.toNat - 'A'.toNat + 10)
  else none

/-- Ends the word or number in the middle of which the machine is. -/
def settle (lexer : Lexer) : Option Lexer :=
  match lexer.reading with
  | .word read => (word? read).map fun t ↦ ⟨t :: lexer.tokens, .between⟩
  | .number read => (Number.ofChars? read.reverse).map fun t ↦ ⟨t :: lexer.tokens, .between⟩
  | _ => some lexer

/-- Reads one character. -/
def step (lexer : Lexer) (c : Char) : Option Lexer :=
  match lexer.reading with
  | .between => start lexer.tokens c
  | .word read =>
    if c.isLower then some ⟨lexer.tokens, .word (c :: read)⟩
    else lexer.settle.bind (start ·.tokens c)
  | .number read =>
    if inNumber c then some ⟨lexer.tokens, .number (c :: read)⟩
    else lexer.settle.bind (start ·.tokens c)
  | .text read =>
    if c = '"' then some ⟨.text (Text.ofReversed? read) :: lexer.tokens, .between⟩
    else if c = '\\' then some ⟨lexer.tokens, .escape read⟩
    else if c.toNat < 0x20 then none
    else some ⟨lexer.tokens, .text (c.toNat :: read)⟩
  | .escape read =>
    if c = 'u' then some ⟨lexer.tokens, .hex read 0 0⟩
    else (escaped? c).map fun e ↦ ⟨lexer.tokens, .text (e.toNat :: read)⟩
  | .hex read value count => do
    let next := value * 16 + (← hexDigit? c)
    if count = 3 then some ⟨lexer.tokens, .text (next :: read)⟩
    else some ⟨lexer.tokens, .hex read next (count + 1)⟩

end Lexer

/-- The tokens of a text, if it consists of tokens. -/
def tokens? (text : String) : Option (List Token) := do
  let lexer ← text.toList.foldlM Lexer.step ⟨[], .between⟩
  let ended ← lexer.settle
  match ended.reading with
  | .between => return ended.tokens.reverse
  | _ => none

end PlasmaField.Json
