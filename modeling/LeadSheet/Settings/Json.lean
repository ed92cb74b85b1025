import LeadSheet.Number.Reader
import LeadSheet.Settings.Value

/-!
# Reading JSON

A JSON text as a value.  Three words that are not of the standard, `NaN`,
`Infinity` and `-Infinity`, are read as well; of two fields with one name the
later one counts.  Text between quotes holds no control characters.

What goes wrong is told with the place it happens at, counted in characters
from zero (`JsonFault`).  Reading is by recursion on a bound that no text can
exhaust, twice its length (`readJson`).
-/

namespace LeadSheet

inductive JsonError where
  | byteOrderMark
  | expectingValue
  | expectingName
  | expectingColon
  | expectingComma
  | extraData
  | unterminated
  | controlCharacter
  | badEscape
  | badUnicode
  /-- A whole number of too many digits. -/
  | tooManyDigits (digits : Nat)
deriving DecidableEq

def JsonError.text : JsonError → String
  | byteOrderMark => "Unexpected UTF-8 BOM (decode using utf-8-sig)"
  | expectingValue => "Expecting value"
  | expectingName => "Expecting property name enclosed in double quotes"
  | expectingColon => "Expecting ':' delimiter"
  | expectingComma => "Expecting ',' delimiter"
  | extraData => "Extra data"
  | unterminated => "Unterminated string starting at"
  | controlCharacter => "Invalid control character at"
  | badEscape => "Invalid \\escape"
  | badUnicode => "Invalid \\uXXXX escape"
  | tooManyDigits _ => ""

/-- An error and the place it happens at: the text from there on. -/
structure JsonStop where
  error : JsonError
  rest : List Char

/-- An error with its line and column, counted from one, and its position,
counted from zero. -/
structure JsonFault where
  error : JsonError
  line : Nat
  column : Nat
  position : Nat
deriving DecidableEq

def JsonFault.message (f : JsonFault) : String :=
  f.error.text ++ ": line " ++ toString f.line ++ " column " ++ toString f.column ++ " (char "
    ++ toString f.position ++ ")"

namespace Json

def isSpace (c : Char) : Bool :=
  c = ' ' || c = '\t' || c = '\n' || c = '\r'

def skipSpace (cs : List Char) : List Char :=
  cs.dropWhile isSpace

def isPlainDigit (c : Char) : Bool :=
  '0' ≤ c && c ≤ '9'

/-! ### Texts -/

def hexValue? (c : Char) : Option Nat :=
  if isPlainDigit c then some (c.toNat - '0'.toNat)
  else if 'a' ≤ c ∧ c ≤ 'f' then some (c.toNat - 'a'.toNat + 10)
  else if 'A' ≤ c ∧ c ≤ 'F' then some (c.toNat - 'A'.toNat + 10)
  else none

/-- Reads the four hexadecimal digits behind `\u`; something has to follow
them. -/
def takeHex : List Char → Option (Nat × List Char)
  | a :: b :: c :: d :: rest => do
    let a ← hexValue? a
    let b ← hexValue? b
    let c ← hexValue? c
    let d ← hexValue? d
    if rest.isEmpty then none else some (((a * 16 + b) * 16 + c) * 16 + d, rest)
  | _ => none

def escape? : Char → Option Char
  | '"' => some '"'
  | '\\' => some '\\'
  | '/' => some '/'
  | 'b' => some (Char.ofNat 8)
  | 'f' => some (Char.ofNat 12)
  | 'n' => some '\n'
  | 'r' => some '\r'
  | 't' => some '\t'
  | _ => none

/-- Whether a number is the first half of a code point beyond four digits. -/
def isHighHalf (n : Nat) : Bool :=
  0xD800 ≤ n && n < 0xDC00

def isLowHalf (n : Nat) : Bool :=
  0xDC00 ≤ n && n < 0xE000

/-- Reads the second half of a code point, if one follows. -/
def takeLowHalf (rest : List Char) : Except JsonStop (Option (Nat × List Char)) :=
  match rest with
  | '\\' :: 'u' :: digits =>
    if rest.length ≤ 6 then .ok none
    else
      match takeHex digits with
      | none => .error ⟨.badUnicode, rest.drop 1⟩
      | some (low, rest) => .ok (if isLowHalf low then some (low, rest) else none)
  | _ => .ok none

/-- Reads the code point behind `\u`, given the text from the `u` on.  Half of
one is read as it is if the other half does not follow. -/
def takeUnicode (text : List Char) : Except JsonStop (Nat × List Char) :=
  match takeHex (text.drop 1) with
  | none => .error ⟨.badUnicode, text⟩
  | some (high, rest) =>
    if isHighHalf high then
      match takeLowHalf rest with
      | .error stop => .error stop
      | .ok (some (low, rest)) =>
        .ok (0x10000 + (high - 0xD800) * 1024 + (low - 0xDC00), rest)
      | .ok none => .ok (high, rest)
    else .ok (high, rest)

/-- Reads the code points of a text up to its closing quote, given the text from
the opening one on for what may be said about it.  The number bounds the
characters read. -/
def takeText (opening : List Char) : Nat → List Char → Except JsonStop (List Nat × List Char)
  | 0, cs => .error ⟨.unterminated, cs⟩
  | _ + 1, [] => .error ⟨.unterminated, opening⟩
  | fuel + 1, c :: cs =>
    if c = '"' then .ok ([], cs)
    else if c = '\\' then
      match cs with
      | [] => .error ⟨.unterminated, opening⟩
      | 'u' :: _ => do
        let (d, rest) ← takeUnicode cs
        let (ds, rest) ← takeText opening fuel rest
        pure (d :: ds, rest)
      | e :: rest =>
        match escape? e with
        | none => .error ⟨.badEscape, c :: cs⟩
        | some d => do
          let (ds, rest) ← takeText opening fuel rest
          pure (d.toNat :: ds, rest)
    else if c.toNat ≤ 0x1F then .error ⟨.controlCharacter, c :: cs⟩
    else do
      let (ds, rest) ← takeText opening fuel cs
      pure (c.toNat :: ds, rest)

/-! ### Numbers -/

/-- The digits a number starts with: a zero alone, or digits that do not start
with one. -/
def takeWholePart : List Char → List Char × List Char
  | [] => ([], [])
  | c :: cs =>
    if c = '0' then (['0'], cs)
    else if isPlainDigit c then (c :: cs.takeWhile isPlainDigit, cs.dropWhile isPlainDigit)
    else ([], c :: cs)

def takePlaces : List Char → List Char × List Char
  | '.' :: c :: cs =>
    if isPlainDigit c then
      ('.' :: c :: cs.takeWhile isPlainDigit, cs.dropWhile isPlainDigit)
    else ([], '.' :: c :: cs)
  | cs => ([], cs)

def takeExponent : List Char → List Char × List Char
  | [] => ([], [])
  | e :: cs =>
    if e = 'e' ∨ e = 'E' then
      let (sign, body) := match cs with
        | '+' :: body => (['+'], body)
        | '-' :: body => (['-'], body)
        | body => ([], body)
      let digits := body.takeWhile isPlainDigit
      if digits.isEmpty then ([], e :: cs)
      else (e :: sign ++ digits, body.dropWhile isPlainDigit)
    else ([], e :: cs)

variable {Q : Type} [Quantity Q]

def special (l : Literal) : Value Q :=
  .number (.fraction (Quantity.ofLiteral l))

def takeNumber (cs : List Char) : Except JsonStop (Value Q × List Char) :=
  let (sign, body) := match cs with
    | '-' :: body => (['-'], body)
    | body => ([], body)
  let (whole, rest) := takeWholePart body
  if whole.isEmpty then .error ⟨.expectingValue, cs⟩
  else
    let (places, rest) := takePlaces rest
    let (exponent, rest) := takeExponent rest
    let text := sign ++ whole ++ places ++ exponent
    if places.isEmpty && exponent.isEmpty then
      match readWhole text with
      | .number n => .ok (.number (.whole n), rest)
      | .tooLong digits => .error ⟨.tooManyDigits digits, cs⟩
      | .malformed => .error ⟨.expectingValue, cs⟩
    else
      match readLiteral text with
      | some l => .ok (special l, rest)
      | none => .error ⟨.expectingValue, cs⟩

/-! ### Values -/

def words : List (String × Value Q) :=
  [("null", .null), ("true", .number (.flag true)), ("false", .number (.flag false)),
   ("NaN", special .nan), ("Infinity", special (.infinite false)),
   ("-Infinity", special (.infinite true))]

def takeWord (cs : List Char) : Option (Value Q × List Char) :=
  words.findSome? fun (w, v) =>
    if w.toList.isPrefixOf cs then some (v, cs.drop w.length) else none

mutual

def takeValue : Nat → List Char → Except JsonStop (Value Q × List Char)
  | 0, cs => .error ⟨.expectingValue, cs⟩
  | fuel + 1, cs =>
    match cs with
    | '"' :: body => do
      let (s, rest) ← takeText cs (body.length + 1) body
      pure (.ofPoints s, rest)
    | '[' :: body =>
      match skipSpace body with
      | ']' :: rest => .ok (.list [], rest)
      | inner => do
        let (vs, rest) ← takeItems fuel inner
        pure (.list vs, rest)
    | '{' :: body =>
      match skipSpace body with
      | '}' :: rest => .ok (.mapping [], rest)
      | inner => takeFields fuel [] inner
    | _ =>
      match takeWord cs with
      | some r => .ok r
      | none => takeNumber cs

def takeItems : Nat → List Char → Except JsonStop (List (Value Q) × List Char)
  | 0, cs => .error ⟨.expectingValue, cs⟩
  | fuel + 1, cs => do
    let (v, rest) ← takeValue fuel cs
    match skipSpace rest with
    | ']' :: rest => pure ([v], rest)
    | ',' :: rest => do
      let (vs, rest) ← takeItems fuel (skipSpace rest)
      pure (v :: vs, rest)
    | rest => .error ⟨.expectingComma, rest⟩

/-- Reads the fields of a mapping up to its end, behind some that were
read. -/
def takeFields : Nat → List (Value Q × Value Q) → List Char →
    Except JsonStop (Value Q × List Char)
  | 0, _, cs => .error ⟨.expectingValue, cs⟩
  | fuel + 1, fields, cs =>
    match cs with
    | '"' :: body => do
      let (name, rest) ← takeText cs (body.length + 1) body
      match skipSpace rest with
      | ':' :: rest => do
        let (v, rest) ← takeValue fuel (skipSpace rest)
        let fields := Value.setField (.ofPoints name) v fields
        match skipSpace rest with
        | '}' :: rest => pure (.mapping fields, rest)
        | ',' :: rest => takeFields fuel fields (skipSpace rest)
        | rest => .error ⟨.expectingComma, rest⟩
      | rest => .error ⟨.expectingColon, rest⟩
    | _ => .error ⟨.expectingName, cs⟩

end

def takeWhole (cs : List Char) : Except JsonStop (Value Q) :=
  if cs.head? = some (Char.ofNat 0xFEFF) then .error ⟨.byteOrderMark, cs⟩
  else do
    let (v, rest) ← takeValue (2 * cs.length + 2) (skipSpace cs)
    match skipSpace rest with
    | [] => pure v
    | rest => .error ⟨.extraData, rest⟩

end Json

def JsonStop.fault (cs : List Char) (s : JsonStop) : JsonFault :=
  let before := cs.take (cs.length - s.rest.length)
  ⟨s.error, before.count '\n' + 1, (before.reverse.takeWhile (· ≠ '\n')).length + 1, before.length⟩

def readJson {Q : Type} [Quantity Q] (cs : List Char) : Except JsonFault (Value Q) :=
  (Json.takeWhole cs).mapError (JsonStop.fault cs)

end LeadSheet
