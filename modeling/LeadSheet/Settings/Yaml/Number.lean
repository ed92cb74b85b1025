import LeadSheet.Number.Quantity
import LeadSheet.Number.Reader
import LeadSheet.Settings.Yaml.Token

/-!
# Numbers of YAML

Whole numbers are written in base ten, two, eight, sixteen or sixty, fractional
ones with a point in base ten or sixty.  Underscores may stand between digits.
-/

namespace LeadSheet.Yaml

variable {Q : Type} [Quantity Q]

/-! ### Whole numbers -/

def digit? (c : Char) : Option Nat :=
  if '0' ≤ c ∧ c ≤ '9' then some (c.toNat - '0'.toNat)
  else if 'a' ≤ c ∧ c ≤ 'f' then some (c.toNat - 'a'.toNat + 10)
  else if 'A' ≤ c ∧ c ≤ 'F' then some (c.toNat - 'A'.toNat + 10)
  else none

/-- Whether a character is a digit of a base or an underscore. -/
def isDigitOf (base : Nat) (c : Char) : Bool :=
  c = '_' || (digit? c).any (· < base)

def ofBase (base : Nat) (cs : List Char) : Nat :=
  (cs.filterMap digit?).foldl (fun n d => n * base + d) 0

def parts (cs : List Char) : List (List Char) :=
  cs.splitOn ':'

/-- Whether a part is at most two digits worth less than sixty. -/
def isSixtieth : List Char → Bool
  | [c] => isDigitOf 10 c && c ≠ '_'
  | [c, d] => isDigitOf 6 c && c ≠ '_' && isDigitOf 10 d && d ≠ '_'
  | _ => false

/-- Whether a text is a digit and then digits and underscores, the first of them
not a zero if `positive` is set. -/
def isGrouped (positive : Bool) : List Char → Bool
  | [] => false
  | c :: cs => isDigitOf 10 c && c ≠ '_' && !(positive && c = '0') && cs.all (isDigitOf 10)

/-- The number of digits of base ten, if they are not too many. -/
def decimalWhole (cs : List Char) : Except Fault Nat :=
  let digits := cs.filter (· ≠ '_')
  if maxDigits < digits.length then .error (.tooManyDigits digits.length)
  else .ok (ofBase 10 digits)

def markedWhole (base : Nat) (cs : List Char) : Except Fault Nat :=
  if cs.all (· = '_') then .error (.noDigits base) else .ok (ofBase base cs)

def wholePart? (cs : List Char) : Option (Except Fault Nat) :=
  match cs with
  | ['0'] => some (.ok 0)
  | '0' :: 'b' :: ds =>
    if !ds.isEmpty && ds.all (isDigitOf 2) then some (markedWhole 2 ds) else none
  | '0' :: 'x' :: ds =>
    if !ds.isEmpty && ds.all (isDigitOf 16) then some (markedWhole 16 ds) else none
  | '0' :: ds => if ds.all (isDigitOf 8) then some (.ok (ofBase 8 ds)) else none
  | _ =>
    if isGrouped true cs then some (decimalWhole cs)
    else
      match parts cs with
      | first :: rest =>
        if isGrouped true first && !rest.isEmpty && rest.all isSixtieth then
          some do
            let n ← decimalWhole first
            pure (rest.foldl (fun n part => n * 60 + ofBase 10 part) n)
        else none
      | [] => none

/-! ### Fractional numbers -/

/-- The sign a text starts with, if there is one, and the rest. -/
def takeSign : List Char → Bool × List Char
  | '-' :: cs => (true, cs)
  | '+' :: cs => (false, cs)
  | cs => (false, cs)

/-- Whether a text is an exponent with its sign, or nothing. -/
def isExponent : List Char → Bool
  | [] => true
  | e :: s :: ds =>
    (e = 'e' || e = 'E') && (s = '+' || s = '-') && !ds.isEmpty
      && ds.all fun c => isDigitOf 10 c && c ≠ '_'
  | _ => false

/-- Whether a text is a decimal with a point, `signed` if a sign stands before
it. -/
def isDecimal (signed : Bool) (cs : List Char) : Bool :=
  let whole := cs.takeWhile (isDigitOf 10)
  match cs.drop whole.length with
  | '.' :: rest =>
    let places := rest.takeWhile (isDigitOf 10)
    isExponent (rest.drop places.length)
      && (if whole.isEmpty then !signed && isGrouped false places else isGrouped false whole)
  | _ => false

def decimal (negative : Bool) (cs : List Char) : Q :=
  let digits := cs.filter (· ≠ '_')
  match readLiteral (if negative then '-' :: digits else digits) with
  | some l => Quantity.ofLiteral l
  | none => Quantity.ofInt 0

/-- The sum of parts, the last one first and each worth sixty times the one
before.  Something is wrong if a part is worth more than any quantity. -/
def sumSixtieths (worth : Int) (sum : Q) : List (List Char) → Except Fault Q
  | [] => .ok sum
  | part :: parts =>
    if Quantity.isFinite (Quantity.ofInt worth : Q) then
      sumSixtieths (worth * 60) (sum + decimal false part * Quantity.ofInt worth) parts
    else .error .tooLarge

/-- Reads a number in base sixty with a point in its last part. -/
def sixtieths? (negative : Bool) (cs : List Char) : Option (Except Fault Q) :=
  let ps := parts cs
  match ps.head?, ps.getLast? with
  | some first, some last =>
    let middle := (ps.drop 1).dropLast
    let whole := last.takeWhile (· ≠ '.')
    let places := (last.dropWhile (· ≠ '.')).drop 1
    if 1 < ps.length && isGrouped false first && middle.all isSixtieth && isSixtieth whole
        && '.' ∈ last && places.all (isDigitOf 10) then
      some ((sumSixtieths 1 (Quantity.ofInt 0) ps.reverse).map fun sum =>
        Quantity.ofInt (if negative then -1 else 1) * sum)
    else none
  | _, _ => none

def fraction? (cs : List Char) : Option (Except Fault Q) :=
  let (negative, body) := takeSign cs
  let signed := body.length < cs.length
  let text := String.ofList body
  if isDecimal signed body then some (.ok (decimal negative body))
  else if [".inf", ".Inf", ".INF"].contains text then
    some (.ok (Quantity.ofLiteral (.infinite negative)))
  else if !signed && [".nan", ".NaN", ".NAN"].contains text then
    some (.ok (Quantity.ofLiteral .nan))
  else sixtieths? negative body

def whole? (cs : List Char) : Option (Except Fault Int) :=
  let (negative, body) := takeSign cs
  (wholePart? body).map fun n => n.map fun n => if negative then -(n : Int) else n

end LeadSheet.Yaml
