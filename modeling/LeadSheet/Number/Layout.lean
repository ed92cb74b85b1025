import LeadSheet.Number.Decimal

/-!
# Layouts of decimals

Two ways to write a decimal.

* `Decimal.natural` is how a number is shown: with a point and at least one
  place behind it while the first digit stands between four places behind the
  point and sixteen in front of it, and with an exponent of at least two
  digits otherwise.
* `Decimal.positional` never uses an exponent and adds nothing to the digits.
-/

namespace LeadSheet

def zeroChars (n : Nat) : List Char :=
  List.replicate n '0'

namespace Decimal

def signChars (negative : Bool) : List Char :=
  if negative then ['-'] else []

/-- The digits with a point so that `places` of them stand behind it, zeros
added in front where the digits do not reach. -/
def pointed (ds : List Char) (places : Nat) : List Char :=
  if places < ds.length then
    ds.take (ds.length - places) ++ '.' :: ds.drop (ds.length - places)
  else '0' :: '.' :: zeroChars (places - ds.length) ++ ds

/-- The unsigned positional form: no exponent, and a point only if there are
places behind it. -/
def positionalChars (coefficient : Nat) (exponent : Int) : List Char :=
  if exponent < 0 then pointed (digitChars coefficient) (-exponent).toNat
  else digitChars coefficient ++ zeroChars exponent.toNat

def positional (d : Decimal) : String :=
  String.ofList (signChars d.negative ++ positionalChars d.coefficient d.exponent)

/-- The unsigned form with an exponent: one digit in front of the point, and a
point only if more digits follow. -/
def scientificChars (ds : List Char) (exponent : Int) : List Char :=
  let e := digitChars exponent.natAbs
  ds.take 1 ++ (if ds.length = 1 then [] else '.' :: ds.drop 1)
    ++ 'e' :: (if exponent < 0 then '-' else '+')
    :: zeroChars (2 - e.length) ++ e

/-- The natural form of a decimal whose coefficient does not end in a zero. -/
def naturalChars (coefficient : Nat) (exponent : Int) : List Char :=
  let ds := digitChars coefficient
  let first := ds.length + exponent
  if coefficient = 0 then ['0', '.', '0']
  else if first < -3 ∨ 16 < first then scientificChars ds (first - 1)
  else if exponent < 0 then positionalChars coefficient exponent
  else positionalChars coefficient exponent ++ ['.', '0']

def natural (d : Decimal) : String :=
  String.ofList (signChars d.negative ++ naturalChars d.coefficient d.exponent)

end Decimal

def Literal.text : Literal → String
  | .finite d => d.natural
  | .infinite negative => if negative then "-inf" else "inf"
  | .nan => "nan"

end LeadSheet
