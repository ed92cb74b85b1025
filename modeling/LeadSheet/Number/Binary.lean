import LeadSheet.Number.Quantity
import LeadSheet.Number.Shortest

/-!
# Binary quantities

Double precision as a quantity type.  A double is a sign, a whole mantissa
below 2⁵³ and a power of two (`Parts`), and both directions of its decimal
form go through these parts in exact arithmetic:

* `ofRatio` is the double nearest to a quotient of whole numbers, a half going
  to the even mantissa, and `ofLiteral` reads a literal with it;
* `interval` holds the values that a double stands for, and `toLiteral` is the
  shortest decimal among them.
-/

namespace LeadSheet.Binary

/-- What the bits of a double say. -/
inductive Parts where
  | finite (negative : Bool) (mantissa : Nat) (exponent : Int)
  | infinite (negative : Bool)
  | nan

/-- The least power of two of a double. -/
def minExponent : Int := -1074

def parts (x : Float) : Parts :=
  let bits : Nat := x.toBits.toNat
  let negative := bits / Nat.pow 2 63 % 2 == 1
  let field : Nat := bits / Nat.pow 2 52 % Nat.pow 2 11
  let fraction : Nat := bits % Nat.pow 2 52
  if field = 2047 then if fraction = 0 then .infinite negative else .nan
  else if field = 0 then .finite negative fraction minExponent
  else .finite negative (fraction + Nat.pow 2 52) ((field : Int) - 1075)

/-- The double with the given sign and the other bits. -/
def ofBits (negative : Bool) (bits : Nat) : Float :=
  Float.ofBits (UInt64.ofNat (bits + if negative then Nat.pow 2 63 else 0))

def infinityBits : Nat := 2047 * Nat.pow 2 52

/-- The quotient `num / den` in units of a power of two, to the nearest. -/
def inUnits (num den : Nat) (exponent : Int) : Nat :=
  if exponent < 0 then (nearestQuotient (num * Nat.pow 2 (-exponent).toNat : Nat) den).toNat
  else (nearestQuotient num (den * Nat.pow 2 exponent.toNat)).toNat

/-- The exponent of the greatest power of two that is at most `num / den`. -/
def floorLog (num den : Nat) : Int :=
  let guess : Int := (num.log2 : Int) - den.log2
  let reaches :=
    if guess < 0 then den ≤ num * Nat.pow 2 (-guess).toNat else den * Nat.pow 2 guess.toNat ≤ num
  if reaches then guess else guess - 1

/-- The bits, sign apart, of the double nearest to `num / den`. -/
def ratioBits (num den : Nat) : Nat :=
  if num = 0 then 0
  else
    let exponent := max (floorLog num den - 52) minExponent
    let mantissa := inUnits num den exponent
    let bits :=
      if mantissa < Nat.pow 2 52 then mantissa
      else (exponent + 1075).toNat * Nat.pow 2 52 + (mantissa - Nat.pow 2 52)
    min bits infinityBits

/-- The double nearest to `num / den`, with a sign. -/
def ofRatio (negative : Bool) (num den : Nat) : Float :=
  ofBits negative (ratioBits num den)

/-- The double nearest to a decimal.  A decimal beyond 10⁴⁰⁰ is infinite and
one below 10⁻⁴⁰⁰ is zero, so no larger power of ten is ever formed. -/
def ofDecimal (d : Decimal) : Float :=
  let size := d.coefficient.log2 * 30103 / 100000 + 1
  if d.coefficient = 0 ∨ size + d.exponent < -400 then ofBits d.negative 0
  else if 400 < d.exponent then ofBits d.negative infinityBits
  else if d.exponent < 0 then ofRatio d.negative d.coefficient (Nat.pow 10 (-d.exponent).toNat)
  else ofRatio d.negative (d.coefficient * Nat.pow 10 d.exponent.toNat) 1

/-- The double nearest to what a literal says. -/
def ofLiteral : Literal → Float
  | .finite d => ofDecimal d
  | .infinite negative => ofBits negative infinityBits
  | .nan => ofBits false (infinityBits + Nat.pow 2 51)

def ofInt (n : Int) : Float :=
  ofRatio (decide (n < 0)) n.natAbs 1

/-- The values that a positive double stands for.  Neighbours are two units of
a quarter away on either side, except below the least mantissa, where they are
one such unit away. -/
def interval (mantissa : Nat) (exponent : Int) : Interval :=
  let low :=
    if mantissa = Nat.pow 2 52 ∧ minExponent < exponent then 4 * mantissa - 1
    else 4 * mantissa - 2
  let closed := mantissa % 2 == 0
  let base : Interval := ⟨4 * mantissa, low, 4 * mantissa + 2, 1, closed⟩
  if exponent < 2 then { base with denominator := Nat.pow 2 (2 - exponent).toNat }
  else base.scale (Nat.pow 2 (exponent - 2).toNat)

/-- The shortest literal that stands for a double. -/
def toLiteral (x : Float) : Literal :=
  match parts x with
  | .nan => .nan
  | .infinite negative => .infinite negative
  | .finite negative mantissa exponent =>
    if mantissa = 0 then .finite ⟨negative, 0, 0⟩
    else .finite { (interval mantissa exponent).shortest with negative := negative }

def toRat? (x : Float) : Option Rat :=
  match parts x with
  | .finite negative mantissa exponent =>
    some ((if negative then -1 else 1) * mantissa * (2 : Rat) ^ exponent)
  | _ => none

instance : Quantity Float where
  ofInt := ofInt
  ofLiteral := ofLiteral
  toLiteral := toLiteral
  toRat? := toRat?
  less x y := decide (x < y)
  atMost x y := decide (x ≤ y)

end LeadSheet.Binary
