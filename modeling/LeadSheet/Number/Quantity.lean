import LeadSheet.Number.Layout

/-!
# Quantities

Time is measured in beats, and a beat count need not be whole.  Everything
that computes with beats does so over a `Quantity`: a type with the four
operations, two comparisons, a way to read a literal and a way to write one.
The library runs with binary floating point (`Binary`) and is reasoned
about with exact rationals as well.

`Quantity.toRat?` is the bridge to whole numbers.  A value that has an exact
rational behind it can be rounded, by cutting off what is behind the point
(`truncate`) or to the nearest whole number, with a half going to the even
neighbour (`nearest`); one that has none is infinite or no number at all
(`NotFinite`).

With the rationals as a quantity type every operation is exact, there are no
infinities, and a decimal literal is read as just what it says.  A rational
whose denominator divides a power of ten is written in full; any other is cut
off behind as many places as its denominator has bits.
-/

namespace LeadSheet

/-! ### Rounding -/

/-- The whole number left when the places behind the point are cut off. -/
def truncate (x : Rat) : Int :=
  x.num.tdiv x.den

/-- The whole number nearest to `num / den`, a half going to the even one. -/
def nearestQuotient (num : Int) (den : Nat) : Int :=
  let q := num / den
  let r := num % den
  if 2 * r < den then q
  else if den < 2 * r then q + 1
  else if q % 2 = 0 then q else q + 1

/-- The whole number nearest to a value, a half going to the even one. -/
def nearest (x : Rat) : Int :=
  nearestQuotient x.num x.den

/-! ### Quantities -/

/-- A type of numbers in which time can be measured. -/
class Quantity (Q : Type) extends Add Q, Sub Q, Mul Q, Div Q where
  /-- The value nearest to a whole number. -/
  ofInt : Int → Q
  /-- The value nearest to what a literal says. -/
  ofLiteral : Literal → Q
  /-- The shortest literal that stands for a value. -/
  toLiteral : Q → Literal
  /-- The exact value, if there is one. -/
  toRat? : Q → Option Rat
  /-- Whether one value is below another. -/
  less : Q → Q → Bool
  /-- Whether one value is below another or equal to it. -/
  atMost : Q → Q → Bool

/-- Why a value has no whole number near it. -/
inductive NotFinite where
  | infinite
  | nan
deriving DecidableEq

namespace Quantity

variable {Q : Type} [Quantity Q]

/-- The whole number that `round` makes of a value. -/
def toInt (round : Rat → Int) (x : Q) : Except NotFinite Int :=
  match toRat? x with
  | some r => .ok (round r)
  | none =>
    match toLiteral x with
    | .infinite _ => .error .infinite
    | _ => .error .nan

def isFinite (x : Q) : Bool :=
  (toRat? x).isSome

def text (x : Q) : String :=
  (toLiteral x).text

/-- A value with two places behind the point. -/
def fixedText (x : Q) : String :=
  match toRat? x with
  | none => text x
  | some r =>
    String.ofList
      (Decimal.signChars (decide (r < 0))
        ++ Decimal.pointed (digitChars (nearest (r.abs * 100)).toNat) 2)

theorem toInt_of_exact {round : Rat → Int} {x : Q} {r : Rat} (h : toRat? x = some r) :
    toInt round x = .ok (round r) := by
  simp [toInt, h]

end Quantity

end LeadSheet

namespace LeadSheet.Exact

/-! ### Exact quantities -/

/-- The number of places a rational is written with. -/
def places (x : Rat) : Nat :=
  ((List.range (x.den.log2 + 1)).find? fun k => Nat.pow 10 k % x.den = 0).getD x.den.log2

def toDecimal (x : Rat) : Decimal :=
  Decimal.normalize (decide (x < 0)) (x.num.natAbs * Nat.pow 10 (places x) / x.den)
    (-(places x : Int))

/-- The rational that a literal says; values no decimal reaches are read as
zero. -/
def ofLiteral : Literal → Rat
  | .finite d => d.toRat
  | _ => 0

instance : Quantity Rat where
  ofInt n := n
  ofLiteral := ofLiteral
  toLiteral x := .finite (toDecimal x)
  toRat? := some
  less x y := decide (x < y)
  atMost x y := decide (x ≤ y)

end LeadSheet.Exact
