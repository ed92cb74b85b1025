import LeadSheet.Number.Decimal

/-!
# The shortest decimal

A number of limited precision stands for every value that rounds to it.  To
write it down, the decimal with the fewest digits among those values is taken,
and of two such decimals the one nearer to the number itself.

An `Interval` holds the number and the two ends of the values that round to
it, over one denominator.  At a power of ten there are only two decimals to
try, the neighbours of the number on that grid (`Interval.onGrid?`), and
`Interval.shortest` goes from coarse grids to finer ones until one of them
has a hit.
-/

namespace LeadSheet

/-- A positive number `value / denominator` with the ends of the values that
round to it.  The ends themselves do so if `closed` is set. -/
structure Interval where
  value : Nat
  low : Nat
  high : Nat
  denominator : Nat
  closed : Bool

namespace Interval

/-- The interval with every part over a finer denominator. -/
def scale (i : Interval) (n : Nat) : Interval :=
  { i with value := i.value * n, low := i.low * n, high := i.high * n }

/-- The interval seen from a grid of powers of ten: its parts in units of
`10 ^ exponent / denominator`, with the unit as the new denominator. -/
def atExponent (i : Interval) (exponent : Int) : Interval :=
  if exponent < 0 then i.scale (Nat.pow 10 (-exponent).toNat)
  else { i with denominator := i.denominator * Nat.pow 10 exponent.toNat }

def holds (i : Interval) (n : Nat) : Bool :=
  let x := n * i.denominator
  if i.closed then i.low ≤ x && x ≤ i.high else i.low < x && x < i.high

/-- The multiple of the denominator nearest to the number among its two
neighbours, of those that round to it.  A tie goes to the even neighbour. -/
def neighbour? (i : Interval) : Option Nat :=
  let below := i.value / i.denominator
  match i.holds below, i.holds (below + 1) with
  | false, false => none
  | true, false => some below
  | false, true => some (below + 1)
  | true, true =>
    let down := i.value - below * i.denominator
    let up := (below + 1) * i.denominator - i.value
    if down < up then some below
    else if up < down then some (below + 1)
    else if below % 2 = 0 then some below else some (below + 1)

/-- The nearest decimal of a power of ten, if one rounds to the number. -/
def onGrid? (i : Interval) (exponent : Int) : Option Nat :=
  (i.atExponent exponent).neighbour?

/-- The first of `steps` grids, from coarse to fine, that has a decimal. -/
def search (i : Interval) (exponent : Int) : Nat → Decimal
  | 0 => ⟨false, i.value / i.denominator, 0⟩
  | steps + 1 =>
    match i.onGrid? exponent with
    | some n => Decimal.normalize false n exponent
    | none => i.search (exponent - 1) steps

/-- An exponent of ten above that of the number. -/
def coarsest (i : Interval) : Int :=
  let bits : Int := (i.value / i.denominator).log2 - (i.denominator / i.value).log2
  bits * 30103 / 100000 + 2

/-- The decimal with the fewest digits that rounds to the number.  Between the
coarsest grid and one finer than the interval there are at most thirty. -/
def shortest (i : Interval) : Decimal :=
  i.search i.coarsest 30

end Interval

end LeadSheet
