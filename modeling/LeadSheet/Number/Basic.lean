import LeadSheet.Number.Quantity

/-!
# Numbers

Settings and notes are numbers that may be whole or fractional, and a truth
value counts as zero or one.  A sum, a difference or a product of whole
numbers is whole; as soon as one operand is fractional the result is.

`asInt?` is the whole number behind a number that is not fractional.
-/

namespace LeadSheet

/-- A truth value, a whole number or a fractional one. -/
inductive Number (Q : Type) where
  | flag (b : Bool)
  | whole (n : Int)
  | fraction (x : Q)
deriving DecidableEq

namespace Number

variable {Q : Type}

/-- The whole number behind a number that is not fractional. -/
def asInt? : Number Q → Option Int
  | flag b => some (if b then 1 else 0)
  | whole n => some n
  | fraction _ => none

variable [Quantity Q]

def toQuantity : Number Q → Q
  | flag b => Quantity.ofInt (if b then 1 else 0)
  | whole n => Quantity.ofInt n
  | fraction x => x

/-- Applies the operation that fits two numbers. -/
def combine {α : Type} (onWhole : Int → Int → α) (onFraction : Q → Q → α) (a b : Number Q) : α :=
  match a.asInt?, b.asInt? with
  | some m, some n => onWhole m n
  | _, _ => onFraction a.toQuantity b.toQuantity

instance : Add (Number Q) where
  add := combine (fun m n => whole (m + n)) (fun x y => fraction (x + y))

instance : Sub (Number Q) where
  sub := combine (fun m n => whole (m - n)) (fun x y => fraction (x - y))

instance : Mul (Number Q) where
  mul := combine (fun m n => whole (m * n)) (fun x y => fraction (x * y))

def less : Number Q → Number Q → Bool :=
  combine (fun m n => decide (m < n)) Quantity.less

def atMost : Number Q → Number Q → Bool :=
  combine (fun m n => decide (m ≤ n)) Quantity.atMost

def text : Number Q → String
  | flag b => if b then "True" else "False"
  | whole n => toString n
  | fraction x => Quantity.text x

end Number

end LeadSheet
