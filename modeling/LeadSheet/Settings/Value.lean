import LeadSheet.Calendar.Moment
import LeadSheet.Number.Basic
import LeadSheet.Text.Quoted

/-!
# Values

What a settings file can hold: nothing, numbers, dates, texts, lists and
mappings.  A text that was written with escapes may be `torn`: some of its code
points are no characters.

A value is shown as it stands on its own (`Value.shown`) or inside another one,
where texts are quoted (`Value.inner`).
-/

namespace LeadSheet

inductive Value (Q : Type) where
  | null
  | number (n : Number Q)
  | date (d : Date)
  | moment (m : Moment)
  | text (s : String)
  | torn (points : List Nat)
  | list (items : List (Value Q))
  | mapping (fields : List (Value Q × Value Q))
deriving Inhabited

namespace Value

variable {Q : Type}

def kind : Value Q → String
  | null => "NoneType"
  | number (.flag _) => "bool"
  | number (.whole _) => "int"
  | number (.fraction _) => "float"
  | date _ => "date"
  | moment _ => "datetime"
  | text _ => "str"
  | torn _ => "str"
  | list _ => "list"
  | mapping _ => "dict"

def ofPoints (ns : List Nat) : Value Q :=
  match Text.ofPoints? ns with
  | some s => text s
  | none => torn ns

def points? : Value Q → Option (List Nat)
  | text s => some (Text.points s)
  | torn ns => some ns
  | _ => none

/-- The values that a value is made of: its items, its keys or its
characters. -/
def items? : Value Q → Option (List (Value Q))
  | list items => some items
  | mapping fields => some (fields.map Prod.fst)
  | v => v.points?.map fun ns => ns.map fun n => ofPoints [n]

variable [Quantity Q]

mutual

def inner : Value Q → String
  | null => "None"
  | number n => n.text
  | date d => d.inner
  | moment m => m.inner
  | text s => Text.quoted s
  | torn ns => Text.quotedPoints ns
  | list items => "[" ++ String.intercalate ", " (innerItems items) ++ "]"
  | mapping fields => "\x7b" ++ String.intercalate ", " (innerFields fields) ++ "\x7d"

def innerItems : List (Value Q) → List String
  | [] => []
  | v :: vs => v.inner :: innerItems vs

def innerFields : List (Value Q × Value Q) → List String
  | [] => []
  | (k, v) :: fields => (k.inner ++ ": " ++ v.inner) :: innerFields fields

end

/-- Whether two values are the same key of a mapping. -/
def sameKey : Value Q → Value Q → Bool
  | null, null => true
  | text s, text t => s = t
  | torn ns, torn ms => ns = ms
  | date d, date e => d = e
  | moment a, moment b => a.same b
  | number m, number n => m.atMost n && n.atMost m
  | _, _ => false

/-- The fields of a mapping with one more, which takes the place of one with
its key. -/
def setField (key v : Value Q) : List (Value Q × Value Q) → List (Value Q × Value Q)
  | [] => [(key, v)]
  | (k, w) :: fields => if sameKey k key then (k, v) :: fields else (k, w) :: setField key v fields

def shown : Value Q → String
  | text s => s
  | torn ns => Text.shownPoints ns
  | date d => d.text
  | moment m => m.text
  | v => v.inner

end Value

end LeadSheet
