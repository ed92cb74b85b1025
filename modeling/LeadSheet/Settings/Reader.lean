import LeadSheet.Number.Reader
import LeadSheet.Order
import LeadSheet.Settings.Fault

/-!
# Reading settings

Settings are made from a mapping of names to values (`Settings.ofFields`) or
from other settings with some values replaced (`Settings.merge`).  A name that
is no setting is refused; after that the values are looked at one after the
other (`RawSettings.check`).

A time signature is a text like `3/4` or a list of two numbers.  Its denominator
is a power of two (`isPowerOfTwo`).
-/

namespace LeadSheet

variable {Q : Type} [Quantity Q]

/-- How a number is shown in a message, if it has not too many digits for
that. -/
def written (n : Number Q) : Except SettingsFault String :=
  match n.asInt? with
  | some i => if i.natAbs < Nat.pow 10 maxDigits then .ok n.text else .error .unwritable
  | none => .ok n.text

/-- The number from zero up to a bound that a setting has. -/
def checkRange (x : Setting) (highest : Nat) : Value Q → Except SettingsFault (Number Q)
  | .number n =>
    if (Number.whole 0).atMost n && n.atMost (.whole highest) then .ok n
    else do
      let value ← written n
      .error (.outOfRange x highest value)
  | _ => .error .wrongKind

/-- The length of a beat: a number that is finite and above zero. -/
def checkBeatDuration : Value Q → Except SettingsFault (Number Q)
  | .number n =>
    if Quantity.isFinite n.toQuantity then
      if n.atMost (.whole 0) then .error (.beatDuration n.text) else .ok n
    else
      match n with
      | .fraction _ => .error (.beatDuration n.text)
      | _ => .error .tooLarge
  | _ => .error .wrongKind

def checkVoicing : Value Q → Except SettingsFault Strategy
  | .list _ => .error .wrongKind
  | .mapping _ => .error .wrongKind
  | v =>
    match v with
    | .text s =>
      match Strategy.ofName? s with
      | some strategy => .ok strategy
      | none => .error (.voicing s)
    | .number n => do
      let name ← written n
      .error (.voicing name)
    | _ => .error (.voicing v.shown)

def isPowerOfTwo (n : Nat) : Bool :=
  n &&& (n - 1) = 0

def checkTimeSignature (v : Value Q) : Except SettingsFault (Number Q × Number Q) :=
  match v.items? with
  | none => .error .wrongKind
  | some [.number n, d] =>
    let invalid : Except SettingsFault (Number Q × Number Q) := do
      let numerator ← written n
      let denominator ← match d with
        | .number d => written d
        | d => .ok d.shown
      .error (.timeSignature numerator denominator)
    if n.less (.whole 1) then invalid
    else
      match d with
      | .number d =>
        if d.less (.whole 1) then invalid
        else
          match d.asInt? with
          | none => .error .wrongKind
          | some i => if isPowerOfTwo i.toNat then .ok (n, d) else invalid
      | _ => .error .wrongKind
  | some [_, _] => .error .wrongKind
  | some items => .error (if items.length < 2 then .tooFewParts items.length else .tooManyParts)

def RawSettings.check (r : RawSettings Q) : Except SettingsFault (Settings Q) := do
  let velocity ← checkRange .velocity 127 (r .velocity)
  let bassVelocity ← checkRange .bassVelocity 127 (r .bassVelocity)
  let program ← checkRange .program 127 (r .program)
  let channel ← checkRange .channel 14 (r .channel)
  let beatDuration ← checkBeatDuration (r .beatDuration)
  let voicing ← checkVoicing (r .voicing)
  let (numerator, denominator) ← checkTimeSignature (r .timeSignature)
  pure { velocity, bassVelocity, octave := r .octave, beatDuration, program, channel, voicing,
         numerator, denominator }

/-! ### Time signatures -/

/-- The whole number that the code points of a text say. -/
def wholeOfPoints (ns : List Nat) : Except SettingsFault Int :=
  match (Text.ofPoints? ns).map fun s => readWhole s.toList with
  | some (.number n) => .ok n
  | some (.tooLong digits) => .error (.tooManyDigits digits)
  | _ => .error (.notWhole ns)

/-- The whole number that a value stands for, places behind the point cut
off. -/
def Value.toWhole : Value Q → Except SettingsFault Int
  | .number n =>
    match n.asInt? with
    | some i => .ok i
    | none =>
      match Quantity.toInt truncate n.toQuantity with
      | .ok i => .ok i
      | .error .infinite => .error .tooLarge
      | .error .nan => .error .nan
  | v =>
    match v.points? with
    | some ns => wholeOfPoints ns
    | none => .error .wrongKind

/-- The parts of a time signature written as a text, which a slash divides. -/
def splitSignature (ns : List Nat) : List Nat × List Nat :=
  (ns.takeWhile (· ≠ '/'.toNat), (ns.dropWhile (· ≠ '/'.toNat)).drop 1)

def wholeSignature (v : Value Q) : Except SettingsFault (Value Q) :=
  match v.points? with
  | some ns => do
    let (n, d) := splitSignature ns
    let n ← wholeOfPoints n
    let d ← wholeOfPoints d
    pure (.list [.number (.whole n), .number (.whole d)])
  | none =>
    match v, v.items? with
    | .null, _ => .ok .null
    | _, none => .error .wrongKind
    | _, some items =>
      (items.mapM Value.toWhole).map fun ns => .list (ns.map fun n => .number (.whole n))

/-! ### Mappings -/

def Value.setting? : Value Q → Option Setting
  | .text s => Setting.ofName? s
  | _ => none

def unknownKeys (keys : List (Value Q)) : Option SettingsFault :=
  match keys.filter fun k => k.setting?.isNone with
  | [] => none
  | ks =>
    match ks.mapM Value.points? with
    | some names =>
      some (.unknown ((inOrder (fun a b => decide (a < b)) names).map Text.shownPoints))
    | none => some .wrongKind

def RawSettings.update (r : RawSettings Q) (fields : List (Value Q × Value Q)) : RawSettings Q :=
  fields.foldl (fun r (k, v) => match k.setting? with | some x => r.set x v | none => r) r

/-- The settings of a mapping.  A time signature may be a text. -/
def Settings.ofFields (fields : List (Value Q × Value Q)) : Except SettingsFault (Settings Q) :=
  match unknownKeys (fields.map Prod.fst) with
  | some fault => .error fault
  | none => do
    let r := Settings.standard.raw.update fields
    let signature ← wholeSignature (r .timeSignature)
    (r.set .timeSignature signature).check

/-- Settings with the values of a mapping, apart from those that are null,
replaced. -/
def Settings.merge (s : Settings Q) (fields : List (Value Q × Value Q)) :
    Except SettingsFault (Settings Q) :=
  let fields := fields.filter fun (_, v) => match v with | .null => false | _ => true
  if fields.all fun (k, _) => k.setting?.isSome then (s.raw.update fields).check
  else .error .wrongKind

end LeadSheet
