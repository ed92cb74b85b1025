/-!
# Reading options

Options as they are given on a command line: `--name value`, `--name=value`,
`-x value`, `-xvalue`, and flags, of which several may share a dash.  Two dashes
on their own end the options.  An option takes the argument behind it whatever
that looks like.

`readOptions` sorts the options from the other arguments.  Either they may be
mixed, or the first other argument ends the options.
-/

namespace LeadSheet

/-- An option and how it is written. -/
structure OptionSpec (κ : Type) where
  key : κ
  long : String
  short : Option Char := none
  takesValue : Bool := true

abbrev GivenOption (κ : Type) := κ × Option String

/-- What one argument says: options, and one that takes the next argument as
its value. -/
structure OptionArgument (κ : Type) where
  given : List (GivenOption κ) := []
  waiting : Option κ := none

variable {κ : Type} (specs : List (OptionSpec κ))

def readShort : List Char → Option (OptionArgument κ)
  | [] => some {}
  | c :: cs => do
    let spec ← specs.find? fun s => s.short == some c
    if spec.takesValue then
      if cs.isEmpty then pure { waiting := some spec.key }
      else pure { given := [(spec.key, some (String.ofList cs))] }
    else do
      let rest ← readShort cs
      pure { rest with given := (spec.key, none) :: rest.given }

def readLong (cs : List Char) : Option (OptionArgument κ) := do
  let name := String.ofList (cs.takeWhile (· ≠ '='))
  let spec ← specs.find? fun s => s.long == name
  match cs.dropWhile (· ≠ '='), spec.takesValue with
  | [], true => pure { waiting := some spec.key }
  | [], false => pure { given := [(spec.key, none)] }
  | _ :: value, true => pure { given := [(spec.key, some (String.ofList value))] }
  | _ :: _, false => none

/-- What an argument is where options may stand. -/
inductive ArgumentKind (κ : Type) where
  /-- The end of the options. -/
  | stop
  | options (o : OptionArgument κ)
  | unknownOption
  | other

def argumentKind (arg : String) : ArgumentKind κ :=
  let ofRead : Option (OptionArgument κ) → ArgumentKind κ
    | some o => .options o
    | none => .unknownOption
  match arg.toList with
  | ['-', '-'] => .stop
  | '-' :: '-' :: cs => ofRead (readLong specs cs)
  | '-' :: c :: cs => ofRead (readShort specs (c :: cs))
  | _ => .other

/-- Reads the options among some arguments; `mixed` allows them behind other
arguments.  Without a result an option is unknown, lacks its value or has one
that it does not take. -/
def readOptions (mixed : Bool) : List String → Option (List (GivenOption κ) × List String)
  | [] => some ([], [])
  | arg :: args =>
    match argumentKind specs arg with
    | .stop => some ([], args)
    | .unknownOption => none
    | .other =>
      if mixed then do
        let (given, rest) ← readOptions mixed args
        pure (given, arg :: rest)
      else some ([], arg :: args)
    | .options ⟨given, none⟩ => do
      let (more, rest) ← readOptions mixed args
      pure (given ++ more, rest)
    | .options ⟨given, some key⟩ =>
      match args with
      | [] => none
      | value :: args => do
        let (more, rest) ← readOptions mixed args
        pure (given ++ (key, some value) :: more, rest)

/-- The value of an option that was given last. -/
def lastValue? [DecidableEq κ] (key : κ) (given : List (GivenOption κ)) : Option String :=
  (given.reverse.find? fun g => g.1 = key).bind Prod.snd

end LeadSheet
