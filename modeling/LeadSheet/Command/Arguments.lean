import LeadSheet.Command.Options
import LeadSheet.Number.Reader
import LeadSheet.Text.Utf8
import LeadSheet.Voicing.Basic

/-!
# The command line

The program writes a score out with degrees or with pitches, or turns it into
sound.  `readArguments` tells which of these the arguments ask for; arguments
that ask for nothing the program does are a wrong `usage`.  The options are
looked at in the order they were given in, the files they name included, and
the input behind them; so some files are opened before it is clear that the
arguments are wrong (`openedFirst`).

Names of choices are read in any case, and whole numbers like everywhere
else.
-/

namespace LeadSheet

/-- The notations a score can be written in. -/
inductive InputFormat where
  /-- Whatever the name of the file says. -/
  | auto
  | text
  | datum
deriving DecidableEq

/-- What every command needs to know. -/
structure ScoreOptions where
  input : String
  tonic : Option String := none
  format : InputFormat := .auto
  output : Option String := none

/-- What is needed to turn a score into sound. -/
structure SoundOptions where
  tempo : Int := 180
  config : Option String := none
  voicing : Option Strategy := none
  octave : Option Int := none

/-- What the program is asked to do with a score. -/
inductive Command where
  | degrees (o : ScoreOptions)
  | pitches (o : ScoreOptions)
  | sound (o : ScoreOptions) (s : SoundOptions)

def Command.options : Command → ScoreOptions
  | degrees o => o
  | pitches o => o
  | sound o _ => o

def Command.config : Command → Option String
  | sound _ s => s.config
  | _ => none

/-- What the program is asked to do. -/
inductive Request where
  /-- Nothing that it does; some files are opened before that is noticed. -/
  | usage (opened : List String := [])
  | help
  | version
  | command (verbose : Bool) (c : Command)

/-! ### Choices -/

/-- A character in the form in which case does not matter. -/
def foldChar (c : Char) : List Char :=
  if c = 'ſ' then ['s']
  else if c = Char.ofNat 0xFB05 ∨ c = Char.ofNat 0xFB06 then ['s', 't']
  else [c.toLower]

def foldCase (s : String) : String :=
  String.ofList (s.toList.flatMap foldChar)

def readChoice {α : Type} (choices : List (String × α)) (s : String) : Option α :=
  choices.lookup (foldCase s)

def formatChoices : List (String × InputFormat) :=
  [("auto", .auto), ("text", .text), ("sexp", .datum)]

def voicingChoices : List (String × Strategy) :=
  Strategy.all.map fun s => (s.name, s)

def readInRange (low high : Int) (s : String) : Option Int :=
  match readWhole s.toList with
  | .number n => if low ≤ n ∧ n ≤ high then some n else none
  | _ => none

def readOptional {α : Type} (read : String → Option α) : Option String → Option (Option α)
  | none => some none
  | some s => (read s).map some

/-! ### Commands -/

inductive CommandOption where
  | help
  | tonic
  | format
  | output
  | tempo
  | config
  | voicing
  | octave
deriving DecidableEq

def scoreSpecs : List (OptionSpec CommandOption) :=
  [⟨.help, "help", some 'h', false⟩, ⟨.tonic, "tonic", some 'k', true⟩,
   ⟨.format, "format", none, true⟩, ⟨.output, "output", some 'o', true⟩]

def soundSpecs : List (OptionSpec CommandOption) :=
  scoreSpecs ++ [⟨.tempo, "bpm", none, true⟩, ⟨.config, "config", none, true⟩,
    ⟨.voicing, "voicing", none, true⟩, ⟨.octave, "octave", none, true⟩]

def readScoreOptions (given : List (GivenOption CommandOption)) (rest : List String) :
    Option ScoreOptions :=
  match rest with
  | [input] => do
    let format ← readOptional (readChoice formatChoices) (lastValue? .format given)
    pure { input, tonic := lastValue? .tonic given, format := format.getD .auto,
           output := lastValue? .output given }
  | _ => none

def readSoundOptions (given : List (GivenOption CommandOption)) : Option SoundOptions := do
  let tempo ← readOptional (readInRange 1 1000) (lastValue? .tempo given)
  let voicing ← readOptional (readChoice voicingChoices) (lastValue? .voicing given)
  let octave ← readOptional (readInRange 0 8) (lastValue? .octave given)
  pure { tempo := tempo.getD 180, config := lastValue? .config given, voicing, octave }

/-- Whether a command takes the value of an option.  The file that one names is
not looked at. -/
def CommandOption.accepts (o : CommandOption) (value : String) : Bool :=
  match o with
  | format => (readChoice formatChoices value).isSome
  | tempo => (readInRange 1 1000 value).isSome
  | voicing => (readChoice voicingChoices value).isSome
  | octave => (readInRange 0 8 value).isSome
  | _ => true

/-- The files that are opened before wrong arguments are noticed: one that an
option names in front of the first wrong option, and the input if no option is
wrong. -/
def openedFirst (given : List (GivenOption CommandOption)) (rest : List String) : List String :=
  let keys := (given.map Prod.fst).eraseDups
  let fine := keys.takeWhile fun o => (lastValue? o given).all o.accepts
  let config := if .config ∈ fine then (lastValue? .config given).toList else []
  let input := if fine = keys then (rest.head?.filter (· ≠ "-")).toList else []
  config ++ input

/-- Reads the arguments of a command, given how its options are written and
what they mean for it. -/
def readCommand (specs : List (OptionSpec CommandOption)) (verbose : Bool)
    (make : List (GivenOption CommandOption) → ScoreOptions → Option Command)
    (args : List String) : Request :=
  match readOptions specs true args with
  | none => .usage
  | some (given, rest) =>
    if given.any fun g => g.1 = .help then .help
    else
      match (readScoreOptions given rest).bind (make given) with
      | some c => .command verbose c
      | none => .usage (openedFirst given rest)

/-! ### The whole -/

inductive ProgramOption where
  | help
  | version
  | verbose
deriving DecidableEq

def programSpecs : List (OptionSpec ProgramOption) :=
  [⟨.help, "help", some 'h', false⟩, ⟨.version, "version", none, false⟩,
   ⟨.verbose, "verbose", some 'v', false⟩]

/-- What the options in front of the command ask for, if they ask for anything
themselves. -/
def readProgramOptions (given : List (GivenOption ProgramOption)) : Option Request :=
  (given.filter fun g => g.1 ≠ .verbose).head?.map fun g =>
    match g.1 with
    | .version => .version
    | _ => .help

/-- What arguments ask for that start with no command: an option behind the
dashes that end the options is still one if it asks for something itself. -/
def readLateOptions (args : List String) : Request :=
  match readOptions programSpecs false args with
  | none => .usage
  | some (given, _) => (readProgramOptions given).getD .usage

/-- What the arguments of the program ask for. -/
def readArguments (args : List String) : Request :=
  match readOptions programSpecs false args with
  | none => .usage
  | some (given, rest) =>
    let verbose := given.any fun g => g.1 = .verbose
    match readProgramOptions given, rest with
    | some request, _ => request
    | none, "degree" :: args => readCommand scoreSpecs verbose (fun _ o => some (.degrees o)) args
    | none, "pitch" :: args => readCommand scoreSpecs verbose (fun _ o => some (.pitches o)) args
    | none, "midi" :: args =>
      readCommand soundSpecs verbose
        (fun given o => (readSoundOptions given).map (.sound o)) args
    | none, args => readLateOptions args

end LeadSheet
