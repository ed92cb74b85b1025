import LeadSheet.Command.Work
import LeadSheet.Number.Binary

/-!
# Running the program

`Host.run` tells what the arguments ask for, reads the files they name, does the work,
and writes what comes of it.  An outcome is a status with what was shown and told; a
failure about which nothing is said ends the program at once.

Arguments that ask for nothing the program does, and files that cannot be
read, end with the status 2; a failure of the work ends with the status 1.  A
text that is no path at all ends the program at once, whatever else is wrong.
-/

namespace LeadSheet

inductive Ending where
  | exit (status : Nat)
  | crash (failure : Failure)
deriving DecidableEq

/-- How the program ends, what it shows and what it tells. -/
structure Outcome where
  ending : Ending
  shown : String := ""
  told : String := ""
deriving DecidableEq

def usage : String :=
  "Usage: " ++ programName ++ " [-v] (degree|pitch|midi) INPUT [-k KEY] [--format auto|text|sexp]"
    ++ " [-o PATH]\n"
    ++ "  midi: [--bpm N] [--config FILE] [--voicing close|nearest] [--octave N]\n"

namespace Outcome

/-- The arguments ask for nothing the program does. -/
def misused : Outcome :=
  { ending := .exit 2, told := usage }

def done (verbose : Bool) (notes : List Note) (shown : String) : Outcome :=
  { ending := .exit 0, shown, told := Note.lines verbose notes }

def failed (verbose : Bool) (notes : List Note) (failure : Failure) : Outcome :=
  match failure.message? with
  | some message =>
    { ending := .exit 1, told := Note.lines verbose (notes ++ [.said ("ERROR: " ++ message)]) }
  | none => { ending := .crash failure, told := Note.lines verbose notes }

def unread (path : String) (fault : HostFault) : Outcome :=
  match fault with
  | .notPath => failed false [] (.sourceFile path fault)
  | _ => misused

end Outcome

variable {m : Type → Type} [Monad m]

def Host.readInput (host : Host m) (input : String) : m (Except HostFault (List UInt8)) := do
  if input = "-" then
    let bytes ← host.input
    pure (.ok bytes)
  else host.readFile input

def Host.withFile (host : Host m) (path : String) (go : List UInt8 → m Outcome) : m Outcome := do
  match ← host.readFile path with
  | .error fault => pure (.unread path fault)
  | .ok bytes => go bytes

/-- Goes on with the files of a command, the settings first. -/
def Host.withSources (host : Host m) (c : Command) (go : Sources → m Outcome) : m Outcome := do
  let goOn (config : Option (List UInt8)) : m Outcome := do
    match ← host.readInput c.options.input with
    | .error fault => pure (.unread c.options.input fault)
    | .ok score => go { score, config }
  match c.config with
  | none => goOn none
  | some path => host.withFile path fun config => goOn (some config)

/-- Opens files one after the other, to no end. -/
def Host.tryFiles (host : Host m) : List String → m Outcome
  | [] => pure .misused
  | path :: paths => host.withFile path fun _ => host.tryFiles paths

/-- Puts what a command made where it goes. -/
def Host.deliver (host : Host m) (verbose : Bool) (notes : List Note) : Product → m Outcome
  | .text none s => pure (.done verbose notes s)
  | .text (some path) s => do
    match ← host.writeFile path (Text.encode s) with
    | .ok () => pure (.done verbose notes "")
    | .error fault => pure (.failed verbose notes (.textFile path fault))
  | .sound path bytes => do
    match ← host.writeFile path bytes with
    | .ok () => pure (.done verbose (notes ++ [.said ("Wrote '" ++ path ++ "'.")]) "")
    | .error fault => pure (.failed verbose notes (.soundFile path fault))

def Host.carryOut (host : Host m) (tools : Toolkit Float) (verbose : Bool) (c : Command) :
    m Outcome :=
  host.withSources c fun sources =>
    let w := c.work tools sources
    match w.result with
    | .ok product => host.deliver verbose w.notes product
    | .error failure => pure (.failed verbose w.notes failure)

def Host.runWith (host : Host m) (tools : Toolkit Float) (args : List String) : m Outcome :=
  match tools.readArguments args with
  | .usage opened => host.tryFiles opened
  | .help => pure { ending := .exit 0, shown := usage }
  | .version =>
    pure { ending := .exit 0, shown := programName ++ ", version " ++ programVersion ++ "\n" }
  | .command verbose c => host.carryOut tools verbose c

def Host.run (host : Host m) (args : List String) : m Outcome :=
  host.runWith .standard args

end LeadSheet
