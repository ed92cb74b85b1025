import LeadSheet.Command.Arguments
import LeadSheet.Command.Disk
import LeadSheet.Command.Journal
import LeadSheet.Midi.File
import LeadSheet.Quality.Standard
import LeadSheet.Score.Conversion
import LeadSheet.Score.Printer
import LeadSheet.Settings.File

/-!
# The work of a command

What a command makes of the files it was given: a text or a sound, and where
that goes.  The world is not needed for it, only the tools that the program does
not have itself (`Toolkit`).  A `Work` is such a piece of work:
what was noted on the way, and its result or why there is none.  What follows
a failure is neither done nor noted (`andThen_of_error`), and pieces of work are
put together as a lawful monad.
-/

namespace LeadSheet

inductive Failure where
  /-- The score is no text. -/
  | encoding (fault : Text.Utf8Fault)
  | reading (fault : ReadFault)
  | playing (fault : PlayFault)
  | settings (path : String) (fault : FileFault)
  | sourceFile (path : String) (fault : HostFault)
  | textFile (path : String) (fault : HostFault)
  | soundFile (path : String) (fault : HostFault)
deriving DecidableEq

def Failure.message? : Failure → Option String
  | encoding _ => none
  | reading fault => fault.message?
  | playing fault => fault.message?
  | settings path fault => (fault.message? path).map ("Could not load settings: " ++ ·)
  | sourceFile path fault => fault.message? path
  | textFile path fault => (fault.message? path).map ("Could not write output file: " ++ ·)
  | soundFile path fault => (fault.message? path).map ("Could not write MIDI file: " ++ ·)

/-! ### Pieces of work -/

/-- A piece of work: what was noted, and what came of it. -/
structure Work (α : Type) where
  notes : List Note
  result : Except Failure α

namespace Work

variable {α β : Type}

def andThen (w : Work α) (f : α → Work β) : Work β :=
  match w.result with
  | .ok a => ⟨w.notes ++ (f a).notes, (f a).result⟩
  | .error failure => ⟨w.notes, .error failure⟩

instance : Monad Work where
  pure a := ⟨[], .ok a⟩
  bind := andThen

theorem andThen_of_ok {w : Work α} {a : α} (h : w.result = .ok a) (f : α → Work β) :
    w.andThen f = ⟨w.notes ++ (f a).notes, (f a).result⟩ := by
  rw [andThen, h]

theorem andThen_of_error {w : Work α} {failure : Failure} (h : w.result = .error failure)
    (f : α → Work β) : w.andThen f = ⟨w.notes, .error failure⟩ := by
  rw [andThen, h]

theorem andThen_assoc {γ : Type} (w : Work α) (f : α → Work β) (g : β → Work γ) :
    (w.andThen f).andThen g = w.andThen fun a => (f a).andThen g := by
  cases hw : w.result with
  | error failure => rw [andThen_of_error hw, andThen_of_error hw, andThen_of_error rfl]
  | ok a =>
    rw [andThen_of_ok hw, andThen_of_ok hw]
    cases hf : (f a).result with
    | error failure => rw [andThen_of_error hf, andThen_of_error rfl]
    | ok b => rw [andThen_of_ok hf, andThen_of_ok rfl, List.append_assoc]

instance : LawfulMonad Work :=
  LawfulMonad.mk' Work
    (fun w => by
      show w.andThen (fun a => ⟨[], .ok a⟩) = w
      obtain ⟨notes, result⟩ := w
      cases result with
      | error failure => rfl
      | ok a => rw [andThen_of_ok rfl, List.append_nil])
    (fun a f => by
      show andThen ⟨[], .ok a⟩ f = f a
      rw [andThen_of_ok rfl, List.nil_append])
    andThen_assoc

def noting (notes : List Note) : Work Unit :=
  ⟨notes, .ok ()⟩

/-- Work of which nothing is noted. -/
def ofExcept {ε : Type} (failure : ε → Failure) (r : Except ε α) : Work α :=
  ⟨[], r.mapError failure⟩

end Work

/-! ### Reading what is given -/

/-- What the program leaves to others: telling what its arguments ask for, reading
YAML, and writing sound. -/
structure Toolkit (Q : Type) where
  readArguments : List String → Request
  readYaml : YamlReader Q
  writeSound : SoundWriter Q

/-- The files a command works with. -/
structure Sources where
  score : List UInt8
  config : Option (List UInt8) := none

variable {Q : Type} [Quantity Q]

def Toolkit.standard : Toolkit Q :=
  ⟨LeadSheet.readArguments, Yaml.read, SoundSheet.bytes⟩

def ScoreOptions.key (o : ScoreOptions) : Except KeyFault (Option Key) :=
  let tonic := Text.trim (o.tonic.getD "").toList
  if tonic.isEmpty then .ok none else (Key.read (String.ofList tonic)).map some

/-- The endings of the names of files with scores in brackets. -/
def datumSuffixes : List String :=
  [".sexp", ".scm"]

def ScoreOptions.isDatum (o : ScoreOptions) : Bool :=
  match o.format with
  | .datum => true
  | .text => false
  | .auto =>
    let name := (Text.lower o.input.toList).reverse
    datumSuffixes.any fun ending => ending.toList.reverse.isPrefixOf name

/-- Reads the score of a command.  The key comes first. -/
def ScoreOptions.readScore (o : ScoreOptions) (bytes : List UInt8) : Work (Score Q) := do
  let key ← Work.ofExcept (fun f => .reading (.key f)) o.key
  let cs ← Work.ofExcept .encoding (Text.decode bytes)
  let text := String.ofList (Text.unifyLineEnds cs)
  if o.isDatum then do
    Work.noting (datumNotes Q Table.standard key text)
    Work.ofExcept .reading (Score.readDatum Table.standard key text)
  else do
    Work.noting (scoreNotes Q Table.standard key text)
    Work.ofExcept .reading (Score.read Table.standard key text)

def readSettings (readYaml : YamlReader Q) (path : String) (bytes : List UInt8) :
    Work (Settings Q) := do
  let fields ← Work.ofExcept (.settings path) (fileFields readYaml path bytes)
  Work.noting [.settingsLoaded path (Value.mapping fields : Value Q).inner]
  Work.ofExcept (fun f => .settings path (.settings f)) (Settings.ofFields fields)

/-- Settings with what the options say instead. -/
def SoundOptions.override (o : SoundOptions) (s : Settings Q) : Settings Q :=
  { s with
    voicing := o.voicing.getD s.voicing
    octave := (o.octave.map fun n => .number (.whole n)).getD s.octave }

def SoundOptions.readSettings (o : SoundOptions) (readYaml : YamlReader Q)
    (config : Option (List UInt8)) : Work (Settings Q) :=
  match o.config, config with
  | some path, some bytes => o.override <$> LeadSheet.readSettings readYaml (plainPath path) bytes
  | _, _ => pure (o.override Settings.standard)

/-! ### The commands -/

/-- What a command makes: a text, which is shown unless it goes to a file, or
the bytes of a sound. -/
inductive Product where
  | text (path : Option String) (s : String)
  | sound (path : String) (bytes : List UInt8)

/-- The names that the standard input goes by. -/
def inputNames : List String :=
  ["-", "<stdin>"]

/-- Where the sound of a score goes. -/
def ScoreOptions.soundPath (o : ScoreOptions) : String :=
  match o.output with
  | some path => path
  | none => if o.input ∈ inputNames then "output.mid" else withSuffix o.input ".mid"

def programName : String := "chordmidi"

def programVersion : String := "0.1.0"

/-- Converts a score and writes it out; `style` names what it is written with. -/
def writeScore (style : String) (convert : Score Q → Except KeyFault (Score Q))
    (o : ScoreOptions) (s : Score Q) : Work Product := do
  Work.noting [.rendering s.entries.length style]
  let s ← Work.ofExcept (fun f => .reading (.key f)) (convert s)
  pure (.text (o.output.map plainPath) (s.text ++ "\n"))

def playScore (write : SoundWriter Q) (o : ScoreOptions) (tempo : Int) (settings : Settings Q)
    (s : Score Q) : Work Product := do
  Work.noting [.said (programName ++ " v" ++ programVersion),
    .said ("  Entries : " ++ toString s.entries.length ++ "  |  Tempo: " ++ toString tempo
      ++ " BPM")]
  let _ ← Work.ofExcept .playing (quarterMicroseconds (.whole tempo : Number Q))
  Work.noting (playNotes settings s)
  let bytes ← Work.ofExcept .playing (s.encodeWith write settings (.whole tempo))
  Work.noting [.encoded s.chords.length bytes.length (toString tempo)]
  pure (.sound o.soundPath bytes)

def Command.work (tools : Toolkit Q) (c : Command) (sources : Sources) : Work Product :=
  match c with
  | degrees o => do
    let s : Score Q ← o.readScore sources.score
    writeScore "degrees" Score.toDegrees o s
  | pitches o => do
    let s : Score Q ← o.readScore sources.score
    writeScore "pitches" Score.toPitches o s
  | sound o options => do
    let settings ← options.readSettings tools.readYaml sources.config
    let s ← o.readScore sources.score
    playScore tools.writeSound o options.tempo settings s

end LeadSheet
