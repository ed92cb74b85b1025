import LeadSheet.Datum.Score
import LeadSheet.Number.Quantity
import LeadSheet.Playing.Timeline
import LeadSheet.Score.Reader

/-!
# The journal

What a command tells about its work.  Notes that were asked for are told only
then; a note that was moved into range and what a command says by itself are
always told.

What is noted while a score is read follows from the steps of reading it:
`along` collects the notes of a run of steps, up to the first that fails.
-/

namespace LeadSheet

/-- Something to tell about the work of a command. -/
inductive Note where
  | token (kind word : String) (line column : Int)
  | keyChange (key : String) (line column : Int)
  | scoreBuilt (entries keys : Nat) (length : String)
  | keyedMeasure (key : String) (line column : Int)
  | datumRead (entries keys : Nat)
  | rendering (entries : Nat) (style : String)
  | shifted (source goal : Int)
  | voiced (chords : Nat) (voicing : String)
  | encoded (chords bytes : Nat) (tempo : String)
  | settingsLoaded (path fields : String)
  | said (text : String)
deriving DecidableEq

namespace Note

/-- Whether something is told only when it was asked for. -/
def isDetail : Note → Bool
  | shifted .. => false
  | said _ => false
  | _ => true

def text : Note → String
  | token kind word line column =>
    "DEBUG chordmidi.parser: token " ++ kind ++ " " ++ Text.quoted word ++ " at "
      ++ toString line ++ ":" ++ toString column
  | keyChange key line column =>
    "DEBUG chordmidi.score: key change to " ++ key ++ " at " ++ toString line ++ ":"
      ++ toString column
  | scoreBuilt entries keys length =>
    "DEBUG chordmidi.score: built score: " ++ toString entries ++ " entries, " ++ toString keys
      ++ " key context(s), " ++ length ++ " beats"
  | keyedMeasure key line column =>
    "DEBUG chordmidi.sexp: keyed measure in " ++ key ++ " at " ++ toString line ++ ":"
      ++ toString column
  | datumRead entries keys =>
    "DEBUG chordmidi.sexp: read s-expression score: " ++ toString entries ++ " entries, "
      ++ toString keys ++ " key context(s)"
  | rendering entries style =>
    "DEBUG chordmidi.notation: rendering " ++ toString entries ++ " entries as " ++ style
  | shifted source goal =>
    "WARNING chordmidi.midi_exporter: note " ++ toString source ++ " out of MIDI range, shifted to "
      ++ toString goal
  | voiced chords voicing =>
    "DEBUG chordmidi.midi_exporter: voiced " ++ toString chords ++ " chord(s) with " ++ voicing
      ++ " voicing"
  | encoded chords bytes tempo =>
    "DEBUG chordmidi.midi_exporter: encoded " ++ toString chords ++ " chord(s) into "
      ++ toString bytes ++ " bytes at " ++ tempo ++ " BPM"
  | settingsLoaded path fields =>
    "DEBUG chordmidi.config: loaded encoder settings from " ++ path ++ ": " ++ fields
  | said text => text

/-- The lines that tell some notes, details only if they were asked for. -/
def lines (verbose : Bool) (notes : List Note) : String :=
  String.join ((notes.filter fun n => verbose || !n.isDetail).map fun n => n.text ++ "\n")

end Note

/-- The notes of a run of steps, up to the first that fails. -/
def along {σ α ε : Type} (step : σ → α → Except ε σ) (notes : α → List Note) :
    σ → List α → List Note
  | _, [] => []
  | s, a :: as =>
    match step s a with
    | .ok s => notes a ++ along step notes s as
    | .error _ => []

variable {Q : Type}

def TokenContent.kind : TokenContent Q → String
  | sound (.chord _) _ => "chord"
  | sound .rest _ => "rest"
  | sound .tie _ => "sustain"
  | sound .again _ => "repeat"
  | key _ => "key"
  | bar => "bar"
  | newline => "newline"

def Token.wordNotes (t : Token Q) : List Note :=
  match t.content with
  | .bar => []
  | .newline => []
  | c => [.token c.kind t.text t.line t.column]

def Token.feedNotes (t : Token Q) : List Note :=
  match t.content with
  | .key k => [.keyChange k.text t.line t.column]
  | _ => []

variable [Quantity Q]

/-- The notes of the tokens of some pieces, up to the first that is none. -/
def tokenNotes (Q : Type) [Quantity Q] (table : Table) : List Lexeme → List Note
  | [] => []
  | l :: ls =>
    match (l.token table : Except ReadFault (Token Q)) with
    | .ok t => t.wordNotes ++ tokenNotes Q table ls
    | .error _ => []

def scoreNotes (Q : Type) [Quantity Q] (table : Table) (key : Option Key) (text : String) :
    List Note :=
  tokenNotes Q table (lex text)
    ++ match (tokenize table text : Except ReadFault (List (Token Q))) with
      | .error _ => []
      | .ok ts =>
        along Builder.feed Token.feedNotes (Builder.start key) ts
          ++ match Score.ofTokens key ts with
            | .ok s => [.scoreBuilt s.entries.length s.keys.length (Quantity.fixedText s.length)]
            | .error _ => []

/-- What is noted when a step of reading a datum was carried out. -/
def MeasureStep.notes (Q : Type) [Quantity Q] (table : Table) : MeasureStep → List Note
  | enter k line column => [.keyedMeasure k.text line column]
  | word s =>
    match (Token.read table s : Except ReadFault (Token Q)) with
    | .ok t => t.feedNotes
    | .error _ => []
  | _ => []

def datumNotes (Q : Type) [Quantity Q] (table : Table) (key : Option Key) (text : String) :
    List Note :=
  match (Datum.read text).bind Datum.measures with
  | .error _ => []
  | .ok measures =>
    along (ScoreBuilding.perform table) (MeasureStep.notes Q table)
        (⟨Builder.start key, []⟩ : ScoreBuilding Q) (measures.flatMap Datum.steps)
      ++ match (Score.readDatum table key text : Except ReadFault (Score Q)) with
        | .ok s => [.datumRead s.entries.length s.keys.length]
        | .error _ => []

def playNotes (settings : Settings Q) (s : Score Q) : List Note :=
  (shifts settings s).map (fun (n, m) => .shifted n m)
    ++ match timeline settings s with
      | .ok ts => [.voiced ts.length settings.voicing.name]
      | .error _ => []

end LeadSheet
