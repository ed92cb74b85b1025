import LeadSheet.Datum.Reader
import LeadSheet.Pitch.Reader
import LeadSheet.Score.Reader
import LeadSheet.Token.Reader

/-!
# Scores in brackets

A score may be written as a datum: `(score M ...)`, where a measure `M` is a
list of words or `(keyed K M)`, the measure `M` in the key `K`.  After a keyed
measure the key before it is in effect again.  The whole score is one line.

`Datum.steps` says what reading a measure does, one step after the other, and
`ScoreBuilding.perform` carries a step out.  The keys to go back to are kept
in a stack, the innermost first.
-/

namespace LeadSheet

/-- A step of reading measures. -/
inductive MeasureStep where
  /-- Goes over to the key of a keyed measure that starts at a place. -/
  | enter (k : Key) (line column : Int)
  /-- Goes back to the key before. -/
  | leave
  | word (s : Source)
  | close
  | fail (f : ReadFault)

def Datum.itemStep : Datum → MeasureStep
  | .atom s => .word s
  | .list line column _ => .fail (.misreading ⟨.nestedMeasure, line, column, "("⟩)

def Datum.steps : Datum → List MeasureStep
  | .atom s =>
    [.fail (.misreading
      ⟨.notAMeasure (String.ofList s.text), s.line, s.column, String.ofList s.text⟩)]
  | .list line column items =>
    if startsWith "keyed" items then
      match items with
      | [_, .atom tonic, measure] =>
        match Key.read (String.ofList tonic.text) with
        | .ok k => .enter k line column :: (measure.steps ++ [.leave])
        | .error e => [.fail (.key (.located tonic.line tonic.column e))]
      | _ => [.fail (.misreading ⟨.notKeyed, line, column, "keyed"⟩)]
    else items.map itemStep ++ [.close]

def Datum.measures : Datum → Except ReadFault (List Datum)
  | .list line column items =>
    if startsWith "score" items then .ok items.tail
    else .error (.misreading { cause := .notAScore, line, column })
  | .atom s => .error (.misreading { cause := .notAScore, line := s.line, column := s.column })

/-- A score that is being built, and the keys to go back to. -/
structure ScoreBuilding (Q : Type) where
  builder : Builder Q
  outer : List Nat := []

variable {Q : Type} [Quantity Q]

def ScoreBuilding.perform (table : Table) (b : ScoreBuilding Q) :
    MeasureStep → Except ReadFault (ScoreBuilding Q)
  | .enter k _ _ => .ok ⟨b.builder.changeKey (some k), b.builder.keyIndex :: b.outer⟩
  | .leave =>
    match b.outer with
    | index :: outer => .ok ⟨b.builder.returnTo index, outer⟩
    | [] => .ok b
  | .word s => do
    let t ← Token.read table s
    let builder ← b.builder.feed t
    pure { b with builder }
  | .close => .ok { b with builder := b.builder.closeMeasure }
  | .fail f => .error f

/-- Reads a score written as a datum, starting in a key. -/
def Score.readDatum (table : Table) (key : Option Key) (text : String) :
    Except ReadFault (Score Q) := do
  let d ← Datum.read text
  let measures ← d.measures
  let start : ScoreBuilding Q := ⟨Builder.start key, []⟩
  let b ← (measures.flatMap Datum.steps).foldlM (ScoreBuilding.perform table) start
  pure b.builder.closeLine.score

end LeadSheet
