import LeadSheet.Settings.Yaml.Token

/-!
# Plain scalars of YAML

A plain scalar is written without quotes.  It ends at a colon before white
space and at a comment, inside a flow collection also at its marks.  It may go
on over lines that are indented (`takePlain`); the ends of lines in it are read
as spaces (`foldBreaks`).
-/

namespace LeadSheet.Yaml.TokenReader

/-- Skips blanks and reads the line ends among them; a document mark at the
start of a line stops it, which the flag tells. -/
def takeBreaks (blank : Char → Bool) : Nat → TokenReader → (List Char × Bool) × TokenReader
  | 0, s => (([], false), s)
  | fuel + 1, s =>
    if s.atDocumentMark then (([], true), s)
    else
      let s := s.steps (s.rest.takeWhile blank).length
      match s.rest with
      | [] => (([], false), s)
      | c :: _ =>
        if isBreak c then
          let ((breaks, stopped), s) := takeBreaks blank fuel s.step
          ((breakText c :: breaks, stopped), s)
        else (([], false), s)

/-- What a line end and those behind it are read as: a single one as a space,
and of more the first is dropped. -/
def foldBreaks (first : Char) (breaks : List Char) : List Char :=
  if breakText first ≠ '\n' then breakText first :: breaks
  else if breaks.isEmpty then [' '] else breaks

/-- The length of the run of characters of a plain scalar that a text starts
with. -/
def plainRun (flow : Bool) : List Char → Nat
  | [] => 0
  | c :: cs =>
    if c = ' ' || c = '\t' || isBreak c then 0
    else if c = ':' && (startsBlank cs || (flow && cs.head?.any (",[]\x7b\x7d".toList.contains ·)))
      then 0
    else if flow && ",?[]\x7b\x7d".toList.contains c then 0
    else plainRun flow cs + 1

def takePlainSpaces (s : TokenReader) : List Char × TokenReader :=
  let blanks := s.rest.takeWhile (· = ' ')
  let s := s.steps blanks.length
  match s.rest with
  | [] => (blanks, s)
  | c :: _ =>
    if isBreak c then
      let ((breaks, stopped), s) :=
        takeBreaks (· = ' ') s.rest.length { s.step with keyAllowed := true }
      (if stopped then [] else foldBreaks c breaks, s)
    else (blanks, s)

/-- Reads a plain scalar, behind white space that belongs to it if it goes
on. -/
def takePlain (indent : Int) (spaces : List Char) : Nat → TokenReader → List Char × TokenReader
  | 0, s => ([], s)
  | fuel + 1, s =>
    if s.rest.head? = some '#' then ([], s)
    else
      let n := plainRun s.inFlow s.rest
      if n = 0 then ([], s)
      else
        let run := s.rest.take n
        let (next, s) := takePlainSpaces { s.steps n with keyAllowed := false }
        if next.isEmpty || s.rest.head? = some '#' || (!s.inFlow && s.column < indent) then
          (spaces ++ run, s)
        else
          let (more, s) := takePlain indent next fuel s
          (spaces ++ run ++ more, s)

end LeadSheet.Yaml.TokenReader
