import LeadSheet.Settings.Yaml.PlainText

/-!
# Quoted scalars of YAML

Between single quotes everything stands for itself, and a quote is written
twice.  Between double quotes a backslash starts an escape.  The ends of lines
are read as in a plain scalar, unless a backslash stands before them.

The result is a row of code points, as an escape may write one that is no
character.
-/

namespace LeadSheet.Yaml.TokenReader

/-- The code point that a letter behind a backslash stands for. -/
def escape? (c : Char) : Option Nat :=
  [('0', 0x00), ('a', 0x07), ('b', 0x08), ('t', 0x09), ('\t', 0x09), ('n', 0x0A), ('v', 0x0B),
   ('f', 0x0C), ('r', 0x0D), ('e', 0x1B), (' ', 0x20), ('"', 0x22), ('\\', 0x5C), ('/', 0x2F),
   ('N', 0x85), ('_', 0xA0), ('L', 0x2028), ('P', 0x2029)].lookup c

def escapeLength? (c : Char) : Option Nat :=
  [('x', 2), ('u', 4), ('U', 8)].lookup c

def hexNumber? (ds : List Char) : Option Nat :=
  ds.foldlM (fun n d =>
    if '0' ≤ d ∧ d ≤ '9' then some (n * 16 + (d.toNat - '0'.toNat))
    else if 'a' ≤ d ∧ d ≤ 'f' then some (n * 16 + (d.toNat - 'a'.toNat + 10))
    else if 'A' ≤ d ∧ d ≤ 'F' then some (n * 16 + (d.toNat - 'A'.toNat + 10))
    else none) 0

/-- The code point that digits behind a backslash write.  One that no text can
hold is a fault, and not the same fault if it is too large for 32 bits. -/
def escapedPoint (ds : List Char) : Except Fault Nat :=
  match hexNumber? ds with
  | none => .error .malformed
  | some n =>
    if n < 0x110000 then .ok n
    else if n < 0x80000000 then .error .noCodePoint
    else .error .tooLarge

def isSpace (c : Char) : Bool :=
  c = ' ' || c = '\t'

def takeEscape (s : TokenReader) : Except Fault (List Nat × TokenReader) :=
  match s.rest with
  | [] => .error .malformed
  | c :: cs =>
    match escape? c, escapeLength? c with
    | some d, _ => .ok ([d], s.step)
    | none, some n =>
      if cs.length < n then .error .malformed
      else (escapedPoint (cs.take n)).map fun d => ([d], s.steps (n + 1))
    | none, none =>
      if isBreak c then
        let ((breaks, stopped), s) := takeBreaks isSpace s.rest.length s.step
        if stopped then .error .malformed else .ok (breaks.map Char.toNat, s)
      else .error .malformed

def takeQuotedSpaces (s : TokenReader) : Except Fault (List Char × TokenReader) :=
  let blanks := s.rest.takeWhile isSpace
  let s := s.steps blanks.length
  match s.rest with
  | [] => .error .malformed
  | c :: _ =>
    if isBreak c then
      let ((breaks, stopped), s) := takeBreaks isSpace s.rest.length s.step
      if stopped then .error .malformed else .ok (foldBreaks c breaks, s)
    else .ok (blanks, s)

/-- Reads the code points of a quoted scalar up to its closing quote. -/
def takeQuoted (double : Bool) : Nat → TokenReader → Except Fault (List Nat × TokenReader)
  | 0, _ => .error .malformed
  | fuel + 1, s =>
    match s.rest with
    | [] => .error .malformed
    | c :: cs =>
      if !double && c = '\'' && cs.head? = some '\'' then do
        let (more, s) ← takeQuoted double fuel (s.steps 2)
        pure ('\''.toNat :: more, s)
      else if c = (if double then '"' else '\'') then .ok ([], s.step)
      else if double && c = '\\' then do
        let (escaped, s) ← takeEscape s.step
        let (more, s) ← takeQuoted double fuel s
        pure (escaped ++ more, s)
      else if isSpace c || isBreak c then do
        let (spaces, s) ← takeQuotedSpaces s
        let (more, s) ← takeQuoted double fuel s
        pure (spaces.map Char.toNat ++ more, s)
      else do
        let (more, s) ← takeQuoted double fuel s.step
        pure (c.toNat :: more, s)

end LeadSheet.Yaml.TokenReader
