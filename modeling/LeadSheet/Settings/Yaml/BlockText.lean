import LeadSheet.Settings.Yaml.Token

/-!
# Block scalars of YAML

A block scalar is a row of lines that are indented further than what they
belong to.  A bar in front of it keeps the lines as they are, an angle reads the
ends of lines as spaces.  Behind that mark stand how to end the text
(`Chomping`) and by how much it is indented, which is otherwise seen from its
first line.
-/

namespace LeadSheet.Yaml

/-- What becomes of the ends of lines at the end of a block scalar. -/
inductive Chomping where
  | strip
  /-- One of them is kept. -/
  | clip
  | keep
deriving DecidableEq

namespace TokenReader

def takeChomping (s : TokenReader) : Option Chomping × TokenReader :=
  match s.rest with
  | '+' :: _ => (some .keep, s.step)
  | '-' :: _ => (some .strip, s.step)
  | _ => (none, s)

def takeIndicator (s : TokenReader) : Except Fault (Option Nat × TokenReader) :=
  match s.rest with
  | c :: _ =>
    if c = '0' then .error .malformed
    else if '1' ≤ c ∧ c ≤ '9' then .ok (some (c.toNat - '0'.toNat), s.step)
    else .ok (none, s)
  | [] => .ok (none, s)

/-- Reads the sign and the digit behind the mark of a block scalar, in either
order. -/
def takeIndicators (s : TokenReader) : Except Fault ((Chomping × Option Nat) × TokenReader) := do
  match s.takeChomping with
  | (some chomping, s) => do
    let (digit, s) ← s.takeIndicator
    pure ((chomping, digit), s)
  | (none, s) => do
    match ← s.takeIndicator with
    | (some digit, s) =>
      let (chomping, s) := s.takeChomping
      pure ((chomping.getD .clip, some digit), s)
    | (none, s) => pure ((.clip, none), s)

/-- Goes to the line behind the mark of a block scalar; a comment may stand
behind the mark. -/
def toBlockText (s : TokenReader) : Except Fault TokenReader :=
  let spaces := (s.rest.takeWhile (· = ' ')).length
  let behind := (s.steps spaces).skipComment
  let isMarkEnd :=
    match s.rest with
    | c :: _ => c = ' ' || isBreak c
    | [] => true
  match isMarkEnd, behind.rest with
  | true, [] => .ok behind
  | true, c :: _ => if isBreak c then .ok behind.step else .error .malformed
  | false, _ => .error .malformed

/-- Reads the empty lines in front of a block scalar.  The number is the
greatest column that was reached among them. -/
def takeLeading : Nat → Nat → TokenReader → (List Char × Nat) × TokenReader
  | 0, widest, s => (([], widest), s)
  | fuel + 1, widest, s =>
    match s.rest with
    | [] => (([], widest), s)
    | c :: _ =>
      if isBreak c then
        let ((breaks, widest), s) := takeLeading fuel widest s.step
        ((breakText c :: breaks, widest), s)
      else if c = ' ' then takeLeading fuel (max widest s.step.column) s.step
      else (([], widest), s)

def skipIndent (indent : Nat) (s : TokenReader) : TokenReader :=
  s.steps (min (s.rest.takeWhile (· = ' ')).length (indent - s.column))

/-- Reads empty lines up to a column of the line behind them. -/
def takeEmptyLines (indent : Nat) : Nat → TokenReader → List Char × TokenReader
  | 0, s => ([], s)
  | fuel + 1, s =>
    let s := s.skipIndent indent
    match s.rest with
    | [] => ([], s)
    | c :: _ =>
      if isBreak c then
        let (breaks, s) := takeEmptyLines indent fuel s.step
        (breakText c :: breaks, s)
      else ([], s)

def atLine (indent : Nat) (s : TokenReader) : Bool :=
  s.column = indent && !s.rest.isEmpty

def startsSpace (s : TokenReader) : Bool :=
  s.rest.head?.any fun c => c = ' ' || c = '\t'

/-- A block scalar as far as it was read: its text without what ends it, the end
of its last line and those of the empty lines behind. -/
structure BlockText where
  text : List Char
  lastBreak : List Char
  breaks : List Char

/-- Reads the lines of a block scalar, behind empty ones. -/
def takeLines (folded : Bool) (indent : Nat) (breaks : List Char) :
    Nat → TokenReader → BlockText × TokenReader
  | 0, s => (⟨[], [], breaks⟩, s)
  | fuel + 1, s =>
    let line := s.rest.takeWhile fun c => !isBreak c
    let behind := s.steps line.length
    let lastBreak := (behind.rest.head?.map breakText).toList
    let (next, behind) := takeEmptyLines indent (behind.rest.length + 1) behind.step
    if behind.atLine indent then
      let joined := folded && lastBreak = ['\n'] && !s.startsSpace && !behind.startsSpace
      let between :=
        if !joined then lastBreak
        else if next.isEmpty then [' ']
        else []
      let (more, behind) := takeLines folded indent next fuel behind
      ({ more with text := breaks ++ line ++ between ++ more.text }, behind)
    else (⟨breaks ++ line, lastBreak, next⟩, behind)

/-- The text of a block scalar with the end it is to have. -/
def BlockText.chomped (t : BlockText) : Chomping → List Char
  | .strip => t.text
  | .clip => t.text ++ t.lastBreak
  | .keep => t.text ++ t.lastBreak ++ t.breaks

/-- Reads a block scalar, given the reader behind its mark. -/
def takeBlockText (folded : Bool) (s : TokenReader) : Except Fault (List Char × TokenReader) := do
  let ((chomping, digit), s) ← s.takeIndicators
  let s ← s.toBlockText
  let least := (max 1 (s.indent + 1)).toNat
  let (indent, breaks, s) :=
    match digit with
    | some n =>
      let indent := least + n - 1
      let (breaks, s) := takeEmptyLines indent (s.rest.length + 1) s
      (indent, breaks, s)
    | none =>
      let ((breaks, widest), s) := takeLeading (s.rest.length + 1) 0 s
      (max least widest, breaks, s)
  let (text, s) :=
    if s.atLine indent then takeLines folded indent breaks (s.rest.length + 1) s
    else (⟨[], [], breaks⟩, s)
  pure (text.chomped chomping, s)

end TokenReader

end LeadSheet.Yaml
