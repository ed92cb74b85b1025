import LeadSheet.Calendar.Date

/-!
# Pieces of YAML

A YAML text is cut into tokens: the marks of block and flow collections and
scalars.  In block style collections are known by their indentation, so the
reader keeps the columns of those that are open and closes them when a line
starts further left (`closeBlocks`).

A key is only known as one when the colon behind it is reached.  Until then it
is a `PendingKey`, remembered with the number of tokens before it; the mark of
the key, and that of the mapping it may open, are put in there (`insertAt`).

Anchors, aliases, tags and directives are not read.

A `Fault` says why a text is no value of YAML: its marks do not fit together,
or a scalar looks like a number or a date and is none.
-/

namespace LeadSheet.Yaml

inductive Fault where
  | malformed
  /-- An escape that is far too large for a code point. -/
  | noCodePoint
  /-- An escape that is too large for any number it may be kept in. -/
  | tooLarge
  /-- A whole number without digits in its base. -/
  | noDigits (base : Nat)
  | tooManyDigits (digits : Nat)
  | calendar (fault : CalendarFault)
deriving DecidableEq

inductive Token where
  | documentStart
  | documentEnd
  | blockSequenceStart
  | blockMappingStart
  | blockEnd
  | flowSequenceStart
  | flowSequenceEnd
  | flowMappingStart
  | flowMappingEnd
  | blockEntry
  | flowEntry
  | key
  | value
  | plain (text : List Char)
  /-- A scalar between quotes or in a block of lines, by its code points. -/
  | quoted (points : List Nat)
  /-- What follows cannot be read. -/
  | unreadable (fault : Fault)
deriving DecidableEq

/-- A token that may turn out to be a key. -/
structure PendingKey where
  /-- The number of tokens before it. -/
  tokenNumber : Nat
  /-- Whether it has to be a key, as it starts a line of a block mapping. -/
  required : Bool
  index : Nat
  line : Nat
  column : Nat

/-- What is left of a text, and what is known about what was read. -/
structure TokenReader where
  rest : List Char
  index : Nat := 0
  line : Nat := 0
  column : Nat := 0
  /-- The tokens so far, the last one first. -/
  tokens : List Token := []
  indent : Int := -1
  indents : List Int := []
  /-- The pending key of every open flow collection, the innermost first, and
  last the one outside of all. -/
  keys : List (Option PendingKey) := [none]
  keyAllowed : Bool := true

/-! ### Characters -/

def isBreak (c : Char) : Bool :=
  c = '\n' || c = '\r' || c = Char.ofNat 0x85 || c = Char.ofNat 0x2028 || c = Char.ofNat 0x2029

/-- Whether a text starts with white space or is empty. -/
def startsBlank : List Char → Bool
  | [] => true
  | c :: _ => c = ' ' || c = '\t' || isBreak c

def isAllowed (c : Char) : Bool :=
  let n := c.toNat
  n = 0x09 || n = 0x0A || n = 0x0D || (0x20 ≤ n && n ≤ 0x7E) || n = 0x85
    || (0xA0 ≤ n && n ≤ 0xFFFD) || 0x10000 ≤ n

def breakText (c : Char) : Char :=
  if c = '\r' || c = Char.ofNat 0x85 then '\n' else c

namespace TokenReader

def inFlow (s : TokenReader) : Bool :=
  1 < s.keys.length

/-- The reader behind one more character.  A byte order mark takes no
column. -/
def step (s : TokenReader) : TokenReader :=
  match s.rest with
  | [] => s
  | c :: cs =>
    if isBreak c then
      { s with rest := cs, index := s.index + 1, line := s.line + 1, column := 0 }
    else
      let width := if c = Char.ofNat 0xFEFF then 0 else 1
      { s with rest := cs, index := s.index + 1, column := s.column + width }

def steps (s : TokenReader) : Nat → TokenReader
  | 0 => s
  | n + 1 => s.step.steps n

def emit (s : TokenReader) (t : Token) : TokenReader :=
  { s with tokens := t :: s.tokens }

/-- Whether three characters that mark a document stand here, at the start of a
line. -/
def atMark (s : TokenReader) (mark : List Char) : Bool :=
  s.column = 0 && mark.isPrefixOf s.rest && startsBlank (s.rest.drop 3)

def atDocumentMark (s : TokenReader) : Bool :=
  s.atMark ['-', '-', '-'] || s.atMark ['.', '.', '.']

/-! ### Indentation and keys -/

/-- Closes the block collections that are further right than a column. -/
def closeBlocksFrom (column : Int) : Nat → TokenReader → TokenReader
  | 0, s => s
  | fuel + 1, s =>
    if column < s.indent then
      closeBlocksFrom column fuel
        { s with indent := s.indents.headD (-1), indents := s.indents.tail,
                 tokens := .blockEnd :: s.tokens }
    else s

/-- Closes the block collections that are further right than a column, unless
the text is inside a flow collection. -/
def closeBlocks (s : TokenReader) (column : Int) : TokenReader :=
  if s.inFlow then s else closeBlocksFrom column (s.indents.length + 1) s

/-- Opens a block collection in a column if it is further right than the ones
that are open. -/
def openBlockAt (s : TokenReader) (column : Int) : Option TokenReader :=
  if s.indent < column then some { s with indent := column, indents := s.indent :: s.indents }
  else none

/-- Whether a pending key is on another line or too long by now. -/
def isStale (s : TokenReader) (k : PendingKey) : Bool :=
  k.line ≠ s.line || k.index + 1024 < s.index

/-- Forgets the pending keys that are stale; one that has to be a key is a
fault. -/
def dropStale (s : TokenReader) : Except Fault TokenReader := do
  let keys ← s.keys.mapM fun key =>
    match key with
    | none => .ok none
    | some k =>
      if s.isStale k then if k.required then .error .malformed else .ok none
      else .ok (some k)
  pure { s with keys }

/-- Forgets the pending key; one that has to be a key is a fault. -/
def dropKey (s : TokenReader) : Except Fault TokenReader :=
  match s.keys with
  | some k :: keys => if k.required then .error .malformed else .ok { s with keys := none :: keys }
  | _ => .ok s

/-- Remembers that the next token may be a key. -/
def saveKey (s : TokenReader) : Except Fault TokenReader :=
  if s.keyAllowed then do
    let s' ← s.dropKey
    let k : PendingKey :=
      ⟨s.tokens.length, !s.inFlow && s.indent = s.column, s.index, s.line, s.column⟩
    pure { s' with keys := some k :: s'.keys.tail }
  else .ok s

/-- The number of tokens that are known for certain: those before the first one
that may turn out to be a key. -/
def certain (s : TokenReader) : Nat :=
  s.keys.foldl
    (fun n key =>
      match key with
      | some k => if s.isStale k then n else min n k.tokenNumber
      | none => n)
    s.tokens.length

/-- Puts tokens in behind the first `n`. -/
def insertAt (s : TokenReader) (n : Nat) (ts : List Token) : TokenReader :=
  let later := s.tokens.length - n
  { s with tokens := s.tokens.take later ++ ts.reverse ++ s.tokens.drop later }

/-! ### Between tokens -/

def skipComment (s : TokenReader) : TokenReader :=
  match s.rest with
  | '#' :: cs => s.steps ((cs.takeWhile fun c => !isBreak c).length + 1)
  | _ => s

def skipToToken : Nat → TokenReader → TokenReader
  | 0, s => s
  | fuel + 1, s =>
    let s := (s.steps (s.rest.takeWhile (· = ' ')).length).skipComment
    match s.rest with
    | [] => s
    | c :: _ =>
      if isBreak c then
        skipToToken fuel { s.step with keyAllowed := s.keyAllowed || !s.inFlow }
      else s

end TokenReader

end LeadSheet.Yaml
