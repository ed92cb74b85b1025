import LeadSheet.Settings.Yaml.BlockText
import LeadSheet.Settings.Yaml.QuotedText

/-!
# The tokens of a YAML text

One token after the other is taken from the text (`takeToken`).  Where that
fails the row of tokens ends with the fault (`takeTokens`), so that whoever
reads the tokens may still find a fault before it.
-/

namespace LeadSheet.Yaml

namespace TokenReader

def takeDocumentMark (s : TokenReader) (t : Token) : Except Fault TokenReader := do
  let s ← (s.closeBlocks (-1)).dropKey
  pure ({ s with keyAllowed := false }.steps 3 |>.emit t)

def takeFlowStart (s : TokenReader) (t : Token) : Except Fault TokenReader := do
  let s ← s.saveKey
  pure ({ s with keys := none :: s.keys, keyAllowed := true }.step.emit t)

def takeFlowEnd (s : TokenReader) (t : Token) : Except Fault TokenReader := do
  let s ← s.dropKey
  if s.inFlow then pure ({ s with keys := s.keys.tail, keyAllowed := false }.step.emit t)
  else .error .malformed

def takeFlowEntry (s : TokenReader) : Except Fault TokenReader := do
  let s ← { s with keyAllowed := true }.dropKey
  pure (s.step.emit .flowEntry)

def openBlock (s : TokenReader) (t : Token) : TokenReader :=
  match s.openBlockAt s.column with
  | some s => s.emit t
  | none => s

def takeBlockEntry (s : TokenReader) : Except Fault TokenReader := do
  if !s.inFlow && !s.keyAllowed then .error .malformed
  let s := if s.inFlow then s else s.openBlock .blockSequenceStart
  let s ← { s with keyAllowed := true }.dropKey
  pure (s.step.emit .blockEntry)

def takeKeyMark (s : TokenReader) : Except Fault TokenReader := do
  if !s.inFlow && !s.keyAllowed then .error .malformed
  let s := if s.inFlow then s else s.openBlock .blockMappingStart
  let s ← { s with keyAllowed := !s.inFlow }.dropKey
  pure (s.step.emit .key)

def takeValueMark (s : TokenReader) : Except Fault TokenReader := do
  match s.keys with
  | some k :: keys =>
    let s := { s with keys := none :: keys, keyAllowed := false }
    let s := match if s.inFlow then none else s.openBlockAt k.column with
      | some s => s.insertAt k.tokenNumber [.blockMappingStart, .key]
      | none => s.insertAt k.tokenNumber [.key]
    pure (s.step.emit .value)
  | _ =>
    if !s.inFlow && !s.keyAllowed then .error .malformed
    let s := if s.inFlow then s else s.openBlock .blockMappingStart
    let s ← { s with keyAllowed := !s.inFlow }.dropKey
    pure (s.step.emit .value)

def takeQuotedScalar (s : TokenReader) (double : Bool) : Except Fault TokenReader := do
  let s ← s.saveKey
  let (points, s) ← takeQuoted double (s.rest.length + 1) { s.step with keyAllowed := false }
  pure (s.emit (.quoted points))

def takePlainScalar (s : TokenReader) : Except Fault TokenReader := do
  let s ← s.saveKey
  let (text, s) :=
    takePlain (s.indent + 1) [] (s.rest.length + 1) { s with keyAllowed := false }
  pure (s.emit (.plain text))

def takeBlockScalar (s : TokenReader) (folded : Bool) : Except Fault TokenReader := do
  let s ← { s with keyAllowed := true }.dropKey
  let (text, s) ← takeBlockText folded s.step
  pure (s.emit (.quoted (text.map Char.toNat)))

def startsPlain (s : TokenReader) (c : Char) (cs : List Char) : Bool :=
  if "-?:".toList.contains c then !startsBlank cs && (c = '-' || !s.inFlow)
  else !(c = ' ' || c = '\t' || isBreak c || ",[]\x7b\x7d#&*!|>'\"%@\x60".toList.contains c)

def takeToken (s : TokenReader) (c : Char) (cs : List Char) : Except Fault TokenReader :=
  if s.atMark ['-', '-', '-'] then s.takeDocumentMark .documentStart
  else if s.atMark ['.', '.', '.'] then s.takeDocumentMark .documentEnd
  else if c = '[' then s.takeFlowStart .flowSequenceStart
  else if c = Char.ofNat 0x7B then s.takeFlowStart .flowMappingStart
  else if c = ']' then s.takeFlowEnd .flowSequenceEnd
  else if c = Char.ofNat 0x7D then s.takeFlowEnd .flowMappingEnd
  else if c = ',' then s.takeFlowEntry
  else if c = '-' && startsBlank cs then s.takeBlockEntry
  else if c = '?' && (s.inFlow || startsBlank cs) then s.takeKeyMark
  else if c = ':' && (s.inFlow || startsBlank cs) then s.takeValueMark
  else if c = '|' && !s.inFlow then s.takeBlockScalar false
  else if c = '>' && !s.inFlow then s.takeBlockScalar true
  else if c = '\'' then s.takeQuotedScalar false
  else if c = '"' then s.takeQuotedScalar true
  else if s.startsPlain c cs then s.takePlainScalar
  else .error .malformed

/-- The reader at the next token, with the block collections closed that end
before it. -/
def toNext (s : TokenReader) : Except Fault TokenReader := do
  let s ← (skipToToken (s.rest.length + 1) s).dropStale
  pure (s.closeBlocks s.column)

def finish (s : TokenReader) : Except Fault TokenReader :=
  (s.closeBlocks (-1)).dropKey

/-- The tokens that were read when a fault was found. -/
def stopped (s : TokenReader) (fault : Fault) : List Token :=
  s.tokens.reverse.take s.certain ++ [.unreadable fault]

/-- Takes every token up to the end of the text, or up to what cannot be
read. -/
def takeTokens : Nat → TokenReader → List Token
  | 0, s => s.stopped .malformed
  | fuel + 1, s =>
    match s.toNext with
    | .error fault => s.stopped fault
    | .ok next =>
      match next.rest with
      | [] =>
        match next.finish with
        | .error fault => s.stopped fault
        | .ok last => last.tokens.reverse
      | c :: cs =>
        match next.takeToken c cs with
        | .error fault => s.stopped fault
        | .ok behind => takeTokens fuel behind

end TokenReader

def dropMark : List Char → List Char
  | [] => []
  | c :: cs => if c = Char.ofNat 0xFEFF then cs else c :: cs

def tokens (cs : List Char) : List Token :=
  if cs.all isAllowed then TokenReader.takeTokens (cs.length + 1) { rest := dropMark cs }
  else [.unreadable .malformed]

end LeadSheet.Yaml
