import LeadSheet.Settings.Yaml.TokenRow

/-!
# Nodes of YAML

The tokens of a text as a tree of scalars, sequences and mappings, one document
at most.  A node that is not written is an empty plain scalar.

A fault is that of the first token that does not fit.  Reading is by recursion
on a bound that no row of tokens can exhaust, four times its length
(`onlyDocument`).
-/

namespace LeadSheet.Yaml

inductive Node where
  | plain (text : List Char)
  | quoted (points : List Nat)
  | sequence (items : List Node)
  | mapping (fields : List (Node × Node))
  /-- A mapping with something merged into it that cannot be. -/
  | unmerged

def Node.empty : Node :=
  .plain []

def misfit : List Token → Fault
  | .unreadable fault :: _ => fault
  | _ => .malformed

mutual

/-- Reads a node of a block collection; `indentless` allows a sequence that is
not indented. -/
def blockNode (indentless : Bool) : Nat → List Token → Except Fault (Node × List Token)
  | 0, _ => .error .malformed
  | fuel + 1, ts =>
    match ts with
    | .blockEntry :: _ =>
      if indentless then do
        let (items, ts) ← indentlessItems fuel ts
        pure (.sequence items, ts)
      else .error .malformed
    | .blockSequenceStart :: ts => do
      let (items, ts) ← blockItems fuel ts
      pure (.sequence items, ts)
    | .blockMappingStart :: ts => do
      let (fields, ts) ← blockFields fuel ts
      pure (.mapping fields, ts)
    | ts => flowNode fuel ts

def flowNode : Nat → List Token → Except Fault (Node × List Token)
  | 0, _ => .error .malformed
  | fuel + 1, ts =>
    match ts with
    | .plain text :: ts => .ok (.plain text, ts)
    | .quoted points :: ts => .ok (.quoted points, ts)
    | .flowSequenceStart :: ts => do
      let (items, ts) ← flowItems true fuel ts
      pure (.sequence items, ts)
    | .flowMappingStart :: ts => do
      let (fields, ts) ← flowFields true fuel ts
      pure (.mapping fields, ts)
    | ts => .error (misfit ts)

def blockItems : Nat → List Token → Except Fault (List Node × List Token)
  | 0, _ => .error .malformed
  | fuel + 1, ts =>
    match ts with
    | .blockEnd :: ts => .ok ([], ts)
    | .blockEntry :: ts => do
      let (item, ts) ← match ts with
        | .blockEntry :: _ | .blockEnd :: _ => .ok (Node.empty, ts)
        | _ => blockNode false fuel ts
      let (items, ts) ← blockItems fuel ts
      pure (item :: items, ts)
    | ts => .error (misfit ts)

/-- Reads the items of a sequence that is not indented. -/
def indentlessItems : Nat → List Token → Except Fault (List Node × List Token)
  | 0, _ => .error .malformed
  | fuel + 1, ts =>
    match ts with
    | .blockEntry :: ts => do
      let (item, ts) ← match ts with
        | .blockEntry :: _ | .key :: _ | .value :: _ | .blockEnd :: _ => .ok (Node.empty, ts)
        | _ => blockNode false fuel ts
      let (items, ts) ← indentlessItems fuel ts
      pure (item :: items, ts)
    | ts => .ok ([], ts)

/-- Reads the key or the value of a field of a block mapping. -/
def blockPart : Nat → List Token → Except Fault (Node × List Token)
  | 0, _ => .error .malformed
  | fuel + 1, ts =>
    match ts with
    | .key :: _ | .value :: _ | .blockEnd :: _ => .ok (Node.empty, ts)
    | _ => blockNode true fuel ts

def blockFields : Nat → List Token → Except Fault (List (Node × Node) × List Token)
  | 0, _ => .error .malformed
  | fuel + 1, ts =>
    match ts with
    | .blockEnd :: ts => .ok ([], ts)
    | .key :: ts => do
      let (k, ts) ← blockPart fuel ts
      let (v, ts) ← match ts with
        | .value :: ts => blockPart fuel ts
        | ts => .ok (Node.empty, ts)
      let (fields, ts) ← blockFields fuel ts
      pure ((k, v) :: fields, ts)
    | ts => .error (misfit ts)

/-- Reads the comma in front of an entry that is not the first of a flow
collection. -/
def flowComma (first : Bool) (ts : List Token) : Except Fault (List Token) :=
  match first, ts with
  | true, ts => .ok ts
  | false, .flowEntry :: ts => .ok ts
  | false, ts => .error (misfit ts)

def flowValue : Nat → List Token → Except Fault (Node × List Token)
  | 0, _ => .error .malformed
  | fuel + 1, ts =>
    match ts with
    | .value :: ts =>
      match ts with
      | .flowEntry :: _ | .flowSequenceEnd :: _ | .flowMappingEnd :: _ => .ok (Node.empty, ts)
      | _ => flowNode fuel ts
    | ts => .ok (Node.empty, ts)

def flowKey : Nat → List Token → Except Fault (Node × List Token)
  | 0, _ => .error .malformed
  | fuel + 1, ts =>
    match ts with
    | .value :: _ | .flowEntry :: _ | .flowSequenceEnd :: _ | .flowMappingEnd :: _ =>
      .ok (Node.empty, ts)
    | _ => flowNode fuel ts

def flowItems (first : Bool) : Nat → List Token → Except Fault (List Node × List Token)
  | 0, _ => .error .malformed
  | fuel + 1, ts =>
    match ts with
    | .flowSequenceEnd :: ts => .ok ([], ts)
    | ts => do
      let ts ← flowComma first ts
      match ts with
      | .flowSequenceEnd :: ts => .ok ([], ts)
      | .key :: ts => do
        let (k, ts) ← flowKey fuel ts
        let (v, ts) ← flowValue fuel ts
        let (items, ts) ← flowItems false fuel ts
        pure (.mapping [(k, v)] :: items, ts)
      | ts => do
        let (item, ts) ← flowNode fuel ts
        let (items, ts) ← flowItems false fuel ts
        pure (item :: items, ts)

def flowFields (first : Bool) : Nat → List Token → Except Fault (List (Node × Node) × List Token)
  | 0, _ => .error .malformed
  | fuel + 1, ts =>
    match ts with
    | .flowMappingEnd :: ts => .ok ([], ts)
    | ts => do
      let ts ← flowComma first ts
      match ts with
      | .flowMappingEnd :: ts => .ok ([], ts)
      | .key :: ts => do
        let (k, ts) ← flowKey fuel ts
        let (v, ts) ← flowValue fuel ts
        let (fields, ts) ← flowFields false fuel ts
        pure ((k, v) :: fields, ts)
      | ts => do
        let (k, ts) ← flowNode fuel ts
        let (fields, ts) ← flowFields false fuel ts
        pure ((k, Node.empty) :: fields, ts)

end

def skipDocumentEnds : List Token → List Token
  | .documentEnd :: ts => skipDocumentEnds ts
  | ts => ts

def lastDocument (node : Node) (ts : List Token) : Except Fault Node :=
  match skipDocumentEnds ts with
  | [] => .ok node
  | ts => .error (misfit ts)

def onlyDocument (ts : List Token) : Except Fault Node := do
  let (node, ts) ← blockNode false (4 * ts.length + 4) ts
  lastDocument node ts

def document (ts : List Token) : Except Fault (Option Node) :=
  match ts with
  | [] => .ok none
  | .documentStart :: ts =>
    match ts with
    | [] | .documentEnd :: _ | .documentStart :: _ => (lastDocument Node.empty ts).map some
    | ts => (onlyDocument ts).map some
  | ts => (onlyDocument ts).map some

end LeadSheet.Yaml
