import LeadSheet.Settings.Value
import LeadSheet.Settings.Yaml.Node
import LeadSheet.Settings.Yaml.Timestamp

/-!
# Reading YAML

The nodes of a text as values.

A plain scalar may stand for nothing, a truth value, a number or a date;
everything else is a text.  The merge key and the default key stand for no value
at all (`plainValue`); as a key of a mapping the default key is a text.

A mapping takes in the fields of another one, or of all mappings of a sequence,
that stands behind the merge key.  They come before its own fields, and of the
mappings of a sequence the last one comes first, so that a field counts more
than one that is taken in, and an earlier mapping more than a later one.
`Node.spread` does that in a whole tree.

The content of a collection is looked at once everything beside the collection
was, so of two faults the one that is nested less deeply counts, and of two
equally deep ones the first (`both`).  A key of a mapping is no collection.
-/

namespace LeadSheet.Yaml

/-! ### Plain scalars as values -/

variable {Q : Type} [Quantity Q]

def flag? (s : String) : Option Bool :=
  if ["yes", "Yes", "YES", "true", "True", "TRUE", "on", "On", "ON"].contains s then some true
  else if ["no", "No", "NO", "false", "False", "FALSE", "off", "Off", "OFF"].contains s then
    some false
  else none

/-- The value of a word, a date or a text that is no number. -/
def wordValue (cs : List Char) : Except Fault (Value Q) :=
  let s := String.ofList cs
  if ["", "~", "null", "Null", "NULL"].contains s then .ok .null
  else
    match timestamp? cs with
    | some t =>
      match t.value with
      | .ok (.inl d) => .ok (.date d)
      | .ok (.inr m) => .ok (.moment m)
      | .error fault => .error (.calendar fault)
    | none => if s = "<<" ∨ s = "=" then .error .malformed else .ok (.text s)

def plainValue (cs : List Char) : Except Fault (Value Q) :=
  match flag? (String.ofList cs), fraction? cs, whole? cs with
  | some b, _, _ => .ok (.number (.flag b))
  | none, some x, _ => x.map fun x => .number (.fraction x)
  | none, none, some n => n.map fun n => .number (.whole n)
  | none, none, none => wordValue cs

/-! ### Merged mappings -/

def Node.isMergeKey : Node → Bool
  | .plain text => text = ['<', '<']
  | _ => false

def Node.fields? : Node → Option (List (Node × Node))
  | .mapping fields => some fields
  | _ => none

/-- The fields that a mapping takes in with a node. -/
def Node.merged? : Node → Option (List (Node × Node))
  | .sequence items => (items.mapM Node.fields?).map fun mappings => mappings.reverse.flatten
  | node => node.fields?

/-- The mapping with some fields, once those behind the merge key are taken
in. -/
def Node.ofFields (fields : List (Node × Node)) : Node :=
  let (merged, own) := fields.partition fun field => field.1.isMergeKey
  match merged.mapM fun field => field.2.merged? with
  | some mappings => .mapping (mappings.flatten ++ own)
  | none => .unmerged

mutual

/-- The node with the merge keys in it resolved. -/
def Node.spread : Node → Node
  | .sequence items => .sequence (spreadItems items)
  | .mapping fields => .ofFields (spreadFields fields)
  | .plain text => .plain text
  | .quoted points => .quoted points
  | .unmerged => .unmerged

def spreadItems : List Node → List Node
  | [] => []
  | node :: nodes => node.spread :: spreadItems nodes

def spreadFields : List (Node × Node) → List (Node × Node)
  | [] => []
  | (key, node) :: fields => (key.spread, node.spread) :: spreadFields fields

end

/-! ### Nodes as values -/

variable {α β : Type}

/-- A fault and how deep it is nested. -/
structure NestedFault where
  depth : Nat
  fault : Fault

abbrev Built (α : Type) := Except NestedFault α

def inside (b : Built α) : Built α :=
  b.mapError fun f => { f with depth := f.depth + 1 }

/-- What became of two rows of nodes together. -/
def both : Built α → Built β → Built (α × β)
  | .ok a, .ok b => .ok (a, b)
  | .error f, .error g => .error (if g.depth < f.depth then g else f)
  | .error f, .ok _ => .error f
  | .ok _, .error g => .error g

def outer (r : Except Fault α) : Built α :=
  r.mapError fun fault => ⟨0, fault⟩

def keyValue : Node → Built (Value Q)
  | .plain text => if text = ['='] then .ok (.text "=") else outer (plainValue text)
  | .quoted points => .ok (.ofPoints points)
  | _ => .error ⟨0, .malformed⟩

/-- The mapping with some fields; of two with one key the later one counts. -/
def mappingOf (fields : List (Value Q × Value Q)) : Value Q :=
  .mapping (fields.foldl (fun fields (k, v) => Value.setField k v fields) [])

mutual

def nodeValue : Node → Built (Value Q)
  | .plain text => outer (plainValue text)
  | .quoted points => .ok (.ofPoints points)
  | .sequence items => inside ((itemValues items).map Value.list)
  | .mapping fields => inside ((fieldValues fields).map mappingOf)
  | .unmerged => .error ⟨1, .malformed⟩

def itemValues : List Node → Built (List (Value Q))
  | [] => .ok []
  | node :: nodes => (both (nodeValue node) (itemValues nodes)).map fun (v, vs) => v :: vs

def fieldValues : List (Node × Node) → Built (List (Value Q × Value Q))
  | [] => .ok []
  | (key, node) :: rest =>
    (both (both (keyValue key) (nodeValue node)) (fieldValues rest)).map fun (f, fs) => f :: fs

end

def read (cs : List Char) : Except Fault (Value Q) := do
  match ← document (tokens cs) with
  | none => .ok .null
  | some node => (nodeValue node.spread).mapError NestedFault.fault

end LeadSheet.Yaml
