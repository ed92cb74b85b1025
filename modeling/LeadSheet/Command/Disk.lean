import LeadSheet.Text.Path
import LeadSheet.Text.Quoted
import LeadSheet.Text.Utf8

/-!
# Files

What a command needs of the world around it is a `Host`: its input, and a way
to read and to write files.  A `Disk` is such a world in which everything can
be looked at: directories and files under one directory, in which every path
starts.  What lies above that directory is empty.

`find?_put_self` and `find?_put_of_ne` say that writing a file changes that
file and no other.
-/

namespace LeadSheet

/-- Why a file could not be read or written. -/
inductive HostFault where
  | missing
  | notDirectory
  | isDirectory
  | nameTooLong
  /-- A text with a null character in it is no path at all. -/
  | notPath
  | other (code : Nat) (reason : String)
deriving DecidableEq

def HostFault.reason? : HostFault → Option (Nat × String)
  | missing => some (2, "No such file or directory")
  | notDirectory => some (20, "Not a directory")
  | isDirectory => some (21, "Is a directory")
  | nameTooLong => some (36, "File name too long")
  | notPath => none
  | other code reason => some (code, reason)

/-- What is said about a fault with a file at a path, if anything is. -/
def HostFault.message? (f : HostFault) (path : String) : Option String :=
  f.reason?.map fun (code, reason) =>
    "[Errno " ++ toString code ++ "] " ++ reason ++ ": " ++ Text.quoted path

/-- What a command needs of the world around it. -/
structure Host (m : Type → Type) where
  input : m (List UInt8)
  read : String → m (Except HostFault (List UInt8))
  write : String → List UInt8 → m (Except HostFault Unit)

def isPath (path : String) : Bool :=
  !path.toList.contains (Char.ofNat 0)

def Host.readFile {m : Type → Type} [Monad m] (host : Host m) (path : String) :
    m (Except HostFault (List UInt8)) :=
  if isPath path then host.read path else pure (.error .notPath)

def Host.writeFile {m : Type → Type} [Monad m] (host : Host m) (path : String)
    (bytes : List UInt8) : m (Except HostFault Unit) :=
  if isPath path then host.write path bytes else pure (.error .notPath)

/-- What stands at a place of a disk. -/
inductive DiskNode where
  | directory
  | file (bytes : List UInt8)
deriving DecidableEq

/-- A place of a disk: the names on the way to it.  One above the disk starts with
the steps up to it. -/
abbrev Place := List (List Char)

def stepUp : List Char :=
  ['.', '.']

/-- The step that stays in a directory. -/
def stepNowhere : List Char :=
  ['.']

/-- Directories and files. -/
structure Disk where
  nodes : List (Place × DiskNode) := []

namespace Disk

def find? (d : Disk) (p : Place) : Option DiskNode :=
  if p.all (· = stepUp) then some .directory else d.nodes.lookup p

def putNode (p : Place) (bytes : List UInt8) : List (Place × DiskNode) → List (Place × DiskNode)
  | [] => [(p, .file bytes)]
  | (q, n) :: nodes => if q = p then (p, .file bytes) :: nodes else (q, n) :: putNode p bytes nodes

def put (d : Disk) (p : Place) (bytes : List UInt8) : Disk :=
  ⟨putNode p bytes d.nodes⟩

theorem find?_put_self {d : Disk} {p : Place} {bytes : List UInt8}
    (hp : p.all (· = stepUp) = false) : (d.put p bytes).find? p = some (.file bytes) := by
  simp only [find?, hp, Bool.false_eq_true, if_false, put]
  induction d.nodes with
  | nil => simp [putNode]
  | cons n nodes ih =>
    obtain ⟨q, n⟩ := n
    rw [putNode]
    split
    · simp
    · rename_i hq
      have : (p == q) = false := by simpa using Ne.symm hq
      rw [List.lookup_cons, this]
      exact ih

theorem find?_put_of_ne {d : Disk} {p q : Place} {bytes : List UInt8} (h : q ≠ p) :
    (d.put p bytes).find? q = d.find? q := by
  simp only [find?, put]
  split
  · rfl
  · induction d.nodes with
    | nil =>
      have : (q == p) = false := by simpa using h
      simp [putNode, List.lookup_cons, this]
    | cons n nodes ih =>
      obtain ⟨r, n⟩ := n
      rw [putNode]
      split
      · rename_i hr
        subst hr
        have : (q == r) = false := by simpa using h
        rw [List.lookup_cons, List.lookup_cons, this]
      · rw [List.lookup_cons, List.lookup_cons, ih]

/-- The longest name of a file, in bytes. -/
def longestName : Nat := 255

/-- The longest path, in bytes. -/
def longestPath : Nat := 4095

/-- The place that one step of a path leads to. -/
def step (here : Place) (part : List Char) : Except HostFault Place :=
  if part = stepNowhere then .ok here
  else if part = stepUp then
    .ok (if here.all (· = stepUp) then here ++ [stepUp] else here.dropLast)
  else if longestName < (Text.encode (String.ofList part)).length then .error .nameTooLong
  else .ok (here ++ [part])

/-- Goes from a directory along some steps, each to a directory. -/
def walk (d : Disk) (here : Place) : List (List Char) → Except HostFault Place
  | [] => .ok here
  | part :: parts => do
    let next ← step here part
    match d.find? next with
    | some .directory => walk d next parts
    | some (.file _) => .error .notDirectory
    | none => .error .missing

/-- The steps of a path, and whether a slash ends it. -/
def steps (path : List Char) : List (List Char) × Bool :=
  ((path.splitOn '/').filter fun part => !part.isEmpty, path.getLast? = some '/')

/-- The directory that the last step of a path is taken from, and that step.  Only
the top of everything can be reached by a path that starts there. -/
def locate (d : Disk) (path : String) : Except HostFault (Place × List Char) :=
  let cs := path.toList
  let parts := (steps cs).1
  if longestPath < (Text.encode path).length then .error .nameTooLong
  else
    match parts.getLast?, pathRoot cs with
    | some part, [] => (walk d [] parts.dropLast).map fun here => (here, part)
    | none, [] => .error .missing
    | _, _ =>
      if parts.all fun part => part = stepNowhere || part = stepUp then .ok ([], stepNowhere)
      else .error .missing

def read (d : Disk) (path : String) : Except HostFault (List UInt8) := do
  let (here, part) ← d.locate path
  let p ← step here part
  match d.find? p with
  | some (.file bytes) => if (steps path.toList).2 then .error .notDirectory else pure bytes
  | some .directory => .error .isDirectory
  | none => .error .missing

/-- Writes a file at a path.  With a slash at its end a path can only name a
directory. -/
def write (d : Disk) (path : String) (bytes : List UInt8) : Except HostFault Disk := do
  let (here, part) ← d.locate path
  if (steps path.toList).2 then .error .isDirectory
  let p ← step here part
  match d.find? p with
  | some .directory => .error .isDirectory
  | _ => pure (d.put p bytes)

/-- A disk as a host, with some bytes as its input. -/
def host (input : List UInt8) : Host (StateM Disk) where
  input := pure input
  read path := do
    let d ← get
    pure (d.read path)
  write path bytes := do
    let d ← get
    match d.write path bytes with
    | .ok d => do
      set d
      pure (.ok ())
    | .error fault => pure (.error fault)

end Disk

end LeadSheet
