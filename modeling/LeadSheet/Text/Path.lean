import LeadSheet.Text.Lowercase

/-!
# Paths

Paths as texts: the name at the end of a path, its suffix, and a path without
the parts that say nothing (`plainPath`).

The suffix of a name starts at its last point, unless that is the first or the
last character.
-/

namespace LeadSheet

/-- The parts of a path between its slashes, without empty ones and those that
stay where they are. -/
def pathParts (path : List Char) : List (List Char) :=
  (path.splitOn '/').filter fun part => !part.isEmpty && part ≠ ['.']

/-- The slashes that a path starts with: one of an absolute path, or exactly
two. -/
def pathRoot : List Char → List Char
  | '/' :: '/' :: '/' :: _ => ['/']
  | '/' :: '/' :: _ => ['/', '/']
  | '/' :: _ => ['/']
  | _ => []

def joinPath (root : List Char) (parts : List (List Char)) : List Char :=
  let path := root ++ List.intercalate ['/'] parts
  if path.isEmpty then ['.'] else path

def plainPath (path : String) : String :=
  String.ofList (joinPath (pathRoot path.toList) (pathParts path.toList))

/-- What stands behind the last point of a text, and before it. -/
def splitPoint (cs : List Char) : Option (List Char × List Char) :=
  let behind := cs.reverse.takeWhile (· ≠ '.')
  if behind.length = cs.length then none
  else some (cs.take (cs.length - behind.length - 1), behind.reverse)

def stem (name : List Char) : List Char :=
  match splitPoint name with
  | some (before, behind) => if before.isEmpty || behind.isEmpty then name else before
  | none => name

def suffix (name : List Char) : List Char :=
  name.drop (stem name).length

/-- The suffix of the name at the end of a path, in small letters. -/
def pathSuffix (path : String) : String :=
  match (pathParts path.toList).getLast? with
  | some name => String.ofList (Text.lower (suffix name))
  | none => ""

def withSuffix (path newSuffix : String) : String :=
  let parts := pathParts path.toList
  match parts.getLast? with
  | some name =>
    String.ofList
      (joinPath (pathRoot path.toList) (parts.dropLast ++ [stem name ++ newSuffix.toList]))
  | none => path

end LeadSheet
