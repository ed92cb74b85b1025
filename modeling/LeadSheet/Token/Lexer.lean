import LeadSheet.Text.Space
import LeadSheet.Token.Reader

/-!
# Words of a score

A score text is cut into words, bars and line ends (`lex`), and the words are
then read one after the other (`tokenize`).

Words end at blanks and bars, except inside parentheses or brackets.  A number
sign opens a comment if a blank or the end of the line follows it; `#IV` is
music.  A line that holds nothing but blanks and a comment gives nothing, not
even a line end.

`flatten_takeWord` says that cutting off a word loses nothing.
-/

namespace LeadSheet

open Text

inductive Lexeme where
  | word (s : Source)
  | bar (line column : Int)
  | newline (line column : Int)

/-- The depth behind a character of a word. -/
def depthAfter (depth : Nat) (c : Char) : Nat :=
  if c = '(' ∨ c = '[' then depth + 1
  else if c = ')' ∨ c = ']' then depth - 1
  else depth

def endsWord (depth : Nat) (c : Char) : Bool :=
  depth = 0 && (isBlank c || c = '|')

/-- The characters up to the end of the word that the text is in, and what
follows that. -/
def takeWord (depth : Nat) : List Char → List Char × List Char
  | [] => ([], [])
  | c :: cs =>
    if endsWord depth c then ([], c :: cs)
    else
      let (word, rest) := takeWord (depthAfter depth c) cs
      (c :: word, rest)

theorem flatten_takeWord (depth : Nat) (cs : List Char) :
    (takeWord depth cs).1 ++ (takeWord depth cs).2 = cs := by
  induction cs generalizing depth with
  | nil => rfl
  | cons c cs ih =>
    rw [takeWord]
    split
    · rfl
    · simpa using ih (depthAfter depth c)

theorem length_takeWord_le (depth : Nat) (cs : List Char) :
    (takeWord depth cs).2.length ≤ cs.length := by
  have := congrArg List.length (flatten_takeWord depth cs)
  rw [List.length_append] at this
  omega

def startsComment : List Char → Bool
  | '#' :: [] => true
  | '#' :: c :: _ => isBlank c
  | _ => false

/-- The words and bars of what is left of a line, from a column on. -/
def lexLine (line column : Int) (cs : List Char) : List Lexeme :=
  match cs with
  | [] => []
  | c :: cs =>
    if isBlank c then lexLine line (column + 1) cs
    else if c = '|' then .bar line column :: lexLine line (column + 1) cs
    else if startsComment (c :: cs) then []
    else
      let tail := takeWord (depthAfter 0 c) cs
      .word ⟨c :: tail.1, line, column⟩ :: lexLine line (column + 1 + tail.1.length) tail.2
termination_by cs.length
decreasing_by
  · exact Nat.lt_succ_self _
  · exact Nat.lt_succ_self _
  · exact Nat.lt_succ_of_le (length_takeWord_le _ _)

/-- The words and bars of a line with the line end, if there are any. -/
def lexWholeLine (line : Int) (cs : List Char) : List Lexeme :=
  let ls := lexLine line 1 cs
  if ls.isEmpty then [] else ls ++ [.newline line (cs.length + 1)]

/-- The pieces of lines that are counted from a number on. -/
def lexLines (line : Int) : List (List Char) → List Lexeme
  | [] => []
  | cs :: rest => lexWholeLine line cs ++ lexLines (line + 1) rest

def lex (text : String) : List Lexeme :=
  lexLines 1 (lines text.toList)

variable {Q : Type} [Quantity Q]

def Lexeme.token (table : Table) : Lexeme → Except ReadFault (Token Q)
  | word s => Token.read table s
  | bar line column => .ok ⟨.bar, "|", line, column⟩
  | newline line column => .ok ⟨.newline, "\n", line, column⟩

def tokenize (table : Table) (text : String) : Except ReadFault (List (Token Q)) :=
  (lex text).mapM (Lexeme.token table)

end LeadSheet
