/-!
# Blanks and lines

The characters that separate words are the white space of Unicode together with
the four information separators U+001C to U+001F.  Neither the zero-width
space nor the byte order mark is one of them.  `trim` takes blanks off both
ends of a text.

A text is cut into lines at its line feeds; a carriage return directly before
a line feed belongs to the line end.  There is always at least one line, and
`lines_eq_singleton` says that a text without line feeds is its own only line.
`unifyLineEnds` is the coarser reading used for files: there a carriage return
on its own ends a line too.
-/

namespace LeadSheet.Text

/-! ### Blanks -/

/-- A character that separates words. -/
def isBlank (c : Char) : Bool :=
  let n := c.toNat
  (0x09 ≤ n && n ≤ 0x0D) || (0x1C ≤ n && n ≤ 0x20) || n == 0x85 || n == 0xA0 || n == 0x1680
    || (0x2000 ≤ n && n ≤ 0x200A) || n == 0x2028 || n == 0x2029 || n == 0x202F || n == 0x205F
    || n == 0x3000

def trimStart (cs : List Char) : List Char :=
  cs.dropWhile isBlank

def trimEnd (cs : List Char) : List Char :=
  (trimStart cs.reverse).reverse

def trim (cs : List Char) : List Char :=
  trimEnd (trimStart cs)

theorem trimStart_eq_self {c : Char} {cs : List Char} (h : isBlank c = false) :
    trimStart (c :: cs) = c :: cs := by
  simp [trimStart, h]

/-! ### Lines -/

/-- The lines of a text, without their ends. -/
def lines : List Char → List (List Char)
  | [] => [[]]
  | '\n' :: cs => [] :: lines cs
  | '\r' :: '\n' :: cs => [] :: lines cs
  | c :: cs =>
    match lines cs with
    | [] => [[c]]
    | l :: ls => (c :: l) :: ls

def unifyLineEnds : List Char → List Char
  | [] => []
  | '\r' :: '\n' :: cs => '\n' :: unifyLineEnds cs
  | c :: cs => (if c = '\r' then '\n' else c) :: unifyLineEnds cs

theorem lines_ne_nil (cs : List Char) : lines cs ≠ [] := by
  fun_induction lines cs <;> simp_all

theorem lines_eq_singleton {cs : List Char} (h : '\n' ∉ cs) : lines cs = [cs] := by
  fun_induction lines cs with
  | case1 => rfl
  | case2 cs ih => simp at h
  | case3 cs ih => simp at h
  | case4 c cs _ _ hl ih => exact absurd hl (lines_ne_nil cs)
  | case5 c cs _ _ l ls hl ih =>
    have := ih (fun hc => h (List.mem_cons_of_mem c hc))
    simp_all

end LeadSheet.Text
