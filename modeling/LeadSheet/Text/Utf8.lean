/-!
# UTF-8

Texts as bytes.  `decode` reads them strictly: an overlong form, a surrogate or
a code point beyond the last one is refused, and a fault says which bytes are
wrong and how.
-/

namespace LeadSheet.Text

inductive Utf8Error where
  | invalidStart
  | invalidContinuation
  | unexpectedEnd
deriving DecidableEq

def Utf8Error.text : Utf8Error → String
  | invalidStart => "invalid start byte"
  | invalidContinuation => "invalid continuation byte"
  | unexpectedEnd => "unexpected end of data"

/-- The bytes that fail to be a text: the first of them with its position, and
their number. -/
structure Utf8Fault where
  error : Utf8Error
  byte : UInt8
  position : Nat
  count : Nat
deriving DecidableEq

/-- How many bytes follow the first byte of a character, and what the first
byte says about it. -/
def leadByte? (b : UInt8) : Option (Nat × Nat) :=
  let n := b.toNat
  if n < 0x80 then some (0, n)
  else if n < 0xC2 then none
  else if n < 0xE0 then some (1, n - 0xC0)
  else if n < 0xF0 then some (2, n - 0xE0)
  else if n < 0xF5 then some (3, n - 0xF0)
  else none

/-- Whether a byte may follow others of a character.  The bits before it and
the number of bytes that are still to come rule out some second bytes. -/
def continues (missing bits : Nat) (b : UInt8) : Bool :=
  let n := b.toNat
  0x80 ≤ n && n < 0xC0
    && !(missing = 2 && ((bits = 0 && n < 0xA0) || (bits = 13 && 0xA0 ≤ n)))
    && !(missing = 3 && ((bits = 0 && n < 0x90) || (bits = 4 && 0x90 ≤ n)))

/-- Reads the bytes that follow the first one of a character: the code point
and the rest, or the error and the number of bytes up to it. -/
def takeContinuations : (missing bits seen : Nat) → List UInt8 →
    Except (Utf8Error × Nat) (Nat × List UInt8)
  | 0, bits, _, bs => .ok (bits, bs)
  | _ + 1, _, seen, [] => .error (.unexpectedEnd, seen)
  | missing + 1, bits, seen, b :: bs =>
    if seen = 1 && !continues (missing + 1) bits b || !continues 0 0 b then
      .error (.invalidContinuation, seen)
    else takeContinuations missing (bits * 64 + (b.toNat - 0x80)) (seen + 1) bs

theorem length_takeContinuations {missing bits seen n : Nat} {bs rest : List UInt8}
    (h : takeContinuations missing bits seen bs = .ok (n, rest)) : rest.length ≤ bs.length := by
  fun_induction takeContinuations missing bits seen bs with
  | case1 => cases h; exact Nat.le_refl _
  | case2 => cases h
  | case3 => cases h
  | case4 _ _ _ _ _ _ ih => exact Nat.le_succ_of_le (ih h)

/-- Reads bytes as a text, the first one standing at a position. -/
def decodeFrom (position : Nat) (bs : List UInt8) : Except Utf8Fault (List Char) :=
  match bs with
  | [] => .ok []
  | b :: bs =>
    match leadByte? b with
    | none => .error ⟨.invalidStart, b, position, 1⟩
    | some (missing, bits) =>
      match _h : takeContinuations missing bits 1 bs with
      | .error (error, count) => .error ⟨error, b, position, count⟩
      | .ok (n, rest) =>
        (decodeFrom (position + missing + 1) rest).map (Char.ofNat n :: ·)
termination_by bs.length
decreasing_by exact Nat.lt_succ_of_le (length_takeContinuations _h)

def decode (bs : List UInt8) : Except Utf8Fault (List Char) :=
  decodeFrom 0 bs

def encodeChar (c : Char) : List UInt8 :=
  let n := c.toNat
  let following (shift : Nat) : UInt8 := UInt8.ofNat (0x80 + n / shift % 64)
  if n < 0x80 then [UInt8.ofNat n]
  else if n < 0x800 then [UInt8.ofNat (0xC0 + n / 64), following 1]
  else if n < 0x10000 then [UInt8.ofNat (0xE0 + n / 4096), following 64, following 1]
  else [UInt8.ofNat (0xF0 + n / 262144), following 4096, following 64, following 1]

def encode (s : String) : List UInt8 :=
  s.toList.flatMap encodeChar

end LeadSheet.Text
