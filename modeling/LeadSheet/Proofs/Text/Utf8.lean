import LeadSheet.Text.Utf8
import Mathlib.Algebra.Group.Nat.Defs
import Mathlib.Tactic.SplitIfs

/-!
# Reading UTF-8

The bytes of a character are a first one, which says how many there are, and
those that follow with six bits each.  Reading those that follow comes down to
their number (`takeContinuations_eq_ok_iff`), so the bytes that are read as a
character are the ones that it is written as (`exists_char_iff`).

`decode_eq_ok_iff`: bytes are read as a text just when they are the UTF-8 that the
standard library gives for it.
-/

namespace LeadSheet.Text

/-! ### Bytes that follow -/

/-- The last bytes of a code point, each with six of its bits. -/
def following : (count n : Nat) → List UInt8
  | 0, _ => []
  | count + 1, n => UInt8.ofNat (0x80 + n / 64 ^ count % 64) :: following count n

theorem continues_iff {missing bits : Nat} {b : UInt8} : continues missing bits b = true
    ↔ (0x80 ≤ b.toNat ∧ b.toNat < 0xC0)
      ∧ (missing = 2 → (bits = 0 → 0xA0 ≤ b.toNat) ∧ (bits = 13 → b.toNat < 0xA0))
      ∧ (missing = 3 → (bits = 0 → 0x90 ≤ b.toNat) ∧ (bits = 4 → b.toNat < 0x90)) := by
  simp [continues]
  omega

theorem eq_ofNat_iff {b : UInt8} {n : Nat} (h : n < 256) : b = UInt8.ofNat n ↔ b.toNat = n := by
  rw [← UInt8.toNat_inj, UInt8.toNat_ofNat', Nat.mod_eq_of_lt h]

theorem six_bits_iff {b : UInt8} {n bits : Nat} :
    (0x80 ≤ b.toNat ∧ b.toNat < 0xC0) ∧ n = bits * 64 + (b.toNat - 0x80)
      ↔ b = UInt8.ofNat (0x80 + n % 64) ∧ n / 64 = bits := by
  rw [eq_ofNat_iff (by omega)]
  omega

theorem takeContinuations_succ_eq_ok_iff {missing bits seen n : Nat} {bs rest : List UInt8} :
    takeContinuations (missing + 1) bits seen bs = .ok (n, rest)
      ↔ ∃ b bs', bs = b :: bs' ∧ (seen = 1 → continues (missing + 1) bits b = true)
        ∧ continues 0 0 b = true
        ∧ takeContinuations missing (bits * 64 + (b.toNat - 0x80)) (seen + 1) bs' = .ok (n, rest) := by
  cases bs with
  | nil => simp [takeContinuations]
  | cons b bs =>
    rw [takeContinuations]
    constructor
    · intro h
      split_ifs at h with hb
      simp only [Bool.or_eq_true, Bool.and_eq_true, decide_eq_true_eq, Bool.not_eq_true', not_or,
        not_and, Bool.not_eq_false] at hb
      exact ⟨b, bs, rfl, hb.1, hb.2, h⟩
    · rintro ⟨b', bs', heq, hfirst, hb, h⟩
      obtain ⟨rfl, rfl⟩ := List.cons.inj heq
      rw [if_neg (by simpa [hb] using hfirst)]
      exact h

theorem takeContinuations_eq_ok_iff {missing bits seen n : Nat} {bs rest : List UInt8}
    (hseen : 1 < seen) : takeContinuations missing bits seen bs = .ok (n, rest)
      ↔ bs = following missing n ++ rest ∧ n / 64 ^ missing = bits := by
  induction missing generalizing bits seen bs with
  | zero =>
    simp only [takeContinuations, following, Except.ok.injEq, Prod.mk.injEq, Nat.pow_zero,
      Nat.div_one, List.nil_append]
    exact ⟨fun h => ⟨h.2, h.1.symm⟩, fun h => ⟨h.2.symm, h.1⟩⟩
  | succ missing ih =>
    have hdiv : n / 64 ^ (missing + 1) = n / 64 ^ missing / 64 := by
      rw [Nat.pow_succ, Nat.div_div_eq_div_mul]
    rw [takeContinuations_succ_eq_ok_iff, hdiv]
    constructor
    · rintro ⟨b, bs', rfl, -, hb, htake⟩
      obtain ⟨rfl, hvalue⟩ := (ih (Nat.lt_succ_of_lt hseen)).mp htake
      obtain ⟨rfl, hbits⟩ := six_bits_iff.mp ⟨(continues_iff.mp hb).1, hvalue⟩
      exact ⟨rfl, hbits⟩
    · rintro ⟨rfl, hbits⟩
      obtain ⟨hrange, hbits⟩ := six_bits_iff.mpr ⟨rfl, hbits⟩
      exact ⟨_, _, rfl, fun h => absurd h (by omega), continues_iff.mpr ⟨hrange, nofun, nofun⟩,
        (ih (Nat.lt_succ_of_lt hseen)).mpr ⟨rfl, hbits⟩⟩

theorem takeContinuations_one_eq_ok_iff {missing bits n : Nat} {bs rest : List UInt8} :
    takeContinuations missing bits 1 bs = .ok (n, rest)
      ↔ (bs = following missing n ++ rest ∧ n / 64 ^ missing = bits)
        ∧ (missing = 2 → 0x800 ≤ n ∧ (bits = 13 → n < 0xD800))
        ∧ (missing = 3 → 0x10000 ≤ n ∧ (bits = 4 → n < 0x110000)) := by
  cases missing with
  | zero =>
    simp only [takeContinuations, following, Except.ok.injEq, Prod.mk.injEq, Nat.pow_zero,
      Nat.div_one, List.nil_append]
    exact ⟨fun h => ⟨⟨h.2, h.1.symm⟩, nofun, nofun⟩, fun h => ⟨h.1.2.symm, h.1.1⟩⟩
  | succ missing =>
    have hdiv : n / 64 ^ (missing + 1) = n / 64 ^ missing / 64 := by
      rw [Nat.pow_succ, Nat.div_div_eq_div_mul]
    have hsecond : continues (missing + 1) (n / 64 ^ missing / 64)
          (UInt8.ofNat (0x80 + n / 64 ^ missing % 64)) = true
        ↔ (missing + 1 = 2 → 0x800 ≤ n ∧ (n / 64 ^ missing / 64 = 13 → n < 0xD800))
          ∧ (missing + 1 = 3 → 0x10000 ≤ n ∧ (n / 64 ^ missing / 64 = 4 → n < 0x110000)) := by
      rw [continues_iff, UInt8.toNat_ofNat', Nat.mod_eq_of_lt (by omega)]
      match missing with
      | 0 => omega
      | 1 => omega
      | 2 => omega
      | missing + 3 => omega
    rw [takeContinuations_succ_eq_ok_iff, hdiv]
    constructor
    · rintro ⟨b, bs', rfl, hfirst, hb, htake⟩
      obtain ⟨rfl, hvalue⟩ := (takeContinuations_eq_ok_iff (Nat.lt_succ_self 1)).mp htake
      obtain ⟨rfl, rfl⟩ := six_bits_iff.mp ⟨(continues_iff.mp hb).1, hvalue⟩
      exact ⟨⟨rfl, rfl⟩, hsecond.mp (hfirst rfl)⟩
    · rintro ⟨⟨rfl, rfl⟩, hshort⟩
      have hfirst := hsecond.mpr hshort
      obtain ⟨hrange, hbits⟩ := six_bits_iff.mpr ⟨rfl, rfl⟩
      exact ⟨_, _, rfl, fun _ => hfirst, continues_iff.mpr ⟨hrange, nofun, nofun⟩,
        (takeContinuations_eq_ok_iff (Nat.lt_succ_self 1)).mpr ⟨rfl, hbits⟩⟩

/-! ### Characters -/

theorem leadByte?_eq_some_iff {b : UInt8} {missing bits : Nat} :
    leadByte? b = some (missing, bits)
      ↔ (missing = 0 ∧ bits < 0x80 ∧ b.toNat = bits)
        ∨ (missing = 1 ∧ 2 ≤ bits ∧ bits < 32 ∧ b.toNat = 0xC0 + bits)
        ∨ (missing = 2 ∧ bits < 16 ∧ b.toNat = 0xE0 + bits)
        ∨ (missing = 3 ∧ bits < 5 ∧ b.toNat = 0xF0 + bits) := by
  unfold leadByte?
  dsimp only
  split_ifs <;> simp only [Option.some.injEq, Prod.mk.injEq, false_iff] <;> omega

theorem exists_toNat_eq_iff {n : Nat} :
    (∃ c : Char, c.toNat = n) ↔ n < 0xD800 ∨ 0xDFFF < n ∧ n < 0x110000 := by
  constructor
  · rintro ⟨c, rfl⟩
    exact c.valid
  · intro h
    refine ⟨Char.ofNat n, ?_⟩
    rw [Char.ofNat, dif_pos h]
    rfl

def follows (n : Nat) : Nat :=
  if n < 0x80 then 0 else if n < 0x800 then 1 else if n < 0x10000 then 2 else 3

theorem follows_cases (n : Nat) : (n < 0x80 ∧ follows n = 0)
    ∨ (0x80 ≤ n ∧ n < 0x800 ∧ follows n = 1) ∨ (0x800 ≤ n ∧ n < 0x10000 ∧ follows n = 2)
    ∨ (0x10000 ≤ n ∧ follows n = 3) := by
  unfold follows
  split_ifs <;> omega

/-- What the first byte of a character says of those that follow. -/
def leadMark : Nat → Nat
  | 0 => 0
  | 1 => 0xC0
  | 2 => 0xE0
  | _ => 0xF0

theorem encodeChar_eq (c : Char) : encodeChar c
    = UInt8.ofNat (leadMark (follows c.toNat) + c.toNat / 64 ^ follows c.toNat)
      :: following (follows c.toNat) c.toNat := by
  simp only [encodeChar, follows]
  split_ifs <;> simp [leadMark, following]

theorem encodeChar_eq_utf8EncodeChar (c : Char) : encodeChar c = String.utf8EncodeChar c := by
  have hvalid := exists_toNat_eq_iff.mp ⟨c, rfl⟩
  have hval : c.val.toNat = c.toNat := rfl
  have hbyte : ∀ m n : Nat, m = n → UInt8.ofNat m = UInt8.ofNat n := fun m n h => h ▸ rfl
  simp only [encodeChar, String.utf8EncodeChar, hval]
  split_ifs
  all_goals first | omega | skip
  · rfl
  · rw [hbyte (0xC0 + c.toNat / 64) (c.toNat / 64 % 32 + 192) (by omega),
      hbyte (0x80 + c.toNat / 1 % 64) (c.toNat % 64 + 128) (by omega)]
  · rw [hbyte (0xE0 + c.toNat / 4096) (c.toNat / 4096 % 16 + 224) (by omega),
      hbyte (0x80 + c.toNat / 64 % 64) (c.toNat / 64 % 64 + 128) (by omega),
      hbyte (0x80 + c.toNat / 1 % 64) (c.toNat % 64 + 128) (by omega)]
  · rw [hbyte (0xF0 + c.toNat / 262144) (c.toNat / 262144 % 8 + 240) (by omega),
      hbyte (0x80 + c.toNat / 4096 % 64) (c.toNat / 4096 % 64 + 128) (by omega),
      hbyte (0x80 + c.toNat / 64 % 64) (c.toNat / 64 % 64 + 128) (by omega),
      hbyte (0x80 + c.toNat / 1 % 64) (c.toNat % 64 + 128) (by omega)]

theorem leadByte?_take_iff {b : UInt8} {bs rest : List UInt8} {n : Nat} :
    (∃ missing bits, leadByte? b = some (missing, bits)
        ∧ takeContinuations missing bits 1 bs = .ok (n, rest))
      ↔ (n < 0xD800 ∨ 0xDFFF < n ∧ n < 0x110000)
        ∧ b.toNat = leadMark (follows n) + n / 64 ^ follows n
        ∧ bs = following (follows n) n ++ rest := by
  simp only [takeContinuations_one_eq_ok_iff, leadByte?_eq_some_iff]
  constructor
  · rintro ⟨missing, bits, hlead, ⟨rfl, rfl⟩, htwo, hthree⟩
    obtain ⟨hfollows, hb, hvalid⟩ : follows n = missing
        ∧ b.toNat = leadMark missing + n / 64 ^ missing
        ∧ (n < 0xD800 ∨ 0xDFFF < n ∧ n < 0x110000) := by
      -- the range of a code point tells the number of its bytes, and the other way round
      have hcases := follows_cases n
      rcases hlead with ⟨rfl, hlead⟩ | ⟨rfl, hlead⟩ | ⟨rfl, hlead⟩ | ⟨rfl, hlead⟩
      all_goals
        simp only [leadMark, Nat.pow_zero, Nat.div_one] at hlead ⊢
        omega
    rw [hfollows]
    exact ⟨hvalid, hb, rfl⟩
  · rintro ⟨hvalid, hb, rfl⟩
    refine ⟨follows n, n / 64 ^ follows n, ?_, ⟨rfl, rfl⟩, ?_⟩
    · rcases follows_cases n with ⟨hn, h⟩ | ⟨hn, hn', h⟩ | ⟨hn, hn', h⟩ | ⟨hn, h⟩
      all_goals
        simp [h, leadMark] at hb ⊢
        omega
    · have hcases := follows_cases n
      refine ⟨fun h => ?_, fun h => ?_⟩
      all_goals
        rw [h]
        omega

theorem exists_char_iff {b : UInt8} {bs rest : List UInt8} {n : Nat} :
    (∃ missing bits, leadByte? b = some (missing, bits)
        ∧ takeContinuations missing bits 1 bs = .ok (n, rest))
      ↔ ∃ c : Char, c.toNat = n ∧ b :: bs = encodeChar c ++ rest := by
  rw [leadByte?_take_iff, ← exists_toNat_eq_iff]
  have hlead : ∀ c : Char, leadMark (follows c.toNat) + c.toNat / 64 ^ follows c.toNat < 256 := by
    intro c
    have hvalid := exists_toNat_eq_iff.mp ⟨c, rfl⟩
    rcases follows_cases c.toNat with ⟨hn, h⟩ | ⟨hn, hn', h⟩ | ⟨hn, hn', h⟩ | ⟨hn, h⟩
    all_goals
      simp only [h, leadMark, Nat.pow_zero, Nat.div_one]
      omega
  constructor
  · rintro ⟨⟨c, rfl⟩, hb, rfl⟩
    refine ⟨c, rfl, ?_⟩
    rw [encodeChar_eq, ← (eq_ofNat_iff (hlead c)).mpr hb]
    rfl
  · rintro ⟨c, rfl, h⟩
    rw [encodeChar_eq] at h
    obtain ⟨hb, rfl⟩ := List.cons.inj h
    exact ⟨⟨c, rfl⟩, (eq_ofNat_iff (hlead c)).mp hb, rfl⟩

/-! ### Texts -/

/-- **Bytes are read as the text they are written for**, and no others are read. -/
theorem decodeFrom_eq_ok_iff {position : Nat} {bs : List UInt8} {cs : List Char} :
    decodeFrom position bs = .ok cs ↔ bs = cs.flatMap encodeChar := by
  -- bytes that hold a text start with those of a character
  have hstart : ∀ {b : UInt8} {bs : List UInt8} {cs : List Char}, b :: bs = cs.flatMap encodeChar →
      ∃ c cs', cs = c :: cs' ∧ ∃ missing bits, leadByte? b = some (missing, bits)
        ∧ takeContinuations missing bits 1 bs = .ok (c.toNat, cs'.flatMap encodeChar) := by
    intro b bs cs h
    cases cs with
    | nil => cases h
    | cons c cs => exact ⟨c, cs, rfl, exists_char_iff.mpr ⟨c, rfl, h⟩⟩
  fun_induction decodeFrom position bs generalizing cs with
  | case1 position =>
    constructor
    · intro h
      cases h
      rfl
    · intro h
      cases cs with
      | nil => rfl
      | cons c cs =>
        rw [List.flatMap_cons, encodeChar_eq] at h
        cases h
  | case2 position b bs hlead =>
    refine ⟨nofun, fun h => ?_⟩
    obtain ⟨c, cs', -, missing, bits, hlead', -⟩ := hstart h
    rw [hlead] at hlead'
    cases hlead'
  | case3 position b bs missing bits hlead error count htake =>
    refine ⟨nofun, fun h => ?_⟩
    obtain ⟨c, cs', -, missing', bits', hlead', htake'⟩ := hstart h
    rw [hlead] at hlead'
    cases hlead'
    rw [htake] at htake'
    cases htake'
  | case4 position b bs missing bits hlead n rest htake ih =>
    constructor
    · intro h
      cases hrest : decodeFrom (position + missing + 1) rest with
      | error fault =>
        rw [hrest] at h
        cases h
      | ok cs' =>
        rw [hrest] at h
        cases h
        obtain ⟨c, rfl, hbytes⟩ := exists_char_iff.mp ⟨missing, bits, hlead, htake⟩
        rw [Char.ofNat_toNat, List.flatMap_cons, hbytes, ← ih.mp hrest]
    · intro h
      obtain ⟨c, cs', rfl, missing', bits', hlead', htake'⟩ := hstart h
      rw [hlead] at hlead'
      cases hlead'
      rw [htake] at htake'
      cases htake'
      rw [ih.mpr rfl, Char.ofNat_toNat]
      rfl

/-- The bytes of a text in UTF-8. -/
def utf8 (s : String) : List UInt8 :=
  s.toUTF8.data.toList

theorem encode_eq_utf8 (s : String) : encode s = utf8 s := by
  have hbytes : s.toUTF8.data.toList = s.toList.flatMap String.utf8EncodeChar := by
    have hlist := String.toByteArray_ofList (l := s.toList)
    rw [String.ofList_toList] at hlist
    rw [String.toUTF8, hlist, List.utf8Encode, List.toList_data_toByteArray]
  rw [utf8, hbytes, encode, funext encodeChar_eq_utf8EncodeChar]

/-- **Bytes are read as a text just when they are its UTF-8.** -/
theorem decode_eq_ok_iff {bs : List UInt8} {cs : List Char} :
    decode bs = .ok cs ↔ bs = utf8 (String.ofList cs) := by
  rw [decode, decodeFrom_eq_ok_iff, ← encode_eq_utf8, encode, String.toList_ofList]

end LeadSheet.Text
