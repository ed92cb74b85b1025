import LeadSheet.Proofs.Writing.Root
import LeadSheet.Score.Printer
import LeadSheet.Token.Reader
import Mathlib.Algebra.Ring.Nat

/-!
# Written durations read back

A number of beats is written as a plain decimal (`Decimal.PlainText`), without
an exponent, and reading it gives a decimal of the same value
(`exists_plainText_positional`).

What a decimal stands for is up to the quantity.  A quantity is `Faithful` if
a decimal is read by its value alone, if the shortest literal of a duration
and its exact value read back, and if durations of equal value are the same.
For a duration to read back from its text less is enough (`ReadsBack`,
`beatsText_spec`).
-/

namespace LeadSheet

open Text

/-! ### Digits -/

theorem digitChars_eq_toDigits (n : Nat) : digitChars n = Nat.toDigits 10 n := by
  have hdigit : ∀ d : Fin 10, digitChar d = Nat.digitChar d := by decide
  unfold digitChars
  fun_induction digits n with
  | case1 n h =>
    rw [Nat.toDigits_of_lt_base h]
    exact congrArg (fun c => [c]) (hdigit ⟨n, h⟩)
  | case2 n h ih =>
    have hmod : n % 10 < 10 := Nat.mod_lt n (by decide)
    rw [List.map_append, ih, Nat.toDigits_eq_if (n := n) (by decide), if_neg h]
    exact congrArg (fun c => Nat.toDigits 10 (n / 10) ++ [c]) (hdigit ⟨n % 10, hmod⟩)

theorem foldl_zeros : ∀ n x : Nat,
    (List.replicate n 0).foldl (fun n d => 10 * n + d) x = x * 10 ^ n := by
  intro n
  induction n with
  | zero => intro x; simp
  | succ n ih =>
    intro x
    rw [List.replicate_succ, List.foldl_cons, ih, Nat.add_zero, Nat.pow_succ, Nat.mul_comm 10 x,
      Nat.mul_assoc, Nat.mul_comm 10]

theorem ofDigits_append_zeros (ds : List Nat) (n : Nat) :
    ofDigits (ds ++ List.replicate n 0) = ofDigits ds * 10 ^ n := by
  rw [ofDigits, List.foldl_append, foldl_zeros]
  rfl

theorem ofDigits_zeros_append (ds : List Nat) (n : Nat) :
    ofDigits (List.replicate n 0 ++ ds) = ofDigits ds := by
  rw [ofDigits, List.foldl_append, foldl_zeros, Nat.zero_mul]
  rfl

theorem zeroChars_eq (n : Nat) : zeroChars n = (List.replicate n 0).map digitChar := by
  rw [List.map_replicate]
  rfl

theorem takeDigits_digits {ds : List Nat} (h : ∀ d ∈ ds, d < 10) :
    takeDigits (ds.map digitChar) = (ds, []) := by
  rw [← List.append_nil (ds.map digitChar)]
  exact takeDigits_append h fun c hc => by cases hc

theorem readPlain?_digits {ds : List Nat} (hne : ds ≠ []) (h : ∀ d ∈ ds, d < 10) :
    readPlain? (ds.map digitChar) = some ⟨false, ofDigits ds, 0⟩ := by
  have hempty : ds.isEmpty = false := by simpa using hne
  unfold readPlain?
  rw [takeDigits_digits h]
  simp [hempty]

theorem readPlain?_point {ds es : List Nat} (hes : es ≠ [])
    (hd : ∀ d ∈ ds, d < 10) (he : ∀ d ∈ es, d < 10) :
    readPlain? (ds.map digitChar ++ '.' :: es.map digitChar)
      = some ⟨false, ofDigits (ds ++ es), -es.length⟩ := by
  have hwhole : takeDigits (ds.map digitChar ++ '.' :: es.map digitChar)
      = (ds, '.' :: es.map digitChar) := by
    refine takeDigits_append hd fun c hc => ?_
    obtain rfl := Option.some.inj hc
    decide
  have hempty : es.isEmpty = false := by simpa using hes
  unfold readPlain?
  rw [hwhole]
  simp [takeDigits_digits he, hempty]

/-- **The plain texts of a decimal**: its digits, with a point and more digits
behind them or just those. -/
inductive Decimal.PlainText : Decimal → List Char → Prop
  | whole {ds : List Nat} (hne : ds ≠ []) (h : ∀ d ∈ ds, d < 10) :
      PlainText ⟨false, ofDigits ds, 0⟩ (ds.map digitChar)
  | point {ds es : List Nat} (hds : ds ≠ []) (hes : es ≠ []) (hd : ∀ d ∈ ds, d < 10)
      (he : ∀ d ∈ es, d < 10) :
      PlainText ⟨false, ofDigits (ds ++ es), -es.length⟩
        (ds.map digitChar ++ '.' :: es.map digitChar)

namespace Decimal.PlainText

variable {d : Decimal} {cs : List Char}

theorem negative (h : d.PlainText cs) : d.negative = false := by
  cases h <;> rfl

theorem readPlain? (h : d.PlainText cs) : LeadSheet.readPlain? cs = some d := by
  cases h with
  | whole hne h => exact readPlain?_digits hne h
  | point _ hes hd he => exact readPlain?_point hes hd he

theorem isPlain (h : d.PlainText cs) : ∀ c ∈ cs, LeadSheet.isPlain c = true := by
  have hdigits : ∀ {ds : List Nat}, (∀ d ∈ ds, d < 10) →
      ∀ c ∈ ds.map digitChar, LeadSheet.isPlain c = true := by
    have hdigit : ∀ d : Fin 10, LeadSheet.isPlain (digitChar d) = true := by decide
    intro ds hds c hc
    obtain ⟨d, hd, rfl⟩ := List.mem_map.mp hc
    exact hdigit ⟨d, hds d hd⟩
  intro c hc
  cases h with
  | whole _ h => exact hdigits h c hc
  | point _ _ hd he =>
    rcases List.mem_append.mp hc with hc | hc
    · exact hdigits hd c hc
    · rcases List.mem_cons.mp hc with rfl | hc
      · decide
      · exact hdigits he c hc

end Decimal.PlainText

theorem toRat_natExponent (c n : Nat) :
    Decimal.toRat ⟨false, c * 10 ^ n, 0⟩ = Decimal.toRat ⟨false, c, n⟩ := by
  simp only [Decimal.toRat, Rat.zpow_zero, Rat.zpow_natCast]
  grind

theorem plainText_pointed {ds : List Nat} (h : ∀ d ∈ ds, d < 10) {places : Nat}
    (hplaces : 0 < places) : (⟨false, ofDigits ds, -places⟩ : Decimal).PlainText
      (Decimal.pointed (ds.map digitChar) places) := by
  unfold Decimal.pointed
  rw [List.length_map]
  by_cases hlong : places < ds.length
  · have htake : (ds.take (ds.length - places)).length = ds.length - places := by
      rw [List.length_take]
      omega
    have hdrop : (ds.drop (ds.length - places)).length = places := by
      rw [List.length_drop]
      omega
    have hplain := Decimal.PlainText.point (List.ne_nil_of_length_pos (by rw [htake]; omega))
      (List.ne_nil_of_length_pos (by rw [hdrop]; exact hplaces)) (fun d hd => h d (List.mem_of_mem_take hd))
      fun d hd => h d (List.mem_of_mem_drop hd)
    rw [List.take_append_drop, hdrop] at hplain
    rw [if_pos hlong, ← List.map_take, ← List.map_drop]
    exact hplain
  -- the digits do not reach up to the point
  · have hlength : (List.replicate (places - ds.length) 0 ++ ds).length = places := by
      rw [List.length_append, List.length_replicate]
      omega
    have hall : ∀ d ∈ List.replicate (places - ds.length) 0 ++ ds, d < 10 := by
      intro d hd
      rcases List.mem_append.mp hd with hd | hd
      · rw [List.eq_of_mem_replicate hd]; decide
      · exact h d hd
    have hvalue : ofDigits ([0] ++ (List.replicate (places - ds.length) 0 ++ ds)) = ofDigits ds :=
      ofDigits_zeros_append ds (places - ds.length)
    have hplain := Decimal.PlainText.point (List.cons_ne_nil 0 [])
      (List.ne_nil_of_length_pos (by rw [hlength]; exact hplaces)) (by simp) hall
    rw [hvalue, hlength, List.map_append, ← zeroChars_eq] at hplain
    rw [if_neg hlong]
    exact hplain

theorem exists_plainText_positional {d : Decimal} (h : d.negative = false) :
    ∃ e : Decimal, e.PlainText d.positional.toList ∧ e.toRat = d.toRat := by
  obtain ⟨negative, c, exponent⟩ := d
  obtain rfl : negative = false := h
  have htext : (Decimal.positional ⟨false, c, exponent⟩).toList
      = Decimal.positionalChars c exponent := by
    simp [Decimal.positional, Decimal.signChars]
  have hdigits : ∀ d ∈ digits c, d < 10 := fun d hd => lt_ten_of_mem_digits hd
  rw [htext]
  unfold Decimal.positionalChars
  by_cases hneg : exponent < 0
  · obtain ⟨places, rfl⟩ : ∃ places : Nat, exponent = -(places : Int) :=
      ⟨(-exponent).toNat, by omega⟩
    have hplain := plainText_pointed hdigits (show 0 < places by omega)
    rw [ofDigits_digits] at hplain
    rw [if_pos hneg, Int.neg_neg, Int.toNat_natCast]
    exact ⟨_, hplain, rfl⟩
  · obtain ⟨n, rfl⟩ : ∃ n : Nat, exponent = n := ⟨exponent.toNat, by omega⟩
    have hall : ∀ d ∈ digits c ++ List.replicate n 0, d < 10 := by
      intro d hd
      rcases List.mem_append.mp hd with hd | hd
      · exact hdigits d hd
      · rw [List.eq_of_mem_replicate hd]; decide
    have hplain := Decimal.PlainText.whole (by simp [digits_ne_nil]) hall
    rw [ofDigits_append_zeros, ofDigits_digits, List.map_append, ← zeroChars_eq] at hplain
    rw [if_neg hneg, Int.toNat_natCast]
    exact ⟨_, hplain, toRat_natExponent c n⟩

theorem plainText_toString (n : Nat) : (Decimal.ofNat n).PlainText (toString (n : Int)).toList := by
  have htext : (toString (n : Int)).toList = (digits n).map digitChar := by
    show (Nat.repr n).toList = _
    rw [Nat.toList_repr, ← digitChars_eq_toDigits]
    rfl
  have hplain := Decimal.PlainText.whole (digits_ne_nil n) fun d hd => lt_ten_of_mem_digits hd
  rw [ofDigits_digits] at hplain
  rw [htext]
  exact hplain

/-! ### Durations -/

section

variable {Q : Type} [Quantity Q]

structure IsBeats (x : Q) : Prop where
  decimal : ∃ d : Decimal, d.negative = false ∧ Quantity.ofLiteral (.finite d) = x
  positive : Quantity.atMost x (Quantity.ofInt 0) = false
  bounded : Quantity.less (Quantity.ofInt maxDuration) x = false

variable (Q) in
/-- A quantity whose durations are written faithfully. -/
structure Faithful : Prop where
  /-- A decimal is read by its value. -/
  alike : ∀ d e : Decimal, d.negative = false → e.negative = false → d.toRat = e.toRat →
    (Quantity.ofLiteral (.finite d) : Q) = Quantity.ofLiteral (.finite e)
  /-- The shortest literal of a duration reads back. -/
  shown : ∀ x : Q, IsBeats x → ∃ d : Decimal, d.negative = false
    ∧ Quantity.toLiteral x = .finite d ∧ Quantity.ofLiteral (.finite d) = x
  /-- The exact value of a duration reads back. -/
  exact : ∀ (x : Q) (r : Rat), IsBeats x → Quantity.toRat? x = some r → 0 ≤ r
    ∧ ∀ d : Decimal, d.negative = false → d.toRat = r → Quantity.ofLiteral (.finite d) = x
  /-- A duration of the usual value is the usual one. -/
  usual : ∀ x : Q, IsBeats x → sameQuantity x usualDuration = true → x = usualDuration
  usual_self : sameQuantity (usualDuration : Q) usualDuration = true

variable (Q) in
/-- A quantity whose durations read back: a decimal is read by its value, the
shortest literal of a duration reads back, and so do the digits of a whole one. -/
structure ReadsBack : Prop where
  alike : ∀ d e : Decimal, d.negative = false → e.negative = false → d.toRat = e.toRat →
    (Quantity.ofLiteral (.finite d) : Q) = Quantity.ofLiteral (.finite e)
  shown : ∀ x : Q, IsBeats x → ∃ d : Decimal, d.negative = false
    ∧ Quantity.toLiteral x = .finite d ∧ Quantity.ofLiteral (.finite d) = x
  whole : ∀ (x : Q) (n : Int), IsBeats x → Quantity.toRat? x = some (n : Rat) →
    ∃ m : Nat, n = m ∧ Quantity.ofLiteral (.finite (Decimal.ofNat m)) = x

theorem Faithful.readsBack (hQ : Faithful Q) : ReadsBack Q where
  alike := hQ.alike
  shown := hQ.shown
  whole x n hx hn := by
    obtain ⟨hpos, hexact⟩ := hQ.exact x n hx hn
    obtain ⟨m, rfl⟩ : ∃ m : Nat, n = m := ⟨n.toNat, by
      have := Rat.intCast_nonneg.mp hpos
      omega⟩
    refine ⟨m, rfl, hexact (Decimal.ofNat m) rfl ?_⟩
    have hvalue : (Decimal.ofNat m).toRat = (m : Rat) := by simp [Decimal.toRat, Decimal.ofNat]
    exact hvalue.trans (Rat.ext rfl rfl)

theorem readPlain?_negative {cs : List Char} {d : Decimal} (h : readPlain? cs = some d) :
    d.negative = false := by
  unfold readPlain? at h
  dsimp only at h
  split at h
  · split at h
    · cases h
    · cases h; rfl
  · split at h
    · cases h
    · cases h; rfl
  · cases h

theorem isBeats_of_readBeats {cs : List Char} {x : Q} (h : readBeats cs = .ok x) : IsBeats x := by
  unfold readBeats at h
  split at h
  · cases h
  · rename_i d hd
    dsimp only at h
    split at h
    · cases h
    · rename_i hpositive
      split at h
      · cases h
      · rename_i hbounded
        cases h
        exact ⟨⟨d, readPlain?_negative hd, rfl⟩, by simpa using hpositive, by simpa using hbounded⟩

theorem readBeats_of_readPlain? {cs : List Char} {d : Decimal} {x : Q} (hx : IsBeats x)
    (hline : '\n' ∉ cs) (hd : readPlain? cs = some d)
    (hvalue : Quantity.ofLiteral (.finite d) = x) : readBeats cs = .ok x := by
  have hdrop : dropLineFeed cs = cs := by
    unfold dropLineFeed
    rw [if_neg]
    intro hlast
    exact hline (List.mem_of_getLast? hlast)
  unfold readBeats
  rw [hdrop, hd]
  dsimp only
  rw [hvalue, if_neg (by simp [hx.positive]), if_neg (by simp [hx.bounded])]

/-- **A duration is written in plain text**, as a decimal that it is read from. -/
theorem exists_plainText_beatsText (hQ : ReadsBack Q) {x : Q} (hx : IsBeats x) :
    ∃ d : Decimal, d.PlainText (beatsText x).toList ∧ Quantity.ofLiteral (.finite d) = x := by
  have hpositional : ∃ d : Decimal, d.PlainText (Quantity.toLiteral x).positional.toList
      ∧ Quantity.ofLiteral (.finite d) = x := by
    obtain ⟨d, hneg, hlit, hread⟩ := hQ.shown x hx
    obtain ⟨e, he, hvalue⟩ := exists_plainText_positional hneg
    rw [hlit]
    exact ⟨e, he, (hQ.alike e d he.negative hneg hvalue).trans hread⟩
  unfold beatsText
  cases hr : Quantity.toRat? x with
  | none => exact hpositional
  | some r =>
    dsimp only
    by_cases hden : r.den = 1
    · have hnum : r = (r.num : Rat) := Rat.ext rfl hden
      obtain ⟨m, hm, hread⟩ := hQ.whole x r.num hx (hr.trans (congrArg some hnum))
      rw [if_pos hden, hm]
      exact ⟨Decimal.ofNat m, plainText_toString m, hread⟩
    · rw [if_neg hden]
      exact hpositional

theorem beatsText_spec (hQ : ReadsBack Q) {x : Q} (hx : IsBeats x) :
    (∀ c ∈ (beatsText x).toList, isPlain c = true) ∧ readBeats (beatsText x).toList = .ok x := by
  obtain ⟨d, htext, hread⟩ := exists_plainText_beatsText hQ hx
  have hline : '\n' ∉ (beatsText x).toList := fun hm => absurd (htext.isPlain '\n' hm) (by decide)
  exact ⟨htext.isPlain, readBeats_of_readPlain? hx hline htext.readPlain? hread⟩

/-! ### Words with a duration -/

theorem splitColon_eq_none {cs : List Char} (h : ':' ∉ cs) : splitColon cs = none := by
  cases hs : splitColon cs with
  | none => rfl
  | some r =>
    obtain ⟨body, value⟩ := r
    have heq := (splitColon_eq_some.mp hs).1
    exact absurd (by rw [heq]; simp) h

theorem splitDuration_of_notMem {line column : Int} {w : List Char} (h : ':' ∉ w) :
    (splitDuration line column w : Except ReadFault (List Char × Option Q)) = .ok (w, none) := by
  unfold splitDuration
  rw [splitColon_eq_none h]

theorem splitDuration_append {line column : Int} {w value : List Char} {x : Q} (hne : w ≠ [])
    (hline : '\n' ∉ w) (hcolon : ':' ∉ value) (hread : readBeats value = .ok x) :
    splitDuration line column (w ++ ':' :: value) = .ok (w, some x) := by
  have hsplit : splitColon (w ++ ':' :: value) = some (w, value) :=
    splitColon_eq_some.mpr ⟨rfl, hcolon⟩
  unfold splitDuration
  rw [hsplit]
  dsimp only
  rw [if_neg (by simp [hne, hline]), hread]

end

end LeadSheet
