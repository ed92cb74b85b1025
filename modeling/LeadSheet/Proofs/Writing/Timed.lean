import LeadSheet.Proofs.Number.Exact
import LeadSheet.Proofs.Score.Growth

/-!
# Words with a duration added

A duration is written as a plain decimal, and behind a colon that can be added
to any word that has no duration yet: the word says the same with it, and the
duration is the one that was written (`Token.read_timed`).
-/

namespace LeadSheet

open Text

variable {Q : Type} [Quantity Q] {table : Table}

theorem Sound.text_ne_nil_of_read {s : Source} {sound : Sound}
    (h : Sound.read table s = .ok sound) : s.text ≠ [] := by
  intro hnil
  unfold Sound.read at h
  rw [if_neg (by simp [hnil]), if_neg (by simp [hnil]), if_neg (by simp [hnil])] at h
  obtain ⟨c, hc, -⟩ := exists_of_map_eq_ok h
  obtain ⟨root, small, -, -, -, -, cs, -, -, hroot, -⟩ := Chord.exists_parts_of_read hc
  rw [readRoot_eq_ok_iff, hnil] at hroot
  cases hroot

/-- **A duration reads back**: it is written as a plain decimal, and any word
without a duration says the same with this one behind a colon. -/
theorem Token.read_timed (hQ : ReadsBack Q) {line column : Int} {word body : List Char} {x : Q}
    (hx : splitDuration line column word = .ok (body, some x)) :
    (∃ d : Decimal, d.PlainText (beatsText x).toList ∧ Quantity.ofLiteral (.finite d) = x)
    ∧ ∀ (table : Table) (s : Source) (t : Token Q), ':' ∉ s.text → '\n' ∉ s.text →
      s.text.head? ≠ some '@' → Token.read table s = .ok t →
      ∃ sound, t.content = .sound sound none
        ∧ Token.read table { s with text := s.text ++ ':' :: (beatsText x).toList }
          = .ok ⟨.sound sound (some x), String.ofList (s.text ++ ':' :: (beatsText x).toList),
              s.line, s.column⟩ := by
  have hbeats : IsBeats x := isBeats_of_splitDuration hx x rfl
  refine ⟨exists_plainText_beatsText hQ hbeats, fun table s t hcolon hline hhead h => ?_⟩
  obtain ⟨hplain, hread⟩ := beatsText_spec hQ hbeats
  obtain ⟨content, hcontent, rfl⟩ := exists_of_map_eq_ok h
  rw [TokenContent.read_sound table hhead, splitDuration_of_notMem hcolon, ok_bind] at hcontent
  obtain ⟨sound, hsound, rfl⟩ := exists_of_map_eq_ok hcontent
  have hne : s.text ≠ [] := Sound.text_ne_nil_of_read hsound
  have hcolon' : ':' ∉ (beatsText x).toList := fun hm => absurd (hplain ':' hm) (by decide)
  have hhead' : (s.text ++ ':' :: (beatsText x).toList).head? ≠ some '@' := by
    rw [List.head?_append_of_ne_nil _ hne]
    exact hhead
  refine ⟨sound, rfl, ?_⟩
  unfold Token.read
  rw [TokenContent.read_sound table hhead', splitDuration_append hne hline hcolon' hread, ok_bind]
  show ((Sound.read table s).map _).map _ = _
  have hsound : Sound.read table s = .ok sound := hsound
  rw [hsound]
  rfl

/-- A hundred thousandth of a beat, for a chord with a group. -/
theorem Token.read_timed_seventh :
    ReadsBack Rat ∧ ':' ∉ "G7(b9)".toList ∧ '\n' ∉ "G7(b9)".toList
      ∧ splitDuration 1 1 "C:.00001".toList = .ok ("C".toList, some (1 / 100000 : Rat))
      ∧ beatsText (1 / 100000 : Rat) = "0.00001"
      ∧ ∃ (t : Token Rat) (sound : Sound),
        Token.read Table.standard ⟨"G7(b9)".toList, 1, 1⟩ = .ok t ∧ t.content = .sound sound none
        ∧ Token.read Table.standard ⟨"G7(b9):0.00001".toList, 1, 1⟩
          = .ok ⟨.sound sound (some (1 / 100000 : Rat)), "G7(b9):0.00001", 1, 1⟩ := by
  have hQ : ReadsBack Rat := Exact.faithful.readsBack
  have hsplit : (splitDuration 1 1 "C:.00001".toList : Except ReadFault (List Char × Option Rat))
      = .ok ("C".toList, some (1 / 100000 : Rat)) := eq_ok_of_toOption (by decide +kernel)
  have htext : beatsText (1 / 100000 : Rat) = "0.00001" := by decide +kernel
  have hread : (Token.read (Q := Rat) Table.standard
      ⟨"G7(b9)".toList, 1, 1⟩).toOption.isSome = true := by
    decide +kernel
  obtain ⟨t, ht⟩ := Option.isSome_iff_exists.mp hread
  have ht := eq_ok_of_toOption ht
  obtain ⟨sound, hcontent, htimed⟩ := (Token.read_timed hQ hsplit).2 Table.standard
    ⟨"G7(b9)".toList, 1, 1⟩ t (by decide) (by decide) (by decide) ht
  rw [htext] at htimed
  exact ⟨hQ, by decide, by decide, hsplit, htext, t, sound, ht, hcontent, htimed⟩

end LeadSheet
