import LeadSheet.Proofs.Reading.Place
import LeadSheet.Settings.Reader

/-!
# Settings that were looked at

`RawSettings.check` looks at one setting after the other and changes none but
the time signature, which it takes apart (`checked_of_check`).  So the numbers
with a bound are in range (`inRange_of_checkRange`), a beat is finite and lasts
(`duration_of_checkBeatDuration`), and the time signature is a numerator of at
least one over a power of two (`signature_of_checkTimeSignature`).  The numerator
and the power have no upper bound.
-/

namespace LeadSheet

variable {Q : Type} [Quantity Q]

/-! ### Numbers -/

namespace Number

variable {a : Number Q} {m : Int}

theorem atMost_whole (h : a.asInt? = some m) (n : Int) :
    a.atMost (.whole n) = decide (m ≤ n) := by
  unfold atMost combine
  rw [h]
  rfl

theorem whole_atMost (h : a.asInt? = some m) (n : Int) :
    (whole n).atMost a = decide (n ≤ m) := by
  unfold atMost combine
  rw [h]
  rfl

theorem less_whole (h : a.asInt? = some m) (n : Int) : a.less (.whole n) = decide (m < n) := by
  unfold less combine
  rw [h]
  rfl

theorem asInt?_add_whole (h : a.asInt? = some m) (n : Int) :
    (a + .whole n).asInt? = some (m + n) := by
  show (combine (fun m n => whole (m + n)) (fun x y => fraction (x + y)) a (.whole n)).asInt? = _
  unfold combine
  rw [h]
  rfl

def InRange (highest : Nat) (a : Number Q) : Prop :=
  (whole 0).atMost a = true ∧ a.atMost (.whole highest) = true

theorem InRange.whole {highest : Nat} (h : a.InRange highest) (hm : a.asInt? = some m) :
    0 ≤ m ∧ m ≤ highest := by
  obtain ⟨hlow, hhigh⟩ := h
  rw [whole_atMost hm] at hlow
  rw [atMost_whole hm] at hhigh
  exact ⟨of_decide_eq_true hlow, of_decide_eq_true hhigh⟩

end Number

theorem inRange_of_checkRange {x : Setting} {highest : Nat} {v : Value Q} {n : Number Q}
    (h : checkRange x highest v = .ok n) : v = .number n ∧ n.InRange highest := by
  unfold checkRange at h
  split at h
  · split at h
    · rename_i hrange
      cases h
      exact ⟨rfl, by simpa [Number.InRange] using hrange⟩
    · obtain ⟨value, -, h⟩ := exists_of_bind_eq_ok h
      cases h
  · cases h

/-! ### The length of a beat -/

def Number.IsDuration (n : Number Q) : Prop :=
  Quantity.isFinite n.toQuantity = true ∧ n.atMost (.whole 0) = false

theorem duration_of_checkBeatDuration {v : Value Q} {n : Number Q}
    (h : checkBeatDuration v = .ok n) : v = .number n ∧ n.IsDuration := by
  unfold checkBeatDuration at h
  split at h
  · split at h
    · rename_i hfinite
      split at h
      · cases h
      · rename_i hpositive
        cases h
        exact ⟨rfl, hfinite, by simpa using hpositive⟩
    · split at h <;> cases h
  · cases h

/-! ### The time signature -/

theorem signature_of_checkTimeSignature {v : Value Q} {n d : Number Q}
    (h : checkTimeSignature v = .ok (n, d)) : n.less (.whole 1) = false
      ∧ d.less (.whole 1) = false ∧ ∃ i, d.asInt? = some i ∧ isPowerOfTwo i.toNat = true := by
  unfold checkTimeSignature at h
  split at h
  · cases h
  · rename_i m e _
    extract_lets invalid at h
    have hinvalid : invalid ≠ .ok (n, d) := by
      intro he
      obtain ⟨numerator, -, he⟩ := exists_of_bind_eq_ok he
      split at he
      · obtain ⟨denominator, -, he⟩ := exists_of_bind_eq_ok he
        cases he
      · obtain ⟨denominator, -, he⟩ := exists_of_bind_eq_ok he
        cases he
    clear_value invalid
    split at h
    · exact absurd h hinvalid
    · rename_i hm
      split at h
      · rename_i d' _
        split at h
        · exact absurd h hinvalid
        · rename_i hd
          split at h
          · cases h
          · rename_i i hi
            split at h
            · rename_i hpower
              cases h
              exact ⟨by simpa using hm, by simpa using hd, i, hi, hpower⟩
            · exact absurd h hinvalid
      · cases h
  · cases h
  · split at h <;> cases h

/-! ### All settings -/

/-- Settings made of raw ones. -/
structure RawSettings.Checked (raw : RawSettings Q) (settings : Settings Q) : Prop where
  velocity : checkRange .velocity 127 (raw .velocity) = .ok settings.velocity
  bassVelocity : checkRange .bassVelocity 127 (raw .bassVelocity) = .ok settings.bassVelocity
  program : checkRange .program 127 (raw .program) = .ok settings.program
  channel : checkRange .channel 14 (raw .channel) = .ok settings.channel
  beatDuration : checkBeatDuration (raw .beatDuration) = .ok settings.beatDuration
  voicing : checkVoicing (raw .voicing) = .ok settings.voicing
  signature : checkTimeSignature (raw .timeSignature)
    = .ok (settings.numerator, settings.denominator)
  octave : settings.octave = raw .octave

/-- **Looking at settings looks at each of them.** -/
theorem RawSettings.checked_of_check {raw : RawSettings Q} {settings : Settings Q}
    (h : raw.check = .ok settings) : raw.Checked settings := by
  unfold check at h
  obtain ⟨velocity, hvelocity, h⟩ := exists_of_bind_eq_ok h
  obtain ⟨bassVelocity, hbassVelocity, h⟩ := exists_of_bind_eq_ok h
  obtain ⟨program, hprogram, h⟩ := exists_of_bind_eq_ok h
  obtain ⟨channel, hchannel, h⟩ := exists_of_bind_eq_ok h
  obtain ⟨beatDuration, hbeat, h⟩ := exists_of_bind_eq_ok h
  obtain ⟨voicing, hvoicing, h⟩ := exists_of_bind_eq_ok h
  obtain ⟨⟨numerator, denominator⟩, hsignature, h⟩ := exists_of_bind_eq_ok h
  cases h
  exact ⟨hvelocity, hbassVelocity, hprogram, hchannel, hbeat, hvoicing, hsignature, rfl⟩

end LeadSheet
