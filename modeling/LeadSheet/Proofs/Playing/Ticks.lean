import LeadSheet.Number.Quantity
import LeadSheet.Playing.Schedule
import Mathlib.Data.Rat.Floor
import Mathlib.Tactic.Linarith
import Mathlib.Tactic.Ring

/-!
# Ticks

A quarter note has 960 ticks, so the exact ticks of a time are a product
(`Settings.beatTicks`).  Events are at the whole tick nearest to them, a half
going to the even neighbour (`tickAt`); in a file they are cut off (`cutAt`).
Both are said here with floors, apart from the way they are computed
(`ticks_eq_ok`, `toTicks_truncate_eq_ok`).
-/

namespace LeadSheet

/-! ### The nearest whole number -/

/-- **The whole number nearest to a value**, a half going to the even neighbour. -/
def roundEven (x : Rat) : Int :=
  if x - ⌊x⌋ < 1 / 2 then ⌊x⌋
  else if 1 / 2 < x - ⌊x⌋ then ⌊x⌋ + 1
  else ⌊x⌋ + ⌊x⌋ % 2

theorem floor_le_roundEven (x : Rat) : ⌊x⌋ ≤ roundEven x := by
  unfold roundEven
  split_ifs <;> omega

theorem roundEven_le_floor_add_one (x : Rat) : roundEven x ≤ ⌊x⌋ + 1 := by
  unfold roundEven
  split_ifs <;> omega

@[simp] theorem roundEven_intCast (n : Int) : roundEven n = n := by
  simp [roundEven]

theorem roundEven_mono {x y : Rat} (h : x ≤ y) : roundEven x ≤ roundEven y := by
  rcases (Int.floor_mono h).lt_or_eq with hlt | heq
  · have hx := roundEven_le_floor_add_one x
    have hy := floor_le_roundEven y
    omega
  · -- between the same neighbours only the distance from the lower one counts
    have hdistance : x - ⌊y⌋ ≤ y - ⌊y⌋ := sub_le_sub_right h _
    unfold roundEven
    rw [heq]
    split_ifs
    all_goals first | omega | linarith

theorem nearest_eq_roundEven (x : Rat) : nearest x = roundEven x := by
  have hden : (0 : Rat) < x.den := by exact_mod_cast x.den_pos
  have hfloor : ⌊x⌋ = x.num / x.den := Rat.floor_def'
  have hrest : (x - ⌊x⌋) * x.den = (x.num % x.den : Int) := by
    have hnum : (x.num : Rat) = x * x.den := (Rat.mul_den_eq_num x).symm
    rw [Int.emod_def, hfloor]
    push_cast
    rw [hnum]
    ring
  have hbelow : x - ⌊x⌋ < 1 / 2 ↔ 2 * (x.num % x.den) < x.den := by
    rw [← mul_lt_mul_iff_of_pos_right hden, hrest, ← Int.cast_lt (R := Rat)]
    push_cast
    constructor <;> intro h <;> linarith
  have habove : 1 / 2 < x - ⌊x⌋ ↔ x.den < 2 * (x.num % x.den) := by
    rw [← mul_lt_mul_iff_of_pos_right hden, hrest, ← Int.cast_lt (R := Rat)]
    push_cast
    constructor <;> intro h <;> linarith
  unfold nearest nearestQuotient roundEven
  simp only [hbelow, habove]
  rw [hfloor]
  split_ifs with _ _ heven
  · rfl
  · rfl
  · omega
  · omega

/-! ### Cutting off -/

/-- **The whole number left when the places behind the point are cut off.** -/
def cutOff (x : Rat) : Int :=
  if 0 ≤ x then ⌊x⌋ else ⌈x⌉

theorem cutOff_of_nonneg {x : Rat} (h : 0 ≤ x) : cutOff x = ⌊x⌋ :=
  if_pos h

@[simp] theorem cutOff_intCast (n : Int) : cutOff n = n := by
  simp [cutOff]

theorem truncate_eq_cutOff (x : Rat) : truncate x = cutOff x := by
  have hfloor : ∀ y : Rat, 0 ≤ y → truncate y = ⌊y⌋ := by
    intro y hy
    rw [Rat.floor_def']
    exact Int.tdiv_eq_ediv_of_nonneg (Rat.num_nonneg.mpr hy)
  unfold cutOff
  split_ifs with h
  · exact hfloor x h
  · have hneg : truncate (-x) = -truncate x := by
      rw [truncate, Rat.neg_num, Rat.neg_den, Int.neg_tdiv]
      rfl
    rw [hfloor (-x) (by linarith), Int.floor_neg] at hneg
    omega

theorem cutOff_le_roundEven {x : Rat} (h : 0 ≤ x) :
    cutOff x ≤ roundEven x ∧ roundEven x ≤ cutOff x + 1 := by
  rw [cutOff_of_nonneg h]
  exact ⟨floor_le_roundEven x, roundEven_le_floor_add_one x⟩

/-! ### The ticks of a time -/

/-- What a number is worth. -/
def Number.value : Number Rat → Rat
  | .flag b => if b then 1 else 0
  | .whole n => n
  | .fraction x => x

theorem Number.toQuantity_eq_value (n : Number Rat) : n.toQuantity = n.value := by
  cases n with
  | flag b => cases b <;> rfl
  | whole n => rfl
  | fraction x => rfl

/-- The number that is worth one more. -/
def Number.above : Number Rat → Number Rat
  | .flag b => .whole (if b then 2 else 1)
  | .whole n => .whole (n + 1)
  | .fraction x => .fraction (x + 1)

theorem Settings.bassChannel_eq_above (settings : Settings Rat) :
    settings.bassChannel = settings.channel.above := by
  unfold bassChannel
  cases settings.channel with
  | flag b => cases b <;> rfl
  | whole n => rfl
  | fraction x => rfl

/-- **The exact ticks of a beat.** -/
def Settings.beatTicks (settings : Settings Rat) : Rat :=
  960 * settings.beatDuration.value

/-- **The tick of a time in beats** among events. -/
def tickAt (settings : Settings Rat) (beats : Rat) : Int :=
  roundEven (settings.beatTicks * beats)

/-- **The tick of a time in beats** in a file. -/
def cutAt (settings : Settings Rat) (beats : Rat) : Int :=
  cutOff (settings.beatTicks * beats)

theorem ticks_eq_ok (settings : Settings Rat) (beats : Rat) :
    ticks settings beats = .ok (tickAt settings beats) := by
  show Except.ok (nearest (beats * settings.beatDuration.toQuantity * ((960 : Int) : Rat))) = _
  rw [nearest_eq_roundEven, Number.toQuantity_eq_value]
  unfold tickAt Settings.beatTicks
  congr 2
  push_cast
  ring

theorem toTicks_truncate_eq_ok (resolution : Int) (x : Rat) :
    toTicks truncate resolution x = .ok (cutOff (resolution * x)) := by
  show Except.ok (truncate (x * (resolution : Rat))) = _
  rw [truncate_eq_cutOff, mul_comm]

variable {settings : Settings Rat}

theorem tickAt_mono (hbeat : 0 < settings.beatTicks) {x y : Rat} (h : x ≤ y) :
    tickAt settings x ≤ tickAt settings y :=
  roundEven_mono (mul_le_mul_of_nonneg_left h (le_of_lt hbeat))

end LeadSheet
