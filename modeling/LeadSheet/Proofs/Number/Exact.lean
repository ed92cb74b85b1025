import LeadSheet.Number.Quantity
import LeadSheet.Proofs.Writing.Beats
import Mathlib.Data.Nat.Prime.Basic
import Mathlib.Data.Rat.Lemmas
import Mathlib.Tactic.FieldSimp
import Mathlib.Tactic.Ring

/-!
# Rationals are written faithfully

A rational with a finite decimal is written in full: its denominator divides a
power of ten, and then it divides one with an exponent of at most its number of
bits (`dvd_pow_log2`), which is as far as `Exact.places` looks.  So the decimal
it is written as has its value (`Exact.toRat_toDecimal`), and the rationals are
a faithful quantity (`Exact.faithful`).
-/

namespace LeadSheet

theorem le_log2_of_pow_dvd {p a n : Nat} (hp : 2 ≤ p) (hn : n ≠ 0) (h : p ^ a ∣ n) :
    a ≤ n.log2 := by
  rw [Nat.le_log2 hn]
  exact Nat.le_trans (Nat.pow_le_pow_left hp a) (Nat.le_of_dvd (Nat.pos_of_ne_zero hn) h)

/-- A number that divides a power of ten divides one with an exponent of at
most its bits. -/
theorem dvd_pow_log2 {n k : Nat} (hn : n ≠ 0) (h : n ∣ 10 ^ k) : n ∣ 10 ^ n.log2 := by
  have hcoprime : Nat.Coprime (2 ^ k) (5 ^ k) := Nat.Coprime.pow k k (by decide)
  have hgcd : n.gcd (2 ^ k) * n.gcd (5 ^ k) = n := by
    rw [← Nat.Coprime.gcd_mul n hcoprime, ← Nat.mul_pow]
    exact Nat.gcd_eq_left h
  obtain ⟨a, -, ha⟩ := (Nat.dvd_prime_pow Nat.prime_two).mp (Nat.gcd_dvd_right n (2 ^ k))
  obtain ⟨b, -, hb⟩ := (Nat.dvd_prime_pow Nat.prime_five).mp (Nat.gcd_dvd_right n (5 ^ k))
  have ha' : a ≤ n.log2 := le_log2_of_pow_dvd (by decide) hn (ha ▸ Nat.gcd_dvd_left n (2 ^ k))
  have hb' : b ≤ n.log2 := le_log2_of_pow_dvd (by decide) hn (hb ▸ Nat.gcd_dvd_left n (5 ^ k))
  have hten : (10 : Nat) ^ n.log2 = 2 ^ n.log2 * 5 ^ n.log2 := by
    rw [← Nat.mul_pow]
  rw [hten]
  calc n = 2 ^ a * 5 ^ b := by rw [← ha, ← hb, hgcd]
    _ ∣ 2 ^ n.log2 * 5 ^ n.log2 := Nat.mul_dvd_mul (Nat.pow_dvd_pow 2 ha') (Nat.pow_dvd_pow 5 hb')

theorem Decimal.toRat_normalize (negative : Bool) (coefficient : Nat) (exponent : Int) :
    (normalize negative coefficient exponent).toRat = toRat ⟨negative, coefficient, exponent⟩ := by
  fun_induction normalize negative coefficient exponent with
  | case1 c e h ih =>
    have hc : c = c / 10 * 10 := by omega
    have hcast : (c : Rat) = (c / 10 : Nat) * 10 := by
      conv_lhs => rw [hc]
      push_cast
      rfl
    rw [ih]
    simp only [toRat]
    rw [hcast, Rat.zpow_add_one (by decide)]
    ring
  | case2 => rfl

namespace Exact

theorem dvd_places {x : Rat} {k : Nat} (h : x.den ∣ 10 ^ k) : x.den ∣ 10 ^ places x := by
  unfold places
  cases hfind : (List.range (x.den.log2 + 1)).find? fun k => Nat.pow 10 k % x.den = 0 with
  | none => exact dvd_pow_log2 x.den_nz h
  | some n =>
    have hn := List.find?_some hfind
    exact Nat.dvd_of_mod_eq_zero (by simpa using hn)

theorem toRat_toDecimal {x : Rat} (hx : 0 ≤ x) {k : Nat} (h : x.den ∣ 10 ^ k) :
    (toDecimal x).toRat = x := by
  obtain ⟨m, hm⟩ := dvd_places h
  have hden : (x.den : Rat) ≠ 0 := by exact_mod_cast x.den_nz
  have hnegative : decide (x < 0) = false := decide_eq_false (Rat.not_lt.mpr hx)
  have hnum : (x.num.natAbs : Rat) = x.num := by
    have := Rat.num_nonneg.mpr hx
    rw [← Int.cast_natCast, Int.natAbs_of_nonneg this]
  have hquotient : x.num.natAbs * Nat.pow 10 (places x) / x.den = x.num.natAbs * m := by
    show x.num.natAbs * 10 ^ places x / x.den = _
    rw [hm, ← Nat.mul_assoc, Nat.mul_comm x.num.natAbs, Nat.mul_assoc]
    exact Nat.mul_div_cancel_left _ x.den_pos
  have hpow : (10 : Rat) ^ places x = x.den * m := by exact_mod_cast hm
  have hten : (10 : Rat) ^ places x ≠ 0 := by
    exact Rat.ne_of_gt (Rat.pow_pos (by decide))
  unfold toDecimal
  rw [Decimal.toRat_normalize, hnegative, hquotient]
  simp only [Decimal.toRat, Bool.false_eq_true, if_false, Rat.zpow_neg, Rat.zpow_natCast]
  rw [Nat.cast_mul, hnum]
  calc (1 : Rat) * (x.num * m) * (10 ^ places x)⁻¹ = x.num * m / (x.den * m) := by
        rw [hpow]; ring
    _ = x.num / x.den := by
        have hmne : (m : Rat) ≠ 0 := by
          intro hm0
          rw [hm0, mul_zero] at hpow
          exact hten hpow
        field_simp
    _ = x := Rat.num_div_den x

theorem exists_den_dvd {d : Decimal} (h : d.negative = false) : ∃ k, d.toRat.den ∣ 10 ^ k := by
  obtain ⟨negative, c, e⟩ := d
  obtain rfl : negative = false := h
  by_cases hneg : e < 0
  · obtain ⟨k, rfl⟩ : ∃ k : Nat, e = -(k : Int) := ⟨(-e).toNat, by omega⟩
    refine ⟨k, ?_⟩
    have hvalue : Decimal.toRat ⟨false, c, -(k : Int)⟩ = Rat.divInt c (10 ^ k : Nat) := by
      rw [Rat.divInt_eq_div]
      simp only [Decimal.toRat, Bool.false_eq_true, if_false, Rat.zpow_neg, Rat.zpow_natCast]
      push_cast
      ring
    rw [hvalue]
    exact_mod_cast Rat.den_dvd c (10 ^ k : Nat)
  · obtain ⟨k, rfl⟩ : ∃ k : Nat, e = k := ⟨e.toNat, by omega⟩
    refine ⟨0, ?_⟩
    have hvalue : Decimal.toRat ⟨false, c, k⟩ = ((c * 10 ^ k : Nat) : Rat) := by
      simp only [Decimal.toRat, Bool.false_eq_true, if_false, Rat.zpow_natCast]
      push_cast
      ring
    rw [hvalue, Rat.den_natCast]
    exact Nat.one_dvd _

theorem nonneg_of_isBeats {x : Rat} (hx : IsBeats x) : 0 ≤ x := by
  have h : ¬ x ≤ ((0 : Int) : Rat) := of_decide_eq_false hx.positive
  rcases Rat.le_total (a := x) (b := 0) with hle | hle
  · exact absurd hle h
  · exact hle

/-- **The rationals are a faithful quantity.** -/
theorem faithful : Faithful Rat where
  alike d e _ _ h := h
  shown x hx := by
    have hpositive := nonneg_of_isBeats hx
    obtain ⟨d, hd, rfl⟩ := hx.decimal
    obtain ⟨k, hk⟩ := exists_den_dvd hd
    refine ⟨toDecimal d.toRat, ?_, rfl, toRat_toDecimal hpositive hk⟩
    unfold toDecimal
    rw [Decimal.normalize_negative]
    exact decide_eq_false (Rat.not_lt.mpr hpositive)
  exact x r hx hr := by
    obtain rfl : x = r := Option.some.inj hr
    exact ⟨nonneg_of_isBeats hx, fun d _ hd => hd⟩
  usual x _ h := by
    obtain ⟨h₁, h₂⟩ := Bool.and_eq_true_iff.mp h
    exact Rat.le_antisymm (of_decide_eq_true h₁) (of_decide_eq_true h₂)
  usual_self := by decide

end Exact

end LeadSheet
