import RecordService.Proofs.Decimal.Shortest
/-!
# Doubles that are whole numbers

The shortest decimal of a double has no places exactly if the double is a whole number, and then it
is a whole number that is rounded to the double. So it lies on the same side as the double of every
whole number that is a double itself; whether it lies there when the two are equal is seen by
looking.
-/

namespace RecordService.Decimal

open Binary64 (nearestUnits)

/-! ## Whole numbers -/

theorem log2_mul_two_pow {n : Nat} (h : n ≠ 0) (k : Nat) : (n * 2 ^ k).log2 = n.log2 + k := by
  have hne : n * 2 ^ k ≠ 0 := Nat.mul_ne_zero h (Nat.two_pow_pos k).ne'
  rw [Nat.log2_eq_iff hne, Nat.pow_add, Nat.add_right_comm, Nat.pow_add]
  exact ⟨Nat.mul_le_mul_right _ (Nat.log2_self_le h),
    Nat.mul_lt_mul_of_pos_right Nat.lt_log2_self (Nat.two_pow_pos k)⟩

/-- A whole number is rounded to a whole number. -/
theorem one_dvd_nearestUnits (n : Nat) : one ∣ nearestUnits n 1 := by
  obtain ⟨k, hk, hone⟩ := exists_one_eq
  by_cases hn : n = 0
  · rw [hn, Binary64.nearestUnits_eq Nat.one_pos (dvd_zero _) (by simp)]
    exact dvd_zero _
  have hpower : spacing (n * one) = 2 ^ (n.log2 + k - 52) := by
    rw [spacing, hone, log2_mul_two_pow hn]
    rfl
  rcases Nat.lt_or_ge n.log2 52 with hsmall | hlarge
  · -- A number of few binary digits is a double.
    have hspacing : spacing (n * one) ∣ n * one := by
      rw [hpower, hone]
      exact Dvd.dvd.mul_left (Nat.pow_dvd_pow 2 (by omega)) n
    rw [Binary64.nearestUnits_eq Nat.one_pos hspacing (Nat.mul_one _).symm]
    exact Nat.dvd_mul_left _ n
  · -- The others are rounded to multiples of a power of two.
    have hspacing : one ∣ spacing (n * one / 1) := by
      rw [Nat.div_one, hpower, hone]
      exact Nat.pow_dvd_pow 2 (by omega)
    exact Dvd.dvd.mul_left hspacing _

namespace Scaled

/-- A decimal without places is a whole number. -/
def toNat (d : Scaled) : Nat :=
  d.coefficient * 10 ^ d.exponent.toNat

theorem RoundsTo.toNat {d : Scaled} {units : Nat} (h : d.RoundsTo units) (hd : 0 ≤ d.exponent) :
    nearestUnits d.toNat 1 = units := by
  have hplaces : (-d.exponent).toNat = 0 := by omega
  rw [RoundsTo, hplaces, Nat.pow_zero] at h
  exact h

end Scaled

section
variable {units : Nat} (hunits : spacing units ∣ units) (tie : Tie)
include hunits

/-- The shortest decimal has no places exactly if the double is a whole number. -/
theorem exponent_shortest_nonneg : 0 ≤ (shortest tie units).exponent ↔ one ∣ units := by
  constructor
  · intro h
    rw [← (shortest_roundsTo hunits tie).toNat h]
    exact one_dvd_nearestUnits _
  · rintro ⟨n, hn⟩
    by_cases h : units = 0
    · rw [shortest, if_pos h]
    have hfine : fine units = n * scale := by
      rw [hn, ← fine_one, fine, fine, Nat.mul_comm one, Nat.mul_assoc]
    obtain ⟨places, hplaces, hscale, -⟩ := exists_scale_eq
    have hlength : places < (Nat.toDigits 10 (fine units)).length := by
      by_contra hshort
      have hless := (Nat.length_toDigits_le_iff (by decide) (by omega)).1 (Nat.le_of_not_lt hshort)
      have hn0 : n ≠ 0 := by rintro rfl; exact h (by simpa using hn)
      rw [hfine, hscale] at hless
      exact absurd (Nat.le_mul_of_pos_left _ (Nat.pos_of_ne_zero hn0)) (Nat.not_le_of_lt hless)
    obtain ⟨m, i, hsearch, hle, -⟩ := search_eq hunits tie
      (show places ≤ (Nat.toDigits 10 (fine units)).length - 1 by omega) (m := n)
      (by rw [← hscale, ← hfine]; exact roundsTo_fine hunits)
    rw [shortest, if_neg h, hsearch]
    refine le_trans ?_ (Scaled.exponent_le_trim _)
    show 0 ≤ (i : Int) - 1074
    omega

/-- A whole number is the shortest decimal's own, and the double lies on the same side of a bound
that is a double too; at the bound itself, it is to be seen where the decimal lies. -/
theorem toNat_shortest_lt {bound : Nat} (h : one ∣ units)
    (hbound : spacing (bound * one) ∣ bound * one)
    (hself : bound ≤ (shortest tie (bound * one)).toNat) :
    (shortest tie units).toNat < bound ↔ units < bound * one := by
  have hround := (shortest_roundsTo hunits tie).toNat ((exponent_shortest_nonneg hunits tie).2 h)
  constructor
  · intro hless
    have hle : units ≤ bound * one := by
      rw [← hround]
      exact Binary64.nearestUnits_le Nat.one_pos hbound
        (by rw [Nat.mul_one]; exact Nat.mul_le_mul_right _ hless.le)
    refine hle.lt_of_ne fun heq => ?_
    rw [heq] at hless
    omega
  · intro hless
    by_contra hle
    have hunitsle : bound * one ≤ units := by
      rw [← hround]
      exact Binary64.le_nearestUnits Nat.one_pos hbound
        (by rw [Nat.mul_one]; exact Nat.mul_le_mul_right _ (Nat.le_of_not_lt hle))
    omega

/-- A bound that is a double is no double's shortest decimal unless it is its own. -/
theorem toNat_shortest_ne {bound : Nat} (h : one ∣ units)
    (hbound : spacing (bound * one) ∣ bound * one)
    (hself : (shortest tie (bound * one)).toNat ≠ bound) : (shortest tie units).toNat ≠ bound := by
  have hround := (shortest_roundsTo hunits tie).toNat ((exponent_shortest_nonneg hunits tie).2 h)
  rintro heq
  have hunitseq : units = bound * one := by
    rw [← hround, heq]
    exact Binary64.nearestUnits_eq Nat.one_pos hbound (Nat.mul_one _).symm
  rw [hunitseq] at heq
  exact hself heq

end

end RecordService.Decimal
