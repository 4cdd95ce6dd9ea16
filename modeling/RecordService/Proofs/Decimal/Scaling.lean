import Mathlib.Tactic.Ring
import RecordService.Decimal.Scaling
import RecordService.Proofs.Decimal.Rounding
/-!
# Scaling that does not round

A number below 2^53 is a double whatever power of two it is multiplied by, and so are the powers of
ten up to the twenty-second. A word and a power that are both doubles are multiplied or divided
without loss but for the last step, so what comes out is the double nearest to the decimal
(`ofScaled?_eq`). Beyond these bounds it need not be.
-/

namespace RecordService.Decimal

theorem spacing_dvd_scaled {n : Nat} (h : n < 2 ^ 53) (k : Nat) :
    spacing (n * 2 ^ k) ∣ n * 2 ^ k := by
  have hlog : (n * 2 ^ k).log2 - 52 ≤ k := by
    by_cases hzero : n * 2 ^ k = 0
    · rw [hzero]
      simp
    · have hless : n * 2 ^ k < 2 ^ (53 + k) := by
        rw [Nat.pow_add]
        exact Nat.mul_lt_mul_of_pos_right h (Nat.two_pow_pos k)
      have hlog := (Nat.log2_lt hzero).2 hless
      omega
  exact Dvd.dvd.mul_left (Nat.pow_dvd_pow 2 hlog) n

namespace Binary64

theorem nearestUnits_whole {n : Nat} (h : n < 2 ^ 53) (k : Nat) :
    nearestUnits (n * 2 ^ k) 1 = n * 2 ^ k * one := by
  obtain ⟨j, -, hone⟩ := exists_one_eq
  refine nearestUnits_eq Nat.one_pos ?_ (Nat.mul_one _).symm
  rw [hone, Nat.mul_assoc, ← Nat.pow_add]
  exact spacing_dvd_scaled h _

theorem powerUnits_eq {k : Nat} (h : k ≤ 22) : powerUnits k = 10 ^ k * one := by
  have hfive : 5 ^ k < 2 ^ 53 :=
    Nat.lt_of_le_of_lt (Nat.pow_le_pow_right (by decide) h) (by decide)
  have hten : 10 ^ k = 5 ^ k * 2 ^ k := (Nat.mul_pow 5 2 k)
  rw [powerUnits, Nat.pow_eq, hten, nearestUnits_whole hfive]

/-- With a word that is a double and a small power, the nearest double comes out. -/
theorem ofScaled?_eq (negative : Bool) {word : Nat} {exponent : Int} (hword : word < 2 ^ 53)
    (hexponent : exponent.natAbs ≤ 22) :
    ofScaled? negative word exponent = ofDecimal? negative word exponent := by
  have hunits : nearestUnits word 1 = word * one := by
    have hwhole := nearestUnits_whole hword 0
    rwa [Nat.pow_zero, Nat.mul_one] at hwhole
  have hpower : 0 < 10 ^ exponent.natAbs := Nat.pow_pos (by decide)
  rw [ofScaled?, hunits]
  dsimp only
  by_cases hzero : word * one = 0
  · have hnone : word = 0 := (Nat.mul_eq_zero.1 hzero).resolve_right one_pos.ne'
    rw [if_pos hzero, ofDecimal?, if_pos (.inl hnone)]
  · rw [if_neg hzero, ofDecimal?_eq, ofRatio?]
    split
    · next hnegative =>
      have hturns : (exponent.natAbs - 1) / greatestPower = 0 :=
        Nat.div_eq_of_lt (by rw [greatestPower]; omega)
      have hwhole : exponent.toNat = 0 := by omega
      have hplaces : (-exponent).toNat = exponent.natAbs := by omega
      rw [hturns, Nat.mul_zero, Nat.sub_zero, lowered, powerUnits_eq hexponent, hwhole, hplaces,
        Nat.pow_zero, Nat.mul_one]
      exact congrArg _ (nearestUnits_congr (Nat.mul_pos hpower one_pos) hpower (by ring))
    · next hpositive =>
      have hsmall : ¬greatestPower < exponent.natAbs :=
        Nat.not_lt.2 (hexponent.trans (by decide))
      have hplaces : (-exponent).toNat = 0 := by omega
      have hwhole : exponent.toNat = exponent.natAbs := by omega
      rw [if_neg hsmall, powerUnits_eq hexponent, hwhole, hplaces, Nat.pow_zero]
      exact congrArg _ (nearestUnits_congr (Nat.mul_pos one_pos one_pos) Nat.one_pos (by ring))

end Binary64

end RecordService.Decimal
