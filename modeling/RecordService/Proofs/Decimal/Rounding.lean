import Mathlib.Algebra.Order.Ring.Nat
import Mathlib.Tactic.Linarith
import RecordService.Decimal.Binary64
/-!
# Rounding to doubles

Where a quotient is rounded to follows from where it lies between doubles: it never passes one on
its way (`le_nearestUnits`, `nearestUnits_le`), so a double is rounded to itself, and what lies
between two quotients that are rounded to the same double is rounded to it too. No quotient is
further from its double than half the distance between neighbours there. Only the quotient counts,
and not its terms.
-/

namespace RecordService.Decimal

/-! ## Quotients rounded to whole numbers -/

section RoundDiv
variable (tie : Tie) {n n' d q : Nat}

theorem div_le_roundDiv (n d : Nat) : n / d ≤ roundDiv tie n d := by
  unfold roundDiv
  cases tie <;> grind

theorem roundDiv_le_div (n d : Nat) : roundDiv tie n d ≤ n / d + 1 := by
  unfold roundDiv
  cases tie <;> grind

theorem le_roundDiv (hd : 0 < d) (h : q * d ≤ n) : q ≤ roundDiv tie n d :=
  ((Nat.le_div_iff_mul_le hd).2 h).trans (div_le_roundDiv tie n d)

theorem roundDiv_le (hd : 0 < d) (h : n ≤ q * d) : roundDiv tie n d ≤ q := by
  rcases h.lt_or_eq with hlt | rfl
  · exact (roundDiv_le_div tie n d).trans ((Nat.div_lt_iff_lt_mul hd).2 hlt)
  · simp [roundDiv, Nat.mul_div_cancel _ hd, hd]

theorem roundDiv_mono (d : Nat) (h : n ≤ n') : roundDiv tie n d ≤ roundDiv tie n' d := by
  rcases (Nat.div_le_div_right h : n / d ≤ n' / d).lt_or_eq with hlt | heq
  · have hsucc : n / d + 1 ≤ n' / d := hlt
    exact (roundDiv_le_div tie n d).trans (hsucc.trans (div_le_roundDiv tie n' d))
  · -- With the same whole part, the remainders are in the order of the numbers.
    have hmod : n % d ≤ n' % d := by
      have hn := Nat.div_add_mod n d
      have hn' := Nat.div_add_mod n' d
      rw [heq] at hn
      omega
    unfold roundDiv
    rw [heq]
    cases tie <;> grind

/-- No quotient is further than half of one from what it is rounded to. -/
theorem roundDiv_near (hd : 0 < d) (n : Nat) :
    2 * (roundDiv tie n d * d) ≤ 2 * n + d ∧ 2 * n ≤ 2 * (roundDiv tie n d * d) + d := by
  have hn : n / d * d + n % d = n := by rw [Nat.mul_comm, Nat.div_add_mod]
  have hmod := Nat.mod_lt n hd
  have hsucc : (n / d + 1) * d = n / d * d + d := Nat.succ_mul ..
  unfold roundDiv
  dsimp only
  split
  · omega
  · split
    · omega
    · cases tie with
      | up => dsimp only; omega
      | toEven => dsimp only; split <;> omega

theorem roundDiv_mul_left {k : Nat} (hk : 0 < k) (n d : Nat) :
    roundDiv tie (k * n) (k * d) = roundDiv tie n d := by
  have hless : ∀ a b, 2 * (k * a) < k * b ↔ 2 * a < b := fun a b => by
    rw [Nat.mul_left_comm, Nat.mul_lt_mul_left hk]
  have hmore : ∀ a b, k * b < 2 * (k * a) ↔ b < 2 * a := fun a b => by
    rw [Nat.mul_left_comm, Nat.mul_lt_mul_left hk]
  simp only [roundDiv, Nat.mul_div_mul_left _ _ hk, Nat.mul_mod_mul_left, hless, hmore]

end RoundDiv

/-! ## The doubles among the numbers of units -/

-- The exponent keeps a name, here and below: as a numeral it would be raised to.
theorem exists_one_eq : ∃ k, k = 1074 ∧ one = 2 ^ k := by
  obtain ⟨k, hk⟩ : ∃ k, k = 1074 := ⟨_, rfl⟩
  refine ⟨k, hk, ?_⟩
  unfold one
  rw [← hk, Nat.pow_eq]

theorem one_pos : 0 < one := by
  obtain ⟨k, -, hone⟩ := exists_one_eq
  exact hone ▸ Nat.two_pow_pos k

theorem spacing_pos (u : Nat) : 0 < spacing u :=
  Nat.two_pow_pos _

theorem spacing_eq_of_log2 {u v : Nat} (h : u.log2 = v.log2) : spacing u = spacing v := by
  rw [spacing, spacing, h]

theorem spacing_mono {u v : Nat} (h : u.log2 ≤ v.log2) : spacing u ≤ spacing v :=
  Nat.pow_le_pow_right (by decide) (by omega)

/-- Powers of two are doubles, as far as their spacing goes. -/
theorem spacing_dvd_two_pow {u k : Nat} (h : u.log2 ≤ k) : spacing u ∣ 2 ^ k :=
  Nat.pow_dvd_pow 2 (by omega)

theorem two_pow_spaced (k : Nat) : spacing (2 ^ k) ∣ 2 ^ k :=
  spacing_dvd_two_pow (by rw [Nat.log2_two_pow])

theorem Binary64.spacing_dvd (x : Binary64) : spacing x.units ∣ x.units :=
  Nat.dvd_of_mod_eq_zero x.spaced

theorem log2_mono {u v : Nat} (h : u ≤ v) : u.log2 ≤ v.log2 := by
  rcases Nat.eq_zero_or_pos u with rfl | hu
  · exact Nat.zero_le _
  · exact (Nat.le_log2 (by omega)).2 ((Nat.log2_self_le (by omega)).trans h)

/-- At or above a double, and no further up than a number, the spacing there has a multiple. -/
theorem exists_dvd_between {v q : Nat} (hv : spacing v ∣ v) (h : v ≤ q) :
    ∃ w, spacing q ∣ w ∧ v ≤ w ∧ w ≤ q := by
  rcases (log2_mono h).eq_or_lt with heq | hlt
  · exact ⟨v, spacing_eq_of_log2 heq ▸ hv, Nat.le_refl v, h⟩
  · have hq : q ≠ 0 := by rintro rfl; simp at hlt
    exact ⟨2 ^ q.log2, spacing_dvd_two_pow (Nat.le_refl _),
      (Nat.lt_log2_self.trans_le (Nat.pow_le_pow_right (by decide) hlt)).le,
      Nat.log2_self_le hq⟩

namespace Binary64

/-! ## Where a quotient is rounded to -/

section Nearest
variable {n n' d d' v : Nat}

/-- A quotient is not rounded to below a double that is not above it. -/
theorem le_nearestUnits (hd : 0 < d) (hv : spacing v ∣ v) (h : v * d ≤ n * one) :
    v ≤ nearestUnits n d := by
  obtain ⟨w, ⟨t, rfl⟩, hvw, hw⟩ := exists_dvd_between hv ((Nat.le_div_iff_mul_le hd).2 h)
  have ht : t * (d * spacing (n * one / d)) ≤ n * one := by
    have hmul := (Nat.le_div_iff_mul_le hd).1 hw
    linarith
  calc v ≤ spacing (n * one / d) * t := hvw
    _ = t * spacing (n * one / d) := Nat.mul_comm ..
    _ ≤ nearestUnits n d := Nat.mul_le_mul_right _
      (le_roundDiv .toEven (Nat.mul_pos hd (spacing_pos _)) ht)

/-- A quotient is not rounded to above a double that is not below it. -/
theorem nearestUnits_le (hd : 0 < d) (hv : spacing v ∣ v) (h : n * one ≤ v * d) :
    nearestUnits n d ≤ v := by
  have hq : n * one / d ≤ v := Nat.div_le_of_le_mul (by linarith)
  -- A multiple of the spacing at the quotient, between the quotient and the double.
  obtain ⟨w, ⟨t, rfl⟩, hw, hwv⟩ :
      ∃ w, spacing (n * one / d) ∣ w ∧ n * one ≤ w * d ∧ w ≤ v := by
    rcases (log2_mono hq).eq_or_lt with heq | hlt
    · exact ⟨v, spacing_eq_of_log2 heq ▸ hv, h, Nat.le_refl v⟩
    · have hv0 : v ≠ 0 := by rintro rfl; simp at hlt
      refine ⟨2 ^ ((n * one / d).log2 + 1), spacing_dvd_two_pow (Nat.le_succ _), ?_,
        (Nat.pow_le_pow_right (by decide) hlt).trans (Nat.log2_self_le hv0)⟩
      exact ((Nat.div_lt_iff_lt_mul hd).1 Nat.lt_log2_self).le
  refine le_trans ?_ hwv
  rw [Nat.mul_comm (spacing _) t] at hw ⊢
  refine Nat.mul_le_mul_right _ (roundDiv_le .toEven (Nat.mul_pos hd (spacing_pos _)) ?_)
  linarith

/-- A double is rounded to itself. -/
theorem nearestUnits_eq (hd : 0 < d) (hv : spacing v ∣ v) (h : n * one = v * d) :
    nearestUnits n d = v :=
  Nat.le_antisymm (nearestUnits_le hd hv h.le) (le_nearestUnits hd hv h.ge)

theorem nearestUnits_mono (hd : 0 < d) (h : n ≤ n') : nearestUnits n d ≤ nearestUnits n' d := by
  have hscaled : n * one ≤ n' * one := Nat.mul_le_mul_right _ h
  rcases (log2_mono (Nat.div_le_div_right hscaled : n * one / d ≤ n' * one / d)).eq_or_lt
    with heq | hlt
  · unfold nearestUnits
    dsimp only
    rw [spacing_eq_of_log2 heq]
    exact Nat.mul_le_mul_right _ (roundDiv_mono .toEven _ hscaled)
  · -- A power of two lies between them.
    have hq : n' * one / d ≠ 0 := by intro hq; rw [hq] at hlt; simp at hlt
    have hbelow : n * one ≤ 2 ^ (n' * one / d).log2 * d :=
      ((Nat.div_lt_iff_lt_mul hd).1 (Nat.lt_log2_self.trans_le
        (Nat.pow_le_pow_right (by decide) hlt))).le
    have habove : 2 ^ (n' * one / d).log2 * d ≤ n' * one :=
      (Nat.le_div_iff_mul_le hd).1 (Nat.log2_self_le hq)
    exact (nearestUnits_le hd (two_pow_spaced _) hbelow).trans
      (le_nearestUnits hd (two_pow_spaced _) habove)

/-- What lies between two quotients that are rounded to the same double is rounded to it too. -/
theorem nearestUnits_between {m : Nat} (hd : 0 < d) (hn : n ≤ m) (hn' : m ≤ n')
    (h : nearestUnits n d = v) (h' : nearestUnits n' d = v) : nearestUnits m d = v :=
  Nat.le_antisymm (h' ▸ nearestUnits_mono hd hn') (h ▸ nearestUnits_mono hd hn)

/-- Neighbours of the double that a quotient is rounded to are no nearer to each other than at the
quotient. -/
theorem spacing_le_nearestUnits (hd : 0 < d) :
    spacing (n * one / d) ≤ spacing (nearestUnits n d) := by
  by_cases hq : n * one / d = 0
  · rw [hq]
    exact spacing_pos _
  · refine spacing_mono ?_
    have hle : 2 ^ (n * one / d).log2 ≤ nearestUnits n d :=
      le_nearestUnits hd (two_pow_spaced _)
        ((Nat.le_div_iff_mul_le hd).1 (Nat.log2_self_le hq))
    have hlog := log2_mono hle
    rwa [Nat.log2_two_pow] at hlog

/-- A quotient is no further from its double than half the spacing there. -/
theorem nearestUnits_near (hd : 0 < d) :
    2 * (nearestUnits n d * d) ≤ 2 * (n * one) + spacing (nearestUnits n d) * d ∧
      2 * (n * one) ≤ 2 * (nearestUnits n d * d) + spacing (nearestUnits n d) * d := by
  have hspacing := Nat.mul_le_mul_right d (spacing_le_nearestUnits (n := n) hd)
  obtain ⟨hbelow, habove⟩ := roundDiv_near .toEven
    (Nat.mul_pos hd (spacing_pos (n * one / d))) (n * one)
  have hunits : roundDiv .toEven (n * one) (d * spacing (n * one / d)) *
      (d * spacing (n * one / d)) = nearestUnits n d * d := by
    unfold nearestUnits
    rw [Nat.mul_assoc, Nat.mul_comm d]
  rw [hunits, Nat.mul_comm d] at hbelow habove
  constructor <;> omega

/-- Only the quotient counts. -/
theorem nearestUnits_congr (hd : 0 < d) (hd' : 0 < d') (h : n * d' = n' * d) :
    nearestUnits n d = nearestUnits n' d' := by
  have hmul : ∀ {k n d : Nat}, 0 < k → nearestUnits (k * n) (k * d) = nearestUnits n d := by
    intro k n d hk
    unfold nearestUnits
    dsimp only
    rw [Nat.mul_assoc, Nat.mul_div_mul_left _ _ hk, Nat.mul_assoc k, roundDiv_mul_left _ hk]
  calc nearestUnits n d = nearestUnits (d' * n) (d' * d) := (hmul hd').symm
    _ = nearestUnits (d * n') (d * d') := by
      rw [Nat.mul_comm d' n, h, Nat.mul_comm n' d, Nat.mul_comm d' d]
    _ = nearestUnits n' d' := hmul hd

end Nearest

/-! ## Decimals -/

theorem two_pow_le_ten_pow {k n : Nat} (h : k ≤ 3 * n) : 2 ^ k ≤ 10 ^ n :=
  calc 2 ^ k ≤ 2 ^ (3 * n) := Nat.pow_le_pow_right (by decide) h
    _ = 8 ^ n := Nat.pow_mul 2 3 n
    _ ≤ 10 ^ n := Nat.pow_le_pow_left (by decide) n

/-- A decimal with so many places is rounded to zero. -/
theorem nearestUnits_tiny {coefficient places : Nat} (h : 400 + coefficient.log2 < places) :
    nearestUnits coefficient (10 ^ places) = 0 := by
  obtain ⟨least, hleast⟩ : ∃ least, least = 400 := ⟨_, rfl⟩
  have hone : 4 * one ≤ 10 ^ least := by
    obtain ⟨k, hk, hone⟩ := exists_one_eq
    calc 4 * one = 2 ^ (2 + k) := by rw [hone, Nat.pow_add]
      _ ≤ 10 ^ least := two_pow_le_ten_pow (by omega)
  have hcoefficient : coefficient * 2 ≤ 2 ^ coefficient.log2 * 4 := by
    have := Nat.lt_log2_self (n := coefficient)
    rw [Nat.pow_succ] at this
    omega
  have htiny : 2 * (coefficient * one) < 10 ^ places :=
    calc 2 * (coefficient * one) = coefficient * 2 * one := by rw [Nat.mul_left_comm, Nat.mul_assoc]
      _ ≤ 2 ^ coefficient.log2 * 4 * one := Nat.mul_le_mul_right _ hcoefficient
      _ = 2 ^ coefficient.log2 * (4 * one) := Nat.mul_assoc ..
      _ ≤ 10 ^ coefficient.log2 * 10 ^ least :=
          Nat.mul_le_mul (Nat.pow_le_pow_left (by decide) _) hone
      _ = 10 ^ (coefficient.log2 + least) := (Nat.pow_add ..).symm
      _ < 10 ^ places := Nat.pow_lt_pow_right (by decide) (by omega)
  have hless : coefficient * one < 10 ^ places := by omega
  simp only [nearestUnits, Nat.div_eq_of_lt hless, spacing, roundDiv]
  simp [Nat.mod_eq_of_lt hless, Nat.div_eq_of_lt hless, htiny]

/-- A quotient of this size is too large. -/
theorem nearestUnits_huge {n d k : Nat} (hd : 0 < d) (hk : 400 ≤ k) (h : 10 ^ k * d ≤ n) :
    2098 ≤ (nearestUnits n d).log2 := by
  obtain ⟨size, hsize⟩ : ∃ size, size = 2098 := ⟨_, rfl⟩
  have hone : 2 ^ size ≤ 10 ^ k * one := by
    obtain ⟨places, hplaces, hone⟩ := exists_one_eq
    calc 2 ^ size = 2 ^ (size - places) * 2 ^ places := by
          rw [← Nat.pow_add, Nat.sub_add_cancel (by omega)]
      _ ≤ 10 ^ k * one := hone ▸ Nat.mul_le_mul_right _ (two_pow_le_ten_pow (by omega))
  have hlog := log2_mono (le_nearestUnits hd (two_pow_spaced size) (n := n) <|
    calc 2 ^ size * d ≤ 10 ^ k * one * d := Nat.mul_le_mul_right _ hone
      _ = 10 ^ k * d * one := Nat.mul_right_comm ..
      _ ≤ n * one := Nat.mul_le_mul_right _ h)
  rwa [Nat.log2_two_pow, hsize] at hlog

theorem ofRatio?_huge (negative : Bool) {n d k : Nat} (hd : 0 < d) (hk : 400 ≤ k)
    (h : 10 ^ k * d ≤ n) : ofRatio? negative n d = none := by
  have hhuge := nearestUnits_huge hd hk h
  rw [ofRatio?, ofUnits?, dif_neg]
  omega

/-- Exponents that settle the result by themselves settle it as a power would. -/
theorem ofDecimal?_eq (negative : Bool) (coefficient : Nat) (exponent : Int) :
    ofDecimal? negative coefficient exponent = ofRatio? negative
      (coefficient * 10 ^ exponent.toNat) (10 ^ (-exponent).toNat) := by
  have hzero : ofUnits? negative 0 = some (zero negative) := ofUnits?_self (zero negative)
  unfold ofDecimal?
  split
  · next h =>
    rw [← hzero, ofRatio?]
    congr 1
    rcases h with rfl | h
    · rw [Nat.zero_mul]
      exact (nearestUnits_eq (Nat.pow_pos (by decide)) (dvd_zero _) (by simp)).symm
    · have hnone : exponent.toNat = 0 := by omega
      rw [hnone, Nat.pow_zero, Nat.mul_one]
      exact (nearestUnits_tiny (by omega)).symm
  · next h =>
    rw [not_or] at h
    split
    · next hlarge =>
      have hnone : (-exponent).toNat = 0 := by omega
      rw [hnone, Nat.pow_zero, ofRatio?_huge negative Nat.one_pos (by omega : 400 ≤ exponent.toNat)]
      rw [Nat.mul_one]
      exact Nat.le_mul_of_pos_left _ (Nat.pos_of_ne_zero h.1)
    · rfl

end Binary64

end RecordService.Decimal
