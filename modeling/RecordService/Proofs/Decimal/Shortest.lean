import Mathlib.Algebra.Order.Field.Rat
import Mathlib.Tactic.FieldSimp
import Mathlib.Tactic.Ring
import RecordService.Decimal.Shortest
import RecordService.Proofs.Decimal.Rounding
/-!
# The shortest decimal reads back

The search finds a decimal that is rounded to the double it was made for, so to the digits that are
written for a double that double is the nearest one (`shortest_roundsTo`). The search begins with
grids coarse enough to find whatever decimal of few digits there is: from such a decimal alone the
double is at a distance less than its neighbours (`toRat_shortest_eq`).
-/

namespace RecordService.Decimal

open Binary64 (nearestUnits)

/-! ## Decimals as numbers -/

namespace Scaled

/-- The number that a decimal is. -/
def toRat (d : Scaled) : ℚ :=
  d.coefficient * 10 ^ d.exponent

/-- A decimal is rounded to the double with these units. -/
def RoundsTo (d : Scaled) (units : Nat) : Prop :=
  nearestUnits (d.coefficient * 10 ^ d.exponent.toNat) (10 ^ (-d.exponent).toNat) = units

theorem toRat_eq_div (d : Scaled) : d.toRat =
    ((d.coefficient * 10 ^ d.exponent.toNat : Nat) : ℚ) /
      ((10 ^ (-d.exponent).toNat : Nat) : ℚ) := by
  obtain ⟨c, e⟩ := d
  rcases le_total 0 e with he | he
  · obtain ⟨k, rfl⟩ := Int.eq_ofNat_of_zero_le he
    simp [toRat]
  · obtain ⟨k, hk⟩ := Int.eq_ofNat_of_zero_le (Int.neg_nonneg_of_nonpos he)
    obtain rfl : e = -(k : Int) := by omega
    simp [toRat, div_eq_mul_inv]

/-- What a decimal is rounded to depends on the number alone. -/
theorem roundsTo_congr {d d' : Scaled} (h : d.toRat = d'.toRat) {units : Nat} :
    d.RoundsTo units ↔ d'.RoundsTo units := by
  have hpow : ∀ k : Nat, 0 < 10 ^ k := fun k => Nat.pow_pos (by decide)
  rw [toRat_eq_div, toRat_eq_div, div_eq_div_iff (by positivity) (by positivity)] at h
  rw [RoundsTo, RoundsTo, Binary64.nearestUnits_congr (hpow _) (hpow _) (by exact_mod_cast h)]

/-- Zero is rounded to zero. -/
theorem RoundsTo.eq_zero {d : Scaled} {units : Nat} (h : d.RoundsTo units) (hd : d.toRat = 0) :
    units = 0 := by
  have hzero : d.toRat = (Scaled.mk 0 0).toRat := by rw [hd, toRat, Nat.cast_zero, zero_mul]
  rw [roundsTo_congr hzero, RoundsTo, Nat.zero_mul] at h
  rw [← h]
  exact Binary64.nearestUnits_eq (by decide) (dvd_zero _) (by simp)

theorem toRat_trim (d : Scaled) : d.trim.toRat = d.toRat := by
  induction d using trim.induct with
  | case1 d h ih =>
    have hten : d.coefficient / 10 * 10 = d.coefficient := by omega
    have hcast : ((d.coefficient / 10 : Nat) : ℚ) * 10 = d.coefficient := by exact_mod_cast hten
    rw [trim, if_pos h, ih, toRat, toRat, zpow_add_one₀ (by norm_num), ← hcast]
    ring
  | case2 d h => rw [trim, if_neg h]

theorem exponent_le_trim (d : Scaled) : d.exponent ≤ d.trim.exponent := by
  induction d using trim.induct with
  | case1 d h ih =>
    rw [trim, if_pos h]
    exact (Int.le_add_one (Int.le_refl _)).trans ih
  | case2 d h => rw [trim, if_neg h]

/-- The double that a decimal is rounded to is the one it is read as. -/
theorem RoundsTo.ofDecimal? {d : Scaled} {x : Binary64} (h : d.RoundsTo x.units) :
    Binary64.ofDecimal? x.negative d.coefficient d.exponent = some x := by
  rw [Binary64.ofDecimal?_eq, Binary64.ofRatio?, h, Binary64.ofUnits?_self]

/-- What a decimal is read as is the double that it is rounded to. -/
theorem roundsTo_of_ofDecimal? {d : Scaled} {negative : Bool} {x : Binary64}
    (h : Binary64.ofDecimal? negative d.coefficient d.exponent = some x) :
    x.negative = negative ∧ d.RoundsTo x.units := by
  rw [Binary64.ofDecimal?_eq, Binary64.ofRatio?, Binary64.ofUnits?] at h
  split at h
  · cases h
    exact ⟨rfl, rfl⟩
  · cases h

/-- A decimal with so few places is no smaller than the least normal double. -/
theorem normal_of_natAbs_le {d : Scaled} (hd : d.coefficient ≠ 0) (h : d.exponent.natAbs ≤ 22) :
    (2 : ℚ) ^ (-1022 : ℤ) ≤ d.toRat := by
  have hone : (1 : ℚ) ≤ d.coefficient := by exact_mod_cast Nat.one_le_iff_ne_zero.2 hd
  calc (2 : ℚ) ^ (-1022 : ℤ) ≤ 2 ^ (-88 : ℤ) := zpow_le_zpow_right₀ one_le_two (by decide)
    _ ≤ 10 ^ (-22 : ℤ) := by norm_num
    _ ≤ 10 ^ d.exponent := zpow_le_zpow_right₀ (by norm_num) (by omega)
    _ ≤ d.toRat := le_mul_of_one_le_left (zpow_nonneg (by norm_num) _) hone

end Scaled

/-! ## The search -/

/-- One, counted in 10^-1074. -/
def scale : Nat :=
  Nat.pow 10 1074

theorem exists_scale_eq :
    ∃ k, k = 1074 ∧ scale = 10 ^ k ∧ ∀ units, fine units = units * 5 ^ k := by
  obtain ⟨k, hk⟩ : ∃ k, k = 1074 := ⟨_, rfl⟩
  refine ⟨k, hk, ?_, fun units => ?_⟩
  · unfold scale
    rw [← hk, Nat.pow_eq]
  · unfold fine
    rw [← hk, Nat.pow_eq]

theorem scale_pos : 0 < scale := by
  obtain ⟨k, -, hscale, -⟩ := exists_scale_eq
  exact hscale ▸ Nat.pow_pos (by decide)

theorem fine_one : fine one = scale := by
  obtain ⟨k, hk, hone⟩ := exists_one_eq
  obtain ⟨places, hplaces, hscale, hfine⟩ := exists_scale_eq
  rw [hfine, hone, hscale, hk, ← hplaces]
  exact (Nat.mul_pow 2 5 places).symm

theorem fine_mul_one (units : Nat) : fine units * one = units * scale := by
  rw [← fine_one, fine, fine, Nat.mul_assoc, Nat.mul_comm one]

theorem fine_pos {units : Nat} (h : 0 < units) : 0 < fine units := by
  obtain ⟨k, -, -, hfine⟩ := exists_scale_eq
  exact hfine units ▸ Nat.mul_pos h (Nat.pow_pos (by decide))

theorem roundsTo_iff {n units : Nat} : roundsTo n units = true ↔ nearestUnits n scale = units := by
  unfold roundsTo scale
  exact beq_iff_eq

theorem roundsTo_of_onGrid? {tie : Tie} {units grid n : Nat} (h : onGrid? tie units grid = some n) :
    roundsTo (n * grid) units = true := by
  unfold onGrid? at h
  dsimp only at h
  split at h
  · next hbelow =>
    obtain rfl := Option.some.inj h
    split
    · next habove =>
      -- The nearer one of the two neighbours is one of them.
      rcases (div_le_roundDiv tie (fine units) grid).eq_or_lt with hn | hn
      · rw [← hn, hbelow]
      · rw [Nat.le_antisymm (roundDiv_le_div tie (fine units) grid) hn, habove]
    · exact hbelow
  · split at h
    · next habove =>
      obtain rfl := Option.some.inj h
      exact habove
    · cases h

section Search
variable {units : Nat} (hunits : spacing units ∣ units) (tie : Tie)
include hunits

/-- A double is rounded to itself. -/
theorem roundsTo_fine : roundsTo (fine units) units = true :=
  roundsTo_iff.2 (Binary64.nearestUnits_eq scale_pos hunits (fine_mul_one units))

/-- If any multiple is rounded to the double, one is found. -/
theorem exists_onGrid? {grid m : Nat} (hgrid : 0 < grid) (h : roundsTo (m * grid) units = true) :
    ∃ n, onGrid? tie units grid = some n := by
  have hfine := roundsTo_iff.1 (roundsTo_fine hunits)
  rw [roundsTo_iff] at h
  unfold onGrid?
  rcases Nat.lt_or_ge (fine units / grid) m with hm | hm
  · have habove : roundsTo ((fine units / grid + 1) * grid) units = true :=
      roundsTo_iff.2 (Binary64.nearestUnits_between scale_pos
        (Nat.lt_mul_of_div_lt (Nat.lt_succ_self _) hgrid).le (Nat.mul_le_mul_right _ hm) hfine h)
    simp only [habove, if_true]
    split <;> exact ⟨_, rfl⟩
  · have hbelow : roundsTo (fine units / grid * grid) units = true :=
      roundsTo_iff.2 (Binary64.nearestUnits_between scale_pos
        (Nat.mul_le_mul_right _ hm) (Nat.div_mul_le_self _ _) h hfine)
    simp only [hbelow, if_true]
    exact ⟨_, rfl⟩

/-- The search ends on a grid with a number that is rounded to the double: at the latest on one
that has such a number. -/
theorem search_eq {j k m : Nat} (hj : j ≤ k) (h : roundsTo (m * 10 ^ j) units = true) :
    ∃ n i : Nat, search tie units k = ⟨n, (i : Int) - 1074⟩ ∧ j ≤ i ∧
      roundsTo (n * 10 ^ i) units = true := by
  induction k with
  | zero =>
    refine ⟨fine units, 0, rfl, hj, ?_⟩
    rw [Nat.pow_zero, Nat.mul_one]
    exact roundsTo_fine hunits
  | succ k ih =>
    rw [search]
    cases hfound : onGrid? tie units (Nat.pow 10 (k + 1)) with
    | some n => exact ⟨n, k + 1, by simp, hj, roundsTo_of_onGrid? hfound⟩
    | none =>
      have hne : j ≠ k + 1 := by
        rintro rfl
        obtain ⟨n, hn⟩ := exists_onGrid? hunits tie (Nat.pow_pos (by decide)) h
        cases hfound.symm.trans hn
      exact ih (by omega)

end Search

/-! ## What the search comes to -/

theorem cast_scale : (scale : ℚ) = 10 ^ (1074 : ℤ) := by
  obtain ⟨k, hk, hscale, -⟩ := exists_scale_eq
  have hplaces : (1074 : ℤ) = k := by rw [hk]; rfl
  rw [hscale, hplaces, zpow_natCast, Nat.cast_pow]
  rfl

/-- A number on a grid, counted in 10^-1074. -/
theorem Scaled.toRat_grid (n i : Nat) :
    (Scaled.mk n ((i : Int) - 1074)).toRat = ((n * 10 ^ i : Nat) : ℚ) / scale := by
  rw [toRat, cast_scale, zpow_sub₀ (by norm_num), zpow_natCast, Nat.cast_mul, Nat.cast_pow,
    mul_div_assoc]
  rfl

theorem Scaled.roundsTo_grid {n i units : Nat} :
    (Scaled.mk n ((i : Int) - 1074)).RoundsTo units ↔ roundsTo (n * 10 ^ i) units = true := by
  have hfine : (Scaled.mk n ((i : Int) - 1074)).toRat = (Scaled.mk (n * 10 ^ i) (-1074)).toRat := by
    rw [toRat_grid, toRat, cast_scale, zpow_neg, div_eq_mul_inv]
  have hwhole : (-1074 : Int).toNat = 0 := rfl
  have hplaces : 10 ^ (-(-1074 : Int)).toNat = scale := by
    obtain ⟨k, hk, hscale, -⟩ := exists_scale_eq
    have hk' : (-(-1074 : Int)).toNat = k := by rw [hk]; rfl
    rw [hk', hscale]
  rw [roundsTo_congr hfine, RoundsTo, roundsTo_iff, hwhole, hplaces, Nat.pow_zero, Nat.mul_one]

/-- The decimal is zero, or it lies on a grid, and ends with no zero that is not written. -/
theorem toRat_shortest (tie : Tie) {units : Nat} (h : units ≠ 0) : (shortest tie units).toRat =
    (search tie units ((Nat.toDigits 10 (fine units)).length - 1)).toRat := by
  rw [shortest, if_neg h, Scaled.toRat_trim]

section Shortest
variable {units : Nat} (hunits : spacing units ∣ units) (tie : Tie)
include hunits

theorem shortest_roundsTo : (shortest tie units).RoundsTo units := by
  by_cases h : units = 0
  · rw [shortest, if_pos h, h]
    exact Binary64.nearestUnits_eq (by decide) (dvd_zero _) (by simp)
  · obtain ⟨n, i, hsearch, -, hround⟩ := search_eq hunits tie
      (Nat.zero_le ((Nat.toDigits 10 (fine units)).length - 1)) (m := fine units)
      (by rw [Nat.pow_zero, Nat.mul_one]; exact roundsTo_fine hunits)
    rw [Scaled.roundsTo_congr (toRat_shortest tie h), hsearch]
    exact Scaled.roundsTo_grid.2 hround

/-- Zero has no exponent. -/
theorem exponent_shortest_zero (h : (shortest tie units).coefficient = 0) :
    (shortest tie units).exponent = 0 := by
  have hzero : units = 0 := (shortest_roundsTo hunits tie).eq_zero (by simp [Scaled.toRat, h])
  rw [shortest, if_pos hzero]

end Shortest

/-! ## Decimals of few digits -/

section Few
variable {units : Nat}

/-- No number that is rounded to a double is further from it than half the spacing there. -/
theorem roundsTo_near {n : Nat} (h : roundsTo n units = true) :
    2 * fine units ≤ 2 * n + fine (spacing units) ∧
      2 * n ≤ 2 * fine units + fine (spacing units) := by
  obtain ⟨hbelow, habove⟩ := Binary64.nearestUnits_near (n := n) scale_pos
  rw [roundsTo_iff.1 h, ← fine_mul_one, ← fine_mul_one] at hbelow habove
  constructor
  · refine Nat.le_of_mul_le_mul_right ?_ one_pos
    linarith
  · refine Nat.le_of_mul_le_mul_right ?_ one_pos
    linarith

/-- On a grid coarser than the doubles are at one of them, no more than one number is rounded to
it. -/
theorem eq_of_coarse {n m grid : Nat} (hn : roundsTo n units = true)
    (hm : roundsTo m units = true) (hcoarse : fine (spacing units) < grid) (hngrid : grid ∣ n)
    (hmgrid : grid ∣ m) : n = m := by
  have hle : ∀ {n m : Nat}, roundsTo n units = true → roundsTo m units = true → grid ∣ n →
      grid ∣ m → n ≤ m := by
    rintro _ _ hn hm ⟨p, rfl⟩ ⟨q, rfl⟩
    have hnear : grid * p < grid * (q + 1) := by
      have hpn := (roundsTo_near hn).2
      have hqm := (roundsTo_near hm).1
      rw [Nat.mul_succ]
      omega
    exact Nat.mul_le_mul_left _ (Nat.lt_succ_iff.1 (Nat.lt_of_mul_lt_mul_left hnear))
  exact Nat.le_antisymm (hle hn hm hngrid hmgrid) (hle hm hn hmgrid hngrid)

/-- A normal double is large beside the spacing there. -/
theorem fine_spacing_le (hnormal : 52 ≤ units.log2) :
    2 ^ 52 * fine (spacing units) ≤ fine units := by
  have hunits : 2 ^ 52 * spacing units ≤ units :=
    calc 2 ^ 52 * spacing units = 2 ^ (52 + (units.log2 - 52)) := (Nat.pow_add ..).symm
      _ = 2 ^ units.log2 := by rw [Nat.add_sub_cancel' hnormal]
      _ ≤ units := Nat.log2_self_le (by rintro rfl; simp at hnormal)
  rw [fine, fine, ← Nat.mul_assoc]
  exact Nat.mul_le_mul_right _ hunits

/-- The search finds whatever number of no more than 15 digits is rounded to a normal double. -/
theorem toRat_search (hunits : spacing units ∣ units) (tie : Tie) {c j : Nat} (hc : c < 10 ^ 15)
    (hround : roundsTo (c * 10 ^ j) units = true) (hnormal : 52 ≤ units.log2) :
    (search tie units ((Nat.toDigits 10 (fine units)).length - 1)).toRat =
      ((c * 10 ^ j : Nat) : ℚ) / scale := by
  have hspacing := fine_spacing_le hnormal
  have hnear := (roundsTo_near hround).1
  have hpos : 0 < fine (spacing units) := fine_pos (spacing_pos _)
  have hlength := Nat.length_toDigits_pos (b := 10) (n := fine units)
  generalize hk : (Nat.toDigits 10 (fine units)).length - 1 = k
  have hfine : fine units < 10 ^ (k + 1) :=
    (Nat.length_toDigits_le_iff (by decide) (Nat.succ_pos k)).1 (by omega)
  have hgrid : ∀ {i}, i ≤ k → 10 ^ i ∣ c * 10 ^ j → fine (spacing units) < 10 ^ i →
      (search tie units k).toRat = ((c * 10 ^ j : Nat) : ℚ) / scale := by
    intro i hi hdvd hcoarse
    obtain ⟨m, hm⟩ := hdvd
    rw [Nat.mul_comm _ m] at hm
    obtain ⟨n, i', hsearch, hle, hfound⟩ := search_eq hunits tie hi (hm ▸ hround)
    have heq : n * 10 ^ i' = c * 10 ^ j :=
      eq_of_coarse hfound hround hcoarse (Dvd.dvd.mul_left (Nat.pow_dvd_pow 10 hle) n)
        ⟨m, by rw [hm, Nat.mul_comm]⟩
    rw [hsearch, Scaled.toRat_grid, heq]
  rcases Nat.lt_or_ge k j with hj | hj
  · refine hgrid (Nat.le_refl k) (Dvd.dvd.mul_left (Nat.pow_dvd_pow 10 hj.le) c) ?_
    rw [Nat.pow_succ] at hfine
    omega
  · refine hgrid hj (Nat.dvd_mul_left _ c) (Nat.lt_of_not_le fun hle => ?_)
    have hmul : c * 10 ^ j ≤ 10 ^ 15 * fine (spacing units) := Nat.mul_le_mul hc.le hle
    omega

/-- What is no smaller than the least normal double is rounded to a normal one. -/
theorem log2_of_normal {d : Scaled} (h : (2 : ℚ) ^ (-1022 : ℤ) ≤ d.toRat)
    (hround : d.RoundsTo units) : 52 ≤ units.log2 := by
  obtain ⟨k, hk, hone⟩ : ∃ k : Nat, (k : ℤ) = 1022 ∧ one = 2 ^ 52 * 2 ^ k := by
    obtain ⟨k, hk, hone⟩ := exists_one_eq
    exact ⟨k - 52, by omega, by rw [hone, ← Nat.pow_add, Nat.add_sub_cancel' (by omega)]⟩
  have hden : 0 < 10 ^ (-d.exponent).toNat := Nat.pow_pos (by decide)
  rw [Scaled.toRat_eq_div, ← hk, zpow_neg, zpow_natCast, inv_eq_one_div,
    div_le_div_iff₀ (by positivity) (by positivity), one_mul] at h
  have hnum : 10 ^ (-d.exponent).toNat ≤ d.coefficient * 10 ^ d.exponent.toNat * 2 ^ k := by
    exact_mod_cast h
  have hlog := log2_mono (Binary64.le_nearestUnits hden (two_pow_spaced 52) <|
    calc 2 ^ 52 * 10 ^ (-d.exponent).toNat
        ≤ 2 ^ 52 * (d.coefficient * 10 ^ d.exponent.toNat * 2 ^ k) := Nat.mul_le_mul_left _ hnum
      _ = d.coefficient * 10 ^ d.exponent.toNat * one := by rw [hone]; ring)
  rwa [Nat.log2_two_pow, hround] at hlog

/-- The shortest decimal of a normal double is whatever decimal of no more than 15 digits is rounded
to it. -/
theorem toRat_shortest_eq (hunits : spacing units ∣ units) (tie : Tie) {d : Scaled}
    (hd : d.coefficient < 10 ^ 15) (hround : d.RoundsTo units) (hnormal : 52 ≤ units.log2) :
    (shortest tie units).toRat = d.toRat := by
  obtain ⟨c, e⟩ := d
  have hne : units ≠ 0 := by rintro rfl; simp at hnormal
  have he : -1074 ≤ e := by
    by_contra htiny
    have hwhole : e.toNat = 0 := by omega
    rw [Scaled.RoundsTo, hwhole, Nat.pow_zero, Nat.mul_one,
      Binary64.nearestUnits_tiny] at hround
    · exact hne hround.symm
    · have hlog : c.log2 ≤ (2 ^ 50).log2 := log2_mono (hd.le.trans (by decide))
      rw [Nat.log2_two_pow] at hlog
      show 400 + c.log2 < (-e).toNat
      omega
  obtain ⟨j, hj⟩ := Int.eq_ofNat_of_zero_le (show 0 ≤ e + 1074 by omega)
  obtain rfl : e = (j : Int) - 1074 := by omega
  rw [toRat_shortest tie hne, toRat_search hunits tie hd (Scaled.roundsTo_grid.1 hround) hnormal,
    Scaled.toRat_grid]

end Few

end RecordService.Decimal
