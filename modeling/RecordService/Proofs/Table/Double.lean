import Mathlib.Data.List.TakeWhile
import RecordService.Proofs.Decimal.Whole
import RecordService.Proofs.Table.Numeral
import RecordService.Proofs.Value.Equality
/-!
# Doubles as numerals

The numeral of a double without places has neither a point nor an exponent, so it is read as an
integer if a word can hold it. Every other double is read from its numeral as itself.
-/

namespace RecordService

open Decimal

namespace Table.Numeral

/-! ## Numerals in parts -/

/-- What begins with a digit or its sign is no name. -/
theorem not_name {ds : List Char} (h : AreDigits ds) (cs : List Char) :
    ["inf", "infinity", "nan"].contains (String.ofList ((ds ++ cs).map Char.toLower)) = false := by
  obtain ⟨d, ds, rfl⟩ := List.exists_cons_of_ne_nil h.ne_nil
  have hd : d.isDigit = true := h.isDigit d List.mem_cons_self
  have hlower : d.toLower = d := by
    unfold Char.isDigit at hd
    unfold Char.toLower
    grind
  have hi : d ≠ 'i' := by rintro rfl; cases hd
  have hn : d ≠ 'n' := by rintro rfl; cases hd
  simp [hlower, String.ext_iff, hi, hn]

/-- Parts without an exponent are read as the double that is nearest to their decimal. -/
theorem real?_parts {p : Parts} (hp : p.WellFormed) (he : p.exponent = none) {x : Binary64}
    (hx : Binary64.ofDecimal? x.negative p.scaled.coefficient p.scaled.exponent = some x) :
    real? ((if x.negative then ['-'] else []) ++ p.text) = some (.number (.real x)) := by
  obtain ⟨whole, fraction, exponent⟩ := p
  obtain rfl : exponent = none := he
  have hwhole : AreDigits whole := hp.whole
  have hnonempty : whole.isEmpty = false := by simpa using hwhole.ne_nil
  rw [real?, Parts.text, sign_minus x.negative hwhole]
  simp only [not_name hwhole]
  cases fraction with
  | none =>
    have hread : Binary64.ofDecimal? x.negative (Nat.ofDigitChars 10 whole 0) 0 = some x := by
      simpa [Parts.scaled] using hx
    simp [List.takeWhile_eq_self_iff.2 hwhole.isDigit, List.dropWhile_eq_nil_iff.2 hwhole.isDigit,
      places, hnonempty, exponent?, hread]
  | some f =>
    have hf : AreDigits f := hp.fraction f rfl
    have hread : Binary64.ofDecimal? x.negative (Nat.ofDigitChars 10 (whole ++ f) 0)
        (-(f.length : Int)) = some x := by
      simpa [Parts.scaled] using hx
    simp [List.takeWhile_append_of_pos hwhole.isDigit, List.dropWhile_append_of_pos hwhole.isDigit,
      places, List.takeWhile_eq_self_iff.2 hf.isDigit, List.dropWhile_eq_nil_iff.2 hf.isDigit,
      hnonempty, exponent?, hread]

theorem integer?_fraction (negative : Bool) {p : Parts} (hp : p.WellFormed)
    (hf : p.fraction ≠ none) : integer? ((if negative then ['-'] else []) ++ p.text) = none := by
  obtain ⟨f, hf⟩ := Option.ne_none_iff_exists'.1 hf
  have hpoint : '.' ∈ p.text := by simp [Parts.text, hf]
  have hnot : p.text.all Char.isDigit = false :=
    List.all_eq_false.2 ⟨'.', hpoint, by decide⟩
  rw [integer?, Parts.text, sign_minus negative hp.whole, ← Parts.text]
  simp only [hnot, Bool.not_false, or_true, if_true]

/-! ## Doubles -/

theorem realParts_eq (x : Binary64) : reals.realParts x =
    positionalParts false (Nat.toDigits 10 (shortest .up x.units).coefficient)
      (shortest .up x.units).exponent := rfl

/-- A double is read back from its numeral, by who reads it as a double. -/
theorem real?_text (x : Binary64) : real? (reals.text x) = some (.number (.real x)) := by
  rw [Layout.text_eq]
  exact real?_parts (reals.wellFormed_realParts x) (exponent_positionalParts ..)
    (reals.realParts_roundsTo x).ofDecimal?

end Table.Numeral

/-! ## Doubles that are taken for integers -/

namespace Decimal.Binary64

/-- The integer whose digits are those of a double without places. -/
def digitsInt (x : Binary64) : Int :=
  if x.negative then -((shortest .up x.units).toNat : Int) else (shortest .up x.units).toNat

/-- The integer that a double is taken for by who reads its numeral. -/
def word? (x : Binary64) : Option WordInt :=
  if one ∣ x.units then WordInt.ofInt? x.digitsInt else none

/-- The double is a whole number between -2^63 and 2^64, the bounds excluded: so it is taken for an
integer. -/
def IsWord (x : Binary64) : Prop :=
  one ∣ x.units ∧ x.units < (if x.negative then 2 ^ 63 else 2 ^ 64) * one

instance (x : Binary64) : Decidable x.IsWord :=
  inferInstanceAs (Decidable (_ ∧ _))

end Decimal.Binary64

namespace Table.Numeral

theorem integer?_text (x : Binary64) :
    integer? (reals.text x) = if one ∣ x.units then some x.digitsInt else none := by
  have hdigits := areDigits_toDigits (shortest .up x.units).coefficient
  have hplaces := exponent_shortest_nonneg x.spacing_dvd .up
  rw [Layout.text_eq]
  rcases Int.lt_or_le (shortest .up x.units).exponent 0 with he | he
  · rw [if_neg fun hone => absurd (hplaces.2 hone) (by omega)]
    exact integer?_fraction _ (reals.wellFormed_realParts x) (fraction_positionalParts _ _ he)
  · rw [if_pos (hplaces.1 he), realParts_eq, positionalParts, if_pos he]
    have hread := integer?_digits x.negative (hdigits.append
      fun _ => isDigit_of_mem_replicate (n := (shortest .up x.units).exponent.toNat))
    rw [ofDigitChars_append_zeros] at hread
    simpa [Parts.text, Binary64.digitsInt, Scaled.toNat] using hread

end Table.Numeral

namespace Decimal.Binary64

theorem two_pow_mul_one_spaced (k : Nat) : spacing (2 ^ k * one) ∣ 2 ^ k * one := by
  obtain ⟨n, -, hone⟩ := exists_one_eq
  rw [hone, ← Nat.pow_add]
  exact two_pow_spaced _

/-- The doubles 2^63 and 2^64 are written with fewer digits than they have, as larger numbers. -/
theorem digits_bounds : 2 ^ 64 < (shortest .up (2 ^ 64 * one)).toNat ∧
    2 ^ 63 < (shortest .up (2 ^ 63 * one)).toNat := by
  decide +kernel

theorem isSome_word? {x : Binary64} : x.word?.isSome ↔ x.IsWord := by
  unfold word? IsWord
  split
  · next hone =>
    have hless := fun k => toNat_shortest_lt x.spacing_dvd .up hone (two_pow_mul_one_spaced k)
    have hne := toNat_shortest_ne x.spacing_dvd .up hone (two_pow_mul_one_spaced 63)
      digits_bounds.2.ne'
    rw [WordInt.isSome_ofInt?, digitsInt, and_iff_right hone]
    cases x.negative with
    | false =>
      have hword := hless 64 digits_bounds.1.le
      simp only [Bool.false_eq_true, if_false]
      rw [← hword]
      omega
    | true =>
      have hword := hless 63 digits_bounds.2.le
      simp only [if_true]
      rw [← hword]
      omega
  · next hone => simp [hone]

theorem bind_digitsInt (x : Binary64) :
    (if one ∣ x.units then some x.digitsInt else none).bind WordInt.ofInt? = x.word? := by
  unfold word?
  split <;> rfl

/-- The double is the nearest one to the integer that it is taken for. -/
theorem ofRatio?_word {x : Binary64} {i : WordInt} (h : x.word? = some i) :
    ofRatio? x.negative i.toInt.natAbs 1 = some x := by
  unfold word? at h
  split at h
  · next hone =>
    have hi : i.toInt.natAbs = (shortest .up x.units).toNat := by
      rw [WordInt.ofInt?_eq_some.1 h, digitsInt]
      split <;> omega
    have hround := (shortest_roundsTo x.spacing_dvd .up).toNat
      ((exponent_shortest_nonneg x.spacing_dvd .up).2 hone)
    rw [ofRatio?, hi, hround, ofUnits?_self]
  · cases h

end Decimal.Binary64

/-- The number that the table gives back. -/
def Number.returned : Number → Number
  | .integer i => .integer i
  | .real x => x.word?.elim (.real x) .integer

theorem Number.returned_eq_self {n : Number} (h : ∀ x, n = .real x → ¬x.IsWord) :
    n.returned = n := by
  cases n with
  | integer i => rfl
  | real x =>
    have hnone : x.word? = none := by
      rw [← Option.not_isSome_iff_eq_none, x.isSome_word?]
      exact h x rfl
    rw [returned, hnone]
    rfl

/-- What equals the number that is given back equals the number itself, unless this is a double
that is taken for an integer. -/
theorem Number.beq_iff_of_returned {n m : Number} (h : (n.returned == m) = true) :
    (n == m) = true ↔ ∀ x, n = .real x → ¬x.IsWord := by
  cases n with
  | integer i => exact iff_of_true h nofun
  | real x =>
    simp only [Number.real.injEq, forall_eq', ← x.isSome_word?]
    rw [returned] at h
    cases hword : x.word? with
    | none =>
      rw [hword] at h
      exact iff_of_true h (by simp)
    | some i =>
      -- What equals an integer is one.
      rw [hword] at h
      cases m with
      | integer j => exact iff_of_false Bool.false_ne_true (by simp)
      | real y => cases h

/-- What is read from the numeral of a number is what the table gives back. -/
theorem Table.Numeral.read?_returned (n : Number) :
    read? (text n) = some (.number n.returned) := by
  cases n with
  | integer i => exact read?_text i
  | real x =>
    rw [read?, text, String.toList_ofList, integer?_text, real?_text, Binary64.bind_digitsInt,
      Number.returned]
    cases x.word? <;> rfl

end RecordService
