import Mathlib.Algebra.Order.Ring.Abs
import RecordService.Json.Printer
import RecordService.Proofs.Decimal.Scaling
import RecordService.Proofs.Decimal.Shortest
import RecordService.Proofs.Json.Numeral
/-!
# The numbers that literals denote

A literal denotes a rational number. It is read as an integer, or as a double near to it: as the
nearest one if its digits are few and its exponent is small. What the printer writes for a number
denotes the integer itself, or a decimal to which the double is the nearest one. The reader takes
the literal of an integer for this integer, but not always the literal of a double for this double.
-/

namespace RecordService.Json.Literal

open Decimal

/-- The rational number that a literal denotes. -/
def toRat (l : Literal) : ℚ :=
  (if l.negative then -1 else 1) * l.parts.scaled.toRat

/-- The number that is nearest to a literal: the integer that it is read as, or the nearest
double. -/
def nearest? (l : Literal) : Option Number :=
  match l.integer? with
  | some i => some (.integer i)
  | none => (Binary64.ofDecimal? l.negative l.parts.scaled.coefficient
      l.parts.scaled.exponent).map .real

/-! ## Numbers as they are written -/

/-- The literal that the printer writes for a number. -/
def ofNumber : Number → Literal
  | .integer i => ⟨decide (i.toInt < 0), Nat.toDigits 10 i.toInt.natAbs, none, none⟩
  | .real x =>
    let parts := reals.realParts x
    ⟨x.negative, parts.whole, parts.fraction, parts.exponent⟩

theorem text_ofNumber (n : Number) : (ofNumber n).text = Value.numberText n := by
  cases n with
  | integer i => simp [text, parts, Parts.text, ofNumber, Value.numberText, Value.intText]
  | real x => exact (reals.text_eq x).symm

theorem wellFormed_ofNumber (n : Number) : (ofNumber n).parts.WellFormed := by
  cases n with
  | integer i =>
    refine ⟨areDigits_toDigits _, fun hhead => ?_, nofun⟩
    have hzero : i.toInt.natAbs = 0 := toDigits_head hhead
    change Nat.toDigits 10 i.toInt.natAbs = _
    rw [hzero]
    rfl
  | real x => exact reals.wellFormed_realParts x

theorem integer?_ofNumber (i : WordInt) : (ofNumber (.integer i)).integer? = some i := by
  have hleast := i.least
  have hmost := i.most
  have hlength : (Nat.toDigits 10 i.toInt.natAbs).length ≤ 20 :=
    (Nat.length_toDigits_le_iff (by decide) (by decide)).2 (by omega)
  have hword : WordInt.ofInt? i.toInt = some i := WordInt.ofInt?_eq_some.2 rfl
  have hvalue : (if i.toInt < 0 then -(i.toInt.natAbs : Int) else i.toInt.natAbs) = i.toInt := by
    split <;> omega
  have hsmall : ¬(20 < (Nat.toDigits 10 i.toInt.natAbs).length ∨
      i.toInt < 0 ∧ i.toInt.natAbs = 0) := by omega
  simp only [integer?, ofNumber, List.take_of_length_le hlength, Nat.ofDigitChars_ten_toDigits,
    decide_eq_true_eq, hvalue, if_neg hsmall, hword]

theorem integer?_marked {l : Literal} (h : l.fraction ≠ none ∨ l.exponent ≠ none) :
    l.integer? = none := by
  obtain ⟨negative, whole, _ | f, _ | e⟩ := l
  · simp at h
  all_goals rfl

/-- What is written for an integer is read as the integer. -/
theorem number?_ofNumber (i : WordInt) : (ofNumber (.integer i)).number? = some (.integer i) := by
  rw [number?, integer?_ofNumber]

/-- To what is written for a number, the number is the nearest one. -/
theorem nearest?_ofNumber (n : Number) : (ofNumber n).nearest? = some n := by
  cases n with
  | integer i => rw [nearest?, integer?_ofNumber]
  | real x =>
    have hreal : Binary64.ofDecimal? (ofNumber (.real x)).negative
        (ofNumber (.real x)).parts.scaled.coefficient
        (ofNumber (.real x)).parts.scaled.exponent = some x :=
      (reals.realParts_roundsTo x).ofDecimal?
    have hinteger : (ofNumber (.real x)).integer? = none :=
      integer?_marked (Layout.parts_marked rfl _)
    rw [nearest?, hinteger, hreal]
    rfl

/-! ## What is written of what was read -/

theorem toRat_whole {l : Literal} (hf : l.fraction = none) (he : l.exponent = none) :
    l.toRat = ((if l.negative then -(Nat.ofDigitChars 10 l.whole 0 : Int)
      else Nat.ofDigitChars 10 l.whole 0 : Int) : ℚ) := by
  obtain ⟨negative, whole, fraction, exponent⟩ := l
  subst hf he
  cases negative <;> simp [toRat, parts, Parts.scaled, Scaled.toRat]

theorem coefficient_of_toRat {l : Literal} (h : l.toRat = 0) :
    l.parts.scaled.coefficient = 0 := by
  have hpower : (10 : ℚ) ^ l.parts.scaled.exponent ≠ 0 := zpow_ne_zero _ (by norm_num)
  cases hsign : l.negative <;> simpa [toRat, Scaled.toRat, hsign, hpower] using h

theorem toRat_of_integer? {l : Literal} {i : WordInt} (h : l.integer? = some i) :
    l.toRat = i.toInt := by
  obtain ⟨negative, whole, fraction, exponent⟩ := l
  unfold integer? at h
  dsimp only at h
  split at h
  · next hf he =>
    split at h
    · cases h
    · next hsmall =>
      rw [not_or] at hsmall
      rw [List.take_of_length_le (by omega)] at h
      rw [toRat_whole rfl rfl, WordInt.ofInt?_eq_some.1 h]
  · cases h

/-- As long as a word can hold them, all digits go into it. -/
theorem intoWord_eq {ds : List Char} {n : Nat}
    (h : Nat.ofDigitChars 10 ds n < 0x10000000000000000) :
    intoWord n ds = (Nat.ofDigitChars 10 ds n, []) := by
  induction ds generalizing n with
  | nil => rfl
  | cons d ds ih =>
    rw [Nat.ofDigitChars_cons] at h ⊢
    have hnext : 10 * n + (d.toNat - '0'.toNat) < 0x10000000000000000 := by
      rw [Nat.ofDigitChars_eq_ofDigitChars_zero] at h
      have hone : 0 < 10 ^ ds.length := Nat.pow_pos (by decide)
      exact Nat.lt_of_le_of_lt (Nat.le_mul_of_pos_left _ hone) (Nat.lt_of_le_of_lt
        (Nat.le_add_right _ _) h)
    rw [intoWord, if_pos hnext, ih h]

/-- Digits that a word can hold are scaled by the exponent of the last one. -/
theorem real?_eq {l : Literal} (h : l.parts.scaled.coefficient < 0x10000000000000000) :
    l.real? = Binary64.ofScaled? l.negative l.parts.scaled.coefficient l.parts.scaled.exponent := by
  obtain ⟨negative, whole, fraction, exponent⟩ := l
  simp only [parts, Parts.scaled, Nat.ofDigitChars_append] at h ⊢
  have hwhole : Nat.ofDigitChars 10 whole 0 < 0x10000000000000000 := by
    rw [Nat.ofDigitChars_eq_ofDigitChars_zero] at h
    have hone : 0 < 10 ^ (fraction.getD []).length := Nat.pow_pos (by decide)
    exact Nat.lt_of_le_of_lt (Nat.le_mul_of_pos_left _ hone) (Nat.lt_of_le_of_lt
      (Nat.le_add_right _ _) h)
  simp [real?, intoWord_eq hwhole, intoWord_eq h]

/-- A literal without point and exponent that a word can hold. -/
def IsWord (l : Literal) : Prop :=
  l.fraction = none ∧ l.exponent = none ∧ -2 ^ 63 ≤ l.toRat ∧ l.toRat < 2 ^ 64

/-- A literal whose digits make a number of no more than 15 digits, the last of them with an
exponent between -22 and 22. -/
def IsShort (l : Literal) : Prop :=
  l.parts.scaled.coefficient < 10 ^ 15 ∧ l.parts.scaled.exponent.natAbs ≤ 22

instance : DecidablePred IsShort :=
  fun _ => inferInstanceAs (Decidable (_ ∧ _))

theorem length_whole {l : Literal} (h : l.parts.WellFormed) {k : Nat}
    (hk : 0 < k) (hvalue : Nat.ofDigitChars 10 l.whole 0 < 10 ^ k) : l.whole.length ≤ k := by
  have hdigits : AreDigits l.whole := h.whole
  by_cases hhead : l.whole.head? = some '0'
  · have hwhole : l.whole = ['0'] := h.head hhead
    rw [hwhole]
    exact hk
  · have hleast := hdigits.le_ofDigitChars hhead []
    rw [List.append_nil, List.length_nil, Nat.add_zero] at hleast
    have hpower : l.whole.length - 1 < k :=
      (Nat.pow_lt_pow_iff_right (by decide)).1 (Nat.lt_of_le_of_lt hleast hvalue)
    omega

/-- Of the literals that a word can hold only a negative zero is read as no integer. -/
theorem integer?_of_isWord {l : Literal} (h : l.parts.WellFormed) (hl : l.IsWord) :
    (∃ i, l.integer? = some i) ∨ l.toRat = 0 := by
  obtain ⟨hf, he, hleast, hmost⟩ := hl
  rw [toRat_whole hf he] at hleast hmost ⊢
  have hlength := length_whole (k := 20) h (by decide)
  simp only [integer?, hf, he]
  generalize hn : Nat.ofDigitChars 10 l.whole 0 = n at *
  generalize hz : (if l.negative then -(n : Int) else n) = z at *
  have hleast : -2 ^ 63 ≤ z := by exact_mod_cast hleast
  have hmost : z < 2 ^ 64 := by exact_mod_cast hmost
  have hsmall : n < 10 ^ 20 := by split at hz <;> omega
  by_cases hzero : n = 0
  · right
    split at hz <;> simp [← hz, hzero]
  · left
    rw [List.take_of_length_le (hlength hsmall), hn, hz,
      if_neg (by simp [hzero, Nat.not_lt.2 (hlength hsmall)])]
    exact Option.isSome_iff_exists.1 (WordInt.isSome_ofInt?.2 (by omega))

theorem toRat_ofNumber_real (x : Binary64) : (ofNumber (.real x)).toRat =
    (if x.negative then -1 else 1) * (shortest .toEven x.units).toRat :=
  congrArg (_ * ·) (reals.toRat_realParts x)

/-- A short literal is read as the nearest double, and is written with the digits that it has. -/
theorem toRat_ofNumber_short {l : Literal} {x : Binary64} (hx : l.real? = some x)
    (hl : l.IsShort) : (ofNumber (.real x)).toRat = l.toRat := by
  obtain ⟨hdigits, hexponent⟩ := hl
  rw [real?_eq (hdigits.trans (by decide)),
    Binary64.ofScaled?_eq _ (hdigits.trans (by decide)) hexponent] at hx
  obtain ⟨hnegative, hround⟩ := Scaled.roundsTo_of_ofDecimal? hx
  rw [toRat_ofNumber_real, hnegative, toRat]
  congr 1
  by_cases hzero : l.parts.scaled.coefficient = 0
  · have hnone : l.parts.scaled.toRat = 0 := by rw [Scaled.toRat, hzero, Nat.cast_zero, zero_mul]
    rw [hround.eq_zero hnone, hnone, shortest, if_pos rfl]
    simp [Scaled.toRat]
  · exact toRat_shortest_eq x.spacing_dvd .toEven hdigits hround
      (log2_of_normal (Scaled.normal_of_natAbs_le hzero hexponent) hround)

/-- An integer that a word can hold, and a number of few digits, are written as they are read. -/
theorem toRat_ofNumber {l : Literal} (h : l.parts.WellFormed) {n : Number}
    (hn : l.number? = some n) (hl : l.IsWord ∨ l.IsShort) : (ofNumber n).toRat = l.toRat := by
  unfold number? at hn
  split at hn
  · next i hinteger =>
    cases hn
    rw [toRat_of_integer? (integer?_ofNumber i), toRat_of_integer? hinteger]
  · next hinteger =>
    obtain ⟨x, hx, rfl⟩ := Option.map_eq_some_iff.1 hn
    -- A literal that a word can hold is read as no integer only if it is a negative zero.
    refine toRat_ofNumber_short hx (hl.elim (fun hword => ?_) id)
    rcases integer?_of_isWord h hword with ⟨i, hi⟩ | hzero
    · rw [hinteger] at hi
      cases hi
    · obtain ⟨hfraction, hexponent, -⟩ := hword
      have hnone : l.parts.scaled.coefficient = 0 := coefficient_of_toRat hzero
      exact ⟨hnone ▸ by decide, by simp [parts, Parts.scaled, hfraction, hexponent]⟩

-- The exponent is one too large: the product of 3 and the double nearest to 10^23 is rounded away.
example : (number? ⟨false, ['3'], none, some 23⟩).map ofNumber =
    some ⟨false, ['2'], some "9999999999999997".toList, some 23⟩ := by decide +kernel

end RecordService.Json.Literal
