import RecordService.Proofs.Decimal.Layout
import RecordService.Table.Numeral
/-!
# Integers as numerals

Digits after a sign are read as an integer. So the numeral of an integer is read as that integer,
for every integer that a word can hold.
-/

namespace RecordService.Table.Numeral

open Decimal

/-- Digits do not begin with a sign. -/
theorem sign_digits {ds : List Char} (h : AreDigits ds) (cs : List Char) :
    sign (ds ++ cs) = (false, ds ++ cs) := by
  obtain ⟨d, ds, rfl⟩ := List.exists_cons_of_ne_nil h.ne_nil
  have hd : d.isDigit = true := h.isDigit d List.mem_cons_self
  rw [List.cons_append]
  unfold sign
  split
  · next heq => cases heq; simp [Char.isDigit] at hd
  · next heq => cases heq; simp [Char.isDigit] at hd
  · rfl

/-- A minus sign is told from the digits after it. -/
theorem sign_minus (negative : Bool) {ds : List Char} (h : AreDigits ds) (cs : List Char) :
    sign ((if negative then ['-'] else []) ++ (ds ++ cs)) = (negative, ds ++ cs) := by
  cases negative with
  | true => rfl
  | false => exact sign_digits h cs

theorem integer?_digits (negative : Bool) {ds : List Char} (h : AreDigits ds) :
    integer? ((if negative then ['-'] else []) ++ ds) =
      some (if negative then -(Nat.ofDigitChars 10 ds 0 : Int) else Nat.ofDigitChars 10 ds 0) := by
  have hsign := sign_minus negative h []
  rw [List.append_nil] at hsign
  have hne : ds.isEmpty = false := by simpa using h.ne_nil
  have hdigits : ds.all Char.isDigit = true := List.all_eq_true.2 h.isDigit
  simp only [integer?, hsign, hne, hdigits, Bool.false_eq_true, Bool.not_true, or_self, if_false]

theorem integer?_intText (i : Int) : integer? (Value.intText i) = some i := by
  have hread := integer?_digits (decide (i < 0)) (areDigits_toDigits i.natAbs)
  simp only [decide_eq_true_eq, Nat.ofDigitChars_ten_toDigits] at hread
  rw [Value.intText, hread]
  split <;> congr 1 <;> omega

/-- An integer is read back from its numeral. -/
theorem read?_text (i : WordInt) : read? (text (.integer i)) = some (.number (.integer i)) := by
  have hword : WordInt.ofInt? i.toInt = some i := WordInt.ofInt?_eq_some.2 rfl
  simp [read?, text, integer?_intText, hword]

end RecordService.Table.Numeral
