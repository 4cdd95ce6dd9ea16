/-!
# Hexadecimal digits

Digits of either case are read from octets and written in lower case.
`value?_octet` says that a written digit reads back.
-/

namespace RecordService.Text.Hex

/-- The value of one digit, in either case. -/
def value? (b : UInt8) : Option Nat :=
  if 0x30 ≤ b ∧ b ≤ 0x39 then some (b.toNat - 0x30)
  else if 0x41 ≤ b ∧ b ≤ 0x46 then some (b.toNat - 0x41 + 10)
  else if 0x61 ≤ b ∧ b ≤ 0x66 then some (b.toNat - 0x61 + 10)
  else none

/-- The value of a run of digits, most significant first; `none` if one of them is no digit. -/
def ofDigits? (bs : List UInt8) : Option Nat :=
  bs.foldlM (fun acc b => (value? b).map (acc * 16 + ·)) 0

/-- The lower case digits of a number, without leading zeros. -/
def digits (n : Nat) : List Char :=
  Nat.toDigits 16 n

/-- The digits of a number, padded with zeros to at least `width`. -/
def padded (width n : Nat) : List Char :=
  List.replicate (width - (digits n).length) '0' ++ digits n

/-- The octet of a lower case digit. -/
def octet (n : Nat) : UInt8 :=
  UInt8.ofNat (Nat.digitChar n).toNat

theorem value?_octet : ∀ n < 16, value? (octet n) = some n := by
  decide

theorem ascii_of_value? {b : UInt8} {n : Nat} (h : value? b = some n) : b < 0x80 := by
  simp only [value?, UInt8.le_iff_toNat_le] at h
  rw [UInt8.lt_iff_toNat_lt]
  split at h
  · simp_all; omega
  · split at h
    · simp_all; omega
    · split at h
      · simp_all; omega
      · simp at h

end RecordService.Text.Hex
