import RecordService.Proofs.Text.Utf8
import RecordService.Text.Percent
/-!
# Escaped octets

Octets that are all written as escapes are decoded to themselves, whatever the case of the digits.
What is written so holds no octet but `%` and digits, so none of the marks that divide the target of
a request or the parts of a form.
-/

namespace RecordService.Text.Percent

/-- Every octet is written as `%XX`, with hexadecimal digits of either case. -/
inductive Escapes : List UInt8 → List UInt8 → Prop
  | nil : Escapes [] []
  | cons {b high low : UInt8} {bs es : List UInt8} :
      Hex.value? high = some (b.toNat / 16) → Hex.value? low = some (b.toNat % 16) →
      Escapes bs es → Escapes (b :: bs) (0x25 :: high :: low :: es)

namespace Escapes

variable {bs es : List UInt8}

theorem decode (h : Escapes bs es) : decode es = bs := by
  induction h with
  | nil => rfl
  | @cons b high low bs es hhigh hlow _ ih =>
    have hb : b.toNat / 16 * 16 + b.toNat % 16 = b.toNat := by omega
    rw [Percent.decode, hhigh, hlow]
    simp [ih, hb]

theorem ne_nil (h : Escapes bs es) (hbs : bs ≠ []) : es ≠ [] := by
  cases h with
  | nil => exact hbs
  | cons _ _ _ => exact List.cons_ne_nil _ _

theorem mem (h : Escapes bs es) {e : UInt8} (he : e ∈ es) :
    e = 0x25 ∨ (Hex.value? e).isSome = true := by
  induction h with
  | nil => cases he
  | cons hhigh hlow _ ih =>
    simp only [List.mem_cons] at he
    rcases he with rfl | rfl | rfl | he
    · exact .inl rfl
    · exact .inr (by rw [hhigh]; rfl)
    · exact .inr (by rw [hlow]; rfl)
    · exact ih he

/-- An octet that is neither `%` nor a digit is not among the escapes. -/
theorem not_mem (h : Escapes bs es) {e : UInt8} (hpercent : e ≠ 0x25)
    (hdigit : Hex.value? e = none) : e ∉ es := by
  intro he
  rcases h.mem he with he | he
  · exact hpercent he
  · rw [hdigit] at he
    cases he

theorem ascii (h : Escapes bs es) : ∀ e ∈ es, e < 0x80 := by
  intro e he
  rcases h.mem he with rfl | he
  · decide
  · obtain ⟨d, hd⟩ := Option.isSome_iff_exists.1 he
    exact Hex.ascii_of_value? hd

/-- Escapes hold no `+`, so as part of a form they are decoded like any others. -/
theorem formDecode {s : String} (h : Escapes (Utf8.encode s.toList) es) : formDecode es = s := by
  have hplus : ∀ e ∈ es, (if e = 0x2B then 0x20 else e) = id e := by
    intro e he
    refine if_neg ?_
    rintro rfl
    exact h.not_mem (by decide) (by decide) he
  rw [Percent.formDecode, List.map_congr_left hplus, List.map_id, h.decode,
    Utf8.decodeLossy_encode, String.ofList_toList]

end Escapes

/-- A query of one name and one value. -/
theorem formPairs_escapes {name value : String} {es vs : List UInt8}
    (hes : Escapes (Utf8.encode name.toList) es) (hvs : Escapes (Utf8.encode value.toList) vs) :
    formPairs (es ++ 0x3D :: vs) = [(name, value)] := by
  have hamp : (0x26 : UInt8) ∉ es ++ 0x3D :: vs := by
    refine List.not_mem_append (hes.not_mem (by decide) (by decide)) ?_
    rw [List.mem_cons, not_or]
    exact ⟨by decide, hvs.not_mem (by decide) (by decide)⟩
  have hequals : ∀ e ∈ es, (decide (e ≠ 0x3D)) = true := by
    intro e he
    rw [decide_eq_true_eq]
    rintro rfl
    exact hes.not_mem (by decide) (by decide) he
  have hsplit : (es ++ 0x3D :: vs).splitOn 0x26 = [es ++ 0x3D :: vs] :=
    List.splitOn_eq_singleton hamp
  have hpair : formPair (es ++ 0x3D :: vs) = (name, value) := by
    rw [formPair, List.takeWhile_append_of_pos hequals, List.dropWhile_append_of_pos hequals]
    simp [hes.formDecode, hvs.formDecode]
  simp [formPairs, hsplit, hpair]

theorem escapes_encode (bs : List UInt8) : Escapes bs (encode bs) := by
  induction bs with
  | nil => exact .nil
  | cons b bs ih =>
    have hb : b.toNat < 256 := b.toNat_lt
    exact .cons (Hex.value?_octet _ (by omega)) (Hex.value?_octet _ (by omega)) ih

end RecordService.Text.Percent
