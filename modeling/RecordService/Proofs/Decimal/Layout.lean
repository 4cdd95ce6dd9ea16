import RecordService.Decimal.Layout
import RecordService.Proofs.Decimal.Shortest
/-!
# The parts of decimal text

Whatever a layout decides, the text of a decimal has digits before a point, and may have digits
after it and an exponent. Read as numbers, these parts are the decimal again.
-/

namespace RecordService.Decimal

/-! ## Digits -/

/-- Digits, at least one. -/
structure AreDigits (cs : List Char) : Prop where
  ne_nil : cs ≠ []
  isDigit : ∀ c ∈ cs, c.isDigit = true

theorem AreDigits.append {cs ds : List Char} (h : AreDigits cs)
    (hds : ∀ c ∈ ds, c.isDigit = true) : AreDigits (cs ++ ds) :=
  ⟨by simp [h.ne_nil], fun c hc => (List.mem_append.1 hc).elim (h.isDigit c) (hds c)⟩

theorem areDigits_toDigits (n : Nat) : AreDigits (Nat.toDigits 10 n) :=
  ⟨Nat.toDigits_ne_nil, fun _ h => Nat.isDigit_of_mem_toDigits (by decide) (by decide) h⟩

theorem isDigit_of_mem_replicate {n : Nat} {c : Char} (h : c ∈ List.replicate n '0') :
    c.isDigit = true := by
  rw [List.eq_of_mem_replicate h]
  rfl

/-- Only the digits of zero begin with a zero. -/
theorem toDigits_head {n : Nat} (h : (Nat.toDigits 10 n).head? = some '0') : n = 0 := by
  induction n using Nat.strong_induction_on with
  | _ n ih =>
    rcases Nat.lt_or_ge n 10 with hn | hn
    · have hdigits : ∀ m < 10, (Nat.toDigits 10 m).head? = some '0' → m = 0 := by decide
      exact hdigits n hn h
    · rw [Nat.toDigits_of_base_le (by decide) hn, List.head?_append_of_ne_nil _ Nat.toDigits_ne_nil]
        at h
      have := ih (n / 10) (by omega) h
      omega

theorem ofDigitChars_zeros (n : Nat) (cs : List Char) :
    Nat.ofDigitChars 10 (List.replicate n '0' ++ cs) 0 = Nat.ofDigitChars 10 cs 0 := by
  rw [Nat.ofDigitChars_append, Nat.ofDigitChars_replicate_zero, Nat.mul_zero]

/-- Digits after a first one that is no zero are a number of that length. -/
theorem AreDigits.le_ofDigitChars {ds : List Char} (h : AreDigits ds)
    (hhead : ds.head? ≠ some '0') (fs : List Char) :
    10 ^ (ds.length - 1 + fs.length) ≤ Nat.ofDigitChars 10 (ds ++ fs) 0 := by
  obtain ⟨d, ds, rfl⟩ := List.exists_cons_of_ne_nil h.ne_nil
  have hd : d.isDigit = true := h.isDigit d List.mem_cons_self
  have hne : d.toNat ≠ '0'.toNat := fun heq => hhead (congrArg some (Char.toNat_inj.1 heq))
  have hpos : 0 < 10 * 0 + (d.toNat - '0'.toNat) := by
    simp only [Char.isDigit, Bool.and_eq_true, decide_eq_true_eq, UInt32.le_iff_toNat_le] at hd
    have hleast : '0'.toNat ≤ d.toNat := hd.1
    omega
  rw [List.cons_append, Nat.ofDigitChars_cons, Nat.ofDigitChars_eq_ofDigitChars_zero,
    List.length_append, List.length_cons, Nat.add_sub_cancel]
  exact (Nat.le_mul_of_pos_right _ hpos).trans (Nat.le_add_right _ _)

/-! ## Parts -/

/-- A numeral after its sign: digits, digits after a point, and an exponent. -/
structure Parts where
  whole : List Char
  fraction : Option (List Char)
  exponent : Option Int

namespace Parts

/-- The text of an exponent. -/
def exponentMark (e : Int) : List Char :=
  'e' :: (if e < 0 then '-' else '+') :: Nat.toDigits 10 e.natAbs

def text (p : Parts) : List Char :=
  p.whole ++ (p.fraction.elim [] ('.' :: ·) ++ p.exponent.elim [] exponentMark)

/-- The decimal that the parts are. -/
def scaled (p : Parts) : Scaled :=
  ⟨Nat.ofDigitChars 10 (p.whole ++ p.fraction.getD []) 0,
    p.exponent.getD 0 - (p.fraction.getD []).length⟩

/-- A zero begins no other digits, and digits follow a point. -/
structure WellFormed (p : Parts) : Prop where
  whole : AreDigits p.whole
  head : p.whole.head? = some '0' → p.whole = ['0']
  fraction : ∀ f, p.fraction = some f → AreDigits f

end Parts

/-! ## The parts of a decimal -/

/-- The digits with the point in its place, in parts. -/
def positionalParts (wholeFraction : Bool) (digits : List Char) (exponent : Int) : Parts :=
  if 0 ≤ exponent then
    ⟨digits ++ List.replicate exponent.toNat '0', if wholeFraction then some ['0'] else none, none⟩
  else
    let places := (-exponent).toNat
    if places < digits.length then
      ⟨digits.take (digits.length - places), some (digits.drop (digits.length - places)), none⟩
    else ⟨['0'], some (List.replicate (places - digits.length) '0' ++ digits), none⟩

/-- The digits with the point after the first one, in parts. -/
def exponentParts (digits : List Char) (first : Int) : Parts :=
  ⟨digits.take 1, if digits.length ≤ 1 then none else some (digits.drop 1), some first⟩

theorem exponent_positionalParts (wholeFraction : Bool) (digits : List Char) (exponent : Int) :
    (positionalParts wholeFraction digits exponent).exponent = none := by
  unfold positionalParts
  split
  · rfl
  · dsimp only
    split <;> rfl

theorem fraction_positionalParts (wholeFraction : Bool) (digits : List Char) {exponent : Int}
    (h : exponent < 0) : (positionalParts wholeFraction digits exponent).fraction ≠ none := by
  unfold positionalParts
  rw [if_neg (by omega)]
  dsimp only
  split <;> simp

theorem text_positionalParts (wholeFraction : Bool) (digits : List Char) (exponent : Int) :
    (positionalParts wholeFraction digits exponent).text =
      positionalText wholeFraction digits exponent := by
  unfold positionalParts positionalText
  dsimp only
  split
  · cases wholeFraction <;> simp [Parts.text]
  · split <;> simp [Parts.text]

theorem text_exponentParts (digits : List Char) (first : Int) :
    (exponentParts digits first).text = exponentText digits first := by
  unfold exponentParts exponentText
  split <;> simp [Parts.text, Parts.exponentMark]

namespace Layout

/-- The point is set in its place, and no exponent is written. -/
def isPositional (layout : Layout) (first : Int) : Bool :=
  match layout.positional with
  | none => true
  | some (least, most) => decide (least ≤ first ∧ first ≤ most)

/-- The parts of a decimal as the layout sets it. -/
def parts (layout : Layout) (d : Scaled) : Parts :=
  let digits := Nat.toDigits 10 d.coefficient
  let first := d.exponent + digits.length - 1
  if layout.isPositional first then positionalParts layout.wholeFraction digits d.exponent
  else exponentParts digits first

theorem text_parts (layout : Layout) (d : Scaled) : (layout.parts d).text = layout.decimal d := by
  change _ = if layout.isPositional _ then positionalText _ _ _ else exponentText _ _
  rw [parts]
  split
  · exact text_positionalParts _ _ _
  · exact text_exponentParts _ _

end Layout

/-- Whole numbers that end in `.0` are told from integers by that, or by an exponent. -/
theorem Layout.parts_marked {layout : Layout} (h : layout.wholeFraction = true) (d : Scaled) :
    (layout.parts d).fraction ≠ none ∨ (layout.parts d).exponent ≠ none := by
  unfold parts
  dsimp only
  split
  · left
    rw [h]
    unfold positionalParts
    split
    · simp
    · dsimp only
      split <;> simp
  · right
    simp [exponentParts]

/-! ## Parts as numbers -/

theorem Scaled.toRat_zeros (c k : Nat) (e : Int) :
    (Scaled.mk (c * 10 ^ k) (e - k)).toRat = (Scaled.mk c e).toRat := by
  have hk : (10 : ℚ) ^ k ≠ 0 := by positivity
  rw [toRat, toRat, zpow_sub₀ (by norm_num), zpow_natCast]
  field_simp
  push_cast
  ring

theorem ofDigitChars_append_zeros (n k : Nat) :
    Nat.ofDigitChars 10 (Nat.toDigits 10 n ++ List.replicate k '0') 0 = n * 10 ^ k := by
  rw [Nat.ofDigitChars_append, Nat.ofDigitChars_ten_toDigits, Nat.ofDigitChars_replicate_zero,
    Nat.mul_comm]

theorem scaled_positionalParts (wholeFraction : Bool) (c : Nat) (e : Int) : ∃ k : Nat,
    (positionalParts wholeFraction (Nat.toDigits 10 c) e).scaled = ⟨c * 10 ^ k, e - k⟩ := by
  unfold positionalParts
  dsimp only
  split
  · next he =>
    obtain ⟨k, rfl⟩ := Int.eq_ofNat_of_zero_le he
    cases wholeFraction
    · refine ⟨k, ?_⟩
      simp [Parts.scaled, ofDigitChars_append_zeros]
    · -- The zero after the point is one more zero after the digits.
      refine ⟨k + 1, ?_⟩
      have hzeros : List.replicate k '0' ++ ['0'] = List.replicate (k + 1) '0' :=
        (List.replicate_succ' ..).symm
      simp [Parts.scaled, List.append_assoc, hzeros, ofDigitChars_append_zeros]
  · next he =>
    refine ⟨0, ?_⟩
    split
    · next hlt =>
      simp [Parts.scaled]
      omega
    · next hlt =>
      have hzeros : '0' :: (List.replicate ((-e).toNat - (Nat.toDigits 10 c).length) '0' ++
          Nat.toDigits 10 c) = List.replicate ((-e).toNat - (Nat.toDigits 10 c).length + 1) '0' ++
          Nat.toDigits 10 c := by rw [List.replicate_succ, List.cons_append]
      simp [Parts.scaled, hzeros, ofDigitChars_zeros]
      omega

theorem scaled_exponentParts (c : Nat) (e : Int) :
    (exponentParts (Nat.toDigits 10 c) (e + (Nat.toDigits 10 c).length - 1)).scaled = ⟨c, e⟩ := by
  have hlength := Nat.length_toDigits_pos (b := 10) (n := c)
  unfold exponentParts
  split
  · next hone =>
    simp [Parts.scaled, List.take_of_length_le hone]
    omega
  · simp only [Parts.scaled, Option.getD_some, List.take_append_drop, List.length_drop,
      Nat.ofDigitChars_ten_toDigits, Scaled.mk.injEq, true_and]
    omega

/-- The parts of a decimal are the decimal. -/
theorem Layout.toRat_parts (layout : Layout) (d : Scaled) :
    (layout.parts d).scaled.toRat = d.toRat := by
  obtain ⟨c, e⟩ := d
  unfold parts
  dsimp only
  split
  · obtain ⟨k, hk⟩ := scaled_positionalParts layout.wholeFraction c e
    rw [hk, Scaled.toRat_zeros]
  · rw [scaled_exponentParts]

/-! ## Parts as text -/

theorem wellFormed_positionalParts (wholeFraction : Bool) {c : Nat} {e : Int}
    (h : c = 0 → e = 0) : (positionalParts wholeFraction (Nat.toDigits 10 c) e).WellFormed := by
  have hdigits := areDigits_toDigits c
  unfold positionalParts
  dsimp only
  split
  · refine ⟨hdigits.append fun _ => isDigit_of_mem_replicate, fun hhead => ?_, fun f hf => ?_⟩
    · rw [List.head?_append_of_ne_nil _ hdigits.ne_nil] at hhead
      obtain rfl := toDigits_head hhead
      rw [h rfl]
      rfl
    · split at hf
      · cases hf
        exact ⟨by simp, by simp⟩
      · cases hf
  · next he =>
    split
    · next hlt =>
      have hpos : 0 < (Nat.toDigits 10 c).length - (-e).toNat := by omega
      refine ⟨⟨by simp; omega, fun d hd => hdigits.isDigit d (List.mem_of_mem_take hd)⟩, ?_, ?_⟩
      · intro hhead
        rw [List.head?_take, if_neg hpos.ne'] at hhead
        have := h (toDigits_head hhead)
        omega
      · rintro f ⟨⟩
        exact ⟨by simp; omega, fun d hd => hdigits.isDigit d (List.mem_of_mem_drop hd)⟩
    · refine ⟨⟨by simp, by simp⟩, fun _ => rfl, ?_⟩
      rintro f ⟨⟩
      refine ⟨by simp, fun d hd => ?_⟩
      exact (List.mem_append.1 hd).elim isDigit_of_mem_replicate (hdigits.isDigit d)

theorem wellFormed_exponentParts (c : Nat) (first : Int) :
    (exponentParts (Nat.toDigits 10 c) first).WellFormed := by
  have hdigits := areDigits_toDigits c
  have hlength := Nat.length_toDigits_pos (b := 10) (n := c)
  refine ⟨⟨by simp [exponentParts], fun d hd => hdigits.isDigit d (List.mem_of_mem_take hd)⟩,
    ?_, ?_⟩
  · intro hhead
    obtain ⟨d, ds, hd⟩ := List.exists_cons_of_ne_nil hdigits.ne_nil
    simp_all [exponentParts]
  · intro f hf
    simp only [exponentParts] at hf
    split at hf
    · cases hf
    · next hmore =>
      cases hf
      refine ⟨fun hnil => hmore (List.drop_eq_nil_iff.1 hnil), fun d hd => ?_⟩
      exact hdigits.isDigit d (List.mem_of_mem_drop hd)

/-- The parts of a decimal are well-formed, if zero has no exponent. -/
theorem Layout.wellFormed_parts (layout : Layout) {d : Scaled}
    (h : d.coefficient = 0 → d.exponent = 0) : (layout.parts d).WellFormed := by
  unfold parts
  dsimp only
  split
  · exact wellFormed_positionalParts _ h
  · exact wellFormed_exponentParts _ _

/-! ## Doubles -/

namespace Layout

variable (layout : Layout) (x : Binary64)

/-- The parts of a double as the layout sets it. -/
def realParts : Parts :=
  layout.parts (shortest layout.tie x.units)

/-- A double is written as its sign and its parts. -/
theorem text_eq : layout.text x =
    (if x.negative then ['-'] else []) ++ (layout.realParts x).text := by
  rw [text, realParts, text_parts]

theorem toRat_realParts :
    (layout.realParts x).scaled.toRat = (shortest layout.tie x.units).toRat :=
  layout.toRat_parts _

/-- The parts of a double are read as the double. -/
theorem realParts_roundsTo : (layout.realParts x).scaled.RoundsTo x.units :=
  (Scaled.roundsTo_congr (layout.toRat_realParts x)).2 (shortest_roundsTo x.spacing_dvd _)

theorem wellFormed_realParts : (layout.realParts x).WellFormed :=
  layout.wellFormed_parts (exponent_shortest_zero x.spacing_dvd _)

end Layout

end RecordService.Decimal
