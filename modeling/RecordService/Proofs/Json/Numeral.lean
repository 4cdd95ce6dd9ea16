import RecordService.Proofs.Decimal.Layout
import RecordService.Proofs.Json.Grammar
/-!
# Numbers as they are written

A literal is a sign and the parts of a decimal. What the reader takes for a number has well-formed
parts, and well-formed parts are read from their text, up to an octet that cannot belong to a
number.
-/

namespace RecordService.Json.Literal

open Decimal (AreDigits Parts areDigits_toDigits)
open Text.Utf8 (encode encode_append)

/-- What a literal is after its sign. -/
def parts (l : Literal) : Parts :=
  ⟨l.whole, l.fraction, l.exponent⟩

/-- A literal as the printer would set it. -/
def text (l : Literal) : List Char :=
  (if l.negative then ['-'] else []) ++ l.parts.text

/-- A number does not go on in what follows it. -/
def Stops (rest : List UInt8) : Prop :=
  ∀ b ∈ rest.head?, isDigit b = false ∧ b ≠ 0x2E ∧ b ≠ 0x65 ∧ b ≠ 0x45

/-! ## Digits -/

/-- A digit has one octet. -/
theorem exists_octet {d : Char} (h : d.isDigit = true) :
    ∃ b, String.utf8EncodeChar d = [b] ∧ isDigit b = true ∧ Char.ofNat b.toNat = d := by
  have hlt : d.toNat < 0x80 := by
    simp only [Char.isDigit, Bool.and_eq_true, decide_eq_true_eq, UInt32.le_iff_toNat_le] at h
    exact Nat.lt_of_le_of_lt h.2 (by decide)
  have hoctet : d.isDigit = true → isDigit (UInt8.ofNat d.toNat) = true ∧
      Char.ofNat (UInt8.ofNat d.toNat).toNat = d := Text.Utf8.forall_ascii hlt (by decide)
  exact ⟨_, Text.Utf8.utf8EncodeChar_ascii hlt, hoctet h⟩

/-- The digits are read, up to what is none. -/
theorem digitRun_encode {ds : List Char} (h : ∀ d ∈ ds, d.isDigit = true) {rest : List UInt8}
    (hrest : ∀ b ∈ rest.head?, isDigit b = false) : digitRun (encode ds ++ rest) = (ds, rest) := by
  induction ds with
  | nil =>
    cases rest with
    | nil => rfl
    | cons b rest =>
      have hb : isDigit b = false := hrest b rfl
      simp [encode, digitRun, hb]
  | cons d ds ih =>
    obtain ⟨hd, hds⟩ := List.forall_mem_cons.1 h
    obtain ⟨b, hcode, hb, hchar⟩ := exists_octet hd
    have hcons : encode (d :: ds) = b :: encode ds := by
      rw [encode, List.flatMap_cons, hcode]
      rfl
    have ih := ih hds
    rw [digitRun, Prod.mk.injEq] at ih
    rw [hcons, List.cons_append, digitRun, List.takeWhile_cons_of_pos hb,
      List.dropWhile_cons_of_pos hb, List.map_cons, hchar, ih.1, ih.2]

theorem readDigits_encode {ds : List Char} (h : AreDigits ds) {rest : List UInt8}
    (hrest : ∀ b ∈ rest.head?, isDigit b = false) :
    readDigits (encode ds ++ rest) = .ok (ds, rest) :=
  readDigits_eq_ok.2 ⟨digitRun_encode h.isDigit hrest, h.ne_nil⟩

/-! ## Parts -/

theorem readWhole_encode {ds : List Char} (h : AreDigits ds)
    (hhead : ds.head? = some '0' → ds = ['0']) {rest : List UInt8}
    (hrest : ∀ b ∈ rest.head?, isDigit b = false) :
    readWhole (encode ds ++ rest) = .ok (ds, rest) := by
  have hrun := digitRun_encode h.isDigit hrest
  obtain ⟨d, ds, rfl⟩ := List.exists_cons_of_ne_nil h.ne_nil
  obtain ⟨b, hcode, hb, hchar⟩ := exists_octet (h.isDigit d List.mem_cons_self)
  have hcons : encode (d :: ds) ++ rest = b :: (encode ds ++ rest) := by
    rw [encode, List.flatMap_cons, hcode]
    rfl
  rw [hcons] at hrun ⊢
  unfold readWhole
  split
  · next heq => cases heq
  · next c tail heq =>
    -- A zero at the head is all there is of the digits.
    obtain ⟨rfl, htail⟩ := List.cons.inj heq
    have hnil : ds = [] := (List.cons.inj (hhead (congrArg some hchar.symm))).2
    subst hnil
    obtain rfl : rest = c :: tail := htail
    rw [if_neg (by simp [hrest c rfl]), ← hchar]
    rfl
  · next heq =>
    obtain ⟨rfl, rfl⟩ := List.cons.inj heq
    rw [if_pos hb, hrun]

theorem readFraction_encode {f : Option (List Char)} (h : ∀ ds, f = some ds → AreDigits ds)
    {rest : List UInt8} (hrest : ∀ b ∈ rest.head?, isDigit b = false ∧ b ≠ 0x2E) :
    readFraction (encode (f.elim [] ('.' :: ·)) ++ rest) = .ok (f, rest) := by
  cases f with
  | none =>
    change readFraction rest = _
    unfold readFraction
    split
    · exact absurd rfl (hrest 0x2E rfl).2
    · rfl
  | some ds =>
    change (readDigits (encode ds ++ rest)).map _ = _
    rw [readDigits_encode (h ds rfl) fun b hb => (hrest b hb).1]
    rfl

theorem readPower_encode (negative : Bool) (n : Nat) {rest : List UInt8}
    (hrest : ∀ b ∈ rest.head?, isDigit b = false) :
    readPower negative (encode (Nat.toDigits 10 n) ++ rest) =
      .ok (some (if negative then -(n : Int) else n), rest) := by
  rw [readPower, readDigits_encode (areDigits_toDigits n) hrest]
  simp only [Except.map, Nat.ofDigitChars_ten_toDigits]

theorem readExponent_encode (e : Option Int) {rest : List UInt8} (hrest : Stops rest) :
    readExponent (encode (e.elim [] Parts.exponentMark) ++ rest) = .ok (e, rest) := by
  cases e with
  | none =>
    change readExponent rest = _
    cases rest with
    | nil => rfl
    | cons b rest =>
      obtain ⟨-, -, hlower, hupper⟩ := hrest b rfl
      exact if_neg (by simp [hlower, hupper])
  | some e =>
    have hread := fun negative => readPower_encode negative e.natAbs fun b hb => (hrest b hb).1
    change readExponent (0x65 :: (encode (_ :: Nat.toDigits 10 e.natAbs) ++ rest)) = _
    rw [readExponent.eq_def]
    rcases Int.lt_or_le e 0 with he | he
    · have hvalue : -(e.natAbs : Int) = e := by omega
      rw [if_pos he]
      exact (hread true).trans (by rw [if_pos rfl, hvalue])
    · have hvalue : (e.natAbs : Int) = e := by omega
      rw [if_neg (Int.not_lt.2 he)]
      exact (hread false).trans (by rw [if_neg Bool.false_ne_true, hvalue])

/-- The text of parts begins with a digit. -/
theorem exists_first {p : Parts} (h : p.WellFormed) :
    ∃ b tail, encode p.text = b :: tail ∧ isDigit b = true := by
  obtain ⟨d, ds, hds⟩ := List.exists_cons_of_ne_nil h.whole.ne_nil
  obtain ⟨b, hcode, hb, -⟩ := exists_octet (h.whole.isDigit d (by simp [hds]))
  rw [Parts.text, hds, encode, List.cons_append, List.flatMap_cons, hcode]
  exact ⟨b, _, rfl, hb⟩

/-- A number is read from the text of its parts. -/
theorem readUnsigned_text (negative : Bool) {p : Parts} (h : p.WellFormed) {rest : List UInt8}
    (hrest : Stops rest) : readUnsigned negative (encode p.text ++ rest) =
      .ok (⟨negative, p.whole, p.fraction, p.exponent⟩, rest) := by
  obtain ⟨whole, fraction, exponent⟩ := p
  have hreadExponent := readExponent_encode exponent hrest
  -- Neither an exponent nor what follows goes on with digits, and nor does a point.
  have hexponent : ∀ b ∈ (encode (exponent.elim [] Parts.exponentMark) ++ rest).head?,
      isDigit b = false ∧ b ≠ 0x2E := by
    cases exponent with
    | none => exact fun b hb => ⟨(hrest b hb).1, (hrest b hb).2.1⟩
    | some e => rintro _ ⟨⟩; exact ⟨rfl, by decide⟩
  have hreadFraction := readFraction_encode h.fraction hexponent
  have hfraction : ∀ b ∈ (encode (fraction.elim [] ('.' :: ·)) ++
      (encode (exponent.elim [] Parts.exponentMark) ++ rest)).head?, isDigit b = false := by
    cases fraction with
    | none => exact fun b hb => (hexponent b hb).1
    | some f => rintro _ ⟨⟩; rfl
  have hreadWhole := readWhole_encode h.whole h.head hfraction
  rw [Parts.text, encode_append, encode_append, List.append_assoc, List.append_assoc, readUnsigned,
    hreadWhole]
  simp only [bind, Except.bind, pure, Except.pure, hreadFraction, hreadExponent]

/-- A literal is read from its text, up to an octet that cannot belong to a number. -/
theorem read_text {l : Literal} (h : l.parts.WellFormed) {rest : List UInt8} (hrest : Stops rest) :
    read (encode l.text ++ rest) = .ok (l, rest) := by
  have hread := readUnsigned_text l.negative h hrest
  rw [text]
  cases hsign : l.negative with
  | true =>
    rw [hsign] at hread
    change readUnsigned true (encode l.parts.text ++ rest) = _
    rw [hread, parts, ← hsign]
  | false =>
    rw [hsign] at hread
    -- The first octet is that of a digit, and so no sign.
    obtain ⟨b, tail, hcode, hb⟩ := exists_first h
    have hminus : b ≠ 0x2D := by
      rintro rfl
      cases hb
    simp only [Bool.false_eq_true, if_false, List.nil_append]
    rw [hcode, List.cons_append] at hread ⊢
    rw [read, hread, parts, ← hsign]
    rintro rest heq
    exact hminus (List.cons.inj heq).1

/-- The text of a literal begins with a sign or a digit. -/
theorem exists_first_text {l : Literal} (h : l.parts.WellFormed) :
    ∃ b tail, encode l.text = b :: tail ∧ (b = 0x2D ∨ isDigit b = true) := by
  obtain ⟨b, tail, hcode, hb⟩ := exists_first h
  rw [text]
  split
  · exact ⟨_, _, rfl, .inl rfl⟩
  · exact ⟨b, tail, hcode, .inr hb⟩

/-! ## What is read -/

theorem isDigit_char : ∀ b : UInt8, isDigit b = true →
    (Char.ofNat b.toNat).isDigit = true ∧ (Char.ofNat b.toNat = '0' → b = 0x30) :=
  Text.Utf8.forall_octet (by decide +kernel)

theorem isDigit_of_mem_digitRun {bs : List UInt8} {c : Char} (h : c ∈ (digitRun bs).1) :
    c.isDigit = true := by
  obtain ⟨b, hb, rfl⟩ := List.mem_map.1 h
  exact (isDigit_char b (List.mem_takeWhile_imp hb)).1

theorem areDigits_of_readDigits {bs rest : List UInt8} {ds : List Char}
    (h : readDigits bs = .ok (ds, rest)) : AreDigits ds := by
  obtain ⟨hrun, hne⟩ := readDigits_eq_ok.1 h
  exact ⟨hne, fun c hc => isDigit_of_mem_digitRun (by rwa [hrun])⟩

theorem areDigits_of_readWhole {bs rest : List UInt8} {ds : List Char}
    (h : readWhole bs = .ok (ds, rest)) : AreDigits ds ∧ (ds.head? = some '0' → ds = ['0']) := by
  unfold readWhole at h
  split at h
  · cases h
  · split at h
    · cases h
    · cases h
      exact ⟨⟨by simp, by simp⟩, fun _ => rfl⟩
  · next b bs hzero =>
    split at h
    · next hb =>
      have hrun : digitRun (b :: bs) = (ds, rest) := Except.ok.inj h
      have hdigits : ∀ c ∈ ds, c.isDigit = true := fun c hc =>
        isDigit_of_mem_digitRun (by rwa [hrun])
      rw [digitRun, List.takeWhile_cons_of_pos hb] at hrun
      obtain ⟨rfl, -⟩ := Prod.mk.inj hrun
      refine ⟨⟨by simp, hdigits⟩, fun hhead => ?_⟩
      -- A zero with anything after it is read by itself.
      obtain rfl : b = 0x30 := (isDigit_char b hb).2 (by simpa using hhead)
      cases bs with
      | nil => rfl
      | cons d bs => exact (hzero d bs rfl rfl).elim
    · cases h

theorem areDigits_of_readFraction {bs rest : List UInt8} {f : Option (List Char)}
    (h : readFraction bs = .ok (f, rest)) : ∀ ds, f = some ds → AreDigits ds := by
  unfold readFraction at h
  split at h
  · obtain ⟨⟨digits, rest⟩, hread, h⟩ := map_eq_ok.1 h
    cases h
    rintro _ ⟨⟩
    exact areDigits_of_readDigits hread
  · cases h
    exact nofun

theorem readUnsigned_wellFormed {negative : Bool} {bs rest : List UInt8} {l : Literal}
    (h : readUnsigned negative bs = .ok (l, rest)) : l.parts.WellFormed := by
  obtain ⟨⟨whole, _⟩, hwhole, h⟩ := bind_eq_ok.1 h
  obtain ⟨⟨fraction, _⟩, hfraction, h⟩ := bind_eq_ok.1 h
  obtain ⟨⟨exponent, _⟩, -, h⟩ := bind_eq_ok.1 h
  cases h
  obtain ⟨hdigits, hhead⟩ := areDigits_of_readWhole hwhole
  exact ⟨hdigits, hhead, areDigits_of_readFraction hfraction⟩

/-- What is read has well-formed parts. -/
theorem read_wellFormed {bs rest : List UInt8} {l : Literal} (h : read bs = .ok (l, rest)) :
    l.parts.WellFormed := by
  unfold read at h
  split at h
  · exact readUnsigned_wellFormed h
  · exact readUnsigned_wellFormed h

end RecordService.Json.Literal
