import RecordService.Proofs.Json.Outline
import RecordService.Proofs.Json.Printed
/-!
# Every JSON text is cut into its tokens

What the grammar lays out along the tokens of a tree is cut into just these tokens, whichever
escapes, numbers and blanks it is written with.
-/

namespace RecordService.Json

open Text.Utf8 (encode forall_octet)

/-! ## Texts -/

namespace Quoted

theorem isPlain_of_char {c : Char} (printable : 0x20 ≤ c.toNat) (quote : c ≠ '"')
    (backslash : c ≠ '\\') : ∀ b ∈ String.utf8EncodeChar c, IsPlain b := by
  by_cases hascii : c.toNat < 0x80
  · have hc : 0x20 ≤ c.toNat ∧ c ≠ '"' ∧ c ≠ '\\' → IsPlain (UInt8.ofNat c.toNat) := by
      unfold IsPlain
      exact Text.Utf8.forall_ascii hascii (by decide)
    rw [Text.Utf8.utf8EncodeChar_ascii hascii]
    exact List.forall_mem_singleton.2 (hc ⟨printable, quote, backslash⟩)
  · exact fun b hb => isPlain_of_high b (Text.Utf8.utf8EncodeChar_high (by omega) b hb)

theorem pass?_plain {bs : List UInt8} (h : ∀ b ∈ bs, IsPlain b) (rest : List UInt8) :
    pass? (bs ++ rest) = pass? rest := by
  induction bs with
  | nil => rfl
  | cons b bs ih =>
    obtain ⟨⟨hquote, hslash, hcontrol⟩, hbs⟩ := List.forall_mem_cons.1 h
    rw [List.cons_append, pass?.eq_def]
    split
    · next heq => exact absurd (List.cons.inj heq).1 hquote
    · next heq => exact absurd (List.cons.inj heq).1 hslash
    · next heq => exact absurd (List.cons.inj heq).1 hslash
    · next heq =>
      obtain ⟨rfl, rfl⟩ := List.cons.inj heq
      rw [if_neg (not_or.2 ⟨hcontrol, hslash⟩), ih hbs]
    · next heq => cases heq

theorem shortEscape?_isSome {e : UInt8}
    (h : e ∈ [0x22, 0x5C, 0x2F, 0x62, 0x66, 0x6E, 0x72, 0x74]) :
    e ≠ 0x75 ∧ (shortEscape? e).isSome = true := by
  simp only [List.mem_cons, List.not_mem_nil, or_false] at h
  rcases h with rfl | rfl | rfl | rfl | rfl | rfl | rfl | rfl <;> exact ⟨by decide, rfl⟩

end Quoted

/-- The end of quotes is found whether or not they hold a text. -/
theorem IsQuoted.pass? {inside : List UInt8} (h : IsQuoted inside) (rest : List UInt8) :
    Quoted.pass? (inside ++ 0x22 :: rest) = some rest := by
  induction h with
  | nil => rfl
  | char printable quote backslash _ ih =>
    have hplain := Quoted.isPlain_of_char printable quote backslash
    rw [List.append_assoc, Quoted.pass?_plain hplain, ih]
  | @short e bs escape _ ih =>
    obtain ⟨hunit, hshort⟩ := Quoted.shortEscape?_isSome escape
    rw [List.cons_append, List.cons_append, Quoted.pass?]
    · rw [if_pos hshort, ih]
    · intro _ _ _ _ _ heq _
      exact hunit heq
  | unit digits _ ih =>
    rw [← ih]
    exact if_pos digits

namespace Quoted

variable {inside : List UInt8} {cs : List Char}

theorem steps_short : ∀ p ∈ shortEscapes,
    steps .plain [0x5C, p.1] = some (.plain, octets p.2) := by
  decide

theorem isLow_of_isHigh {u : Nat} (h : isHigh u = true) : isLow u = false := by
  simp only [isHigh, isLow, Bool.and_eq_true, decide_eq_true_eq, Bool.and_eq_false_iff,
    decide_eq_false_iff_not] at h ⊢
  omega

/-- Six octets of an escaped code unit. -/
theorem steps_unit {a b c d : UInt8} {u : Nat} {mode : Mode} {out : List UInt8}
    (digits : Text.Hex.ofDigits? [a, b, c, d] = some u) (hunit : ofUnit none u = .go mode out) :
    steps .plain [0x5C, 0x75, a, b, c, d] = some (mode, out) := by
  simp [steps, step, digits, hunit]

theorem steps_low {a b c d : UInt8} {high low : Nat} {out : List UInt8}
    (digits : Text.Hex.ofDigits? [a, b, c, d] = some low)
    (hunit : ofUnit (some high) low = .go .plain out) :
    steps (.half high) [0x5C, 0x75, a, b, c, d] = some (.plain, out) := by
  simp [steps, step, digits, hunit]

/-- What says a text completes its octets. -/
theorem steps_says (h : Says inside cs) :
    steps .plain inside = some (.plain, (encode cs).reverse) := by
  induction h with
  | nil => rfl
  | char printable quote backslash _ ih =>
    exact steps_cons (steps_plain (isPlain_of_char printable quote backslash)) ih
  | @short e c bs cs escape _ ih => exact steps_cons (steps_short (e, c) escape) ih
  | @unit a b c d u bs cs digits alone _ ih =>
    have hunit : ofUnit none u = .go .plain (octets (Char.ofNat u)) := by
      simp only [ofUnit, alone, Bool.false_eq_true, if_false]
    exact steps_cons (steps_unit digits hunit) ih
  | @pair a b c d a' b' c' d' high low bs cs digits digits' halves _ ih =>
    have hhigh : ofUnit none high = .go (.half high) [] := by
      simp only [ofUnit, halves, isLow_of_isHigh halves.1, Bool.false_eq_true, if_true, if_false]
    have hlow : ofUnit (some high) low = .go .plain (octets (paired high low)) := by
      simp only [ofUnit, halves, if_true]
    have hpair := steps_append (steps_unit digits hhigh) (steps_low digits' hlow)
    rw [List.append_nil] at hpair
    exact steps_cons hpair ih

/-- Quotes with a text read from them say it. -/
theorem says_of_read (hquoted : IsQuoted inside) {s : String} {rest after : List UInt8}
    (h : read (inside ++ 0x22 :: rest) = .ok (s, after)) : Says inside s.toList := by
  obtain ⟨inside', hsame, hsays⟩ := read_sound h
  -- Where the quotes close does not depend on what they hold.
  have hpass := hquoted.pass? rest
  rw [hsame, hsays.isQuoted.pass? after] at hpass
  rw [Option.some.inj hpass] at hsame
  rwa [List.append_cancel_right hsame]

end Quoted

/-! ## Numbers -/

theorem IsDigits.exists_encode {bs : List UInt8} (h : IsDigits bs) :
    ∃ ds, Decimal.AreDigits ds ∧ encode ds = bs ∧ (ds.head? = some '0' → bs.head? = some 0x30) := by
  obtain ⟨hne, hdigits⟩ := h
  have hascii : ∀ b : UInt8, isDigit b = true → b < 0x80 := forall_octet (by decide +kernel)
  refine ⟨bs.map fun b => Char.ofNat b.toNat, ⟨by simpa using hne, ?_⟩,
    Text.Utf8.encode_ascii fun b hb => hascii b (hdigits b hb), ?_⟩
  · rintro c hc
    obtain ⟨b, hb, rfl⟩ := List.mem_map.1 hc
    exact (Literal.isDigit_char b (hdigits b hb)).1
  · cases bs with
    | nil => exact nofun
    | cons b bs =>
      intro hhead
      have hzero := (Literal.isDigit_char b (hdigits b List.mem_cons_self)).2 (by simpa using hhead)
      rw [hzero, List.head?_cons]

section Numbers
variable {bs rest : List UInt8}

theorem IsDigits.readDigits (h : IsDigits bs) (hrest : ∀ b ∈ rest.head?, isDigit b = false) :
    ∃ ds, Literal.readDigits (bs ++ rest) = .ok (ds, rest) := by
  obtain ⟨ds, hds, rfl, -⟩ := h.exists_encode
  exact ⟨ds, Literal.readDigits_encode hds hrest⟩

theorem IsWhole.readWhole (h : IsWhole bs) (hrest : ∀ b ∈ rest.head?, isDigit b = false) :
    ∃ ds, Literal.readWhole (bs ++ rest) = .ok (ds, rest) := by
  obtain ⟨hdigits, hzero⟩ := h
  obtain ⟨ds, hds, rfl, hhead⟩ := hdigits.exists_encode
  refine ⟨ds, Literal.readWhole_encode hds (fun hfirst => ?_) hrest⟩
  have hdecode := Text.Utf8.decode?_encode ds
  rw [hzero (hhead hfirst)] at hdecode
  exact (Option.some.inj hdecode).symm

theorem IsFraction.readFraction (h : IsFraction bs)
    (hrest : ∀ b ∈ rest.head?, isDigit b = false ∧ b ≠ 0x2E) :
    ∃ f, Literal.readFraction (bs ++ rest) = .ok (f, rest) := by
  obtain rfl | ⟨digits, rfl, hdigits⟩ := h
  · have hnone : ∀ ds, (none : Option (List Char)) = some ds → Decimal.AreDigits ds := nofun
    exact ⟨none, Literal.readFraction_encode hnone hrest⟩
  · obtain ⟨ds, hread⟩ := hdigits.readDigits fun b hb => (hrest b hb).1
    exact ⟨some ds, congrArg (Except.map _) hread⟩

theorem IsFraction.head (h : IsFraction bs) (hrest : ∀ b ∈ rest.head?, isDigit b = false) :
    ∀ b ∈ (bs ++ rest).head?, isDigit b = false := by
  obtain rfl | ⟨digits, rfl, -⟩ := h
  · exact hrest
  · rintro _ ⟨⟩
    rfl

theorem IsExponent.readExponent (h : IsExponent bs) (hrest : Literal.Stops rest) :
    ∃ e, Literal.readExponent (bs ++ rest) = .ok (e, rest) := by
  obtain rfl | ⟨e, sign, digits, rfl, he, hsign, hdigits⟩ := h
  · exact ⟨none, Literal.readExponent_encode none hrest⟩
  · obtain ⟨ds, hread⟩ := hdigits.readDigits fun b hb => (hrest b hb).1
    have hpower : ∀ negative, ∃ n, Literal.readPower negative (digits ++ rest) = .ok (n, rest) := by
      intro negative
      rw [Literal.readPower, hread]
      exact ⟨_, rfl⟩
    rw [List.cons_append, List.append_assoc]
    rcases hsign with rfl | rfl | rfl
    · -- Without a sign a digit comes first.
      obtain ⟨d, tail, rfl⟩ := List.exists_cons_of_ne_nil hdigits.1
      have hd := hdigits.2 d List.mem_cons_self
      rw [List.nil_append, List.cons_append, Literal.readExponent, if_pos he]
      · exact hpower false
      · rintro _ heq
        obtain ⟨rfl, -⟩ := List.cons.inj heq
        cases hd
      · rintro _ heq
        obtain ⟨rfl, -⟩ := List.cons.inj heq
        cases hd
    · rw [List.singleton_append, Literal.readExponent, if_pos he]
      exact hpower false
    · rw [List.singleton_append, Literal.readExponent, if_pos he]
      exact hpower true

theorem IsExponent.head (h : IsExponent bs) (hrest : Literal.Stops rest) :
    ∀ b ∈ (bs ++ rest).head?, isDigit b = false ∧ b ≠ 0x2E := by
  obtain rfl | ⟨e, sign, digits, rfl, he, -, -⟩ := h
  · exact fun b hb => ⟨(hrest b hb).1, (hrest b hb).2.1⟩
  · rintro _ ⟨⟩
    rcases he with rfl | rfl
    · exact ⟨rfl, by decide⟩
    · exact ⟨rfl, by decide⟩

/-- A number is read, up to an octet that cannot belong to one. -/
theorem IsNumber.read (h : IsNumber bs) (hrest : Literal.Stops rest) :
    ∃ l, Literal.read (bs ++ rest) = .ok (l, rest) := by
  obtain ⟨sign, whole, fraction, exponent, rfl, hsign, hwhole, hfraction, hexponent⟩ := h
  have hafter := hexponent.head hrest
  obtain ⟨n, hn⟩ := hexponent.readExponent hrest
  obtain ⟨f, hf⟩ := hfraction.readFraction hafter
  obtain ⟨w, hw⟩ := hwhole.readWhole (hfraction.head fun b hb => (hafter b hb).1)
  have hunsigned : ∀ negative, Literal.readUnsigned negative
      (whole ++ (fraction ++ (exponent ++ rest))) = .ok (⟨negative, w, f, n⟩, rest) := by
    intro negative
    rw [Literal.readUnsigned, hw]
    simp only [bind, Except.bind, pure, Except.pure, hf, hn]
  simp only [List.append_assoc]
  rcases hsign with rfl | rfl
  · refine ⟨_, Eq.trans ?_ (hunsigned false)⟩
    obtain ⟨b, bs, rfl⟩ := List.exists_cons_of_ne_nil hwhole.1.1
    have hb := hwhole.1.2 b List.mem_cons_self
    rw [List.nil_append, List.cons_append, Literal.read]
    rintro _ heq
    obtain ⟨rfl, -⟩ := List.cons.inj heq
    cases hb
  · exact ⟨_, hunsigned true⟩

/-- A number begins with a sign or a digit. -/
theorem IsNumber.exists_cons (h : IsNumber bs) :
    ∃ b tail, bs = b :: tail ∧ (b = 0x2D ∨ isDigit b = true) := by
  obtain ⟨sign, whole, fraction, exponent, rfl, hsign, hwhole, -, -⟩ := h
  rcases hsign with rfl | rfl
  · obtain ⟨b, tail, rfl⟩ := List.exists_cons_of_ne_nil hwhole.1.1
    exact ⟨b, _, rfl, .inr (hwhole.1.2 b List.mem_cons_self)⟩
  · exact ⟨0x2D, _, rfl, .inl rfl⟩

end Numbers

/-! ## Tokens -/

namespace Token

theorem ofWord_word (scalar : Scalar) (word rest : List UInt8) :
    ofWord scalar word (word ++ rest) = (.scalar scalar, some rest) := by
  have hword : readWord word (word ++ rest) = .ok rest := by
    induction word with
    | nil => rfl
    | cons w word ih => rw [List.cons_append, readWord, if_pos rfl, ih]
  rw [ofWord, hword]

theorem exists_mark? {u : Token (Option String) Bool} {b : UInt8} (h : mark? b = some u) :
    ∃ t : Token Quoted Scalar, mark? b = some t ∧ t.outline = u := by
  rw [← mark?_map Quoted.text? (· == Scalar.null)] at h
  exact Option.map_eq_some_iff.1 h

theorem ofQuoted_text {inside : List UInt8} {s : String} (h : Says inside s.toList)
    (rest : List UInt8) :
    ofQuoted (inside ++ 0x22 :: rest) = (.text (.text s), some rest) := by
  rw [ofQuoted, Quoted.read_steps (Quoted.steps_says h)]

theorem ofQuoted_unreadable {inside : List UInt8} (h : IsQuoted inside)
    (half : ∀ cs, ¬Says inside cs) (rest : List UInt8) :
    ∃ why, ofQuoted (inside ++ 0x22 :: rest) = (.text (.unreadable why), some rest) := by
  rw [ofQuoted]
  cases hread : Quoted.read (inside ++ 0x22 :: rest) with
  | ok p => exact absurd (Quoted.says_of_read h hread) (half _)
  | error why =>
    simp only [h.pass? rest]
    exact ⟨why, rfl⟩

theorem ofNumber_number {bs rest : List UInt8} (h : IsNumber bs) (hrest : Literal.Stops rest) :
    ∃ l, ofNumber (bs ++ rest) = (.scalar (.number l), some rest) := by
  obtain ⟨l, hread⟩ := h.read hrest
  exact ⟨l, by rw [ofNumber, hread]⟩

/-- A token is cut off where it ends, if nothing after it can belong to it. -/
theorem ofOctet_shown {u : Token (Option String) Bool} {bs rest : List UInt8} (h : u.Shows bs)
    (hrest : u.isMark = true ∨ Literal.Stops rest) :
    ∃ b tail t, bs = b :: tail ∧ isBlank b = false ∧
      Token.ofOctet b (tail ++ rest) = (t, some rest) ∧ t.outline = u := by
  cases h with
  | @mark _ b hmark =>
    obtain ⟨t, ht, hu⟩ := exists_mark? hmark
    exact ⟨b, [], t, rfl, isBlank_mark ht, by rw [Token.ofOctet, ht]; rfl, hu⟩
  | @text s bs hsays =>
    refine ⟨0x22, _, .text (.text s), rfl, rfl, ?_, rfl⟩
    rw [List.append_assoc]
    exact ofQuoted_text hsays rest
  | @unreadable bs hquoted half =>
    obtain ⟨why, hwhy⟩ := ofQuoted_unreadable hquoted half rest
    refine ⟨0x22, _, .text (.unreadable why), rfl, rfl, ?_, rfl⟩
    rw [List.append_assoc]
    exact hwhy
  | number hnumber =>
    obtain ⟨b, tail, rfl, hb⟩ := hnumber.exists_cons
    obtain ⟨l, hl⟩ := ofNumber_number hnumber (hrest.resolve_left (by rintro ⟨⟩))
    obtain ⟨hblank, hoctet⟩ := ofOctet_number hb (tail ++ rest)
    exact ⟨b, tail, _, rfl, hblank, hoctet.trans hl, rfl⟩
  | null => exact ⟨_, _, _, rfl, rfl, ofWord_word .null [0x75, 0x6C, 0x6C] rest, rfl⟩
  | true => exact ⟨_, _, _, rfl, rfl, ofWord_word (.bool .true) [0x72, 0x75, 0x65] rest, rfl⟩
  | false =>
    exact ⟨_, _, _, rfl, rfl, ofWord_word (.bool .false) [0x61, 0x6C, 0x73, 0x65] rest, rfl⟩

end Token

/-! ## Whole texts -/

namespace Laid

variable {ts : List (Token (Option String) Bool)} {bs : List UInt8}

/-- A blank or a mark comes first, and neither belongs to a number. -/
theorem stops (h : Laid ts bs) (hfirst : ∀ t ∈ ts.head?, t.isMark = true) : Literal.Stops bs := by
  have hblank : ∀ b : UInt8, isBlank b = true →
      isDigit b = false ∧ b ≠ 0x2E ∧ b ≠ 0x65 ∧ b ≠ 0x45 :=
    forall_octet (by decide +kernel)
  cases h with
  | nil hblanks => exact fun b hb => hblank b (hblanks b (List.mem_of_head? hb))
  | @cons t ts blanks octets rest hblanks shown _ =>
    cases blanks with
    | cons b blanks =>
      rintro _ ⟨⟩
      exact hblank b (hblanks b List.mem_cons_self)
    | nil =>
      have hmark : t.isMark = true := hfirst t rfl
      cases shown with
      | mark ht =>
        obtain ⟨_, ht, -⟩ := Token.exists_mark? ht
        exact (isParted_mark ht rest).stops
      | _ => cases hmark

theorem lexemesFrom (h : Laid ts bs) (hapart : Tree.Apart ts) {steps : Nat}
    (hsteps : bs.length ≤ steps) :
    (lexemesFrom steps [] bs).map (·.token.outline) = ts := by
  induction h generalizing steps with
  | @nil blanks hblanks =>
    cases steps with
    | zero => rfl
    | succ steps =>
      rw [Json.lexemesFrom, List.dropWhile_eq_nil_iff.2 hblanks]
      rfl
  | @cons t ts blanks octets rest hblanks shown laid ih =>
    obtain ⟨hmark, hothers⟩ := hapart
    obtain ⟨b, tail, x, rfl, hblank, hoctet, rfl⟩ :=
      Token.ofOctet_shown shown (hmark.imp_right laid.stops)
    have hdrop : (blanks ++ (b :: tail ++ rest)).dropWhile isBlank = b :: (tail ++ rest) := by
      rw [List.dropWhile_append_of_pos hblanks]
      exact List.dropWhile_cons_of_neg (by simp [hblank])
    simp only [List.length_append, List.length_cons] at hsteps
    obtain ⟨steps, rfl⟩ := Nat.exists_eq_add_of_le' (show 1 ≤ steps by omega)
    rw [lexemesFrom_first hdrop hoctet, List.map_cons, ih hothers (by omega)]

/-- What is laid out along tokens that stand apart is cut into them. -/
theorem tokens (h : Laid ts bs) (hapart : Tree.Apart ts) :
    (tokens bs).map Token.outline = ts := by
  rw [Json.tokens, List.map_map]
  exact h.lexemesFrom hapart Nat.le.refl

end Laid

/-- Octets with the tokens of an outline are laid out along them, if each token can be read. -/
theorem laid_tokens {t : Outline} {bs : List UInt8} (hread : ∀ x ∈ tokens bs, x.isReadable = true)
    (h : (tokens bs).map Token.outline = t.spelled) : Laid t.spelled bs := by
  obtain ⟨us, hlaid, hkinds⟩ := (written_tokens hread).laid
  obtain ⟨tree, rest, htokens, hrest⟩ := exists_tree (h.trans (List.append_nil _).symm)
  rw [htokens, List.map_eq_nil_iff.1 hrest, List.append_nil] at hkinds
  obtain ⟨u, rfl⟩ := Tree.shapes tree us hkinds
  rw [← h, hlaid.tokens (Tree.apart_spelled u)]
  exact hlaid

end RecordService.Json
