import Mathlib.Data.List.TakeWhile
import RecordService.Proofs.Json.Lexeme
import RecordService.Proofs.Json.Meaning
import RecordService.Proofs.Json.Spelling
import RecordService.Proofs.Text.Utf8
/-!
# The grammar of JSON texts

What a JSON text is, by the grammar and not by a machine: the tokens of one tree, with blanks before
and after each of them. Whatever the reader takes as a value is such a text, from the first octet to
the last one that it takes.
-/

namespace RecordService.Json

/-! ## Numbers -/

/-- Digits, at least one. -/
def IsDigits (bs : List UInt8) : Prop :=
  bs ≠ [] ∧ ∀ b ∈ bs, isDigit b = true

/-- The digits before the point: a zero alone, or digits that start with another one. -/
def IsWhole (bs : List UInt8) : Prop :=
  IsDigits bs ∧ (bs.head? = some 0x30 → bs = [0x30])

/-- A point and digits, or nothing. -/
def IsFraction (bs : List UInt8) : Prop :=
  bs = [] ∨ ∃ digits, bs = 0x2E :: digits ∧ IsDigits digits

/-- An `e`, a sign or none, and digits; or nothing. -/
def IsExponent (bs : List UInt8) : Prop :=
  bs = [] ∨ ∃ e sign digits, bs = e :: (sign ++ digits) ∧ (e = 0x65 ∨ e = 0x45) ∧
    (sign = [] ∨ sign = [0x2B] ∨ sign = [0x2D]) ∧ IsDigits digits

def IsNumber (bs : List UInt8) : Prop :=
  ∃ sign whole fraction exponent, bs = sign ++ (whole ++ (fraction ++ exponent)) ∧
    (sign = [] ∨ sign = [0x2D]) ∧ IsWhole whole ∧ IsFraction fraction ∧ IsExponent exponent

/-! ## Texts -/

/-- What may stand between two quotes: characters in UTF-8 and escapes. -/
inductive IsQuoted : List UInt8 → Prop where
  | nil : IsQuoted []
  | char {c : Char} {bs : List UInt8} (printable : 0x20 ≤ c.toNat) (quote : c ≠ '"')
      (backslash : c ≠ '\\') (rest : IsQuoted bs) : IsQuoted (String.utf8EncodeChar c ++ bs)
  | short {e : UInt8} {bs : List UInt8}
      (escape : e ∈ [0x22, 0x5C, 0x2F, 0x62, 0x66, 0x6E, 0x72, 0x74]) (rest : IsQuoted bs) :
      IsQuoted (0x5C :: e :: bs)
  | unit {a b c d : UInt8} {bs : List UInt8}
      (digits : (Text.Hex.ofDigits? [a, b, c, d]).isSome = true) (rest : IsQuoted bs) :
      IsQuoted (0x5C :: 0x75 :: a :: b :: c :: d :: bs)

/-- The octets of the short escapes, and the characters that they stand for. -/
def shortEscapes : List (UInt8 × Char) :=
  [(0x22, '"'), (0x5C, '\\'), (0x2F, '/'), (0x62, '\x08'), (0x66, '\x0c'), (0x6E, '\n'),
    (0x72, '\r'), (0x74, '\t')]

/-- What stands between two quotes says a text: half of a pair of code units, without the other one,
says none. -/
inductive Says : List UInt8 → List Char → Prop where
  | nil : Says [] []
  | char {c : Char} {bs : List UInt8} {cs : List Char} (printable : 0x20 ≤ c.toNat)
      (quote : c ≠ '"') (backslash : c ≠ '\\') (rest : Says bs cs) :
      Says (String.utf8EncodeChar c ++ bs) (c :: cs)
  | short {e : UInt8} {c : Char} {bs : List UInt8} {cs : List Char}
      (escape : (e, c) ∈ shortEscapes) (rest : Says bs cs) : Says (0x5C :: e :: bs) (c :: cs)
  | unit {a b c d : UInt8} {u : Nat} {bs : List UInt8} {cs : List Char}
      (digits : Text.Hex.ofDigits? [a, b, c, d] = some u)
      (alone : Quoted.isHigh u = false ∧ Quoted.isLow u = false) (rest : Says bs cs) :
      Says (0x5C :: 0x75 :: a :: b :: c :: d :: bs) (Char.ofNat u :: cs)
  | pair {a b c d a' b' c' d' : UInt8} {high low : Nat} {bs : List UInt8} {cs : List Char}
      (digits : Text.Hex.ofDigits? [a, b, c, d] = some high)
      (digits' : Text.Hex.ofDigits? [a', b', c', d'] = some low)
      (halves : Quoted.isHigh high = true ∧ Quoted.isLow low = true) (rest : Says bs cs) :
      Says (0x5C :: 0x75 :: a :: b :: c :: d :: 0x5C :: 0x75 :: a' :: b' :: c' :: d' :: bs)
        (Quoted.paired high low :: cs)

theorem Says.isQuoted {bs : List UInt8} {cs : List Char} (h : Says bs cs) : IsQuoted bs := by
  induction h with
  | nil => exact .nil
  | char printable quote backslash _ ih => exact .char printable quote backslash ih
  | short escape _ ih => exact .short (List.mem_map_of_mem (f := Prod.fst) escape) ih
  | unit digits _ _ ih => exact .unit (by rw [digits]; rfl) ih
  | pair digits digits' _ _ ih =>
    exact .unit (by rw [digits]; rfl) (.unit (by rw [digits']; rfl) ih)

/-! ## Tokens and texts -/

/-- The octets that a token may be written with. Nothing is asked of what it denotes. -/
inductive Token.Spells : Token Quoted Scalar → List UInt8 → Prop where
  | mark {t : Token Quoted Scalar} {b : UInt8} (h : mark? b = some t) : Spells t [b]
  | text {q : Quoted} {bs : List UInt8} (h : IsQuoted bs) :
      Spells (.text q) (0x22 :: (bs ++ [0x22]))
  | number {l : Literal} {bs : List UInt8} (h : IsNumber bs) : Spells (.scalar (.number l)) bs
  | null : Spells (.scalar .null) [0x6E, 0x75, 0x6C, 0x6C]
  | true : Spells (.scalar (.bool true)) [0x74, 0x72, 0x75, 0x65]
  | false : Spells (.scalar (.bool false)) [0x66, 0x61, 0x6C, 0x73, 0x65]

/-- The tokens, with blanks before, between and after them. -/
inductive Written : List (Token Quoted Scalar) → List UInt8 → Prop where
  | nil {blanks : List UInt8} (h : ∀ b ∈ blanks, isBlank b = true) : Written [] blanks
  | cons {t : Token Quoted Scalar} {ts : List (Token Quoted Scalar)} {blanks bs rest : List UInt8}
      (h : ∀ b ∈ blanks, isBlank b = true) (spells : t.Spells bs) (written : Written ts rest) :
      Written (t :: ts) (blanks ++ (bs ++ rest))

/-- A well-formed text: one value, with nothing but blanks around it. -/
def IsText (bs : List UInt8) : Prop :=
  ∃ tree : Tree Quoted Scalar, Written tree.spelled bs

/-- A well-formed text whose value is an object. -/
def IsObject (bs : List UInt8) : Prop :=
  ∃ ms : List (Quoted × Tree Quoted Scalar), Written (Tree.map ms).spelled bs

/-! ## How a text ends -/

/-- The octets that a token may end with. -/
def EndsToken (b : UInt8) : Prop :=
  isDigit b = true ∨ (Token.mark? b : Option (Token Quoted Scalar)).isSome = true ∨
    b ∈ [0x22, 0x65, 0x6C]

theorem IsDigits.getLast {bs : List UInt8} (h : IsDigits bs) :
    ∃ b, bs.getLast? = some b ∧ isDigit b = true :=
  ⟨_, List.getLast?_eq_some_getLast h.1, h.2 _ (List.getLast_mem h.1)⟩

theorem IsNumber.getLast {bs : List UInt8} (h : IsNumber bs) :
    ∃ b, bs.getLast? = some b ∧ isDigit b = true := by
  obtain ⟨sign, whole, fraction, exponent, rfl, -, hwhole, hfraction, hexponent⟩ := h
  -- The last part that is there ends the number.
  obtain rfl | ⟨e, mark, digits, rfl, -, -, hdigits⟩ := hexponent
  · obtain rfl | ⟨digits, rfl, hdigits⟩ := hfraction
    · obtain ⟨b, hb, hdigit⟩ := hwhole.1.getLast
      exact ⟨b, by simp [List.getLast?_append, hb], hdigit⟩
    · obtain ⟨b, hb, hdigit⟩ := hdigits.getLast
      exact ⟨b, by simp [List.getLast?_append, List.getLast?_cons, hb], hdigit⟩
  · obtain ⟨b, hb, hdigit⟩ := hdigits.getLast
    exact ⟨b, by simp [List.getLast?_append, List.getLast?_cons, hb], hdigit⟩

theorem Token.Spells.getLast {t : Token Quoted Scalar} {bs : List UInt8} (h : t.Spells bs) :
    ∃ b, bs.getLast? = some b ∧ EndsToken b := by
  cases h with
  | mark hmark => exact ⟨_, rfl, .inr (.inl (Option.isSome_iff_exists.2 ⟨_, hmark⟩))⟩
  | text => exact ⟨0x22, by simp [List.getLast?_cons], .inr (.inr (by simp))⟩
  | number hnumber =>
    obtain ⟨b, hb, hdigit⟩ := hnumber.getLast
    exact ⟨b, hb, .inl hdigit⟩
  | null => exact ⟨0x6C, rfl, .inr (.inr (by simp))⟩
  | true => exact ⟨0x65, rfl, .inr (.inr (by simp))⟩
  | false => exact ⟨0x65, rfl, .inr (.inr (by simp))⟩

/-- What is written ends with a blank or with a token. -/
theorem Written.getLast {ts : List (Token Quoted Scalar)} {bs : List UInt8} (h : Written ts bs)
    {b : UInt8} (hb : bs.getLast? = some b) : isBlank b = true ∨ EndsToken b := by
  induction h with
  | nil h => exact .inl (h b (List.mem_of_getLast? hb))
  | cons hblanks spells written ih =>
    rw [List.getLast?_append, List.getLast?_append] at hb
    obtain ⟨c, hc, hends⟩ := spells.getLast
    rw [hc] at hb
    cases hrest : List.getLast? _ with
    | none =>
      rw [hrest] at hb
      cases hb
      exact .inr hends
    | some d =>
      rw [hrest] at hb
      cases hb
      exact ih hrest

/-- The octets of each token are written. -/
theorem Written.mem {ts : List (Token Quoted Scalar)} {bs : List UInt8} (h : Written ts bs)
    {t : Token Quoted Scalar} (ht : t ∈ ts) : ∃ used, t.Spells used ∧ ∀ b ∈ used, b ∈ bs := by
  induction h with
  | nil => cases ht
  | cons hblanks spells written ih =>
    rcases List.mem_cons.1 ht with rfl | ht
    · exact ⟨_, spells, fun b hb => by simp [hb]⟩
    · obtain ⟨used, hused, hmem⟩ := ih ht
      exact ⟨used, hused, fun b hb => by simp [hmem b hb]⟩

/-- An object is closed. -/
theorem IsObject.mem {bs : List UInt8} (h : IsObject bs) : 0x7D ∈ bs := by
  obtain ⟨ms, hwritten⟩ := h
  obtain ⟨used, hused, hmem⟩ := hwritten.mem (t := .endMap) (by simp [Tree.spelled_map])
  cases hused with
  | @mark _ b hmark =>
    have hb : b = 0x7D := by
      unfold Token.mark? at hmark
      grind
    exact hmem 0x7D (by simp [hb])

/-! ## Numbers that are read -/

namespace Literal

variable {bs rest : List UInt8}

theorem readDigits_eq_ok {ds : List Char} :
    readDigits bs = .ok (ds, rest) ↔ digitRun bs = (ds, rest) ∧ ds ≠ [] := by
  unfold readDigits
  split
  · next hrun =>
    refine iff_of_false nofun ?_
    rintro ⟨h, hne⟩
    exact hne (Prod.mk.inj (h.symm.trans hrun)).1
  · next hrun =>
    refine iff_of_false nofun ?_
    rintro ⟨h, hne⟩
    exact hne (Prod.mk.inj (h.symm.trans hrun)).1
  · next hnone hsome =>
    refine ⟨fun h => ⟨Except.ok.inj h, ?_⟩, fun h => congrArg Except.ok h.1⟩
    -- Without a digit, either the end or another octet is refused.
    rintro rfl
    cases rest with
    | nil => exact hnone (Except.ok.inj h)
    | cons b rest => exact hsome b rest (Except.ok.inj h)

theorem readDigits_sound {ds : List Char} (h : readDigits bs = .ok (ds, rest)) :
    ∃ used, bs = used ++ rest ∧ IsDigits used := by
  obtain ⟨hrun, hne⟩ := readDigits_eq_ok.1 h
  obtain ⟨rfl, rfl⟩ := Prod.mk.inj hrun
  exact ⟨bs.takeWhile isDigit, List.takeWhile_append_dropWhile.symm,
    fun hnil => hne (by rw [hnil, List.map_nil]), fun b hb => List.mem_takeWhile_imp hb⟩

theorem readWhole_sound {ds : List Char} (h : readWhole bs = .ok (ds, rest)) :
    ∃ used, bs = used ++ rest ∧ IsWhole used := by
  unfold readWhole at h
  split at h
  · cases h
  · split at h
    · cases h
    · cases h
      exact ⟨[0x30], rfl, ⟨by simp, List.forall_mem_singleton.2 rfl⟩, fun _ => rfl⟩
  · next b bs hzero =>
    split at h
    · next hb =>
      obtain ⟨-, rfl⟩ := Prod.mk.inj (Except.ok.inj h)
      refine ⟨(b :: bs).takeWhile isDigit, List.takeWhile_append_dropWhile.symm, ⟨?_, ?_⟩, ?_⟩
      · simp [hb]
      · exact fun b hb => List.mem_takeWhile_imp hb
      · -- A zero with anything after it is read by itself.
        intro hhead
        obtain rfl : b = 0x30 := by simpa [hb] using hhead
        cases bs with
        | nil => rfl
        | cons d rest => exact (hzero d rest rfl rfl).elim
    · cases h

theorem readFraction_sound {ds : Option (List Char)} (h : readFraction bs = .ok (ds, rest)) :
    ∃ used, bs = used ++ rest ∧ IsFraction used := by
  unfold readFraction at h
  split at h
  · obtain ⟨⟨digits, rest⟩, hread, h⟩ := map_eq_ok.1 h
    cases h
    obtain ⟨used, rfl, hused⟩ := readDigits_sound hread
    exact ⟨0x2E :: used, rfl, .inr ⟨used, rfl, hused⟩⟩
  · cases h
    exact ⟨[], rfl, .inl rfl⟩

theorem readPower_sound {negative : Bool} {n : Option Int}
    (h : readPower negative bs = .ok (n, rest)) : ∃ used, bs = used ++ rest ∧ IsDigits used := by
  obtain ⟨⟨digits, rest⟩, hread, h⟩ := map_eq_ok.1 h
  cases h
  exact readDigits_sound hread

theorem readExponent_sound {n : Option Int} (h : readExponent bs = .ok (n, rest)) :
    ∃ used, bs = used ++ rest ∧ IsExponent used := by
  unfold readExponent at h
  split at h
  · cases h
    exact ⟨[], rfl, .inl rfl⟩
  · next b bs =>
    split at h
    · next he =>
      -- The sign is plus, minus or missing.
      split at h
      · obtain ⟨used, rfl, hused⟩ := readPower_sound h
        exact ⟨b :: 0x2B :: used, rfl, .inr ⟨b, [0x2B], used, rfl, he, .inr (.inl rfl), hused⟩⟩
      · obtain ⟨used, rfl, hused⟩ := readPower_sound h
        exact ⟨b :: 0x2D :: used, rfl, .inr ⟨b, [0x2D], used, rfl, he, .inr (.inr rfl), hused⟩⟩
      · obtain ⟨used, rfl, hused⟩ := readPower_sound h
        exact ⟨b :: used, rfl, .inr ⟨b, [], used, rfl, he, .inl rfl, hused⟩⟩
    · cases h
      exact ⟨[], rfl, .inl rfl⟩

theorem readUnsigned_sound {negative : Bool} {l : Literal}
    (h : readUnsigned negative bs = .ok (l, rest)) :
    ∃ whole fraction exponent, bs = whole ++ (fraction ++ exponent) ++ rest ∧
      IsWhole whole ∧ IsFraction fraction ∧ IsExponent exponent := by
  obtain ⟨⟨_, afterWhole⟩, hreadWhole, h⟩ := bind_eq_ok.1 h
  obtain ⟨⟨_, afterFraction⟩, hreadFraction, h⟩ := bind_eq_ok.1 h
  obtain ⟨⟨_, afterExponent⟩, hreadExponent, h⟩ := bind_eq_ok.1 h
  cases h
  obtain ⟨whole, rfl, hwhole⟩ := readWhole_sound hreadWhole
  obtain ⟨fraction, rfl, hfraction⟩ := readFraction_sound hreadFraction
  obtain ⟨exponent, rfl, hexponent⟩ := readExponent_sound hreadExponent
  exact ⟨whole, fraction, exponent, by simp only [List.append_assoc], hwhole, hfraction, hexponent⟩

theorem read_sound {l : Literal} (h : read bs = .ok (l, rest)) :
    ∃ used, bs = used ++ rest ∧ IsNumber used := by
  unfold read at h
  split at h
  · obtain ⟨whole, fraction, exponent, rfl, hparts⟩ := readUnsigned_sound h
    exact ⟨[0x2D] ++ (whole ++ (fraction ++ exponent)), rfl,
      [0x2D], whole, fraction, exponent, rfl, .inr rfl, hparts⟩
  · obtain ⟨whole, fraction, exponent, rfl, hparts⟩ := readUnsigned_sound h
    exact ⟨whole ++ (fraction ++ exponent), rfl,
      [], whole, fraction, exponent, rfl, .inl rfl, hparts⟩

end Literal

/-! ## Texts that are read -/

namespace Quoted

open Text.Utf8 (decode? decode?_cons decode?_of_char utf8EncodeChar_octets)

variable {mode : Mode} {bs out rest : List UInt8}

theorem readFrom_seen (mode : Mode) (seen bs : List UInt8) :
    readFrom mode seen bs
      = (readFrom mode [] bs).map fun (out, rest) => (seen.reverse ++ out, rest) := by
  induction bs generalizing mode seen with
  | nil => rfl
  | cons b bs ih =>
    simp only [readFrom]
    split
    · simp [Except.map]
    · next next octets hstep =>
      rw [ih, ih next (octets ++ [])]
      cases readFrom next [] bs with
      | error e => rfl
      | ok p => simp [Except.map]
    · rfl

theorem readFrom_seen_ok {seen : List UInt8} (h : readFrom mode seen bs = .ok (out, rest)) :
    ∃ later, out = seen.reverse ++ later ∧ readFrom mode [] bs = .ok (later, rest) := by
  rw [readFrom_seen] at h
  obtain ⟨⟨later, after⟩, hread, h⟩ := map_eq_ok.1 h
  cases h
  exact ⟨later, rfl, hread⟩

/-- What an octet does outside of any escape. -/
theorem readFrom_plain {b : UInt8} (h : readFrom .plain [] (b :: bs) = .ok (out, rest)) :
    (b = 0x22 ∧ out = [] ∧ bs = rest) ∨
    (b = 0x5C ∧ readFrom .escape [] bs = .ok (out, rest)) ∨
    (b ≠ 0x22 ∧ b ≠ 0x5C ∧ ¬b < 0x20 ∧
      ∃ later, out = b :: later ∧ readFrom .plain [] bs = .ok (later, rest)) := by
  simp only [readFrom, step] at h
  by_cases hquote : b = 0x22
  · rw [if_pos hquote] at h
    cases h
    exact .inl ⟨hquote, rfl, rfl⟩
  · rw [if_neg hquote] at h
    by_cases hslash : b = 0x5C
    · rw [if_pos hslash] at h
      exact .inr (.inl ⟨hslash, h⟩)
    · rw [if_neg hslash] at h
      by_cases hcontrol : b < 0x20
      · rw [if_pos hcontrol] at h
        cases h
      · rw [if_neg hcontrol] at h
        obtain ⟨later, rfl, hread⟩ := readFrom_seen_ok h
        exact .inr (.inr ⟨hquote, hslash, hcontrol, later, rfl, hread⟩)

/-! ### Escapes -/

/-- Four digits of a code unit. -/
theorem readFrom_unit {high : Option Nat} (h : readFrom (.unit high []) [] bs = .ok (out, rest)) :
    ∃ a b c d after u, bs = a :: b :: c :: d :: after ∧
      Text.Hex.ofDigits? [a, b, c, d] = some u ∧
      ∃ mode octets, ofUnit high u = .go mode octets ∧
        readFrom mode octets after = .ok (out, rest) := by
  obtain _ | ⟨a, _ | ⟨b, _ | ⟨c, _ | ⟨d, after⟩⟩⟩⟩ := bs
  iterate 4 simp [readFrom, step] at h
  simp only [readFrom, step, List.append_nil] at h
  cases hdigits : Text.Hex.ofDigits? [a, b, c, d] with
  | none => simp [hdigits] at h
  | some u =>
    rw [hdigits] at h
    refine ⟨a, b, c, d, after, u, rfl, hdigits, ?_⟩
    cases hunit : ofUnit high u with
    | go mode octets => exact ⟨mode, octets, rfl, by simpa [hunit] using h⟩
    | close =>
      -- No code unit closes the quotes.
      unfold ofUnit at hunit
      grind
    | refuse complaint => simp [hunit] at h

/-- The second code unit of a pair makes a character. -/
theorem readFrom_low {u : Nat} (h : readFrom (.half u) [] bs = .ok (out, rest)) :
    ∃ a b c d after low later, bs = 0x5C :: 0x75 :: a :: b :: c :: d :: after ∧
      Text.Hex.ofDigits? [a, b, c, d] = some low ∧ isLow low = true ∧
      out = String.utf8EncodeChar (paired u low) ++ later ∧
      readFrom .plain [] after = .ok (later, rest) := by
  obtain _ | ⟨slash, bs⟩ := bs
  · cases h
  by_cases hslash : slash = 0x5C
  · subst hslash
    obtain _ | ⟨letter, bs⟩ := bs
    · cases h
    by_cases hletter : letter = 0x75
    · subst hletter
      have h : readFrom (.unit (some u) []) [] bs = .ok (out, rest) := by
        simpa [readFrom, step] using h
      obtain ⟨a, b, c, d, after, low, rfl, hdigits, mode, octets, hunit, h⟩ := readFrom_unit h
      unfold ofUnit at hunit
      dsimp only at hunit
      split at hunit
      · next hlow =>
        obtain ⟨rfl, rfl⟩ := Step.go.inj hunit
        obtain ⟨later, hout, hread⟩ := readFrom_seen_ok h
        rw [Quoted.octets, List.reverse_reverse] at hout
        exact ⟨a, b, c, d, after, low, later, rfl, hdigits, hlow, hout, hread⟩
      · cases hunit
    · simp [readFrom, step, hletter] at h
  · simp [readFrom, step, hslash] at h

theorem shortEscape?_eq_some {e b : UInt8} (h : shortEscape? e = some b) :
    (e, Char.ofNat b.toNat) ∈ shortEscapes ∧
      [b] = String.utf8EncodeChar (Char.ofNat b.toNat) := by
  unfold shortEscape? at h
  split at h
  case h_9 => cases h
  all_goals
    obtain rfl := Option.some.inj h
    exact ⟨by decide, by decide⟩

/-- An escape makes one character, and the text goes on after it. -/
theorem readFrom_escape (h : readFrom .escape [] bs = .ok (out, rest)) :
    ∃ escape after ch later, bs = escape ++ after ∧
      (∀ inside cs, Says inside cs → Says (0x5C :: (escape ++ inside)) (ch :: cs)) ∧
      out = String.utf8EncodeChar ch ++ later ∧ readFrom .plain [] after = .ok (later, rest) := by
  cases bs with
  | nil => cases h
  | cons e bs =>
    by_cases he : e = 0x75
    · subst he
      obtain ⟨a, b, c, d, after, u, rfl, hdigits, mode, octets, hunit, h⟩ := readFrom_unit h
      unfold ofUnit at hunit
      dsimp only at hunit
      split at hunit
      · cases hunit
      · next hlow =>
        split at hunit
        · next hhigh =>
          -- The first of a pair: the second follows.
          cases hunit
          obtain ⟨a', b', c', d', after, low, later, rfl, hdigits', hlow', hout, hread⟩ :=
            readFrom_low h
          exact ⟨[0x75, a, b, c, d, 0x5C, 0x75, a', b', c', d'], after, paired u low, later, rfl,
            fun inside cs hinside => .pair hdigits hdigits' ⟨hhigh, hlow'⟩ hinside, hout, hread⟩
        · next hhigh =>
          cases hunit
          obtain ⟨later, rfl, hread⟩ := readFrom_seen_ok h
          refine ⟨[0x75, a, b, c, d], after, Char.ofNat u, later, rfl, fun inside cs hinside =>
            .unit hdigits ⟨Bool.eq_false_iff.2 hhigh, Bool.eq_false_iff.2 hlow⟩ hinside, ?_, hread⟩
          rw [Quoted.octets, List.reverse_reverse]
    · simp only [readFrom, step, if_neg he] at h
      cases hshort : shortEscape? e with
      | none => simp [hshort] at h
      | some b =>
        rw [hshort] at h
        obtain ⟨later, rfl, hread⟩ := readFrom_seen_ok h
        obtain ⟨hmem, hchar⟩ := shortEscape?_eq_some hshort
        exact ⟨[e], bs, Char.ofNat b.toNat, later, rfl,
          fun inside cs hinside => .short hmem hinside, by rw [← hchar]; rfl, hread⟩

/-! ### Characters -/

/-- An octet that continues a sequence stands for itself. -/
theorem readFrom_continued {ks : List UInt8} (hks : ∀ k ∈ ks, 0x80 ≤ k.toNat ∧ k.toNat < 0xC0)
    (h : readFrom .plain [] bs = .ok (ks ++ out, rest)) :
    ∃ after, bs = ks ++ after ∧ readFrom .plain [] after = .ok (out, rest) := by
  induction ks generalizing bs with
  | nil => exact ⟨bs, rfl, h⟩
  | cons k ks ih =>
    obtain ⟨⟨hlow, hhigh⟩, hks⟩ := List.forall_mem_cons.1 hks
    cases bs with
    | nil => cases h
    | cons b bs =>
      obtain ⟨-, hnil, -⟩ | ⟨-, hescape⟩ | ⟨-, -, -, later, hlater, hread⟩ := readFrom_plain h
      · cases hnil
      · -- No escape makes an octet that continues a sequence.
        obtain ⟨-, -, ch, later, -, -, hout, -⟩ := readFrom_escape hescape
        obtain ⟨first, others, hchar, hfirst, -⟩ := utf8EncodeChar_octets ch
        rw [hchar] at hout
        obtain rfl : k = first := (List.cons.inj hout).1
        omega
      · obtain ⟨rfl, rfl⟩ := List.cons.inj hlater
        obtain ⟨after, rfl, hafter⟩ := ih hks hread
        exact ⟨after, rfl, hafter⟩

/-- A character that stands for itself. -/
theorem says_char {b : UInt8} {ks inside : List UInt8} {c : Char} {cs : List Char}
    (hc : String.utf8EncodeChar c = b :: ks) (hquote : b ≠ 0x22) (hslash : b ≠ 0x5C)
    (hcontrol : ¬b < 0x20) (hinside : Says inside cs) : Says (b :: ks ++ inside) (c :: cs) := by
  rw [← hc]
  refine .char ?_ ?_ ?_ hinside
  · by_contra hlow
    have hascii := Text.Utf8.utf8EncodeChar_ascii (c := c) (by omega)
    rw [hc] at hascii
    obtain ⟨rfl, -⟩ := List.cons.inj hascii
    refine hcontrol (UInt8.lt_iff_toNat_lt.2 ?_)
    rw [Text.Utf8.toNat_ofNat (by omega)]
    simp
    omega
  · rintro rfl
    exact hquote (List.cons.inj hc).1.symm
  · rintro rfl
    exact hslash (List.cons.inj hc).1.symm

/-- What is read up to a quote says the text, if the octets it makes are those of one. -/
theorem readFrom_sound {cs : List Char} (hread : readFrom .plain [] bs = .ok (out, rest))
    (hdecode : decode? out = some cs) :
    ∃ inside, bs = inside ++ 0x22 :: rest ∧ Says inside cs := by
  -- One character or escape at a time, so the induction is on the length of what is left.
  induction hn : bs.length using Nat.strong_induction_on generalizing bs out cs with
  | _ n ih =>
    cases bs with
    | nil => cases hread
    | cons b bs =>
      obtain ⟨rfl, rfl, rfl⟩ | ⟨rfl, hescape⟩ | ⟨hquote, hslash, hcontrol, later, rfl, hlater⟩ :=
        readFrom_plain hread
      · cases hdecode
        exact ⟨[], rfl, .nil⟩
      · obtain ⟨escape, after, ch, later, rfl, hwhole, rfl, hlater⟩ := readFrom_escape hescape
        obtain ⟨ds, rfl, hds⟩ := decode?_of_char hdecode
        obtain ⟨inside, rfl, hinside⟩ := ih _ (by simp at hn; omega) hlater hds rfl
        exact ⟨0x5C :: (escape ++ inside), by simp, hwhole inside ds hinside⟩
      · obtain ⟨c, ds, more, rfl, hc, hds⟩ := decode?_cons hdecode
        obtain ⟨first, ks, hchar, -, hks⟩ := utf8EncodeChar_octets c
        rw [hchar] at hc
        obtain ⟨rfl, rfl⟩ := List.cons.inj hc
        obtain ⟨after, rfl, hafter⟩ := readFrom_continued hks hlater
        obtain ⟨inside, rfl, hinside⟩ := ih _ (by simp at hn; omega) hafter hds rfl
        exact ⟨b :: ks ++ inside, by simp,
          says_char hchar hquote hslash hcontrol hinside⟩

theorem read_sound {s : String} (h : read bs = .ok (s, rest)) :
    ∃ inside, bs = inside ++ 0x22 :: rest ∧ Says inside s.toList := by
  obtain ⟨⟨octets, after⟩, hread, h⟩ := bind_eq_ok.1 h
  dsimp only at h
  split at h
  · next cs hdecode =>
    cases h
    rw [String.toList_ofList]
    exact readFrom_sound hread hdecode
  · cases h

end Quoted

/-! ## Tokens that are read -/

theorem readWord_ok {word bs rest : List UInt8} (h : readWord word bs = .ok rest) :
    bs = word ++ rest := by
  induction word generalizing bs with
  | nil =>
    cases h
    rfl
  | cons w word ih =>
    cases bs with
    | nil => cases h
    | cons b bs =>
      rw [readWord] at h
      split at h
      · next hb => rw [hb, ih h, List.cons_append]
      · cases h

namespace Token

/-- The token does not break off, and its quotes hold a text. -/
def isReadable : Token Quoted Scalar → Bool
  | .text (.unreadable _) => false
  | .text (.broken _) => false
  | .scalar (.broken _) => false
  | .scalar .stray => false
  | _ => true

variable {b : UInt8} {bs after : List UInt8} {t : Token Quoted Scalar}

theorem ofWord_sound {scalar : Scalar} {word : List UInt8}
    (h : ofWord scalar word bs = (t, some after)) : t = .scalar scalar ∧ bs = word ++ after := by
  unfold ofWord at h
  split at h
  · next hword =>
    cases h
    exact ⟨rfl, readWord_ok hword⟩
  · cases h

theorem ofNumber_sound (h : ofNumber bs = (t, some after)) :
    ∃ used, bs = used ++ after ∧ t.Spells used := by
  unfold ofNumber at h
  split at h
  · next hread =>
    cases h
    obtain ⟨used, rfl, hused⟩ := Literal.read_sound hread
    exact ⟨used, rfl, .number hused⟩
  · cases h

theorem ofQuoted_sound (h : ofQuoted bs = (t, some after)) (ht : t.isReadable = true) :
    ∃ used, 0x22 :: bs = used ++ after ∧ t.Spells used := by
  unfold ofQuoted at h
  split at h
  · next hread =>
    cases h
    obtain ⟨inside, rfl, hinside⟩ := Quoted.read_sound hread
    exact ⟨0x22 :: (inside ++ [0x22]), by simp, .text hinside.isQuoted⟩
  · split at h <;> cases h
    cases ht

/-- A readable token is spelled by the octets that it takes. -/
theorem ofOctet_sound (h : ofOctet b bs = (t, some after)) (ht : t.isReadable = true) :
    ∃ used, b :: bs = used ++ after ∧ t.Spells used := by
  unfold ofOctet at h
  split at h
  · next hmark =>
    cases h
    exact ⟨[b], rfl, .mark hmark⟩
  · split at h
    · next hb => exact hb ▸ ofQuoted_sound h ht
    · split at h
      · exact ofNumber_sound h
      · split at h
        · next hb =>
          subst hb
          obtain ⟨rfl, rfl⟩ := ofWord_sound h
          exact ⟨[0x6E, 0x75, 0x6C, 0x6C], rfl, .null⟩
        · split at h
          · next hb =>
            subst hb
            obtain ⟨rfl, rfl⟩ := ofWord_sound h
            exact ⟨[0x74, 0x72, 0x75, 0x65], rfl, .true⟩
          · split at h
            · next hb =>
              subst hb
              obtain ⟨rfl, rfl⟩ := ofWord_sound h
              exact ⟨[0x66, 0x61, 0x6C, 0x73, 0x65], rfl, .false⟩
            · cases h

/-- A token is the last one only because it cannot be read. -/
theorem ofOctet_last (h : ofOctet b bs = (t, none)) : t.isReadable = false := by
  unfold ofOctet ofQuoted ofNumber ofWord at h
  grind [isReadable]

end Token

/-- A readable token that comes first was taken by one step, and the others by the steps after. -/
theorem lexemesFrom_cons {steps : Nat} {bs : List UInt8} {x : Lexeme} {xs : List Lexeme}
    (h : lexemesFrom steps [] bs = x :: xs) (hx : x.token.isReadable = true) :
    ∃ later b tail, steps = later + 1 ∧ bs.dropWhile isBlank = b :: tail ∧
      Token.ofOctet b tail = (x.token, some x.after) ∧ lexemesFrom later [] x.after = xs := by
  cases steps with
  | zero => cases h
  | succ steps =>
    rw [lexemesFrom] at h
    split at h
    · cases h
    · next b tail hdrop =>
      split at h
      · next t after htoken =>
        rw [lexemesFrom_seen] at h
        obtain ⟨rfl, hlater⟩ := List.cons.inj h
        exact ⟨steps, b, tail, rfl, hdrop, htoken, hlater⟩
      · next t htoken =>
        obtain ⟨rfl, -⟩ := List.cons.inj h
        exact absurd hx (by simp [Token.ofOctet_last htoken])

/-- Without a token there are only blanks, if there are steps enough. -/
theorem lexemesFrom_nil {steps : Nat} {bs : List UInt8} (h : lexemesFrom steps [] bs = [])
    (hsteps : bs.length ≤ steps) : ∀ b ∈ bs, isBlank b = true := by
  cases steps with
  | zero =>
    rw [List.length_eq_zero_iff.1 (Nat.le_zero.1 hsteps)]
    simp
  | succ steps =>
    rw [lexemesFrom] at h
    split at h
    · next hdrop => exact List.dropWhile_eq_nil_iff.1 hdrop
    · split at h
      · rw [lexemesFrom_seen] at h
        cases h
      · cases h

/-- Readable tokens that come first are written by the octets that come first. If they are all, only
blanks follow. -/
theorem lexemesFrom_sound {steps : Nat} {bs : List UInt8} {used rest : List Lexeme}
    (h : lexemesFrom steps [] bs = used ++ rest) (hused : ∀ x ∈ used, x.token.isReadable = true) :
    ∃ text more, bs = text ++ more ∧ Written (used.map (·.token)) text ∧
      (rest = [] → bs.length ≤ steps → ∀ b ∈ more, isBlank b = true) := by
  induction used generalizing steps bs with
  | nil =>
    refine ⟨[], bs, rfl, .nil (by simp), ?_⟩
    rintro rfl
    exact lexemesFrom_nil h
  | cons x used ih =>
    obtain ⟨hx, hothers⟩ := List.forall_mem_cons.1 hused
    obtain ⟨steps, b, tail, rfl, hdrop, htoken, hlater⟩ := lexemesFrom_cons h hx
    obtain ⟨octets, hoctets, hspells⟩ := Token.ofOctet_sound htoken hx
    obtain ⟨last, hlast, -⟩ := hspells.getLast
    obtain ⟨text, more, hafter, hwritten, hblank⟩ := ih hlater hothers
    have hsplit : bs = bs.takeWhile isBlank ++ (octets ++ x.after) := by
      rw [← hoctets, ← hdrop, List.takeWhile_append_dropWhile]
    refine ⟨bs.takeWhile isBlank ++ (octets ++ text), more, ?_,
      .cons (fun b hb => List.mem_takeWhile_imp hb) hspells hwritten,
      fun hnil hlength => hblank hnil ?_⟩
    · calc bs = bs.takeWhile isBlank ++ (octets ++ x.after) := hsplit
        _ = bs.takeWhile isBlank ++ (octets ++ text) ++ more := by
          rw [hafter, List.append_assoc, List.append_assoc]
    · have hpositive : 0 < octets.length := List.length_pos_of_mem (List.mem_of_getLast? hlast)
      have hall := congrArg List.length hsplit
      simp only [List.length_append] at hall
      omega

theorem Written.append_blanks {ts : List (Token Quoted Scalar)} {bs : List UInt8}
    (h : Written ts bs) {blanks : List UInt8} (hblanks : ∀ b ∈ blanks, isBlank b = true) :
    Written ts (bs ++ blanks) := by
  induction h with
  | nil h =>
    exact .nil fun b hb => (List.mem_append.1 hb).elim (h b) (hblanks b)
  | cons h spells _ ih =>
    rw [List.append_assoc, List.append_assoc]
    exact .cons h spells ih

/-- If all tokens of a text can be read, it is written with just these. -/
theorem written_tokens {bs : List UInt8} (h : ∀ t ∈ tokens bs, t.isReadable = true) :
    Written (tokens bs) bs := by
  have hall : lexemesFrom bs.length [] bs = lexemes bs ++ [] := (List.append_nil _).symm
  obtain ⟨text, more, hbs, hwritten, hblank⟩ := lexemesFrom_sound hall fun x hx =>
    h x.token (List.mem_map_of_mem hx)
  have hmore := hwritten.append_blanks (hblank rfl Nat.le.refl)
  rwa [← hbs] at hmore

/-! ## Values that are read -/

namespace Reader

variable {inner : String → Except Fault Value}

theorem isReadable_of_value? {t : Token Quoted Scalar} {v : Value} (h : t.value? = some v) :
    t.isReadable = true := by
  unfold Token.value? at h
  split at h
  · rfl
  · rfl
  · rfl
  · rfl
  · cases h

theorem beginValue_readable {frames : List Frame} {x : Lexeme} {p : Progress}
    (h : beginValue frames x = .ok p) : x.token.isReadable = true := by
  unfold beginValue at h
  split at h
  · next hx => rw [hx]; rfl
  · next hx => rw [hx]; rfl
  · split at h
    · next hv => exact isReadable_of_value? hv
    · cases h

/-- The reader takes no token that cannot be read. -/
theorem advance_readable {frames : List Frame} {position : Position} {x : Lexeme} {p : Progress}
    (h : advance inner frames position x = .ok p) : x.token.isReadable = true := by
  unfold advance at h
  dsimp only at h
  split at h
  case h_1 | h_3 | h_8 => exact beginValue_readable h
  case h_10 | h_12 =>
    obtain ⟨name, hname, -⟩ := bind_eq_ok.1 h
    rw [readName_ok hname]
    rfl
  case h_20 =>
    obtain ⟨v, hv, -⟩ := bind_eq_ok.1 h
    obtain ⟨s, hx, -⟩ := readEmbedded_ok hv
    rw [hx]
    rfl
  case h_2 hx | h_4 hx | h_5 hx | h_9 hx | h_13 hx | h_15 hx | h_16 hx | h_18 hx | h_21 hx =>
    rw [hx]
    rfl
  -- The other tokens are refused.
  all_goals cases h

theorem readFrom_readable {frames : List Frame} {position : Position} {xs rest : List Lexeme}
    {v : Value} (h : readFrom inner frames position xs = .ok (v, rest)) :
    ∃ used, xs = used ++ rest ∧ ∀ x ∈ used, x.token.isReadable = true := by
  induction xs generalizing frames position with
  | nil => cases h
  | cons x xs ih =>
    rw [readFrom] at h
    split at h
    · cases h
    · next hadvance =>
      cases h
      exact ⟨[x], rfl, by simpa using advance_readable hadvance⟩
    · next hadvance =>
      obtain ⟨used, rfl, hused⟩ := ih h
      exact ⟨x :: used, rfl, List.forall_mem_cons.2 ⟨advance_readable hadvance, hused⟩⟩

/-- A value that is read is that of a tree, whose tokens come first and can be read. -/
theorem readFrom_ok {xs rest : List Lexeme} {v : Value}
    (h : readFrom inner [] .value xs = .ok (v, rest)) :
    ∃ (tree : Tree Quoted Scalar) (used : List Lexeme), xs = used ++ rest ∧
      (∀ x ∈ used, x.token.isReadable = true) ∧ used.map (·.token) = tree.spelled ∧
      tree.value? inner = some v := by
  obtain ⟨tree, htree, hvalue⟩ := readFrom_tree h
  obtain ⟨used, rfl, hreadable⟩ := readFrom_readable h
  have htokens := Tree.read?_spelled htree
  rw [List.map_append] at htokens
  exact ⟨tree, used, rfl, hreadable, List.append_cancel_right htokens, hvalue⟩

end Reader

/-- The tree of the first value, and the tokens that it takes. -/
theorem readFirst_ok {bs : List UInt8} {v : Value} (h : readFirst bs = .ok v) :
    ∃ (tree : Tree Quoted Scalar) (used rest : List Lexeme), lexemes bs = used ++ rest ∧
      Reader.readFrom (fun s => readWhole s.toUTF8.toList) [] .value (lexemes bs) = .ok (v, rest) ∧
      (∀ x ∈ used, x.token.isReadable = true) ∧ used.map (·.token) = tree.spelled ∧
      tree.value? (fun s => readWhole s.toUTF8.toList) = some v := by
  obtain ⟨⟨w, rest⟩, hread, rfl⟩ := map_eq_ok.1 (mapError_eq_ok.1 h)
  obtain ⟨tree, used, hused, hreadable, hspelled, hvalue⟩ := Reader.readFrom_ok hread
  exact ⟨tree, used, rest, hused, hread, hreadable, hspelled, hvalue⟩

/-- The octets begin with the tokens of the tree whose value is read. -/
theorem readFirst_written {bs : List UInt8} {v : Value} (h : readFirst bs = .ok v) :
    ∃ (tree : Tree Quoted Scalar) (text more : List UInt8), bs = text ++ more ∧
      Written tree.spelled text ∧
      tree.value? (fun s => readWhole s.toUTF8.toList) = some v := by
  obtain ⟨tree, used, rest, hused, -, hreadable, hspelled, hvalue⟩ := readFirst_ok h
  obtain ⟨text, more, rfl, hwritten, -⟩ := lexemesFrom_sound hused hreadable
  exact ⟨tree, text, more, rfl, hspelled ▸ hwritten, hvalue⟩

end RecordService.Json
