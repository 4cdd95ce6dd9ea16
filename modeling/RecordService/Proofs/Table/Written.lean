import RecordService.Proofs.Json.Printed
import RecordService.Proofs.Table.Numeral
import RecordService.Table.Notation
/-!
# Answers as they are written

The table writes JSON as any printer does. What is printed of a value without doubles is read as the
tree of that value: a text stands in it as it is written between the quotes, and is found again by
who wants it.
-/

namespace RecordService.Table.Notation

open Json
open Text.Utf8 (encode encode_append forall_octet)

/-! ## Texts -/

/-- A text as it is written between quotes. -/
def written (s : String) : String :=
  String.ofList (s.toList.flatMap Value.escaped)

/-- The text is found again in what is written. -/
@[simp] theorem text?_written (s : String) : text? (written s) = some s := by
  have hread := Json.Quoted.read_quotedText s []
  have hoctets : (written s).toUTF8.toList = encode (s.toList.flatMap Value.escaped) := by
    rw [written, Text.Utf8.toList_toUTF8, String.toList_ofList]
  rw [text?, hoctets, hread]
  rfl

/-- The octets, an escape with what it escapes or others one by one, are passed over on the way to
the closing quote. -/
def arePassed : List UInt8 → Bool
  | 0x5C :: _ :: bs => arePassed bs
  | b :: bs => b != 0x22 && b != 0x5C && !(b < 0x20) && arePassed bs
  | [] => true

theorem quotedFrom_passed {bs : List UInt8} (h : arePassed bs = true) (seen rest : List UInt8) :
    quotedFrom seen (bs ++ rest) = quotedFrom (bs.reverse ++ seen) rest := by
  fun_induction arePassed bs generalizing seen with
  | case1 b bs ih => simp [quotedFrom, ih h]
  | case2 b bs hne ih =>
    simp only [Bool.and_eq_true, bne_iff_ne, Bool.not_eq_true', decide_eq_false_iff_not] at h
    obtain ⟨⟨⟨hquote, hslash⟩, hlow⟩, hbs⟩ := h
    rw [List.cons_append, quotedFrom, if_neg (by simp [hlow, hslash]), ih hbs]
    · simp
    · exact hquote
    · exact fun _ _ h _ => hslash h
  | case3 => rfl

theorem arePassed_escaped (c : Char) : arePassed (encode (Value.escaped c)) = true := by
  by_cases h : c.toNat < 0x80
  · exact Text.Utf8.forall_ascii h (by decide +kernel)
  · have hhigh : 0x80 ≤ c.toNat := by omega
    have hplain : ∀ bs : List UInt8, (∀ b ∈ bs, Json.Quoted.IsPlain b) → arePassed bs = true := by
      intro bs hbs
      induction bs with
      | nil => rfl
      | cons b bs ih =>
        obtain ⟨⟨hquote, hslash, hlow⟩, hbs⟩ := List.forall_mem_cons.1 hbs
        rw [arePassed]
        · simp [hquote, hslash, hlow, ih hbs]
        · exact fun _ _ h _ => hslash h
    rw [Json.Quoted.escaped_high hhigh, encode, List.flatMap_singleton]
    exact hplain _ fun b hb =>
      Json.Quoted.isPlain_of_high b (Text.Utf8.utf8EncodeChar_high hhigh b hb)

/-- A text ends at its closing quote. -/
theorem quotedFrom_escaped (cs : List Char) (seen rest : List UInt8) :
    quotedFrom seen (encode (cs.flatMap Value.escaped) ++ 0x22 :: rest)
      = some (seen.reverse ++ encode (cs.flatMap Value.escaped), rest) := by
  induction cs generalizing seen with
  | nil => simp [encode, quotedFrom]
  | cons c cs ih =>
    rw [List.flatMap_cons, encode_append, List.append_assoc,
      quotedFrom_passed (arePassed_escaped c), ih]
    simp

theorem quotedAt_escaped (s : String) (rest : List UInt8) :
    quotedAt (encode (s.toList.flatMap Value.escaped) ++ 0x22 :: rest)
      = some (.text (written s), rest) := by
  simp [quotedAt, quotedFrom_escaped, written, Text.Utf8.decode?_encode]

/-! ## Tokens -/

/-- The forms that answers are read in. -/
def forms : Forms String Scalar :=
  ⟨written, .null, .bool, fun n => .number (.number n)⟩

theorem takes_ofOctet : Takes ofOctet forms where
  mark ht rest := by rw [ofOctet, ht]
  text s rest := quotedAt_escaped s rest
  null _ := rfl
  yes _ := rfl
  no _ := rfl

/-- What begins with a sign or a digit is a number. -/
theorem ofOctet_number {b : UInt8} (h : b = 0x2D ∨ isDigit b = true) (bs : List UInt8) :
    isBlank b = false ∧ ofOctet b bs = numberAt (b :: bs) := by
  have hoctets : ∀ b : UInt8, b = 0x2D ∨ isDigit b = true → isBlank b = false ∧ b ≠ 0x22 ∧
      (b = 0x2D ∨ (0x30 ≤ b ∧ b ≤ 0x39)) ∧ (Token.mark? b : Option Token) = none :=
    forall_octet (by decide +kernel)
  obtain ⟨hblank, hquote, hnumber, hmark⟩ := hoctets b h
  refine ⟨hblank, ?_⟩
  rw [ofOctet, hmark]
  exact (if_neg hquote).trans (if_pos hnumber)

/-- The octets of digits and signs are those of a numeral. -/
theorem encode_numeral {cs : List Char} (h : ∀ c ∈ cs, c.isDigit = true ∨ c = '-') :
    (∀ b ∈ encode cs, isNumeral b = true) ∧
      (encode cs).map (fun b => Char.ofNat b.toNat) = cs := by
  induction cs with
  | nil => exact ⟨nofun, rfl⟩
  | cons c cs ih =>
    obtain ⟨hc, hcs⟩ := List.forall_mem_cons.1 h
    obtain ⟨hall, hmap⟩ := ih hcs
    have hoctet : ∃ b, String.utf8EncodeChar c = [b] ∧ isNumeral b = true ∧
        Char.ofNat b.toNat = c := by
      rcases hc with hdigit | rfl
      · obtain ⟨b, hb, hdigit, hback⟩ := Literal.exists_octet hdigit
        have hoctets : ∀ b : UInt8, isDigit b = true → isNumeral b = true :=
          forall_octet (by decide +kernel)
        exact ⟨b, hb, hoctets b hdigit, hback⟩
      · exact ⟨0x2D, rfl, rfl, rfl⟩
    obtain ⟨b, hb, hnumeral, hback⟩ := hoctet
    have hcode : encode (c :: cs) = b :: encode cs := by simp [encode, hb]
    rw [hcode, List.map_cons, hmap, hback]
    exact ⟨List.forall_mem_cons.2 ⟨hnumeral, hall⟩, rfl⟩

/-- A number ends before a mark. -/
theorem takeWhile_numeral {bs rest : List UInt8} (h : ∀ b ∈ bs, isNumeral b = true)
    (hrest : IsParted rest) :
    (bs ++ rest).takeWhile isNumeral = bs ∧ (bs ++ rest).dropWhile isNumeral = rest := by
  have hmarks : ∀ b : UInt8, b ∈ [0x5B, 0x5D, 0x7B, 0x7D, 0x2C, 0x3A] → isNumeral b = false :=
    Text.Utf8.forall_octet (by decide +kernel)
  rw [List.takeWhile_append_of_pos h, List.dropWhile_append_of_pos h]
  cases rest with
  | nil => simp
  | cons b rest => simp [hmarks b (hrest b rfl)]

theorem mem_intText {i : Int} {c : Char} (hc : c ∈ Value.intText i) :
    c.isDigit = true ∨ c = '-' := by
  rw [Value.intText, List.mem_append] at hc
  rcases hc with hsign | hdigit
  · split at hsign <;> simp_all
  · exact .inl ((Decimal.areDigits_toDigits _).isDigit c hdigit)

/-- An integer is read as itself. -/
theorem makes_integer (i : WordInt) : Makes ofOctet (Value.numberText (.integer i))
    [.scalar (forms.number (.integer i))] := by
  intro rest us hrest h
  obtain ⟨b, tail, hcode, hb⟩ :=
    Literal.exists_first_text (Literal.wellFormed_ofNumber (.integer i))
  rw [Literal.text_ofNumber] at hcode
  obtain ⟨hnumeral, hback⟩ := encode_numeral fun c => mem_intText (i := i.toInt) (c := c)
  change ∀ b ∈ encode (Value.numberText (.integer i)), isNumeral b = true at hnumeral
  change (encode (Value.numberText (.integer i))).map _ = _ at hback
  rw [hcode] at hnumeral hback ⊢
  obtain ⟨htake, hdrop⟩ := takeWhile_numeral hnumeral hrest
  rw [List.cons_append] at htake hdrop ⊢
  obtain ⟨hblank, hnumber⟩ := ofOctet_number hb (tail ++ rest)
  have hread : Numeral.read? (String.ofList (Value.intText i.toInt))
      = some (.number (.integer i)) := Numeral.read?_text i
  refine .cons hblank ?_ (by simp) h
  rw [hnumber, numberAt, htake, hdrop, hback, hread]
  rfl

/-- As many steps as there are octets are enough. -/
theorem tokensFrom_lexed {bs : List UInt8} {ts : List Token} (h : Lexed ofOctet bs ts) {steps : Nat}
    (hsteps : bs.length ≤ steps) (seen : List Token) :
    tokensFrom steps seen bs = seen.reverse ++ ts := by
  induction h generalizing steps seen with
  | nil => cases steps <;> simp [tokensFrom]
  | cons blank token shorter rest ih =>
    rw [List.length_cons] at hsteps
    obtain ⟨steps, rfl⟩ := Nat.exists_eq_add_of_le' (Nat.le_trans (Nat.le_add_left 1 _) hsteps)
    rw [tokensFrom, List.dropWhile_cons_of_neg (by simp [blank])]
    simp only [token]
    rw [ih (by omega)]
    simp

/-! ## Answers -/

/-- A member as it is written in an answer. -/
def member (e : String × Value) : String × Tree :=
  (written e.1, e.2.treeIn forms)

/-- An object without doubles has the members that are written of it. -/
theorem members?_chars {ms : Entries Value} (h : (Value.map ms).Whole) :
    members? (encode (Value.map ms).chars) = some (ms.map member) := by
  have hnumbers : ∀ n, Value.Inside (.number n) (.map ms) →
      Makes ofOctet (Value.numberText n) [.scalar (forms.number n)] := by
    intro n hn
    cases n with
    | integer i => exact makes_integer i
    | real x => exact absurd hn (h x)
  have htokens := tokensFrom_lexed (takes_ofOctet.lexed_chars _ hnumbers) Nat.le.refl []
  have hread : Tree.read? (tokens (encode (Value.map ms).chars))
      = some ((Value.map ms).treeIn forms, []) :=
    Tree.read?_eq_some.2 (htokens.trans (List.append_nil _).symm)
  have hne : (encode (Value.map ms).chars).isEmpty = false := by
    rw [Value.chars_map]
    rfl
  rw [members?, hne, Tree.whole?, hread, Value.treeIn_map]
  rfl

end RecordService.Table.Notation
