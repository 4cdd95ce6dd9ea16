import Mathlib.Algebra.Order.Group.Nat
import RecordService.Proofs.Json.Grammar
import RecordService.Proofs.Related
/-!
# How short a text can be

The printer wastes nothing: a text that is read as an object is no shorter than what is printed of
any one of its members that is a text. Each token takes as many octets as it is printed with, and an
embedded text takes more than the text it is embedded in has for it.
-/

namespace RecordService.Json

open Text.Utf8 (encode)
open Value (chars escaped quotedText)

/-! ## Between quotes -/

/-- A character takes no fewer octets between quotes than alone, and never more than an escaped code
unit. -/
theorem length_escaped (c : Char) :
    (String.utf8EncodeChar c).length ≤ (encode (escaped c)).length ∧
      (encode (escaped c)).length ≤ 6 := by
  by_cases h : c.toNat < 0x80
  · exact Text.Utf8.forall_ascii h (by decide +kernel)
  · have hsize := c.utf8Size_le_four
    rw [Quoted.escaped_high (by omega), encode, List.flatMap_singleton,
      String.length_utf8EncodeChar]
    omega

theorem length_encode_flatMap_escaped (cs : List Char) :
    (encode cs).length ≤ (encode (cs.flatMap escaped)).length := by
  induction cs with
  | nil => exact Nat.le.refl
  | cons c cs ih =>
    have hchar := (length_escaped c).1
    rw [List.flatMap_cons, Text.Utf8.encode_append, encode, List.flatMap_cons]
    simp only [List.length_append]
    exact Nat.add_le_add hchar ih

/-- Printed characters stand for themselves. -/
theorem escaped_printed {c : Char} (printable : 0x20 ≤ c.toNat) (quote : c ≠ '"')
    (backslash : c ≠ '\\') : escaped c = [c] := by
  unfold escaped
  split
  case h_8 => exact if_neg (by omega)
  all_goals simp_all

theorem length_short {e : UInt8} {c : Char} (h : (e, c) ∈ shortEscapes) :
    (encode (escaped c)).length ≤ 2 := by
  have hall : (shortEscapes.all fun p => (encode (escaped p.2)).length ≤ 2) = true := by
    decide +kernel
  exact of_decide_eq_true (List.all_eq_true.1 hall _ h)

/-- The printer says nothing in fewer octets. -/
theorem Says.length_le {inside : List UInt8} {cs : List Char} (h : Says inside cs) :
    (encode (cs.flatMap escaped)).length ≤ inside.length := by
  induction h with
  | nil => exact Nat.le.refl
  | char printable quote backslash _ ih =>
    rw [List.flatMap_cons, Text.Utf8.encode_append, escaped_printed printable quote backslash,
      encode, List.flatMap_singleton]
    simpa using ih
  | @short e c bs cs escape _ ih =>
    have hshort := length_short escape
    rw [List.flatMap_cons, Text.Utf8.encode_append]
    simp only [List.length_append, List.length_cons]
    omega
  | @unit a b c d u bs cs _ _ _ ih =>
    have hunit := (length_escaped (Char.ofNat u)).2
    rw [List.flatMap_cons, Text.Utf8.encode_append]
    simp only [List.length_append, List.length_cons]
    omega
  | @pair a b c d a' b' c' d' high low bs cs _ _ _ _ ih =>
    have hpair := (length_escaped (Quoted.paired high low)).2
    rw [List.flatMap_cons, Text.Utf8.encode_append]
    simp only [List.length_append, List.length_cons]
    omega

/-! ## Tokens -/

/-- How many octets a token takes at least. -/
def Token.least : Token Quoted Scalar → Nat
  | .text (.text s) => (encode (quotedText s)).length
  | _ => 1

theorem length_encode_quotedText (s : String) :
    (encode (quotedText s)).length = (encode (s.toList.flatMap escaped)).length + 2 := by
  have h := congrArg List.length (Value.encode_quotedText s [])
  rw [List.append_nil] at h
  simpa [encode] using h

/-- A token that is a text is read as one. -/
theorem ofOctet_text {b : UInt8} {bs after : List UInt8} {s : String}
    (h : Token.ofOctet b bs = (.text (.text s), some after)) : Quoted.read bs = .ok (s, after) := by
  unfold Token.ofOctet at h
  split at h
  · next hmark =>
    cases h
    unfold Token.mark? at hmark
    grind
  · split at h
    · unfold Token.ofQuoted at h
      grind
    · unfold Token.ofNumber Token.ofWord at h
      grind

/-- A token takes at least its octets from those that follow. -/
theorem Token.least_le {b : UInt8} {bs after : List UInt8} {t : Token Quoted Scalar}
    (h : ofOctet b bs = (t, some after)) (ht : t.isReadable = true) :
    t.least + after.length ≤ (b :: bs).length := by
  by_cases htext : ∃ s, t = .text (.text s)
  · obtain ⟨s, rfl⟩ := htext
    obtain ⟨inside, rfl, hinside⟩ := Quoted.read_sound (ofOctet_text h)
    have hlength := hinside.length_le
    rw [least, length_encode_quotedText]
    simp only [List.length_cons, List.length_append]
    omega
  · obtain ⟨used, hused, hspells⟩ := ofOctet_sound h ht
    obtain ⟨last, hlast, -⟩ := hspells.getLast
    have hpositive : 0 < used.length := List.length_pos_of_mem (List.mem_of_getLast? hlast)
    have hone : t.least = 1 := by
      unfold least
      split
      · exact absurd ⟨_, rfl⟩ htext
      · rfl
    rw [hused, List.length_append, hone]
    omega

/-- How many octets the tokens take at least. -/
def leastOf : List (Token Quoted Scalar) → Nat
  | [] => 0
  | t :: ts => t.least + leastOf ts

theorem leastOf_append (ts us : List (Token Quoted Scalar)) :
    leastOf (ts ++ us) = leastOf ts + leastOf us := by
  induction ts with
  | nil => exact (Nat.zero_add _).symm
  | cons t ts ih => rw [List.cons_append, leastOf, leastOf, ih, Nat.add_assoc]

theorem leastOf_le {ts us : List (Token Quoted Scalar)} (h : ts.Sublist us) :
    leastOf ts ≤ leastOf us := by
  induction h with
  | slnil => exact Nat.le.refl
  | cons _ _ ih => exact ih.trans (Nat.le_add_left ..)
  | cons_cons _ _ ih => exact Nat.add_le_add_left ih _

/-- Readable tokens that come first take at least their octets. -/
theorem lexemesFrom_least {steps : Nat} {bs : List UInt8} {used rest : List Lexeme}
    (h : lexemesFrom steps [] bs = used ++ rest) (hused : ∀ x ∈ used, x.token.isReadable = true) :
    leastOf (used.map (·.token)) ≤ bs.length := by
  induction used generalizing steps bs with
  | nil => exact Nat.zero_le _
  | cons x used ih =>
    obtain ⟨hx, hothers⟩ := List.forall_mem_cons.1 hused
    obtain ⟨steps, b, tail, rfl, hdrop, htoken, hlater⟩ := lexemesFrom_cons h hx
    have hfirst := Token.least_le htoken hx
    have hlater := ih hlater hothers
    have hblanks := (List.dropWhile_suffix isBlank (l := bs)).length_le
    rw [hdrop] at hblanks
    rw [List.map_cons, leastOf]
    omega

/-! ## Values -/

/-- What a value shows: the text that it is, or one member of it that is a text. -/
inductive Shows : Value → Value → Prop where
  | text (s : String) : Shows (.string s) (.string s)
  | member {ms : Entries Value} {name s : String} (h : (name, .string s) ∈ ms) :
      Shows (.map ms) (.map [(name, .string s)])

/-- A text that is embedded takes no fewer octets than it has. -/
theorem length_embedded (s : String) : (encode s.toList).length ≤ leastOf [.text (.text s)] := by
  have h := length_encode_flatMap_escaped s.toList
  simp only [leastOf, Token.least, length_encode_quotedText]
  omega

/-- A string is printed with the octets of its token. -/
theorem length_chars_string (s : String) :
    (encode (chars (.string s))).length = leastOf [.text (.text s)] := by
  simp [Value.chars_string, leastOf, Token.least]

theorem length_chars_member (name s : String) :
    (encode (chars (.map [(name, .string s)]))).length
      = leastOf [.beginMap, .text (.text name), .colon, .text (.text s), .endMap] := by
  simp only [Value.chars_map, Value.memberChars, Value.chars_string, List.map_cons, List.map_nil,
    List.intercalate_singleton, List.cons_append, leastOf, Token.least]
  have hopen : (String.utf8EncodeChar '\x7b').length = 1 := rfl
  have hcolon : (String.utf8EncodeChar ':').length = 1 := rfl
  have hclose : (String.utf8EncodeChar '\x7d').length = 1 := rfl
  simp [encode, hopen, hcolon, hclose]

/-- A name takes more octets than it has characters, whatever stands under it. -/
theorem length_lt_member (name s : String) :
    name.length < (encode (chars (.map [(name, .string s)]))).length := by
  have hname := length_encode_flatMap_escaped name.toList
  have hchars := Text.Utf8.length_le_encode name.toList
  rw [length_chars_member]
  simp only [leastOf, Token.least, length_encode_quotedText]
  rw [String.length_toList] at hchars
  omega

/-- Nothing but the empty text takes fewer octets than a letter. -/
theorem length_member_le (name : String) {s : String} (hs : s ≠ "") :
    (encode (chars (.map [(name, .string "k")]))).length
      ≤ (encode (chars (.map [(name, .string s)]))).length := by
  have htext := length_encode_flatMap_escaped s.toList
  have hchars := Text.Utf8.length_le_encode s.toList
  have hpositive : s.length ≠ 0 := fun h => hs (String.length_eq_zero_iff.1 h)
  have hletter : (encode ("k".toList.flatMap escaped)).length = 1 := by decide
  rw [length_chars_member, length_chars_member]
  simp only [leastOf, Token.least, length_encode_quotedText, hletter]
  rw [String.length_toList] at hchars
  omega

section
variable {inner : String → Except Fault Value}

/-- The tokens of a tree take no fewer octets than what its value shows is printed with, if that is
so of the texts that are embedded. -/
theorem least_of_value?
    (hinner : ∀ s v w, inner s = .ok v → Shows v w →
      (encode w.chars).length ≤ (encode s.toList).length)
    (t : Tree Quoted Scalar) {v w : Value} (hv : t.value? inner = some v) (hw : Shows v w) :
    (encode w.chars).length ≤ leastOf t.spelled := by
  induction t using Tree.nested_induction generalizing v w with
  | text q =>
    cases q with
    | text s =>
      cases hv
      cases hw
      exact (length_chars_string s).le
    | _ => cases hv
  | scalar s =>
    -- No scalar shows a text.
    cases s with
    | number l =>
      obtain ⟨n, -, rfl⟩ := Option.map_eq_some_iff.1 hv
      cases hw
    | null => cases hv; cases hw
    | bool b => cases hv; cases hw
    | _ => cases hv
  | list items =>
    obtain ⟨vs, -, rfl⟩ := Option.map_eq_some_iff.1 hv
    cases hw
  | map ms ih =>
    rw [Tree.spelled_map]
    rw [Tree.value?] at hv
    split at hv
    · obtain ⟨q, s, rfl, hs⟩ := Tree.embedded?_eq_some hv
      refine (hinner s v w hs hw).trans ((length_embedded s).trans (leastOf_le ?_))
      simp [Tree.memberSpelled, Tree.spelled]
    · obtain ⟨pairs, hpairs, rfl⟩ := Option.map_eq_some_iff.1 hv
      cases hw with
      | @member _ name s hmem =>
        have hpair := (Entries.mem_putAll hmem).resolve_right List.not_mem_nil
        obtain ⟨⟨_, t⟩, hm, rfl, hvalue⟩ :=
          exists_of_related (Tree.pairs?_eq_some.1 hpairs) _ hpair
        have htext := ih _ hm hvalue (.text s)
        have hpart := leastOf_le (Tree.sublist_intercalate
          (List.mem_map_of_mem (f := Tree.memberSpelled) hm))
        rw [length_chars_string] at htext
        rw [length_chars_member]
        simp only [Tree.memberSpelled, leastOf, leastOf_append, Token.least] at htext hpart ⊢
        omega

/-- What is read of the tokens of a text shows nothing that is printed with more octets. -/
theorem length_of_readFrom
    (hinner : ∀ s v w, inner s = .ok v → Shows v w →
      (encode w.chars).length ≤ (encode s.toList).length)
    {bs : List UInt8} {rest : List Lexeme} {v w : Value}
    (h : Reader.readFrom inner [] .value (lexemes bs) = .ok (v, rest)) (hw : Shows v w) :
    (encode w.chars).length ≤ bs.length := by
  obtain ⟨tree, used, hused, hreadable, hspelled, hvalue⟩ := Reader.readFrom_ok h
  calc (encode w.chars).length ≤ leastOf tree.spelled := least_of_value? hinner tree hvalue hw
    _ = leastOf (used.map (·.token)) := by rw [hspelled]
    _ ≤ bs.length := lexemesFrom_least hused hreadable

end

theorem length_of_readWithin {levels : Nat} {bs : List UInt8} {v w : Value}
    (h : Reader.readWithin levels bs = .ok v) (hw : Shows v w) :
    (encode w.chars).length ≤ bs.length := by
  induction levels generalizing bs v w with
  | zero => cases h
  | succ levels ih =>
    obtain ⟨⟨u, rest⟩, hread, halone⟩ := bind_eq_ok.1 (mapError_eq_ok.1 h)
    obtain rfl : u = v := by
      cases rest with
      | nil => exact Except.ok.inj halone
      | cons x xs => cases halone
    refine length_of_readFrom (fun s v w hs hw => ?_) hread hw
    rw [← Text.Utf8.toList_toUTF8]
    exact ih hs hw

/-- A text that is read as an object is no shorter than what is printed of one of its members that
is a text. -/
theorem length_of_readFirst {bs : List UInt8} {ms : Entries Value} {name s : String}
    (h : readFirst bs = .ok (.map ms)) (hmem : (name, .string s) ∈ ms) :
    (encode (chars (.map [(name, .string s)]))).length ≤ bs.length := by
  obtain ⟨⟨u, rest⟩, hread, hu⟩ := map_eq_ok.1 (mapError_eq_ok.1 h)
  obtain rfl : u = .map ms := hu
  refine length_of_readFrom (fun s v w hs hw => ?_) hread (.member hmem)
  rw [← Text.Utf8.toList_toUTF8]
  exact length_of_readWithin hs hw

end RecordService.Json
