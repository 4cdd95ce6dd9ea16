import RecordService.Json.Quoted
import RecordService.Proofs.Json.Printer
import RecordService.Proofs.Text.Utf8
/-!
# Texts between quotes

What the printer writes between quotes, the reader reads: `read_quotedText`. The reader stops at the
closing quote, so no text is written as the beginning of another, and the text of a record tells
which key the record has.
-/

namespace RecordService.Json.Quoted

open Text.Utf8 (encode)
open Value (escaped quotedText)

variable {mode mode' : Mode} {bs out : List UInt8}

/-- Where a run of octets takes the machine, and the octets it completes, last first. -/
def steps (mode : Mode) : List UInt8 → Option (Mode × List UInt8)
  | [] => some (mode, [])
  | b :: bs =>
    match step mode b with
    | .go next octets => (steps next bs).map fun (last, later) => (last, later ++ octets)
    | _ => none

theorem readFrom_steps (h : steps mode bs = some (mode', out)) (seen rest : List UInt8) :
    readFrom mode seen (bs ++ rest) = readFrom mode' (out ++ seen) rest := by
  induction bs generalizing mode seen out with
  | nil =>
    cases h
    rfl
  | cons b bs ih =>
    unfold steps at h
    split at h
    · next next octets hstep =>
      obtain ⟨⟨last, later⟩, hlater, hout⟩ := Option.map_eq_some_iff.1 h
      cases hout
      rw [List.cons_append, readFrom, hstep]
      simp only [ih hlater, List.append_assoc]
    · cases h

theorem steps_append {next last : Mode} {cs later : List UInt8}
    (h : steps mode bs = some (next, out)) (h' : steps next cs = some (last, later)) :
    steps mode (bs ++ cs) = some (last, later ++ out) := by
  induction bs generalizing mode out with
  | nil =>
    cases h
    rw [List.nil_append, h', List.append_nil]
  | cons b bs ih =>
    unfold steps at h
    split at h
    · next middle octets hstep =>
      obtain ⟨⟨_, before⟩, hbefore, hout⟩ := Option.map_eq_some_iff.1 h
      cases hout
      rw [List.cons_append, steps, hstep]
      simp only [ih hbefore, Option.map_some, List.append_assoc]
    · cases h

/-- What makes a character, and what makes the others. -/
theorem steps_cons {piece : List UInt8} {c : Char} {cs : List Char}
    (hpiece : steps .plain piece = some (.plain, octets c))
    (h : steps .plain bs = some (.plain, (encode cs).reverse)) :
    steps .plain (piece ++ bs) = some (.plain, (encode (c :: cs)).reverse) := by
  have hcode : encode (c :: cs) = String.utf8EncodeChar c ++ encode cs := List.flatMap_cons
  rw [steps_append hpiece h, hcode, List.reverse_append, octets]

/-- The octet stands for itself between quotes. -/
def IsPlain (b : UInt8) : Prop :=
  b ≠ 0x22 ∧ b ≠ 0x5C ∧ ¬b < 0x20

theorem isPlain_of_high : ∀ b : UInt8, 0x80 ≤ b → IsPlain b := by
  unfold IsPlain
  exact Text.Utf8.forall_octet (by decide +kernel)

theorem steps_plain (h : ∀ b ∈ bs, IsPlain b) : steps .plain bs = some (.plain, bs.reverse) := by
  induction bs with
  | nil => rfl
  | cons b bs ih =>
    obtain ⟨⟨hquote, hslash, hcontrol⟩, hbs⟩ := List.forall_mem_cons.1 h
    have hstep : step .plain b = .go .plain [b] := by
      simp only [step, if_neg hquote, if_neg hslash, if_neg hcontrol]
    rw [steps, hstep]
    simp only [ih hbs, Option.map_some, List.reverse_cons]

theorem escaped_high {c : Char} (h : 0x80 ≤ c.toNat) : escaped c = [c] := by
  unfold escaped
  split
  case h_8 => exact if_neg (by omega)
  all_goals exact absurd h (by decide)

/-- A character is read as it was written, escaped or not. -/
theorem steps_escaped (c : Char) : steps .plain (encode (escaped c)) = some (.plain, octets c) := by
  by_cases h : c.toNat < 0x80
  · exact Text.Utf8.forall_ascii h (by decide +kernel)
  · have hhigh : 0x80 ≤ c.toNat := by omega
    rw [escaped_high hhigh, encode, List.flatMap_singleton]
    exact steps_plain fun b hb => isPlain_of_high b (Text.Utf8.utf8EncodeChar_high hhigh b hb)

theorem steps_flatMap_escaped (cs : List Char) :
    steps .plain (encode (cs.flatMap escaped)) = some (.plain, (encode cs).reverse) := by
  induction cs with
  | nil => rfl
  | cons c cs ih =>
    rw [List.flatMap_cons, Text.Utf8.encode_append]
    exact steps_cons (steps_escaped c) ih

/-- The text whose octets are completed is read, up to the closing quote. -/
theorem read_steps {s : String} (h : steps .plain bs = some (.plain, (encode s.toList).reverse))
    (rest : List UInt8) : read (bs ++ 0x22 :: rest) = .ok (s, rest) := by
  have hread : readFrom .plain [] (bs ++ 0x22 :: rest) = .ok (encode s.toList, rest) := by
    rw [readFrom_steps h, readFrom]
    simp [step]
  rw [read, hread]
  simp only [bind, Except.bind, Text.Utf8.decode?_encode, String.ofList_toList]
  rfl

/-- What is written between quotes is read. -/
theorem read_quotedText (s : String) (rest : List UInt8) :
    read (encode (s.toList.flatMap escaped) ++ 0x22 :: rest) = .ok (s, rest) :=
  read_steps (steps_flatMap_escaped s.toList) rest

end RecordService.Json.Quoted

namespace RecordService.Value

open Text.Utf8 (encode)

theorem encode_quotedText (s : String) (cs : List Char) : encode (quotedText s ++ cs)
    = 0x22 :: (encode (s.toList.flatMap escaped) ++ 0x22 :: encode cs) := by
  simp [quotedText, encode, String.utf8EncodeChar]

/-- No text between quotes is the beginning of another one. -/
theorem quotedText_append_inj {s t : String} {cs ds : List Char}
    (h : quotedText s ++ cs = quotedText t ++ ds) : s = t := by
  have hcode := congrArg encode h
  rw [encode_quotedText, encode_quotedText, List.cons.injEq] at hcode
  have hsame := congrArg Json.Quoted.read hcode.2
  rw [Json.Quoted.read_quotedText, Json.Quoted.read_quotedText, Except.ok.injEq] at hsame
  exact congrArg Prod.fst hsame

theorem chars_string (s : String) : chars (.string s) = quotedText s := by
  simp [chars, emit, List.reverseAux_eq]

theorem chars_number (n : Number) : chars (.number n) = numberText n := by
  simp [chars, emit, List.reverseAux_eq]

/-- The text of an object begins with its first member. -/
theorem chars_map_cons (e : String × Value) (ms : Entries Value) :
    ∃ rest, chars (.map (e :: ms)) = '\x7b' :: (memberChars e ++ rest) := by
  rw [chars_map]
  cases ms with
  | nil => exact ⟨['\x7d'], by simp⟩
  | cons d ms =>
    rw [List.map_cons, List.map_cons, List.intercalate_cons_cons]
    exact ⟨_, by rw [List.cons_append, List.append_assoc, List.append_assoc]⟩

/-- A text that begins with a name and a text tells the latter. -/
theorem text_key {name k l : String} {ms ns : Entries Value}
    (h : (map ((name, .string k) :: ms)).text = (map ((name, .string l) :: ns)).text) : k = l := by
  have hchars : chars (map ((name, .string k) :: ms)) = chars (map ((name, .string l) :: ns)) :=
    String.ofList_injective h
  obtain ⟨rest, hrest⟩ := chars_map_cons (name, .string k) ms
  obtain ⟨rest', hrest'⟩ := chars_map_cons (name, .string l) ns
  rw [hrest, hrest', List.cons.injEq] at hchars
  simp only [memberChars, chars_string, List.append_assoc, List.cons_append,
    List.append_cancel_left_eq, List.cons.injEq, true_and] at hchars
  exact quotedText_append_inj hchars

end RecordService.Value
