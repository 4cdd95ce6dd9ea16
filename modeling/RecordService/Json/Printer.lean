import RecordService.Decimal.Layout
import RecordService.Text.Hex
import RecordService.Value
/-!
# JSON text of a value

Compact JSON: no blanks, members in their order. Texts are escaped only where JSON asks for it.
Doubles are written by the fewest digits that read back. The printer puts characters in front of
what is written, last character first, so that a long list costs no depth; `chars` turns that round.
-/

namespace RecordService

/-- Doubles in JSON: an exponent below 1e-5 and from 1e16 on, a whole number ends in `.0`, and a
half goes to the even digit. -/
def Json.reals : Decimal.Layout := ⟨some (-5, 15), true, .toEven⟩

namespace Value

/-- One character of a text between quotes. -/
def escaped (c : Char) : List Char :=
  match c with
  | '"' => ['\\', '"']
  | '\\' => ['\\', '\\']
  | '\x08' => ['\\', 'b']
  | '\x0c' => ['\\', 'f']
  | '\n' => ['\\', 'n']
  | '\r' => ['\\', 'r']
  | '\t' => ['\\', 't']
  | c => if c.toNat < 0x20 then '\\' :: 'u' :: Text.Hex.padded 4 c.toNat else [c]

/-- A text between quotes. -/
def quotedText (s : String) : List Char :=
  '"' :: s.toList.flatMap escaped ++ ['"']

def intText (i : Int) : List Char :=
  (if i < 0 then ['-'] else []) ++ Nat.toDigits 10 i.natAbs

def numberText : Number → List Char
  | .integer i => intText i.toInt
  | .real x => Json.reals.text x

mutual

/-- The text of a value in front of `done`, last character first. -/
def emit : Value → List Char → List Char
  | .null, done => 'l' :: 'l' :: 'u' :: 'n' :: done
  | .bool true, done => 'e' :: 'u' :: 'r' :: 't' :: done
  | .bool false, done => 'e' :: 's' :: 'l' :: 'a' :: 'f' :: done
  | .number n, done => (numberText n).reverseAux done
  | .string s, done => (quotedText s).reverseAux done
  | .list xs, done => ']' :: emitItems true xs ('[' :: done)
  | .map ms, done => '\x7d' :: emitMembers true ms ('\x7b' :: done)

def emitItems (first : Bool) : List Value → List Char → List Char
  | [], done => done
  | x :: xs, done => emitItems false xs (emit x (if first then done else ',' :: done))

def emitMembers (first : Bool) : List (String × Value) → List Char → List Char
  | [], done => done
  | (n, x) :: ms, done =>
    let named := ':' :: (quotedText n).reverseAux (if first then done else ',' :: done)
    emitMembers false ms (emit x named)

end

mutual

/-- What is written does not depend on what stands before it. -/
theorem emit_append (v : Value) (done : List Char) : emit v done = emit v [] ++ done := by
  cases v with
  | null => simp [emit]
  | bool b => cases b <;> simp [emit]
  | number n => simp [emit, List.reverseAux_eq]
  | string s => simp [emit, List.reverseAux_eq]
  | list xs =>
    rw [emit, emit, emitItems_append xs true ['['], emitItems_append xs true ('[' :: done)]
    simp
  | map ms =>
    rw [emit, emit, emitMembers_append ms true ['\x7b'],
      emitMembers_append ms true ('\x7b' :: done)]
    simp

theorem emitItems_append (xs : List Value) (first : Bool) (done : List Char) :
    emitItems first xs done = emitItems first xs [] ++ done := by
  cases xs with
  | nil => simp [emitItems]
  | cons x xs =>
    simp only [emitItems]
    rw [emitItems_append xs, emitItems_append xs false (emit x _), emit_append x,
      emit_append x (if first = true then [] else _)]
    cases first <;> simp

theorem emitMembers_append (ms : List (String × Value)) (first : Bool) (done : List Char) :
    emitMembers first ms done = emitMembers first ms [] ++ done := by
  cases ms with
  | nil => simp [emitMembers]
  | cons m ms =>
    obtain ⟨n, x⟩ := m
    simp only [emitMembers]
    rw [emitMembers_append ms, emitMembers_append ms false (emit x _), emit_append x,
      emit_append x (_ :: List.reverseAux _ (if first = true then [] else _))]
    cases first <;> simp [List.reverseAux_eq]

end

/-- The characters of a value's JSON text. -/
def chars (v : Value) : List Char :=
  (emit v []).reverse

/-- The JSON text of a value. -/
def text (v : Value) : String :=
  String.ofList (chars v)

end Value

end RecordService
