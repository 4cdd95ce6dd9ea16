import RecordService.Json.Printer
/-!
# The layout of JSON text

The printer writes backwards, in front of what is there. What it comes to is said here from the
left: a list is its items between brackets, and a map its members between braces, in their order
and with commas between them.
-/

namespace RecordService.Value

/-- A member of a map: its name between quotes, a colon and its value. -/
def memberChars (e : String × Value) : List Char :=
  quotedText e.1 ++ ':' :: chars e.2

/-- With one more comma in front, there is a comma before each piece. -/
theorem comma_intercalate {ps : List (List Char)} (h : ps ≠ []) :
    ',' :: [','].intercalate ps = ps.flatMap (',' :: ·) := by
  induction ps with
  | nil => exact absurd rfl h
  | cons p ps ih =>
    cases ps with
    | nil => simp
    | cons q qs => simpa [List.intercalate_cons_cons] using ih (List.cons_ne_nil q qs)

-- Items and members have a comma before them unless they come first. The induction is over those
-- that have one; a list or map that is not empty is such text without its first comma.

/-! ## Lists -/

theorem reverse_emitItems (xs : List Value) :
    (emitItems false xs []).reverse = (xs.map chars).flatMap (',' :: ·) := by
  induction xs with
  | nil => rfl
  | cons x xs ih =>
    rw [emitItems, emitItems_append, emit_append]
    simp [ih, chars]

theorem emitItems_comma (x : Value) (xs : List Value) :
    emitItems false (x :: xs) [] = emitItems true (x :: xs) [] ++ [','] := by
  simp only [emitItems, Bool.false_eq_true, if_false, if_true]
  rw [emit_append x [','], emitItems_append, emitItems_append xs false (emit x []),
    List.append_assoc]

/-- A list is written as its items between brackets. -/
theorem chars_list (xs : List Value) :
    chars (.list xs) = '[' :: [','].intercalate (xs.map chars) ++ [']'] := by
  rw [chars, emit, emitItems_append, List.reverse_cons, List.reverse_append]
  cases xs with
  | nil => rfl
  | cons x xs =>
    have hitems := reverse_emitItems (x :: xs)
    rw [emitItems_comma, ← comma_intercalate (by simp), List.reverse_append] at hitems
    simpa using hitems

/-! ## Maps -/

theorem reverse_emitMembers (ms : Entries Value) :
    (emitMembers false ms []).reverse = (ms.map memberChars).flatMap (',' :: ·) := by
  induction ms with
  | nil => rfl
  | cons e ms ih =>
    rw [emitMembers, emitMembers_append, emit_append]
    simp [ih, chars, memberChars, List.reverseAux_eq]

theorem emitMembers_comma (e : String × Value) (ms : Entries Value) :
    emitMembers false (e :: ms) [] = emitMembers true (e :: ms) [] ++ [','] := by
  simp only [emitMembers, Bool.false_eq_true, if_false, if_true]
  rw [emit_append e.2, emitMembers_append, emit_append e.2 (_ :: List.reverseAux _ []),
    emitMembers_append ms false (_ ++ _ :: List.reverseAux _ [])]
  simp [List.reverseAux_eq]

/-- A map is written as its members between braces. -/
theorem chars_map (ms : Entries Value) :
    chars (.map ms) = '\x7b' :: [','].intercalate (ms.map memberChars) ++ ['\x7d'] := by
  rw [chars, emit, emitMembers_append, List.reverse_cons, List.reverse_append]
  cases ms with
  | nil => rfl
  | cons e ms =>
    have hmembers := reverse_emitMembers (e :: ms)
    rw [emitMembers_comma, ← comma_intercalate (by simp), List.reverse_append] at hmembers
    simpa using hmembers

end RecordService.Value
