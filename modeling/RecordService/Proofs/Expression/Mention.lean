import RecordService.Proofs.Expression.Compile
import RecordService.Expression.Filter
/-!
# The placeholders that an expression mentions

A reader who knows nothing of attributes finds placeholders by their marks: `#` or `:`, and all the
letters, digits and `_` that follow. In the clause of an update it finds the two placeholders of
each attribute, and nothing else.
-/

namespace RecordService.Expression

open Entries (names)
open Update (term setting)

/-! ## The reader -/

def isMark (c : Char) : Bool := c == '#' || c == ':'

/-- A character that goes on a placeholder. -/
def isPart (c : Char) : Bool := isPlain c || c == '_'

/-- The placeholders in the characters, from the left. No part of a placeholder is a mark, so it
does no harm to read on inside of one. -/
def mentionedIn : List Char → List (List Char)
  | [] => []
  | c :: cs => if isMark c then (c :: cs.takeWhile isPart) :: mentionedIn cs else mentionedIn cs

/-- The placeholders that a text mentions, from the left. -/
def mentioned (text : String) : List String :=
  (mentionedIn text.toList).map String.ofList

theorem isMark_of_isPart {c : Char} (h : isPart c = true) : isMark c = false := by
  simp only [isMark, Bool.or_eq_false_iff, beq_eq_false_iff_ne]
  constructor <;>
  · rintro rfl
    revert h
    decide

theorem isPart_of_mem_token {name : String} {c : Char} (h : c ∈ (token name).toList) :
    isPart c = true := by
  rcases mem_token h with hc | rfl
  · simp [isPart, hc]
  · decide

/-! ## One piece after another -/

theorem mentionedIn_append {cs : List Char} (h : cs.any isMark = false) (rest : List Char) :
    mentionedIn (cs ++ rest) = mentionedIn rest := by
  induction cs with
  | nil => rfl
  | cons c cs ih =>
    rw [List.any_cons, Bool.or_eq_false_iff] at h
    rw [List.cons_append, mentionedIn, h.1, if_neg Bool.false_ne_true, ih h.2]

/-- A placeholder ends where something else begins. -/
theorem mentionedIn_mark {mark : Char} (hmark : isMark mark = true) (name : String)
    {rest : List Char} (hrest : rest.takeWhile isPart = []) :
    mentionedIn (mark :: (token name).toList ++ rest)
      = (mark :: (token name).toList) :: mentionedIn rest := by
  have hparts : ∀ c ∈ (token name).toList, isPart c = true := fun c => isPart_of_mem_token
  have hfree : (token name).toList.any isMark = false := by
    rw [List.any_eq_false]
    intro c hc
    simp [isMark_of_isPart (hparts c hc)]
  rw [List.cons_append, mentionedIn, if_pos hmark, mentionedIn_append hfree,
    List.takeWhile_append_of_pos hparts, hrest, List.append_nil]

/-- The two placeholders of an attribute. -/
def aliases (name : String) : List String := [nameAlias name, valueAlias name]

theorem mentionedIn_term (name : String) {rest : List Char} (hrest : rest.takeWhile isPart = []) :
    mentionedIn ((term name).toList ++ rest)
      = (aliases name).map String.toList ++ mentionedIn rest := by
  have hterm : (term name).toList ++ rest = '#' :: (token name).toList ++
      ([' ', '=', ' '] ++ (':' :: (token name).toList ++ rest)) := by
    simp [term, toList_nameAlias, toList_valueAlias]
  have hblank : ([' ', '=', ' '] ++ (':' :: (token name).toList ++ rest)).takeWhile isPart = [] :=
    rfl
  rw [hterm, mentionedIn_mark rfl name hblank, mentionedIn_append rfl,
    mentionedIn_mark rfl name hrest]
  simp [aliases, toList_nameAlias, toList_valueAlias]

theorem mentionedIn_terms (ns : List String) :
    mentionedIn ([',', ' '].intercalate (ns.map fun n => (term n).toList))
      = ns.flatMap fun n => (aliases n).map String.toList := by
  induction ns with
  | nil => rfl
  | cons n ns ih =>
    cases ns with
    | nil => simpa [mentionedIn] using mentionedIn_term n (List.takeWhile_nil)
    | cons m ms =>
      rw [List.map_cons, List.map_cons, List.intercalate_cons_cons, List.append_assoc,
        mentionedIn_term n rfl, mentionedIn_append rfl]
      rw [List.map_cons] at ih
      rw [ih]
      rfl

/-! ## Expressions -/

theorem mentioned_term (name : String) : mentioned (term name) = aliases name := by
  have hterm := mentionedIn_term name List.takeWhile_nil
  rw [List.append_nil, mentionedIn, List.append_nil] at hterm
  simp [mentioned, hterm]

theorem mentioned_clause (key : Key) (set : Attributes) :
    mentioned (setting key set).clause = (names set).flatMap aliases := by
  have hclause : (setting key set).clause.toList = "SET ".toList ++
      [',', ' '].intercalate ((names set).map fun n => (term n).toList) := by
    simp [setting, String.toList_append, String.toList_intercalate, Function.comp_def]
  rw [mentioned, hclause, mentionedIn_append rfl, mentionedIn_terms]
  simp [List.map_flatMap]

/-- The condition of an update mentions one placeholder. -/
theorem mentioned_condition (name : String) :
    mentioned ("attribute_exists(" ++ nameAlias name ++ ")") = [nameAlias name] := by
  have hcondition : ("attribute_exists(" ++ nameAlias name ++ ")").toList
      = "attribute_exists(".toList ++ ('#' :: (token name).toList ++ [')']) := by
    simp [String.toList_append, toList_nameAlias]
  rw [mentioned, hcondition, mentionedIn_append rfl, mentionedIn_mark rfl name rfl]
  simp [mentionedIn, isMark, ← toList_nameAlias]

theorem mem_mentioned_clause (key : Key) {set : Attributes} {p : String} :
    p ∈ mentioned (setting key set).clause ↔
      ∃ n ∈ names set, p = nameAlias n ∨ p = valueAlias n := by
  simp [mentioned_clause, aliases]

/-- An attribute that is not set is not mentioned. -/
theorem nameAlias_not_mem_clause (key : Key) {set : Attributes} {name : String}
    (h : name ∉ names set) : nameAlias name ∉ mentioned (setting key set).clause := by
  intro hm
  obtain ⟨n, hn, hname | hvalue⟩ := (mem_mentioned_clause key).1 hm
  · exact h (nameAlias_injective hname ▸ hn)
  · exact nameAlias_ne_valueAlias name n hvalue

end RecordService.Expression
