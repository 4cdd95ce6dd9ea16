import RecordService.Proofs.Table.Double
import RecordService.Record
/-!
# Values as the table gives them back

The table gives back each number inside a value as it reads the number's numeral, and everything
else as it is. What is given back equals the value exactly if no double inside is taken for an
integer.
-/

namespace RecordService

open Entries

/-! ## Numbers -/

namespace Value

theorem number_beq_iff {n : Number} {w : Value} :
    (Value.number n == w) = true ↔ ∃ m, w = .number m ∧ (n == m) = true := by
  cases w with
  | number m =>
    simp only [number.injEq, exists_eq_left']
    rfl
  | _ => exact iff_of_false Bool.false_ne_true (by simp)

theorem eq_list_of_beq {xs : List Value} {w : Value} (h : (Value.list xs == w) = true) :
    ∃ ws, w = .list ws := by
  cases w with
  | list ws => exact ⟨ws, rfl⟩
  | _ => cases h

theorem eq_map_of_beq {ms : Entries Value} {w : Value} (h : (Value.map ms == w) = true) :
    ∃ ws, w = .map ws := by
  cases w with
  | map ws => exact ⟨ws, rfl⟩
  | _ => cases h

mutual

/-- The value that the table gives back. -/
def returned : Value → Value
  | .number n => .number n.returned
  | .list xs => .list (returnedItems xs)
  | .map ms => .map (returnedMembers ms)
  | v => v

def returnedItems : List Value → List Value
  | [] => []
  | x :: xs => returned x :: returnedItems xs

def returnedMembers : List (String × Value) → List (String × Value)
  | [] => []
  | (n, x) :: ms => (n, returned x) :: returnedMembers ms

end

theorem returnedItems_eq (xs : List Value) : returnedItems xs = xs.map returned := by
  induction xs with
  | nil => rfl
  | cons x xs ih => rw [returnedItems, ih, List.map_cons]

theorem returnedMembers_eq (ms : Entries Value) :
    returnedMembers ms = mapValues (fun _ => returned) ms := by
  induction ms with
  | nil => rfl
  | cons e ms ih => rw [returnedMembers, ih, mapValues, mapValues, List.map_cons]

theorem returned_list (xs : List Value) : returned (.list xs) = .list (xs.map returned) := by
  rw [returned, returnedItems_eq]

theorem returned_map (ms : Entries Value) :
    returned (.map ms) = .map (mapValues (fun _ => returned) ms) := by
  rw [returned, returnedMembers_eq]

/-- What equals the value that is given back equals the value itself exactly if no double inside is
taken for an integer. -/
theorem beq_iff_of_returned {v w : Value} (h : (v.returned == w) = true) :
    (v == w) = true ↔ v.EachReal fun x => ¬x.IsWord := by
  induction v using nested_induction generalizing w with
  | null => exact iff_of_true h eachReal_null
  | bool b => exact iff_of_true h (eachReal_bool b)
  | string s => exact iff_of_true h (eachReal_string s)
  | number n =>
    rw [returned, number_beq_iff] at h
    obtain ⟨m, rfl, hm⟩ := h
    rw [eachReal_number, ← Number.beq_iff_of_returned hm, number_beq_iff]
    simp
  | list xs ih =>
    rw [returned_list] at h
    obtain ⟨ws, rfl⟩ := eq_list_of_beq h
    rw [list_beq_iff, List.forall₂_map_left_iff] at h
    rw [list_beq_iff, eachReal_list]
    induction h with
    | nil => simp
    | cons hx hxs ihxs =>
      obtain ⟨ih, ihs⟩ := List.forall_mem_cons.1 ih
      rw [List.forall₂_cons, List.forall_mem_cons, ih hx, ihxs ihs]
  | map ms ih =>
    rw [returned_map] at h
    obtain ⟨ws, rfl⟩ := eq_map_of_beq h
    obtain ⟨hlength, hfound⟩ := map_beq_iff.1 h
    rw [map_beq_iff, eachReal_map]
    have hlength : ms.length = ws.length := by simpa [mapValues] using hlength
    rw [and_iff_right hlength]
    refine forall₂_congr fun e he => ?_
    obtain ⟨w, hw, hbeq⟩ := hfound (e.1, e.2.returned) (List.mem_map_of_mem he)
    rw [← ih e he hbeq]
    simp only [hw, Option.some.injEq, exists_eq_left']

theorem returnedMembers_eq_self {ms : Entries Value} (h : ∀ e ∈ ms, e.2.returned = e.2) :
    mapValues (fun _ => returned) ms = ms := by
  have hms : ∀ e ∈ ms, (e.1, e.2.returned) = id e := fun e he => Prod.ext rfl (h e he)
  rw [mapValues, List.map_congr_left hms, List.map_id]

/-- Without doubles that are taken for integers, the value itself is given back. -/
theorem returned_eq_self {v : Value} (h : v.EachReal fun x => ¬x.IsWord) : v.returned = v := by
  induction v using nested_induction with
  | null => rfl
  | bool b => rfl
  | string s => rfl
  | number n => rw [returned, Number.returned_eq_self (eachReal_number.1 h)]
  | list xs ih =>
    have hxs : ∀ x ∈ xs, x.returned = id x := fun x hx => ih x hx (eachReal_list.1 h x hx)
    rw [returned_list, List.map_congr_left hxs, List.map_id]
  | map ms ih =>
    rw [returned_map, returnedMembers_eq_self fun e he => ih e he (eachReal_map.1 h e he)]

end Value

/-! ## Records -/

namespace Record

/-- The record that the table gives back. -/
def returned (r : Record) : Record :=
  ⟨r.key, mapValues (fun _ => Value.returned) r.attributes⟩

theorem returned_eq_self {r : Record}
    (h : ∀ e ∈ r.attributes, e.2.EachReal fun x => ¬x.IsWord) : r.returned = r := by
  rw [returned, Value.returnedMembers_eq_self fun e he => Value.returned_eq_self (h e he)]

end Record

end RecordService
