/-!
# Entries in insertion order

Named entries, each name at most once, in the order in which the names came in. Writing a name that
is present keeps its place; a name that is removed and written again goes to the end. The lemmas
say what each operation does to the view `find?`, and that none of them makes a name appear twice.
-/

namespace RecordService

/-- Named entries, oldest first. -/
abbrev Entries (α : Type) := List (String × α)

namespace Entries

variable {α : Type}

/-- The entry of a name. -/
def find? (name : String) : Entries α → Option α
  | [] => none
  | (n, v) :: es => if n = name then some v else find? name es

/-- Writes an entry, in its place if the name is present and at the end otherwise. -/
def put (name : String) (value : α) : Entries α → Entries α
  | [] => [(name, value)]
  | (n, v) :: es => if n = name then (n, value) :: es else (n, v) :: put name value es

/-- Writes all of `new`, in order. -/
def putAll (new : Entries α) (es : Entries α) : Entries α :=
  new.foldl (fun es (n, v) => put n v es) es

/-- The entries written one after another into nothing: a repeated name keeps its first place and
its last value. -/
def ofPairs (pairs : List (String × α)) : Entries α :=
  putAll pairs []

/-- The entries without a name, the others in their order. -/
def erase (name : String) (es : Entries α) : Entries α :=
  es.filter (fun e => e.1 ≠ name)

/-- The names, oldest first. -/
def names (es : Entries α) : List String :=
  es.map (·.1)

/-- The entries in the order of their names, by code point. -/
def sorted (es : Entries α) : Entries α :=
  es.mergeSort (fun a b => decide (a.1 ≤ b.1))

/-! ## The view of each operation -/

theorem find?_put (name other : String) (v : α) (es : Entries α) :
    find? other (put name v es) = if name = other then some v else find? other es := by
  induction es with
  | nil => simp [put, find?]
  | cons e es ih => grind [put, find?]

theorem find?_erase (name other : String) (es : Entries α) :
    find? other (erase name es) = if name = other then none else find? other es := by
  induction es with
  | nil => simp [erase, find?]
  | cons e es ih => grind [erase, find?]

theorem find?_isSome (name : String) (es : Entries α) :
    (find? name es).isSome ↔ name ∈ names es := by
  induction es with
  | nil => simp [find?, names]
  | cons e es ih => grind [find?, names]

theorem names_put (name : String) (v : α) (es : Entries α) :
    names (put name v es) = if name ∈ names es then names es else names es ++ [name] := by
  induction es with
  | nil => simp [put, names]
  | cons e es ih => grind [put, names]

theorem nodup_put {es : Entries α} (h : (names es).Nodup) (name : String) (v : α) :
    (names (put name v es)).Nodup := by
  rw [names_put]
  split
  · exact h
  · next hn => grind [List.nodup_append]

theorem nodup_erase {es : Entries α} (h : (names es).Nodup) (name : String) :
    (names (erase name es)).Nodup := by
  exact h.sublist (List.filter_sublist.map _)

end Entries

end RecordService
