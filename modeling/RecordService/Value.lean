import RecordService.Decimal.Binary64
import RecordService.Entries
/-!
# Values

What an attribute can hold: `null`, a boolean, a number, a text, a list or a map of named members.
Lists and maps are values as a whole. Two maps are equal whatever the order of their members; an
integer never equals a double.
-/

namespace RecordService

open Decimal

/-- An integer that a signed or an unsigned word of 64 bits can hold. -/
structure WordInt where
  toInt : Int
  least : -0x8000000000000000 ≤ toInt
  most : toInt < 0x10000000000000000
deriving DecidableEq

/-- The integer as a word, if one can hold it. -/
def WordInt.ofInt? (i : Int) : Option WordInt :=
  if h : -0x8000000000000000 ≤ i ∧ i < 0x10000000000000000 then some ⟨i, h.1, h.2⟩ else none

theorem WordInt.ofInt?_eq_some {i : Int} {w : WordInt} : ofInt? i = some w ↔ w.toInt = i := by
  unfold ofInt?
  split
  · exact ⟨by rintro ⟨⟩; rfl, by rintro rfl; rfl⟩
  · next h => exact ⟨nofun, by rintro rfl; exact absurd ⟨w.least, w.most⟩ h⟩

theorem WordInt.isSome_ofInt? {i : Int} :
    (ofInt? i).isSome ↔ -0x8000000000000000 ≤ i ∧ i < 0x10000000000000000 := by
  unfold ofInt?
  split <;> simp_all

/-- A number keeps its kind: an integer, or a finite double. -/
inductive Number where
  | integer (value : WordInt)
  | real (value : Binary64)
deriving DecidableEq

def Number.beq : Number → Number → Bool
  | .integer i, .integer j => i = j
  | .real x, .real y => x.beq y
  | _, _ => false

instance : BEq Number := ⟨Number.beq⟩

inductive Value where
  | null
  | bool (b : Bool)
  | number (n : Number)
  | string (s : String)
  | list (items : List Value)
  | map (members : List (String × Value))

namespace Value

mutual

/-- Equality of values: lists item by item, maps member by member in any order. -/
def beq : Value → Value → Bool
  | .null, .null => true
  | .bool a, .bool b => a == b
  | .number m, .number n => m == n
  | .string s, .string t => s == t
  | .list xs, .list ys => beqItems xs ys
  | .map xs, .map ys => xs.length == ys.length && beqMembers xs ys
  | _, _ => false

def beqItems : List Value → List Value → Bool
  | [], [] => true
  | x :: xs, y :: ys => beq x y && beqItems xs ys
  | _, _ => false

/-- Every member on the left has an equal one on the right. -/
def beqMembers : List (String × Value) → Entries Value → Bool
  | [], _ => true
  | (n, x) :: xs, ys =>
    (match Entries.find? n ys with
      | some y => beq x y
      | none => false) && beqMembers xs ys

end

instance : BEq Value := ⟨beq⟩

mutual

/-- The value with the members of all its maps in the order of their names. -/
def sorted : Value → Value
  | .list xs => .list (sortedItems xs)
  | .map xs => .map (Entries.sorted (sortedMembers xs))
  | v => v

def sortedItems : List Value → List Value
  | [] => []
  | x :: xs => sorted x :: sortedItems xs

def sortedMembers : List (String × Value) → List (String × Value)
  | [] => []
  | (n, x) :: xs => (n, sorted x) :: sortedMembers xs

end

theorem sortedItems_eq (xs : List Value) : sortedItems xs = xs.map sorted := by
  induction xs with
  | nil => rfl
  | cons x xs ih => simp [sortedItems, ih]

theorem sortedMembers_eq (ms : List (String × Value)) :
    sortedMembers ms = ms.map fun (n, x) => (n, sorted x) := by
  induction ms with
  | nil => rfl
  | cons m ms ih => simp [sortedMembers, ih]

/-- The text of a string value. -/
def string? : Value → Option String
  | .string s => some s
  | _ => none

end Value

end RecordService
