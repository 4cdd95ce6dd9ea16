import RecordService.Table.Item
/-!
# Shapes of answers

What the members of an answer must look like, also those that are not used: an answer in which one
of them has another shape is no answer. A member that is null is absent, and unknown members are
passed over; items of lists and values of tables are never null. Items, and what is in them, stand
within a room of levels inside each other.
-/

namespace RecordService.Table

open Decimal Notation

inductive Shape where
  | text
  /-- A number, or the text of one that is not finite. -/
  | number
  /-- A whole number of 32 bits. -/
  | count
  | item
  | list (of_ : Shape)
  /-- An object of values of one shape under any names. -/
  | table (of_ : Shape)
  | object (members : List (String × Shape))

/-- The double is a whole number of 32 bits. -/
def isCount (x : Binary64) : Bool :=
  let whole := x.units / one
  x.units % one == 0 && decide (whole < 0x80000000 ∨ (x.negative ∧ whole = 0x80000000))

namespace Shape

/-- A text fits. -/
def fitsText (shape : Shape) (s : String) : Bool :=
  match shape with
  | .text => true
  | .number => Numeral.read? s == some .notFinite
  | _ => false

/-- A number fits. -/
def fitsNumber (shape : Shape) (reading : Numeral.Reading) : Bool :=
  match shape, reading with
  | .number, _ => true
  | .count, .number (.integer i) => decide (-0x80000000 ≤ i.toInt ∧ i.toInt < 0x80000000)
  | .count, .number (.real x) => isCount x
  | _, _ => false

mutual

/-- The tree has the shape; there is so much room for items. -/
def fits (room : Nat) (shape : Shape) : Tree → Bool
  | .text written => (text? written).any (fitsText shape)
  | .scalar (.number reading) => fitsNumber shape reading
  | .scalar _ => false
  | .list items =>
    match shape with
    | .list of_ => fitsItems (room - 1) of_ items
    | _ => false
  | .map ms =>
    match shape with
    | .item => (Item.ofTree? room (.map ms)).isSome
    | .table of_ => fitsValues (room - 1) of_ ms
    | .object shapes => fitsMembers (room - 1) shapes ms
    | _ => false

def fitsItems (room : Nat) (shape : Shape) : List Tree → Bool
  | [] => true
  | t :: ts => fits room shape t && fitsItems room shape ts

/-- Every member has a name, and a value of the shape. -/
def fitsValues (room : Nat) (shape : Shape) : List (String × Tree) → Bool
  | [] => true
  | (name, t) :: ms => (text? name).isSome && fits room shape t && fitsValues room shape ms

/-- Every member that has a shape, and is not null, fits it; the others can be passed over. -/
def fitsMembers (room : Nat) (shapes : List (String × Shape)) : List (String × Tree) → Bool
  | [] => true
  | (name, t) :: ms =>
    (match text? name with
      | none => false
      | some name =>
        isNull t || match shapes.lookup name with
          | some shape => fits room shape t
          | none => isPassed t) && fitsMembers room shapes ms

end

/-- What a request used up of the table and its indexes. -/
def capacity : Shape :=
  let units := [("ReadCapacityUnits", .number), ("WriteCapacityUnits", .number),
    ("CapacityUnits", .number)]
  .object (units ++ [("TableName", .text), ("Table", .object units),
    ("LocalSecondaryIndexes", .table (.object units)),
    ("GlobalSecondaryIndexes", .table (.object units)),
    ("VectorIndexes", .table (.object
      [("VectorSearchRequestBytes", .number), ("VectorWriteRequestBytes", .number)]))])

/-- The size of an item's collection. -/
def collection : Shape :=
  .object [("ItemCollectionKey", .item), ("SizeEstimateRangeGB", .list .number)]

end Shape

end RecordService.Table
