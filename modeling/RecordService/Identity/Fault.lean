import RecordService.Json.Fault
/-!
# Faults of an identity request

What a reader of a fixed form finds wrong with a body: it is no JSON as far as it was read, or it is
JSON of another shape.
-/

namespace RecordService.Identity

open Json (Found Place)

inductive Fault where
  /-- The body is no JSON. -/
  | malformed
  /-- Neither a map nor a list stands for the form `title`. -/
  | notForm (title : String) (found : Found)
  | notText (place : Place) (found : Found)
  | missing (field : String)
  | repeated (field : String)
  /-- A list of `length` items for a form of `size` fields. -/
  | tooShort (title : String) (size length : Nat)
deriving DecidableEq, Repr

def Fault.message : Fault → String
  | .malformed => Json.bodyMalformed
  | .notForm title found =>
    Json.bodyMisfit ("invalid type: " ++ found.message ++ ", expected struct " ++ title)
  | .notText place found =>
    Json.bodyMisfit
      (Place.path [place] ++ "invalid type: " ++ found.message ++ ", expected a string")
  | .missing field => Json.bodyMisfit ("missing field `" ++ field ++ "`")
  | .repeated field => Json.bodyMisfit ("duplicate field `" ++ field ++ "`")
  | .tooShort title size length =>
    Json.bodyMisfit ("invalid length " ++ toString length ++ ", expected struct " ++ title
      ++ " with " ++ toString size ++ (if size = 1 then " element" else " elements"))

end RecordService.Identity
