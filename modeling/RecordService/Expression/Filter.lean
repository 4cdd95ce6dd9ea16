import RecordService.Expression.Placeholder
import RecordService.Record
/-!
# Filters

A filter keeps the records in which one attribute, the key attribute included, equals a value. A
record without the attribute never passes.
-/

namespace RecordService.Expression

structure Filter where
  name : String
  value : Value
  /-- The token of the name the filter was made for. -/
  token : String

namespace Filter

/-- The filter of a query parameter; without a value it asks for the empty text. -/
def ofParameter (name : String) (value : Option String) : Except Error Filter := do
  let token ← token? name
  pure ⟨name, .string (value.getD ""), token⟩

def forName (f : Filter) : String := namePlaceholder f.token

def forValue (f : Filter) : String := valuePlaceholder f.token

/-- The expression between placeholders, such as `#a = :a`. -/
def expression (f : Filter) : String := f.forName ++ " = " ++ f.forValue

/-- A record passes. -/
def accepts (f : Filter) (r : Record) : Bool :=
  match r.get? f.name with
  | some v => v == f.value
  | none => false

end Filter

end RecordService.Expression
