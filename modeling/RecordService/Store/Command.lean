import RecordService.Expression.Filter
import RecordService.Expression.Update
/-!
# Store commands

What can be asked of a record store, and what it answers. Each command is one independent request:
nothing spans two of them.
-/

namespace RecordService.Store

open Expression

inductive Command where
  | get (key : Key)
  /-- Writes a whole record in place of any record under the same key. -/
  | create (record : Record)
  /-- Sets the attributes of an update; the record must exist. -/
  | update (update : Update)
  /-- Removes a record; an absent one is no error. -/
  | delete (key : Key)
  /-- Every record, or those that pass the filter. -/
  | scan (filter : Option Filter)

inductive Answer where
  | record (record : Record)
  | done
  | records (records : List Record)

/-- What a command comes to. -/
abbrev Outcome := Except StoreError Answer

end RecordService.Store
