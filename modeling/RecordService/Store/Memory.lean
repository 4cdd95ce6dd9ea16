import RecordService.Store.Command
/-!
# The store in memory

Records are kept by the value of their key, in the order in which their keys came in. What is shown
carries the store's own name for the key attribute.
-/

namespace RecordService.Store

open Expression

structure Memory where
  keyAttribute : String
  records : Entries Attributes

namespace Memory

def empty (keyAttribute : String) : Memory := ⟨keyAttribute, []⟩

/-- A stored record as it is shown. -/
def record (m : Memory) (entry : String × Attributes) : Record :=
  ⟨⟨m.keyAttribute, entry.1⟩, entry.2⟩

/-- Every record, oldest first. -/
def toList (m : Memory) : List Record :=
  m.records.map m.record

/-- The records that pass the filter, in their order. -/
def matching (m : Memory) : Option Filter → List Record
  | none => m.toList
  | some f => m.toList.filter f.accepts

/-- What a command comes to, and the store after it. -/
def run (m : Memory) : Command → Outcome × Memory
  | .get key =>
    match Entries.find? key.value m.records with
    | some attributes => (.ok (.record (m.record (key.value, attributes))), m)
    | none => (.error (.notFound key), m)
  | .create r => (.ok .done, { m with records := Entries.put r.key.value r.attributes m.records })
  | .update u =>
    match Entries.find? u.key.value m.records with
    | some attributes =>
      let changed := Entries.putAll u.assignments attributes
      (.ok .done, { m with records := Entries.put u.key.value changed m.records })
    | none => (.error (.notFound u.key), m)
  | .delete key => (.ok .done, { m with records := Entries.erase key.value m.records })
  | .scan filter => (.ok (.records (m.matching filter)), m)

end Memory

end RecordService.Store
