import RecordService.Proofs.Json.Reread
/-!
# Objects of texts are read

An object whose members are texts is read back from what the printer writes of it, if its names are
distinct and the first of them does not stand for an embedded value.
-/

namespace RecordService.Json

open Entries (mapValues names)
open Text.Utf8 (encode)
open Value (chars)

/-- The members of an object of texts. -/
def texts (ms : Entries String) : Entries Value := mapValues (fun _ s => .string s) ms

theorem names_texts (ms : Entries String) : names (texts ms) = names ms :=
  Entries.names_mapValues _ ms

variable (ms : Entries String)

variable {ms} in
theorem exists_text {e : String × Value} (he : e ∈ texts ms) : ∃ s, e.2 = .string s := by
  obtain ⟨m, -, rfl⟩ := List.mem_map.1 he
  exact ⟨m.2, rfl⟩

theorem whole_texts : (Value.map (texts ms)).Whole := by
  refine Value.whole_map.2 fun e he => ?_
  obtain ⟨s, hs⟩ := exists_text he
  rw [hs]
  exact Value.whole_string s

/-- There is room for the object. -/
theorem isWithin_texts : (Value.map (texts ms)).tree.isWithin depthLimit = true := by
  refine isWithin_tree_map.2 ⟨126, rfl, fun e he => ?_⟩
  obtain ⟨s, hs⟩ := exists_text he
  rw [hs]
  rfl

section
variable (hnodup : (names ms).Nodup) (hhead : (names ms).head? ≠ some embeddedName)
include hnodup hhead

/-- The reader could have made the object. -/
theorem isRead_texts : IsRead (.map (texts ms)) := by
  refine Value.eachMap_map.2 ⟨⟨?_, ?_⟩, fun e he => ?_⟩
  · rwa [names_texts]
  · rwa [names_texts]
  · obtain ⟨s, hs⟩ := exists_text he
    rw [hs]
    exact Value.eachMap_string s

/-- An object of texts is read from what is written of it. -/
theorem readFirst_texts : readFirst (encode (chars (.map (texts ms)))) = .ok (.map (texts ms)) :=
  readFirst_chars (isRead_texts ms hnodup hhead) (whole_texts ms) (isWithin_texts ms)

/-- What is written of it holds nothing else. -/
theorem readWhole_texts : readWhole (encode (chars (.map (texts ms)))) = .ok (.map (texts ms)) :=
  readWhole_chars (isRead_texts ms hnodup hhead) (whole_texts ms) (isWithin_texts ms)

end

end RecordService.Json
