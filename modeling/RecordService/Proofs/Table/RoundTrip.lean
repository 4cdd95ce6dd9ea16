import RecordService.Proofs.Table.Transport
/-!
# Records come back from the table

A record is written as one flat item, and read from it again: the item as it was written holds the
very record, and the table may give its cells back in any order. A map with a member of the name
that stands for an embedded value is the exception: if this comes first, the map is read as the
value in its text.
-/

namespace RecordService.Table

open Entries

namespace Cell

theorem members_ofAttributes {ms : Entries Value}
    (h : ∀ e ∈ ms, value (ofValue e.2) = .ok e.2.returned) (seen : Entries Value) :
    members seen (Item.ofAttributes ms) =
      .ok (seen.reverse ++ mapValues (fun _ => Value.returned) ms) := by
  induction ms generalizing seen with
  | nil => simp [Item.ofAttributes, mapValues, members]
  | cons e ms ih =>
    obtain ⟨he, h⟩ := List.forall_mem_cons.1 h
    have hrest := ih h ((e.1, e.2.returned) :: seen)
    rw [List.reverse_cons, List.append_assoc] at hrest
    exact (members_cons he seen).trans hrest

/-- The cell of a value holds what is given back for it. -/
theorem value_ofValue {v : Value} (hv : v.EachMap Value.IsPortableMap) :
    value (ofValue v) = .ok v.returned := by
  induction v using Value.nested_induction with
  | null => rfl
  | bool b => rfl
  | number n => simp [ofValue, value, numberValue, Numeral.read?_returned, Value.returned]
  | string s => rfl
  | list xs ih =>
    have hxs : (xs.map ofValue).mapM value = .ok (xs.map Value.returned) := by
      refine mapM_eq_ok.2 (List.forall₂_map_left_iff.2 (List.forall₂_map_right_iff.2
        (List.forall₂_same.2 fun x hx => ?_)))
      exact ih x hx (Value.eachMap_list.1 hv x hx)
    simp only [ofValue, ofValues_eq, value, values_eq, List.reverse_nil, List.nil_append, hxs,
      Value.returned_list]
    rfl
  | map ms ih =>
    obtain ⟨hportable, hvalues⟩ := Value.eachMap_map.1 hv
    have hdistinct : (Value.map ms).Distinct := hv.imp fun _ => Value.IsPortableMap.nodup
    have hmark : embedded? (Item.ofAttributes ms) = none :=
      embedded?_of_same hportable (Item.same_ofAttributes_refl hdistinct)
    have hread := members_ofAttributes (fun e he => ih e he (hvalues e he)) []
    rw [ofValue, ofMembers_nil, value, hmark, hread, Value.returned_map]
    rfl

end Cell

namespace Item

/-- The item of a record holds what is given back for the record. -/
theorem returned_ofRecord {r : Record} (hr : r.Returns) :
    (Item.ofRecord r).record r.key.name = .ok r.returned := by
  have hvalues : ∀ e ∈ r.members, Cell.value (Cell.ofValue e.2) = .ok e.2.returned :=
    List.forall_mem_cons.2 ⟨rfl, fun e he => Cell.value_ofValue (hr.maps e he)⟩
  have hread := Cell.members_ofAttributes hvalues []
  have hkey : find? r.key.name (mapValues (fun _ => Value.returned) r.members) =
      some (.string r.key.value) := by
    rw [find?_mapValues]
    simp [Record.members, find?, Value.returned]
  rw [ofRecord_eq hr.keyless hr.nodup, Item.record, hread]
  simp only [List.reverse_nil, List.nil_append, Key.takeFrom, hkey, erase_mapValues,
    Record.erase_members hr.keyless]
  rfl

/-- The item of a portable record holds the record itself. -/
theorem record_ofRecord {r : Record} (hr : r.Portable) :
    (Item.ofRecord r).record r.key.name = .ok r := by
  rw [returned_ofRecord hr.returns, hr.returned_eq_self]

/-- A record comes back from its item: from the item as it was written as itself, and from the item
in any other order of its cells, at any depth, as a record with the same key and equal
attributes. -/
theorem record_comes_back {r : Record} (hr : r.Portable) :
    (Item.ofRecord r).record r.key.name = .ok r ∧
    ∀ shown : Item, (Item.ofRecord r).same shown = true →
      ∃ other, shown.record r.key.name = .ok other ∧ r.Same other := by
  refine ⟨record_ofRecord hr, fun shown hshown => record_of_same hr ?_⟩
  rwa [ofRecord_eq hr.keyless hr.nodup] at hshown

/-- The least integer, the greatest one, and a map with an empty name and an empty list, in another
order. -/
theorem record_comes_back_reordered :
    let r : Record := ⟨⟨"id", "k"⟩, [
      ("m", .map [("", .list []), ("x", .number (.integer ⟨-0x8000000000000000, by decide,
        by decide⟩))]),
      ("", .number (.integer ⟨0xFFFFFFFFFFFFFFFF, by decide, by decide⟩))]⟩
    let shown : Item := [("", .number "18446744073709551615"), ("id", .text "k"),
      ("m", .map [("x", .number "-9223372036854775808"), ("", .list [])])]
    r.Portable ∧ (Item.ofRecord r).same shown = true ∧ (Item.ofRecord r).record "id" = .ok r ∧
      ∃ other, shown.record "id" = .ok other ∧ r.Same other := by
  intro r shown
  have hmap : Value.IsPortableMap [("", .list []), ("x", .number (.integer
      ⟨-0x8000000000000000, by decide, by decide⟩))] := ⟨by decide, by decide⟩
  have hr : r.Portable := by
    refine ⟨by decide, by decide, List.forall_mem_cons.2 ⟨?_, List.forall_mem_cons.2 ⟨?_, ?_⟩⟩⟩
    · simp [hmap]
    · simp
    · simp
  have hsame : (Item.ofRecord r).same shown = true := by decide +kernel
  obtain ⟨hback, hshown⟩ := record_comes_back hr
  exact ⟨hr, hsame, hback, hshown shown hsame⟩

/-- A map whose only member has the name that stands for an embedded value does not come back. -/
theorem embedded_map_lost :
    let r : Record := ⟨⟨"id", "k"⟩, [("x", .map [(Json.embeddedName, .string "[1, 2]")])]⟩
    r.key.name ∉ names r.attributes ∧ (Value.map r.attributes).Distinct ∧
      (Value.map r.attributes).Whole ∧
      ∀ other, (Item.ofRecord r).record "id" = .ok other → ¬ r.Same other := by
  intro r
  have hdiffers : ∀ other ∈ ((Item.ofRecord r).record "id").toOption,
      (Value.map r.attributes == .map other.attributes) = false := by decide +kernel
  refine ⟨by decide, by simp [r, Value.Distinct, names], by simp [r], fun other hother hsame => ?_⟩
  have hmem : other ∈ ((Item.ofRecord r).record "id").toOption := by rw [hother]; rfl
  exact Bool.false_ne_true ((hdiffers other hmem).symm.trans hsame.2)

end Item

end RecordService.Table
