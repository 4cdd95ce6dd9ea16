import RecordService.Proofs.Attributes
import RecordService.Proofs.Json.Reread
/-!
# Records as they are shown

A record holds all members of the object that it was made of, at the same values. It is shown as
this object with the key before the other members, and what is shown, as a value or as its text,
makes the same record again.
-/

namespace RecordService.Record

open Entries
open Json (IsRead depthLimit embeddedName readFirst)
open Text.Utf8 (encode)

variable {keyName : String} {members : Entries Value} {r : Record}

/-- The key is taken out of its place among the members. -/
theorem exists_ofBody_eq (hn : (names members).Nodup)
    (h : Record.ofBody keyName (.map members) = .ok r) :
    ∃ before later, members = before ++ (keyName, .string r.key.value) :: later ∧
      r = ⟨⟨keyName, r.key.value⟩, before ++ later⟩ := by
  obtain ⟨_, k, hbody, -, hk, -, rfl⟩ := ofBody_ok h
  cases hbody
  obtain ⟨before, later, hsplit, herase⟩ := exists_erase_eq hn hk
  exact ⟨before, later, hsplit, by rw [herase]⟩

/-- A record has the members of the object that it was made of. -/
theorem members_perm (hn : (names members).Nodup)
    (h : Record.ofBody keyName (.map members) = .ok r) : members.Perm r.members := by
  obtain ⟨before, later, rfl, hr⟩ := exists_ofBody_eq hn h
  rw [hr]
  exact List.perm_middle

/-- What is shown makes the record again. -/
theorem ofBody_toValue (hn : (names members).Nodup)
    (h : Record.ofBody keyName (.map members) = .ok r) :
    Record.ofBody keyName r.toValue = .ok r := by
  have hperm := members_perm hn h
  obtain ⟨_, k, hbody, hnameless, -, hk, rfl⟩ := ofBody_ok h
  cases hbody
  have hothers : erase keyName ((keyName, .string k) :: erase keyName members)
      = erase keyName members := by
    simp [erase]
  refine ofBody_ok_iff.2 ⟨_, k, rfl, ?_, if_pos rfl, hk, congrArg (mk _) hothers.symm⟩
  exact fun hm => hnameless ((hperm.map _).mem_iff.2 hm)

/-- What is shown of an object that the reader could have made is such an object, unless the key
would stand for an embedded value. -/
theorem isRead_toValue (hread : IsRead (.map members)) (hkey : keyName ≠ embeddedName)
    (h : Record.ofBody keyName (.map members) = .ok r) : IsRead r.toValue := by
  obtain ⟨⟨hn, -⟩, hvalues⟩ := Value.eachMap_map.1 hread
  have hperm := members_perm hn h
  have hname : r.key.name = keyName := (ofBody_sound (p := fun _ => True) hn (by simp) h).1
  refine Value.eachMap_map.2 ⟨⟨(hperm.map _).nodup_iff.1 hn, ?_⟩, fun e he => ?_⟩
  · simpa [names, hname] using hkey
  · exact hvalues e (hperm.mem_iff.2 he)

/-- Nor is there a double that was not there before. -/
theorem whole_toValue (hn : (names members).Nodup)
    (h : Record.ofBody keyName (.map members) = .ok r) (hwhole : (Value.map members).Whole) :
    r.toValue.Whole :=
  Value.whole_map.2 fun e he => Value.whole_map.1 hwhole e ((members_perm hn h).mem_iff.2 he)

/-- It is no deeper. -/
theorem isWithin_toValue (hn : (names members).Nodup)
    (h : Record.ofBody keyName (.map members) = .ok r) {room : Nat}
    (hdepth : (Value.map members).tree.isWithin room = true) :
    r.toValue.tree.isWithin room = true := by
  obtain ⟨inside, hroom, hvalues⟩ := Json.isWithin_tree_map.1 hdepth
  exact Json.isWithin_tree_map.2
    ⟨inside, hroom, fun e he => hvalues e ((members_perm hn h).mem_iff.2 he)⟩

/-! ## Main statement -/

/-- A record of an object, in which no name is repeated, is shown with the key before the other
members, which keep their order and their values; by name, a member is found in the record as in the
object, and nothing else is. What is shown makes the record again, and so does its text, if the
object is one without doubles that the reader could have made and no deeper than it reads, and the
key does not stand for an embedded value. -/
theorem shown_as_made {v : Value} (hv : v.Distinct) (h : Record.ofBody keyName v = .ok r) :
    ∃ members before later, v = .map members ∧
      members = before ++ (keyName, .string r.key.value) :: later ∧
      r.toValue = .map ((keyName, .string r.key.value) :: (before ++ later)) ∧
      (∀ e ∈ members, r.get? e.1 = some e.2) ∧
      (∀ name, name ∉ names members → r.get? name = none) ∧
      Record.ofBody keyName r.toValue = .ok r ∧
      (IsRead v → v.Whole → v.tree.isWithin depthLimit = true → keyName ≠ embeddedName →
        readFirst (encode r.toValue.chars) = .ok r.toValue) := by
  obtain ⟨members, k, rfl, -⟩ := ofBody_ok h
  have hn : (names members).Nodup := (Value.eachMap_map.1 hv).1
  have hget : ∀ name, r.get? name = find? name members := fun name =>
    (get?_eq r name).trans (find?_of_perm hn (members_perm hn h) name).symm
  obtain ⟨before, later, hsplit, hr⟩ := exists_ofBody_eq hn h
  refine ⟨members, before, later, rfl, hsplit, ?_, fun e he => ?_, fun name hname => ?_,
    ofBody_toValue hn h, fun hread hwhole hdepth hkey => ?_⟩
  · rw [hr]
    rfl
  · rw [hget]
    exact find?_of_mem hn he
  · rw [hget]
    exact find?_eq_none_iff.2 hname
  · exact Json.readFirst_chars (isRead_toValue hread hkey h) (whole_toValue hn h hwhole)
      (isWithin_toValue hn h hdepth)

/-- The key stands between others, one of which holds a map in a list. -/
theorem shown_as_made_nested :
    let tags : Value := .list [.map [("b", .null), ("a", .bool true)], .string "x"]
    let v : Value := .map [("name", .string "Ann"), ("id", .string "u1"), ("tags", tags)]
    let r : Record := ⟨⟨"id", "u1"⟩, [("name", .string "Ann"), ("tags", tags)]⟩
    v.Distinct ∧ Record.ofBody "id" v = .ok r ∧ r.get? "tags" = some tags ∧
      r.get? "id" = some (.string "u1") ∧ Record.ofBody "id" r.toValue = .ok r ∧
      readFirst (encode r.toValue.chars) = .ok r.toValue := by
  intro tags v r
  have hread : IsRead v := by
    have hinner : Json.IsReadMap [("b", Value.null), ("a", .bool true)] := ⟨by decide, by decide⟩
    exact Value.eachMap_map.2 ⟨⟨by decide, by decide⟩, by simp [tags, hinner]⟩
  have h : Record.ofBody "id" v = .ok r := rfl
  obtain ⟨members, _, _, hmembers, -, -, hget, -, hagain, htext⟩ := shown_as_made hread.distinct h
  obtain rfl := Value.map.inj hmembers
  exact ⟨hread.distinct, h, hget _ (.tail _ (.tail _ (.head _))), hget _ (.tail _ (.head _)),
    hagain, htext hread (by simp [v, tags]) rfl (by decide)⟩

end RecordService.Record
