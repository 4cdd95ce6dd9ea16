import RecordService.Proofs.Table.RoundTrip
import RecordService.Store.Remote
/-!
# Numbers through the remote store

A record that was created is fetched with the numbers that the table gives back. Integers are given
back as they are, and so are doubles with a fraction and doubles that no word can hold. The other
doubles have the numerals of integers, and are given back as integers: as these are never equal to
doubles, the record is not the same then.
-/

namespace RecordService.Store.Remote

open Decimal Table

/-- What is fetched is the record in the item that the table shows. -/
theorem run_get_shown (m : Remote) (key : Key) {item : Item} {r : Record}
    (h : item.record m.keyAttribute = .ok r) (replies : List Reply) :
    (m.run (.item (some item) :: replies) (.get key)).1 = .ok (.record r) := by
  simp [run, first, found, h, Except.map]

/-- The numeral of a number is read as the number itself, unless it is that of a whole double
between -2^63 and 2^64: this is read as an integer, to which the double is the nearest one. A record
that was created is sent as an item; whichever way the table shows the item, the record that is
fetched has the numbers that are read so, and it is the same as the one that was created exactly if
none of these doubles is in it. -/
theorem numbers_fetched (m : Remote) :
    (∀ n : Number, Numeral.read? (Numeral.text n) = some (.number n.returned) ∧
      ((n == n.returned) = true ↔ ∀ x, n = .real x → ¬x.IsWord) ∧
      ∀ x i, n = .real x → n.returned = .integer i →
        Binary64.ofRatio? x.negative i.toInt.natAbs 1 = some x) ∧
    ∀ r : Record, r.Returns → r.key.name = m.keyAttribute →
      ∃ item : Item, (∀ replies, (m.run replies (.create r)).2 = [.putItem item]) ∧
        item.same item = true ∧
        ∀ shown replies, item.same shown = true →
          ∃ other, (m.run (.item (some shown) :: replies) (.get r.key)).1 = .ok (.record other) ∧
            r.returned.Same other ∧
            (r.Same other ↔ ∀ e ∈ r.attributes, e.2.EachReal fun x => ¬x.IsWord) := by
  refine ⟨fun n => ⟨Numeral.read?_returned n, ?_, ?_⟩, fun r hr hname => ?_⟩
  · exact Number.beq_iff_of_returned (Value.number_beq_refl n.returned)
  · rintro x i rfl hi
    refine Binary64.ofRatio?_word ?_
    rw [Number.returned] at hi
    cases hword : x.word? <;> simp_all
  · refine ⟨Item.ofRecord r, fun _ => rfl, Item.same_ofRecord_refl hr,
      fun shown replies hshown => ?_⟩
    rw [Item.ofRecord_eq hr.keyless hr.nodup] at hshown
    obtain ⟨other, hother, hsame⟩ := Item.returned_of_same hr hshown
    exact ⟨other, m.run_get_shown r.key (hname ▸ hother) replies, hsame,
      Record.same_iff_of_returned hsame⟩

/-- The least integer, a fraction and a double that no word can hold come back, in another order. -/
theorem numbers_fetched_reordered :
    let tenth : Binary64 :=
      ⟨false, Binary64.nearestUnits 1 10, by decide +kernel, by decide +kernel⟩
    let large : Binary64 := ⟨true, 2 ^ 63 * one, by decide +kernel, by decide +kernel⟩
    let m : Remote := ⟨"records", "id"⟩
    let r : Record := ⟨⟨"id", "k"⟩, [
      ("a", .map [("x", .number (.real tenth)), ("y", .list [.number (.real large)])]),
      ("b", .number (.integer ⟨-0x8000000000000000, by decide, by decide⟩))]⟩
    let shown : Item := [("b", .number "-9223372036854775808"), ("id", .text "k"),
      ("a", .map [("y", .list [.number "-9223372036854776000"]), ("x", .number "0.1")])]
    ∃ other, (m.run [.item (some shown)] (.get r.key)).1 = .ok (.record other) ∧ r.Same other := by
  intro tenth large m r shown
  have hmap : Value.IsPortableMap [("x", .number (.real tenth)),
      ("y", .list [.number (.real large)])] := ⟨by decide, by decide⟩
  have hr : r.Returns := by
    refine ⟨by decide, by decide, List.forall_mem_cons.2 ⟨?_, List.forall_mem_singleton.2 ?_⟩⟩
    · exact Value.eachMap_map.2 ⟨hmap, by simp⟩
    · exact Value.eachMap_number _
  have hsame : (Item.ofRecord r).same shown = true := by decide +kernel
  have hkept : ∀ e ∈ r.attributes, e.2.EachReal fun x => ¬x.IsWord := by
    have htenth : ¬tenth.IsWord := by decide +kernel
    have hlarge : ¬large.IsWord := by decide +kernel
    simp [r, htenth, hlarge]
  obtain ⟨item, hitem, -, hshown⟩ := (numbers_fetched m).2 r hr rfl
  have hcreated : [Request.putItem item] = [.putItem (Item.ofRecord r)] := (hitem []).symm
  cases hcreated
  obtain ⟨other, hother, -, hiff⟩ := hshown shown [] hsame
  exact ⟨other, hother, hiff.2 hkept⟩

/-- A double without a fraction does not come back. -/
theorem whole_double_lost :
    let m : Remote := ⟨"records", "k"⟩
    let r : Record := ⟨⟨"k", "v"⟩, [("n", .number (.real ⟨false, one, by decide +kernel,
      by decide +kernel⟩))]⟩
    ∃ item, (m.run [] (.create r)).2 = [.putItem item] ∧
      ∀ other, (m.run [.item (some item)] (.get r.key)).1 = .ok (.record other) →
        ¬r.Same other := by
  intro m r
  have hr : r.Returns := ⟨by decide, by decide, by simp [r]⟩
  have hdiffers : (Value.map r.attributes == .map r.returned.attributes) = false := by
    decide +kernel
  refine ⟨Item.ofRecord r, rfl, fun other hother hsame => ?_⟩
  rw [m.run_get_shown r.key (Item.returned_ofRecord hr)] at hother
  cases hother
  exact Bool.false_ne_true (hdiffers.symm.trans hsame.2)

end RecordService.Store.Remote
