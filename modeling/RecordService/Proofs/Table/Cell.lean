import RecordService.Proofs.Value.Equality
import RecordService.Table.Item
/-!
# Cells that are the same

Cells are the same if they are equal on the wire. A cell that is the same as another has its kind,
and the same in it; maps may differ in the order of their members.
-/

namespace RecordService.Table

open Entries

/-- The cells of attributes, under their names. -/
def Item.ofAttributes (a : Attributes) : Item :=
  mapValues (fun _ => Cell.ofValue) a

/-- The cells of an item as they are sent. -/
def Item.wires (item : Item) : Entries Value :=
  mapValues (fun _ => Cell.wire) item

theorem Item.names_ofAttributes (a : Attributes) : names (Item.ofAttributes a) = names a :=
  names_mapValues _ a

theorem Item.find?_ofAttributes (name : String) (a : Attributes) :
    find? name (Item.ofAttributes a) = (find? name a).map Cell.ofValue :=
  find?_mapValues _ name a

namespace Cell

/-- Equality of cells, as the table sees it. -/
def same (c d : Cell) : Bool :=
  wire c == wire d

theorem ofMembers_nil (a : Attributes) : ofMembers [] a = Item.ofAttributes a := by
  rw [ofMembers_eq]
  rfl

theorem wireMembers_nil (item : Item) : wireMembers [] item = item.wires := by
  rw [wireMembers_eq]
  rfl

theorem wireItems_nil (cs : List Cell) : wireItems [] cs = cs.map wire := by
  rw [wireItems_eq]
  rfl

theorem typed_beq {kind other : String} {v w : Value} :
    (typed kind v == typed other w) = true ↔ kind = other ∧ (v == w) = true := by
  by_cases h : other = kind
  · subst h
    simp [typed, Value.map_beq_iff, find?]
  · simp [typed, Value.map_beq_iff, find?, h, Ne.symm h]

theorem typed_beq_empty {kind : String} {v : Value} : (typed kind v == .map []) = false := by
  simp [typed, Value.map_beq_iff, Bool.eq_false_iff]

/-! ## By kinds -/

theorem same_null {isNull : Bool} {d : Cell} : same (.null isNull) d = true ↔ d = .null isNull := by
  cases d with
  | null b => simpa [same, wire, typed_beq] using eq_comm
  | _ => simp [same, wire, typed_beq, typed_beq_empty]

theorem same_bool {b : Bool} {d : Cell} : same (.bool b) d = true ↔ d = .bool b := by
  cases d with
  | bool c => simpa [same, wire, typed_beq] using eq_comm
  | _ => simp [same, wire, typed_beq, typed_beq_empty]

theorem same_number {numeral : String} {d : Cell} :
    same (.number numeral) d = true ↔ d = .number numeral := by
  cases d with
  | number other => simpa [same, wire, typed_beq] using eq_comm
  | _ => simp [same, wire, typed_beq, typed_beq_empty]

theorem same_text {s : String} {d : Cell} : same (.text s) d = true ↔ d = .text s := by
  cases d with
  | text t => simpa [same, wire, typed_beq] using eq_comm
  | _ => simp [same, wire, typed_beq, typed_beq_empty]

theorem same_list {cs : List Cell} {d : Cell} : same (.list cs) d = true ↔
    ∃ ds, d = .list ds ∧ List.Forall₂ (fun c d => same c d = true) cs ds := by
  cases d with
  | list ds =>
    simp only [same, wire, typed_beq, wireItems_nil, Value.list_beq_iff, List.forall₂_map_left_iff,
      List.forall₂_map_right_iff, true_and, list.injEq, exists_eq_left']
  | _ => simp [same, wire, typed_beq, typed_beq_empty]

theorem same_map {item : Item} {d : Cell} : same (.map item) d = true ↔
    ∃ other : Item, d = .map other ∧ Item.same item other = true := by
  cases d with
  | map other => simp [same, wire, typed_beq, Item.same, Item.wire]
  | _ => simp [same, wire, typed_beq, typed_beq_empty]

end Cell

/-- Items are the same if they have as many cells, and under each name the same cell. -/
theorem Item.same_iff {item other : Item} : Item.same item other = true ↔
    item.length = other.length ∧
      ∀ e ∈ item, ∃ d, find? e.1 other = some d ∧ Cell.same e.2 d = true := by
  simp only [Item.same, Item.wire, Cell.wireMembers_nil, Value.map_beq_iff, Item.wires, mapValues,
    List.length_map, List.forall_mem_map]
  refine and_congr_right fun _ => forall₂_congr fun e _ => ?_
  have hfound := find?_mapValues (fun _ => Cell.wire) e.1 other
  simp only [mapValues] at hfound
  rw [hfound]
  simp [Cell.same]

end RecordService.Table
