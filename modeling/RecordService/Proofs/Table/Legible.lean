import RecordService.Proofs.Json.Reread
import RecordService.Proofs.Related
import RecordService.Proofs.Table.Transport
import RecordService.Proofs.Table.Written
/-!
# Cells that are read back

A cell takes one level of the room that an answer has, and a list, a set or a map in it one more. If
there is room, and no name is repeated in a map, what is read of the cell as it is written is the
cell. The cell of a value with `n` lists and maps inside each other takes `2 * n + 1` levels, in
whatever order the table gives its maps.
-/

namespace RecordService.Table

open Entries Notation
open Json (Forms)

namespace Cell

/-- What can be read where there are so many levels of room. -/
inductive Legible : Nat → Cell → Prop where
  | null {room : Nat} (isNull : Bool) : Legible (room + 1) (.null isNull)
  | bool {room : Nat} (b : Bool) : Legible (room + 1) (.bool b)
  | number {room : Nat} (numeral : String) : Legible (room + 1) (.number numeral)
  | text {room : Nat} (s : String) : Legible (room + 1) (.text s)
  | list {room : Nat} {cs : List Cell} (items : ∀ c ∈ cs, Legible room c) :
      Legible (room + 2) (.list cs)
  | map {room : Nat} {ms : Item} (nodup : (names ms).Nodup)
      (members : ∀ e ∈ ms, Legible room e.2) : Legible (room + 2) (.map ms)
  | numbers {room : Nat} (numerals : List String) : Legible (room + 2) (.numbers numerals)
  | texts {room : Nat} (items : List String) : Legible (room + 2) (.texts items)
  | binary {room : Nat} {octets : String}
      (canonical : Text.Base64.isCanonical octets.toList = true) :
      Legible (room + 1) (.binary octets)
  | binaries {room : Nat} {items : List String}
      (canonical : ∀ octets ∈ items, Text.Base64.isCanonical octets.toList = true) :
      Legible (room + 2) (.binaries items)

theorem Legible.mono {room : Nat} {c : Cell} (h : Legible room c) (more : Nat) :
    Legible (room + more) c := by
  induction h with
  | null isNull => exact Nat.add_right_comm .. ▸ .null isNull
  | bool b => exact Nat.add_right_comm .. ▸ .bool b
  | number numeral => exact Nat.add_right_comm .. ▸ .number numeral
  | text s => exact Nat.add_right_comm .. ▸ .text s
  | list _ ih => exact Nat.add_right_comm .. ▸ .list ih
  | map nodup _ ih => exact Nat.add_right_comm .. ▸ .map nodup ih
  | numbers numerals => exact Nat.add_right_comm .. ▸ .numbers numerals
  | texts items => exact Nat.add_right_comm .. ▸ .texts items
  | binary canonical => exact Nat.add_right_comm .. ▸ .binary canonical
  | binaries canonical => exact Nat.add_right_comm .. ▸ .binaries canonical

/-! ## Octets -/

/-- What octets are written in needs no escapes. -/
theorem escaped_digit {c : Char} (h : Text.Base64.isDigit c = true) : Value.escaped c = [c] := by
  by_cases hlow : c.toNat < 0x80
  · revert h
    exact Text.Utf8.forall_ascii hlow (by decide +kernel)
  · exact Json.Quoted.escaped_high (by omega)

theorem escaped_multiple {unit : Nat} {c : Char} (h : Text.Base64.isMultiple unit c = true) :
    Value.escaped c = [c] := by
  refine escaped_digit ?_
  unfold Text.Base64.isMultiple at h
  unfold Text.Base64.isDigit
  cases hc : Text.Base64.value? c with
  | none => rw [hc] at h; cases h
  | some n => rfl

/-- Canonical octets are written as they are. -/
theorem written_octets {octets : String} (h : Text.Base64.isCanonical octets.toList = true) :
    written octets = octets := by
  have hescaped : ∀ cs : List Char, Text.Base64.isCanonical cs = true →
      cs.flatMap Value.escaped = cs := by
    intro cs hcs
    have hend : Value.escaped '=' = ['='] := by decide
    fun_induction Text.Base64.isCanonical cs with
    | case1 => rfl
    | case2 a b =>
      simp only [Bool.and_eq_true] at hcs
      simp [escaped_digit hcs.1, escaped_multiple hcs.2, hend]
    | case3 a b c =>
      simp only [Bool.and_eq_true] at hcs
      simp [escaped_digit hcs.1.1, escaped_digit hcs.1.2, escaped_multiple hcs.2, hend]
    | case4 a b c d rest _ _ ih =>
      simp only [Bool.and_eq_true] at hcs
      obtain ⟨⟨⟨⟨ha, hb⟩, hc⟩, hd⟩, hrest⟩ := hcs
      simp [escaped_digit ha, escaped_digit hb, escaped_digit hc, escaped_digit hd, ih hrest]
    | case5 => cases hcs
  rw [written, hescaped _ h, String.ofList_toList]

/-! ## Cells are read -/

/-- The tree of a cell as it is written. -/
def tree (c : Cell) : Tree :=
  (wire c).treeIn forms

/-- The cell of an object that names a kind. -/
theorem ofTree?_typed {room : Nat} {kind : String} {v : Value} {c : Cell}
    (hkind : kind ≠ "__type") (hnull : isNull (v.treeIn forms) = false)
    (hc : ofKind? room kind (v.treeIn forms) = some c) :
    ofTree? (room + 1) ((typed kind v).treeIn forms) = some c := by
  have hname : text? (forms.text kind) = some kind := text?_written kind
  rw [typed, Value.treeIn_map, List.map_singleton, ofTree?, ofKinds?, hnull]
  simp only [hname, hkind, if_false, hc, Bool.false_eq_true]
  rfl

theorem ofTrees?_trees {room : Nat} {cs : List Cell}
    (h : ∀ c ∈ cs, ofTree? room c.tree = some c) (seen : List Cell) :
    ofTrees? room seen (cs.map tree) = some (seen.reverse ++ cs) := by
  induction cs generalizing seen with
  | nil => simp [ofTrees?]
  | cons c cs ih =>
    obtain ⟨hc, hcs⟩ := List.forall_mem_cons.1 h
    rw [List.map_cons, ofTrees?, hc]
    simp only [ih hcs]
    simp

theorem ofNamed?_trees {room : Nat} {ms : Item} (h : ∀ e ∈ ms, ofTree? room e.2.tree = some e.2)
    (entries : Entries Cell) :
    ofNamed? room entries (ms.map fun e => (written e.1, e.2.tree)) = some (putAll ms entries) := by
  induction ms generalizing entries with
  | nil => rfl
  | cons e ms ih =>
    obtain ⟨he, hms⟩ := List.forall_mem_cons.1 h
    rw [List.map_cons, ofNamed?, text?_written, he]
    exact ih hms _

theorem content?_written (s : String) : content? (.text (written s)) = some s :=
  text?_written s

theorem octets?_written {octets : String} (h : Text.Base64.isCanonical octets.toList = true) :
    octets? (.text (written octets)) = some octets := by
  rw [octets?, written_octets h, if_pos h]

theorem treeIn_textList (items : List String) :
    (textList items).treeIn forms = .list (items.map fun s => .text (written s)) := by
  rw [textList, Value.treeIn_list, List.map_map]
  rfl

/-- The items of a set. -/
theorem set?_texts {room : Nat} {item? : Tree → Option String} {items : List String}
    (h : ∀ s ∈ items, item? (.text (written s)) = some s) :
    set? (room + 1) item? (.list (items.map fun s => .text (written s))) = some items := by
  rw [set?, if_neg (Nat.succ_ne_zero room)]
  induction items with
  | nil => rfl
  | cons s items ih =>
    obtain ⟨hs, hitems⟩ := List.forall_mem_cons.1 h
    simp [hs, ih hitems]

/-- A cell is read from what is written of it. -/
theorem Legible.ofTree?_tree {room : Nat} {c : Cell} (h : c.Legible room) :
    ofTree? room c.tree = some c := by
  induction h with
  | null isNull => exact ofTree?_typed (by decide) rfl rfl
  | bool b => exact ofTree?_typed (by decide) rfl rfl
  | number numeral =>
    exact ofTree?_typed (by decide) rfl (by simp [Value.treeIn, ofKind?, plain?, content?, forms])
  | text s =>
    exact ofTree?_typed (by decide) rfl (by simp [Value.treeIn, ofKind?, plain?, content?, forms])
  | @list room cs _ ih =>
    have hitems : (Value.list (wireItems [] cs)).treeIn forms = .list (cs.map tree) := by
      rw [wireItems_nil, Value.treeIn_list, List.map_map]
      rfl
    refine ofTree?_typed (by decide) (by rw [hitems]; rfl) ?_
    rw [hitems, ofKind?, if_pos rfl]
    simp only [ofTrees?_trees ih]
    rfl
  | @map room ms nodup _ ih =>
    have hmembers : (Value.map (wireMembers [] ms)).treeIn forms
        = .map (ms.map fun e => (written e.1, e.2.tree)) := by
      rw [wireMembers_nil, Value.treeIn_map, Item.wires, mapValues, List.map_map]
      rfl
    refine ofTree?_typed (by decide) (by rw [hmembers]; rfl) ?_
    rw [hmembers, ofKind?, if_pos rfl]
    simp only [ofNamed?_trees ih, Option.map_some]
    rw [show putAll ms [] = ms from ofPairs_of_nodup nodup]
  | numbers numerals =>
    refine ofTree?_typed (by decide) (by rw [treeIn_textList]; rfl) ?_
    rw [treeIn_textList, ofKind?, if_neg (by decide)]
    simp [plain?, set?_texts fun s _ => content?_written s]
  | texts items =>
    refine ofTree?_typed (by decide) (by rw [treeIn_textList]; rfl) ?_
    rw [treeIn_textList, ofKind?, if_neg (by decide)]
    simp [plain?, set?_texts fun s _ => content?_written s]
  | @binary room octets canonical =>
    have hoctets : octets? ((Value.string octets).treeIn forms) = some octets :=
      octets?_written canonical
    exact ofTree?_typed (by decide) rfl (congrArg (Option.map Cell.binary) hoctets)
  | binaries canonical =>
    refine ofTree?_typed (by decide) (by rw [treeIn_textList]; rfl) ?_
    rw [treeIn_textList, ofKind?, if_neg (by decide)]
    simp [plain?, set?_texts fun s hs => octets?_written (canonical s hs)]

/-! ## Cells that can be read -/

theorem membersKnown_eq (ms : Item) : membersKnown ms = ms.all fun e => e.2.isKnown := by
  induction ms with
  | nil => rfl
  | cons e ms ih => rw [membersKnown, ih, List.all_cons]

theorem areKnown_eq (cs : List Cell) : areKnown cs = cs.all isKnown := by
  induction cs with
  | nil => rfl
  | cons c cs ih => rw [areKnown, ih, List.all_cons]

/-- What can be read can be sent. -/
theorem Legible.isKnown {room : Nat} {c : Cell} (h : c.Legible room) : c.isKnown = true := by
  induction h with
  | list _ ih =>
    rw [Cell.isKnown, areKnown_eq]
    exact List.all_eq_true.2 ih
  | map _ _ ih =>
    rw [Cell.isKnown, membersKnown_eq]
    exact List.all_eq_true.2 ih
  | _ => rfl

/-- The cell of a value can be read, in whatever order its maps are given. -/
theorem legible_of_same {v : Value} (hv : v.Distinct) {depth : Nat}
    (hdepth : v.tree.isWithin depth = true) {d : Cell} (h : same (ofValue v) d = true) :
    d.Legible (2 * depth + 1) := by
  induction v using Value.nested_induction generalizing depth d with
  | null =>
    rw [ofValue, same_null] at h
    exact h ▸ .null true
  | bool b =>
    rw [ofValue, same_bool] at h
    exact h ▸ .bool b
  | number n =>
    rw [ofValue, same_number] at h
    exact h ▸ .number _
  | string s =>
    rw [ofValue, same_text] at h
    exact h ▸ .text s
  | list xs ih =>
    rw [ofValue, ofValues_eq, List.reverse_nil, List.nil_append, same_list] at h
    obtain ⟨ds, rfl, hds⟩ := h
    rw [Value.tree_list] at hdepth
    obtain ⟨inside, rfl, hinside⟩ := Json.Tree.isWithin_list.1 hdepth
    refine @Legible.list (2 * inside + 1) _ fun d hd => ?_
    rw [List.forall₂_map_left_iff] at hds
    obtain ⟨x, hx, hsame⟩ := exists_of_related hds d hd
    exact ih x hx (Value.eachMap_list.1 hv x hx) (hinside _ (List.mem_map_of_mem hx)) hsame
  | map ms ih =>
    rw [ofValue, ofMembers_nil, same_map] at h
    obtain ⟨ds, rfl, hds⟩ := h
    obtain ⟨hnodup, hvalues⟩ := Value.eachMap_map.1 hv
    obtain ⟨inside, rfl, hinside⟩ := Json.isWithin_tree_map.1 hdepth
    have hperm := Item.names_perm_of_same hnodup hds
    refine @Legible.map (2 * inside + 1) _ (hperm.nodup_iff.1 hnodup) fun d hd => ?_
    obtain ⟨e, he, -, hsame⟩ := Item.exists_of_same hnodup hds hd
    exact ih e he (hvalues e he) (hinside e he) hsame

end Cell

/-! ## Items -/

namespace Item

/-- An item that can be read where its cells have so many levels of room. -/
structure Legible (room : Nat) (item : Item) : Prop where
  nodup : (names item).Nodup
  cells : ∀ e ∈ item, e.2.Legible room

theorem Legible.mono {room : Nat} {item : Item} (h : item.Legible room) (more : Nat) :
    item.Legible (room + more) :=
  ⟨h.nodup, fun e he => (h.cells e he).mono more⟩

theorem Legible.isKnown {room : Nat} {item : Item} (h : item.Legible room) :
    item.isKnown = true := by
  rw [Item.isKnown, Cell.membersKnown_eq]
  exact List.all_eq_true.2 fun e he => (h.cells e he).isKnown

theorem treeIn_wire (item : Item) : item.wire.treeIn forms
    = .map (item.map fun e => (written e.1, e.2.tree)) := by
  rw [wire, Cell.wireMembers_nil, Value.treeIn_map, wires, mapValues, List.map_map]
  rfl

/-- An item is read from what is written of it. -/
theorem Legible.ofTree?_wire {room : Nat} {item : Item} (h : item.Legible room) :
    ofTree? (room + 1) (item.wire.treeIn forms) = some item := by
  rw [treeIn_wire, ofTree?]
  simp only [Cell.ofNamed?_trees fun e he => (h.cells e he).ofTree?_tree]
  rw [show putAll item [] = item from ofPairs_of_nodup h.nodup]

/-- What is the same as the item of some members can be read. -/
theorem legible_of_same {ms : Entries Value} (hn : (names ms).Nodup) {depth : Nat}
    (hms : ∀ e ∈ ms, e.2.Distinct ∧ e.2.tree.isWithin depth = true) {item : Item}
    (h : (ofAttributes ms).same item = true) : item.Legible (2 * depth + 1) := by
  refine ⟨(names_perm_of_same hn h).nodup_iff.1 hn, fun d hd => ?_⟩
  obtain ⟨e, he, -, hsame⟩ := exists_of_same hn h hd
  exact Cell.legible_of_same (hms e he).1 (hms e he).2 hsame

end Item

end RecordService.Table

namespace RecordService

/-- A value that can be kept in a table: it comes back from its cell, and where its cell stands in
an answer there is room for so many lists and maps inside each other. -/
structure Value.Storable (v : Value) : Prop where
  portable : v.Portable
  within : v.tree.isWithin 62 = true

theorem Value.Storable.distinct {v : Value} (h : v.Storable) : v.Distinct :=
  h.portable.maps.imp fun _ => IsPortableMap.nodup

end RecordService
