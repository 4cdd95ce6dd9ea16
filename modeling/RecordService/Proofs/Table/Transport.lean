import RecordService.Proofs.Attributes
import RecordService.Proofs.Table.Cell
import RecordService.Proofs.Table.Returned
/-!
# Values through the table

What comes back from the table for a value is what is given back for it, if no map inside has a
member of the name that stands for an embedded value: each cell that is the same as the value's own
holds an equal of that. So each item that is the same as that of a record is a record with the same
key and the attributes that are given back; unless a double among them is taken for an integer,
these are equal to what they were.
-/

namespace RecordService

open Entries

namespace Value

/-- A map that comes back from the table: no name is repeated, and none is the one that stands for
an embedded value, which may come first there. -/
structure IsPortableMap (ms : Entries Value) : Prop where
  nodup : (names ms).Nodup
  unmarked : Json.embeddedName ∉ names ms

/-- A value that comes back from the table. -/
structure Portable (v : Value) : Prop where
  maps : v.EachMap IsPortableMap
  reals : v.EachReal fun x => ¬x.IsWord

@[simp] theorem portable_null : Portable .null := ⟨eachMap_null, eachReal_null⟩

@[simp] theorem portable_bool (b : Bool) : Portable (.bool b) := ⟨eachMap_bool b, eachReal_bool b⟩

@[simp] theorem portable_string (s : String) : Portable (.string s) :=
  ⟨eachMap_string s, eachReal_string s⟩

@[simp] theorem portable_number {n : Number} :
    Portable (.number n) ↔ ∀ x, n = .real x → ¬x.IsWord :=
  ⟨fun h => eachReal_number.1 h.reals, fun h => ⟨eachMap_number n, eachReal_number.2 h⟩⟩

@[simp] theorem portable_list {xs : List Value} : Portable (.list xs) ↔ ∀ x ∈ xs, Portable x := by
  constructor
  · exact fun h x hx => ⟨eachMap_list.1 h.maps x hx, eachReal_list.1 h.reals x hx⟩
  · exact fun h =>
      ⟨eachMap_list.2 fun x hx => (h x hx).maps, eachReal_list.2 fun x hx => (h x hx).reals⟩

@[simp] theorem portable_map {ms : Entries Value} :
    Portable (.map ms) ↔ IsPortableMap ms ∧ ∀ e ∈ ms, Portable e.2 := by
  constructor
  · exact fun h => ⟨(eachMap_map.1 h.maps).1, fun e he =>
      ⟨(eachMap_map.1 h.maps).2 e he, eachReal_map.1 h.reals e he⟩⟩
  · exact fun ⟨hms, h⟩ => ⟨eachMap_map.2 ⟨hms, fun e he => (h e he).maps⟩,
      eachReal_map.2 fun e he => (h e he).reals⟩

end Value

/-- An item that is the same as that of some members has their names, in some order. -/
theorem Table.Item.names_perm_of_same {ms : Entries Value} (hn : (names ms).Nodup) {ds : Item}
    (h : Item.same (Item.ofAttributes ms) ds = true) : (names ms).Perm (names ds) := by
  obtain ⟨hlength, hsame⟩ := Item.same_iff.1 h
  have hlength : ms.length = ds.length := by simpa [Item.ofAttributes, mapValues] using hlength
  refine names_perm hn hlength fun e he => ?_
  obtain ⟨d, hd, -⟩ := hsame (e.1, Cell.ofValue e.2) (List.mem_map_of_mem he)
  exact ⟨d, hd⟩

/-- Each cell of such an item is the same as that of a member of its name. -/
theorem Table.Item.exists_of_same {ms : Entries Value} (hn : (names ms).Nodup) {ds : Item}
    (h : Item.same (Item.ofAttributes ms) ds = true) {d : String × Cell} (hd : d ∈ ds) :
    ∃ e ∈ ms, e.1 = d.1 ∧ Cell.same (Cell.ofValue e.2) d.2 = true := by
  have hperm := Item.names_perm_of_same hn h
  obtain ⟨e, he, hname⟩ := List.mem_map.1 (hperm.mem_iff.2 (mem_names hd))
  obtain ⟨c, hc, hsame⟩ := (Item.same_iff.1 h).2 (e.1, Cell.ofValue e.2) (List.mem_map_of_mem he)
  rw [hname, find?_of_mem (hperm.nodup_iff.1 hn) hd] at hc
  cases hc
  exact ⟨e, he, hname, hsame⟩

namespace Table.Cell

/-- The cell holds a value that equals `v`. -/
def Holds (v : Value) (d : Cell) : Prop :=
  ∃ w, value d = .ok w ∧ (v == w) = true

/-! ## Lists and members -/

theorem values_of_holds {xs : List Value} {ds : List Cell} (h : List.Forall₂ Holds xs ds) :
    ∃ ws, values [] ds = .ok ws ∧ (Value.list xs == .list ws) = true := by
  have hws : ∃ ws, List.Forall₂ (fun d w => value d = .ok w) ds ws ∧
      List.Forall₂ (fun x w => (x == w) = true) xs ws := by
    induction h with
    | nil => exact ⟨[], .nil, .nil⟩
    | cons hx _ ih =>
      obtain ⟨w, hw, hbeq⟩ := hx
      obtain ⟨ws, hws, hbeqs⟩ := ih
      exact ⟨w :: ws, .cons hw hws, .cons hbeq hbeqs⟩
  obtain ⟨ws, hws, hbeqs⟩ := hws
  exact ⟨ws, by rw [values_eq, mapM_eq_ok.2 hws]; rfl, Value.list_beq_iff.2 hbeqs⟩

theorem members_cons {d : String × Cell} {ds : Item} {w : Value} (hw : value d.2 = .ok w)
    (seen : Entries Value) : members seen (d :: ds) = members ((d.1, w) :: seen) ds := by
  rw [members, hw]

/-- The values of members that all hold one, under their names. -/
theorem members_ok {ds : Item} (h : ∀ d ∈ ds, ∃ w, value d.2 = .ok w) (seen : Entries Value) :
    ∃ ws, members seen ds = .ok (seen.reverse ++ ws) ∧ ws.length = ds.length ∧
      ∀ name c, find? name ds = some c → ∃ w, find? name ws = some w ∧ value c = .ok w := by
  induction ds generalizing seen with
  | nil => exact ⟨[], by simp [members], rfl, fun name c hc => by cases hc⟩
  | cons d ds ih =>
    obtain ⟨⟨w, hw⟩, h⟩ := List.forall_mem_cons.1 h
    obtain ⟨ws, hws, hlength, hfound⟩ := ih h ((d.1, w) :: seen)
    refine ⟨(d.1, w) :: ws, ?_, by simp [hlength], fun name c hc => ?_⟩
    · rw [members_cons hw, hws]
      simp
    · by_cases hname : d.1 = name
      · simp only [find?, hname, if_true, Option.some.injEq] at hc ⊢
        exact ⟨w, rfl, hc ▸ hw⟩
      · simp only [find?, hname, if_false] at hc ⊢
        exact hfound name c hc

/-- An item that is the same as that of some members holds the members that are given back. -/
theorem members_of_same {ms : Entries Value} (hn : (names ms).Nodup)
    (hms : ∀ e ∈ ms, ∀ d, same (ofValue e.2) d = true → Holds e.2.returned d) {ds : Item}
    (h : Item.same (Item.ofAttributes ms) ds = true) :
    ∃ ws, members [] ds = .ok ws ∧
      (Value.map (mapValues (fun _ => Value.returned) ms) == .map ws) = true := by
  obtain ⟨hlength, hsame⟩ := Item.same_iff.1 h
  have hlength : ms.length = ds.length := by simpa [Item.ofAttributes, mapValues] using hlength
  have hfound : ∀ e ∈ ms, ∃ d, find? e.1 ds = some d ∧ Holds e.2.returned d := fun e he => by
    obtain ⟨d, hd, hsame⟩ := hsame (e.1, ofValue e.2) (List.mem_map_of_mem he)
    exact ⟨d, hd, hms e he d hsame⟩
  have hvalue : ∀ d ∈ ds, ∃ w, value d.2 = .ok w := fun d hd => by
    obtain ⟨e, he, -, hsame⟩ := Item.exists_of_same hn h hd
    obtain ⟨w, hw, -⟩ := hms e he d.2 hsame
    exact ⟨w, hw⟩
  obtain ⟨ws, hws, hwlength, hwfound⟩ := members_ok hvalue []
  refine ⟨ws, hws, Value.map_beq_iff.2 ⟨by simp [mapValues, hlength, hwlength], fun e' he' => ?_⟩⟩
  obtain ⟨e, he, rfl⟩ := List.mem_map.1 he'
  obtain ⟨d, hd, w, hw, hbeq⟩ := hfound e he
  obtain ⟨w', hw', hvw⟩ := hwfound e.1 d hd
  cases hw.symm.trans hvw
  exact ⟨w, hw', hbeq⟩

/-! ## Values -/

/-- Nothing that is the same as a portable map begins with an embedded value. -/
theorem embedded?_of_same {ms : Entries Value} (hms : Value.IsPortableMap ms) {ds : Item}
    (h : Item.same (Item.ofAttributes ms) ds = true) : embedded? ds = none := by
  have hnames := (Item.names_perm_of_same hms.nodup h).mem_iff (a := Json.embeddedName)
  cases ds with
  | nil => rfl
  | cons d ds =>
    refine if_neg fun hmark => hms.unmarked (hnames.2 ?_)
    exact hmark ▸ List.mem_cons_self

/-- Each cell that is the same as that of a value holds what is given back for it. -/
theorem holds_of_same {v : Value} (hv : v.EachMap Value.IsPortableMap) {d : Cell}
    (h : same (ofValue v) d = true) : Holds v.returned d := by
  -- The kind of its cell decides the kind of `d`; only maps may differ, in the order of members.
  induction v using Value.nested_induction generalizing d with
  | null =>
    rw [ofValue, same_null] at h
    subst h
    exact ⟨.null, rfl, rfl⟩
  | bool b =>
    rw [ofValue, same_bool] at h
    subst h
    exact ⟨.bool b, rfl, Value.bool_beq.2 rfl⟩
  | number n =>
    rw [ofValue, same_number] at h
    subst h
    refine ⟨.number n.returned, ?_, Value.number_beq_refl n.returned⟩
    simp [value, numberValue, Numeral.read?_returned]
  | string s =>
    rw [ofValue, same_text] at h
    subst h
    exact ⟨.string s, rfl, Value.string_beq.2 rfl⟩
  | list xs ih =>
    rw [ofValue, ofValues_eq, same_list] at h
    obtain ⟨ds, rfl, hds⟩ := h
    have hholds : List.Forall₂ Holds (xs.map Value.returned) ds := by
      simp only [List.reverse_nil, List.nil_append, List.forall₂_map_left_iff] at hds ⊢
      have hxs : ∀ x ∈ xs, ∀ d, same (ofValue x) d = true → Holds x.returned d :=
        fun x hx d => ih x hx (Value.eachMap_list.1 hv x hx)
      exact ((List.forall₂_and_left _ _).2 ⟨hxs, hds⟩).imp fun x d h => h.1 d h.2
    obtain ⟨ws, hws, hbeq⟩ := values_of_holds hholds
    exact ⟨.list ws, by rw [value, hws]; rfl, by rwa [Value.returned_list]⟩
  | map ms ih =>
    rw [ofValue, ofMembers_nil, same_map] at h
    obtain ⟨ds, rfl, hds⟩ := h
    obtain ⟨hportable, hvalues⟩ := Value.eachMap_map.1 hv
    obtain ⟨ws, hws, hbeq⟩ :=
      members_of_same hportable.nodup (fun e he d hd => ih e he (hvalues e he) hd) hds
    exact ⟨.map ws, by rw [value, embedded?_of_same hportable hds, hws]; rfl,
      by rwa [Value.returned_map]⟩

/-! ## The cell of a value is the same as itself -/

theorem same_refl {v : Value} (hv : v.Distinct) : same (ofValue v) (ofValue v) = true := by
  induction v using Value.nested_induction with
  | null => exact same_null.2 rfl
  | bool b => exact same_bool.2 rfl
  | number n => exact same_number.2 rfl
  | string s => exact same_text.2 rfl
  | list xs ih =>
    rw [ofValue, ofValues_eq, same_list]
    refine ⟨_, rfl, List.forall₂_same.2 fun c hc => ?_⟩
    obtain ⟨x, hx, rfl⟩ : ∃ x ∈ xs, ofValue x = c := by simpa using hc
    exact ih x hx (Value.eachMap_list.1 hv x hx)
  | map ms ih =>
    obtain ⟨hn, hvalues⟩ := Value.eachMap_map.1 hv
    rw [ofValue, ofMembers_nil, same_map]
    refine ⟨_, rfl, Item.same_iff.2 ⟨rfl, fun e he => ?_⟩⟩
    obtain ⟨d, hd, rfl⟩ := List.mem_map.1 he
    refine ⟨ofValue d.2, ?_, ih d hd (hvalues d hd)⟩
    rw [Item.find?_ofAttributes, find?_of_mem hn hd]
    rfl

end Table.Cell

/-! ## Records -/

/-- Records with the same key and equal attributes, in any order. -/
def Record.Same (r other : Record) : Prop :=
  r.key = other.key ∧ (Value.map r.attributes == .map other.attributes) = true

/-- A record that is the same as the one that is given back is the same as the record itself exactly
if no double inside is taken for an integer. -/
theorem Record.same_iff_of_returned {r other : Record} (h : r.returned.Same other) :
    r.Same other ↔ ∀ e ∈ r.attributes, e.2.EachReal fun x => ¬x.IsWord := by
  have hback : ((Value.map r.attributes).returned == .map other.attributes) = true := by
    rw [Value.returned_map]
    exact h.2
  have hkey : r.key = other.key := h.1
  rw [Record.Same, and_iff_right hkey, Value.beq_iff_of_returned hback, Value.eachReal_map]

theorem Record.erase_members {r : Record} (h : r.key.name ∉ names r.attributes) :
    erase r.key.name r.members = r.attributes := by
  have hfirst : erase r.key.name r.members = erase r.key.name r.attributes := by
    simp [Record.members, erase]
  rw [hfirst, erase_of_not_mem h]

/-- What a record must be for the table to give back each of its values. -/
structure Record.Returns (r : Record) : Prop where
  keyless : r.key.name ∉ names r.attributes
  nodup : (names r.attributes).Nodup
  maps : ∀ e ∈ r.attributes, e.2.EachMap Value.IsPortableMap

/-- What a record must be to come back from the table. -/
structure Record.Portable (r : Record) : Prop where
  keyless : r.key.name ∉ names r.attributes
  nodup : (names r.attributes).Nodup
  values : ∀ e ∈ r.attributes, e.2.Portable

theorem Record.Portable.returns {r : Record} (h : r.Portable) : r.Returns :=
  ⟨h.keyless, h.nodup, fun e he => (h.values e he).maps⟩

theorem Record.Portable.returned_eq_self {r : Record} (h : r.Portable) : r.returned = r :=
  Record.returned_eq_self fun e he => (h.values e he).reals

namespace Table.Item

/-- The item of a record has a cell for each member of the record. -/
theorem ofRecord_eq {r : Record} (hkeyless : r.key.name ∉ names r.attributes)
    (hnodup : (names r.attributes).Nodup) : Item.ofRecord r = Item.ofAttributes r.members := by
  rw [Item.ofRecord, Cell.ofMembers_nil, putAll_of_disjoint]
  · rfl
  · rw [Item.names_ofAttributes]
    exact hnodup
  · rw [Item.names_ofAttributes]
    intro n hn hkey
    obtain rfl : n = r.key.name := by simpa [Item.ofKey, names] using hkey
    exact hkeyless hn

theorem same_ofAttributes_refl {ms : Entries Value} (h : (Value.map ms).Distinct) :
    Item.same (Item.ofAttributes ms) (Item.ofAttributes ms) = true := by
  have hcell := Cell.same_refl h
  rw [Cell.ofValue, Cell.ofMembers_nil, Cell.same_map] at hcell
  obtain ⟨_, ⟨rfl⟩, hsame⟩ := hcell
  exact hsame

theorem same_ofRecord_refl {r : Record} (hr : r.Returns) :
    Item.same (Item.ofRecord r) (Item.ofRecord r) = true := by
  rw [ofRecord_eq hr.keyless hr.nodup]
  refine same_ofAttributes_refl (Value.eachMap_map.2 ⟨List.nodup_cons.2 ⟨hr.keyless, hr.nodup⟩, ?_⟩)
  exact List.forall_mem_cons.2 ⟨Value.eachMap_string _,
    fun e he => (hr.maps e he).imp fun _ => Value.IsPortableMap.nodup⟩

/-- An item that is the same as that of a record is a record that is the same as the one that is
given back. -/
theorem returned_of_same {r : Record} (hr : r.Returns) {shown : Item}
    (h : Item.same (Item.ofAttributes r.members) shown = true) :
    ∃ other, shown.record r.key.name = .ok other ∧ r.returned.Same other := by
  have hn : (names r.members).Nodup := List.nodup_cons.2 ⟨hr.keyless, hr.nodup⟩
  have hmaps : ∀ e ∈ r.members, e.2.EachMap Value.IsPortableMap :=
    List.forall_mem_cons.2 ⟨Value.eachMap_string _, hr.maps⟩
  obtain ⟨ws, hws, hbeq⟩ :=
    Cell.members_of_same hn (fun e he d hd => Cell.holds_of_same (hmaps e he) hd) h
  -- The key is a text among the members of the item, and the others equal the attributes.
  have hkey : find? r.key.name ws = some (.string r.key.value) := by
    obtain ⟨w, hw, hbeq⟩ := (Value.map_beq_iff.1 hbeq).2 _ List.mem_cons_self
    cases w with
    | string s => rw [hw, Value.string_beq.1 hbeq]
    | _ => cases hbeq
  have hothers := Value.beq_erase (by rwa [names_mapValues]) hbeq r.key.name
  rw [erase_mapValues, Record.erase_members hr.keyless] at hothers
  refine ⟨⟨r.key, erase r.key.name ws⟩, ?_, rfl, hothers⟩
  simp [Item.record, hws, Key.takeFrom, hkey, Value.string?]

/-- An item that is the same as that of a portable record is a record that is the same. -/
theorem record_of_same {r : Record} (hr : r.Portable) {shown : Item}
    (h : Item.same (Item.ofAttributes r.members) shown = true) :
    ∃ other, shown.record r.key.name = .ok other ∧ r.Same other := by
  have hreturned := returned_of_same hr.returns h
  rwa [hr.returned_eq_self] at hreturned

end Table.Item

end RecordService
