import RecordService.Expression.Filter
import RecordService.Expression.Update
import RecordService.Proofs.Attributes
import RecordService.Proofs.Expression.Token
/-!
# What an expression is made of

`Update.setting` is the update that sets given attributes, written down at once. The compiler gets
to it attribute by attribute: `assignAll_ok_iff` says when the loop comes to an end and with what
draft, and `compile_ok_iff` which bodies are compiled, each into the update that sets all its
attributes but the key. `ofParameter_ok_iff` says the same of filters.
-/

namespace RecordService.Expression.Update

open Entries (names erase mapValues rename)

/-- The term that assigns an attribute. -/
def term (name : String) : String := nameAlias name ++ " = " ++ valueAlias name

/-- The placeholders of attributes with the names they stand for. -/
def nameTable (set : Attributes) : Entries String := rename nameAlias (mapValues (fun n _ => n) set)

/-- The placeholders of attributes with the values they stand for. -/
def valueTable (set : Attributes) : Entries Value := rename valueAlias set

/-- The update that sets these attributes. -/
def setting (key : Key) (set : Attributes) : Update where
  key := key
  clause := "SET " ++ String.intercalate ", " ((names set).map term)
  nameAliases := nameTable set
  valueAliases := valueTable set

theorem setting_assignments (key : Key) (set : Attributes) :
    (setting key set).assignments = set := by
  simp only [assignments, setting, nameTable, valueTable, rename, mapValues, List.map_map]
  induction set with
  | nil => rfl
  | cons e set ih => simpa using ih

/-! ## The loop -/

/-- The draft after the attributes of `set`. The token of the key was taken before them. -/
def Draft.ofSet (keyName : String) (set : Attributes) : Draft where
  owners := rename token ((keyName, keyName) :: mapValues (fun n _ => n) set)
  terms := ((names set).map term).reverse
  nameAliases := nameTable set
  valueAliases := valueTable set

theorem token?_ok {name t : String} (h : token? name = .ok t) : name ≠ "" ∧ t = token name := by
  unfold token? at h
  split at h
  · cases h
  · next hn => cases h; exact ⟨hn, rfl⟩

theorem token?_of_ne {name : String} (h : name ≠ "") : token? name = .ok (token name) :=
  if_neg h

variable {keyName name : String} {set : Attributes}

/-- A token has an owner when its name is the key's or has been assigned. -/
theorem find?_owners : Entries.find? (token name) (Draft.ofSet keyName set).owners = none ↔
    name ≠ keyName ∧ name ∉ names set := by
  rw [Draft.ofSet, Entries.find?_rename token_injective, Entries.find?_eq_none_iff]
  change name ∉ keyName :: names (mapValues _ set) ↔ _
  rw [Entries.names_mapValues, List.mem_cons, not_or]

/-- A new name is assigned at the end. -/
theorem assign_new (hn : name ≠ "") (hk : name ≠ keyName) (hs : name ∉ names set) (v : Value) :
    (Draft.ofSet keyName set).assign name v = .ok (Draft.ofSet keyName (set ++ [(name, v)])) := by
  have hfree := find?_owners.2 ⟨hk, hs⟩
  have howners : name ∉ names ((keyName, keyName) :: mapValues (fun n _ => n) set) := by
    rw [← Entries.find?_eq_none_iff]
    rwa [Draft.ofSet, Entries.find?_rename token_injective] at hfree
  have hnames : name ∉ names (mapValues (fun n _ => n) set) := by rwa [Entries.names_mapValues]
  simp only [Draft.assign, token?_of_ne hn, bind, Except.bind, hfree, pure, Except.pure]
  congr 1
  -- No table has the new placeholder, so each write goes to its end.
  simp only [Draft.ofSet, nameTable, valueTable, Draft.mk.injEq]
  refine ⟨?_, ?_, ?_, ?_⟩
  · rw [Entries.put_rename token_injective, Entries.put_of_not_mem howners]
    simp [mapValues]
  · simp [names, term, nameAlias, valueAlias]
  · change Entries.put (nameAlias name) _ _ = _
    rw [Entries.put_rename nameAlias_injective, Entries.put_of_not_mem hnames]
    simp [mapValues]
  · change Entries.put (valueAlias name) _ _ = _
    rw [Entries.put_rename valueAlias_injective, Entries.put_of_not_mem hs]

theorem assign_ok {v : Value} {draft : Draft}
    (h : (Draft.ofSet keyName set).assign name v = .ok draft) :
    name ≠ "" ∧ name ≠ keyName ∧ name ∉ names set := by
  rw [Draft.assign, bind_eq_ok] at h
  obtain ⟨t, ht, h⟩ := h
  obtain ⟨hn, rfl⟩ := token?_ok ht
  split at h
  · cases h
  · next hfree => exact ⟨hn, find?_owners.1 hfree⟩

/-- The loop comes to an end exactly with good names, and has then assigned all attributes. -/
theorem assignAll_ok_iff {rest : Attributes} {draft : Draft} (hset : set.WellNamed keyName) :
    Draft.assignAll (Draft.ofSet keyName set) rest = .ok draft ↔
      Attributes.WellNamed keyName (set ++ rest) ∧ draft = Draft.ofSet keyName (set ++ rest) := by
  -- What was assigned grows as what is left gets shorter; together they stay the same.
  induction rest generalizing set with
  | nil => simp [Draft.assignAll, hset, eq_comm]
  | cons e rest ih =>
    obtain ⟨name, v⟩ := e
    rw [List.append_cons]
    constructor
    · intro h
      rw [Draft.assignAll, bind_eq_ok] at h
      obtain ⟨next, ha, h⟩ := h
      obtain ⟨hn, hk, hs⟩ := assign_ok ha
      have hput := hset.put hn hk v
      rw [Entries.put_of_not_mem hs] at hput
      rw [assign_new hn hk hs] at ha
      cases ha
      exact (ih hput).1 h
    · rintro ⟨hw, rfl⟩
      have hput := hw.sublist (List.sublist_append_left _ rest)
      have hnames : names (set ++ [(name, v)]) = names set ++ [name] := Entries.names_append _ _
      have hmem : name ∈ names (set ++ [(name, v)]) := by simp [hnames]
      have hn : name ≠ "" := fun h => hput.nameless (h ▸ hmem)
      have hk : name ≠ keyName := fun h => hput.keyless (h ▸ hmem)
      have hs : name ∉ names set := by
        have := hput.nodup
        rw [hnames, List.nodup_append] at this
        exact fun h => this.2.2 name h name (by simp) rfl
      simp only [Draft.assignAll, bind, Except.bind, assign_new hn hk hs]
      exact (ih hput).2 ⟨hw, rfl⟩

/-! ## The whole body -/

/-- The key is dropped from a body that repeats it or leaves it out. -/
theorem withoutKey_ok_iff {key : Key} {body set : Attributes} : withoutKey key body = .ok set ↔
    (∀ v, Entries.find? key.name body = some v → v = .string key.value) ∧
      set = erase key.name body := by
  unfold withoutKey
  split
  · next hnone =>
    rw [Entries.erase_of_not_mem (Entries.find?_eq_none_iff.1 hnone)]
    simp [hnone, eq_comm]
  · next value hvalue =>
    by_cases h : value = key.value <;> simp [hvalue, h, eq_comm]
  · next v hother hvalue =>
    have hv : v ≠ .string key.value := fun h => hother _ h
    simp [hvalue, hv]

/-- A body is compiled if it does not change the key, and if its other attributes have good names,
none of them read-only, and there is at least one; these are set. -/
theorem compile_ok_iff {key : Key} {readOnly : List String} {body : Attributes} {u : Update} :
    compile key readOnly body = .ok u ↔
      (∀ v, Entries.find? key.name body = some v → v = .string key.value) ∧
      u = setting key (erase key.name body) ∧
      Attributes.WellNamed key.name (erase key.name body) ∧ erase key.name body ≠ [] ∧
      (∀ n ∈ names (erase key.name body), n ∉ readOnly) ∧ key.name ≠ "" := by
  have hnil : Attributes.WellNamed key.name [] := .nil
  constructor
  · intro h
    rw [compile, bind_eq_ok] at h
    obtain ⟨set, hw, h⟩ := h
    obtain ⟨hsame, rfl⟩ := withoutKey_ok_iff.1 hw
    refine ⟨hsame, ?_⟩
    generalize erase key.name body = set at h ⊢
    split at h
    · cases h
    · next hro =>
      split at h
      · cases h
      · next hne =>
        simp only [bind_eq_ok] at h
        obtain ⟨reserved, ht, draft, hd, h⟩ := h
        obtain ⟨hk, rfl⟩ := token?_ok ht
        obtain ⟨hgood, rfl⟩ := (assignAll_ok_iff hnil).1 hd
        cases h
        refine ⟨?_, hgood, by simpa using hne, fun n hn => ?_, hk⟩
        · simp [setting, Draft.ofSet]
        · simpa using List.find?_eq_none.1 hro n hn
  · rintro ⟨hsame, rfl, hgood, hne, hro, hk⟩
    rw [compile, bind_eq_ok]
    refine ⟨_, withoutKey_ok_iff.2 ⟨hsame, rfl⟩, ?_⟩
    generalize erase key.name body = set at hgood hne hro ⊢
    have hfree : (names set).find? readOnly.contains = none := by
      simpa [List.find?_eq_none] using hro
    have hassign := (assignAll_ok_iff hnil).2 ⟨hgood, rfl⟩
    rw [hfree]
    simp only [List.isEmpty_iff, if_neg hne, bind_eq_ok]
    refine ⟨_, token?_of_ne hk, _, hassign, ?_⟩
    simp [setting, Draft.ofSet, pure, Except.pure]

/-- A compiled body sets its attributes but the key: their names are good, none of them is
read-only, and there is at least one. -/
theorem compile_ok {key : Key} {readOnly : List String} {body : Attributes} {u : Update}
    (h : compile key readOnly body = .ok u) :
    u = setting key (erase key.name body) ∧
      Attributes.WellNamed key.name (erase key.name body) ∧ erase key.name body ≠ [] ∧
      (∀ n ∈ names (erase key.name body), n ∉ readOnly) ∧ key.name ≠ "" :=
  (compile_ok_iff.1 h).2

/-- The update came out of the compiler. -/
def IsCompiled (u : Update) : Prop :=
  ∃ readOnly body, compile u.key readOnly body = .ok u

theorem IsCompiled.wellNamed {u : Update} (h : u.IsCompiled) :
    Attributes.WellNamed u.key.name u.assignments := by
  obtain ⟨readOnly, body, h⟩ := h
  obtain ⟨hu, hgood, -⟩ := compile_ok h
  rw [hu, setting_assignments]
  exact hgood

/-- Some of the assignments of a compiled update, if any, make a compiled update too. -/
theorem IsCompiled.part {u : Update} (h : u.IsCompiled) {set : Attributes}
    (hset : set.Sublist u.assignments) (hne : set ≠ []) : (setting u.key set).IsCompiled := by
  have hgood : Attributes.WellNamed u.key.name set := h.wellNamed.sublist hset
  obtain ⟨readOnly, body, h⟩ := h
  obtain ⟨-, -, -, -, hk⟩ := compile_ok h
  have hfree : Entries.find? u.key.name set = none := Entries.find?_eq_none_iff.2 hgood.keyless
  refine ⟨[], set, compile_ok_iff.2 ?_⟩
  change (∀ v, Entries.find? u.key.name set = some v → v = .string u.key.value) ∧ _
  rw [setting, Entries.erase_of_not_mem hgood.keyless]
  exact ⟨by simp [hfree], rfl, hgood, hne, by simp, hk⟩

end RecordService.Expression.Update

/-! ## Filters -/

namespace RecordService.Expression.Filter

/-- A filter can be made of any name that is not empty. -/
theorem ofParameter_ok_iff {name : String} {value : Option String} {f : Filter} :
    Filter.ofParameter name value = .ok f ↔
      name ≠ "" ∧ f = ⟨name, .string (value.getD ""), Expression.token name⟩ := by
  rw [Filter.ofParameter, bind_eq_ok]
  constructor
  · rintro ⟨t, ht, hf⟩
    obtain ⟨hname, rfl⟩ := Update.token?_ok ht
    cases hf
    exact ⟨hname, rfl⟩
  · rintro ⟨hname, rfl⟩
    exact ⟨_, Update.token?_of_ne hname, rfl⟩

end RecordService.Expression.Filter
