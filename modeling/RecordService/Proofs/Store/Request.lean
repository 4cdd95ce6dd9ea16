import RecordService.Proofs.Expression.Clause
import RecordService.Proofs.Expression.Mention
import RecordService.Store.Remote
/-!
# What the table is asked

Every request that a store sends to its table is closed: its expressions mention exactly the
placeholders that its two tables define, and no two of them stand for one name. The placeholder of
the key, on which the condition of an update stands, is added to tables that are made without it; it
takes the place of no other.
-/

namespace RecordService.Table

open Entries (names find?)
open Expression
open Update (setting nameTable valueTable)

namespace Request

/-! ## Closed requests -/

/-- The placeholders in the expressions of a request. -/
def mentioned : Request → List String
  | .updateItem _ condition update =>
    Expression.mentioned update.expression ++ Expression.mentioned condition
  | .scan (some filter) _ => Expression.mentioned filter.expression
  | _ => []

def nameAliases : Request → Entries String
  | .updateItem _ _ update => update.names
  | .scan (some filter) _ => filter.names
  | _ => []

def valueAliases : Request → Entries Cell
  | .updateItem _ _ update => update.values
  | .scan (some filter) _ => filter.values
  | _ => []

/-- Nothing is undefined, nothing is unused, and each placeholder stands for its own name. -/
structure Closed (q : Request) : Prop where
  defined : ∀ p, p ∈ q.mentioned ↔ p ∈ names q.nameAliases ∨ p ∈ names q.valueAliases
  nodup : (names q.nameAliases).Nodup ∧ (names q.valueAliases).Nodup
  faithful : ∀ d ∈ q.nameAliases, ∀ e ∈ q.nameAliases, d.1 ≠ e.1 → d.2 ≠ e.2

end Request

/-! ## Updates -/

theorem names_nameTable (set : Attributes) : names (nameTable set) = (names set).map nameAlias := by
  rw [nameTable, Entries.names_rename, Entries.names_mapValues]

theorem names_cellTable (set : Attributes) :
    names (Item.ofAttributes (valueTable set)) = (names set).map valueAlias := by
  rw [Item.names_ofAttributes, valueTable, Entries.names_rename]

theorem placeholder_of_mem_nameTable {set : Attributes} {e : String × String}
    (h : e ∈ nameTable set) : e.1 = nameAlias e.2 := by
  simp only [nameTable, Entries.rename, Entries.mapValues, List.map_map, List.mem_map] at h
  obtain ⟨d, hd, rfl⟩ := h
  rfl

namespace Request

/-- An update as it is sent: the key's placeholder comes after those of the attributes. -/
theorem ofUpdate_setting {key : Key} {set : Attributes} (hkey : key.name ∉ names set) :
    ofUpdate (setting key set) = .updateItem (Item.ofKey key)
      ("attribute_exists(" ++ nameAlias key.name ++ ")")
      ⟨(setting key set).clause, nameTable set ++ [(nameAlias key.name, key.name)],
        Item.ofAttributes (valueTable set)⟩ := by
  have hfree : nameAlias key.name ∉ names (nameTable set) := by
    rw [names_nameTable, List.mem_map_of_injective nameAlias_injective]
    exact hkey
  rw [ofUpdate, ofUpdate_values, ← Entries.put_of_not_mem hfree]
  rfl

theorem closed_setting {key : Key} {set : Attributes} (h : Attributes.WellNamed key.name set) :
    (ofUpdate (setting key set)).Closed := by
  have hnames : names (nameTable set ++ [(nameAlias key.name, key.name)])
      = (names set ++ [key.name]).map nameAlias := by
    rw [Entries.names_append, names_nameTable, List.map_append]
    rfl
  have hnodup : (names set ++ [key.name]).Nodup := by
    rw [List.nodup_append]
    refine ⟨h.nodup, List.nodup_singleton _, ?_⟩
    intro n hn k hk
    rw [List.mem_singleton] at hk
    rintro rfl
    exact h.keyless (hk ▸ hn)
  rw [ofUpdate_setting h.keyless]
  constructor
  · intro p
    simp only [mentioned, nameAliases, valueAliases, hnames, names_cellTable, List.mem_append,
      mem_mentioned_clause, mentioned_condition, List.mem_map, List.mem_singleton]
    constructor
    · rintro (⟨n, hn, rfl | rfl⟩ | rfl)
      · exact .inl ⟨n, .inl hn, rfl⟩
      · exact .inr ⟨n, hn, rfl⟩
      · exact .inl ⟨key.name, .inr rfl, rfl⟩
    · rintro (⟨n, hn | rfl, rfl⟩ | ⟨n, hn, rfl⟩)
      · exact .inl ⟨n, hn, .inl rfl⟩
      · exact .inr rfl
      · exact .inl ⟨n, hn, .inr rfl⟩
  · simp only [nameAliases, valueAliases, hnames, names_cellTable]
    exact ⟨hnodup.map nameAlias_injective, h.nodup.map valueAlias_injective⟩
  · have hplaceholder : ∀ e ∈ nameTable set ++ [(nameAlias key.name, key.name)],
        e.1 = nameAlias e.2 := by
      intro e he
      rcases List.mem_append.1 he with he | he
      · exact placeholder_of_mem_nameTable he
      · rw [List.mem_singleton.1 he]
    intro d hd e he hne heq
    exact hne (by rw [hplaceholder d hd, hplaceholder e he, heq])

/-! ## Filters -/

/-- A filter has the token of the name it was made for, whatever its name and its value are now. -/
theorem closed_scan {name : String} {value : Option String} {made f : Filter}
    (h : Filter.ofParameter name value = .ok made) (hf : f.token = made.token)
    (start : Option Item) : (Request.scan (some (Input.ofFilter f)) start).Closed := by
  obtain ⟨t, ht, h⟩ := bind_eq_ok.1 h
  cases h
  obtain ⟨-, rfl⟩ := Update.token?_ok ht
  have hname : f.forName = nameAlias name := by rw [Filter.forName, hf]; rfl
  have hvalue : f.forValue = valueAlias name := by rw [Filter.forValue, hf]; rfl
  have hexpression : f.expression = Update.term name := by
    rw [Filter.expression, hname, hvalue]
    rfl
  constructor
  · simp [mentioned, nameAliases, valueAliases, Input.ofFilter, hexpression, mentioned_term,
      aliases, hname, hvalue, names]
  · simp [nameAliases, valueAliases, Input.ofFilter, names]
  · intro d hd e he hne
    simp only [nameAliases, Input.ofFilter, List.mem_singleton] at hd he
    exact absurd (by rw [hd, he]) hne

theorem closed_plain {q : Request} (hm : q.mentioned = []) (hn : q.nameAliases = [])
    (hv : q.valueAliases = []) : q.Closed := by
  constructor
  · simp [hm, hn, hv, names]
  · simp [hn, hv, names]
  · simp [hn]

end Request

end RecordService.Table

/-! ## Stores -/

namespace RecordService.Store

open Entries (find?)
open Expression Table

/-- The command has an update that came out of the compiler, or a filter that was made of a
parameter; the name and the value of a filter may have been changed since. -/
def Command.IsBuilt : Command → Prop
  | .update u => u.IsCompiled
  | .scan filter => ∀ f, filter = some f →
      ∃ name value made, Filter.ofParameter name value = .ok made ∧ f.token = made.token
  | _ => True

namespace Remote

theorem closed_update {u : Update} (h : u.IsCompiled) : (Request.ofUpdate u).Closed := by
  obtain ⟨readOnly, body, h⟩ := h
  obtain ⟨hu, hgood, -⟩ := Update.compile_ok h
  rw [hu]
  exact Request.closed_setting hgood

/-- Every page of a scan is asked for with the same filter. -/
theorem requests_scanFrom (m : Remote) (filter : Option Input) (start : Option Item)
    (replies : List Reply) :
    ∀ q ∈ (m.scanFrom filter start replies).2, ∃ start, q = .scan filter start := by
  induction replies generalizing start with
  | nil =>
    intro q hq
    exact ⟨start, List.mem_singleton.1 hq⟩
  | cons reply replies ih =>
    intro q hq
    unfold scanFrom at hq
    split at hq
    · exact ⟨start, List.mem_singleton.1 hq⟩
    · exact ⟨start, List.mem_singleton.1 hq⟩
    · split at hq
      · rcases List.mem_cons.1 hq with rfl | hq
        · exact ⟨start, rfl⟩
        · exact ih _ q hq
      · exact ⟨start, List.mem_singleton.1 hq⟩

/-- A command sends requests of one operation. -/
theorem operation_exchange (m : Remote) {deliveries : List Delivery} {c : Command} {q : Request}
    (hq : q ∈ (m.exchange deliveries c).2) : q.operation = operation c := by
  unfold exchange at hq
  split at hq
  · cases hq
  · cases c with
    | scan filter =>
      obtain ⟨start, rfl⟩ := m.requests_scanFrom _ _ _ q hq
      rfl
    | _ => rw [List.mem_singleton.1 hq]; rfl

/-- A command that is no scan sends no more than one request. -/
theorem length_exchange (m : Remote) (deliveries : List Delivery) {c : Command}
    (hc : ∀ filter, c ≠ .scan filter) : (m.exchange deliveries c).2.length ≤ 1 := by
  unfold exchange
  split
  · exact Nat.zero_le 1
  · cases c with
    | scan filter => exact absurd rfl (hc filter)
    | _ => exact Nat.le_refl 1

theorem closed_run (m : Remote) (replies : List Reply) {c : Command} (hc : c.IsBuilt) :
    ∀ q ∈ (m.run replies c).2, q.Closed := by
  intro q hq
  cases c with
  | get key => rw [List.mem_singleton.1 hq]; exact Request.closed_plain rfl rfl rfl
  | create r => rw [List.mem_singleton.1 hq]; exact Request.closed_plain rfl rfl rfl
  | update u => rw [List.mem_singleton.1 hq]; exact closed_update hc
  | delete key => rw [List.mem_singleton.1 hq]; exact Request.closed_plain rfl rfl rfl
  | scan filter =>
    obtain ⟨start, rfl⟩ := m.requests_scanFrom _ _ _ q hq
    cases filter with
    | none => exact Request.closed_plain rfl rfl rfl
    | some f =>
      obtain ⟨name, value, made, hmade, hf⟩ := hc f rfl
      exact Request.closed_scan hmade hf start

theorem closed_exchange (m : Remote) (deliveries : List Delivery) {c : Command} (hc : c.IsBuilt) :
    ∀ q ∈ (m.exchange deliveries c).2, q.Closed := by
  unfold exchange
  split
  · simp
  · exact m.closed_run _ hc

end Remote

/-- Whatever body was compiled, the request of an update is closed. Its condition mentions the
placeholder of the key alone, its clause does not, and the names are those of the update with the
key's after them. The request for each page of a filter is closed too, even if the name and the
value of the filter were changed after it was made; and so is every request that a command sends. -/
theorem requests_closed :
    (∀ {key : Key} {readOnly body u}, Update.compile key readOnly body = .ok u →
      (Request.ofUpdate u).Closed ∧
      ∃ condition update, Request.ofUpdate u = .updateItem (Item.ofKey key) condition update ∧
        update.expression = u.clause ∧
        update.names = u.nameAliases ++ [(u.keyPlaceholder, key.name)] ∧
        find? u.keyPlaceholder update.names = some key.name ∧
        mentioned condition = [u.keyPlaceholder] ∧
        u.keyPlaceholder ∉ mentioned update.expression) ∧
    (∀ {name value f}, Filter.ofParameter name value = .ok f → ∀ newName newValue start,
      let changed := { f with name := newName, value := newValue }
      (Request.scan (some (.ofFilter changed)) start).Closed) ∧
    ∀ (m : Remote) (deliveries : List Delivery) (c : Command), c.IsBuilt →
      ∀ q ∈ (m.exchange deliveries c).2, q.Closed := by
  refine ⟨?_, ?_, fun m deliveries c hc => m.closed_exchange deliveries hc⟩
  · intro key readOnly body u h
    obtain ⟨rfl, hgood, -⟩ := Update.compile_ok h
    have hclosed := Request.closed_setting hgood
    have hrequest := Request.ofUpdate_setting hgood.keyless
    refine ⟨hclosed, _, _, hrequest, rfl, rfl, ?_, mentioned_condition key.name,
      nameAlias_not_mem_clause key hgood.keyless⟩
    rw [hrequest] at hclosed
    exact Entries.find?_of_mem hclosed.nodup.1 (List.mem_append_right _ (List.mem_singleton.2 rfl))
  · intro name value f h newName newValue start
    exact Request.closed_scan (f := ⟨newName, newValue, f.token⟩) h rfl start

/-- The key's name has the token of no other, though it is a token itself; and a filter that was
given the name of another attribute. -/
theorem requests_closed_lookalikes :
    let key : Key := ⟨"a_2d_b", "k"⟩
    let body : Attributes := [("a-b", .null), ("a__2d__b", .bool true), ("#a :b", .null)]
    (∃ u, Update.compile key [] body = .ok u ∧ (Request.ofUpdate u).Closed ∧
      u.keyPlaceholder ∉ mentioned u.clause) ∧
    ∃ f, Filter.ofParameter "a-b" none = .ok f ∧
      (Request.scan (some (.ofFilter ⟨"a_2d_b", .null, f.token⟩)) none).Closed := by
  obtain ⟨hupdate, hfilter, -⟩ := requests_closed
  constructor
  · have hcompile : ∃ u, Update.compile ⟨"a_2d_b", "k"⟩ [] [("a-b", .null),
        ("a__2d__b", .bool true), ("#a :b", .null)] = .ok u := ⟨_, rfl⟩
    obtain ⟨u, hu⟩ := hcompile
    obtain ⟨hclosed, condition, update, -, hclause, -, -, -, hkey⟩ := hupdate hu
    exact ⟨u, hu, hclosed, hclause ▸ hkey⟩
  · have hmade : ∃ f, Filter.ofParameter "a-b" none = .ok f := ⟨_, rfl⟩
    obtain ⟨f, hf⟩ := hmade
    exact ⟨f, hf, hfilter hf "a_2d_b" .null none⟩

end RecordService.Store
