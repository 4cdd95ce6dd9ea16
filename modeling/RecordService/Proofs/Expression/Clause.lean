import Mathlib.Data.List.Forall2
import RecordService.Proofs.Expression.Compile
import RecordService.Proofs.Table.Cell
import RecordService.Proofs.Text.Cut
import RecordService.Table.Request
/-!
# Clauses read back

What a reader of the text of a clause makes of it, who knows the two tables but not the body that
was compiled: `SET `, then terms between commas, each of them two placeholders around ` = `. The
reader gets back every attribute with its own value, in order, whatever the names look like.
-/

namespace RecordService.Expression

open Entries (names erase mapValues)
open Table (Item)
open Update (term setting nameTable valueTable)

variable {α : Type}

/-! ## The reader -/

/-- What follows a word that a text begins with. -/
def after? (word text : String) : Option String :=
  if word.toList.isPrefixOf text.toList then
    some (String.ofList (text.toList.drop word.toList.length))
  else none

/-- The two placeholders of a term. -/
def sides? (term : String) : Option (String × String) :=
  match Text.cut " = " term with
  | [forName, forValue] => some (forName, forValue)
  | _ => none

/-- What a term says under the two tables. -/
def resolve? (nameOf : Entries String) (valueOf : Entries α) (term : String) :
    Option (String × α) := do
  let (forName, forValue) ← sides? term
  pure (← Entries.find? forName nameOf, ← Entries.find? forValue valueOf)

/-- What the terms of a clause say, in their order. -/
def assignments? (clause : String) (nameOf : Entries String) (valueOf : Entries α) :
    Option (Entries α) := do
  let terms ← after? "SET " clause
  (Text.cut ", " terms).mapM (resolve? nameOf valueOf)

theorem after?_append (word text : String) : after? word (word ++ text) = some text := by
  simp [after?]

/-! ## Terms -/

theorem blank_not_mem_nameAlias (name : String) : ' ' ∉ (nameAlias name).toList := by
  simp [toList_nameAlias, not_mem_token (d := ' ') (by decide) (by decide)]

theorem blank_not_mem_valueAlias (name : String) : ' ' ∉ (valueAlias name).toList := by
  simp [toList_valueAlias, not_mem_token (d := ' ') (by decide) (by decide)]

theorem comma_not_mem_term (name : String) : ',' ∉ (term name).toList := by
  simp [term, toList_nameAlias, toList_valueAlias,
    not_mem_token (d := ',') (by decide) (by decide)]

/-- A term has the two placeholders of its attribute for sides. -/
theorem cut_term (name : String) :
    Text.cut " = " (term name) = [nameAlias name, valueAlias name] := by
  have h : ∀ p ∈ [nameAlias name, valueAlias name], ' ' ∉ p.toList := by
    simp [blank_not_mem_nameAlias, blank_not_mem_valueAlias]
  have hsep : " = ".toList = ' ' :: ['=', ' '] := by decide
  have := Text.cut_intercalate hsep (List.cons_ne_nil _ _) h
  simpa [String.intercalate_cons_cons, term] using this

theorem sides?_term (name : String) :
    sides? (term name) = some (nameAlias name, valueAlias name) := by
  simp only [sides?, cut_term]

theorem resolve?_term {nameOf : Entries String} {valueOf : Entries α} {e : String × α}
    (hn : Entries.find? (nameAlias e.1) nameOf = some e.1)
    (hv : Entries.find? (valueAlias e.1) valueOf = some e.2) :
    resolve? nameOf valueOf (term e.1) = some e := by
  simp [resolve?, sides?_term, hn, hv]

theorem cut_terms {ns : List String} (h : ns ≠ []) :
    Text.cut ", " (String.intercalate ", " (ns.map term)) = ns.map term := by
  have hsep : ", ".toList = ',' :: [' '] := by decide
  refine Text.cut_intercalate hsep (by simpa using h) fun p hp => ?_
  obtain ⟨n, -, rfl⟩ := List.mem_map.1 hp
  exact comma_not_mem_term n

/-- A clause says what it sets, under all tables in which its placeholders stand for that. -/
theorem assignments?_terms {set : Entries α} (hne : set ≠ []) {nameOf : Entries String}
    {valueOf : Entries α}
    (hn : ∀ e ∈ set, Entries.find? (nameAlias e.1) nameOf = some e.1)
    (hv : ∀ e ∈ set, Entries.find? (valueAlias e.1) valueOf = some e.2) :
    assignments? ("SET " ++ String.intercalate ", " ((names set).map term)) nameOf valueOf
      = some set := by
  have hterms : ∀ es : Entries α, (∀ e ∈ es, e ∈ set) →
      ((names es).map term).mapM (resolve? nameOf valueOf) = some es := by
    intro es hes
    induction es with
    | nil => rfl
    | cons e es ih =>
      have he := hes e List.mem_cons_self
      have hes := ih fun d hd => hes d (List.mem_cons_of_mem _ hd)
      change (term e.1 :: (names es).map term).mapM _ = _
      rw [List.mapM_cons, resolve?_term (hn e he) (hv e he), hes]
      rfl
  have hns : names set ≠ [] := by simpa [names] using hne
  simp only [assignments?, after?_append, Option.bind_eq_bind, Option.bind_some, cut_terms hns]
  exact hterms set fun _ he => he

/-- Cut at ` = `, the term is a name placeholder and a value placeholder, which stand for the name
and the value of `e` in the two tables. -/
def Says (nameOf : Entries String) (valueOf : Entries α) (term : String) (e : String × α) : Prop :=
  ∃ n v, Text.cut " = " term = ["#" ++ n, ":" ++ v] ∧
    Entries.find? ("#" ++ n) nameOf = some e.1 ∧ Entries.find? (":" ++ v) valueOf = some e.2

theorem says_terms {set : Entries α} {nameOf : Entries String} {valueOf : Entries α}
    (hn : ∀ e ∈ set, Entries.find? (nameAlias e.1) nameOf = some e.1)
    (hv : ∀ e ∈ set, Entries.find? (valueAlias e.1) valueOf = some e.2) :
    List.Forall₂ (Says nameOf valueOf) ((names set).map term) set := by
  induction set with
  | nil => exact .nil
  | cons e set ih =>
    refine .cons ⟨token e.1, token e.1, cut_term e.1, hn e (by simp), hv e (by simp)⟩ (ih ?_ ?_)
    · exact fun d hd => hn d (List.mem_cons_of_mem _ hd)
    · exact fun d hd => hv d (List.mem_cons_of_mem _ hd)

/-! ## The tables of an update -/

theorem find?_nameTable {name : String} {set : Attributes} (h : name ∈ names set) :
    Entries.find? (nameAlias name) (nameTable set) = some name := by
  rw [nameTable, Entries.find?_rename nameAlias_injective, Entries.find?_mapValues]
  obtain ⟨v, hv⟩ := Option.isSome_iff_exists.1 ((Entries.find?_isSome name set).2 h)
  rw [hv]
  rfl

theorem find?_valueTable {set : Attributes} (h : (names set).Nodup) {e : String × Value}
    (he : e ∈ set) : Entries.find? (valueAlias e.1) (valueTable set) = some e.2 := by
  rw [valueTable, Entries.find?_rename valueAlias_injective, Entries.find?_of_mem h he]

/-- On the wire the values are cells, under the same placeholders. -/
theorem ofUpdate_values (u : Update) :
    (Table.Input.ofUpdate u).values = Item.ofAttributes u.valueAliases := by
  simp [Table.Input.ofUpdate, Table.Cell.ofMembers_nil]

theorem find?_cellTable {set : Attributes} (h : (names set).Nodup) {e : String × Table.Cell}
    (he : e ∈ Item.ofAttributes set) :
    Entries.find? (valueAlias e.1) (Item.ofAttributes (valueTable set)) = some e.2 := by
  obtain ⟨d, hd, rfl⟩ := List.mem_map.1 he
  rw [Item.find?_ofAttributes, find?_valueTable h hd]
  rfl

section Setting
variable (key : Key) {set : Attributes} (hnd : (names set).Nodup)
include hnd

theorem setting_reads (hne : set ≠ []) :
    assignments? (setting key set).clause (setting key set).nameAliases
      (setting key set).valueAliases = some set :=
  assignments?_terms hne (fun _ he => find?_nameTable (Entries.mem_names he))
    fun _ he => find?_valueTable hnd he

theorem setting_says :
    List.Forall₂ (Says (setting key set).nameAliases (setting key set).valueAliases)
      ((names set).map term) set :=
  says_terms (fun _ he => find?_nameTable (Entries.mem_names he))
    fun _ he => find?_valueTable hnd he

theorem sent_says :
    List.Forall₂
      (Says (setting key set).nameAliases (Item.ofAttributes (setting key set).valueAliases))
      ((names set).map term) (Item.ofAttributes set) := by
  rw [← Item.names_ofAttributes set]
  refine says_terms (fun e he => find?_nameTable ?_) fun _ he => find?_cellTable hnd he
  exact Item.names_ofAttributes set ▸ Entries.mem_names he

/-- What is sent says the cells of the attributes, also when more names are told beside it. -/
theorem sent_reads (hne : set ≠ []) {nameOf : Entries String}
    (hn : ∀ n ∈ names set, Entries.find? (nameAlias n) nameOf = some n) :
    assignments? (setting key set).clause nameOf (Item.ofAttributes (setting key set).valueAliases)
      = some (Item.ofAttributes set) := by
  have hcells : Item.ofAttributes set ≠ [] := by simpa [Item.ofAttributes, mapValues] using hne
  have hnames : ∀ e ∈ Item.ofAttributes set, Entries.find? (nameAlias e.1) nameOf = some e.1 :=
    fun e he => hn e.1 (Item.names_ofAttributes set ▸ Entries.mem_names he)
  have := assignments?_terms hcells hnames fun _ he => find?_cellTable hnd he
  rwa [Item.names_ofAttributes] at this

end Setting

/-! ## Main statement -/

/-- The text of a compiled clause gives back the attributes of the body but the key: one term for
each, in order, through tables that hold nothing else. The same is true of what is sent, with the
cells of the values. -/
theorem clause_reads_back {key : Key} {readOnly : List String} {body : Attributes} {u : Update}
    (h : Update.compile key readOnly body = .ok u) :
    let set := erase key.name body
    let input := Table.Input.ofUpdate u
    assignments? u.clause u.nameAliases u.valueAliases = some set ∧
    assignments? input.expression input.names input.values = some (Item.ofAttributes set) ∧
    (∃ text, u.clause = "SET " ++ text ∧ input.expression = "SET " ++ text ∧
      "" ∉ Text.cut ", " text ∧
      List.Forall₂ (Says u.nameAliases u.valueAliases) (Text.cut ", " text) set ∧
      List.Forall₂ (Says input.names input.values) (Text.cut ", " text) (Item.ofAttributes set) ∧
      u.nameAliases.length = (Text.cut ", " text).length ∧
      u.valueAliases.length = (Text.cut ", " text).length) ∧
    (names u.nameAliases).Nodup ∧ (names u.valueAliases).Nodup ∧
    u.assignments = set ∧ (names set).Nodup ∧ key.name ∉ names set ∧
    ∀ e ∈ u.nameAliases, e.2 ≠ key.name := by
  obtain ⟨rfl, hgood, hne, -, -⟩ := Update.compile_ok h
  generalize erase key.name body = set at hgood hne ⊢
  have hns : names set ≠ [] := by simpa [names] using hne
  have hcut := cut_terms hns
  have hempty : "" ∉ (names set).map term := fun hm => by
    obtain ⟨n, -, hn⟩ := List.mem_map.1 hm
    simpa [term, toList_nameAlias] using congrArg String.toList hn
  dsimp only
  rw [ofUpdate_values]
  refine ⟨setting_reads key hgood.nodup hne,
    sent_reads key hgood.nodup hne fun _ hn => find?_nameTable hn,
    ⟨String.intercalate ", " ((names set).map term), rfl, rfl, ?_⟩, ?_, ?_,
    Update.setting_assignments key set, hgood.nodup, hgood.keyless, ?_⟩
  · rw [hcut]
    refine ⟨hempty, setting_says key hgood.nodup, sent_says key hgood.nodup, ?_, ?_⟩
    · simp [setting, nameTable, Entries.rename, mapValues, names]
    · simp [setting, valueTable, Entries.rename, names]
  · simpa [setting, nameTable, Entries.names_rename] using hgood.nodup.map nameAlias_injective
  · simpa [setting, valueTable, Entries.names_rename] using hgood.nodup.map valueAlias_injective
  · intro e he hk
    obtain ⟨d, hd, rfl⟩ := List.mem_map.1 he
    obtain ⟨c, hc, rfl⟩ := List.mem_map.1 hd
    exact hgood.keyless (hk ▸ Entries.mem_names hc)

/-- Names that look like separators, and like each other's tokens. -/
theorem clause_reads_back_lookalikes :
    let body : Attributes := [("id", .string "k"), ("a-b", .bool true), ("a_2d_b", .null),
      (", #a = :b", .string "x")]
    ∃ u, Update.compile ⟨"id", "k"⟩ ["at"] body = .ok u ∧
      assignments? u.clause u.nameAliases u.valueAliases = some (body.drop 1) ∧
      u.assignments = body.drop 1 := by
  have hcompile : ∃ u, Update.compile ⟨"id", "k"⟩ ["at"] [("id", .string "k"), ("a-b", .bool true),
      ("a_2d_b", .null), (", #a = :b", .string "x")] = .ok u := ⟨_, rfl⟩
  obtain ⟨u, hu⟩ := hcompile
  have h := clause_reads_back hu
  exact ⟨u, hu, h.1, h.2.2.2.2.2.1⟩

end RecordService.Expression
