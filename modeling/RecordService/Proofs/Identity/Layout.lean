import RecordService.Proofs.Identity.Decode
import RecordService.Proofs.Identity.Members
import RecordService.Proofs.Json.Lexing
/-!
# Bodies are read by name

What an identity request is depends on the members that a field goes by, and not on their order, on
other members, or on the name that is used where a field has two.
-/

namespace RecordService.Identity

open Json

/-! ## Fields and their values -/

/-- All names of a field. -/
def Field.names (field : Field) : List String :=
  field.name :: field.aliases

/-- The values of the members that go by a name of the field. -/
def Field.values (field : Field) (ms : List Member) : List Outline :=
  (ms.filter fun m => m.1.any (· ∈ field.names)).map (·.2)

/-- The values give the field this content: one text; or, unless the field is required, one null or
nothing at all. -/
inductive Field.Holds (field : Field) : List Outline → Option String → Prop where
  | text (s : String) : Holds field [.text (some s)] (some s)
  | null (h : field.required = false) : Holds field [.scalar true] none
  | missing (h : field.required = false) : Holds field [] none

/-- No name is that of two fields. -/
def Form.Distinct (form : Form) : Prop :=
  ∀ f ∈ form.fields, ∀ g ∈ form.fields, ∀ name ∈ f.names, name ∈ g.names → f = g

theorem Operation.distinct (operation : Operation) : operation.form.Distinct := by
  unfold Form.Distinct
  cases operation <;> decide

theorem Field.goes_iff {field : Field} {name : String} :
    (field.name == name || field.aliases.contains name) = true ↔ name ∈ field.names := by
  rw [Bool.or_eq_true, beq_iff_eq, List.contains_iff_mem, names, List.mem_cons, eq_comm]

theorem Form.field?_eq_some {form : Form} (h : form.Distinct) {name : String} {field : Field} :
    form.field? name = some field ↔ field ∈ form.fields ∧ name ∈ field.names := by
  unfold Form.field?
  constructor
  · intro hfound
    have hgoes := List.find?_some hfound
    exact ⟨List.mem_of_find?_eq_some hfound, Field.goes_iff.1 hgoes⟩
  · rintro ⟨hmem, hname⟩
    cases hfound : form.fields.find? fun f => f.name == name || f.aliases.contains name with
    | none => exact absurd (Field.goes_iff.2 hname) (List.find?_eq_none.1 hfound field hmem)
    | some other =>
      have hgoes := List.find?_some hfound
      have hother := Field.goes_iff.1 hgoes
      rw [h other (List.mem_of_find?_eq_some hfound) field hmem name hother hname]

namespace Field

variable {field : Field}

theorem values_append (ms ms' : List Member) :
    field.values (ms ++ ms') = field.values ms ++ field.values ms' := by
  simp [values]

theorem values_singleton (name : String) (t : Outline) :
    field.values [(some name, t)] = if name ∈ field.names then [t] else [] := by
  by_cases hname : name ∈ field.names <;> simp [values, hname]

/-! ## Slots that are filled -/

/-- What a slot holds before and after members with these values. -/
inductive Filled (field : Field) :
    Option (Option String) → List Outline → Option (Option String) → Prop where
  | kept (o : Option (Option String)) : Filled field o [] o
  | new {t : Outline} {c : Option String} (h : field.content? t = some c) :
      Filled field none [t] (some c)

variable {o o' o'' : Option (Option String)} {ts us : List Outline}

theorem Filled.append (h : field.Filled o ts o') (h' : field.Filled o' us o'') :
    field.Filled o (ts ++ us) o'' := by
  cases h with
  | kept => exact h'
  | new hc =>
    cases h' with
    | kept => exact .new hc

theorem Filled.of_append (h : field.Filled o (ts ++ us) o'') :
    ∃ o', field.Filled o ts o' ∧ field.Filled o' us o'' := by
  cases ts with
  | nil => exact ⟨o, .kept o, h⟩
  | cons t ts =>
    generalize hvalues : t :: ts ++ us = values at h
    cases h with
    | kept => cases hvalues
    | new hc =>
      obtain ⟨rfl, hrest⟩ := List.cons.inj hvalues
      obtain ⟨rfl, rfl⟩ := List.append_eq_nil_iff.1 hrest
      exact ⟨_, .new hc, .kept _⟩

theorem Filled.unique (h : field.Filled o ts o') (h' : field.Filled o ts o'') : o' = o'' := by
  cases h with
  | kept =>
    cases h'
    rfl
  | new hc =>
    cases h' with
    | new hc' => rw [← hc, ← hc']

theorem Holds.unique {c c' : Option String} (h : field.Holds ts c) (h' : field.Holds ts c') :
    c = c' := by
  cases h <;> cases h' <;> rfl

theorem Holds.of_perm {c : Option String} (h : field.Holds ts c) (hperm : us.Perm ts) :
    field.Holds us c := by
  cases h with
  | text s => exact List.perm_singleton.1 hperm ▸ .text s
  | null hrequired => exact List.perm_singleton.1 hperm ▸ .null hrequired
  | missing hrequired => exact List.perm_nil.1 hperm ▸ .missing hrequired

/-- A field holds what its slot does in the end. -/
theorem holds_iff {c : Option String} : field.Holds ts c ↔
    (∃ o, field.Filled none ts o ∧ o.join = c) ∧ (field.required = true → c.isSome = true) := by
  constructor
  · rintro (⟨s⟩ | hrequired | hrequired)
    · exact ⟨⟨_, .new rfl, rfl⟩, fun _ => rfl⟩
    · exact ⟨⟨some none, .new (by simp [content?, hrequired]), rfl⟩, by simp [hrequired]⟩
    · exact ⟨⟨none, .kept none, rfl⟩, by simp [hrequired]⟩
  · rintro ⟨⟨o, hfilled, rfl⟩, hsome⟩
    cases hfilled with
    | kept => exact .missing (by simpa using hsome)
    | @new t c hc =>
      unfold content? at hc
      split at hc
      · cases hc
        exact .text _
      · split at hc
        · cases hc
        · next hrequired =>
          cases hc
          exact .null (by simpa using hrequired)
      · cases hc

end Field

/-! ## Members one after another -/

namespace Form

variable {form : Form} {slots slots' : Slots} {m : Member} {ms : List Member}

/-- A member that is added fills the slots with its value. -/
theorem add?_sound (hdistinct : form.Distinct) (h : form.add? slots m = some slots') :
    m.1 ≠ none ∧ ∀ field ∈ form.fields,
      field.Filled (Entries.find? field.name slots) (field.values [m])
        (Entries.find? field.name slots') := by
  obtain ⟨_ | name, t⟩ := m
  · cases h
  refine ⟨nofun, fun field hfield => ?_⟩
  change form.take? slots name t = some slots' at h
  unfold take? at h
  rw [Field.values_singleton]
  split at h
  · next other hother =>
    obtain ⟨hmem, hname⟩ := (field?_eq_some hdistinct).1 hother
    split at h
    · cases h
    · next hslot =>
      obtain ⟨c, hc, rfl⟩ := Option.map_eq_some_iff.1 h
      rw [Entries.find?_put]
      by_cases hfield' : name ∈ field.names
      · -- The slot of the field was empty.
        obtain rfl := hdistinct other hmem field hfield name hname hfield'
        rw [if_pos hfield', if_pos rfl, Option.not_isSome_iff_eq_none.1 hslot]
        exact .new hc
      · have hne : other.name ≠ field.name := by
          intro heq
          refine hfield' ?_
          rw [← hdistinct other hmem field hfield other.name List.mem_cons_self
            (heq ▸ List.mem_cons_self)]
          exact hname
        rw [if_neg hfield', if_neg hne]
        exact .kept _
  · next hother =>
    have hname : name ∉ field.names := fun hname => by
      rw [(field?_eq_some hdistinct).2 ⟨hfield, hname⟩] at hother
      cases hother
    cases h
    rw [if_neg hname]
    exact .kept _

/-- A member is added, if it has a name and the slots take its value. -/
theorem add?_complete (hdistinct : form.Distinct) (hname : m.1 ≠ none)
    (h : ∀ field ∈ form.fields,
      ∃ o, field.Filled (Entries.find? field.name slots) (field.values [m]) o) :
    ∃ slots', form.add? slots m = some slots' := by
  obtain ⟨_ | name, t⟩ := m
  · exact absurd rfl hname
  change ∃ slots', form.take? slots name t = some slots'
  unfold take?
  cases hfield : form.field? name with
  | none => exact ⟨slots, rfl⟩
  | some field =>
    obtain ⟨hmem, hname⟩ := (field?_eq_some hdistinct).1 hfield
    obtain ⟨o, hfilled⟩ := h field hmem
    rw [Field.values_singleton, if_pos hname] at hfilled
    generalize hbefore : Entries.find? field.name slots = before at hfilled
    cases hfilled with
    | @new _ c hc => exact ⟨Entries.put field.name c slots, by simp [hbefore, hc]⟩

theorem foldlM_sound (hdistinct : form.Distinct) (h : ms.foldlM form.add? slots = some slots') :
    (∀ m ∈ ms, m.1 ≠ none) ∧ ∀ field ∈ form.fields,
      field.Filled (Entries.find? field.name slots) (field.values ms)
        (Entries.find? field.name slots') := by
  induction ms generalizing slots with
  | nil =>
    cases h
    exact ⟨by simp, fun field _ => .kept _⟩
  | cons m ms ih =>
    rw [List.foldlM_cons] at h
    obtain ⟨next, hadd, hrest⟩ := Option.bind_eq_some_iff.1 h
    obtain ⟨hname, hfirst⟩ := add?_sound hdistinct hadd
    obtain ⟨hnames, hothers⟩ := ih hrest
    refine ⟨List.forall_mem_cons.2 ⟨hname, hnames⟩, fun field hfield => ?_⟩
    rw [← List.singleton_append, Field.values_append]
    exact (hfirst field hfield).append (hothers field hfield)

theorem foldlM_complete (hdistinct : form.Distinct) (hnames : ∀ m ∈ ms, m.1 ≠ none)
    (h : ∀ field ∈ form.fields,
      ∃ o, field.Filled (Entries.find? field.name slots) (field.values ms) o) :
    ∃ slots', ms.foldlM form.add? slots = some slots' := by
  induction ms generalizing slots with
  | nil => exact ⟨slots, rfl⟩
  | cons m ms ih =>
    obtain ⟨hname, hnames⟩ := List.forall_mem_cons.1 hnames
    rw [← List.singleton_append] at h
    simp only [Field.values_append] at h
    obtain ⟨next, hadd⟩ := add?_complete hdistinct hname fun field hfield => by
      obtain ⟨o, hfilled⟩ := h field hfield
      obtain ⟨o', hfirst, -⟩ := hfilled.of_append
      exact ⟨o', hfirst⟩
    obtain ⟨slots', hrest⟩ := ih hnames fun field hfield => by
      -- What the first member leaves in the slot is what the others find there.
      obtain ⟨o, hfilled⟩ := h field hfield
      obtain ⟨o', hfirst, hothers⟩ := hfilled.of_append
      rw [hfirst.unique ((add?_sound hdistinct hadd).2 field hfield)] at hothers
      exact ⟨o, hothers⟩
    exact ⟨slots', by rw [List.foldlM_cons, hadd]; exact hrest⟩

end Form

theorem exists_of_forall₂ {α β : Type} {R : α → β → Prop} {as : List α} {bs : List β}
    (h : List.Forall₂ R as bs) : ∀ a ∈ as, ∃ b, R a b := by
  induction h with
  | nil => simp
  | cons hab _ ih => exact List.forall_mem_cons.2 ⟨⟨_, hab⟩, ih⟩

/-- What the fields hold is in the slots in the end. -/
theorem Form.exists_slots {form : Form} (hdistinct : form.Distinct) {ms : List Member}
    (hnames : ∀ m ∈ ms, m.1 ≠ none)
    (h : ∀ field ∈ form.fields, ∃ c, field.Holds (field.values ms) c) :
    ∃ slots, ms.foldlM form.add? [] = some slots ∧
      ∀ field ∈ form.fields, field.Holds (field.values ms) (Slots.optional slots field.name) := by
  have hfilled : ∀ field ∈ form.fields,
      ∃ o, field.Filled (Entries.find? field.name ([] : Slots)) (field.values ms) o := by
    intro field hfield
    obtain ⟨c, hc⟩ := h field hfield
    obtain ⟨⟨o, ho, -⟩, -⟩ := Field.holds_iff.1 hc
    exact ⟨o, ho⟩
  obtain ⟨slots, hslots⟩ := foldlM_complete hdistinct hnames hfilled
  refine ⟨slots, hslots, fun field hfield => ?_⟩
  obtain ⟨c, hc⟩ := h field hfield
  obtain ⟨⟨o, hfilled, rfl⟩, hsome⟩ := Field.holds_iff.1 hc
  obtain rfl := hfilled.unique ((foldlM_sound hdistinct hslots).2 field hfield)
  exact hc

namespace Operation

variable {operation : Operation} {ms : List Member} {body : List UInt8} {slots : Slots}
  {request : Request}

theorem readForm_ok_iff (hbody : IsObjectOf ms body) :
    readForm operation.form (tokens body) = .ok slots
      ↔ ms.foldlM operation.form.add? [] = some slots := by
  rw [← readForm_map operation.form (hbody.tokens (Tree.apart_spelled _)), toOption_eq_some]

/-- The requests that are read from an object. -/
theorem read_object_iff (hbody : IsObjectOf ms body) : operation.read body = .ok request ↔
    request.operation = operation ∧ (∀ m ∈ ms, m.1 ≠ none) ∧
      List.Forall₂ (fun field c => field.Holds (field.values ms) c) operation.form.fields
        request.fields := by
  rw [read_ok_iff]
  constructor
  · rintro ⟨slots, hslots, hfills⟩
    obtain ⟨hnames, hfilled⟩ :=
      Form.foldlM_sound operation.distinct ((readForm_ok_iff hbody).1 hslots)
    have hrequired := exists_fills_iff.1 ⟨request, hfills⟩
    obtain ⟨hoperation, hfields⟩ := hfills
    refine ⟨hoperation, hnames, ?_⟩
    rw [hfields, List.forall₂_map_right_iff, List.forall₂_same]
    exact fun field hfield =>
      Field.holds_iff.2 ⟨⟨_, hfilled field hfield, rfl⟩, hrequired field hfield⟩
  · rintro ⟨hoperation, hnames, hholds⟩
    obtain ⟨slots, hslots, hslot⟩ :=
      Form.exists_slots operation.distinct hnames (exists_of_forall₂ hholds)
    refine ⟨slots, (readForm_ok_iff hbody).2 hslots, hoperation, ?_⟩
    -- No other contents are held than those in the slots.
    have hsame : List.Forall₂ (fun field c => field.Holds (field.values ms) c) operation.form.fields
        (operation.form.fields.map fun field => Slots.optional slots field.name) := by
      rw [List.forall₂_map_right_iff, List.forall₂_same]
      exact hslot
    exact List.right_unique_forall₂' (fun _ _ _ h h' => h.unique h') hholds hsame

/-- Some request is read from an object exactly if each of its fields holds something. -/
theorem exists_read_object_iff (hbody : IsObjectOf ms body) :
    (∃ request, operation.read body = .ok request) ↔ (∀ m ∈ ms, m.1 ≠ none) ∧
      ∀ field ∈ operation.form.fields, ∃ c, field.Holds (field.values ms) c := by
  constructor
  · rintro ⟨request, hread⟩
    obtain ⟨-, hnames, hholds⟩ := (read_object_iff hbody).1 hread
    exact ⟨hnames, exists_of_forall₂ hholds⟩
  · rintro ⟨hnames, hheld⟩
    obtain ⟨slots, hslots, hslot⟩ := Form.exists_slots operation.distinct hnames hheld
    obtain ⟨request, hfills⟩ := exists_fills_iff.2 fun field hfield =>
      (Field.holds_iff.1 (hslot field hfield)).2
    exact ⟨request, read_ok_iff.2 ⟨slots, (readForm_ok_iff hbody).2 hslots, hfills⟩⟩

theorem nodup_names (operation : Operation) : (operation.form.fields.map Field.name).Nodup := by
  cases operation <;> decide

/-- The list of a request's fields is read as that request. -/
theorem read_list (hoperation : request.operation = operation)
    (hgiven : List.Forall₂ (fun field c => field.content? (given c) = some c) operation.form.fields
      request.fields) (hbody : IsListOf (request.fields.map given) body) :
    operation.read body = .ok request := by
  have hslots := readForm_list hgiven (hbody.tokens (Tree.apart_spelled _))
  refine read_ok_iff.2 ⟨_, hslots, hoperation, ?_⟩
  exact (optional_named operation.nodup_names hgiven.length_eq).symm

end Operation

/-- Bodies are read by name. An object is accepted exactly if all its names are texts and each field
holds something: one text or, if it is not required, one null or nothing. The request then has just
the contents of its fields. Any other object with the same values for each field, in whatever order
and among whatever other members, is read as the same request, and so is the list of the contents.
An object that lacks a required field, has something other than a text for one, or has two members
that go by one field is refused. -/
theorem read_by_name (operation : Operation) {ms : List Member} {body : List UInt8}
    (hbody : IsObjectOf ms body) :
    ((∃ request, operation.read body = .ok request) ↔ (∀ m ∈ ms, m.1 ≠ none) ∧
      ∀ field ∈ operation.form.fields, ∃ c, field.Holds (field.values ms) c) ∧
    (∀ request, operation.read body = .ok request →
      request.operation = operation ∧
      List.Forall₂ (fun field c => field.Holds (field.values ms) c) operation.form.fields
        request.fields ∧
      (∀ ms' body', IsObjectOf ms' body' → (∀ m ∈ ms', m.1 ≠ none) →
        (∀ field ∈ operation.form.fields, (field.values ms').Perm (field.values ms)) →
        operation.read body' = .ok request) ∧
      ∀ body', IsListOf (request.fields.map given) body' → operation.read body' = .ok request) ∧
    ∀ field ∈ operation.form.fields,
      (field.required = true ∧ field.values ms = []) ∨
      (field.required = true ∧ ∃ t ∈ field.values ms, ∀ s, t ≠ .text (some s)) ∨
      2 ≤ (field.values ms).length →
      ∃ fault, operation.read body = .error fault := by
  refine ⟨Operation.exists_read_object_iff hbody, fun request hread => ?_,
    fun field hfield hbad => ?_⟩
  · obtain ⟨hoperation, -, hholds⟩ := (Operation.read_object_iff hbody).1 hread
    refine ⟨hoperation, hholds, fun ms' body' hbody' hnames hsame => ?_, fun body' hbody' => ?_⟩
    · -- With one value at most for each field, the same values are the same list.
      refine (Operation.read_object_iff hbody').2 ⟨hoperation, hnames, ?_⟩
      exact (List.forall₂_and_left _ _).2 ⟨hsame, hholds⟩ |>.imp fun field c h => h.2.of_perm h.1
    · exact Operation.read_list hoperation
        (hholds.imp fun field c h => content?_given.2 (Field.holds_iff.1 h).2) hbody'
  · cases hread : operation.read body with
    | error fault => exact ⟨fault, rfl⟩
    | ok request =>
      obtain ⟨-, hheld⟩ := (Operation.exists_read_object_iff hbody).1 ⟨request, hread⟩
      obtain ⟨c, hc⟩ := hheld field hfield
      generalize field.values ms = ts at hbad hc
      cases hc <;> simp_all

/-- A registration in two layouts, and as a list. -/
theorem read_by_name_layouts :
    let request := Request.register "ana" "p\n" none (some "+1")
    let body := ("\x7b\"x\":[null,\x7b\"username\":1e3\x7d],\"password\":\"p\\n\"," ++
      "\"phone_number\":\"+1\",\"username\":\"an\\u0061\"\x7d").toUTF8.toList
    let other := ("\x7b \"username\":\"ana\", \"phoneNumber\":\"+1\"," ++
      "\"password\":\"p\\u000a\" \x7d").toUTF8.toList
    let list := "[\"ana\",\"p\\n\",null,\"+1\"]".toUTF8.toList
    Operation.register.read body = .ok request ∧ Operation.register.read other = .ok request ∧
      Operation.register.read list = .ok request := by
  intro request body other list
  have hbody : IsObjectOf
      [(some "x", .list [.scalar true, .map [(some "username", .scalar false)]]),
        (some "password", .text (some "p\n")), (some "phone_number", .text (some "+1")),
        (some "username", .text (some "ana"))] body :=
    laid_tokens (by decide +kernel) (by decide +kernel)
  have hother : IsObjectOf
      [(some "username", .text (some "ana")), (some "phoneNumber", .text (some "+1")),
        (some "password", .text (some "p\n"))] other :=
    laid_tokens (by decide +kernel) (by decide +kernel)
  have hlist : IsListOf (request.fields.map given) list :=
    laid_tokens (by decide +kernel) (by decide +kernel)
  obtain ⟨-, hsame, -⟩ := read_by_name .register hbody
  have hread : Operation.register.read body = .ok request :=
    (Operation.read_object_iff hbody).2 ⟨rfl, by decide,
      .cons (.text _) (.cons (.text _) (.cons (.missing rfl) (.cons (.text _) .nil)))⟩
  obtain ⟨-, -, hobject, hitems⟩ := hsame request hread
  refine ⟨hread, hobject _ other hother (by decide) ?_, hitems list hlist⟩
  intro field hfield
  simp only [Operation.form, List.mem_cons, List.not_mem_nil, or_false] at hfield
  rcases hfield with rfl | rfl | rfl | rfl <;> exact .refl _

/-- Half of a pair of code units, escaped in the name of a member or in the text for a field, is
refused, although both bodies are objects with one member for their only field. -/
theorem half_pair_refused :
    let operation := Operation.requestPasswordReset
    let username := Field.plain "username"
    let ms : List Member := [(some "username", .text (some "u")), (none, .scalar true)]
    let body := "\x7b\"username\":\"u\",\"\\ud800\":null\x7d".toUTF8.toList
    let ms' : List Member := [(some "username", .text none)]
    let body' := "\x7b\"username\":\"\\ud800\"\x7d".toUTF8.toList
    operation.form.fields = [username] ∧
      (IsObjectOf ms body ∧ username.values ms = [.text (some "u")] ∧
        ∀ request, operation.read body ≠ .ok request) ∧
      IsObjectOf ms' body' ∧ username.values ms' = [.text none] ∧
        ∀ request, operation.read body' ≠ .ok request := by
  intro operation username ms body ms' body'
  have hname : Says (Text.Utf8.encode "username".toList) "username".toList :=
    says_encode (by simp)
  have hu : Says (Text.Utf8.encode "u".toList) "u".toList := says_encode (by simp)
  have hquoted : IsQuoted [0x5C, 0x75, 0x64, 0x38, 0x30, 0x30] := .unit (by decide) .nil
  have hhalf (cs : List Char) : ¬Says [0x5C, 0x75, 0x64, 0x38, 0x30, 0x30] cs := by
    intro hsays
    have hsteps : Quoted.steps .plain [0x5C, 0x75, 0x64, 0x38, 0x30, 0x30]
        = some (.half 0xD800, []) := by decide
    rw [Quoted.steps_says hsays] at hsteps
    cases hsteps
  have hbody : IsObjectOf ms body := by
    obtain ⟨octets, hoctets, hlaid⟩ : ∃ octets, octets = body ∧ IsObjectOf ms octets :=
      ⟨_, by decide +kernel, .token (.mark (b := 0x7B) rfl) (.token (.text hname)
        (.token (.mark (b := 0x3A) rfl) (.token (.text hu) (.token (.mark (b := 0x2C) rfl)
        (.token (.unreadable hquoted hhalf) (.token (.mark (b := 0x3A) rfl) (.token .null
        (.token (.mark (b := 0x7D) rfl) (.nil (List.forall_mem_nil _))))))))))⟩
    exact hoctets ▸ hlaid
  have hbody' : IsObjectOf ms' body' := by
    obtain ⟨octets, hoctets, hlaid⟩ : ∃ octets, octets = body' ∧ IsObjectOf ms' octets :=
      ⟨_, by decide +kernel, .token (.mark (b := 0x7B) rfl) (.token (.text hname)
        (.token (.mark (b := 0x3A) rfl) (.token (.unreadable hquoted hhalf)
        (.token (.mark (b := 0x7D) rfl) (.nil (List.forall_mem_nil _))))))⟩
    exact hoctets ▸ hlaid
  refine ⟨rfl, ⟨hbody, rfl, fun request hread => ?_⟩, hbody', rfl, fun request hread => ?_⟩
  · have hnames := ((Operation.read_object_iff hbody).1 hread).2.1
    exact hnames (none, .scalar true) (by simp [ms]) rfl
  · obtain ⟨-, -, hholds⟩ := (Operation.read_object_iff hbody').1 hread
    obtain ⟨c, hc⟩ := exists_of_forall₂ hholds username (List.mem_singleton.2 rfl)
    have hc : username.Holds [.text none] c := hc
    cases hc

end RecordService.Identity
