import RecordService.Proofs.Entries
import RecordService.Proofs.Except
import RecordService.Proofs.Json.Outline
import RecordService.Identity.Reader
/-!
# Forms read from outlines

Of a body a form takes the outline: one member after the other, each into the slot of its field. So
the slots in the end are a fold over the members.
-/

namespace RecordService.Identity

open Json

/-- A member of an object: its name, if that is a text, and its value. -/
abbrev Member := Option String × Outline

/-- The content that a value gives a field. -/
def Field.content? (field : Field) : Outline → Option (Option String)
  | .text (some s) => some (some s)
  | .scalar true => if field.required then none else some none
  | _ => none

/-- The slots with the value of a member that goes by a name. -/
def Form.take? (form : Form) (slots : Slots) (name : String) (t : Outline) : Option Slots :=
  match form.field? name with
  | some field =>
    if (Entries.find? field.name slots).isSome then none
    else (field.content? t).map fun c => Entries.put field.name c slots
  | none => some slots

/-- The slots with a member. -/
def Form.add? (form : Form) (slots : Slots) (m : Member) : Option Slots :=
  m.1.bind fun name => form.take? slots name m.2

/-! ## Readers and outlines -/

/-- The reader gives the value and leaves tokens of the outline, or fails where there is none. -/
inductive Leaves {α : Type} (us : List (Json.Token (Option String) Bool)) :
    Except Fault (α × List Token) → Option α → Prop where
  | ok (a : α) {rest : List Token} (h : rest.map Json.Token.outline = us) :
      Leaves us (.ok (a, rest)) (some a)
  | error (fault : Fault) : Leaves us (.error fault) none

section
variable {us : List (Json.Token (Option String) Bool)} {xs : List Token} {t : Outline}

theorem content_error {x : Token} (hx : ∀ s, x ≠ .text (.text s)) (hnull : x ≠ .scalar .null)
    (field : Field) (place : Place) : ∃ fault, content field place (x :: xs) = .error fault := by
  unfold content
  split
  · next heq => exact absurd (List.cons.inj heq).1 (hx _)
  · next heq => exact absurd (List.cons.inj heq).1 hnull
  · next heq =>
    obtain ⟨rfl, rfl⟩ := List.cons.inj heq
    unfold found
    split <;> exact ⟨_, rfl⟩
  · next heq => cases heq

theorem content_leaves (h : xs.map Json.Token.outline = t.spelled ++ us) (field : Field)
    (place : Place) : Leaves us (content field place xs) (field.content? t) := by
  have hother {x : Token} (hx : ∀ s, x ≠ .text (.text s)) (hnull : x ≠ .scalar .null)
      (rest : List Token) : Leaves us (content field place (x :: rest)) none := by
    obtain ⟨fault, hfault⟩ := content_error hx hnull field place
    rw [hfault]
    exact .error fault
  cases t with
  | text o =>
    obtain ⟨x, rest, rfl, hx, hrest⟩ := List.map_eq_cons_iff.1 h
    cases x <;> cases hx
    next q =>
    cases q with
    | text s => exact .ok (some s) hrest
    | _ => exact hother (by simp) (by simp) rest
  | scalar b =>
    obtain ⟨x, rest, rfl, hx, hrest⟩ := List.map_eq_cons_iff.1 h
    cases x <;> cases hx
    next s =>
    by_cases hs : s = .null
    · subst hs
      change Leaves us (if field.required then _ else _)
        (if field.required then none else some none)
      cases field.required with
      | true => exact .error _
      | false => exact .ok none hrest
    · have hcontent : field.content? (.scalar (s == .null)) = none := by
        rw [beq_eq_false_iff_ne.2 hs]
        rfl
      rw [hcontent]
      exact hother (by simp) (by simpa using hs) rest
  | list items =>
    rw [Tree.spelled_list, List.cons_append] at h
    obtain ⟨x, rest, rfl, hx, -⟩ := List.map_eq_cons_iff.1 h
    cases x <;> cases hx
    exact hother (by simp) (by simp) rest
  | map ms =>
    rw [Tree.spelled_map, List.cons_append] at h
    obtain ⟨x, rest, rfl, hx, -⟩ := List.map_eq_cons_iff.1 h
    cases x <;> cases hx
    exact hother (by simp) (by simp) rest

/-- A member is passed over, or its value goes into the slot of its field. -/
theorem member_leaves (h : xs.map Json.Token.outline = .colon :: (t.spelled ++ us)) (form : Form)
    (slots : Slots) (name : String) :
    Leaves us (member form slots name xs) (form.take? slots name t) := by
  obtain ⟨x, ys, rfl, hx, hys⟩ := List.map_eq_cons_iff.1 h
  cases x <;> cases hx
  unfold member Form.take?
  cases form.field? name with
  | some field =>
    by_cases hslot : (Entries.find? field.name slots).isSome = true
    · simp only [hslot, if_true]
      exact .error _
    · have hleaves := content_leaves hys field (.member name)
      simp only [hslot, afterColon, bind, Except.bind]
      generalize content field (.member name) ys = x, field.content? t = o at hleaves
      cases hleaves with
      | ok c hrest => exact .ok _ hrest
      | error fault => exact .error fault
  | none =>
    obtain ⟨tree, rest, rfl, hrest⟩ := exists_tree hys
    simp only [afterColon, bind, Except.bind, Tree.read?_eq_some.2 rfl]
    exact .ok slots hrest

/-! ## Objects -/

/-- The tokens before a name: the first one has no comma before it. -/
def separator (first : Bool) : List Token :=
  if first then [] else [.comma]

theorem nextName_separator (first : Bool) (q : Quoted) (ts : List Token) :
    nextName first (separator first ++ .text q :: ts)
      = q.text?.elim (.error .malformed) fun name => .ok (some name, ts) := by
  cases first <;> cases q <;> rfl

/-- One member of an object, and then the others. -/
theorem members_member (form : Form) (slots : Slots) (first : Bool) (q : Quoted)
    (h : xs.map Json.Token.outline = .colon :: (t.spelled ++ us)) {others : Slots → Option Slots}
    (hothers : ∀ slots rest, rest.map Json.Token.outline = us →
      (members form slots false rest).toOption = others slots) :
    (members form slots first (separator first ++ .text q :: xs)).toOption
      = (form.add? slots (q.text?, t)).bind others := by
  have hname := nextName_separator first q xs
  rw [members]
  cases hq : q.text? with
  | none =>
    -- A name that is no text ends the reading.
    rw [hq] at hname
    split
    · rfl
    · next heq => cases hname.symm.trans heq
    · next heq => cases hname.symm.trans heq
  | some name =>
    rw [hq] at hname
    split
    · next heq => cases hname.symm.trans heq
    · next heq => cases hname.symm.trans heq
    · next heq =>
      cases hname.symm.trans heq
      have hmember := member_leaves h form slots name
      change _ = (form.take? slots name t).bind others
      generalize form.take? slots name t = o at hmember ⊢
      split
      · next heq =>
        rw [heq] at hmember
        cases hmember
        rfl
      · next heq =>
        rw [heq] at hmember
        cases hmember with
        | ok _ hrest => exact hothers _ _ hrest

theorem members_endMap (form : Form) (slots : Slots) (first : Bool) (ts : List Token) :
    (members form slots first (.endMap :: ts)).toOption = some slots := by
  rw [members]
  rfl

/-- The name of a member in tokens that have its outline. -/
theorem exists_name {m : Member} (h : xs.map Json.Token.outline = Tree.memberSpelled m ++ us) :
    ∃ q ys, xs = .text q :: ys ∧ q.text? = m.1 ∧
      ys.map Json.Token.outline = .colon :: (m.2.spelled ++ us) := by
  obtain ⟨x, ys, rfl, hx, hys⟩ := List.map_eq_cons_iff.1 h
  cases x with
  | text q => exact ⟨q, ys, rfl, Json.Token.text.inj hx, hys⟩
  | _ => cases hx

/-- The members after a first one. -/
theorem members_others {ms : List Member} {slots : Slots} (form : Form)
    (h : xs.map Json.Token.outline
      = (ms.map Tree.memberSpelled).flatMap (.comma :: ·) ++ .endMap :: us) :
    (members form slots false xs).toOption = ms.foldlM form.add? slots := by
  induction ms generalizing slots xs with
  | nil =>
    obtain ⟨x, rest, rfl, hx, -⟩ := List.map_eq_cons_iff.1 h
    cases x <;> cases hx
    exact members_endMap ..
  | cons m ms ih =>
    rw [List.map_cons, List.flatMap_cons, List.cons_append, List.cons_append,
      List.append_assoc] at h
    obtain ⟨x, xs, rfl, hx, hxs⟩ := List.map_eq_cons_iff.1 h
    cases x <;> cases hx
    obtain ⟨q, ys, rfl, hq, hys⟩ := exists_name hxs
    have hmember := members_member form slots false q hys fun slots rest hrest => ih hrest
    rw [hq] at hmember
    exact hmember

/-- The slots of a form are a fold over the members of an object. -/
theorem readForm_map {ms : List Member} (form : Form)
    (h : xs.map Json.Token.outline = (Json.Tree.map ms).spelled) :
    (readForm form xs).toOption = ms.foldlM form.add? [] := by
  rw [Tree.spelled_map] at h
  obtain ⟨x, xs, rfl, hx, hxs⟩ := List.map_eq_cons_iff.1 h
  cases x <;> cases hx
  change (members form [] true xs).toOption = _
  cases ms with
  | nil =>
    obtain ⟨x, rest, rfl, hx, -⟩ := List.map_eq_cons_iff.1 hxs
    cases x <;> cases hx
    exact members_endMap ..
  | cons m ms =>
    rw [List.map_cons, Tree.intercalate_cons, List.append_assoc] at hxs
    obtain ⟨q, ys, rfl, hq, hys⟩ := exists_name hxs
    have hmember := members_member form [] true q hys fun slots rest hrest =>
      members_others form hrest
    rw [hq] at hmember
    exact hmember

/-! ## Lists -/

/-- The value that gives a content. -/
def given : Option String → Outline
  | some s => .text (some s)
  | none => .scalar true

theorem content?_given {field : Field} {c : Option String} :
    field.content? (given c) = some c ↔ (field.required = true → c.isSome = true) := by
  cases c with
  | some s => simp [given, Field.content?]
  | none => simp [given, Field.content?]

/-- A content that is given is an item of its own. -/
theorem nextItem_separator {c : Option String}
    (h : xs.map Json.Token.outline = (given c).spelled ++ us) (first : Bool) :
    nextItem first (separator first ++ xs) = .ok (some xs) := by
  cases c with
  | some s =>
    obtain ⟨x, ys, rfl, hx, -⟩ := List.map_eq_cons_iff.1 h
    cases x with
    | text q => cases first <;> rfl
    | _ => cases hx
  | none =>
    obtain ⟨x, ys, rfl, hx, -⟩ := List.map_eq_cons_iff.1 h
    cases x with
    | scalar s => cases first <;> rfl
    | _ => cases hx

/-- One item, and then the others. -/
theorem items_item {field : Field} {c : Option String} (hc : field.content? (given c) = some c)
    (h : xs.map Json.Token.outline = (given c).spelled ++ us) (form : Form) (slots : Slots)
    (index : Nat) (fields : List Field) :
    ∃ rest, rest.map Json.Token.outline = us ∧
      items form slots index (separator (index == 0) ++ xs) (field :: fields)
        = items form (Entries.put field.name c slots) (index + 1) rest fields := by
  have hleaves := content_leaves h field (.item index)
  rw [hc] at hleaves
  rw [items, nextItem_separator h]
  simp only [bind, Except.bind]
  generalize content field (.item index) xs = result at hleaves
  cases hleaves with
  | ok _ hrest => exact ⟨_, hrest, rfl⟩

/-- The contents of fields by their names. -/
def named (fields : List Field) (contents : List (Option String)) : Slots :=
  List.zipWith (fun field c => (field.name, c)) fields contents

theorem names_named {fields : List Field} {contents : List (Option String)}
    (h : fields.length = contents.length) :
    Entries.names (named fields contents) = fields.map Field.name := by
  induction fields generalizing contents with
  | nil => rfl
  | cons field fields ih =>
    obtain ⟨c, contents, rfl⟩ := List.exists_cons_of_length_eq_add_one h.symm
    exact congrArg (field.name :: ·) (ih (Nat.succ.inj h))

/-- Fields with names of their own find their contents. -/
theorem optional_named {fields : List Field} (hn : (fields.map Field.name).Nodup)
    {contents : List (Option String)} (h : fields.length = contents.length) :
    fields.map (fun field => Slots.optional (Entries.ofPairs (named fields contents)) field.name)
      = contents := by
  rw [Entries.ofPairs_of_nodup (names_named h ▸ hn)]
  induction fields generalizing contents with
  | nil => exact (List.length_eq_zero_iff.1 h.symm).symm
  | cons field fields ih =>
    obtain ⟨c, contents, rfl⟩ := List.exists_cons_of_length_eq_add_one h.symm
    obtain ⟨hfield, hn⟩ := List.nodup_cons.1 hn
    have hfirst : Slots.optional ((field.name, c) :: named fields contents) field.name = c := by
      simp [Slots.optional, Entries.find?]
    have hothers (other : Field) (hother : other ∈ fields) :
        Slots.optional ((field.name, c) :: named fields contents) other.name
          = Slots.optional (named fields contents) other.name := by
      have hne : field.name ≠ other.name := fun heq => hfield (heq ▸ List.mem_map_of_mem hother)
      simp [Slots.optional, Entries.find?, hne]
    exact congrArg₂ List.cons hfirst
      ((List.map_congr_left hothers).trans (ih hn (Nat.succ.inj h)))

/-- The items that follow others, one for each field. -/
theorem items_others {fields : List Field} {contents : List (Option String)} {form : Form}
    {slots : Slots} {index : Nat}
    (hgiven : List.Forall₂ (fun field c => field.content? (given c) = some c) fields contents)
    (h : xs.map Json.Token.outline
      = ((contents.map given).map Tree.spelled).flatMap (.comma :: ·) ++ .endList :: us) :
    items form slots (index + 1) xs fields
      = .ok (Entries.putAll (named fields contents) slots) := by
  induction hgiven generalizing slots index xs with
  | nil =>
    obtain ⟨x, rest, rfl, hx, -⟩ := List.map_eq_cons_iff.1 h
    cases x <;> cases hx
    rfl
  | @cons field c fields contents hc hothers ih =>
    rw [List.map_cons, List.map_cons, List.flatMap_cons, List.cons_append, List.cons_append,
      List.append_assoc] at h
    obtain ⟨x, xs, rfl, hx, hxs⟩ := List.map_eq_cons_iff.1 h
    cases x <;> cases hx
    obtain ⟨rest, hrest, hitems⟩ := items_item hc hxs form slots (index + 1) fields
    exact hitems.trans (ih hrest)

/-- A list of the fields' contents is read into their slots. -/
theorem readForm_list {form : Form} {contents : List (Option String)}
    (hgiven : List.Forall₂ (fun field c => field.content? (given c) = some c) form.fields contents)
    (h : xs.map Json.Token.outline = (Json.Tree.list (contents.map given)).spelled) :
    readForm form xs = .ok (Entries.ofPairs (named form.fields contents)) := by
  rw [Tree.spelled_list] at h
  obtain ⟨x, xs, rfl, hx, hxs⟩ := List.map_eq_cons_iff.1 h
  cases x <;> cases hx
  change items form [] 0 xs form.fields = _
  generalize form.fields = fields at hgiven
  cases hgiven with
  | nil =>
    obtain ⟨x, rest, rfl, hx, -⟩ := List.map_eq_cons_iff.1 hxs
    cases x <;> cases hx
    rfl
  | @cons field c fields contents hc hothers =>
    rw [List.map_cons, List.map_cons, Tree.intercalate_cons, List.append_assoc] at hxs
    obtain ⟨rest, hrest, hitems⟩ := items_item hc hxs form [] 0 fields
    exact hitems.trans (items_others hothers hrest)

end

end RecordService.Identity
