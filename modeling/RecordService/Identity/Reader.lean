import RecordService.Identity.Fault
import RecordService.Identity.Request
import RecordService.Json.Reader
import RecordService.Json.Tree
/-!
# Reading identity requests

A request body is read from left to right, and the first fault ends the reading. It is an object,
whose unknown members are passed over, or a list of the fields in the order of the form; fields that
are not required may be null, or be missing. What follows the object or list is ignored. A field
that is missing from an object is found out at its end, in the order of the form.
-/

namespace RecordService.Identity

open Json

/-- The contents of the fields read so far, by the field's main name. -/
abbrev Slots := Entries (Option String)

/-- A token of a body. -/
abbrev Token := Json.Token Quoted Scalar

/-- What a value's first token shows; a token that starts no value is a fault of its own. -/
def found (t : Token) : Except Fault Found :=
  match t.found? with
  | some found => .ok found
  | none => .error .malformed

/-- The content of a field at the head of the tokens, and what follows it. -/
def content (field : Field) (place : Place) : List Token → Except Fault (Option String × List Token)
  | .text (.text s) :: ts => .ok (some s, ts)
  | .scalar .null :: ts => if field.required then .error (.notText place .null) else .ok (none, ts)
  | t :: _ => do throw (.notText place (← found t))
  | [] => .error .malformed

/-- The field of a form that goes by a name. -/
def Form.field? (form : Form) (name : String) : Option Field :=
  form.fields.find? fun f => f.name == name || f.aliases.contains name

/-! ## Objects -/

/-- The name of the next member, or none at the end of the object; and what follows it. -/
def nextName (first : Bool) : List Token → Except Fault (Option String × List Token)
  | .endMap :: ts => .ok (none, ts)
  | .text (.text name) :: ts => if first then .ok (some name, ts) else .error .malformed
  | .comma :: .text (.text name) :: ts => if first then .error .malformed else .ok (some name, ts)
  | _ => .error .malformed

/-- What follows the colon after a name. -/
def afterColon : List Token → Except Fault (List Token)
  | .colon :: ts => .ok ts
  | _ => .error .malformed

/-- One member after its name: a field of the form that is new, or one that is passed over. -/
def member (form : Form) (slots : Slots) (name : String) (ts : List Token) :
    Except Fault (Slots × List Token) :=
  match form.field? name with
  | some field =>
    if (Entries.find? field.name slots).isSome then .error (.repeated field.name)
    else do
      let (c, rest) ← content field (.member name) (← afterColon ts)
      pure (Entries.put field.name c slots, rest)
  | none => do
    match Tree.read? (← afterColon ts) with
    | some (_, rest) => pure (slots, rest)
    | none => throw .malformed

theorem content_length {field : Field} {place : Place} {ts rest : List Token} {c : Option String}
    (h : content field place ts = .ok (c, rest)) : rest.length < ts.length := by
  unfold content at h
  split at h
  · obtain ⟨rfl, rfl⟩ : _ ∧ _ := by simpa using h
    simp
  · split at h
    · simp at h
    · obtain ⟨rfl, rfl⟩ : _ ∧ _ := by simpa using h
      simp
  · simp only [bind, Except.bind] at h
    split at h <;> simp [throw, throwThe, MonadExceptOf.throw] at h
  · simp at h

theorem nextName_length {first : Bool} {ts rest : List Token} {name : Option String}
    (h : nextName first ts = .ok (name, rest)) : rest.length < ts.length := by
  unfold nextName at h
  split at h
  · obtain ⟨rfl, rfl⟩ : _ ∧ _ := by simpa using h
    simp
  · split at h
    · obtain ⟨rfl, rfl⟩ : _ ∧ _ := by simpa using h
      simp
    · simp at h
  · split at h
    · simp at h
    · obtain ⟨rfl, rfl⟩ : _ ∧ _ := by simpa using h
      simp only [List.length_cons]
      omega
  · simp at h

theorem afterColon_length {ts rest : List Token} (h : afterColon ts = .ok rest) :
    rest.length < ts.length := by
  unfold afterColon at h
  split at h
  · obtain rfl : _ = rest := by simpa using h
    simp
  · simp at h

theorem member_length {form : Form} {slots slots' : Slots} {name : String} {ts rest : List Token}
    (h : member form slots name ts = .ok (slots', rest)) : rest.length < ts.length := by
  unfold member at h
  split at h
  · next field _ =>
    split at h
    · simp at h
    · cases hc : afterColon ts with
      | error _ => simp [hc, bind, Except.bind] at h
      | ok after =>
        cases hv : content field (.member name) after with
        | error _ => simp [hc, hv, bind, Except.bind] at h
        | ok v =>
          have h1 := afterColon_length hc
          have h2 := content_length hv
          obtain ⟨_, rfl⟩ : _ ∧ v.2 = rest := by
            simpa [hc, hv, bind, Except.bind, pure, Except.pure] using h
          omega
  · cases hc : afterColon ts with
    | error _ => simp [hc, bind, Except.bind] at h
    | ok after =>
      cases hs : Tree.read? after with
      | none => simp [hc, hs, bind, Except.bind, throw, throwThe, MonadExceptOf.throw] at h
      | some passed =>
        have h1 := afterColon_length hc
        have h2 := Tree.read?_length hs
        obtain ⟨_, rfl⟩ : _ ∧ passed.2 = rest := by
          simpa [hc, hs, bind, Except.bind, pure, Except.pure] using h
        omega

/-- The members of an object, to its end. -/
def members (form : Form) (slots : Slots) (first : Bool) (ts : List Token) : Except Fault Slots :=
  match _hn : nextName first ts with
  | .error fault => .error fault
  | .ok (none, _) => .ok slots
  | .ok (some name, rest) =>
    match _hm : member form slots name rest with
    | .error fault => .error fault
    | .ok (slots, rest) => members form slots false rest
termination_by ts.length
decreasing_by
  have h1 := nextName_length _hn
  have h2 := member_length _hm
  omega

/-! ## Lists -/

/-- The tokens of the next item, or none at the end of the list. -/
def nextItem (first : Bool) : List Token → Except Fault (Option (List Token))
  | .endList :: _ => .ok none
  | .comma :: .endList :: _ => .error .malformed
  | .comma :: ts => if first then .error .malformed else .ok (some ts)
  | [] => .error .malformed
  | ts => if first then .ok (some ts) else .error .malformed

/-- The items of a list from a place on, one for each field; then the list must end. -/
def items (form : Form) (slots : Slots) (index : Nat) (ts : List Token) :
    List Field → Except Fault Slots
  | [] => if ts.head? = some .endList then .ok slots else .error .malformed
  | field :: fields => do
    match ← nextItem (index == 0) ts with
    | none =>
      if field.required then throw (.tooShort form.title form.fields.length index)
      else items form (Entries.put field.name none slots) (index + 1) ts fields
    | some ts =>
      let (c, rest) ← content field (.item index) ts
      items form (Entries.put field.name c slots) (index + 1) rest fields

/-! ## Requests -/

/-- The slots of a form at the head of the tokens. -/
def readForm (form : Form) : List Token → Except Fault Slots
  | .beginMap :: ts => members form [] true ts
  | .beginList :: ts => items form [] 0 ts form.fields
  | t :: _ => do throw (.notForm form.title (← found t))
  | [] => .error .malformed

/-- The content of a field that must be there. -/
def Slots.required (slots : Slots) (name : String) : Except Fault String :=
  match Entries.find? name slots with
  | some (some s) => .ok s
  | _ => .error (.missing name)

/-- The content of a field that may be left out. -/
def Slots.optional (slots : Slots) (name : String) : Option String :=
  (Entries.find? name slots).join

/-- The request that the slots make, if no required field is missing. -/
def Operation.request (slots : Slots) : Operation → Except Fault Request
  | .register => do
    let username ← Slots.required slots "username"
    let password ← Slots.required slots "password"
    pure (.register username password (Slots.optional slots "email")
      (Slots.optional slots "phoneNumber"))
  | .confirmRegistration => do
    let username ← Slots.required slots "username"
    pure (.confirmRegistration username (← Slots.required slots "confirmationCode"))
  | .authenticate => do
    let username ← Slots.required slots "username"
    pure (.authenticate username (← Slots.required slots "password"))
  | .refresh => do
    pure (.refresh (← Slots.required slots "refreshToken"))
  | .requestPasswordReset => do
    pure (.requestPasswordReset (← Slots.required slots "username"))
  | .confirmPasswordReset => do
    let username ← Slots.required slots "username"
    let code ← Slots.required slots "confirmationCode"
    pure (.confirmPasswordReset username code (← Slots.required slots "password"))

/-- The request in a body. -/
def Operation.read (operation : Operation) (body : List UInt8) : Except Fault Request := do
  operation.request (← readForm operation.form (tokens body))

end RecordService.Identity
