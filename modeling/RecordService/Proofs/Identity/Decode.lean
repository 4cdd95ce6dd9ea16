import RecordService.Identity.Reader
import RecordService.Proofs.Except
/-!
# Bodies that decode

A body decodes to a request of an operation if it can be read as the operation's form, and the
fields of the request are the contents of the form's fields, in the form's order. A field that must
be there has a content then. `read_ok_iff` says that these are the requests that are read.
-/

namespace RecordService.Identity

open Json

/-- The request is one of the operation, and its fields are the contents of the form's fields. -/
def Operation.Fills (operation : Operation) (slots : Slots) (request : Request) : Prop :=
  request.operation = operation ∧
    request.fields = operation.form.fields.map fun field => Slots.optional slots field.name

/-- The body is read as the operation's form, and what the form holds makes the request. -/
def Operation.Decodes (operation : Operation) (body : List UInt8) (request : Request) : Prop :=
  ∃ slots, readForm operation.form (tokens body) = .ok slots ∧ operation.Fills slots request

theorem Slots.required_ok_iff {slots : Slots} {name s : String} :
    Slots.required slots name = .ok s ↔ Slots.optional slots name = some s := by
  unfold Slots.required Slots.optional
  rcases Entries.find? name slots with _ | _ | t <;> simp

namespace Operation

variable {slots : Slots} {request : Request}

/-- The slots make a request exactly if its fields are their contents. -/
theorem request_ok_iff {operation : Operation} :
    operation.request slots = .ok request ↔ operation.Fills slots request := by
  unfold Fills
  -- A request of another operation is neither made nor filled; one of the same is compared field
  -- by field.
  cases operation <;> cases request <;>
    simp only [Operation.request, bind_eq_ok, Slots.required_ok_iff, pure, Except.pure,
      Except.ok.injEq, reduceCtorEq, Request.operation, false_and, and_false, exists_const,
      Request.fields, form, Field.plain, List.map_cons, List.map_nil, List.cons.injEq, true_and,
      and_true]
  all_goals grind

/-- Slots make a request exactly if no required field is without a content. -/
theorem exists_fills_iff {operation : Operation} : (∃ request, operation.Fills slots request) ↔
    ∀ field ∈ operation.form.fields, field.required = true →
      (Slots.optional slots field.name).isSome = true := by
  constructor
  · rintro ⟨request, rfl, hfields⟩
    cases request <;> simp [Request.fields, Request.operation, form, Field.plain] at hfields ⊢ <;>
      grind
  · intro h
    have hfound : ∀ field ∈ operation.form.fields, field.required = true →
        ∃ s, Slots.required slots field.name = .ok s := fun field hfield hrequired =>
      (Option.isSome_iff_exists.1 (h field hfield hrequired)).imp fun s hs =>
        Slots.required_ok_iff.2 hs
    suffices ∃ request, operation.request slots = .ok request from
      this.imp fun request hrequest => request_ok_iff.1 hrequest
    cases operation with
    | register | authenticate =>
      obtain ⟨username, husername⟩ := hfound (.plain "username") (by simp [form]) rfl
      obtain ⟨password, hpassword⟩ := hfound (.plain "password") (by simp [form]) rfl
      exact ⟨_, bind_eq_ok.2 ⟨_, husername, bind_eq_ok.2 ⟨_, hpassword, rfl⟩⟩⟩
    | confirmRegistration =>
      obtain ⟨username, husername⟩ := hfound (.plain "username") (by simp [form]) rfl
      obtain ⟨code, hcode⟩ := hfound (.plain "confirmationCode") (by simp [form]) rfl
      exact ⟨_, bind_eq_ok.2 ⟨_, husername, bind_eq_ok.2 ⟨_, hcode, rfl⟩⟩⟩
    | refresh =>
      obtain ⟨token, htoken⟩ := hfound (.plain "refreshToken") (by simp [form]) rfl
      exact ⟨_, bind_eq_ok.2 ⟨_, htoken, rfl⟩⟩
    | requestPasswordReset =>
      obtain ⟨username, husername⟩ := hfound (.plain "username") (by simp [form]) rfl
      exact ⟨_, bind_eq_ok.2 ⟨_, husername, rfl⟩⟩
    | confirmPasswordReset =>
      obtain ⟨username, husername⟩ := hfound (.plain "username") (by simp [form]) rfl
      obtain ⟨code, hcode⟩ := hfound (.plain "confirmationCode") (by simp [form]) rfl
      obtain ⟨password, hpassword⟩ := hfound (.plain "password") (by simp [form]) rfl
      exact ⟨_, bind_eq_ok.2 ⟨_, husername, bind_eq_ok.2 ⟨_, hcode, bind_eq_ok.2
        ⟨_, hpassword, rfl⟩⟩⟩⟩

theorem read_ok_iff {operation : Operation} {body : List UInt8} :
    operation.read body = .ok request ↔ operation.Decodes body request := by
  rw [Operation.read, bind_eq_ok]
  exact exists_congr fun slots => and_congr_right fun _ => request_ok_iff

end Operation

end RecordService.Identity
