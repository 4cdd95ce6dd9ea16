import RecordService.Http.Plan
import RecordService.Proofs.Except
/-!
# Refusals

Whatever is found wrong with a request for records before the store is asked is for the caller to
mend: each of these errors is answered with 400, whichever check finds it.
-/

namespace RecordService

open Expression

/-- Whatever goes wrong is answered with 400. -/
abbrev Refuses {α : Type} (x : Except Error α) : Prop :=
  FailsWith (fun e => e.status = 400) x

/-! ## Bodies and names -/

theorem refuses_attributes (body : Value) : Refuses (Attributes.ofBody body) := by
  unfold Attributes.ofBody
  split
  · split
    · exact .error rfl
    · exact .ok _
  · exact .error rfl

theorem refuses_record (keyName : String) (body : Value) :
    Refuses (Record.ofBody keyName body) := by
  refine (refuses_attributes body).bind fun attributes => ?_
  split
  · split
    · exact .error rfl
    · exact .ok _
  · exact .error rfl

theorem refuses_token (name : String) : Refuses (token? name) := by
  unfold token?
  split
  · exact .error rfl
  · exact .ok _

theorem refuses_parameter (name : String) (value : Option String) :
    Refuses (Filter.ofParameter name value) :=
  (refuses_token name).bind fun _ => .ok _

/-! ## Updates -/

namespace Expression.Update

theorem refuses_assign (draft : Draft) (name : String) (value : Value) :
    Refuses (draft.assign name value) := by
  refine (refuses_token name).bind fun token => ?_
  split
  · exact .error rfl
  · exact .ok _

theorem refuses_assignAll (draft : Draft) (set : Attributes) : Refuses (draft.assignAll set) := by
  induction set generalizing draft with
  | nil => exact .ok draft
  | cons e set ih => exact (refuses_assign draft e.1 e.2).bind fun next => ih next

theorem refuses_withoutKey (key : Key) (body : Attributes) : Refuses (withoutKey key body) := by
  unfold withoutKey
  split
  · exact .ok body
  · split
    · exact .ok _
    · exact .error rfl
  · exact .error rfl

theorem refuses_compile (key : Key) (readOnly : List String) (body : Attributes) :
    Refuses (compile key readOnly body) := by
  refine (refuses_withoutKey key body).bind fun set => ?_
  split
  · exact .error rfl
  · split
    · exact .error rfl
    · refine (refuses_token key.name).bind fun reserved => ?_
      exact (refuses_assignAll _ set).bind fun draft => .ok _

end Expression.Update

/-! ## Requests -/

namespace Http

variable (s : Settings) (now : String) (r : Request)

theorem Request.refuses_jsonBody : Refuses r.jsonBody := by
  unfold Request.jsonBody
  split
  · exact .error rfl
  · split
    · exact .error rfl
    · exact .ok r.body

theorem Request.refuses_value : Refuses r.value := by
  refine r.refuses_jsonBody.bind fun octets => ?_
  split
  · exact .ok _
  · exact .error rfl

namespace Plan

theorem refuses_create : Refuses (create s now r) :=
  r.refuses_value.bind fun body => (refuses_record s.keyAttribute body).bind fun _ => .ok _

theorem refuses_update (key : Key) : Refuses (update s r key) :=
  r.refuses_value.bind fun body => (refuses_attributes body).bind fun attributes =>
    (Expression.Update.refuses_compile key s.createdAt.toList attributes).bind fun _ => .ok _

theorem refuses_filter (parameters : List (String × String)) : Refuses (filter s parameters) := by
  unfold filter
  split
  · split
    · exact (refuses_parameter _ none).map
    · exact .ok none
  · exact (refuses_parameter _ _).map
  · exact .error rfl

end Plan

end Http

end RecordService
