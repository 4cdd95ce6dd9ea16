import RecordService.Proofs.Http.Command
import RecordService.Proofs.Http.Sound
import RecordService.Proofs.Json.Texts
/-!
# Bodies of errors

Whatever goes wrong with a request is told in an object with the one member `error`, a text. Two
answers are made before any of this: a method that the path does not take is refused without a
word, and a key in the path that is no text is refused in plain words.
-/

namespace RecordService.Http

open Store
open Identity (Provider)
open Text.Utf8 (encode)

/-! ## Responses -/

/-- The response is announced as JSON, and whoever reads it finds an object with the one member
`error`, a text. -/
def Response.IsError (r : Response) : Prop :=
  r.contentType = some "application/json" ∧
    ∃ message, Json.readWhole (encode r.body.toList) = .ok (.map [("error", .string message)])

theorem Response.isError_json (status : Nat) (message : String) :
    (json status (errorBody message)).IsError := by
  refine ⟨rfl, message, ?_⟩
  have hbody : (json status (errorBody message)).body.toList
      = Value.chars (.map (Json.texts [("error", message)])) := String.toList_ofList
  have hhead : some "error" ≠ some Json.embeddedName := by decide
  rw [hbody]
  exact Json.readWhole_texts [("error", message)] (by simp [Entries.names]) hhead

theorem Response.isError_ofError (e : Error) : (ofError e).IsError :=
  isError_json e.status e.publicMessage

theorem Response.forMethod_of_ne {method : String} (h : method ≠ "HEAD") (r : Response) :
    r.forMethod method = r := by
  rw [forMethod, if_neg h]

/-- The response is what the identity provider replied. -/
def Served.Relays {σ : Type} (provider : Provider) (served : Served σ) : Prop :=
  ∃ request reply, served.calls = [request] ∧ provider request = .ok reply

/-! ## Requests -/

namespace Request

/-- The path is one of the service, but does not take the method. -/
def WrongMethod (r : Request) : Prop :=
  ∃ route, r.route? = some route ∧ route.action? r.method = none

/-- The path names a record by octets that are no text, and takes the method. -/
def UnreadableKey (r : Request) : Prop :=
  ∃ octets, r.route? = some (.record octets) ∧
    ((Route.record octets).action? r.method).isSome = true ∧ Plan.keyText? octets = none

end Request

/-- The route that an action belongs to. -/
def Action.route : Action → Route
  | .health => .health
  | .scan | .create => .records
  | .get key | .update key | .delete key => .record key
  | .identity operation => .identity operation

theorem Route.route_of_action? {route : Route} {method : String} {action : Action}
    (h : route.action? method = some action) : action.route = route := by
  cases route <;> grind [Route.action?, Action.route]

namespace Plan

variable {s : Settings} {now : String} {r : Request}

/-- An answer without the store tells that all is well, or of an error, or that the key is no
text. -/
def Tells (route : Route) : Plan → Prop
  | .answer response => response = .healthy ∨ response.IsError ∨
      response = .badPathKey ∧ ∃ octets, route = .record octets ∧ keyText? octets = none
  | _ => True

theorem tells_ofCommand (route : Route) (x : Except Error Command) :
    (ofCommand x).Tells route := by
  cases x with
  | ok c => trivial
  | error e => exact .inr (.inl (Response.isError_ofError e))

theorem tells_withKey {octets : List UInt8} {plan : Key → Plan}
    (h : ∀ key, (plan key).Tells (.record octets)) :
    (withKey s octets plan).Tells (.record octets) := by
  unfold withKey
  split
  · exact h _
  · next hnone => exact .inr (.inr ⟨rfl, octets, rfl, hnone⟩)

theorem tells_ofAction (s : Settings) (now : String) (r : Request) (action : Action) :
    (ofAction s now r action).Tells action.route := by
  cases action with
  | health => exact .inl rfl
  | scan => exact tells_ofCommand _ _
  | create => exact tells_ofCommand _ _
  | get octets =>
    rw [ofAction]
    exact tells_withKey fun key => trivial
  | update octets =>
    rw [ofAction]
    exact tells_withKey fun key => tells_ofCommand _ _
  | delete octets =>
    rw [ofAction]
    exact tells_withKey fun key => trivial
  | identity operation =>
    rw [ofAction]
    split
    · trivial
    · exact .inr (.inl (Response.isError_ofError _))

/-- Whatever else a request for a record says, a key that is no text is refused first. -/
theorem ofAction_unreadable {action : Action} {octets : List UInt8}
    (hroute : action.route = .record octets) (hkey : keyText? octets = none) :
    ofAction s now r action = .answer .badPathKey := by
  cases action with
  | get key | update key | delete key =>
    obtain rfl : key = octets := Route.record.inj hroute
    simp only [ofAction, withKey, hkey]
  | _ => cases hroute

end Plan

/-! ## The service -/

section Serve
variable {σ : Type} {s : Settings} {now : String} {provider : Provider}
  {run : Command → Outcome × σ} {idle : σ} {r : Request}

theorem response_wrongMethod (h : r.WrongMethod) :
    ∃ allow, (serve s now provider run idle r).response = .methodRefused allow := by
  obtain ⟨route, hroute, haction⟩ := h
  unfold Request.route? at hroute
  exact ⟨route.allowed, by simp only [serve, hroute, haction]⟩

theorem response_unreadableKey (hmethod : r.method ≠ "HEAD") (h : r.UnreadableKey) :
    (serve s now provider run idle r).response = .badPathKey := by
  obtain ⟨octets, hroute, hsome, hkey⟩ := h
  obtain ⟨action, haction⟩ := Option.isSome_iff_exists.1 hsome
  have hplan : Plan.ofAction s now r action = .answer .badPathKey :=
    Plan.ofAction_unreadable (Route.route_of_action? haction) hkey
  unfold Request.route? at hroute
  simp only [serve, hroute, haction, hplan]
  exact Response.forMethod_of_ne hmethod _

/-- Any other error is told in an object. -/
theorem isError_response (hmethod : r.method ≠ "HEAD") (hwrong : ¬r.WrongMethod)
    (hkey : ¬r.UnreadableKey) (hstatus : 400 ≤ (serve s now provider run idle r).response.status)
    (hrelays : ¬(serve s now provider run idle r).Relays provider) :
    (serve s now provider run idle r).response.IsError := by
  unfold serve at hstatus hrelays ⊢
  cases hroute : Route.ofPath? (Target.ofText r.target).path with
  | none => exact Response.isError_json 404 "Not Found"
  | some route =>
    simp only [hroute] at hstatus hrelays ⊢
    cases haction : route.action? r.method with
    | none => exact absurd ⟨route, hroute, haction⟩ hwrong
    | some action =>
      simp only [haction] at hstatus hrelays ⊢
      have htells := Plan.tells_ofAction s now r action
      rw [Route.route_of_action? haction] at htells
      cases hplan : Plan.ofAction s now r action with
      | answer response =>
        simp only [hplan, Response.forMethod_of_ne hmethod] at hstatus htells ⊢
        rcases htells with rfl | herror | ⟨rfl, octets, rfl, hnone⟩
        · exact absurd hstatus (by decide)
        · exact herror
        · exact absurd ⟨octets, hroute, by rw [haction]; rfl, hnone⟩ hkey
      | command c =>
        simp only [hplan, Response.forMethod_of_ne hmethod] at hstatus ⊢
        cases houtcome : (run c).1 with
        | ok answer =>
          rw [houtcome] at hstatus
          exact absurd hstatus (by simp [Response.ofOutcome, Response.json])
        | error e => exact Response.isError_ofError _
      | identity request =>
        simp only [hplan] at hrelays ⊢
        cases hreply : provider request with
        | ok reply => exact absurd ⟨request, reply, rfl, hreply⟩ hrelays
        | error e => exact Response.isError_ofError _

end Serve

/-- A response with an error that is not one of the identity provider is an object with the one
member `error`, a text, for any settings and over any store, unless the path does not take the
method, or names a record by octets that are no text. For these the method is refused without a
body, and the key in plain words. -/
theorem errors_told {σ : Type} (s : Settings) (now : String) (provider : Provider)
    (run : Command → Outcome × σ) (idle : σ) (r : Request) :
    let served := serve s now provider run idle r
    r.method ≠ "HEAD" → 400 ≤ served.response.status → ¬served.Relays provider →
      (served.response.IsError ↔ ¬r.WrongMethod ∧ ¬r.UnreadableKey) ∧
      (r.WrongMethod → ∃ allow, served.response = .methodRefused allow) ∧
      (r.UnreadableKey → served.response = .badPathKey) := by
  intro served hmethod hstatus hrelays
  refine ⟨⟨fun herror => ⟨fun hwrong => ?_, fun hkey => ?_⟩, fun h => ?_⟩, response_wrongMethod,
    response_unreadableKey hmethod⟩
  · obtain ⟨allow, hresponse⟩ := response_wrongMethod hwrong
    exact absurd (hresponse ▸ herror.1) nofun
  · have hresponse : served.response = .badPathKey := response_unreadableKey hmethod hkey
    exact absurd (hresponse ▸ herror.1) (by decide)
  · exact isError_response hmethod h.1 h.2 hstatus hrelays

/-- A record that is not there, and a key that is no text. -/
theorem errors_told_missing :
    let s := Settings.ofNames "records" "client" "pool"
    let provider : Provider := fun _ => .ok ⟨200, .null⟩
    let m := Memory.empty "userId"
    (serveMemory s "" provider m ⟨"GET", "/records/x", none, []⟩).response.IsError ∧
      (serveMemory s "" provider m ⟨"DELETE", "/records/%FF", none, []⟩).response
        = .badPathKey := by
  intro s provider m
  have hidle : ∀ served : Served Memory, served.calls = [] → ¬served.Relays provider := by
    rintro served hcalls ⟨request, reply, hone, -⟩
    rw [hcalls] at hone
    cases hone
  constructor
  · have hroute : Request.route? ⟨"GET", "/records/x", none, []⟩ = some (.record [0x78]) := by
      decide +kernel
    refine ((errors_told s "" provider m.run m ⟨"GET", "/records/x", none, []⟩ (by decide)
      (by decide +kernel) (hidle _ (by decide +kernel))).1).2 ⟨?_, ?_⟩
    · rintro ⟨route, hother, haction⟩
      obtain rfl : Route.record [0x78] = route := Option.some.inj (hroute.symm.trans hother)
      exact absurd haction (by decide)
    · rintro ⟨octets, hother, -, hkey⟩
      obtain rfl : [0x78] = octets := by simpa [hroute] using hother
      exact absurd hkey (by decide)
  · exact (errors_told s "" provider m.run m ⟨"DELETE", "/records/%FF", none, []⟩ (by decide)
      (by decide +kernel) (hidle _ (by decide +kernel))).2.2
      ⟨Target.ascii "%FF", by decide +kernel, by decide, by decide⟩

/-- A key that is no text, and a method that the path does not take: neither is told in an
object. -/
theorem errors_untold :
    let s := Settings.ofNames "records" "client" "pool"
    let provider : Provider := fun _ => .ok ⟨200, .null⟩
    ∀ r : Request, r = ⟨"GET", "/records/%FF", none, []⟩ ∨ r = ⟨"POST", "/health", none, []⟩ →
      let served := serveMemory s "" provider (Memory.empty "userId") r
      r.method ≠ "HEAD" ∧ 400 ≤ served.response.status ∧ ¬served.Relays provider ∧
        ¬served.response.IsError := by
  intro s provider r hr
  have hnone : (serveMemory s "" provider (Memory.empty "userId") r).response.contentType
      ≠ some "application/json" ∧
      (serveMemory s "" provider (Memory.empty "userId") r).calls.length = 0 ∧
      400 ≤ (serveMemory s "" provider (Memory.empty "userId") r).response.status := by
    rcases hr with rfl | rfl <;> decide +kernel
  refine ⟨by rcases hr with rfl | rfl <;> decide, hnone.2.2, ?_, fun herror => hnone.1 herror.1⟩
  rintro ⟨request, reply, hone, -⟩
  have hlength := hnone.2.1
  rw [hone] at hlength
  cases hlength

end RecordService.Http
