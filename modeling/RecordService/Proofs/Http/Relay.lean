import RecordService.Proofs.Http.ErrorBody
import RecordService.Proofs.Http.Frame
import RecordService.Proofs.Http.Refusal
import RecordService.Proofs.Http.Route
import RecordService.Proofs.Identity.Decode
/-!
# Identity requests

A request that names an identity operation by its path, and decodes as one of it, is handed to the
identity provider as it was decoded, once; any other request is not. The caller is told what the
provider replied, or in one fixed sentence that it did not. The store is not asked.
-/

namespace RecordService.Http

open Store
open Identity (Operation Provider)

/-! ## Paths -/

/-- The octets that the path of a route is written with. -/
def Route.path : Route → List UInt8
  | .health => Target.ascii "/health"
  | .records => Target.ascii "/records"
  | .record key => Target.ascii "/records/" ++ key
  | .identity operation => Target.ascii ("/identity/" ++ operationPath operation)

theorem Target.of_pieces {path : List UInt8} {ps : List (List UInt8)}
    (h : pieces path = some ps) : path = [0x2F].intercalate ([] :: ps) := by
  unfold pieces at h
  split at h
  · next rest hsplit =>
    obtain rfl : rest = ps := Option.some.inj h
    rw [← hsplit, List.intercalate_splitOn]
  · cases h

/-- Only its own path leads to a route. -/
theorem Route.path_of_ofPath? {path : List UInt8} {route : Route}
    (h : ofPath? path = some route) : path = route.path := by
  unfold ofPath? at h
  split at h
  · next name hpieces =>
    rw [Target.of_pieces hpieces]
    split at h
    · next hname => cases h; subst hname; rfl
    · split at h
      · next hname => cases h; subst hname; rfl
      · cases h
  · next scope name hpieces =>
    rw [Target.of_pieces hpieces]
    split at h
    · next hscope =>
      subst hscope
      split at h
      · cases h
      · cases h
        simp only [List.intercalate_cons_cons, List.intercalate_singleton]
        rfl
    · split at h
      · next hscope =>
        subst hscope
        obtain ⟨operation, hfind, rfl⟩ := Option.map_eq_some_iff.1 h
        obtain rfl : Target.ascii (operationPath operation) = name := by
          simpa using List.find?_some hfind
        cases operation <;> rfl
      · cases h
  · cases h

theorem Route.ofPath?_identity (operation : Operation) :
    ofPath? (Route.identity operation).path = some (.identity operation) := by
  cases operation <;> decide

/-! ## Requests -/

namespace Request

variable {s : Settings} {now : String} {r : Request} {operation : Operation}
  {request : Identity.Request}

/-- The body is announced as JSON, is not too long, and decodes to the identity request. -/
def Decodes (operation : Operation) (r : Request) (request : Identity.Request) : Prop :=
  r.contentType.any MediaType.isJson = true ∧ r.body.length ≤ bodyLimit ∧
    operation.Decodes r.body request

/-- The path begins with `/identity`. -/
def IsForIdentity (r : Request) : Prop :=
  Target.ascii "/identity" <+: (Target.ofText r.target).path

/-- The request is a `POST` to the path of the operation. -/
def IsFor (operation : Operation) (r : Request) : Prop :=
  r.method = "POST" ∧
    (Target.ofText r.target).path = Target.ascii ("/identity/" ++ Route.operationPath operation)

theorem isFor_iff :
    r.IsFor operation ↔ r.method = "POST" ∧ r.route? = some (.identity operation) := by
  refine and_congr_right fun _ => ⟨fun hpath => ?_, Route.path_of_ofPath?⟩
  rw [Request.route?, hpath]
  exact Route.ofPath?_identity operation

theorem isFor_of_action? {route : Route} (hroute : r.route? = some route)
    (haction : route.action? r.method = some (.identity operation)) : r.IsFor operation := by
  obtain rfl := Route.route_of_action? haction
  refine isFor_iff.2 ⟨?_, hroute⟩
  simp only [Action.route, Route.action?] at haction
  split at haction
  · assumption
  · cases haction

theorem identity_ok_iff : r.identity operation = .ok request ↔ r.Decodes operation request := by
  rw [identity, bind_eq_ok]
  constructor
  · rintro ⟨octets, hbody, h⟩
    obtain ⟨hkind, hlength, rfl⟩ := jsonBody_ok_iff.1 hbody
    split at h
    · next hread =>
      cases h
      exact ⟨hkind, hlength, Operation.read_ok_iff.1 hread⟩
    · cases h
  · rintro ⟨hkind, hlength, hdecodes⟩
    refine ⟨r.body, jsonBody_ok_iff.2 ⟨hkind, hlength, rfl⟩, ?_⟩
    rw [Operation.read_ok_iff.2 hdecodes]
    rfl

theorem refuses_identity (r : Request) (operation : Operation) :
    Refuses (r.identity operation) := by
  refine r.refuses_jsonBody.bind fun octets => ?_
  split
  · exact .ok _
  · exact .error rfl

/-- No path of a record begins so. -/
theorem IsForIdentity.not_asks (h : r.IsForIdentity) (c : Command) : ¬r.Asks s now c := by
  intro hc
  have hpath : ∀ route, r.route? = some route → Target.ascii "/identity" <+: route.path :=
    fun route hroute => Route.path_of_ofPath? hroute ▸ h
  rcases hc.isForRecords with hroute | ⟨key, hroute⟩
  · exact absurd (hpath _ hroute) (by decide)
  · obtain ⟨rest, hrest⟩ := hpath _ hroute
    simp [Route.path, Target.ascii] at hrest

end Request

/-! ## The service -/

/-- What the caller is told if the identity provider does not reply. -/
def Response.providerFailed : Response :=
  .json 502 (errorBody "the identity provider could not be reached")

/-- Only a request for an identity operation gets an identity request planned. -/
theorem Plan.ofAction_eq_identity {s : Settings} {now : String} {r : Request} {action : Action}
    {request : Identity.Request} (h : ofAction s now r action = .identity request) :
    ∃ operation, action = .identity operation := by
  have hcommand : ∀ x : Except Error Command, ofCommand x ≠ .identity request := by
    rintro (e | c) ⟨⟩
  have hkey : ∀ octets (plan : Key → Plan), (∀ key, plan key ≠ .identity request) →
      withKey s octets plan ≠ .identity request := by
    intro octets plan hplan
    unfold withKey
    split
    · exact hplan _
    · exact nofun
  cases action with
  | identity operation => exact ⟨operation, rfl⟩
  | health => cases h
  | scan | create => exact absurd h (hcommand _)
  | get octets | delete octets =>
    rw [ofAction] at h
    exact absurd h (hkey octets _ (by rintro key ⟨⟩))
  | update octets =>
    rw [ofAction] at h
    exact absurd h (hkey octets _ fun key => hcommand _)

section Serve
variable {σ : Type} {s : Settings} {now : String} {provider : Provider}
  {run : Command → Outcome × σ} {idle : σ} {r : Request} {operation : Operation}

theorem serve_decodes {request : Identity.Request} (hfor : r.IsFor operation)
    (h : r.Decodes operation request) : serve s now provider run idle r
      = ⟨.ofReply (provider request), [request], idle⟩ := by
  obtain ⟨hmethod, hroute⟩ := Request.isFor_iff.1 hfor
  have haction : (Route.identity operation).action? r.method = some (.identity operation) := by
    rw [hmethod]
    rfl
  unfold Request.route? at hroute
  simp only [serve, hroute, haction, Plan.ofAction, Request.identity_ok_iff.2 h]

theorem serve_undecoded (hfor : r.IsFor operation) (h : ∀ request, ¬r.Decodes operation request) :
    ∃ e : Error, e.status = 400 ∧ serve s now provider run idle r = ⟨.ofError e, [], idle⟩ := by
  obtain ⟨hmethod, hroute⟩ := Request.isFor_iff.1 hfor
  have haction : (Route.identity operation).action? r.method = some (.identity operation) := by
    rw [hmethod]
    rfl
  unfold Request.route? at hroute
  cases hidentity : r.identity operation with
  | ok request => exact absurd (Request.identity_ok_iff.1 hidentity) (h request)
  | error e =>
    refine ⟨e, r.refuses_identity operation e hidentity, ?_⟩
    simp only [serve, hroute, haction, Plan.ofAction, hidentity]
    rw [Response.forMethod_of_ne (by rw [hmethod]; decide)]

/-- Whoever asks for no identity operation makes no identity request. -/
theorem calls_serve (h : ∀ operation, ¬r.IsFor operation) :
    (serve s now provider run idle r).calls = [] := by
  unfold serve
  split
  · rfl
  · next route hroute =>
    split
    · rfl
    · next action haction =>
      split
      · rfl
      · rfl
      · next request hplan =>
        obtain ⟨operation, rfl⟩ := Plan.ofAction_eq_identity hplan
        exact absurd (Request.isFor_of_action? hroute haction) (h operation)

end Serve

/-- A `POST` to the path of an identity operation is refused with 400 if its body does not decode as
a request of it, and the identity provider is not asked. If it decodes, the provider is asked once
for just this request, of this operation, and the caller is told the provider's reply with its
status and its body, or the one sentence that there is none. No other request asks the provider, and
no request under `/identity` changes the store, whatever the store is. -/
theorem identity_relayed {σ : Type} (s : Settings) (now : String) (provider : Provider)
    (run : Command → Outcome × σ) (idle : σ) (r : Request) :
    let served := serve s now provider run idle r
    (∀ operation, r.IsFor operation →
      ((∀ request, ¬r.Decodes operation request) →
        served.calls = [] ∧ served.response.status = 400 ∧ served.response.IsError) ∧
      ∀ request, r.Decodes operation request →
        request.operation = operation ∧ served.calls = [request] ∧
        (∀ reply, provider request = .ok reply → 100 ≤ reply.status → reply.status < 1000 →
          served.response = .json reply.status reply.body) ∧
        ∀ e, provider request = .error e → served.response = .providerFailed) ∧
    ((∀ operation, ¬r.IsFor operation) → served.calls = []) ∧
    (r.IsForIdentity → served.store = idle) := by
  intro served
  refine ⟨fun operation hfor => ⟨fun hnone => ?_, fun request hdecodes => ?_⟩, calls_serve,
    fun h => serve_idle h.not_asks⟩
  · obtain ⟨e, hstatus, hserve⟩ : ∃ e : Error, e.status = 400 ∧ served = _ :=
      serve_undecoded hfor hnone
    rw [hserve]
    exact ⟨rfl, hstatus, Response.isError_ofError e⟩
  · have hserve : served = _ := serve_decodes hfor hdecodes
    obtain ⟨-, -, slots, -, hoperation, -⟩ := hdecodes
    rw [hserve]
    refine ⟨hoperation, rfl, fun reply hreply hlow hhigh => ?_, fun e herror => ?_⟩
    · rw [hreply, Response.ofReply, if_pos ⟨hlow, hhigh⟩]
    · rw [herror]
      rfl

/-- A registration under the second name of a field, and one that lacks a field. -/
theorem identity_relayed_registration :
    let s := Settings.ofNames "records" "client" "pool"
    let provider : Provider := fun _ => .ok ⟨418, .bool true⟩
    let m := Memory.empty "userId"
    let register (body : String) : Request :=
      ⟨"POST", "/identity/register", some "application/json", body.toUTF8.toList⟩
    let served (body : String) := serveMemory s "" provider m (register body)
    let whole := "\x7b\"password\":\"p\",\"phone_number\":\"1\",\"username\":\"u\"\x7d"
    (served whole).calls = [.register "u" "p" none (some "1")] ∧
      (served whole).response = .json 418 (.bool true) ∧
      (served "\x7b\"username\":\"u\"\x7d").calls = [] ∧
      (served "\x7b\"username\":\"u\"\x7d").response.status = 400 ∧
      (served whole).store = m := by
  intro s provider m register served whole
  have hfor : ∀ body, (register body).IsFor .register :=
    fun body => ⟨rfl, (by decide +kernel : (Target.ofText "/identity/register").path = _)⟩
  have hdecodes : (register whole).Decodes .register (.register "u" "p" none (some "1")) :=
    Request.identity_ok_iff.1 (toOption_eq_some.1 (by decide +kernel))
  have hlacks : ∀ request, ¬(register "\x7b\"username\":\"u\"\x7d").Decodes .register request := by
    intro request h
    have hnone : ((register "\x7b\"username\":\"u\"\x7d").identity .register).toOption = none := by
      decide +kernel
    rw [toOption_eq_some.2 (Request.identity_ok_iff.2 h)] at hnone
    cases hnone
  obtain ⟨hwhole, -, hstore⟩ := identity_relayed s "" provider m.run m (register whole)
  obtain ⟨-, hcalls, hreply, -⟩ := (hwhole .register (hfor whole)).2 _ hdecodes
  obtain ⟨hother, -, -⟩ :=
    identity_relayed s "" provider m.run m (register "\x7b\"username\":\"u\"\x7d")
  obtain ⟨hnone, hstatus, -⟩ := (hother .register (hfor _)).1 hlacks
  exact ⟨hcalls, hreply _ rfl (by decide) (by decide), hnone, hstatus,
    hstore ⟨Target.ascii "/register", by decide +kernel⟩⟩

end RecordService.Http
