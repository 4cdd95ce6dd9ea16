import RecordService.Http.Plan
import RecordService.Identity.Provider
import RecordService.Store.Memory
import RecordService.Store.Remote
/-!
# The service

A request is answered by its plan: by the plan's own answer, by what one store command came to, or
by what the identity provider replied to one request. What is shown of a record is its projection.
The service is the same over every store; `serveMemory` and `serveRemote` are the two in use.
-/

namespace RecordService.Http

open Store
open Identity (Provider)

/-- A response, the requests made to the identity provider for it, and what became of the store. -/
structure Served (σ : Type) where
  response : Response
  calls : List Identity.Request
  store : σ

namespace Response

/-- A record as it is shown. -/
def shown (s : Settings) (r : Record) : Value :=
  (r.project s.projection).toValue

/-- What is shown of a command that was carried out: what it wrote, or what it read. -/
def ofAnswer (s : Settings) : Command → Answer → Value
  | .create r, _ => shown s r
  | .update u, _ => shown s ⟨u.key, u.assignments⟩
  | .delete key, _ => shown s ⟨key, []⟩
  | _, .record r => shown s r
  | _, .records rs => .list (rs.map (shown s))
  | _, .done => .null

/-- The response to what a command came to. -/
def ofOutcome (s : Settings) (c : Command) : Outcome → Response
  | .ok answer => json 200 (ofAnswer s c answer)
  | .error e => ofError (.store e)

/-- The response to what the identity provider replied, with its status if it is one. -/
def ofReply : Except IdentityError Identity.Reply → Response
  | .ok reply =>
    json (if 100 ≤ reply.status ∧ reply.status < 1000 then reply.status else 502) reply.body
  | .error e => ofError (.identity e)

/-- The response to a method: none to `HEAD` has a body. -/
def forMethod (method : String) (r : Response) : Response :=
  if method = "HEAD" then r.bodiless else r

end Response

/-- Answers a request that came in `now`, over a store that is asked by `run`, and stays `idle` if
it is not. -/
def serve {σ : Type} (s : Settings) (now : String) (provider : Provider)
    (run : Command → Outcome × σ) (idle : σ) (r : Request) : Served σ :=
  match Route.ofPath? (Target.ofText r.target).path with
  | none => ⟨.notFound, [], idle⟩
  | some route =>
    match route.action? r.method with
    | none => ⟨.methodRefused route.allowed, [], idle⟩
    | some action =>
      match Plan.ofAction s now r action with
      | .answer response => ⟨response.forMethod r.method, [], idle⟩
      | .command c =>
        let (outcome, store) := run c
        ⟨(Response.ofOutcome s c outcome).forMethod r.method, [], store⟩
      | .identity request => ⟨.ofReply (provider request), [request], idle⟩

/-- Answers a request over a store in memory. -/
def serveMemory (s : Settings) (now : String) (provider : Provider) (m : Memory) (r : Request) :
    Served Memory :=
  serve s now provider m.run m r

/-- Answers a request over a store in a remote table; the requests to the table are what becomes of
it. -/
def serveRemote (s : Settings) (now : String) (provider : Provider) (m : Remote)
    (deliveries : List Table.Delivery) (r : Request) : Served (List Table.Request) :=
  serve s now provider (m.exchange deliveries) [] r

end RecordService.Http
