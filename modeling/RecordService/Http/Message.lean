import RecordService.Http.Status
import RecordService.Json.Printer
/-!
# Requests and responses

A request as it comes in: method, target, the type its body is announced with, and the body's
octets. A response as it goes out.
-/

namespace RecordService.Http

structure Request where
  method : String
  target : String
  contentType : Option String
  body : List UInt8

structure Response where
  status : Nat
  contentType : Option String
  /-- The methods that a path allows, if the method was refused. -/
  allow : Option String
  body : String
deriving DecidableEq, Repr

namespace Response

def json (status : Nat) (body : Value) : Response :=
  ⟨status, some "application/json", none, body.text⟩

def ofError (e : Error) : Response := json e.status e.body

def healthy : Response := json 200 (.map [("status", .string "healthy")])

def notFound : Response := json 404 (errorBody "Not Found")

/-- The method is none of those that the path allows. -/
def methodRefused (allow : String) : Response := ⟨405, none, some allow, ""⟩

def badPathKey : Response :=
  ⟨400, some "text/plain; charset=utf-8", none, "Invalid URL: Invalid UTF-8 in `key`"⟩

/-- The same response without its body. -/
def bodiless (r : Response) : Response := { r with body := "" }

end Response

end RecordService.Http
