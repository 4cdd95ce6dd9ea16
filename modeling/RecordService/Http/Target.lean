import RecordService.Text.Percent
/-!
# Request targets

The target of a request is a path with a query, or a whole URI of which the scheme and the authority
are dropped; what follows `#` is dropped too. Paths are matched as they are written; a key is
decoded after the match.
-/

namespace RecordService.Http

structure Target where
  path : List UInt8
  query : List UInt8
deriving DecidableEq, Repr

namespace Target

/-- The octets of an ASCII text. -/
def ascii (s : String) : List UInt8 := s.toList.map fun c => UInt8.ofNat c.toNat

def isAuthority (b : UInt8) : Bool := b != 0x2F && b != 0x3F && b != 0x23

/-- What follows the scheme and `://`, if there is a scheme. -/
def afterScheme? (bs : List UInt8) : Option (List UInt8) :=
  match bs.dropWhile (fun b => b != 0x3A && b != 0x2F) with
  | 0x3A :: 0x2F :: 0x2F :: rest => some rest
  | _ => none

/-- The path and query of octets that start with the path. -/
def ofPath (bs : List UInt8) : Target :=
  let whole := bs.takeWhile (· != 0x23)
  ⟨whole.takeWhile (· != 0x3F), (whole.dropWhile (· != 0x3F)).drop 1⟩

/-- The target a text writes. A URI without a path has the path `/`; a bare authority has none. -/
def ofText (s : String) : Target :=
  let bs := Text.Utf8.encode s.toList
  match bs with
  | 0x2F :: _ => ofPath bs
  | [0x2A] => ⟨[0x2A], []⟩
  | _ =>
    match afterScheme? bs with
    | some rest =>
      let t := ofPath (rest.dropWhile isAuthority)
      { t with path := if t.path.isEmpty then [0x2F] else t.path }
    | none => ⟨[], []⟩

/-- The parameters of the query, in order. -/
def parameters (t : Target) : List (String × String) :=
  Text.Percent.formPairs t.query

/-- The pieces of a path between its slashes; a path starts with one. -/
def pieces (path : List UInt8) : Option (List (List UInt8)) :=
  match path.splitOn 0x2F with
  | [] :: rest => some rest
  | _ => none

end Target

end RecordService.Http
