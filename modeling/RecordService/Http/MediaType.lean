/-!
# Media types

A body is read as JSON if it is announced as `application/json`, or as an application type with the
suffix `json`. Types are compared without regard to case. The grammar is that of `type/subtype` and
parameters after `;`, each a name, `=`, and a token or a quoted value.
-/

namespace RecordService.Http.MediaType

/-- A character of a name or a value. -/
def isToken (c : Char) : Bool :=
  c.isAlphanum || "!#$%&'*+-.^_`|~".toList.contains c

/-- A value between quotes and what may follow it up to the next `;`. -/
def afterQuoted : List Char → Option (List Char)
  | ' ' :: cs => afterQuoted cs
  | ';' :: cs => some cs
  | [] => some []
  | _ => none

/-- What follows a quoted value, from after its first quote. A quote alone does not end an empty
value. -/
def quotedValue (isEmpty : Bool) : List Char → Option (List Char)
  | '"' :: cs => if isEmpty then quotedValue false cs else afterQuoted cs
  | c :: cs => if 0x20 ≤ c.toNat ∧ c ≠ '\x7f' then quotedValue false cs else none
  | [] => none

/-- What follows a value. -/
def value (isEmpty : Bool) : List Char → Option (List Char)
  | '"' :: cs => if isEmpty then quotedValue true cs else none
  | ';' :: cs => if isEmpty then none else some cs
  | c :: cs => if isToken c then value false cs else none
  | [] => some []

/-- What follows the name of a parameter and its `=`. -/
def name (isEmpty : Bool) : List Char → Option (List Char)
  | '=' :: cs => if isEmpty then none else some cs
  | c :: cs => if isToken c then name false cs else none
  | [] => none

/-- The parameters are well-formed. Each takes at least one character, so as many steps as there are
characters are enough. -/
def parametersOk : Nat → List Char → Bool
  | _, [] => true
  | 0, _ => false
  | steps + 1, ' ' :: cs => parametersOk steps cs
  | steps + 1, cs =>
    match (name true cs).bind (value true) with
    | some rest => parametersOk steps rest
    | none => false

/-- Splits at the last `+` that is not the first character. -/
def suffix? (subtype : List Char) : Option (List Char × List Char) :=
  match subtype with
  | [] => none
  | c :: cs =>
    match (cs.reverse.span (· ≠ '+')) with
    | (last, _ :: before) => some (c :: before.reverse, last.reverse)
    | (_, []) => none

/-- A subtype that stands for JSON. -/
def isJsonSubtype (subtype : List Char) : Bool :=
  match suffix? subtype with
  | some (before, suffix) => before == "json".toList || suffix == "json".toList
  | none => subtype == "json".toList

/-- The announced type stands for JSON. -/
def isJson (announced : String) : Bool :=
  let cs := announced.toList
  let visible := cs.all fun c => (0x20 ≤ c.toNat ∧ c.toNat < 0x7F) ∨ c = '\t'
  let kind := cs.takeWhile isToken
  match cs.dropWhile isToken with
  | '/' :: rest =>
    let subtype := rest.takeWhile isToken
    let lower := subtype.map Char.toLower
    let wellFormed := match rest.dropWhile isToken with
      | [] => true
      | ';' :: parameters => !subtype.isEmpty && parametersOk parameters.length parameters
      | _ => false
    visible && wellFormed && kind.map Char.toLower == "application".toList && isJsonSubtype lower
  | _ => false

end RecordService.Http.MediaType
