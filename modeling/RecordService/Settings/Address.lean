import RecordService.Text.Hex
/-!
# Socket addresses

An address to listen on: an IPv4 address as four numbers, or an IPv6 address in brackets as eight
groups of which one run of zeros may be left out, with a port. Numbers of an IPv4 address have no
leading zeros; a port may have any.

`read?` wants the whole text. `text` writes the form with the longest run of at least two zero
groups left out, and the last 32 bits of a mapped IPv4 address as such.
-/

namespace RecordService.Settings

inductive Host where
  | v4 (a b c d : UInt8)
  /-- Eight groups, and the zone, zero for none. -/
  | v6 (groups : List UInt16) (zone : UInt32)
deriving DecidableEq, Repr

structure Address where
  host : Host
  port : UInt16
deriving DecidableEq, Repr

namespace Address

/-! ## Reading -/

/-- A reader takes what it reads from the front of the characters. -/
abbrev Reader (α : Type) := List Char → Option (α × List Char)

/-- The one character. -/
def char (c : Char) : Reader Unit
  | x :: rest => if x = c then some ((), rest) else none
  | [] => none

/-- The value of a digit in a radix up to sixteen. -/
def digit? (radix : Nat) (c : Char) : Option Nat :=
  if c.toNat < 0x80 then
    match Text.Hex.value? (UInt8.ofNat c.toNat) with
    | some n => if n < radix then some n else none
    | none => none
  else none

/-- The digits at the front. -/
def digits (radix : Nat) (cs : List Char) : List Nat × List Char :=
  (cs.map (digit? radix) |>.takeWhile Option.isSome |>.filterMap id,
    cs.dropWhile fun c => (digit? radix c).isSome)

/-- A number below `bound` of at most `width` digits. -/
def number (radix : Nat) (width : Option Nat) (leadingZeros : Bool) (bound : Nat) : Reader Nat :=
  fun cs =>
    let (ds, rest) := digits radix cs
    let n := ds.foldl (fun acc d => acc * radix + d) 0
    if ds.isEmpty ∨ (width.any (· < ds.length))
        ∨ (!leadingZeros ∧ ds.head? = some 0 ∧ 1 < ds.length) ∨ bound ≤ n then none
    else some (n, rest)

def octet : Reader Nat := number 10 (some 3) false 256

/-- Four numbers with points between them. -/
def v4? : Reader (Nat × Nat × Nat × Nat) := fun cs => do
  let (a, cs) ← octet cs
  let (_, cs) ← char '.' cs
  let (b, cs) ← octet cs
  let (_, cs) ← char '.' cs
  let (c, cs) ← octet cs
  let (_, cs) ← char '.' cs
  let (d, cs) ← octet cs
  pure ((a, b, c, d), cs)

/-- A reader after a colon, but for the first group. -/
def afterColon {α : Type} (first : Bool) (read : Reader α) : Reader α := fun cs =>
  if first then read cs else do
    let (_, cs) ← char ':' cs
    read cs

/-- At most `room` groups, the last two of which may be an IPv4 address, which then ends them: the
groups, whether they end so, and what follows. -/
def groups (first : Bool) : Nat → List Char → List Nat × Bool × List Char
  | 0, cs => ([], false, cs)
  | room + 1, cs =>
    match if room = 0 then none else afterColon first v4? cs with
    | some ((a, b, c, d), rest) => ([a * 256 + b, c * 256 + d], true, rest)
    | none =>
      match afterColon first (number 16 (some 4) true 0x10000) cs with
      | some (g, rest) =>
        let (gs, mapped, rest) := groups false room rest
        (g :: gs, mapped, rest)
      | none => ([], false, cs)

/-- The eight groups of an IPv6 address; `::` stands for at least one group of zero. -/
def v6? : Reader (List Nat) := fun cs =>
  let (head, mapped, cs) := groups true 8 cs
  if head.length = 8 then some (head, cs)
  else if mapped then none
  else do
    let (_, cs) ← char ':' cs
    let (_, cs) ← char ':' cs
    let (tail, _, cs) := groups true (7 - head.length) cs
    pure (head ++ List.replicate (8 - head.length - tail.length) 0 ++ tail, cs)

def portNumber : Reader Nat := fun cs => do
  let (_, cs) ← char ':' cs
  number 10 none true 65536 cs

/-- The zone after `%`; without one, or without a number, it is zero and nothing is read. -/
def zone (cs : List Char) : Nat × List Char :=
  match (do let (_, rest) ← char '%' cs; number 10 none true 0x100000000 rest) with
  | some (z, rest) => (z, rest)
  | none => (0, cs)

def socketV4? : Reader Address := fun cs => do
  let ((a, b, c, d), cs) ← v4? cs
  let (p, cs) ← portNumber cs
  pure (⟨.v4 (.ofNat a) (.ofNat b) (.ofNat c) (.ofNat d), .ofNat p⟩, cs)

def socketV6? : Reader Address := fun cs => do
  let (_, cs) ← char '[' cs
  let (gs, cs) ← v6? cs
  let (z, cs) := zone cs
  let (_, cs) ← char ']' cs
  let (p, cs) ← portNumber cs
  pure (⟨.v6 (gs.map .ofNat) (.ofNat z), .ofNat p⟩, cs)

/-- The address a text writes. -/
def read? (s : String) : Option Address :=
  match socketV4? s.toList <|> socketV6? s.toList with
  | some (a, []) => some a
  | _ => none

/-! ## Writing -/

def v4Text (a b c d : Nat) : String :=
  toString a ++ "." ++ toString b ++ "." ++ toString c ++ "." ++ toString d

/-- Groups with colons between them. -/
def groupsText (gs : List UInt16) : String :=
  String.intercalate ":" (gs.map fun g => String.ofList (Text.Hex.digits g.toNat))

/-- The length of the run of zeros at the front. -/
def zeros (gs : List UInt16) : Nat :=
  (gs.takeWhile (· == 0)).length

/-- The place and length of the first longest run of zeros. -/
def longestZeros (gs : List UInt16) : Nat × Nat :=
  (List.range gs.length).foldl (fun (start, length) i =>
    let n := zeros (gs.drop i)
    if length < n then (i, n) else (start, length)) (0, 0)

def v6Text (gs : List UInt16) : String :=
  match gs with
  | [0, 0, 0, 0, 0, 0xFFFF, g, h] =>
    "::ffff:" ++ v4Text (g.toNat / 256) (g.toNat % 256) (h.toNat / 256) (h.toNat % 256)
  | gs =>
    let (start, length) := longestZeros gs
    if 1 < length then groupsText (gs.take start) ++ "::" ++ groupsText (gs.drop (start + length))
    else groupsText gs

def text (a : Address) : String :=
  match a.host with
  | .v4 b c d e => v4Text b.toNat c.toNat d.toNat e.toNat ++ ":" ++ toString a.port.toNat
  | .v6 gs zone =>
    "[" ++ v6Text gs ++ (if zone = 0 then "" else "%" ++ toString zone.toNat) ++ "]:"
      ++ toString a.port.toNat

end Address

end RecordService.Settings
