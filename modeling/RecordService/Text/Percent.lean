import RecordService.Text.Hex
import RecordService.Text.Utf8
/-!
# Percent-encoded text

Octets written as `%XX` in a path or a query. An escape that is not followed by two digits stands
for itself. A query is a list of pairs; its names and values are decoded as a form is: `+` is a
space, and octets that are no UTF-8 become U+FFFD.
-/

namespace RecordService.Text.Percent

/-- The octets with every complete escape replaced by the octet it stands for. -/
def decode : List UInt8 → List UInt8
  | 0x25 :: a :: b :: rest =>
    match Hex.value? a, Hex.value? b with
    | some hi, some lo => UInt8.ofNat (hi * 16 + lo) :: decode rest
    | _, _ => 0x25 :: decode (a :: b :: rest)
  | b :: rest => b :: decode rest
  | [] => []

/-- The octets with every one of them escaped. -/
def encode (bs : List UInt8) : List UInt8 :=
  bs.flatMap fun b => [0x25, Hex.octet (b.toNat / 16), Hex.octet (b.toNat % 16)]

/-- A name or a value of a query. -/
def formDecode (bs : List UInt8) : String :=
  String.ofList (Utf8.decodeLossy (decode (bs.map fun b => if b = 0x2B then 0x20 else b)))

/-- One piece of a query, split at its first `=`; without one, the value is empty. -/
def formPair (piece : List UInt8) : String × String :=
  (formDecode (piece.takeWhile (· ≠ 0x3D)), formDecode ((piece.dropWhile (· ≠ 0x3D)).drop 1))

/-- The pairs of a query, in order; empty pieces between `&` are skipped. -/
def formPairs (query : List UInt8) : List (String × String) :=
  ((query.splitOn 0x26).filter (!·.isEmpty)).map formPair

end RecordService.Text.Percent
