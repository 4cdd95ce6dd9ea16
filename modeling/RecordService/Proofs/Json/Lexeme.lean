import RecordService.Json.Lexeme
import RecordService.Proofs.Json.Quoted
/-!
# The first token of a text

A token stands at the head of what the octets are cut into, and the others are cut from what follows
it, if there are steps enough.
-/

namespace RecordService.Json

open Text.Utf8 (encode)

theorem lexemesFrom_seen (steps : Nat) (seen : List Lexeme) (bs : List UInt8) :
    lexemesFrom steps seen bs = seen.reverse ++ lexemesFrom steps [] bs := by
  induction steps generalizing seen bs with
  | zero => simp [lexemesFrom]
  | succ steps ih =>
    simp only [lexemesFrom]
    split
    · simp
    · split
      · rw [ih, ih [_]]
        simp
      · simp

/-- The first token is the one that begins after the blanks. -/
theorem lexemesFrom_first {b : UInt8} {bs tail after : List UInt8} {t : Token Quoted Scalar}
    (hdrop : bs.dropWhile isBlank = b :: tail) (ht : Token.ofOctet b tail = (t, some after))
    (steps : Nat) :
    lexemesFrom (steps + 1) [] bs = ⟨t, b :: tail, after⟩ :: lexemesFrom steps [] after := by
  rw [lexemesFrom, hdrop]
  simp only [ht]
  rw [lexemesFrom_seen]
  rfl

theorem lexemesFrom_token {b : UInt8} {bs after : List UInt8} {t : Token Quoted Scalar}
    (hblank : isBlank b = false) (ht : Token.ofOctet b bs = (t, some after)) (steps : Nat) :
    lexemesFrom (steps + 1) [] (b :: bs) = ⟨t, b :: bs, after⟩ :: lexemesFrom steps [] after :=
  lexemesFrom_first (List.dropWhile_cons_of_neg (by simp [hblank])) ht steps

theorem ofOctet_quote (s : String) (rest : List UInt8) :
    Token.ofOctet 0x22 (encode (s.toList.flatMap Value.escaped) ++ 0x22 :: rest)
      = (.text (.text s), some rest) := by
  have hmark : (Token.mark? 0x22 : Option (Token Quoted Scalar)) = none := by decide
  simp only [Token.ofOctet, hmark, if_pos, Token.ofQuoted, Quoted.read_quotedText]

end RecordService.Json
