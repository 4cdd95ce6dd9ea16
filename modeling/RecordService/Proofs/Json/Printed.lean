import RecordService.Proofs.Json.Lexeme
import RecordService.Proofs.Json.Number
import RecordService.Proofs.Json.Spelling
import RecordService.Proofs.Value.Inside
/-!
# The tokens of what is printed

What the printer writes of a value is spelled by the tokens of one tree. There is more than one
reader of JSON: they agree on the marks and on where a token ends, and each has its own form for a
text and for a number. A number may go on in what follows it, so the tokens of a value are its own
only before the end or a mark.
-/

namespace RecordService

open Json
open Text.Utf8 (encode encode_append forall_octet)

/-! ## The tree of a value -/

/-- What texts and scalars are in the trees of a reader. -/
structure Json.Forms (τ σ : Type) where
  text : String → τ
  null : σ
  bool : Bool → σ
  number : Number → σ

namespace Value

section
variable {τ σ : Type} (f : Forms τ σ)

mutual

/-- The tree that is written of a value. -/
def treeIn : Value → Tree τ σ
  | .null => .scalar f.null
  | .bool b => .scalar (f.bool b)
  | .number n => .scalar (f.number n)
  | .string s => .text (f.text s)
  | .list xs => .list (itemTrees xs)
  | .map ms => .map (memberTrees ms)

def itemTrees : List Value → List (Tree τ σ)
  | [] => []
  | x :: xs => treeIn x :: itemTrees xs

def memberTrees : List (String × Value) → List (τ × Tree τ σ)
  | [] => []
  | (name, x) :: ms => (f.text name, treeIn x) :: memberTrees ms

end

theorem treeIn_list (xs : List Value) : (Value.list xs).treeIn f = .list (xs.map (treeIn f)) := by
  have hitems : itemTrees f xs = xs.map (treeIn f) := by
    induction xs with
    | nil => rfl
    | cons x xs ih => rw [itemTrees, ih, List.map_cons]
  rw [treeIn, hitems]

theorem treeIn_map (ms : Entries Value) :
    (Value.map ms).treeIn f = .map (ms.map fun e => (f.text e.1, e.2.treeIn f)) := by
  have hmembers : memberTrees f ms = ms.map fun e => (f.text e.1, e.2.treeIn f) := by
    induction ms with
    | nil => rfl
    | cons e ms ih => rw [memberTrees, ih, List.map_cons]
  rw [treeIn, hmembers]

end

/-- The forms that requests are read in. -/
def forms : Forms Quoted Scalar :=
  ⟨.text, .null, .bool, fun n => .number (.ofNumber n)⟩

/-- The tree of a value in a request. -/
def tree (v : Value) : Tree Quoted Scalar :=
  v.treeIn forms

/-- A member as it is written. -/
def memberTree (e : String × Value) : Quoted × Tree Quoted Scalar :=
  (.text e.1, e.2.tree)

theorem tree_list (xs : List Value) : (Value.list xs).tree = .list (xs.map tree) :=
  treeIn_list forms xs

theorem tree_map (ms : Entries Value) : (Value.map ms).tree = .map (ms.map memberTree) :=
  treeIn_map forms ms

end Value

namespace Json

/-! ## Tokens without blanks -/

section
variable {τ σ : Type}

/-- How the first token is taken: the octet that it begins with, and what follows that. -/
abbrev Lexer (τ σ : Type) := UInt8 → List UInt8 → Option (Token τ σ × List UInt8)

/-- The octets are just the tokens, one after another. -/
inductive Lexed (lexer : Lexer τ σ) : List UInt8 → List (Token τ σ) → Prop where
  | nil : Lexed lexer [] []
  | cons {b : UInt8} {bs after : List UInt8} {t : Token τ σ} {ts : List (Token τ σ)}
      (blank : isBlank b = false) (token : lexer b bs = some (t, after))
      (shorter : after.length ≤ bs.length) (rest : Lexed lexer after ts) :
      Lexed lexer (b :: bs) (t :: ts)

/-- Nothing follows, or a mark. -/
def IsParted (rest : List UInt8) : Prop :=
  ∀ b ∈ rest.head?, b ∈ ([0x5B, 0x5D, 0x7B, 0x7D, 0x2C, 0x3A] : List UInt8)

theorem isParted_nil : IsParted [] := nofun

theorem isParted_mark {b : UInt8} {t : Token τ σ} (h : Token.mark? b = some t)
    (rest : List UInt8) : IsParted (b :: rest) := by
  rintro _ ⟨⟩
  unfold Token.mark? at h
  grind

theorem isBlank_mark {b : UInt8} {t : Token τ σ} (h : Token.mark? b = some t) :
    isBlank b = false := by
  unfold Token.mark? at h
  grind [isBlank]

/-- The characters are the tokens, before the end or a mark. -/
def Makes (lexer : Lexer τ σ) (cs : List Char) (ts : List (Token τ σ)) : Prop :=
  ∀ ⦃rest us⦄, IsParted rest → Lexed lexer rest us → Lexed lexer (encode cs ++ rest) (ts ++ us)

/-- What stands for itself, whatever follows it. -/
structure Takes (lexer : Lexer τ σ) (f : Forms τ σ) : Prop where
  mark : ∀ {b t}, Token.mark? b = some t → ∀ rest, lexer b rest = some (t, rest)
  text : ∀ s rest, lexer 0x22 (encode (s.toList.flatMap Value.escaped) ++ 0x22 :: rest)
    = some (.text (f.text s), rest)
  null : ∀ rest, lexer 0x6E (0x75 :: 0x6C :: 0x6C :: rest) = some (.scalar f.null, rest)
  yes : ∀ rest, lexer 0x74 (0x72 :: 0x75 :: 0x65 :: rest) = some (.scalar (f.bool true), rest)
  no : ∀ rest,
    lexer 0x66 (0x61 :: 0x6C :: 0x73 :: 0x65 :: rest) = some (.scalar (f.bool false), rest)

namespace Takes

variable {lexer : Lexer τ σ} {f : Forms τ σ} (h : Takes lexer f) {rest : List UInt8}
  {us : List (Token τ σ)}
include h

theorem lexed_mark {b : UInt8} {t : Token τ σ} (ht : Token.mark? b = some t)
    (hrest : Lexed lexer rest us) : Lexed lexer (b :: rest) (t :: us) :=
  .cons (isBlank_mark ht) (h.mark ht rest) Nat.le.refl hrest

theorem lexed_text (hrest : Lexed lexer rest us) (s : String) :
    Lexed lexer (encode (Value.quotedText s) ++ rest) (.text (f.text s) :: us) := by
  have hcode := Value.encode_quotedText s []
  rw [List.append_nil] at hcode
  rw [hcode, List.cons_append, List.append_assoc, List.cons_append]
  refine .cons rfl (h.text s rest) ?_ hrest
  simp only [List.length_append, List.length_cons]
  omega

/-- What is written with commas between. -/
theorem separated {parts : List (List Char)} {tokens : List (List (Token τ σ))}
    (hparts : List.Forall₂ (Makes lexer) parts tokens) :
    Makes lexer ([','].intercalate parts) ([.comma].intercalate tokens) := by
  induction hparts with
  | nil => exact fun _ _ _ hrest => hrest
  | @cons part token parts tokens hpart hparts ih =>
    cases hparts with
    | nil => simpa using hpart
    | cons hnext hparts =>
      intro rest us hparted hrest
      rw [List.intercalate_cons_cons, List.intercalate_cons_cons, encode_append, encode_append,
        List.append_assoc, List.append_assoc, List.append_assoc, List.append_assoc]
      have hmark : Token.mark? 0x2C = some (.comma : Token τ σ) := rfl
      exact hpart (isParted_mark hmark _) (h.lexed_mark hmark (ih hparted hrest))

/-- What is written between two marks. -/
theorem between {cs : List Char} {ts : List (Token τ σ)} (hcs : Makes lexer cs ts)
    {first last : Char} {b e : UInt8} {t u : Token τ σ}
    (hfirst : String.utf8EncodeChar first = [b]) (hlast : String.utf8EncodeChar last = [e])
    (ht : Token.mark? b = some t) (hu : Token.mark? e = some u) :
    Makes lexer (first :: cs ++ [last]) (t :: (ts ++ [u])) := by
  intro rest us _ hrest
  have hcode : encode (first :: cs ++ [last]) ++ rest = b :: (encode cs ++ e :: rest) := by
    simp [encode, hfirst, hlast]
  rw [hcode, List.cons_append, List.append_assoc]
  exact h.lexed_mark ht (hcs (isParted_mark hu _) (h.lexed_mark hu hrest))

/-- A member is its name, a colon and its value. -/
theorem member {cs : List Char} {ts : List (Token τ σ)} (name : String) (hcs : Makes lexer cs ts) :
    Makes lexer (Value.quotedText name ++ ':' :: cs) (.text (f.text name) :: .colon :: ts) := by
  intro rest us hparted hrest
  have hcolon : Token.mark? 0x3A = some (.colon : Token τ σ) := rfl
  rw [encode_append, List.append_assoc]
  exact h.lexed_text (h.lexed_mark hcolon (hcs hparted hrest)) name

/-- What is written of a value is its tree, if its numbers are taken for what they are. -/
theorem makes_chars (v : Value) (hnumbers : ∀ n, Value.Inside (.number n) v →
    Makes lexer (Value.numberText n) [.scalar (f.number n)]) :
    Makes lexer v.chars (v.treeIn f).spelled := by
  induction v using Value.nested_induction with
  | null => exact fun rest us _ hrest => .cons rfl (h.null rest) (Nat.le_add_right _ 3) hrest
  | bool b =>
    cases b with
    | false => exact fun rest us _ hrest => .cons rfl (h.no rest) (Nat.le_add_right _ 4) hrest
    | true => exact fun rest us _ hrest => .cons rfl (h.yes rest) (Nat.le_add_right _ 3) hrest
  | number n =>
    rw [Value.chars_number]
    exact hnumbers n .self
  | string s =>
    rw [Value.chars_string]
    exact fun rest us _ hrest => h.lexed_text hrest s
  | list xs ih =>
    have hitems : List.Forall₂ (Makes lexer) (xs.map Value.chars)
        ((xs.map (Value.treeIn f)).map Tree.spelled) := by
      rw [List.map_map, List.forall₂_map_left_iff, List.forall₂_map_right_iff, List.forall₂_same]
      exact fun x hx => ih x hx fun n hn => hnumbers n (.item hx hn)
    rw [Value.chars_list, Value.treeIn_list, Tree.spelled_list]
    exact h.between (h.separated hitems) rfl rfl rfl rfl
  | map ms ih =>
    have hmembers : List.Forall₂ (Makes lexer) (ms.map Value.memberChars)
        ((ms.map fun e => (f.text e.1, e.2.treeIn f)).map Tree.memberSpelled) := by
      rw [List.map_map, List.forall₂_map_left_iff, List.forall₂_map_right_iff, List.forall₂_same]
      exact fun e he => h.member e.1 (ih e he fun n hn => hnumbers n (.member he hn))
    rw [Value.chars_map, Value.treeIn_map, Tree.spelled_map]
    exact h.between (h.separated hmembers) rfl rfl rfl rfl

/-- All of what is written of a value are the tokens of its tree. -/
theorem lexed_chars (v : Value) (hnumbers : ∀ n, Value.Inside (.number n) v →
    Makes lexer (Value.numberText n) [.scalar (f.number n)]) :
    Lexed lexer (encode v.chars) (v.treeIn f).spelled := by
  have hlexed := h.makes_chars v hnumbers isParted_nil .nil
  rwa [List.append_nil, List.append_nil] at hlexed

end Takes

end

/-! ## The reader of requests -/

/-- The first token, unless it is the last one because it breaks off. -/
def Token.first? : Lexer Quoted Scalar :=
  fun b bs => (ofOctet b bs).2.map fun after => ((ofOctet b bs).1, after)

theorem Token.first?_eq_some {b : UInt8} {bs after : List UInt8} {t : Token Quoted Scalar} :
    Token.first? b bs = some (t, after) ↔ Token.ofOctet b bs = (t, some after) := by
  simp only [Token.first?, Option.map_eq_some_iff, Prod.ext_iff]
  constructor
  · rintro ⟨_, h, ht, rfl⟩
    exact ⟨ht, h⟩
  · rintro ⟨ht, h⟩
    exact ⟨after, h, ht, rfl⟩

/-- As many steps as there are octets are enough. -/
theorem Lexed.lexemesFrom {bs : List UInt8} {ts : List (Token Quoted Scalar)}
    (h : Lexed Token.first? bs ts) {steps : Nat} (hsteps : bs.length ≤ steps) :
    (lexemesFrom steps [] bs).map (·.token) = ts := by
  induction h generalizing steps with
  | nil => cases steps <;> rfl
  | cons blank token shorter rest ih =>
    rw [List.length_cons] at hsteps
    obtain ⟨steps, rfl⟩ := Nat.exists_eq_add_of_le' (Nat.le_trans (Nat.le_add_left 1 _) hsteps)
    rw [lexemesFrom_token blank (Token.first?_eq_some.1 token), List.map_cons, ih (by omega)]

/-- No number goes on in a mark. -/
theorem IsParted.stops {rest : List UInt8} (h : IsParted rest) : Literal.Stops rest := by
  intro b hb
  have hmarks : ∀ b : UInt8, b ∈ [0x5B, 0x5D, 0x7B, 0x7D, 0x2C, 0x3A] →
      isDigit b = false ∧ b ≠ 0x2E ∧ b ≠ 0x65 ∧ b ≠ 0x45 :=
    Text.Utf8.forall_octet (by decide +kernel)
  exact hmarks b (h b hb)

theorem takes_first : Takes Token.first? Value.forms where
  mark ht rest := Token.first?_eq_some.2 (by rw [Token.ofOctet, ht])
  text s rest := Token.first?_eq_some.2 (ofOctet_quote s rest)
  null _ := rfl
  yes _ := rfl
  no _ := rfl

/-- What begins with a sign or a digit is a number. -/
theorem ofOctet_number {b : UInt8} (h : b = 0x2D ∨ isDigit b = true) (bs : List UInt8) :
    isBlank b = false ∧ Token.ofOctet b bs = Token.ofNumber (b :: bs) := by
  have hoctets : ∀ b : UInt8, b = 0x2D ∨ isDigit b = true → isBlank b = false ∧ b ≠ 0x22 ∧
      (Token.mark? b : Option (Token Quoted Scalar)) = none :=
    forall_octet (by decide +kernel)
  obtain ⟨hblank, hquote, hmark⟩ := hoctets b h
  refine ⟨hblank, ?_⟩
  rw [Token.ofOctet, hmark]
  exact (if_neg hquote).trans (if_pos h)

/-- A number is its literal. -/
theorem makes_number (n : Number) :
    Makes Token.first? (Value.numberText n) [.scalar (Value.forms.number n)] := by
  intro rest us hrest h
  have hread := Literal.read_text (Literal.wellFormed_ofNumber n) hrest.stops
  obtain ⟨b, tail, hcode, hb⟩ := Literal.exists_first_text (Literal.wellFormed_ofNumber n)
  rw [Literal.text_ofNumber] at hread hcode
  rw [hcode, List.cons_append] at hread ⊢
  obtain ⟨hblank, hnumber⟩ := ofOctet_number hb (tail ++ rest)
  refine .cons hblank (Token.first?_eq_some.2 ?_) (by simp) h
  rw [hnumber, Token.ofNumber, hread]
  rfl

/-- The tokens of what is printed. -/
theorem tokens_chars (v : Value) : tokens (encode v.chars) = v.tree.spelled :=
  (takes_first.lexed_chars v fun n _ => makes_number n).lexemesFrom Nat.le.refl

end Json

end RecordService
