import RecordService.Expression.Placeholder
/-!
# Tokens read back

The code of attribute names can be decoded: `decode_token` gives the name again, so two names never
share a token. A token holds ASCII letters, digits and `_` only, so it can imitate no mark of an
expression. `token_decodable` sums this up.
-/

namespace RecordService.Expression

/-! ## Hexadecimal digits -/

def digitValue (c : Char) : Nat :=
  if c.isDigit then c.toNat - 48 else c.toNat - 87

theorem digitValue_digitChar : ∀ d < 16, digitValue (Nat.digitChar d) = d := by
  decide

theorem isPlain_digitChar : ∀ d < 16, isPlain (Nat.digitChar d) = true := by
  decide

/-- The number that digits write, after the number `n` of the digits before them. -/
def readDigits (n : Nat) (ds : List Char) : Nat :=
  ds.foldl (fun n d => 16 * n + digitValue d) n

theorem digits_lt {n : Nat} (h : n < 16) : Text.Hex.digits n = [Nat.digitChar n] :=
  Nat.toDigits_of_lt_base h

theorem digits_ge {n : Nat} (h : 16 ≤ n) :
    Text.Hex.digits n = Text.Hex.digits (n / 16) ++ [Nat.digitChar (n % 16)] :=
  Nat.toDigits_of_base_le (by omega) h

theorem readDigits_digits (n : Nat) : readDigits 0 (Text.Hex.digits n) = n := by
  induction n using Nat.strongRecOn with
  | ind n ih =>
    rcases Nat.lt_or_ge n 16 with h | h
    · simp [digits_lt h, readDigits, digitValue_digitChar n h]
    · -- The digits before the last one are those of `n / 16`.
      have hmod : n % 16 < 16 := Nat.mod_lt n (by omega)
      have hdiv : readDigits 0 (Text.Hex.digits (n / 16)) = n / 16 := ih (n / 16) (by omega)
      rw [readDigits] at hdiv ⊢
      rw [digits_ge h, List.foldl_append, hdiv, List.foldl_cons, List.foldl_nil,
        digitValue_digitChar _ hmod]
      omega

theorem isPlain_of_mem_digits {n : Nat} {c : Char} (h : c ∈ Text.Hex.digits n) :
    isPlain c = true := by
  induction n using Nat.strongRecOn with
  | ind n ih =>
    rcases Nat.lt_or_ge n 16 with hn | hn
    · rw [digits_lt hn, List.mem_singleton] at h
      exact h ▸ isPlain_digitChar n hn
    · rw [digits_ge hn, List.mem_append, List.mem_singleton] at h
      rcases h with h | rfl
      · exact ih (n / 16) (by omega) h
      · exact isPlain_digitChar _ (Nat.mod_lt n (by omega))

/-! ## What a token is made of -/

theorem isPlain_underscore : isPlain '_' = false := by
  decide

/-- The code of a character is made of plain characters and `_`. -/
theorem mem_encodeChar {c d : Char} (h : d ∈ encodeChar c) : isPlain d = true ∨ d = '_' := by
  unfold encodeChar at h
  split at h
  · next hc => exact .inl (List.mem_singleton.1 h ▸ hc)
  · split at h
    · exact .inr (by simpa using h)
    · simp only [List.cons_append, List.mem_cons, List.mem_append, List.not_mem_nil, or_false] at h
      rcases h with h | h | h
      · exact .inr h
      · exact .inl (isPlain_of_mem_digits h)
      · exact .inr h

theorem mem_token {name : String} {d : Char} (h : d ∈ (token name).toList) :
    isPlain d = true ∨ d = '_' := by
  rw [token, String.toList_ofList, List.mem_flatMap] at h
  obtain ⟨c, -, hd⟩ := h
  exact mem_encodeChar hd

theorem not_mem_token {d : Char} (hp : isPlain d = false) (hu : d ≠ '_') (name : String) :
    d ∉ (token name).toList := fun h => by
  rcases mem_token h with h | h
  · exact absurd h (by simp [hp])
  · exact hu h

/-! ## Decoding -/

/-- Where the reader of a token stands. -/
inductive Place where
  | outside
  /-- After a `_` that may begin the code of a character. -/
  | opened
  /-- Inside the code of a character, after the digits of `n`. -/
  | within (n : Nat)

/-- The characters that the rest of a token stands for. -/
def decodeFrom : Place → List Char → List Char
  | _, [] => []
  | .outside, c :: cs => if c = '_' then decodeFrom .opened cs else c :: decodeFrom .outside cs
  | .opened, c :: cs =>
    if c = '_' then '_' :: decodeFrom .outside cs else decodeFrom (.within (digitValue c)) cs
  | .within n, c :: cs =>
    if c = '_' then Char.ofNat n :: decodeFrom .outside cs
    else decodeFrom (.within (16 * n + digitValue c)) cs

/-- The name that a token stands for. -/
def decode (token : String) : String :=
  String.ofList (decodeFrom .outside token.toList)

theorem decodeFrom_digits {ds : List Char} (h : '_' ∉ ds) (n : Nat) (cs : List Char) :
    decodeFrom (.within n) (ds ++ '_' :: cs)
      = Char.ofNat (readDigits n ds) :: decodeFrom .outside cs := by
  induction ds generalizing n with
  | nil => simp [decodeFrom, readDigits]
  | cons d ds ih =>
    obtain ⟨hd, hds⟩ : '_' ≠ d ∧ '_' ∉ ds := by simpa using h
    rw [List.cons_append, decodeFrom, if_neg (Ne.symm hd), ih hds]
    rfl

/-- The code of a code point, read from after its first `_`. -/
theorem decodeFrom_code (n : Nat) (cs : List Char) :
    decodeFrom .opened (Text.Hex.digits n ++ '_' :: cs)
      = Char.ofNat n :: decodeFrom .outside cs := by
  have hplain : '_' ∉ Text.Hex.digits n := fun h => by
    simpa [isPlain_underscore] using isPlain_of_mem_digits h
  have hread := readDigits_digits n
  -- The first digit stands where a second `_` would, so it is taken off.
  obtain ⟨d, ds, hds⟩ := List.exists_cons_of_ne_nil (Nat.toDigits_ne_nil (n := n) (b := 16))
  rw [show Text.Hex.digits n = d :: ds from hds] at hplain hread ⊢
  obtain ⟨hd, hds⟩ : '_' ≠ d ∧ '_' ∉ ds := by simpa using hplain
  rw [List.cons_append, decodeFrom, if_neg (Ne.symm hd), decodeFrom_digits hds]
  simpa [readDigits] using congrArg Char.ofNat hread

theorem decodeFrom_encodeChar (c : Char) (cs : List Char) :
    decodeFrom .outside (encodeChar c ++ cs) = c :: decodeFrom .outside cs := by
  unfold encodeChar
  split
  · next hc =>
    have hne : c ≠ '_' := fun h => by simp [h, isPlain_underscore] at hc
    rw [List.cons_append, decodeFrom, if_neg hne, List.nil_append]
  · split
    · next hc => subst hc; rfl
    · rw [List.cons_append, List.cons_append, List.append_assoc, decodeFrom, if_pos rfl,
        List.singleton_append, decodeFrom_code, Char.ofNat_toNat]

theorem decodeFrom_flatMap (cs : List Char) :
    decodeFrom .outside (cs.flatMap encodeChar) = cs := by
  induction cs with
  | nil => rfl
  | cons c cs ih => rw [List.flatMap_cons, decodeFrom_encodeChar, ih]

/-- A token reads back as its name. -/
theorem decode_token (name : String) : decode (token name) = name := by
  rw [decode, token, String.toList_ofList, decodeFrom_flatMap, String.ofList_toList]

/-- Two names never share a token. -/
theorem token_injective : Function.Injective token := fun name other h => by
  rw [← decode_token name, h, decode_token]

/-! ## Placeholders -/

/-- The placeholder of an attribute. -/
def nameAlias (name : String) : String := namePlaceholder (token name)

/-- The placeholder of an attribute's value. -/
def valueAlias (name : String) : String := valuePlaceholder (token name)

theorem nameAlias_injective : Function.Injective nameAlias := fun _ _ h =>
  token_injective ((String.append_right_inj _).1 h)

theorem valueAlias_injective : Function.Injective valueAlias := fun _ _ h =>
  token_injective ((String.append_right_inj _).1 h)

theorem toList_nameAlias (name : String) : (nameAlias name).toList = '#' :: (token name).toList :=
  String.toList_append

theorem toList_valueAlias (name : String) : (valueAlias name).toList = ':' :: (token name).toList :=
  String.toList_append

/-- No attribute shares its placeholder with a value. -/
theorem nameAlias_ne_valueAlias (name other : String) : nameAlias name ≠ valueAlias other := by
  intro h
  have hlist := congrArg String.toList h
  rw [toList_nameAlias, toList_valueAlias] at hlist
  cases hlist

/-! ## The code as a whole -/

/-- Each character is encoded by itself. -/
theorem token_append (name other : String) : token (name ++ other) = token name ++ token other := by
  rw [token, String.toList_append, List.flatMap_append, String.ofList_append]
  rfl

/-- Only the empty name has the empty token. -/
theorem token_eq_empty {name : String} : token name = "" ↔ name = "" :=
  token_injective.eq_iff' rfl

/-- Every name can be read back from its token, and the token of one name after another is the one
token after the other. A token holds ASCII letters, digits and `_` only, and is empty only for the
empty name. So names that differ have tokens and placeholders that differ, and no placeholder of a
name is one of a value. -/
theorem token_decodable (name other : String) :
    decode (token name) = name ∧
    token (name ++ other) = token name ++ token other ∧
    (∀ c ∈ (token name).toList, c.isAlphanum = true ∨ c = '_') ∧
    (token name = "" ↔ name = "") ∧
    (token name = token other ↔ name = other) ∧
    (namePlaceholder (token name) = namePlaceholder (token other) ↔ name = other) ∧
    (valuePlaceholder (token name) = valuePlaceholder (token other) ↔ name = other) ∧
    namePlaceholder (token name) ≠ valuePlaceholder (token other) :=
  ⟨decode_token name, token_append name other, fun _ h => mem_token h, token_eq_empty,
    token_injective.eq_iff, nameAlias_injective.eq_iff, valueAlias_injective.eq_iff,
    nameAlias_ne_valueAlias name other⟩

end RecordService.Expression
