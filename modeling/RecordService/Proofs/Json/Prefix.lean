import RecordService.Proofs.Json.Grammar
/-!
# The object that a text begins with

It is read the same whatever follows it. Only a number can go on in the octets that follow, and an
object ends with a mark.
-/

namespace RecordService.Json

/-! ## Numbers -/

namespace Literal

section Local
variable {α β : Type}

/-- Unless the reader takes all octets there are, it takes the same ones whatever follows them. -/
structure IsLocal (read : List UInt8 → Except Break (α × List UInt8)) : Prop where
  nil {x : α} {rest : List UInt8} (h : read [] = .ok (x, rest)) : rest = []
  append {bs : List UInt8} {x : α} {rest : List UInt8} (h : read bs = .ok (x, rest))
    (hrest : rest ≠ []) (more : List UInt8) : read (bs ++ more) = .ok (x, rest ++ more)

variable {f : List UInt8 → Except Break (α × List UInt8)}

theorem IsLocal.map (hf : IsLocal f) (g : α → β) :
    IsLocal fun bs => (f bs).map fun p => (g p.1, p.2) where
  nil h := by
    obtain ⟨⟨a, rest⟩, ha, h⟩ := map_eq_ok.1 h
    cases h
    exact hf.nil ha
  append h hrest more := by
    obtain ⟨⟨a, rest⟩, ha, h⟩ := map_eq_ok.1 h
    cases h
    exact map_eq_ok.2 ⟨_, hf.append ha hrest more, rfl⟩

theorem IsLocal.bind (hf : IsLocal f) {g : α → List UInt8 → Except Break (β × List UInt8)}
    (hg : ∀ a, IsLocal (g a)) : IsLocal fun bs => f bs >>= fun p => g p.1 p.2 where
  nil h := by
    obtain ⟨⟨a, rest⟩, ha, h⟩ := bind_eq_ok.1 h
    obtain rfl := hf.nil ha
    exact (hg a).nil h
  append h hrest more := by
    obtain ⟨⟨a, middle⟩, ha, h⟩ := bind_eq_ok.1 h
    have hmiddle : middle ≠ [] := by
      rintro rfl
      exact hrest ((hg a).nil h)
    exact bind_eq_ok.2 ⟨_, hf.append ha hmiddle more, (hg a).append h hrest more⟩

theorem isLocal_pure (a : α) : IsLocal fun bs => (pure (a, bs) : Except Break _) where
  nil h := by
    cases h
    rfl
  append h _ more := by
    cases h
    rfl

end Local

theorem digitRun_append {bs : List UInt8} (h : (digitRun bs).2 ≠ []) (more : List UInt8) :
    digitRun (bs ++ more) = ((digitRun bs).1, (digitRun bs).2 ++ more) := by
  have hlength : (bs.takeWhile isDigit).length ≠ bs.length := by
    intro hall
    have hsplit : (bs.takeWhile isDigit).length + (bs.dropWhile isDigit).length = bs.length := by
      rw [← List.length_append, List.takeWhile_append_dropWhile]
    exact h (List.length_eq_zero_iff.1 (Nat.left_eq_add.1 (hall.trans hsplit.symm)))
  rw [digitRun, List.takeWhile_append, if_neg hlength, List.dropWhile_append,
    if_neg (by simpa [digitRun] using h)]
  rfl

theorem isLocal_readDigits : IsLocal readDigits where
  nil h := by cases h
  append h hrest more := by
    obtain ⟨hrun, hne⟩ := readDigits_eq_ok.1 h
    rw [readDigits_eq_ok, digitRun_append (by rwa [hrun]), hrun]
    exact ⟨rfl, hne⟩

theorem isLocal_readWhole : IsLocal readWhole where
  nil h := by cases h
  append {bs ds rest} h hrest more := by
    unfold readWhole at h
    split at h
    · cases h
    · next d bs =>
      split at h
      · cases h
      · next hd =>
        cases h
        exact if_neg hd
    · next b bs hzero =>
      split at h
      · next hb =>
        have hrun : digitRun (b :: bs) = (ds, rest) := Except.ok.inj h
        -- A zero that nothing follows leaves nothing.
        have hne : b ≠ 0x30 := by
          rintro rfl
          cases bs with
          | nil => exact hrest (Prod.mk.inj hrun).2.symm
          | cons d bs => exact hzero d bs rfl rfl
        have happend : digitRun (b :: bs ++ more) = _ := digitRun_append (by rwa [hrun]) more
        rw [hrun] at happend
        rw [List.cons_append, readWhole, if_pos hb]
        · exact congrArg Except.ok happend
        · intro _ _ hb _
          exact hne hb
      · cases h

/-- Octets that do not begin with `c` do not, whatever follows them. -/
theorem append_ne_cons {bs : List UInt8} {c : UInt8} (hne : bs ≠ [])
    (h : ∀ tail, bs = c :: tail → False) (more tail : List UInt8) (heq : bs ++ more = c :: tail) :
    False := by
  cases bs with
  | nil => exact hne rfl
  | cons b bs =>
    obtain ⟨rfl, -⟩ := List.cons.inj heq
    exact h bs rfl

theorem isLocal_readFraction : IsLocal readFraction where
  nil h := by
    cases h
    rfl
  append {bs ds rest} h hrest more := by
    unfold readFraction at h
    split at h
    · exact (isLocal_readDigits.map some).append h hrest more
    · next hpoint =>
      cases h
      rw [readFraction]
      exact append_ne_cons hrest hpoint more

theorem isLocal_readPower (negative : Bool) : IsLocal (readPower negative) :=
  isLocal_readDigits.map fun digits =>
    let n : Int := Nat.ofDigitChars 10 digits 0
    some (if negative then -n else n)

theorem isLocal_readExponent : IsLocal readExponent where
  nil h := by
    cases h
    rfl
  append {bs n rest} h hrest more := by
    unfold readExponent at h
    split at h
    · cases h
      exact absurd rfl hrest
    · next b bs =>
      split at h
      · next he =>
        split at h
        · rw [List.cons_append, List.cons_append, readExponent, if_pos he]
          exact (isLocal_readPower false).append h hrest more
        · rw [List.cons_append, List.cons_append, readExponent, if_pos he]
          exact (isLocal_readPower true).append h hrest more
        · next hplus hminus =>
          have hne : bs ≠ [] := by
            rintro rfl
            cases h
          rw [List.cons_append, readExponent, if_pos he]
          · exact (isLocal_readPower false).append h hrest more
          · exact append_ne_cons hne hplus more
          · exact append_ne_cons hne hminus more
      · next he =>
        cases h
        unfold readExponent
        exact if_neg he

theorem isLocal_readUnsigned (negative : Bool) : IsLocal (readUnsigned negative) :=
  isLocal_readWhole.bind fun _ => isLocal_readFraction.bind fun _ =>
    isLocal_readExponent.bind fun _ => isLocal_pure _

theorem isLocal_read : IsLocal read where
  nil h := by
    obtain ⟨_, h, -⟩ := bind_eq_ok.1 h
    cases h
  append {bs l rest} h hrest more := by
    unfold read at h
    split at h
    · exact (isLocal_readUnsigned true).append h hrest more
    · next hminus =>
      have hne : bs ≠ [] := by
        rintro rfl
        obtain ⟨_, h, -⟩ := bind_eq_ok.1 h
        cases h
      rw [read]
      · exact (isLocal_readUnsigned false).append h hrest more
      · exact append_ne_cons hne hminus more

end Literal

/-! ## Words and texts -/

theorem readWord_append {word bs rest : List UInt8} (h : readWord word bs = .ok rest)
    (more : List UInt8) : readWord word (bs ++ more) = .ok (rest ++ more) := by
  induction word generalizing bs with
  | nil =>
    cases h
    rfl
  | cons w word ih =>
    cases bs with
    | nil => cases h
    | cons b bs =>
      rw [readWord] at h
      rw [List.cons_append, readWord]
      split at h
      · next hb =>
        rw [if_pos hb]
        exact ih h
      · cases h

namespace Quoted

theorem readFrom_append {mode : Mode} {seen bs out rest : List UInt8}
    (h : readFrom mode seen bs = .ok (out, rest)) (more : List UInt8) :
    readFrom mode seen (bs ++ more) = .ok (out, rest ++ more) := by
  induction bs generalizing mode seen with
  | nil => cases h
  | cons b bs ih =>
    rw [readFrom] at h
    rw [List.cons_append, readFrom]
    split at h
    · cases h
      rfl
    · exact ih h
    · cases h

theorem read_append {s : String} {bs rest : List UInt8} (h : read bs = .ok (s, rest))
    (more : List UInt8) : read (bs ++ more) = .ok (s, rest ++ more) := by
  obtain ⟨⟨octets, after⟩, hread, h⟩ := bind_eq_ok.1 h
  refine bind_eq_ok.2 ⟨_, readFrom_append hread more, ?_⟩
  dsimp only at h ⊢
  split at h
  · cases h
    rfl
  · cases h

end Quoted

/-! ## Tokens -/

namespace Token

variable {b : UInt8} {bs after : List UInt8} {t : Token Quoted Scalar}

/-- The token goes on if further octets follow. -/
def isOpen : Token Quoted Scalar → Bool
  | .scalar (.number _) => true
  | _ => false

theorem ofWord_append {scalar : Scalar} {word : List UInt8}
    (h : ofWord scalar word bs = (t, some after)) (more : List UInt8) :
    ofWord scalar word (bs ++ more) = (t, some (after ++ more)) := by
  unfold ofWord at h
  split at h
  · next hword =>
    cases h
    rw [ofWord, readWord_append hword]
  · cases h

theorem ofNumber_append (h : ofNumber bs = (t, some after)) (hafter : t.isOpen = true → after ≠ [])
    (more : List UInt8) : ofNumber (bs ++ more) = (t, some (after ++ more)) := by
  unfold ofNumber at h
  split at h
  · next hread =>
    cases h
    rw [ofNumber, Literal.isLocal_read.append hread (hafter rfl)]
  · cases h

theorem ofQuoted_append (h : ofQuoted bs = (t, some after)) (ht : t.isReadable = true)
    (more : List UInt8) : ofQuoted (bs ++ more) = (t, some (after ++ more)) := by
  unfold ofQuoted at h
  split at h
  · next hread =>
    cases h
    rw [ofQuoted, Quoted.read_append hread]
  · split at h <;> cases h
    cases ht

/-- A readable token is the same whatever follows, unless it is a number at the end of the
octets. -/
theorem ofOctet_append (h : ofOctet b bs = (t, some after)) (ht : t.isReadable = true)
    (hafter : t.isOpen = true → after ≠ []) (more : List UInt8) :
    ofOctet b (bs ++ more) = (t, some (after ++ more)) := by
  unfold ofOctet at h ⊢
  split at h
  · cases h
    rfl
  · split at h
    · next hb =>
      rw [if_pos hb]
      exact ofQuoted_append h ht more
    · next hb =>
      rw [if_neg hb]
      split at h
      · next hb =>
        rw [if_pos hb]
        exact ofNumber_append h hafter more
      · next hb =>
        rw [if_neg hb]
        split at h
        · next hb =>
          rw [if_pos hb]
          exact ofWord_append h more
        · next hb =>
          rw [if_neg hb]
          split at h
          · next hb =>
            rw [if_pos hb]
            exact ofWord_append h more
          · next hb =>
            rw [if_neg hb]
            split at h
            · next hb =>
              rw [if_pos hb]
              exact ofWord_append h more
            · cases h

end Token

/-- Readable tokens that come first are the same whatever follows the text, if the last of them does
not go on. -/
theorem lexemesFrom_append {steps : Nat} {bs : List UInt8} {used rest : List Lexeme}
    (h : lexemesFrom steps [] bs = used ++ rest) (hused : ∀ x ∈ used, x.token.isReadable = true)
    (hlast : ∀ x ∈ used.getLast?, x.token.isOpen = false) (more : List UInt8) (extra : Nat) :
    ∃ later, (lexemesFrom (steps + extra) [] (bs ++ more)).map (·.token)
      = used.map (·.token) ++ later := by
  induction used generalizing steps bs with
  | nil => exact ⟨_, rfl⟩
  | cons x used ih =>
    obtain ⟨hx, hothers⟩ := List.forall_mem_cons.1 hused
    obtain ⟨steps, b, tail, rfl, hdrop, htoken, hlater⟩ := lexemesFrom_cons h hx
    have hafter : x.token.isOpen = true → x.after ≠ [] := by
      intro hopen hnil
      cases used with
      | nil => exact absurd (hlast x rfl) (by simp [hopen])
      | cons y used =>
        obtain ⟨_, _, _, -, hdrop, -⟩ :=
          lexemesFrom_cons hlater (hothers y List.mem_cons_self)
        rw [hnil] at hdrop
        cases hdrop
    have hdropAppend : (bs ++ more).dropWhile isBlank = b :: (tail ++ more) := by
      rw [List.dropWhile_append, hdrop]
      rfl
    have hfirst := lexemesFrom_first hdropAppend (Token.ofOctet_append htoken hx hafter more)
      (steps + extra)
    obtain ⟨later, hrest⟩ := ih hlater hothers fun y hy => hlast y (by
      cases used with
      | nil => cases hy
      | cons z used => rwa [List.getLast?_cons_cons])
    refine ⟨later, ?_⟩
    rw [Nat.add_right_comm, hfirst, List.map_cons, hrest]
    rfl

/-! ## Values -/

namespace Reader

variable {inner : String → Except Fault Value} {frames : List Frame} {position : Position}

theorem toOption_enter (frames : List Frame) (position : Position) (x y : Lexeme) :
    (enter frames position x).toOption = (enter frames position y).toOption := by
  unfold enter
  split <;> rfl

section Place
variable {x y : Lexeme} (h : x.token = y.token)
include h

theorem toOption_beginValue :
    (beginValue frames x).toOption = (beginValue frames y).toOption := by
  unfold beginValue
  rw [h]
  split
  · exact toOption_enter ..
  · exact toOption_enter ..
  · split <;> rfl

theorem toOption_readName : (readName x).toOption = (readName y).toOption := by
  unfold readName
  rw [h]
  split <;> rfl

theorem toOption_readEmbedded (path : List Place) :
    (readEmbedded inner path x).toOption = (readEmbedded inner path y).toOption := by
  unfold readEmbedded
  rw [h]
  split
  · rfl
  · split <;> rfl

/-- Where a token stands matters only for the fault, if it is not taken. -/
theorem toOption_advance :
    (advance inner frames position x).toOption = (advance inner frames position y).toOption := by
  unfold advance
  rw [h]
  dsimp only
  -- One case for each row of the reader: the two that read a text, those that begin a value, and
  -- the others, which do not look at the place.
  split
  case h_10 | h_12 => exact toOption_bind (toOption_readName h) _
  case h_20 => exact toOption_bind (toOption_readEmbedded h _) _
  case h_1 | h_3 | h_8 => exact toOption_beginValue h
  all_goals rfl

end Place

theorem advance_of_token {x y : Lexeme} (h : x.token = y.token) {p : Progress}
    (hadvance : advance inner frames position y = .ok p) :
    advance inner frames position x = .ok p := by
  rw [← toOption_eq_some, toOption_advance h, toOption_eq_some]
  exact hadvance

/-- A value is read from whatever begins with the tokens that it was read from. -/
theorem readFrom_of_tokens {xs rest : List Lexeme} {v : Value}
    (h : readFrom inner frames position xs = .ok (v, rest)) :
    ∃ used, xs = used ++ rest ∧
      ∀ ys later, ys.map (·.token) = used.map (·.token) ++ later →
        ∃ others, readFrom inner frames position ys = .ok (v, others) := by
  induction xs generalizing frames position with
  | nil => cases h
  | cons x xs ih =>
    rw [readFrom] at h
    split at h
    · cases h
    · next hadvance =>
      cases h
      refine ⟨[x], rfl, fun ys later hys => ?_⟩
      obtain ⟨y, ys, rfl, hy, -⟩ := List.map_eq_cons_iff.1 hys
      exact ⟨ys, by rw [readFrom, advance_of_token hy hadvance]⟩
    · next hadvance =>
      obtain ⟨used, rfl, hused⟩ := ih h
      refine ⟨x :: used, rfl, fun ys later hys => ?_⟩
      obtain ⟨y, ys, rfl, hy, hrest⟩ := List.map_eq_cons_iff.1 hys
      obtain ⟨others, hothers⟩ := hused ys later hrest
      exact ⟨others, by rw [readFrom, advance_of_token hy hadvance]; exact hothers⟩

end Reader

/-- An object that a text begins with is read the same whatever follows. -/
theorem readFirst_append {bs : List UInt8} {ms : Entries Value}
    (h : readFirst bs = .ok (.map ms)) (more : List UInt8) :
    readFirst (bs ++ more) = .ok (.map ms) := by
  obtain ⟨tree, used, rest, hused, hread, hreadable, hspelled, hvalue⟩ := readFirst_ok h
  obtain ⟨members, rfl⟩ := Tree.map_of_value? hvalue
  have hlast : ∀ x ∈ used.getLast?, x.token.isOpen = false := by
    intro x hx
    have hmark : some x.token = some .endMap := by
      rw [← Option.map_some, ← (Option.mem_def.1 hx), ← List.getLast?_map, hspelled,
        Tree.spelled_map, ← List.cons_append, List.getLast?_concat]
    rw [Option.some.inj hmark]
    rfl
  obtain ⟨later, hlater⟩ := lexemesFrom_append hused hreadable hlast more more.length
  rw [← List.length_append] at hlater
  obtain ⟨same, hsame, hagain⟩ := Reader.readFrom_of_tokens hread
  obtain rfl : used = same := List.append_cancel_right (hused.symm.trans hsame)
  obtain ⟨others, hothers⟩ := hagain (lexemes (bs ++ more)) later hlater
  rw [readFirst, hothers]
  rfl

end RecordService.Json
