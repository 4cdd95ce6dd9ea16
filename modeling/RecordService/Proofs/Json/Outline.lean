import RecordService.Proofs.Json.Grammar
/-!
# Outlines of JSON texts

A reader that wants texts only need not know which number a number is. What it does need of a JSON
text is its outline: the lists and maps, the texts between quotes, where these hold one, and which
scalars are null. By the grammar every JSON text is laid out along the tokens of an outline.
-/

namespace RecordService.Json

/-- A tree of which the texts are known, where quotes hold one, and which scalars are null. -/
abbrev Outline := Tree (Option String) Bool

namespace Token

variable {τ σ τ' σ' : Type}

def map (f : τ → τ') (g : σ → σ') : Token τ σ → Token τ' σ'
  | .beginList => .beginList
  | .endList => .endList
  | .beginMap => .beginMap
  | .endMap => .endMap
  | .comma => .comma
  | .colon => .colon
  | .text t => .text (f t)
  | .scalar s => .scalar (g s)

/-- A token without its text or scalar. -/
def kind : Token τ σ → Token Unit Unit :=
  map (fun _ => ()) fun _ => ()

def isMark : Token τ σ → Bool
  | .text _ | .scalar _ => false
  | _ => true

@[simp] theorem kind_map (f : τ → τ') (g : σ → σ') (t : Token τ σ) : (t.map f g).kind = t.kind := by
  cases t <;> rfl

theorem mark?_map (f : τ → τ') (g : σ → σ') (b : UInt8) :
    (mark? b).map (map f g) = (mark? b : Option (Token τ' σ')) := by
  unfold mark?
  repeat' split
  all_goals rfl

end Token

/-! ## Tokens of the same kinds -/

section Kinds
variable {τ σ τ' σ' : Type}

/-- The tokens are of the same kinds, one after another. -/
def SameKinds (xs : List (Token τ σ)) (ys : List (Token τ' σ')) : Prop :=
  xs.map Token.kind = ys.map Token.kind

namespace SameKinds

variable {xs : List (Token τ σ)} {y : Token τ' σ'} {ys zs : List (Token τ' σ')}

theorem nil (h : SameKinds xs ([] : List (Token τ' σ'))) : xs = [] :=
  List.map_eq_nil_iff.1 h

theorem cons (h : SameKinds xs (y :: ys)) :
    ∃ x us, xs = x :: us ∧ x.kind = y.kind ∧ SameKinds us ys :=
  List.map_eq_cons_iff.1 h

theorem append (h : SameKinds xs (ys ++ zs)) :
    ∃ us vs, xs = us ++ vs ∧ SameKinds us ys ∧ SameKinds vs zs := by
  rw [SameKinds, List.map_append] at h
  exact List.map_eq_append_iff.1 h

end SameKinds

namespace Tree

/-- Parts that follow a comma each. -/
theorem exists_parts {α β : Type} {f : α → List (Token τ σ)} {g : β → List (Token τ' σ')}
    {as : List α} (h : ∀ a ∈ as, ∀ xs, SameKinds xs (f a) → ∃ b, xs = g b)
    {xs : List (Token τ' σ')} (hxs : SameKinds xs ((as.map f).flatMap (.comma :: ·))) :
    ∃ bs : List β, xs = (bs.map g).flatMap (.comma :: ·) := by
  induction as generalizing xs with
  | nil => exact ⟨[], hxs.nil⟩
  | cons a as ih =>
    obtain ⟨ha, has⟩ := List.forall_mem_cons.1 h
    rw [List.map_cons, List.flatMap_cons] at hxs
    obtain ⟨us, vs, rfl, hus, hvs⟩ := hxs.append
    obtain ⟨mark, part, rfl, hmark, hpart⟩ := hus.cons
    cases mark <;> cases hmark
    obtain ⟨b, rfl⟩ := ha part hpart
    obtain ⟨bs, rfl⟩ := ih has hvs
    exact ⟨b :: bs, rfl⟩

/-- Parts with commas between, and a mark before and after them. -/
theorem exists_between {α β : Type} {f : α → List (Token τ σ)} {g : β → List (Token τ' σ')}
    {as : List α} (h : ∀ a ∈ as, ∀ xs, SameKinds xs (f a) → ∃ b, xs = g b)
    {first last : Token τ σ} {xs : List (Token τ' σ')}
    (hxs : SameKinds xs (first :: ([.comma].intercalate (as.map f) ++ [last]))) :
    ∃ first' last', ∃ bs : List β, first'.kind = first.kind ∧ last'.kind = last.kind ∧
      xs = first' :: ([.comma].intercalate (bs.map g) ++ [last']) := by
  obtain ⟨first', others, rfl, hfirst, hothers⟩ := hxs.cons
  obtain ⟨inside, ends, rfl, hinside, hends⟩ := hothers.append
  obtain ⟨last', tail, rfl, hlast, htail⟩ := hends.cons
  obtain rfl := htail.nil
  refine ⟨first', last', ?_⟩
  cases as with
  | nil =>
    obtain rfl := hinside.nil
    exact ⟨[], hfirst, hlast, rfl⟩
  | cons a as =>
    obtain ⟨ha, has⟩ := List.forall_mem_cons.1 h
    rw [List.map_cons, intercalate_cons] at hinside
    obtain ⟨part, parts, rfl, hpart, hparts⟩ := hinside.append
    obtain ⟨b, rfl⟩ := ha part hpart
    obtain ⟨bs, rfl⟩ := exists_parts has hparts
    exact ⟨b :: bs, hfirst, hlast, by rw [List.map_cons, intercalate_cons]⟩

/-- Tokens of the kinds of the tree's are themselves those of a tree. -/
def Shapes (τ' σ' : Type) (t : Tree τ σ) : Prop :=
  ∀ xs : List (Token τ' σ'), SameKinds xs t.spelled → ∃ t' : Tree τ' σ', xs = t'.spelled

theorem Shapes.member {m : τ × Tree τ σ} (h : m.2.Shapes τ' σ') (xs : List (Token τ' σ'))
    (hxs : SameKinds xs (memberSpelled m)) : ∃ m' : τ' × Tree τ' σ', xs = memberSpelled m' := by
  obtain ⟨name, rest, rfl, hname, hrest⟩ := hxs.cons
  obtain ⟨mark, value, rfl, hmark, hvalue⟩ := hrest.cons
  cases name <;> cases hname
  cases mark <;> cases hmark
  obtain ⟨t', rfl⟩ := h value hvalue
  exact ⟨(_, t'), rfl⟩

theorem exists_map {ms : List (τ × Tree τ σ)} (h : ∀ m ∈ ms, m.2.Shapes τ' σ')
    {xs : List (Token τ' σ')} (hxs : SameKinds xs (map ms).spelled) :
    ∃ ms' : List (τ' × Tree τ' σ'), xs = (map ms').spelled := by
  rw [spelled_map] at hxs
  obtain ⟨first, last, ms', hfirst, hlast, rfl⟩ := exists_between (fun m hm => (h m hm).member) hxs
  cases first <;> cases hfirst
  cases last <;> cases hlast
  exact ⟨ms', by rw [spelled_map]⟩

theorem shapes (t : Tree τ σ) : t.Shapes τ' σ' := by
  intro xs hxs
  induction t using nested_induction generalizing xs with
  | text t =>
    obtain ⟨x, tail, rfl, hx, htail⟩ := hxs.cons
    obtain rfl := htail.nil
    cases x <;> cases hx
    exact ⟨.text _, rfl⟩
  | scalar s =>
    obtain ⟨x, tail, rfl, hx, htail⟩ := hxs.cons
    obtain rfl := htail.nil
    cases x <;> cases hx
    exact ⟨.scalar _, rfl⟩
  | list items ih =>
    rw [spelled_list] at hxs
    obtain ⟨first, last, items', hfirst, hlast, rfl⟩ := exists_between ih hxs
    cases first <;> cases hfirst
    cases last <;> cases hlast
    exact ⟨.list items', by rw [spelled_list]⟩
  | map ms ih =>
    obtain ⟨ms', rfl⟩ := exists_map ih hxs
    exact ⟨.map ms', rfl⟩

/-! ## Scalars stand apart -/

/-- Each text and each scalar is the last token or has a mark after it. -/
def Apart : List (Token τ σ) → Prop
  | [] => True
  | t :: ts => (t.isMark = true ∨ ∀ u ∈ ts.head?, u.isMark = true) ∧ Apart ts

theorem Apart.mark {t : Token τ σ} {ts : List (Token τ σ)} (ht : t.isMark = true) (h : Apart ts) :
    Apart (t :: ts) :=
  ⟨.inl ht, h⟩

/-- The tokens stand apart, and from what follows them too, if that begins with a mark. -/
def StandsApart (ts : List (Token τ σ)) : Prop :=
  ∀ us, Apart us → (∀ u ∈ us.head?, u.isMark = true) → Apart (ts ++ us)

theorem standsApart_parts {parts : List (List (Token τ σ))} (h : ∀ p ∈ parts, StandsApart p) :
    StandsApart (parts.flatMap (.comma :: ·)) := by
  intro us hus hfirst
  induction parts with
  | nil => exact hus
  | cons part parts ih =>
    obtain ⟨hpart, hparts⟩ := List.forall_mem_cons.1 h
    rw [List.flatMap_cons, List.cons_append, List.cons_append, List.append_assoc]
    refine .mark rfl (hpart _ (ih hparts) ?_)
    cases parts with
    | nil => exact hfirst
    | cons next parts =>
      rintro _ ⟨⟩
      rfl

theorem standsApart_between {parts : List (List (Token τ σ))} (h : ∀ p ∈ parts, StandsApart p)
    {first last : Token τ σ} (hfirst : first.isMark = true) (hlast : last.isMark = true) :
    StandsApart (first :: ([.comma].intercalate parts ++ [last])) := by
  intro us hus _
  rw [List.cons_append, List.append_assoc]
  have hend : Apart ([last] ++ us) := .mark hlast hus
  refine .mark hfirst ?_
  cases parts with
  | nil => exact hend
  | cons part parts =>
    obtain ⟨hpart, hparts⟩ := List.forall_mem_cons.1 h
    have hothers := standsApart_parts hparts _ hend (by rintro _ ⟨⟩; exact hlast)
    rw [intercalate_cons, List.append_assoc]
    refine hpart _ hothers ?_
    cases parts with
    | nil =>
      rintro _ ⟨⟩
      exact hlast
    | cons next parts =>
      rintro _ ⟨⟩
      rfl

theorem standsApart_spelled (t : Tree τ σ) : StandsApart t.spelled := by
  induction t using nested_induction with
  | text t => exact fun us hus hfirst => ⟨.inr hfirst, hus⟩
  | scalar s => exact fun us hus hfirst => ⟨.inr hfirst, hus⟩
  | list items ih =>
    rw [spelled_list]
    exact standsApart_between (List.forall_mem_map.2 ih) rfl rfl
  | map ms ih =>
    rw [spelled_map]
    refine standsApart_between (List.forall_mem_map.2 fun m hm us hus hfirst => ?_) rfl rfl
    exact ⟨.inr (by rintro _ ⟨⟩; rfl), .mark rfl (ih m hm us hus hfirst)⟩

/-- The tokens of a tree stand apart. -/
theorem apart_spelled (t : Tree τ σ) : Apart t.spelled := by
  have happend := standsApart_spelled t [] trivial (by simp)
  rwa [List.append_nil] at happend

end Tree

end Kinds

/-! ## Layouts -/

def Quoted.text? : Quoted → Option String
  | .text s => some s
  | _ => none

/-- What the outline keeps of a token. -/
def Token.outline : Token Quoted Scalar → Token (Option String) Bool :=
  Token.map Quoted.text? (· == .null)

/-- Tokens that begin as an outline does begin with the tokens of a tree. -/
theorem exists_tree {xs : List (Token Quoted Scalar)} {t : Outline}
    {us : List (Token (Option String) Bool)} (h : xs.map Token.outline = t.spelled ++ us) :
    ∃ (tree : Tree Quoted Scalar) (rest : List (Token Quoted Scalar)),
      xs = tree.spelled ++ rest ∧ rest.map Token.outline = us := by
  obtain ⟨taken, rest, rfl, htaken, hrest⟩ := List.map_eq_append_iff.1 h
  have hkinds : SameKinds taken t.spelled := by
    rw [SameKinds, ← htaken, List.map_map]
    exact List.map_congr_left fun x _ => (Token.kind_map ..).symm
  obtain ⟨tree, rfl⟩ := Tree.shapes t taken hkinds
  exact ⟨tree, rest, rfl, hrest⟩

/-- The octets that a token of an outline may be written with. -/
inductive Token.Shows : Token (Option String) Bool → List UInt8 → Prop where
  | mark {t : Token (Option String) Bool} {b : UInt8} (h : mark? b = some t) : Shows t [b]
  | text {s : String} {bs : List UInt8} (h : Says bs s.toList) :
      Shows (.text (some s)) (0x22 :: (bs ++ [0x22]))
  /-- Half of a pair of code units stands between the quotes. -/
  | unreadable {bs : List UInt8} (h : IsQuoted bs) (half : ∀ cs, ¬Says bs cs) :
      Shows (.text none) (0x22 :: (bs ++ [0x22]))
  | number {bs : List UInt8} (h : IsNumber bs) : Shows (.scalar false) bs
  | null : Shows (.scalar true) [0x6E, 0x75, 0x6C, 0x6C]
  | true : Shows (.scalar false) [0x74, 0x72, 0x75, 0x65]
  | false : Shows (.scalar false) [0x66, 0x61, 0x6C, 0x73, 0x65]

/-- The tokens of an outline, with blanks before, between and after them. -/
inductive Laid : List (Token (Option String) Bool) → List UInt8 → Prop where
  | nil {blanks : List UInt8} (h : ∀ b ∈ blanks, isBlank b = true) : Laid [] blanks
  | cons {t : Token (Option String) Bool} {ts : List (Token (Option String) Bool)}
      {blanks bs rest : List UInt8} (h : ∀ b ∈ blanks, isBlank b = true) (shown : t.Shows bs)
      (laid : Laid ts rest) : Laid (t :: ts) (blanks ++ (bs ++ rest))

/-- The text of an object with such members, in this order. -/
def IsObjectOf (ms : List (Option String × Outline)) (bs : List UInt8) : Prop :=
  Laid (Tree.map ms).spelled bs

/-- The text of a list of such items. -/
def IsListOf (items : List Outline) (bs : List UInt8) : Prop :=
  Laid (Tree.list items).spelled bs

/-- A token right at the head. -/
theorem Laid.token {t : Token (Option String) Bool} {ts : List (Token (Option String) Bool)}
    {bs rest : List UInt8} (shown : t.Shows bs) (laid : Laid ts rest) :
    Laid (t :: ts) (bs ++ rest) :=
  .cons (List.forall_mem_nil _) shown laid

/-- Characters without need of an escape say themselves. -/
theorem says_encode {cs : List Char} (h : ∀ c ∈ cs, 0x20 ≤ c.toNat ∧ c ≠ '"' ∧ c ≠ '\\') :
    Says (Text.Utf8.encode cs) cs := by
  induction cs with
  | nil => exact .nil
  | cons c cs ih =>
    obtain ⟨⟨printable, quote, backslash⟩, hcs⟩ := List.forall_mem_cons.1 h
    exact .char printable quote backslash (ih hcs)

theorem exists_shows {t : Token Quoted Scalar} {bs : List UInt8} (h : t.Spells bs) :
    ∃ u : Token (Option String) Bool, u.Shows bs ∧ u.kind = t.kind := by
  cases h with
  | mark hmark =>
    refine ⟨t.outline, .mark ?_, Token.kind_map ..⟩
    rw [← Token.mark?_map Quoted.text? (· == Scalar.null), hmark]
    rfl
  | @text q bs hquoted =>
    by_cases hsays : ∃ cs, Says bs cs
    · obtain ⟨cs, hsays⟩ := hsays
      exact ⟨.text (some (String.ofList cs)), .text (by rwa [String.toList_ofList]), rfl⟩
    · exact ⟨.text none, .unreadable hquoted (not_exists.1 hsays), rfl⟩
  | number hnumber => exact ⟨.scalar false, .number hnumber, rfl⟩
  | null => exact ⟨.scalar true, .null, rfl⟩
  | true => exact ⟨.scalar false, .true, rfl⟩
  | false => exact ⟨.scalar false, .false, rfl⟩

theorem Written.laid {ts : List (Token Quoted Scalar)} {bs : List UInt8} (h : Written ts bs) :
    ∃ us, Laid us bs ∧ SameKinds us ts := by
  induction h with
  | nil hblanks => exact ⟨[], .nil hblanks, rfl⟩
  | cons hblanks spells _ ih =>
    obtain ⟨us, hus, hkinds⟩ := ih
    obtain ⟨u, hu, hkind⟩ := exists_shows spells
    exact ⟨u :: us, .cons hblanks hu hus, congrArg₂ List.cons hkind hkinds⟩

end RecordService.Json
