import RecordService.Proofs.Json.Meaning
import RecordService.Proofs.Json.Printed
import RecordService.Proofs.Json.Reader
/-!
# What is printed is read again

The reader takes the tokens of every tree that has a value, if no more lists and maps stand inside
each other than it has room for. What is printed of a value without doubles is a tree with that
value, so it is read again as what it was. A double may be read as a neighbour of what it was.
-/

namespace RecordService.Json

open Entries (names ofPairs put putAll)
open Text.Utf8 (encode)

namespace Tree

variable {τ σ : Type}

theorem isWithin_list {room : Nat} {items : List (Tree τ σ)} : (list items).isWithin room = true ↔
    ∃ inside, room = inside + 1 ∧ ∀ t ∈ items, t.isWithin inside = true := by
  have hitems : ∀ inside, areWithin inside items = true ↔
      ∀ t ∈ items, t.isWithin inside = true := by
    intro inside
    induction items with
    | nil => simp [areWithin]
    | cons t items ih => simp [areWithin, ih]
  cases room <;> simp [isWithin, hitems]

theorem isWithin_map {room : Nat} {ms : List (τ × Tree τ σ)} : (map ms).isWithin room = true ↔
    ∃ inside, room = inside + 1 ∧ ∀ m ∈ ms, m.2.isWithin inside = true := by
  have hmembers : ∀ inside, membersWithin inside ms = true ↔
      ∀ m ∈ ms, m.2.isWithin inside = true := by
    intro inside
    induction ms with
    | nil => simp [membersWithin]
    | cons m ms ih => simp [membersWithin, ih]
  cases room <;> simp [isWithin, hmembers]

/-- No tree begins as a list ends. -/
theorem exists_first (t : Tree τ σ) :
    ∃ first more, t.spelled = first :: more ∧ first ≠ .endList := by
  cases t with
  | text t => exact ⟨_, _, rfl, nofun⟩
  | scalar s => exact ⟨_, _, rfl, nofun⟩
  | list items => exact ⟨_, _, spelled_list items, nofun⟩
  | map ms => exact ⟨_, _, spelled_map ms, nofun⟩

end Tree

/-! ## Trees are taken -/

namespace Reader

open RecordService.Json.Tree (IsMember firstName? memberSpelled spelled value? values?)

variable (inner : String → Except Fault Value)

/-- Where the reading goes on after a token. -/
def Progress.resume (xs : List Lexeme) : Progress → Except Stop (Value × List Lexeme)
  | .done v => .ok (v, xs)
  | .inside frames position => readFrom inner frames position xs

variable {inner} {frames : List Frame} {position : Position} {xs : List Lexeme}

theorem readFrom_cons {x : Lexeme} {p : Progress} (h : advance inner frames position x = .ok p)
    (xs : List Lexeme) : readFrom inner frames position (x :: xs) = p.resume inner xs := by
  rw [readFrom, h]
  cases p <;> rfl

theorem readFrom_inside {next : List Frame} {after : Position} {x : Lexeme}
    (h : advance inner frames position x = .ok (.inside next after)) (xs : List Lexeme) :
    readFrom inner frames position (x :: xs) = readFrom inner next after xs :=
  readFrom_cons h xs

variable (inner) in
/-- The tree is read as its value, wherever its tokens stand, if there is room for it inside what is
open. -/
def IsTaken (t : Tree Quoted Scalar) : Prop :=
  ∀ ⦃v : Value⦄ ⦃room : Nat⦄ ⦃xs : List Lexeme⦄ (frames : List Frame) (rest : List Lexeme),
    value? inner t = some v → t.isWithin room = true → frames.length + room ≤ depthLimit →
    xs.map (·.token) = t.spelled →
    readFrom inner frames .value (xs ++ rest) = (complete v frames).resume inner rest

/-- A token that is a value is taken. -/
theorem advance_value {x : Lexeme} {v : Value} (h : x.token.value? = some v) :
    advance inner frames .value x = .ok (complete v frames) := by
  simp only [advance, beginValue]
  generalize x.token = t at h ⊢
  cases t with
  | text q => simp only [h]
  | scalar s => simp only [h]
  | _ => cases h

/-- An item is read as a value, be it the first one or another. -/
theorem readFrom_item {t : Tree Quoted Scalar} {used : List Lexeme}
    (hused : used.map (·.token) = t.spelled) (xs : List Lexeme) :
    readFrom inner frames .firstItem (used ++ xs)
        = readFrom inner (.list [] :: frames) .value (used ++ xs) ∧
      readFrom inner frames .item (used ++ xs) = readFrom inner frames .value (used ++ xs) := by
  obtain ⟨first, more, hfirst, hne⟩ := t.exists_first
  rw [hfirst] at hused
  obtain ⟨x, used, rfl, hx, -⟩ := List.map_eq_cons_iff.1 hused
  have hrow : advance inner frames .firstItem x = advance inner (.list [] :: frames) .value x ∧
      advance inner frames .item x = advance inner frames .value x := by
    simp only [advance]
    generalize x.token = u at hx ⊢
    subst hx
    cases u with
    | endList => exact absurd rfl hne
    | _ => exact ⟨rfl, rfl⟩
  simp only [List.cons_append, readFrom, hrow, and_self]

/-- The items after the first. -/
theorem readFrom_items {items : List (Tree Quoted Scalar)} {vs : List Value} {room : Nat}
    (htaken : ∀ t ∈ items, IsTaken inner t) (hwithin : ∀ t ∈ items, t.isWithin room = true)
    (hroom : frames.length + 1 + room ≤ depthLimit)
    (hvalues : List.Forall₂ (fun t v => value? inner t = some v) items vs) (before : List Value)
    (hxs : xs.map (·.token) = (items.map spelled).flatMap (.comma :: ·) ++ [.endList])
    (rest : List Lexeme) :
    readFrom inner frames (.items before) (xs ++ rest)
      = (complete (.list (before.reverse ++ vs)) frames).resume inner rest := by
  induction hvalues generalizing before xs with
  | nil =>
    obtain ⟨x, rfl, hx⟩ := List.map_eq_singleton_iff.1 hxs
    have hend : advance inner frames (.items before) x
        = .ok (complete (.list before.reverse) frames) := by
      simp [advance, hx]
    rw [List.append_nil]
    exact readFrom_cons hend rest
  | @cons t v items vs hv _ ih =>
    obtain ⟨ht, htaken⟩ := List.forall_mem_cons.1 htaken
    obtain ⟨hfits, hwithin⟩ := List.forall_mem_cons.1 hwithin
    rw [List.map_cons, List.flatMap_cons, List.cons_append, List.cons_append,
      List.append_assoc] at hxs
    obtain ⟨x, xs, rfl, hx, hxs⟩ := List.map_eq_cons_iff.1 hxs
    obtain ⟨used, xs, rfl, hused, hxs⟩ := List.map_eq_append_iff.1 hxs
    have hcomma : advance inner frames (.items before) x
        = .ok (.inside (.list before :: frames) .item) := by
      simp [advance, hx]
    rw [List.cons_append, readFrom_inside hcomma, List.append_assoc, (readFrom_item hused _).2,
      ht (.list before :: frames) _ hv hfits hroom hused]
    change readFrom inner frames (.items (v :: before)) _ = _
    rw [ih htaken hwithin (v :: before) hxs]
    simp

/-- The value of a member, after its name. -/
theorem readFrom_member {t : Tree Quoted Scalar} {v : Value} {room : Nat} (ht : IsTaken inner t)
    (hfits : t.isWithin room = true) (hroom : frames.length + 1 + room ≤ depthLimit)
    (hv : value? inner t = some v) (entries : Entries Value) (name : String) {x : Lexeme}
    (hx : x.token = .colon) {used : List Lexeme} (hused : used.map (·.token) = t.spelled)
    (xs : List Lexeme) : readFrom inner frames (.colon entries name) (x :: (used ++ xs))
      = readFrom inner frames (.members (put name v entries)) xs := by
  have hcolon : advance inner frames (.colon entries name) x
      = .ok (.inside (.map entries name :: frames) .value) := by
    simp [advance, hx]
  rw [readFrom_inside hcolon, ht (.map entries name :: frames) _ hv hfits hroom hused]
  rfl

/-- The members after the first. -/
theorem readFrom_members {ms : List (Quoted × Tree Quoted Scalar)} {pairs : List (String × Value)}
    {room : Nat} (htaken : ∀ m ∈ ms, IsTaken inner m.2)
    (hwithin : ∀ m ∈ ms, m.2.isWithin room = true) (hroom : frames.length + 1 + room ≤ depthLimit)
    (hpairs : List.Forall₂ (IsMember inner) ms pairs) (entries : Entries Value)
    (hxs : xs.map (·.token) = (ms.map memberSpelled).flatMap (.comma :: ·) ++ [.endMap])
    (rest : List Lexeme) :
    readFrom inner frames (.members entries) (xs ++ rest)
      = (complete (.map (putAll pairs entries)) frames).resume inner rest := by
  induction hpairs generalizing entries xs with
  | nil =>
    obtain ⟨x, rfl, hx⟩ := List.map_eq_singleton_iff.1 hxs
    have hend : advance inner frames (.members entries) x
        = .ok (complete (.map entries) frames) := by
      simp [advance, hx]
    exact readFrom_cons hend rest
  | @cons m e ms pairs hm _ ih =>
    obtain ⟨q, t⟩ := m
    obtain ⟨rfl, hv⟩ : q = .text e.1 ∧ value? inner t = some e.2 := hm
    obtain ⟨ht, htaken⟩ := List.forall_mem_cons.1 htaken
    obtain ⟨hfits, hwithin⟩ := List.forall_mem_cons.1 hwithin
    simp only [List.map_cons, List.flatMap_cons, memberSpelled, List.cons_append,
      List.append_assoc] at hxs
    obtain ⟨x, xs, rfl, hx, hxs⟩ := List.map_eq_cons_iff.1 hxs
    obtain ⟨y, xs, rfl, hy, hxs⟩ := List.map_eq_cons_iff.1 hxs
    obtain ⟨z, xs, rfl, hz, hxs⟩ := List.map_eq_cons_iff.1 hxs
    obtain ⟨used, xs, rfl, hused, hxs⟩ := List.map_eq_append_iff.1 hxs
    have hcomma : advance inner frames (.members entries) x
        = .ok (.inside frames (.name entries)) := by
      simp [advance, hx]
    have hname : advance inner frames (.name entries) y
        = .ok (.inside frames (.colon entries e.1)) := by
      simp only [advance, hy, readName]
      rfl
    simp only [List.cons_append, List.append_assoc]
    rw [readFrom_inside hcomma, readFrom_inside hname,
      readFrom_member ht hfits hroom hv entries e.1 hz hused, ih htaken hwithin _ hxs]
    rfl

/-- An embedded value is read from its text. -/
theorem readFrom_embedded {s : String} {v : Value} (hs : inner s = .ok v) {x y z e : Lexeme}
    (hx : x.token = .text (.text embeddedName)) (hy : y.token = .colon)
    (hz : z.token = .text (.text s)) (he : e.token = .endMap) (rest : List Lexeme) :
    readFrom inner frames .firstName (x :: y :: z :: e :: rest)
      = (complete v frames).resume inner rest := by
  have hname : advance inner frames .firstName x = .ok (.inside frames .embeddedColon) := by
    simp only [advance, hx, readName]
    rfl
  have hcolon : advance inner frames .embeddedColon y = .ok (.inside frames .embedded) := by
    simp [advance, hy]
  have htext : advance inner frames .embedded z = .ok (.inside frames (.embeddedEnd v)) := by
    simp only [advance, readEmbedded, hz, hs]
    rfl
  have hend : advance inner frames (.embeddedEnd v) e = .ok (complete v frames) := by
    simp [advance, he]
  rw [readFrom_inside hname, readFrom_inside hcolon, readFrom_inside htext]
  exact readFrom_cons hend rest

theorem isTaken_list {items : List (Tree Quoted Scalar)} (h : ∀ t ∈ items, IsTaken inner t) :
    IsTaken inner (.list items) := by
  intro v room xs frames rest hv hdepth hroom hxs
  obtain ⟨inside, rfl, hwithin⟩ := Tree.isWithin_list.1 hdepth
  obtain ⟨vs, hvs, rfl⟩ := Option.map_eq_some_iff.1 hv
  rw [Tree.spelled_list] at hxs
  obtain ⟨x, xs, rfl, hx, hxs⟩ := List.map_eq_cons_iff.1 hxs
  have hbegin : advance inner frames .value x = .ok (.inside frames .firstItem) := by
    simp only [advance, beginValue, hx, enter]
    exact if_pos (by omega)
  rw [List.cons_append, readFrom_inside hbegin]
  cases Tree.values?_eq_some.1 hvs with
  | nil =>
    obtain ⟨e, rfl, he⟩ := List.map_eq_singleton_iff.1 hxs
    exact readFrom_cons (by simp [advance, he]) rest
  | cons hfirst hothers =>
    obtain ⟨ht, htaken⟩ := List.forall_mem_cons.1 h
    obtain ⟨hfits, hwithin⟩ := List.forall_mem_cons.1 hwithin
    have hinside : frames.length + 1 + inside ≤ depthLimit := by omega
    rw [List.map_cons, Tree.intercalate_cons, List.append_assoc] at hxs
    obtain ⟨used, xs, rfl, hused, hxs⟩ := List.map_eq_append_iff.1 hxs
    rw [List.append_assoc, (readFrom_item hused _).1,
      ht (.list [] :: frames) _ hfirst hfits hinside hused]
    exact readFrom_items htaken hwithin hinside hothers [_] hxs rest

/-- A map that does not stand for an embedded value is read after its brace. -/
theorem readFrom_firstName {ms : List (Quoted × Tree Quoted Scalar)} {pairs : List (String × Value)}
    {room : Nat} (htaken : ∀ m ∈ ms, IsTaken inner m.2)
    (hwithin : ∀ m ∈ ms, m.2.isWithin room = true) (hroom : frames.length + 1 + room ≤ depthLimit)
    (hplain : firstName? ms ≠ some (.text embeddedName))
    (hpairs : List.Forall₂ (IsMember inner) ms pairs)
    (hxs : xs.map (·.token) = [.comma].intercalate (ms.map memberSpelled) ++ [.endMap])
    (rest : List Lexeme) :
    readFrom inner frames .firstName (xs ++ rest)
      = (complete (.map (ofPairs pairs)) frames).resume inner rest := by
  cases hpairs with
  | nil =>
    obtain ⟨e, rfl, he⟩ := List.map_eq_singleton_iff.1 hxs
    have hend : advance inner frames .firstName e = .ok (complete (.map []) frames) := by
      simp [advance, he]
    exact readFrom_cons hend rest
  | @cons m e ms pairs hfirst hothers =>
    obtain ⟨q, t⟩ := m
    obtain ⟨rfl, hv⟩ : q = .text e.1 ∧ value? inner t = some e.2 := hfirst
    obtain ⟨ht, htaken⟩ := List.forall_mem_cons.1 htaken
    obtain ⟨hfits, hwithin⟩ := List.forall_mem_cons.1 hwithin
    simp only [List.map_cons, Tree.intercalate_cons, memberSpelled, List.cons_append,
      List.append_assoc] at hxs
    obtain ⟨y, xs, rfl, hy, hxs⟩ := List.map_eq_cons_iff.1 hxs
    obtain ⟨z, xs, rfl, hz, hxs⟩ := List.map_eq_cons_iff.1 hxs
    obtain ⟨used, xs, rfl, hused, hxs⟩ := List.map_eq_append_iff.1 hxs
    have hne : e.1 ≠ embeddedName := fun h => hplain (by rw [← h]; rfl)
    have hname : advance inner frames .firstName y = .ok (.inside frames (.colon [] e.1)) := by
      simp only [advance, hy, readName, bind, Except.bind, pure, Except.pure, if_neg hne]
    simp only [List.cons_append, List.append_assoc]
    rw [readFrom_inside hname, readFrom_member ht hfits hroom hv [] e.1 hz hused]
    exact readFrom_members htaken hwithin hroom hothers _ hxs rest

theorem isTaken_map {ms : List (Quoted × Tree Quoted Scalar)} (h : ∀ m ∈ ms, IsTaken inner m.2) :
    IsTaken inner (.map ms) := by
  intro v room xs frames rest hv hdepth hroom hxs
  obtain ⟨inside, rfl, hwithin⟩ := Tree.isWithin_map.1 hdepth
  rw [Tree.spelled_map] at hxs
  obtain ⟨x, xs, rfl, hx, hxs⟩ := List.map_eq_cons_iff.1 hxs
  have hbegin : advance inner frames .value x = .ok (.inside frames .firstName) := by
    simp only [advance, beginValue, hx, enter]
    exact if_pos (by omega)
  rw [List.cons_append, readFrom_inside hbegin]
  rw [value?] at hv
  split at hv
  · next hembedded =>
    obtain ⟨q, s, rfl, hs⟩ := Tree.embedded?_eq_some hv
    obtain rfl : q = .text embeddedName := Option.some.inj hembedded
    obtain ⟨y, xs, rfl, hy, hxs⟩ := List.map_eq_cons_iff.1 hxs
    obtain ⟨z, xs, rfl, hz, hxs⟩ := List.map_eq_cons_iff.1 hxs
    obtain ⟨w, xs, rfl, hw, hxs⟩ := List.map_eq_cons_iff.1 hxs
    obtain ⟨e, rfl, he⟩ := List.map_eq_singleton_iff.1 hxs
    exact readFrom_embedded hs hy hz hw he rest
  · next hplain =>
    obtain ⟨pairs, hpairs, rfl⟩ := Option.map_eq_some_iff.1 hv
    have hinside : frames.length + 1 + inside ≤ depthLimit := by omega
    exact readFrom_firstName h hwithin hinside hplain (Tree.pairs?_eq_some.1 hpairs) hxs rest

/-- Every tree is taken. -/
theorem isTaken (t : Tree Quoted Scalar) : IsTaken inner t := by
  induction t using Tree.nested_induction with
  | text q =>
    intro v room xs frames rest hv _ _ hxs
    obtain ⟨x, rfl, hx⟩ := List.map_eq_singleton_iff.1 hxs
    exact readFrom_cons (advance_value (hx ▸ hv)) rest
  | scalar s =>
    intro v room xs frames rest hv _ _ hxs
    obtain ⟨x, rfl, hx⟩ := List.map_eq_singleton_iff.1 hxs
    exact readFrom_cons (advance_value (hx ▸ hv)) rest
  | list items ih => exact isTaken_list ih
  | map ms ih => exact isTaken_map ih

/-- A value is read from the tokens of a tree that has it. -/
theorem readFrom_spelled {t : Tree Quoted Scalar} {v : Value} (hv : value? inner t = some v)
    (hdepth : t.isWithin depthLimit = true) (hxs : xs.map (·.token) = t.spelled)
    (rest : List Lexeme) : readFrom inner [] .value (xs ++ rest) = .ok (v, rest) :=
  isTaken t [] rest hv hdepth (Nat.le_of_eq (Nat.zero_add _)) hxs

end Reader

/-! ## What is printed -/

/-- There is room for a map if there is room in it for its values. -/
theorem isWithin_tree_map {room : Nat} {ms : Entries Value} :
    (Value.map ms).tree.isWithin room = true ↔
      ∃ inside, room = inside + 1 ∧ ∀ e ∈ ms, e.2.tree.isWithin inside = true := by
  rw [Value.tree_map, Tree.isWithin_map]
  simp only [List.forall_mem_map, Value.memberTree]

/-- The tree that is written of a value without doubles has it as its value, whatever could be
embedded. -/
theorem value?_tree {v : Value} (h : IsRead v) (hwhole : v.Whole)
    (inner : String → Except Fault Value) : v.tree.value? inner = some v := by
  induction v using Value.nested_induction with
  | null => rfl
  | bool b => rfl
  | number n =>
    obtain ⟨i, rfl⟩ := Value.whole_number.1 hwhole
    show (Literal.ofNumber (.integer i)).number?.map Value.number = _
    rw [Literal.number?_ofNumber]
    rfl
  | string s => rfl
  | list vs ih =>
    have hvs := Value.eachMap_list.1 h
    have hvalues :
        List.Forall₂ (fun t v => Tree.value? inner t = some v) (vs.map Value.tree) vs := by
      rw [List.forall₂_map_left_iff, List.forall₂_same]
      exact fun v hv => ih v hv (hvs v hv) (Value.whole_list.1 hwhole v hv)
    rw [Value.tree_list, Tree.value?, Tree.values?_eq_some.2 hvalues]
    rfl
  | map ms ih =>
    obtain ⟨⟨hnodup, hhead⟩, hvalues⟩ := Value.eachMap_map.1 h
    have hpairs : List.Forall₂ (Tree.IsMember inner) (ms.map Value.memberTree) ms := by
      rw [List.forall₂_map_left_iff, List.forall₂_same]
      exact fun e he => ⟨rfl, ih e he (hvalues e he) (Value.whole_map.1 hwhole e he)⟩
    have hplain : Tree.firstName? (ms.map Value.memberTree) ≠ some (.text embeddedName) := by
      cases ms with
      | nil => simp [Tree.firstName?]
      | cons e ms => simpa [Tree.firstName?, Value.memberTree, names] using hhead
    rw [Value.tree_map, Tree.value?, if_neg hplain, Tree.pairs?_eq_some.2 hpairs, Option.map_some,
      Entries.ofPairs_of_nodup hnodup]

section Printed
variable {v : Value} (h : IsRead v) (hwhole : v.Whole)
  (hdepth : v.tree.isWithin depthLimit = true)
include h hwhole hdepth

theorem readFrom_chars (inner : String → Except Fault Value) :
    Reader.readFrom inner [] .value (lexemes (encode v.chars)) = .ok (v, []) := by
  have hread := Reader.readFrom_spelled (value?_tree h hwhole inner) hdepth (tokens_chars v) []
  rwa [List.append_nil] at hread

/-- What is printed of a value without doubles is read as the value. -/
theorem readFirst_chars : readFirst (encode v.chars) = .ok v :=
  mapError_eq_ok.2 (map_eq_ok.2 ⟨_, readFrom_chars h hwhole hdepth _, rfl⟩)

/-- Nothing is printed besides. -/
theorem readWhole_chars : readWhole (encode v.chars) = .ok v :=
  mapError_eq_ok.2 (bind_eq_ok.2 ⟨_, readFrom_chars h hwhole hdepth _, rfl⟩)

end Printed

end RecordService.Json
