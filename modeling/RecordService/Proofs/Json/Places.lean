import RecordService.Proofs.Json.Grammar
import RecordService.Proofs.Json.Printed
/-!
# Places of numbers

A number of a JSON text stands at a place: the way to it through members and items. What is read
there is the number that the literal denotes, and what is printed there is a literal that is read as
the same number, at the same place.
-/

namespace RecordService

open Json
open Text.Utf8 (encode)

namespace Json.Tree

/-! ## Trees -/

/-- The value of the first member that has the name. -/
def member? (name : String) : List (Quoted × Tree Quoted Scalar) → Option (Tree Quoted Scalar)
  | [] => none
  | (q, t) :: ms => if q = .text name then some t else member? name ms

/-- One step into a list or map. Of the members of one name the last one counts. -/
def child? : Tree Quoted Scalar → Place → Option (Tree Quoted Scalar)
  | .list items, .item index => items[index]?
  | .map ms, .member name => member? name ms.reverse
  | _, _ => none

/-- What stands at a place. -/
def at? (t : Tree Quoted Scalar) : List Place → Option (Tree Quoted Scalar)
  | [] => some t
  | place :: places => (t.child? place).bind (at? · places)

/-- The number that a tree is. -/
def literal? : Tree Quoted Scalar → Option Literal
  | .scalar (.number l) => some l
  | _ => none

theorem literal?_eq_some {t : Tree Quoted Scalar} {l : Literal} :
    t.literal? = some l ↔ t = .scalar (.number l) := by
  constructor
  · intro h
    unfold literal? at h
    split at h
    · cases h
      rfl
    · cases h
  · rintro rfl
    rfl

end Json.Tree

/-- The number that stands at a place of a JSON text, as it is written. -/
def Json.literalAt? (bs : List UInt8) (places : List Place) : Option Literal :=
  (Tree.read? (tokens bs)).bind fun (t, _) => (t.at? places).bind Tree.literal?

/-! ## Values -/

namespace Value

/-- One step into a list or map. -/
def child? : Value → Place → Option Value
  | .list xs, .item index => xs[index]?
  | .map ms, .member name => Entries.find? name ms
  | _, _ => none

/-- What stands at a place of a value. -/
def at? (v : Value) : List Place → Option Value
  | [] => some v
  | place :: places => (v.child? place).bind (at? · places)

theorem mem_of_child? {v w : Value} {place : Place} (h : v.child? place = some w) :
    (∃ xs, v = .list xs ∧ w ∈ xs) ∨ ∃ ms e, v = .map ms ∧ e ∈ ms ∧ w = e.2 := by
  unfold child? at h
  split at h
  · exact .inl ⟨_, rfl, List.mem_of_getElem? h⟩
  · exact .inr ⟨_, _, rfl, Entries.mem_of_find? h, rfl⟩
  · cases h

theorem Distinct.child {v w : Value} (hv : v.Distinct) {place : Place}
    (h : v.child? place = some w) : w.Distinct := by
  obtain ⟨xs, rfl, hw⟩ | ⟨ms, e, rfl, he, rfl⟩ := mem_of_child? h
  · exact eachMap_list.1 hv w hw
  · exact (eachMap_map.1 hv).2 e he

end Value

namespace Json

/-! ## What is read -/

namespace Tree

variable {inner : String → Except Fault Value}

theorem member?_value {ms : List (Quoted × Tree Quoted Scalar)} {pairs : List (String × Value)}
    (h : List.Forall₂ (IsMember inner) ms pairs) {name : String} {t : Tree Quoted Scalar}
    (ht : member? name ms = some t) :
    ∃ v, Entries.find? name pairs = some v ∧ value? inner t = some v := by
  induction h with
  | nil => cases ht
  | @cons m e ms pairs hm hms ih =>
    obtain ⟨q, u⟩ := m
    obtain ⟨n, v⟩ := e
    obtain ⟨rfl, hv⟩ : q = .text n ∧ value? inner u = some v := hm
    rw [member?] at ht
    rw [Entries.find?]
    by_cases hname : n = name
    · rw [if_pos (by rw [hname])] at ht
      cases ht
      exact ⟨v, if_pos hname, hv⟩
    · rw [if_neg (by simpa using hname)] at ht
      rw [if_neg hname]
      exact ih ht

/-- The steps into a tree are those into its value. An embedded value is for the tree a text. -/
theorem child?_value {t u : Tree Quoted Scalar} {v : Value} (h : value? inner t = some v)
    {place : Place} (hu : t.child? place = some u) :
    (∃ q, u = .text q) ∨ ∃ w, v.child? place = some w ∧ value? inner u = some w := by
  unfold child? at hu
  split at hu
  · next items index =>
    obtain ⟨vs, hvs, rfl⟩ := Option.map_eq_some_iff.1 h
    obtain ⟨hindex, rfl⟩ := List.getElem?_eq_some_iff.1 hu
    obtain ⟨hlength, hvalues⟩ := List.forall₂_iff_get.1 (values?_eq_some.1 hvs)
    have hindex' := hlength ▸ hindex
    exact .inr ⟨vs[index], List.getElem?_eq_getElem hindex', hvalues index hindex hindex'⟩
  · next ms name =>
    rw [value?] at h
    split at h
    · unfold embedded? at h
      split at h
      · next q s =>
        rw [List.reverse_singleton, member?] at hu
        split at hu
        · cases hu
          exact .inl ⟨_, rfl⟩
        · cases hu
      · cases h
    · obtain ⟨pairs, hpairs, rfl⟩ := Option.map_eq_some_iff.1 h
      obtain ⟨w, hw, hvalue⟩ := member?_value (List.rel_reverse (pairs?_eq_some.1 hpairs)) hu
      refine .inr ⟨w, ?_, hvalue⟩
      rw [Value.child?, Entries.ofPairs, Entries.find?_putAll, hw]
      rfl
  · cases hu

/-- A literal denotes the number that is read at its place. -/
theorem number_at? {t : Tree Quoted Scalar} {v : Value} (h : value? inner t = some v)
    {places : List Place} {l : Literal} (hl : t.at? places = some (.scalar (.number l))) :
    ∃ n, l.number? = some n ∧ v.at? places = some (.number n) := by
  induction places generalizing t v with
  | nil =>
    cases hl
    obtain ⟨n, hn, rfl⟩ := Option.map_eq_some_iff.1 h
    exact ⟨n, hn, rfl⟩
  | cons place places ih =>
    obtain ⟨u, hu, hl⟩ := Option.bind_eq_some_iff.1 hl
    obtain ⟨q, rfl⟩ | ⟨w, hw, hvalue⟩ := child?_value h hu
    · cases places <;> cases hl
    · obtain ⟨n, hn, hat⟩ := ih hvalue hl
      exact ⟨n, hn, Option.bind_eq_some_iff.2 ⟨w, hw, hat⟩⟩

theorem mem_of_member? {name : String} {ms : List (Quoted × Tree Quoted Scalar)}
    {t : Tree Quoted Scalar} (h : member? name ms = some t) : (.text name, t) ∈ ms := by
  induction ms with
  | nil => cases h
  | cons m ms ih =>
    obtain ⟨q, u⟩ := m
    rw [member?] at h
    split at h
    · next hq =>
      cases h
      rw [hq]
      exact List.mem_cons_self
    · exact List.mem_cons_of_mem _ (ih h)

/-- The tokens inside a tree are tokens of it. -/
theorem mem_spelled_of_at? {t u : Tree Quoted Scalar} {places : List Place}
    (h : t.at? places = some u) {x : Token Quoted Scalar} (hx : x ∈ u.spelled) :
    x ∈ t.spelled := by
  induction places generalizing t with
  | nil =>
    cases h
    exact hx
  | cons place places ih =>
    obtain ⟨w, hw, h⟩ := Option.bind_eq_some_iff.1 h
    have hmem := ih h
    unfold child? at hw
    split at hw
    · rw [spelled_list]
      have hpart := sublist_intercalate
        (List.mem_map_of_mem (f := spelled) (List.mem_of_getElem? hw))
      exact List.mem_cons_of_mem _ (List.mem_append_left _ (hpart.subset hmem))
    · next ms name =>
      rw [spelled_map]
      have hmember := List.mem_reverse.1 (mem_of_member? hw)
      have hpart := sublist_intercalate (List.mem_map_of_mem (f := memberSpelled) hmember)
      have hspelled : x ∈ memberSpelled (.text name, w) :=
        List.mem_cons_of_mem _ (List.mem_cons_of_mem _ hmem)
      exact List.mem_cons_of_mem _ (List.mem_append_left _ (hpart.subset hspelled))
    · cases hw

end Tree

theorem literalAt?_eq_some {bs : List UInt8} {places : List Place} {l : Literal} :
    literalAt? bs places = some l ↔ ∃ t rest, tokens bs = Tree.spelled t ++ rest ∧
      t.at? places = some (.scalar (.number l)) := by
  simp [literalAt?, Option.bind_eq_some_iff, Tree.literal?_eq_some, Tree.read?_eq_some]

theorem ofWord_literal {scalar : Scalar} {word bs : List UInt8} {l : Literal}
    {o : Option (List UInt8)} (hscalar : scalar ≠ .number l) :
    Token.ofWord scalar word bs ≠ (.scalar (.number l), o) := by
  unfold Token.ofWord
  split <;> simp [hscalar]

/-- A token that is a number is read as one. -/
theorem ofOctet_literal {b : UInt8} {bs : List UInt8} {l : Literal} {o : Option (List UInt8)}
    (h : Token.ofOctet b bs = (.scalar (.number l), o)) :
    ∃ rest, Literal.read (b :: bs) = .ok (l, rest) := by
  unfold Token.ofOctet at h
  split at h
  · next t hmark =>
    cases h
    unfold Token.mark? at hmark
    grind
  · split at h
    · unfold Token.ofQuoted at h
      grind
    · split at h
      · unfold Token.ofNumber at h
        grind
      · grind [ofWord_literal]

theorem exists_ofOctet {steps : Nat} {seen : List Lexeme} {bs : List UInt8} {x : Lexeme}
    (hx : x ∈ lexemesFrom steps seen bs) :
    x ∈ seen ∨ ∃ b rest o, Token.ofOctet b rest = (x.token, o) := by
  induction steps generalizing seen bs with
  | zero => exact .inl (List.mem_reverse.1 hx)
  | succ steps ih =>
    rw [lexemesFrom] at hx
    split at hx
    · exact .inl (List.mem_reverse.1 hx)
    · split at hx
      · next htoken =>
        rcases ih hx with hmem | hlater
        · rcases List.mem_cons.1 hmem with rfl | hmem
          · exact .inr ⟨_, _, _, htoken⟩
          · exact .inl hmem
        · exact .inr hlater
      · next htoken =>
        rcases List.mem_cons.1 (List.mem_reverse.1 hx) with rfl | hmem
        · exact .inr ⟨_, _, _, htoken⟩
        · exact .inl hmem

/-- A number that stands anywhere in a text has well-formed parts. -/
theorem wellFormed_of_literalAt? {bs : List UInt8} {places : List Place} {l : Literal}
    (h : literalAt? bs places = some l) : l.parts.WellFormed := by
  obtain ⟨t, rest, htokens, hat⟩ := literalAt?_eq_some.1 h
  have hmem : .scalar (.number l) ∈ tokens bs := by
    rw [htokens]
    exact List.mem_append_left _ (Tree.mem_spelled_of_at? hat List.mem_cons_self)
  obtain ⟨x, hx, htoken⟩ := List.mem_map.1 hmem
  obtain ⟨b, rest, o, hoctet⟩ := (exists_ofOctet hx).resolve_left List.not_mem_nil
  obtain ⟨rest, hread⟩ := ofOctet_literal (htoken ▸ hoctet)
  exact Literal.read_wellFormed hread

/-- The number that is read at a place is the one that the literal there denotes. -/
theorem readFirst_literalAt? {bs : List UInt8} {v : Value} (h : readFirst bs = .ok v)
    {places : List Place} {l : Literal} (hl : literalAt? bs places = some l) :
    ∃ n, l.number? = some n ∧ v.at? places = some (.number n) := by
  obtain ⟨tree, used, rest, hused, -, -, hspelled, hvalue⟩ := readFirst_ok h
  have htokens : tokens bs = tree.spelled ++ rest.map (·.token) := by
    rw [tokens, hused, List.map_append, hspelled]
  obtain ⟨t, others, hother, hat⟩ := literalAt?_eq_some.1 hl
  have hsame := (Tree.read?_eq_some.2 hother).symm.trans (Tree.read?_eq_some.2 htokens)
  cases hsame
  exact Tree.number_at? hvalue hat

/-! ## What is printed -/

theorem member?_map (name : String) (ms : Entries Value) :
    Tree.member? name (ms.map Value.memberTree) = (Entries.find? name ms).map Value.tree := by
  induction ms with
  | nil => rfl
  | cons e ms ih =>
    obtain ⟨n, v⟩ := e
    rw [List.map_cons, Value.memberTree, Tree.member?, Entries.find?, ih]
    by_cases hname : n = name
    · rw [if_pos hname, if_pos (by rw [hname]), Option.map_some]
    · rw [if_neg hname, if_neg (by simpa using hname)]

/-- The steps into a value are those into what is printed of it. -/
theorem tree_child? {v w : Value} (hv : v.Distinct) {place : Place}
    (h : v.child? place = some w) : v.tree.child? place = some w.tree := by
  unfold Value.child? at h
  split at h
  · rw [Value.tree_list, Tree.child?, List.getElem?_map, h, Option.map_some]
  · next ms name =>
    have hnodup := (Value.eachMap_map.1 hv).1
    rw [Value.tree_map, Tree.child?, ← List.map_reverse, member?_map,
      Entries.find?_reverse hnodup, h, Option.map_some]
  · cases h

theorem tree_at? {v w : Value} (hv : v.Distinct) {places : List Place}
    (h : v.at? places = some w) : v.tree.at? places = some w.tree := by
  induction places generalizing v with
  | nil =>
    cases h
    rfl
  | cons place places ih =>
    obtain ⟨u, hu, h⟩ := Option.bind_eq_some_iff.1 h
    exact Option.bind_eq_some_iff.2 ⟨_, tree_child? hv hu, ih (hv.child hu) h⟩

/-- A number is printed at its place. -/
theorem literalAt?_chars {v : Value} (hv : v.Distinct) {places : List Place} {n : Number}
    (h : v.at? places = some (.number n)) :
    literalAt? (encode v.chars) places = some (.ofNumber n) :=
  literalAt?_eq_some.2 ⟨v.tree, [], (tokens_chars v).trans (List.append_nil _).symm, tree_at? hv h⟩

end Json

end RecordService
