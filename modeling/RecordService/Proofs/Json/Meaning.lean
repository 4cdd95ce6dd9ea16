import Mathlib.Data.List.Forall2
import RecordService.Json.Reader
import RecordService.Json.Tree
import RecordService.Proofs.Entries
import RecordService.Proofs.Except
/-!
# Values of trees

A value that is read is the value of a tree: the same tokens make a tree too, and the value is found
from the tree alone. The two machines take the tokens together, and what the one holds of values,
the other holds of trees.
-/

namespace RecordService.Json

namespace Tree

variable (inner : String → Except Fault Value)

/-- The value of a map whose first member has the name of an embedded value; `inner` reads what is
embedded. -/
def embedded? : List (Quoted × Tree Quoted Scalar) → Option Value
  | [(_, .text (.text s))] => (inner s).toOption
  | _ => none

/-- The name of the first member. -/
def firstName? (ms : List (Quoted × Tree Quoted Scalar)) : Option Quoted :=
  ms.head?.map (·.1)

mutual

/-- The value of a tree, if its texts and scalars can be read. -/
def value? : Tree Quoted Scalar → Option Value
  | .text q => Token.value? (.text q)
  | .scalar s => Token.value? (.scalar s)
  | .list items => (values? items).map .list
  | .map ms =>
    if firstName? ms = some (.text embeddedName) then embedded? inner ms
    else (pairs? ms).map fun pairs => .map (Entries.ofPairs pairs)

def values? : List (Tree Quoted Scalar) → Option (List Value)
  | [] => some []
  | t :: ts => do some ((← value? t) :: (← values? ts))

/-- The names and values of members, in order. -/
def pairs? : List (Quoted × Tree Quoted Scalar) → Option (List (String × Value))
  | [] => some []
  | (.text name, t) :: ms => do some ((name, ← value? t) :: (← pairs? ms))
  | _ :: _ => none

end

/-- The member has the name and the value. -/
def IsMember (m : Quoted × Tree Quoted Scalar) (e : String × Value) : Prop :=
  m.1 = .text e.1 ∧ value? inner m.2 = some e.2

variable {inner}

theorem value?_embedded (s : String) :
    value? inner (.map [(.text embeddedName, .text (.text s))]) = (inner s).toOption := by
  have hname : firstName? [(.text embeddedName, .text (.text s))] = some (.text embeddedName) := rfl
  rw [value?, if_pos hname, embedded?]

/-- An embedded value is the only one in its map. -/
theorem embedded?_eq_some {ms : List (Quoted × Tree Quoted Scalar)} {v : Value}
    (h : embedded? inner ms = some v) : ∃ q s, ms = [(q, .text (.text s))] ∧ inner s = .ok v := by
  unfold embedded? at h
  split at h
  · next q s => exact ⟨q, s, rfl, toOption_eq_some.1 h⟩
  · cases h

theorem values?_eq_some {ts : List (Tree Quoted Scalar)} {vs : List Value} :
    values? inner ts = some vs ↔ List.Forall₂ (fun t v => value? inner t = some v) ts vs := by
  induction ts generalizing vs with
  | nil => simp [values?, eq_comm]
  | cons t ts ih =>
    simp only [values?, Option.bind_eq_bind, Option.bind_eq_some_iff, Option.some.injEq,
      List.forall₂_cons_left_iff]
    constructor
    · rintro ⟨v, hv, vs, hvs, rfl⟩
      exact ⟨v, vs, hv, ih.1 hvs, rfl⟩
    · rintro ⟨v, vs, hv, hvs, rfl⟩
      exact ⟨v, hv, vs, ih.2 hvs, rfl⟩

theorem pairs?_eq_some {ms : List (Quoted × Tree Quoted Scalar)} {pairs : List (String × Value)} :
    pairs? inner ms = some pairs ↔ List.Forall₂ (IsMember inner) ms pairs := by
  induction ms generalizing pairs with
  | nil => simp [pairs?, eq_comm]
  | cons m ms ih =>
    obtain ⟨q, t⟩ := m
    rw [List.forall₂_cons_left_iff]
    cases q with
    | text name =>
      simp only [pairs?, Option.bind_eq_bind, Option.bind_eq_some_iff, Option.some.injEq]
      constructor
      · rintro ⟨v, hv, rest, hrest, rfl⟩
        exact ⟨(name, v), rest, ⟨rfl, hv⟩, ih.1 hrest, rfl⟩
      · rintro ⟨⟨n, v⟩, rest, ⟨hname, hv⟩, hrest, rfl⟩
        cases hname
        exact ⟨v, hv, rest, ih.2 hrest, rfl⟩
    | _ => simp [pairs?, IsMember]

/-- Only the tree of a map has a map as its value. -/
theorem map_of_value? {t : Tree Quoted Scalar} {entries : Entries Value}
    (h : value? inner t = some (.map entries)) : ∃ ms, t = .map ms := by
  cases t with
  | map ms => exact ⟨ms, rfl⟩
  | text q => cases q <;> cases h
  | scalar s =>
    cases s with
    | number l =>
      obtain ⟨n, -, hn⟩ := Option.map_eq_some_iff.1 h
      cases hn
    | _ => cases h
  | list items =>
    obtain ⟨vs, -, hvs⟩ := Option.map_eq_some_iff.1 h
    cases hvs

end Tree

namespace Reader

open Entries (ofPairs put putAll)
open RecordService.Json.Tree (IsMember firstName? value?)

/-! ## What the two machines hold -/

section
variable (inner : String → Except Fault Value)

/-- The members so far, last first, and what the reader holds of them. -/
def Holds (ms : List (Quoted × Tree Quoted Scalar)) (entries : Entries Value) : Prop :=
  firstName? ms.reverse ≠ some (.text embeddedName) ∧
    ∃ pairs, List.Forall₂ (IsMember inner) ms.reverse pairs ∧ entries = ofPairs pairs

/-- A name that is read for another member: the first one is not that of an embedded value. -/
def Plain (ms : List (Quoted × Tree Quoted Scalar)) (name : String) : Prop :=
  ms = [] → name ≠ embeddedName

inductive Frame.Follows : Frame → Tree.Frame Quoted Scalar → Prop where
  | list {vs : List Value} {ts : List (Tree Quoted Scalar)}
      (values : List.Forall₂ (fun t v => value? inner t = some v) ts vs) :
      Follows (.list vs) (.list ts)
  | map {entries : Entries Value} {ms : List (Quoted × Tree Quoted Scalar)} {name : String}
      (holds : Holds inner ms entries) (plain : Plain ms name) :
      Follows (.map entries name) (.map ms (.text name))

/-- The reader is where the machine for trees is, with the same lists and maps around it. An
embedded value is for the other machine the value of a member. -/
inductive Position.Follows (outer : List (Tree.Frame Quoted Scalar)) :
    Position → List (Tree.Frame Quoted Scalar) → Tree.Position Quoted Scalar → Prop where
  | value : Follows outer .value outer .value
  | firstItem : Follows outer .firstItem outer .firstItem
  | items {vs : List Value} {ts : List (Tree Quoted Scalar)}
      (values : List.Forall₂ (fun t v => value? inner t = some v) ts vs) :
      Follows outer (.items vs) outer (.items ts)
  | item : Follows outer .item outer .value
  | firstName : Follows outer .firstName outer .firstName
  | name {entries : Entries Value} {ms : List (Quoted × Tree Quoted Scalar)}
      (holds : Holds inner ms entries) (hne : ms ≠ []) :
      Follows outer (.name entries) outer (.name ms)
  | colon {entries : Entries Value} {ms : List (Quoted × Tree Quoted Scalar)} {name : String}
      (holds : Holds inner ms entries) (plain : Plain ms name) :
      Follows outer (.colon entries name) outer (.colon ms (.text name))
  | members {entries : Entries Value} {ms : List (Quoted × Tree Quoted Scalar)}
      (holds : Holds inner ms entries) (hne : ms ≠ []) :
      Follows outer (.members entries) outer (.members ms)
  | embeddedColon : Follows outer .embeddedColon outer (.colon [] (.text embeddedName))
  | embedded : Follows outer .embedded (.map [] (.text embeddedName) :: outer) .value
  | embeddedEnd {s : String} {v : Value} (held : inner s = .ok v) :
      Follows outer (.embeddedEnd v) outer (.members [(.text embeddedName, .text (.text s))])

/-- What a token leads the one machine to, it leads the other to. -/
def Progress.Follows : Progress → Tree.Progress Quoted Scalar → Prop
  | .done v, .done t => value? inner t = some v
  | .inside frames position, .inside opens treePosition =>
    ∃ outer, List.Forall₂ (Frame.Follows inner) frames outer ∧
      position.Follows inner outer opens treePosition
  | _, _ => False

end

variable {inner : String → Except Fault Value}

theorem holds_nil : Holds inner [] [] := ⟨nofun, [], .nil, rfl⟩

/-- A member is added. -/
theorem Holds.cons {ms : List (Quoted × Tree Quoted Scalar)} {entries : Entries Value}
    (h : Holds inner ms entries) {name : String} (hplain : Plain ms name)
    {t : Tree Quoted Scalar} {v : Value} (hv : value? inner t = some v) :
    Holds inner ((.text name, t) :: ms) (put name v entries) := by
  obtain ⟨hfirst, pairs, hpairs, rfl⟩ := h
  have hmember : List.Forall₂ (IsMember inner) [(.text name, t)] [(name, v)] :=
    .cons ⟨rfl, hv⟩ .nil
  refine ⟨?_, pairs ++ [(name, v)], ?_, ?_⟩
  · rw [List.reverse_cons]
    cases hms : ms.reverse with
    | nil =>
      have hname : name ≠ embeddedName := hplain (List.reverse_eq_nil_iff.1 hms)
      simpa [firstName?] using hname
    | cons m rest =>
      rw [hms] at hfirst
      exact hfirst
  · rw [List.reverse_cons]
    exact List.rel_append hpairs hmember
  · simp [ofPairs, putAll]

/-- The members are complete. -/
theorem Holds.value?_map {ms : List (Quoted × Tree Quoted Scalar)} {entries : Entries Value}
    (h : Holds inner ms entries) : value? inner (.map ms.reverse) = some (.map entries) := by
  obtain ⟨hfirst, pairs, hpairs, rfl⟩ := h
  rw [value?, if_neg hfirst, Tree.pairs?_eq_some.2 hpairs]
  rfl

/-! ## One token -/

theorem readName_ok {x : Lexeme} {name : String} (h : readName x = .ok name) :
    x.token = .text (.text name) := by
  unfold readName at h
  split at h
  · next hx => cases h; exact hx
  all_goals cases h

theorem readEmbedded_ok {path : List Place} {x : Lexeme} {v : Value}
    (h : readEmbedded inner path x = .ok v) :
    ∃ s, x.token = .text (.text s) ∧ inner s = .ok v := by
  unfold readEmbedded at h
  split at h
  · next s hx => exact ⟨s, hx, mapError_eq_ok.1 h⟩
  · split at h <;> cases h

section Step
variable {frames : List Frame} {outer : List (Tree.Frame Quoted Scalar)}
  (hframes : List.Forall₂ (Frame.Follows inner) frames outer)
include hframes

theorem complete_follows {t : Tree Quoted Scalar} {v : Value} (hv : value? inner t = some v) :
    (complete v frames).Follows inner (t.complete outer) := by
  cases hframes with
  | nil => exact hv
  | cons hframe hframes =>
    cases hframe with
    | list values => exact ⟨_, hframes, .items (.cons hv values)⟩
    | map holds plain => exact ⟨_, hframes, .members (holds.cons plain hv) (List.cons_ne_nil _ _)⟩

theorem enter_follows {position : Position} {treePosition : Tree.Position Quoted Scalar}
    (h : position.Follows inner outer outer treePosition) {x : Lexeme} {p : Progress}
    (henter : enter frames position x = .ok p) :
    p.Follows inner (.inside outer treePosition) := by
  unfold enter at henter
  split at henter
  · cases henter
    exact ⟨outer, hframes, h⟩
  · cases henter

theorem beginValue_follows {x : Lexeme} {p : Progress} (h : beginValue frames x = .ok p) :
    p.Follows inner (Tree.beginValue outer x.token) := by
  unfold beginValue at h
  generalize x.token = t at h
  split at h
  · exact enter_follows hframes .firstItem h
  · exact enter_follows hframes .firstName h
  · split at h
    · next v hv =>
      cases h
      cases t with
      | text q => exact complete_follows hframes (t := .text q) hv
      | scalar s => exact complete_follows hframes (t := .scalar s) hv
      | _ => cases hv
    · cases h

/-- A token that the reader takes leads the other machine along. -/
theorem advance_follows {position : Position} {opens : List (Tree.Frame Quoted Scalar)}
    {treePosition : Tree.Position Quoted Scalar}
    (h : position.Follows inner outer opens treePosition) {x : Lexeme} {p : Progress}
    (hadvance : advance inner frames position x = .ok p) :
    p.Follows inner (Tree.advance opens treePosition x.token) := by
  unfold advance at hadvance
  dsimp only at hadvance
  -- One case for each row of the reader, in its order.
  split at hadvance
  case h_1 =>
    cases h
    exact beginValue_follows hframes hadvance
  case h_2 hx =>
    cases h
    cases hadvance
    rw [hx]
    exact complete_follows hframes (t := .list []) rfl
  case h_3 hx =>
    cases h
    have hrow : Tree.advance outer .firstItem x.token
        = Tree.beginValue (.list [] :: outer) x.token := by
      cases htoken : x.token with
      | endList => exact absurd htoken hx
      | _ => rfl
    rw [hrow]
    exact beginValue_follows (.cons (.list .nil) hframes) hadvance
  case h_4 hx =>
    obtain _ | _ | ⟨values⟩ := h
    cases hadvance
    rw [hx]
    exact ⟨_, .cons (.list values) hframes, .item⟩
  case h_5 hx =>
    obtain _ | _ | ⟨values⟩ := h
    cases hadvance
    rw [hx]
    refine complete_follows hframes (t := .list _) ?_
    rw [value?, Tree.values?_eq_some.2 (List.rel_reverse values)]
    rfl
  case h_8 =>
    cases h
    exact beginValue_follows hframes hadvance
  case h_9 hx =>
    cases h
    cases hadvance
    rw [hx]
    exact complete_follows hframes (holds_nil.value?_map)
  case h_10 =>
    cases h
    obtain ⟨name, hname, hadvance⟩ := bind_eq_ok.1 hadvance
    cases hadvance
    rw [readName_ok hname]
    split
    · next heq =>
      subst heq
      exact ⟨_, hframes, .embeddedColon⟩
    · next hne => exact ⟨_, hframes, .colon holds_nil fun _ => hne⟩
  case h_12 =>
    obtain ⟨name, hname, hadvance⟩ := bind_eq_ok.1 hadvance
    cases hadvance
    rw [readName_ok hname]
    cases h with
    | name holds hne => exact ⟨_, hframes, .colon holds fun hnil => absurd hnil hne⟩
  case h_13 hx =>
    cases hadvance
    rw [hx]
    cases h with
    | colon holds plain => exact ⟨_, .cons (.map holds plain) hframes, .value⟩
  case h_15 hx =>
    cases hadvance
    rw [hx]
    cases h with
    | members holds hne => exact ⟨_, hframes, .name holds hne⟩
  case h_16 hx =>
    cases hadvance
    rw [hx]
    cases h with
    | members holds hne => exact complete_follows hframes holds.value?_map
  case h_18 hx =>
    cases h
    cases hadvance
    rw [hx]
    exact ⟨_, hframes, .embedded⟩
  case h_20 =>
    cases h
    obtain ⟨v, hv, hadvance⟩ := bind_eq_ok.1 hadvance
    cases hadvance
    obtain ⟨s, hx, hs⟩ := readEmbedded_ok hv
    rw [hx]
    exact ⟨_, hframes, .embeddedEnd hs⟩
  case h_21 hx =>
    cases hadvance
    rw [hx]
    cases h with
    | embeddedEnd held =>
      exact complete_follows hframes ((Tree.value?_embedded _).trans (toOption_eq_some.2 held))
  -- The other tokens are refused.
  all_goals cases hadvance

end Step

/-! ## A whole value -/

theorem readFrom_follows {xs rest : List Lexeme} {v : Value} {frames : List Frame}
    {position : Position} {outer opens : List (Tree.Frame Quoted Scalar)}
    {treePosition : Tree.Position Quoted Scalar}
    (hframes : List.Forall₂ (Frame.Follows inner) frames outer)
    (hp : position.Follows inner outer opens treePosition)
    (h : readFrom inner frames position xs = .ok (v, rest)) :
    ∃ t, Tree.readFrom opens treePosition (xs.map (·.token)) = some (t, rest.map (·.token)) ∧
      value? inner t = some v := by
  induction xs generalizing frames position outer opens treePosition with
  | nil => cases h
  | cons x xs ih =>
    rw [readFrom] at h
    rw [List.map_cons, Tree.readFrom]
    split at h
    · cases h
    · next hadvance =>
      cases h
      have hfollows := advance_follows hframes hp hadvance
      generalize Tree.advance opens treePosition x.token = p at hfollows ⊢
      cases p with
      | done t => exact ⟨t, rfl, hfollows⟩
      | _ => exact hfollows.elim
    · next hadvance =>
      have hfollows := advance_follows hframes hp hadvance
      generalize Tree.advance opens treePosition x.token = p at hfollows ⊢
      cases p with
      | inside next treeNext =>
        obtain ⟨outer, hframes, hp⟩ := hfollows
        exact ih hframes hp h
      | _ => exact hfollows.elim

/-- A value that is read is that of the tree that the same tokens make. -/
theorem readFrom_tree {xs rest : List Lexeme} {v : Value}
    (h : readFrom inner [] .value xs = .ok (v, rest)) :
    ∃ t, Tree.read? (xs.map (·.token)) = some (t, rest.map (·.token)) ∧ value? inner t = some v :=
  readFrom_follows .nil .value h

end Reader

end RecordService.Json
