import Mathlib.Data.List.Basic
import RecordService.Json.Tree
/-!
# Trees and their tokens

A tree is spelled by one list of tokens, and the machine that reads trees takes just these tokens:
`read?_eq_some`. What it has taken so far can be told from the lists and maps that are still open
and from its position: `opened` tells it, and each token is added to it until the tree is complete.
-/

namespace RecordService.Json.Tree

variable {τ σ : Type}

mutual

/-- The tokens of a tree. -/
def spelled : Tree τ σ → List (Token τ σ)
  | .text t => [.text t]
  | .scalar s => [.scalar s]
  | .list items => .beginList :: ([.comma].intercalate (itemsSpelled items) ++ [.endList])
  | .map ms => .beginMap :: ([.comma].intercalate (membersSpelled ms) ++ [.endMap])

def itemsSpelled : List (Tree τ σ) → List (List (Token τ σ))
  | [] => []
  | t :: ts => t.spelled :: itemsSpelled ts

def membersSpelled : List (τ × Tree τ σ) → List (List (Token τ σ))
  | [] => []
  | (name, t) :: ms => (.text name :: .colon :: t.spelled) :: membersSpelled ms

end

/-- What holds of a list if it holds of its items, and of a map if it holds of its values, holds of
every tree. -/
theorem nested_induction {motive : Tree τ σ → Prop} (text : ∀ t, motive (.text t))
    (scalar : ∀ s, motive (.scalar s))
    (list : ∀ items : List (Tree τ σ), (∀ t ∈ items, motive t) → motive (.list items))
    (map : ∀ ms : List (τ × Tree τ σ), (∀ m ∈ ms, motive m.2) → motive (.map ms)) : ∀ t, motive t
  | .text t => text t
  | .scalar s => scalar s
  | .list items => list items fun t _ => nested_induction text scalar list map t
  | .map ms => map ms fun m hm =>
    have : sizeOf m.2 < sizeOf ms := by
      have := List.sizeOf_lt_of_mem hm
      cases m
      simp only [Prod.mk.sizeOf_spec] at this ⊢
      omega
    nested_induction text scalar list map m.2

/-- The tokens of a member. -/
def memberSpelled (m : τ × Tree τ σ) : List (Token τ σ) :=
  .text m.1 :: .colon :: m.2.spelled

theorem itemsSpelled_eq (ts : List (Tree τ σ)) : itemsSpelled ts = ts.map spelled := by
  induction ts with
  | nil => rfl
  | cons t ts ih => rw [itemsSpelled, ih, List.map_cons]

theorem membersSpelled_eq (ms : List (τ × Tree τ σ)) :
    membersSpelled ms = ms.map memberSpelled := by
  induction ms with
  | nil => rfl
  | cons m ms ih =>
    obtain ⟨name, t⟩ := m
    rw [membersSpelled, ih, List.map_cons, memberSpelled]

theorem spelled_list (items : List (Tree τ σ)) : (list items).spelled
    = .beginList :: ([.comma].intercalate (items.map spelled) ++ [.endList]) := by
  rw [spelled, itemsSpelled_eq]

theorem spelled_map (ms : List (τ × Tree τ σ)) : (map ms).spelled
    = .beginMap :: ([.comma].intercalate (ms.map memberSpelled) ++ [.endMap]) := by
  rw [spelled, membersSpelled_eq]

/-! ## What has been taken -/

/-- The parts with a comma after each of them. -/
def commaAfter (parts : List (List (Token τ σ))) : List (Token τ σ) :=
  parts.flatMap (· ++ [.comma])

theorem commaAfter_concat (parts : List (List (Token τ σ))) (part : List (Token τ σ)) :
    commaAfter (parts ++ [part]) = [.comma].intercalate (parts ++ [part]) ++ [.comma] := by
  induction parts with
  | nil => simp [commaAfter]
  | cons first parts ih =>
    have hne : parts ++ [part] ≠ [] := by simp
    rw [commaAfter] at ih
    rw [List.cons_append, commaAfter, List.flatMap_cons, ih, List.intercalate_cons_of_ne_nil hne]
    simp only [List.append_assoc]

/-- A last part goes without a comma. -/
theorem intercalate_concat (parts : List (List (Token τ σ))) (part : List (Token τ σ)) :
    [.comma].intercalate (parts ++ [part]) = commaAfter parts ++ part := by
  have h := commaAfter_concat parts part
  rw [commaAfter, List.flatMap_append, List.flatMap_singleton, ← List.append_assoc] at h
  exact (List.append_cancel_right h).symm

/-- The tokens of an open list or map, up to the value that is being read. -/
def Frame.opened : Frame τ σ → List (Token τ σ)
  | .list items => .beginList :: commaAfter (items.reverse.map spelled)
  | .map ms name => .beginMap :: (commaAfter (ms.reverse.map memberSpelled) ++ [.text name, .colon])

/-- The tokens of the list or map that the position is in. -/
def Position.opened : Position τ σ → List (Token τ σ)
  | .value => []
  | .firstItem => [.beginList]
  | .items ts => .beginList :: [.comma].intercalate (ts.reverse.map spelled)
  | .firstName => [.beginMap]
  | .name ms => .beginMap :: commaAfter (ms.reverse.map memberSpelled)
  | .colon ms n => .beginMap :: (commaAfter (ms.reverse.map memberSpelled) ++ [.text n])
  | .members ms => .beginMap :: [.comma].intercalate (ms.reverse.map memberSpelled)

def openedFrames (frames : List (Frame τ σ)) : List (Token τ σ) :=
  frames.reverse.flatMap Frame.opened

/-- All tokens so far. -/
def opened (frames : List (Frame τ σ)) (position : Position τ σ) : List (Token τ σ) :=
  openedFrames frames ++ position.opened

/-- What stands after an item or a member has one before it. -/
def Position.Proper : Position τ σ → Prop
  | .items ts => ts ≠ []
  | .members ms => ms ≠ []
  | _ => True

/-- The tokens lead here. -/
def Progress.Takes (ts : List (Token τ σ)) : Progress τ σ → Prop
  | .fault => True
  | .inside frames position => opened frames position = ts ∧ position.Proper
  | .done tree => tree.spelled = ts

theorem openedFrames_cons (f : Frame τ σ) (frames : List (Frame τ σ)) :
    openedFrames (f :: frames) = openedFrames frames ++ f.opened := by
  simp [openedFrames]

section Step
variable (frames : List (Frame τ σ))

theorem complete_takes (t : Tree τ σ) :
    (complete t frames).Takes (openedFrames frames ++ t.spelled) := by
  cases frames with
  | nil => rfl
  | cons f frames =>
    rw [openedFrames_cons, List.append_assoc]
    cases f with
    | list items =>
      refine ⟨?_, List.cons_ne_nil _ _⟩
      rw [opened, Position.opened, List.reverse_cons, List.map_append, List.map_singleton,
        intercalate_concat]
      rfl
    | map ms name =>
      refine ⟨?_, List.cons_ne_nil _ _⟩
      rw [opened, Position.opened, List.reverse_cons, List.map_append, List.map_singleton,
        intercalate_concat, Frame.opened, memberSpelled, List.cons_append, List.append_assoc]
      rfl

theorem beginValue_takes (t : Token τ σ) :
    (beginValue frames t).Takes (openedFrames frames ++ [t]) := by
  cases t with
  | beginList | beginMap => exact ⟨rfl, trivial⟩
  | text t => exact complete_takes frames (.text t)
  | scalar s => exact complete_takes frames (.scalar s)
  | _ => trivial

theorem advance_takes {position : Position τ σ} (hp : position.Proper) (t : Token τ σ) :
    (advance frames position t).Takes (opened frames position ++ [t]) := by
  rw [opened, List.append_assoc]
  -- One case for each row of the machine, in its order.
  unfold advance
  split
  case h_1 => exact beginValue_takes frames t
  case h_2 => exact complete_takes frames (.list [])
  case h_3 =>
    have htakes := beginValue_takes (.list [] :: frames) t
    rwa [openedFrames_cons, List.append_assoc] at htakes
  case h_4 items =>
    obtain ⟨items, item, rfl⟩ : ∃ before last, items = last :: before :=
      match items, hp with | last :: before, _ => ⟨before, last, rfl⟩
    refine ⟨?_, trivial⟩
    rw [opened, openedFrames_cons, Frame.opened, Position.opened, Position.opened,
      List.reverse_cons, List.map_append, List.map_singleton, commaAfter_concat]
    simp
  case h_5 items =>
    have htakes := complete_takes frames (.list items.reverse)
    rwa [spelled_list] at htakes
  case h_6 => exact complete_takes frames (.map [])
  case h_7 => exact ⟨rfl, trivial⟩
  case h_8 => exact ⟨rfl, trivial⟩
  case h_9 =>
    refine ⟨?_, trivial⟩
    rw [opened, openedFrames_cons, Frame.opened, Position.opened, Position.opened]
    simp
  case h_10 ms =>
    obtain ⟨ms, m, rfl⟩ : ∃ before last, ms = last :: before :=
      match ms, hp with | last :: before, _ => ⟨before, last, rfl⟩
    refine ⟨?_, trivial⟩
    rw [opened, Position.opened, Position.opened, List.reverse_cons, List.map_append,
      List.map_singleton, commaAfter_concat]
    rfl
  case h_11 ms =>
    have htakes := complete_takes frames (.map ms.reverse)
    rwa [spelled_map] at htakes
  case h_12 => trivial

end Step

/-! ## A whole tree -/

theorem readFrom_spelled {ts rest : List (Token τ σ)} {tree : Tree τ σ}
    {frames : List (Frame τ σ)} {position : Position τ σ} (hp : position.Proper)
    (h : readFrom frames position ts = some (tree, rest)) :
    opened frames position ++ ts = tree.spelled ++ rest := by
  induction ts generalizing frames position with
  | nil => cases h
  | cons t ts ih =>
    have htakes := advance_takes frames hp t
    rw [List.append_cons]
    rw [readFrom] at h
    split at h
    · cases h
    · next hadvance =>
      cases h
      rw [hadvance] at htakes
      rw [← show tree.spelled = _ from htakes]
    · next hadvance =>
      rw [hadvance] at htakes
      obtain ⟨hopened, hp⟩ := htakes
      rw [← hopened]
      exact ih hp h

/-- The tree that is read is spelled by the tokens that are taken. -/
theorem read?_spelled {ts rest : List (Token τ σ)} {tree : Tree τ σ}
    (h : read? ts = some (tree, rest)) : ts = tree.spelled ++ rest := by
  have hp : (Position.value : Position τ σ).Proper := trivial
  exact readFrom_spelled hp h

/-! ## Every tree is read -/

/-- Where the reading goes on after a token. -/
def Progress.resume (ts : List (Token τ σ)) : Progress τ σ → Option (Tree τ σ × List (Token τ σ))
  | .fault => none
  | .done t => some (t, ts)
  | .inside frames position => readFrom frames position ts

theorem readFrom_cons (frames : List (Frame τ σ)) (position : Position τ σ) (t : Token τ σ)
    (ts : List (Token τ σ)) :
    readFrom frames position (t :: ts) = (advance frames position t).resume ts := by
  rw [readFrom]
  cases advance frames position t <;> rfl

/-- A tree is read as a value, whatever is open around it. -/
def IsTaken (t : Tree τ σ) : Prop :=
  ∀ (frames : List (Frame τ σ)) (rest : List (Token τ σ)),
    readFrom frames .value (t.spelled ++ rest) = (t.complete frames).resume rest

/-- A first item is read as a value. -/
theorem readFrom_firstItem (t : Tree τ σ) (frames : List (Frame τ σ)) (rest : List (Token τ σ)) :
    readFrom frames .firstItem (t.spelled ++ rest)
      = readFrom (.list [] :: frames) .value (t.spelled ++ rest) := by
  cases t with
  | list items => rw [spelled_list]; rfl
  | map ms => rw [spelled_map]; rfl
  | _ => rfl

theorem intercalate_cons (part : List (Token τ σ)) (parts : List (List (Token τ σ))) :
    [.comma].intercalate (part :: parts) = part ++ parts.flatMap (.comma :: ·) := by
  induction parts generalizing part with
  | nil => simp
  | cons next parts ih => rw [List.intercalate_cons_cons, ih, List.flatMap_cons]; simp

/-- Each part stands between the commas. -/
theorem sublist_intercalate {part : List (Token τ σ)} {parts : List (List (Token τ σ))}
    (h : part ∈ parts) : part.Sublist ([.comma].intercalate parts) := by
  obtain ⟨first, parts, rfl⟩ := List.exists_cons_of_ne_nil (List.ne_nil_of_mem h)
  rw [intercalate_cons]
  rcases List.mem_cons.1 h with rfl | h
  · exact List.sublist_append_left ..
  · have hcomma : (.comma :: part).Sublist (parts.flatMap (.comma :: ·)) :=
      List.sublist_flatten_of_mem (List.mem_map_of_mem h)
    exact (List.sublist_cons_self ..).trans (hcomma.trans (List.sublist_append_right ..))

/-- The items after the first. -/
theorem readFrom_items {items : List (Tree τ σ)} (h : ∀ t ∈ items, t.IsTaken)
    (frames : List (Frame τ σ)) (before : List (Tree τ σ)) (rest : List (Token τ σ)) :
    readFrom frames (.items before)
        ((items.map spelled).flatMap (.comma :: ·) ++ .endList :: rest)
      = (complete (.list (before.reverse ++ items)) frames).resume rest := by
  induction items generalizing before with
  | nil =>
    rw [List.append_nil]
    exact readFrom_cons ..
  | cons t items ih =>
    obtain ⟨ht, hitems⟩ := List.forall_mem_cons.1 h
    rw [List.map_cons, List.flatMap_cons, List.cons_append, List.cons_append, readFrom_cons]
    change readFrom (.list before :: frames) .value _ = _
    rw [List.append_assoc, ht]
    change readFrom frames (.items (t :: before)) _ = _
    rw [ih hitems]
    simp

/-- The members after the first. -/
theorem readFrom_members {ms : List (τ × Tree τ σ)} (h : ∀ m ∈ ms, m.2.IsTaken)
    (frames : List (Frame τ σ)) (before : List (τ × Tree τ σ)) (rest : List (Token τ σ)) :
    readFrom frames (.members before)
        ((ms.map memberSpelled).flatMap (.comma :: ·) ++ .endMap :: rest)
      = (complete (.map (before.reverse ++ ms)) frames).resume rest := by
  induction ms generalizing before with
  | nil =>
    rw [List.append_nil]
    exact readFrom_cons ..
  | cons m ms ih =>
    obtain ⟨hm, hms⟩ := List.forall_mem_cons.1 h
    obtain ⟨name, t⟩ := m
    rw [List.map_cons, List.flatMap_cons, memberSpelled]
    simp only [List.cons_append]
    rw [readFrom_cons]
    change readFrom frames (.name before) _ = _
    rw [readFrom_cons]
    change readFrom frames (.colon before name) _ = _
    rw [readFrom_cons]
    change readFrom (.map before name :: frames) .value _ = _
    rw [List.append_assoc, hm]
    change readFrom frames (.members ((name, t) :: before)) _ = _
    rw [ih hms]
    simp

theorem isTaken (t : Tree τ σ) : t.IsTaken := by
  induction t using nested_induction with
  | text t => exact fun frames rest => readFrom_cons ..
  | scalar s => exact fun frames rest => readFrom_cons ..
  | list items ih =>
    intro frames rest
    rw [spelled_list, List.cons_append, readFrom_cons]
    change readFrom frames .firstItem _ = _
    cases items with
    | nil => exact readFrom_cons ..
    | cons t items =>
      obtain ⟨ht, hitems⟩ := List.forall_mem_cons.1 ih
      rw [List.map_cons, intercalate_cons, List.append_assoc, List.append_assoc, readFrom_firstItem,
        ht]
      exact readFrom_items hitems frames [t] rest
  | map ms ih =>
    intro frames rest
    rw [spelled_map, List.cons_append, readFrom_cons]
    change readFrom frames .firstName _ = _
    cases ms with
    | nil => exact readFrom_cons ..
    | cons m ms =>
      obtain ⟨hm, hms⟩ := List.forall_mem_cons.1 ih
      obtain ⟨name, t⟩ := m
      rw [List.map_cons, intercalate_cons, memberSpelled]
      simp only [List.cons_append, List.append_assoc]
      rw [readFrom_cons]
      change readFrom frames (.colon [] name) _ = _
      rw [readFrom_cons]
      change readFrom (.map [] name :: frames) .value _ = _
      rw [hm]
      exact readFrom_members hms frames [(name, t)] rest

/-- The trees that are read are those that the tokens begin with. -/
theorem read?_eq_some {ts rest : List (Token τ σ)} {tree : Tree τ σ} :
    read? ts = some (tree, rest) ↔ ts = tree.spelled ++ rest := by
  constructor
  · exact read?_spelled
  · rintro rfl
    exact isTaken tree [] rest

end RecordService.Json.Tree
