import RecordService.Json.Token
/-!
# JSON trees

What the tokens of a JSON text say, before anything is asked of its texts and scalars. A tree is
read from tokens by a machine that keeps the lists and maps that are still open, innermost first, so
that depth costs nothing.
-/

namespace RecordService.Json

inductive Tree (τ σ : Type) where
  | text (t : τ)
  | scalar (s : σ)
  | list (items : List (Tree τ σ))
  | map (members : List (τ × Tree τ σ))

namespace Tree

variable {τ σ : Type}

/-- An open list or map, at the place where a value is being read. -/
inductive Frame (τ σ : Type) where
  /-- The items before, last first. -/
  | list (items : List (Tree τ σ))
  /-- The members before, last first, and the name of the value. -/
  | map (members : List (τ × Tree τ σ)) (name : τ)

/-- What is read next, inside the innermost open list or map. -/
inductive Position (τ σ : Type) where
  | value
  /-- After `[`: a first item, or the end. -/
  | firstItem
  /-- After an item. -/
  | items (items : List (Tree τ σ))
  /-- After an opening brace: a first name, or the end. -/
  | firstName
  /-- After a comma between members. -/
  | name (members : List (τ × Tree τ σ))
  | colon (members : List (τ × Tree τ σ)) (name : τ)
  /-- After a member. -/
  | members (members : List (τ × Tree τ σ))

/-- What a token leads to. -/
inductive Progress (τ σ : Type) where
  | fault
  | inside (open_ : List (Frame τ σ)) (position : Position τ σ)
  | done (tree : Tree τ σ)

/-- A value is complete: it goes into the innermost open list or map. -/
def complete (t : Tree τ σ) : List (Frame τ σ) → Progress τ σ
  | [] => .done t
  | .list items :: frames => .inside frames (.items (t :: items))
  | .map members name :: frames => .inside frames (.members ((name, t) :: members))

/-- A value begins. -/
def beginValue (frames : List (Frame τ σ)) : Token τ σ → Progress τ σ
  | .beginList => .inside frames .firstItem
  | .beginMap => .inside frames .firstName
  | .text t => complete (.text t) frames
  | .scalar s => complete (.scalar s) frames
  | _ => .fault

/-- One token. -/
def advance (frames : List (Frame τ σ)) : Position τ σ → Token τ σ → Progress τ σ
  | .value, t => beginValue frames t
  | .firstItem, .endList => complete (.list []) frames
  | .firstItem, t => beginValue (.list [] :: frames) t
  | .items items, .comma => .inside (.list items :: frames) .value
  | .items items, .endList => complete (.list items.reverse) frames
  | .firstName, .endMap => complete (.map []) frames
  | .firstName, .text name => .inside frames (.colon [] name)
  | .name members, .text name => .inside frames (.colon members name)
  | .colon members name, .colon => .inside (.map members name :: frames) .value
  | .members members, .comma => .inside frames (.name members)
  | .members members, .endMap => complete (.map members.reverse) frames
  | _, _ => .fault

/-- Reads on from a position to the end of the outermost value. -/
def readFrom (frames : List (Frame τ σ)) (position : Position τ σ) :
    List (Token τ σ) → Option (Tree τ σ × List (Token τ σ))
  | [] => none
  | t :: ts =>
    match advance frames position t with
    | .fault => none
    | .done tree => some (tree, ts)
    | .inside frames position => readFrom frames position ts

/-- The tree at the head of the tokens, and the tokens after it. -/
def read? (ts : List (Token τ σ)) : Option (Tree τ σ × List (Token τ σ)) :=
  readFrom [] .value ts

/-- The tree that the tokens are as a whole. -/
def whole? (ts : List (Token τ σ)) : Option (Tree τ σ) :=
  match read? ts with
  | some (t, []) => some t
  | _ => none

theorem readFrom_length {ts rest : List (Token τ σ)} {tree : Tree τ σ} :
    ∀ {frames : List (Frame τ σ)} {position : Position τ σ},
      readFrom frames position ts = some (tree, rest) → rest.length < ts.length := by
  induction ts with
  | nil => intro _ _ h; simp [readFrom] at h
  | cons t ts ih =>
    intro frames position h
    rw [readFrom] at h
    split at h
    · simp at h
    · obtain ⟨rfl, rfl⟩ : _ ∧ ts = rest := by simpa using h
      simp
    · have := ih h
      simp only [List.length_cons]
      omega

/-- A value takes at least one token. -/
theorem read?_length {ts rest : List (Token τ σ)} {tree : Tree τ σ}
    (h : read? ts = some (tree, rest)) : rest.length < ts.length :=
  readFrom_length h

/-! ## Depth -/

mutual

/-- No more than `room` lists and maps stand inside each other. -/
def isWithin (room : Nat) : Tree τ σ → Bool
  | .list items =>
    match room with
    | 0 => false
    | room + 1 => areWithin room items
  | .map ms =>
    match room with
    | 0 => false
    | room + 1 => membersWithin room ms
  | _ => true

def areWithin (room : Nat) : List (Tree τ σ) → Bool
  | [] => true
  | t :: ts => isWithin room t && areWithin room ts

def membersWithin (room : Nat) : List (τ × Tree τ σ) → Bool
  | [] => true
  | (_, t) :: ms => isWithin room t && membersWithin room ms

end

end Tree

end RecordService.Json
