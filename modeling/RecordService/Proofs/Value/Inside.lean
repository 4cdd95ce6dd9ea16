import RecordService.Proofs.Entries
import RecordService.Value
/-!
# Values inside values

The maps and the doubles inside a value, at any depth, and what it means that each of them has a
property. Values are nested in lists of values, so induction over them is stated here once.
-/

namespace RecordService.Value

/-- A value is inside itself, and inside the lists and maps that hold it. -/
inductive Inside (w : Value) : Value → Prop where
  | self : Inside w w
  | item {x : Value} {xs : List Value} : x ∈ xs → Inside w x → Inside w (.list xs)
  | member {e : String × Value} {ms : Entries Value} : e ∈ ms → Inside w e.2 → Inside w (.map ms)

/-- What holds of a list if it holds of its items, and of a map if it holds of its values, holds of
every value. -/
theorem nested_induction {motive : Value → Prop} (null : motive .null)
    (bool : ∀ b, motive (.bool b)) (number : ∀ n, motive (.number n))
    (string : ∀ s, motive (.string s))
    (list : ∀ xs : List Value, (∀ x ∈ xs, motive x) → motive (.list xs))
    (map : ∀ ms : Entries Value, (∀ e ∈ ms, motive e.2) → motive (.map ms)) : ∀ v, motive v
  | .null => null
  | .bool b => bool b
  | .number n => number n
  | .string s => string s
  | .list xs => list xs fun x _ => nested_induction null bool number string list map x
  | .map ms => map ms fun e he =>
    have : sizeOf e.2 < sizeOf ms := by
      have := List.sizeOf_lt_of_mem he
      cases e
      simp only [Prod.mk.sizeOf_spec] at this ⊢
      omega
    nested_induction null bool number string list map e.2

/-! ## Each map of a value -/

/-- Every map inside has the property. -/
def EachMap (p : Entries Value → Prop) (v : Value) : Prop :=
  ∀ ms, Inside (.map ms) v → p ms

/-- No map inside repeats a name. -/
def Distinct (v : Value) : Prop :=
  v.EachMap fun ms => (Entries.names ms).Nodup

variable {p q : Entries Value → Prop}

theorem EachMap.imp (h : ∀ ms, p ms → q ms) {v : Value} (hv : v.EachMap p) : v.EachMap q :=
  fun ms hms => h ms (hv ms hms)

@[simp] theorem eachMap_null : EachMap p .null := by rintro ms ⟨⟩

@[simp] theorem eachMap_bool (b : Bool) : EachMap p (.bool b) := by rintro ms ⟨⟩

@[simp] theorem eachMap_number (n : Number) : EachMap p (.number n) := by rintro ms ⟨⟩

@[simp] theorem eachMap_string (s : String) : EachMap p (.string s) := by rintro ms ⟨⟩

@[simp] theorem eachMap_list {xs : List Value} : EachMap p (.list xs) ↔ ∀ x ∈ xs, x.EachMap p := by
  constructor
  · exact fun h x hx ms hms => h ms (.item hx hms)
  · rintro h ms (_ | ⟨hx, hms⟩)
    exact h _ hx ms hms

@[simp] theorem eachMap_map {ms : Entries Value} :
    EachMap p (.map ms) ↔ p ms ∧ ∀ e ∈ ms, e.2.EachMap p := by
  constructor
  · exact fun h => ⟨h ms .self, fun e he ms hms => h ms (.member he hms)⟩
  · rintro ⟨hp, h⟩ ms' (_ | _ | ⟨he, hms⟩)
    · exact hp
    · exact h _ he ms' hms

/-! ## Each double of a value -/

/-- Every double inside has the property. -/
def EachReal (p : Decimal.Binary64 → Prop) (v : Value) : Prop :=
  ∀ x, Inside (.number (.real x)) v → p x

variable {p : Decimal.Binary64 → Prop}

@[simp] theorem eachReal_null : EachReal p .null := by rintro x ⟨⟩

@[simp] theorem eachReal_bool (b : Bool) : EachReal p (.bool b) := by rintro x ⟨⟩

@[simp] theorem eachReal_string (s : String) : EachReal p (.string s) := by rintro x ⟨⟩

@[simp] theorem eachReal_number {n : Number} :
    EachReal p (.number n) ↔ ∀ x, n = .real x → p x := by
  constructor
  · rintro h x rfl
    exact h x .self
  · rintro h x ⟨⟩
    exact h x rfl

@[simp] theorem eachReal_list {xs : List Value} :
    EachReal p (.list xs) ↔ ∀ x ∈ xs, x.EachReal p := by
  constructor
  · exact fun h x hx y hy => h y (.item hx hy)
  · rintro h y (_ | ⟨hx, hy⟩)
    exact h _ hx y hy

@[simp] theorem eachReal_map {ms : Entries Value} :
    EachReal p (.map ms) ↔ ∀ e ∈ ms, e.2.EachReal p := by
  constructor
  · exact fun h e he y hy => h y (.member he hy)
  · rintro h y (_ | _ | ⟨he, hy⟩)
    exact h _ he y hy

/-! ## Values without doubles -/

/-- No double is inside. -/
def Whole (v : Value) : Prop :=
  ∀ x, ¬ Inside (.number (.real x)) v

theorem whole_iff {v : Value} : Whole v ↔ v.EachReal fun _ => False := Iff.rfl

@[simp] theorem whole_null : Whole .null := eachReal_null

@[simp] theorem whole_bool (b : Bool) : Whole (.bool b) := eachReal_bool b

@[simp] theorem whole_string (s : String) : Whole (.string s) := eachReal_string s

@[simp] theorem whole_number {n : Number} : Whole (.number n) ↔ ∃ i, n = .integer i := by
  rw [whole_iff, eachReal_number]
  cases n <;> simp

@[simp] theorem whole_list {xs : List Value} : Whole (.list xs) ↔ ∀ x ∈ xs, Whole x :=
  eachReal_list

@[simp] theorem whole_map {ms : Entries Value} : Whole (.map ms) ↔ ∀ e ∈ ms, Whole e.2 :=
  eachReal_map

end RecordService.Value
