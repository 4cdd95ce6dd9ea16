import Mathlib.Data.List.Forall2
import RecordService.Proofs.Entries
/-!
# Entries side by side

Two maps with the same names in the same order, whose values are related name by name. Every
operation on both keeps them so.
-/

namespace RecordService

/-- What is related to a list has something in it for each of its own. -/
theorem exists_of_related {α β : Type} {R : α → β → Prop} {xs : List α} {ys : List β}
    (h : List.Forall₂ R xs ys) : ∀ y ∈ ys, ∃ x ∈ xs, R x y := by
  induction h with
  | nil => nofun
  | cons hxy _ ih =>
    refine List.forall_mem_cons.2 ⟨⟨_, List.mem_cons_self, hxy⟩, fun y hy => ?_⟩
    obtain ⟨x, hx, hr⟩ := ih y hy
    exact ⟨x, List.mem_cons_of_mem _ hx, hr⟩

namespace Entries

variable {α β : Type} {R : String → α → β → Prop}

/-- The same names in the same order, and related values under each. -/
def Related (R : String → α → β → Prop) (es : Entries α) (fs : Entries β) : Prop :=
  List.Forall₂ (fun e f => e.1 = f.1 ∧ R e.1 e.2 f.2) es fs

namespace Related

variable {es new : Entries α} {fs new' : Entries β}

theorem names_eq (h : Related R es fs) : names es = names fs := by
  induction h with
  | nil => rfl
  | cons hentry _ ih =>
    simp only [names, List.map_cons, hentry.1] at ih ⊢
    rw [ih]

/-- What is found under a name is related, or missing in both. -/
theorem find?_cases (h : Related R es fs) (name : String) :
    (find? name es = none ∧ find? name fs = none) ∨
      ∃ v w, find? name es = some v ∧ find? name fs = some w ∧ R name v w := by
  induction h with
  | nil => exact .inl ⟨rfl, rfl⟩
  | @cons e f _ _ hentry _ ih =>
    obtain ⟨n, v⟩ := e
    obtain ⟨n', w⟩ := f
    obtain ⟨rfl, hvalue⟩ : n = n' ∧ R n v w := hentry
    rw [find?, find?]
    by_cases hn : n = name
    · rw [if_pos hn, if_pos hn]
      exact .inr ⟨v, w, rfl, rfl, hn ▸ hvalue⟩
    · rwa [if_neg hn, if_neg hn]

theorem put (h : Related R es fs) {name : String} {v : α} {w : β} (hvalue : R name v w) :
    Related R (put name v es) (put name w fs) := by
  induction h with
  | nil => exact .cons ⟨rfl, hvalue⟩ .nil
  | @cons e f _ _ hentry hrest ih =>
    obtain ⟨n, v'⟩ := e
    obtain ⟨n', w'⟩ := f
    obtain ⟨rfl, hold⟩ : n = n' ∧ R n v' w' := hentry
    rw [Entries.put, Entries.put]
    by_cases hn : n = name
    · rw [if_pos hn, if_pos hn]
      exact .cons ⟨rfl, hn ▸ hvalue⟩ hrest
    · rw [if_neg hn, if_neg hn]
      exact .cons ⟨rfl, hold⟩ ih

theorem putAll (hnew : Related R new new') (h : Related R es fs) :
    Related R (putAll new es) (putAll new' fs) := by
  induction hnew generalizing es fs with
  | nil => exact h
  | @cons e f _ _ hentry _ ih =>
    rw [putAll_cons, putAll_cons]
    exact ih (hentry.1 ▸ h.put hentry.2)

theorem ofPairs (h : Related R es fs) : Related R (ofPairs es) (ofPairs fs) :=
  h.putAll .nil

/-- Entries are kept by their names. -/
theorem filter (h : Related R es fs) (p : String → Bool) :
    Related R (es.filter fun e => p e.1) (fs.filter fun f => p f.1) := by
  induction h with
  | nil => exact .nil
  | @cons e f _ _ hentry _ ih =>
    rw [List.filter_cons, List.filter_cons, ← hentry.1]
    split
    · exact .cons hentry ih
    · exact ih

theorem erase (h : Related R es fs) (name : String) : Related R (erase name es) (erase name fs) :=
  h.filter fun n => decide (n ≠ name)

end Related

/-- Entries with equal values are equal. -/
theorem Related.eq {R : String → α → α → Prop} {es fs : Entries α} (h : Related R es fs)
    (hvalues : ∀ n ∈ names es, ∀ v w, R n v w → v = w) : es = fs := by
  induction h with
  | nil => rfl
  | @cons e f es fs hentry _ ih =>
    obtain ⟨n, v⟩ := e
    obtain ⟨n', w⟩ := f
    obtain ⟨rfl, hvalue⟩ : n = n' ∧ R n v w := hentry
    rw [hvalues n (by simp [names]) v w hvalue,
      ih fun m hm => hvalues m (List.mem_cons_of_mem _ hm)]

theorem Related.refl {R : String → α → α → Prop} (hrefl : ∀ n v, R n v v) (es : Entries α) :
    Related R es es :=
  List.forall₂_same.2 fun e _ => ⟨rfl, hrefl e.1 e.2⟩

end Entries

end RecordService
