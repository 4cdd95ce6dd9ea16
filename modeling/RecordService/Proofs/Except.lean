import Mathlib.Data.List.Forall2
/-!
# Results taken apart

A chain of steps that may fail ends well exactly if each of its steps does, and fails only as one of
them may.
-/

namespace RecordService

variable {ε ε' α β : Type}

theorem bind_eq_ok {x : Except ε α} {f : α → Except ε β} {b : β} :
    x >>= f = .ok b ↔ ∃ a, x = .ok a ∧ f a = .ok b := by
  cases x with
  | error e => simp [bind, Except.bind]
  | ok a => simp [bind, Except.bind]

theorem map_eq_ok {x : Except ε α} {f : α → β} {b : β} :
    x.map f = .ok b ↔ ∃ a, x = .ok a ∧ f a = b := by
  cases x with
  | error e => simp [Except.map]
  | ok a => simp [Except.map]

theorem mapError_eq_ok {x : Except ε α} {f : ε → ε'} {a : α} :
    x.mapError f = .ok a ↔ x = .ok a := by
  cases x <;> simp [Except.mapError]

theorem toOption_eq_some {x : Except ε α} {a : α} : x.toOption = some a ↔ x = .ok a := by
  cases x <;> simp [Except.toOption]

/-- How the first step fails does not matter for the result. -/
theorem toOption_bind {x y : Except ε α} (h : x.toOption = y.toOption) (f : α → Except ε β) :
    (x >>= f).toOption = (y >>= f).toOption := by
  cases x <;> cases y <;> cases h <;> rfl

theorem exists_ok_of_isSome {x : Except ε α} (h : x.toOption.isSome = true) : ∃ a, x = .ok a := by
  obtain ⟨a, ha⟩ := Option.isSome_iff_exists.1 h
  exact ⟨a, toOption_eq_some.1 ha⟩

/-- A list is mapped well exactly if each of its items is. -/
theorem mapM_eq_ok {f : α → Except ε β} {xs : List α} {ys : List β} :
    xs.mapM f = .ok ys ↔ List.Forall₂ (fun x y => f x = .ok y) xs ys := by
  induction xs generalizing ys with
  | nil => simp [pure, Except.pure, eq_comm]
  | cons x xs ih =>
    rw [List.mapM_cons, bind_eq_ok]
    constructor
    · rintro ⟨y, hy, h⟩
      obtain ⟨ys, hys, h⟩ := bind_eq_ok.1 h
      cases h
      exact .cons hy (ih.1 hys)
    · rintro (_ | ⟨hy, hys⟩)
      exact ⟨_, hy, bind_eq_ok.2 ⟨_, ih.2 hys, rfl⟩⟩

theorem exists_mapM_eq_ok {f : α → Except ε β} {xs : List α} :
    (∃ ys, xs.mapM f = .ok ys) ↔ ∀ x ∈ xs, ∃ y, f x = .ok y := by
  induction xs with
  | nil => exact iff_of_true ⟨[], rfl⟩ (by simp)
  | cons x xs ih =>
    rw [List.forall_mem_cons, ← ih]
    constructor
    · rintro ⟨_, h⟩
      cases mapM_eq_ok.1 h with
      | cons hy hys => exact ⟨⟨_, hy⟩, _, mapM_eq_ok.2 hys⟩
    · rintro ⟨⟨y, hy⟩, ys, hys⟩
      exact ⟨_, mapM_eq_ok.2 (.cons hy (mapM_eq_ok.1 hys))⟩

/-- A list is mapped badly exactly if one of its items is, and the first such item tells how. -/
theorem mapM_eq_error {f : α → Except ε β} {xs : List α} {e : ε} :
    xs.mapM f = .error e ↔ ∃ before x after ys, xs = before ++ x :: after ∧
      List.Forall₂ (fun x y => f x = .ok y) before ys ∧ f x = .error e := by
  induction xs with
  | nil => simp [pure, Except.pure]
  | cons x xs ih =>
    rw [List.mapM_cons]
    cases hx : f x with
    | error e' =>
      constructor
      · rintro ⟨⟩
        exact ⟨[], x, xs, [], rfl, .nil, hx⟩
      · rintro ⟨_ | ⟨y, before⟩, z, after, ys, hsplit, hbefore, hz⟩
        · cases hsplit
          obtain rfl : e' = e := Except.error.inj (hx.symm.trans hz)
          rfl
        · cases hsplit
          cases hbefore with
          | cons hy _ => cases hx.symm.trans hy
    | ok y =>
      have hrest : (do let y ← Except.ok y; let ys ← xs.mapM f; pure (y :: ys)) = .error e ↔
          xs.mapM f = .error e := by
        cases xs.mapM f <;> simp [bind, Except.bind, pure, Except.pure]
      rw [hrest, ih]
      constructor
      · rintro ⟨before, z, after, ys, rfl, hbefore, hz⟩
        exact ⟨x :: before, z, after, y :: ys, rfl, .cons hx hbefore, hz⟩
      · rintro ⟨_ | ⟨x, before⟩, z, after, ys, hsplit, hbefore, hz⟩
        · cases hsplit
          cases hx.symm.trans hz
        · cases hsplit
          cases hbefore with
          | cons _ hbefore => exact ⟨before, z, after, _, rfl, hbefore, hz⟩

/-! ## How a chain may fail -/

/-- Whatever goes wrong is such an error. -/
def FailsWith (p : ε → Prop) (x : Except ε α) : Prop :=
  ∀ e, x = .error e → p e

namespace FailsWith

variable {p : ε → Prop}

theorem ok (a : α) : FailsWith p (.ok a) := by
  rintro e ⟨⟩

theorem error {e : ε} (h : p e) : FailsWith p (.error e : Except ε α) := by
  rintro _ ⟨⟩
  exact h

theorem bind {x : Except ε α} {f : α → Except ε β} (hx : FailsWith p x)
    (hf : ∀ a, FailsWith p (f a)) : FailsWith p (x >>= f) := by
  cases x with
  | error e => exact error (hx e rfl)
  | ok a => exact hf a

theorem map {x : Except ε α} {f : α → β} (hx : FailsWith p x) : FailsWith p (x.map f) := by
  cases x with
  | error e => exact error (hx e rfl)
  | ok a => exact ok (f a)

theorem mapM {f : α → Except ε β} (hf : ∀ a, FailsWith p (f a)) (xs : List α) :
    FailsWith p (xs.mapM f) := by
  induction xs with
  | nil => exact ok []
  | cons x xs ih =>
    rw [List.mapM_cons]
    exact (hf x).bind fun _ => ih.bind fun _ => ok _

end FailsWith

/-! ## Two chains side by side -/

/-- Both end well with related results, or both fail with the same error. -/
inductive Agree (R : α → β → Prop) : Except ε α → Except ε β → Prop where
  | ok {a : α} {b : β} (h : R a b) : Agree R (.ok a) (.ok b)
  | error (e : ε) : Agree R (.error e) (.error e)

namespace Agree

variable {γ δ : Type} {R : α → β → Prop} {S : γ → δ → Prop} {x : Except ε α} {y : Except ε β}

theorem bind (h : Agree R x y) {f : α → Except ε γ} {g : β → Except ε δ}
    (hnext : ∀ a b, R a b → Agree S (f a) (g b)) : Agree S (x >>= f) (y >>= g) := by
  cases h with
  | ok hab => exact hnext _ _ hab
  | error e => exact .error e

theorem refl (R : α → α → Prop) (hrefl : ∀ a, R a a) (x : Except ε α) : Agree R x x := by
  cases x with
  | ok a => exact .ok (hrefl a)
  | error e => exact .error e

/-- More may be known of the results than of each step. -/
theorem imp (h : Agree R x y) {T : α → β → Prop}
    (hok : ∀ a b, x = .ok a → y = .ok b → T a b) : Agree T x y := by
  cases h with
  | ok _ => exact .ok (hok _ _ rfl rfl)
  | error e => exact .error e

end Agree

end RecordService
