import Mathlib.Data.List.Perm.Subperm
import RecordService.Proofs.Value.Inside
/-!
# Equality of values

What equality says of lists and of maps. Where names are not repeated, equal maps have the same
names in some order, and stay equal without one of them.
-/

namespace RecordService

namespace Entries

variable {α β : Type}

/-- If distinct names are all found among as many entries, these have no other names. -/
theorem names_perm {xs : Entries α} {ys : Entries β} (hn : (names xs).Nodup)
    (hlength : xs.length = ys.length) (hfound : ∀ e ∈ xs, ∃ y, find? e.1 ys = some y) :
    (names xs).Perm (names ys) := by
  have hmem : ∀ n ∈ names xs, n ∈ names ys := by
    intro n hn
    obtain ⟨e, he, rfl⟩ := List.mem_map.1 hn
    obtain ⟨y, hy⟩ := hfound e he
    exact mem_names (mem_of_find? hy)
  have hsub : (names xs).Subperm (names ys) := List.subperm_of_subset hn hmem
  refine hsub.perm_of_length_le ?_
  simp [names, hlength]

end Entries

namespace Value

open Decimal Entries

theorem beqItems_iff {xs ys : List Value} :
    beqItems xs ys = true ↔ List.Forall₂ (fun x y => (x == y) = true) xs ys := by
  induction xs generalizing ys with
  | nil => cases ys <;> simp [beqItems]
  | cons x xs ih =>
    cases ys with
    | nil => simp [beqItems]
    | cons y ys =>
      rw [beqItems, Bool.and_eq_true, ih, List.forall₂_cons]
      rfl

theorem list_beq_iff {xs ys : List Value} :
    (Value.list xs == .list ys) = true ↔ List.Forall₂ (fun x y => (x == y) = true) xs ys :=
  beqItems_iff

theorem beqMembers_iff {xs ys : Entries Value} : beqMembers xs ys = true ↔
    ∀ e ∈ xs, ∃ y, find? e.1 ys = some y ∧ (e.2 == y) = true := by
  induction xs with
  | nil => simp [beqMembers]
  | cons e xs ih =>
    rw [beqMembers, Bool.and_eq_true, ih, List.forall_mem_cons]
    refine and_congr_left fun _ => ?_
    cases find? e.1 ys with
    | none => simp
    | some y => simp only [Option.some.injEq, exists_eq_left']; rfl

theorem map_beq_iff {xs ys : Entries Value} : (Value.map xs == .map ys) = true ↔
    xs.length = ys.length ∧ ∀ e ∈ xs, ∃ y, find? e.1 ys = some y ∧ (e.2 == y) = true := by
  change (xs.length == ys.length && beqMembers xs ys) = true ↔ _
  rw [Bool.and_eq_true, beq_iff_eq, beqMembers_iff]

@[simp] theorem string_beq {s t : String} : (Value.string s == .string t) = true ↔ s = t := by
  change (s == t) = true ↔ _
  exact beq_iff_eq

theorem beq_string_iff {v : Value} {s : String} : (v == .string s) = true ↔ v = .string s := by
  cases v with
  | string t => rw [string_beq, Value.string.injEq]
  | _ => exact iff_of_false Bool.false_ne_true nofun

@[simp] theorem bool_beq {a b : Bool} : (Value.bool a == .bool b) = true ↔ a = b := by
  change (a == b) = true ↔ _
  exact beq_iff_eq

theorem number_beq_refl (n : Number) : (n == n) = true := by
  cases n with
  | integer i => exact decide_eq_true rfl
  | real x => exact Binary64.beq_refl x

/-- A value without repeated names equals itself. -/
theorem beq_refl {v : Value} (h : v.Distinct) : (v == v) = true := by
  induction v using nested_induction with
  | null => rfl
  | bool b => simp
  | number n => exact number_beq_refl n
  | string s => simp
  | list xs ih =>
    exact list_beq_iff.2 (List.forall₂_same.2 fun x hx => ih x hx (eachMap_list.1 h x hx))
  | map ms ih =>
    obtain ⟨hn, hvalues⟩ := eachMap_map.1 h
    exact map_beq_iff.2 ⟨rfl, fun e he => ⟨e.2, find?_of_mem hn he, ih e he (hvalues e he)⟩⟩

/-! ## Maps without repeated names -/

section Maps
variable {xs ys : Entries Value} (hn : (names xs).Nodup) (h : (Value.map xs == .map ys) = true)
include hn h

theorem names_perm_of_beq : (names xs).Perm (names ys) := by
  obtain ⟨hlength, hfound⟩ := map_beq_iff.1 h
  refine names_perm hn hlength fun e he => ?_
  obtain ⟨y, hy, -⟩ := hfound e he
  exact ⟨y, hy⟩

theorem beq_erase (name : String) : (Value.map (erase name xs) == .map (erase name ys)) = true := by
  refine map_beq_iff.2 ⟨?_, fun e he => ?_⟩
  · -- The names are the same, so as many of them are left.
    have hnames : ∀ es : Entries Value, (erase name es).length
        = ((names es).filter fun n => decide (n ≠ name)).length := fun es => by
      rw [names, List.filter_map, List.length_map]
      rfl
    rw [hnames, hnames]
    exact ((names_perm_of_beq hn h).filter _).length_eq
  · obtain ⟨he, hne⟩ := mem_erase.1 he
    obtain ⟨y, hy, hbeq⟩ := (map_beq_iff.1 h).2 e he
    exact ⟨y, by rw [find?_erase, if_neg (Ne.symm hne), hy], hbeq⟩

omit h in
/-- Maps are equal if each name has equal values in both, or none, wherever it stands. -/
theorem map_beq_iff_find? (hn' : (names ys).Nodup) : (Value.map xs == .map ys) = true ↔
    ∀ name, Option.Rel (fun v w => (v == w) = true) (find? name xs) (find? name ys) := by
  constructor
  · intro h name
    have hperm := names_perm_of_beq hn h
    cases hx : find? name xs with
    | none =>
      have hy : find? name ys = none := by
        rw [find?_eq_none_iff] at hx ⊢
        rwa [← hperm.mem_iff]
      rw [hy]
      exact .none
    | some v =>
      obtain ⟨w, hw, hbeq⟩ := (map_beq_iff.1 h).2 _ (mem_of_find? hx)
      rw [hw]
      exact .some hbeq
  · intro h
    have hfound : ∀ e ∈ xs, ∃ y, find? e.1 ys = some y ∧ (e.2 == y) = true := by
      intro e he
      have hrel := h e.1
      rw [find?_of_mem hn he] at hrel
      generalize find? e.1 ys = found at hrel
      cases hrel with
      | some hbeq => exact ⟨_, rfl, hbeq⟩
    have hmem : ∀ name, name ∈ names xs ↔ name ∈ names ys := by
      intro name
      have hrel := h name
      rw [← find?_isSome, ← find?_isSome]
      generalize find? name xs = x, find? name ys = y at hrel
      cases hrel <;> simp
    have hlength := ((List.perm_ext_iff_of_nodup hn hn').2 hmem).length_eq
    refine map_beq_iff.2 ⟨?_, hfound⟩
    simpa [names] using hlength

end Maps

end Value

end RecordService
