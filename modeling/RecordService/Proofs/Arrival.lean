import Mathlib.Data.List.Induction
import RecordService.Proofs.Entries
/-!
# The order of arrival

Entries keep their names in the order in which these came in. What an operation does to the names is
a touch: it writes a name, erases one, or does neither. After touches, the names that are there are
those that were written and not erased since, each once, in the order of the touches that last
brought them in.
-/

namespace RecordService.Entries

/-- What an operation does to the names of entries. -/
inductive Touch where
  | write (name : String)
  | erase (name : String)
  | neither

/-- A name that is written goes to the end, unless it is there. -/
def Touch.apply (ns : List String) : Touch → List String
  | .write n => if n ∈ ns then ns else ns ++ [n]
  | .erase n => ns.filter (· ≠ n)
  | .neither => ns

/-- The names after touches, where there were none. -/
def touched (ts : List Touch) : List String :=
  ts.foldl Touch.apply []

/-- The name was written, and not erased since. -/
def Present (name : String) (ts : List Touch) : Prop :=
  ∃ before later, ts = before ++ .write name :: later ∧ .erase name ∉ later

/-- The touch at place `i` brought the name in, where it has been ever since. -/
def ArrivesAt (name : String) (ts : List Touch) (i : Nat) : Prop :=
  ∃ before later, ts = before ++ .write name :: later ∧ before.length = i ∧
    ¬Present name before ∧ .erase name ∉ later

/-! ## One more touch -/

theorem concat_eq_append_cons_iff {α : Type} {xs before later : List α} {x y : α} :
    xs ++ [x] = before ++ y :: later ↔
      (xs = before ∧ x = y ∧ later = []) ∨
        ∃ rest, later = rest ++ [x] ∧ xs = before ++ y :: rest := by
  rcases List.eq_nil_or_concat later with rfl | ⟨rest, z, rfl⟩
  · simp
  · constructor
    · intro h
      rw [List.concat_eq_append, ← List.cons_append, ← List.append_assoc] at h
      obtain ⟨rfl, hlast⟩ := List.append_inj' h rfl
      cases hlast
      exact .inr ⟨rest, List.concat_eq_append, rfl⟩
    · rintro (⟨-, -, hnil⟩ | ⟨rest', hlater, rfl⟩)
      · simp at hnil
      · rw [hlater]
        simp

variable {name other : String} {ts : List Touch} {t : Touch} {i j : Nat}

theorem present_concat :
    Present name (ts ++ [t]) ↔ t = .write name ∨ (Present name ts ∧ t ≠ .erase name) := by
  constructor
  · rintro ⟨before, later, hts, hlater⟩
    rcases concat_eq_append_cons_iff.1 hts with ⟨-, rfl, -⟩ | ⟨rest, rfl, rfl⟩
    · exact .inl rfl
    · rw [List.mem_append, List.mem_singleton, not_or] at hlater
      exact .inr ⟨⟨before, rest, rfl, hlater.1⟩, Ne.symm hlater.2⟩
  · rintro (rfl | ⟨⟨before, later, rfl, hlater⟩, ht⟩)
    · exact ⟨ts, [], rfl, by simp⟩
    · exact ⟨before, later ++ [t], by simp, by simp [hlater, Ne.symm ht]⟩

theorem arrivesAt_concat : ArrivesAt name (ts ++ [t]) i ↔
    (t = .write name ∧ ts.length = i ∧ ¬Present name ts) ∨
      (ArrivesAt name ts i ∧ t ≠ .erase name) := by
  constructor
  · rintro ⟨before, later, hts, hi, habsent, hlater⟩
    rcases concat_eq_append_cons_iff.1 hts with ⟨rfl, rfl, -⟩ | ⟨rest, rfl, rfl⟩
    · exact .inl ⟨rfl, hi, habsent⟩
    · rw [List.mem_append, List.mem_singleton, not_or] at hlater
      exact .inr ⟨⟨before, rest, rfl, hi, habsent, hlater.1⟩, Ne.symm hlater.2⟩
  · rintro (⟨rfl, hi, habsent⟩ | ⟨⟨before, later, rfl, hi, habsent, hlater⟩, ht⟩)
    · exact ⟨ts, [], rfl, hi, habsent, by simp⟩
    · exact ⟨before, later ++ [t], by simp, hi, habsent, by simp [hlater, Ne.symm ht]⟩

theorem not_present_nil : ¬Present name [] := by
  rintro ⟨before, later, hts, -⟩
  simp at hts

/-! ## The place of a name -/

theorem ArrivesAt.present (h : ArrivesAt name ts i) : Present name ts := by
  obtain ⟨before, later, rfl, -, -, hlater⟩ := h
  exact ⟨before, later, rfl, hlater⟩

theorem ArrivesAt.lt_length (h : ArrivesAt name ts i) : i < ts.length := by
  obtain ⟨before, later, rfl, rfl, -, -⟩ := h
  simp

theorem Present.exists_arrivesAt (h : Present name ts) : ∃ i, ArrivesAt name ts i := by
  induction ts using List.reverseRecOn with
  | nil => exact absurd h not_present_nil
  | append_singleton ts t ih =>
    by_cases hbefore : Present name ts ∧ t ≠ .erase name
    · obtain ⟨i, hi⟩ := ih hbefore.1
      exact ⟨i, arrivesAt_concat.2 (.inr ⟨hi, hbefore.2⟩)⟩
    · -- A touch that writes the name erases nothing, so the name was absent before it.
      obtain rfl := (present_concat.1 h).resolve_right hbefore
      exact ⟨ts.length, arrivesAt_concat.2 (.inl ⟨rfl, rfl, fun hp => hbefore ⟨hp, nofun⟩⟩)⟩

theorem ArrivesAt.unique (hi : ArrivesAt name ts i) (hj : ArrivesAt name ts j) : i = j := by
  induction ts using List.reverseRecOn with
  | nil => exact absurd hi.present not_present_nil
  | append_singleton ts t ih =>
    rcases arrivesAt_concat.1 hi with ⟨-, rfl, habsent⟩ | ⟨hi, -⟩
    · rcases arrivesAt_concat.1 hj with ⟨-, rfl, -⟩ | ⟨hj, -⟩
      · rfl
      · exact absurd hj.present habsent
    · rcases arrivesAt_concat.1 hj with ⟨-, -, habsent⟩ | ⟨hj, -⟩
      · exact absurd hi.present habsent
      · exact ih hi hj

theorem Present.existsUnique_arrivesAt (h : Present name ts) : ∃! i, ArrivesAt name ts i := by
  obtain ⟨i, hi⟩ := h.exists_arrivesAt
  exact ⟨i, hi, fun j hj => hj.unique hi⟩

/-! ## The names after touches -/

@[simp] theorem touched_concat (ts : List Touch) (t : Touch) :
    touched (ts ++ [t]) = t.apply (touched ts) := by
  simp [touched]

theorem mem_touched_iff : name ∈ touched ts ↔ Present name ts := by
  induction ts using List.reverseRecOn with
  | nil => simp [touched, not_present_nil]
  | append_singleton ts t ih =>
    rw [touched_concat, present_concat, ← ih]
    cases t with
    | write n =>
      by_cases hn : n ∈ touched ts
      · rw [Touch.apply, if_pos hn]
        constructor
        · exact fun h => .inr ⟨h, nofun⟩
        · rintro (heq | ⟨h, -⟩)
          · cases heq
            exact hn
          · exact h
      · rw [Touch.apply, if_neg hn]
        simp [or_comm, eq_comm]
    | erase n =>
      have hne : name ≠ n ↔ Touch.erase n ≠ .erase name := by simp [eq_comm]
      simp [Touch.apply, ← hne]
    | neither => simp [Touch.apply]

theorem nodup_touched (ts : List Touch) : (touched ts).Nodup := by
  induction ts using List.reverseRecOn with
  | nil => exact List.nodup_nil
  | append_singleton ts t ih =>
    rw [touched_concat]
    cases t with
    | write n =>
      rw [Touch.apply]
      split
      · exact ih
      · next hn => exact List.nodup_append.2 ⟨ih, by simp, by grind⟩
    | erase n => exact ih.filter _
    | neither => exact ih

/-- Of two names, the one that came in first stands first. -/
theorem pairwise_touched (ts : List Touch) : (touched ts).Pairwise fun n m =>
    ∀ i j, ArrivesAt n ts i → ArrivesAt m ts j → i < j := by
  induction ts using List.reverseRecOn with
  | nil => exact List.Pairwise.nil
  | append_singleton ts t ih =>
    -- Where a name was there before, the new touch did not bring it in.
    have hold : ∀ {n i}, n ∈ touched ts → ArrivesAt n (ts ++ [t]) i → ArrivesAt n ts i := by
      intro n i hn hi
      rcases arrivesAt_concat.1 hi with ⟨-, -, habsent⟩ | ⟨hi, -⟩
      · exact absurd (mem_touched_iff.1 hn) habsent
      · exact hi
    have hkept : (touched ts).Pairwise fun n m =>
        ∀ i j, ArrivesAt n (ts ++ [t]) i → ArrivesAt m (ts ++ [t]) j → i < j :=
      ih.imp_of_mem fun hn hm h i j hi hj => h i j (hold hn hi) (hold hm hj)
    rw [touched_concat]
    cases t with
    | write n =>
      rw [Touch.apply]
      split
      · exact hkept
      · next hn =>
        refine List.pairwise_append.2 ⟨hkept, List.pairwise_singleton _ _, ?_⟩
        intro m hm n' hn' i j hi hj
        obtain rfl := List.mem_singleton.1 hn'
        rcases arrivesAt_concat.1 hj with ⟨-, rfl, -⟩ | ⟨hj, -⟩
        · exact (hold hm hi).lt_length
        · exact absurd (mem_touched_iff.2 hj.present) hn
    | erase n => exact hkept.filter _
    | neither => exact hkept

end RecordService.Entries
