import Mathlib.Data.List.Nodup
import RecordService.Entries
/-!
# Entries as ordered maps

Further laws of the operations on entries: what many writes do to the view, where a new name goes,
and that writing and erasing commute with changing every value.
-/

namespace RecordService.Entries

variable {α β : Type}

/-! ## Names and entries -/

theorem find?_eq_none_iff {name : String} {es : Entries α} :
    find? name es = none ↔ name ∉ names es := by
  rw [← find?_isSome, Bool.not_eq_true, Option.isSome_eq_false_iff, Option.isNone_iff_eq_none]

theorem mem_of_find? {name : String} {v : α} {es : Entries α} (h : find? name es = some v) :
    (name, v) ∈ es := by
  induction es with
  | nil => simp [find?] at h
  | cons e es ih => grind [find?]

theorem mem_names {e : String × α} {es : Entries α} (h : e ∈ es) : e.1 ∈ names es :=
  List.mem_map.2 ⟨e, h, rfl⟩

/-- An entry is found under its name, if the name occurs once. -/
theorem find?_of_mem {es : Entries α} (hn : (names es).Nodup) {e : String × α} (he : e ∈ es) :
    find? e.1 es = some e.2 := by
  induction es with
  | nil => cases he
  | cons d es ih =>
    obtain ⟨hd, hn⟩ : d.1 ∉ names es ∧ (names es).Nodup := List.nodup_cons.1 hn
    rcases List.mem_cons.1 he with rfl | he
    · simp [find?]
    · have hne : d.1 ≠ e.1 := fun h => hd (h ▸ mem_names he)
      simp [find?, hne, ih hn he]

theorem find?_append (name : String) (es fs : Entries α) :
    find? name (es ++ fs) = (find? name es).or (find? name fs) := by
  induction es with
  | nil => simp [find?]
  | cons e es ih => by_cases h : e.1 = name <;> simp [find?, h, ih]

theorem names_append (es fs : Entries α) : names (es ++ fs) = names es ++ names fs :=
  List.map_append

theorem names_reverse (es : Entries α) : names es.reverse = (names es).reverse :=
  List.map_reverse

/-- Where distinct names stand does not matter for what is found under them. -/
theorem find?_of_perm {es fs : Entries α} (hn : (names es).Nodup) (h : es.Perm fs) (name : String) :
    find? name es = find? name fs := by
  have hnames : (names es).Perm (names fs) := h.map _
  cases hfind : find? name es with
  | none =>
    rw [find?_eq_none_iff] at hfind
    exact (find?_eq_none_iff.2 fun hm => hfind (hnames.mem_iff.2 hm)).symm
  | some v =>
    have hmem : (name, v) ∈ fs := h.subset (mem_of_find? hfind)
    exact (find?_of_mem (hnames.nodup_iff.1 hn) hmem).symm

/-- Entries with distinct names are the same in some order if each name finds the same in them. -/
theorem perm_iff_find? {es fs : Entries α} (hn : (names es).Nodup) (hn' : (names fs).Nodup) :
    es.Perm fs ↔ ∀ name, find? name es = find? name fs := by
  refine ⟨find?_of_perm hn, fun h => ?_⟩
  rw [List.perm_ext_iff_of_nodup (.of_map _ hn) (.of_map _ hn')]
  intro e
  constructor
  · exact fun he => mem_of_find? ((h _).symm.trans (find?_of_mem hn he))
  · exact fun he => mem_of_find? ((h _).trans (find?_of_mem hn' he))

theorem find?_reverse {es : Entries α} (hn : (names es).Nodup) (name : String) :
    find? name es.reverse = find? name es :=
  (find?_of_perm hn (List.reverse_perm es).symm name).symm

theorem find?_filter {p : String → Bool} {name : String} (h : p name = true) (es : Entries α) :
    find? name (es.filter fun e => p e.1) = find? name es := by
  induction es with
  | nil => rfl
  | cons e es ih => grind [find?]

/-! ## Erasing -/

theorem mem_erase {name : String} {e : String × α} {es : Entries α} :
    e ∈ erase name es ↔ e ∈ es ∧ e.1 ≠ name := by
  simp [erase]

theorem mem_names_erase {name other : String} {es : Entries α} :
    other ∈ names (erase name es) ↔ other ∈ names es ∧ other ≠ name := by
  simp only [names, List.mem_map, mem_erase]
  constructor
  · rintro ⟨e, ⟨he, hne⟩, rfl⟩
    exact ⟨⟨e, he, rfl⟩, hne⟩
  · rintro ⟨⟨e, he, rfl⟩, hne⟩
    exact ⟨e, ⟨he, hne⟩, rfl⟩

theorem names_erase (name : String) (es : Entries α) :
    names (erase name es) = (names es).filter (· ≠ name) := by
  rw [names, names, erase, List.filter_map]
  rfl

theorem erase_of_not_mem {name : String} {es : Entries α} (h : name ∉ names es) :
    erase name es = es := by
  refine List.filter_eq_self.2 fun e he => ?_
  have : e.1 ≠ name := fun hn => h (hn ▸ mem_names he)
  simpa using this

/-- An entry is taken out of its place, if its name occurs once. -/
theorem exists_erase_eq {name : String} {v : α} {es : Entries α} (hn : (names es).Nodup)
    (h : find? name es = some v) :
    ∃ before later, es = before ++ (name, v) :: later ∧ erase name es = before ++ later := by
  obtain ⟨before, later, rfl⟩ := List.append_of_mem (mem_of_find? h)
  have hothers : name ∉ names before ∧ name ∉ names later := by
    rw [names_append, List.nodup_append] at hn
    obtain ⟨-, hlater, hapart⟩ := hn
    have hhead : name ∈ names ((name, v) :: later) := List.mem_cons_self
    exact ⟨fun hb => hapart name hb name hhead rfl, (List.nodup_cons.1 hlater).1⟩
  refine ⟨before, later, rfl, ?_⟩
  have hout : erase name ((name, v) :: later) = erase name later := by simp [erase]
  have happend : erase name (before ++ (name, v) :: later)
      = erase name before ++ erase name ((name, v) :: later) := List.filter_append _ _
  rw [happend, hout, erase_of_not_mem hothers.1, erase_of_not_mem hothers.2]

/-- Entries that are the same without one name give the same to any other. -/
theorem find?_of_erase_eq {name other : String} {es fs : Entries α}
    (h : erase name es = erase name fs) (hne : name ≠ other) : find? other es = find? other fs := by
  have hview := congrArg (find? other) h
  rwa [find?_erase, find?_erase, if_neg hne, if_neg hne] at hview

theorem erase_erase (name : String) (es : Entries α) :
    erase name (erase name es) = erase name es := by
  simp [erase, List.filter_filter]

/-! ## Writing -/

theorem mem_put {name : String} {v : α} {e : String × α} {es : Entries α}
    (h : e ∈ put name v es) : e = (name, v) ∨ e ∈ es := by
  induction es with
  | nil => simpa [put] using h
  | cons d es ih => grind [put]

theorem mem_names_put {name other : String} {v : α} {es : Entries α} :
    other ∈ names (put name v es) ↔ other = name ∨ other ∈ names es := by
  rw [names_put]
  by_cases h : name ∈ names es
  · rw [if_pos h]
    exact ⟨.inr, fun hm => hm.elim (fun heq => heq ▸ h) id⟩
  · rw [if_neg h, List.mem_append, List.mem_singleton, or_comm]

/-- A name that is not there yet goes to the end. -/
theorem put_of_not_mem {name : String} {es : Entries α} (h : name ∉ names es) (v : α) :
    put name v es = es ++ [(name, v)] := by
  induction es with
  | nil => rfl
  | cons e es ih =>
    obtain ⟨hne, h⟩ : name ≠ e.1 ∧ name ∉ names es := by simpa [names] using h
    simp [put, Ne.symm hne, ih h]

/-- Of two writes of a name the second one counts. -/
theorem put_put (name : String) (v w : α) (es : Entries α) :
    put name w (put name v es) = put name w es := by
  induction es with
  | nil => simp [put]
  | cons e es ih => by_cases h : e.1 = name <;> simp [put, h, ih]

/-- Writes of different names may change places, if one of the names is there. -/
theorem put_comm {name other : String} (hne : name ≠ other) {es : Entries α}
    (h : name ∈ names es) (v w : α) :
    put name v (put other w es) = put other w (put name v es) := by
  induction es with
  | nil => simp [names] at h
  | cons e es ih =>
    by_cases hname : e.1 = name
    · have hother : e.1 ≠ other := hname ▸ hne
      simp [put, hname, hname ▸ hother]
    · have hmem : name ∈ names es := (List.mem_cons.1 h).resolve_left (Ne.symm hname)
      by_cases hother : e.1 = other
      · simp [put, hother, hne.symm]
      · simp [put, hname, hother, ih hmem]

/-- Writing what is there changes nothing. -/
theorem put_of_find? {name : String} {v : α} {es : Entries α} (h : find? name es = some v) :
    put name v es = es := by
  induction es with
  | nil => simp [find?] at h
  | cons e es ih => grind [find?, put]

/-- A write is seen under its own name only. -/
theorem erase_put (name : String) (v : α) (es : Entries α) :
    erase name (put name v es) = erase name es := by
  induction es with
  | nil => simp [put, erase]
  | cons e es ih =>
    by_cases h : e.1 = name
    · simp [put, erase, h]
    · simpa [put, erase, h] using ih

@[simp] theorem putAll_nil (es : Entries α) : putAll [] es = es := rfl

@[simp] theorem putAll_cons (e : String × α) (new es : Entries α) :
    putAll (e :: new) es = putAll new (put e.1 e.2 es) := rfl

/-- After many writes, a name has the value written last. -/
theorem find?_putAll (name : String) (new es : Entries α) :
    find? name (putAll new es) = (find? name new.reverse).or (find? name es) := by
  induction new generalizing es with
  | nil => simp [find?]
  | cons e new ih =>
    rw [putAll_cons, ih, find?_put, List.reverse_cons, find?_append, Option.or_assoc]
    by_cases h : e.1 = name <;> simp [find?, h]

theorem mem_names_putAll {name : String} {new es : Entries α} :
    name ∈ names (putAll new es) ↔ name ∈ names new ∨ name ∈ names es := by
  rw [← find?_isSome, find?_putAll, Option.isSome_or, Bool.or_eq_true, find?_isSome, find?_isSome,
    names_reverse, List.mem_reverse]

/-- The names that are new go to the end, in the order in which they are first written. -/
theorem names_putAll (new es : Entries α) : names (putAll new es)
    = names es ++ ((names new).filter (· ∉ names es)).eraseDups := by
  induction new generalizing es with
  | nil => simp [names]
  | cons e new ih =>
    have hcons : names (e :: new) = e.1 :: names new := rfl
    rw [putAll_cons, ih, names_put, hcons]
    by_cases he : e.1 ∈ names es
    · rw [if_pos he, List.filter_cons_of_neg (by simpa using he)]
    · -- The first of the new names is not new for those after it.
      have hrest : (names new).filter (· ∉ names es ++ [e.1])
          = ((names new).filter (· ∉ names es)).filter fun n => !(n == e.1) := by
        rw [List.filter_filter]
        refine List.filter_congr fun n _ => ?_
        by_cases hn : n = e.1 <;> simp [hn]
      rw [if_neg he, List.filter_cons_of_pos (by simpa using he), List.eraseDups_cons, hrest,
        List.append_assoc, List.singleton_append]

theorem putAll_append (new later es : Entries α) :
    putAll (new ++ later) es = putAll later (putAll new es) :=
  List.foldl_append

/-- Lists of writes, one list after another. -/
theorem putAll_flatten (sets : List (Entries α)) (es : Entries α) :
    putAll sets.flatten es = sets.foldl (fun es set => putAll set es) es :=
  List.foldl_flatten

theorem putAll_of_found {new es : Entries α} (h : ∀ e ∈ new, find? e.1 es = some e.2) :
    putAll new es = es := by
  induction new with
  | nil => rfl
  | cons e new ih =>
    obtain ⟨he, h⟩ := List.forall_mem_cons.1 h
    rw [putAll_cons, put_of_find? he, ih h]

/-- Writing the same once more changes nothing. -/
theorem putAll_putAll_self {new : Entries α} (hn : (names new).Nodup) (es : Entries α) :
    putAll new (putAll new es) = putAll new es := by
  apply putAll_of_found
  intro e he
  rw [find?_putAll, find?_reverse hn, find?_of_mem hn he, Option.some_or]

theorem nodup_putAll {es : Entries α} (h : (names es).Nodup) (new : Entries α) :
    (names (putAll new es)).Nodup := by
  induction new generalizing es with
  | nil => exact h
  | cons e new ih => exact ih (nodup_put h e.1 e.2)

theorem mem_putAll {e : String × α} {new es : Entries α} (h : e ∈ putAll new es) :
    e ∈ new ∨ e ∈ es := by
  induction new generalizing es with
  | nil => exact .inr h
  | cons d new ih =>
    rcases ih h with h | h
    · exact .inl (List.mem_cons_of_mem _ h)
    · rcases mem_put h with rfl | h
      · exact .inl List.mem_cons_self
      · exact .inr h

/-- Writing new names appends them. -/
theorem putAll_of_disjoint {new es : Entries α} (hn : (names new).Nodup)
    (hd : ∀ n ∈ names new, n ∉ names es) : putAll new es = es ++ new := by
  induction new generalizing es with
  | nil => simp
  | cons e new ih =>
    obtain ⟨he, hn⟩ : e.1 ∉ names new ∧ (names new).Nodup := List.nodup_cons.1 hn
    rw [putAll_cons, put_of_not_mem (hd e.1 (mem_names List.mem_cons_self)), ih hn]
    · simp
    · -- The names still to write are not that of `e`, which is there now.
      intro n hmem hes
      rcases List.mem_append.1 (names_append es [e] ▸ hes) with hes | hes
      · exact hd n (List.mem_cons_of_mem _ hmem) hes
      · obtain rfl : n = e.1 := by simpa [names] using hes
        exact he hmem

theorem ofPairs_of_nodup {es : Entries α} (h : (names es).Nodup) : ofPairs es = es :=
  putAll_of_disjoint h (by simp [names])

/-- A first entry that is not written stays first. -/
theorem putAll_cons_right {new : Entries α} {e : String × α} (h : e.1 ∉ names new)
    (es : Entries α) : putAll new (e :: es) = e :: putAll new es := by
  induction new generalizing es with
  | nil => rfl
  | cons d new ih =>
    obtain ⟨hne, h⟩ : e.1 ≠ d.1 ∧ e.1 ∉ names new := by simpa [names] using h
    rw [putAll_cons, putAll_cons, put, if_neg hne, ih h]

/-! ## Changing every value -/

/-- The entries with every value changed by `f`, which may look at the name. -/
def mapValues (f : String → α → β) (es : Entries α) : Entries β :=
  es.map fun e => (e.1, f e.1 e.2)

@[simp] theorem names_mapValues (f : String → α → β) (es : Entries α) :
    names (mapValues f es) = names es := by
  simp [names, mapValues]

theorem find?_mapValues (f : String → α → β) (name : String) (es : Entries α) :
    find? name (mapValues f es) = (find? name es).map (f name) := by
  induction es with
  | nil => rfl
  | cons e es ih =>
    by_cases h : e.1 = name
    · subst h; simp [mapValues, find?]
    · simpa [mapValues, find?, h] using ih

theorem put_mapValues (f : String → α → β) (name : String) (v : α) (es : Entries α) :
    put name (f name v) (mapValues f es) = mapValues f (put name v es) := by
  induction es with
  | nil => rfl
  | cons e es ih =>
    by_cases h : e.1 = name
    · subst h; simp [mapValues, put]
    · simpa [mapValues, put, h] using ih

theorem erase_mapValues (f : String → α → β) (name : String) (es : Entries α) :
    erase name (mapValues f es) = mapValues f (erase name es) := by
  simp [erase, mapValues, List.filter_map, Function.comp_def]

theorem putAll_mapValues (f : String → α → β) (new es : Entries α) :
    putAll (mapValues f new) (mapValues f es) = mapValues f (putAll new es) := by
  induction new generalizing es with
  | nil => rfl
  | cons e new ih =>
    rw [putAll_cons, ← ih, ← put_mapValues]
    rfl

/-! ## Changing every name -/

/-- The entries under other names. -/
def rename (f : String → String) (es : Entries α) : Entries α :=
  es.map fun e => (f e.1, e.2)

theorem names_rename (f : String → String) (es : Entries α) :
    names (rename f es) = (names es).map f := by
  simp [names, rename]

section Rename
variable {f : String → String} (hf : Function.Injective f)
include hf

theorem find?_rename (name : String) (es : Entries α) :
    find? (f name) (rename f es) = find? name es := by
  induction es with
  | nil => rfl
  | cons e es ih =>
    by_cases h : e.1 = name
    · subst h; simp [rename, find?]
    · simpa [rename, find?, hf.eq_iff, h] using ih

theorem put_rename (name : String) (v : α) (es : Entries α) :
    put (f name) v (rename f es) = rename f (put name v es) := by
  induction es with
  | nil => rfl
  | cons e es ih =>
    by_cases h : e.1 = name
    · subst h; simp [rename, put]
    · simpa [rename, put, hf.eq_iff, h] using ih

end Rename

end RecordService.Entries
