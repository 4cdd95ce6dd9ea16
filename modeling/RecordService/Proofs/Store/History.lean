import RecordService.Proofs.Expression.Compile
import RecordService.Proofs.Store.Run
/-!
# The store in memory as its history

What is in the store after a run is a matter of the commands alone: a record is there if it was not
deleted since it was last created, and each of its attributes has the value written last. What
happened before the last creation leaves no trace.
-/

namespace RecordService.Store

open Entries

/-- The record of `k` was last created with the attributes `a`, and `later` is what followed. -/
def LastCreate (k : String) (cs : List Command) (a : Attributes) (later : List Command) : Prop :=
  ∃ before c, cs = before ++ c :: later ∧ c.created? k = some a ∧ ∀ d ∈ later, d.created? k = none

/-- The values that commands set an attribute of the record of `k` to, in their order. -/
def settings (k name : String) (cs : List Command) : List Value :=
  cs.filterMap fun c => (c.set? k).bind (find? name)

/-- What no update sets keeps the value of its creation. -/
theorem settings_eq_nil {k name : String} {cs : List Command}
    (h : ∀ u, .update u ∈ cs → name ∉ names u.assignments) : settings k name cs = [] := by
  refine List.filterMap_eq_nil_iff.2 fun c hc => ?_
  cases hset : c.set? k with
  | none => rfl
  | some set =>
    obtain ⟨u, rfl, -, rfl⟩ := Command.set?_eq_some.1 hset
    have hname := h u hc
    rwa [← find?_isSome, Option.not_isSome_iff_eq_none] at hname

/-- A record was never created, or it was created for the last time. -/
theorem exists_lastCreate (k : String) (cs : List Command) :
    (∀ c ∈ cs, c.created? k = none) ∨ ∃ a later, LastCreate k cs a later := by
  induction cs with
  | nil => exact .inl fun c hc => by cases hc
  | cons c cs ih =>
    rcases ih with hnone | ⟨a, later, before, d, rfl, hd, hlater⟩
    · cases hc : c.created? k with
      | none => exact .inl (List.forall_mem_cons.2 ⟨hc, hnone⟩)
      | some a => exact .inr ⟨a, cs, [], c, rfl, hc, hnone⟩
    · exact .inr ⟨a, later, c :: before, d, rfl, hd, hlater⟩

/-! ## The entry of a key since its creation -/

namespace Command

variable {k : String} {cs : List Command}

theorem entry_created {c : Command} {a : Attributes} (h : c.created? k = some a)
    (old : Option Attributes) : c.entry k old = some a := by
  obtain ⟨r, rfl, hk, rfl⟩ := created?_eq_some.1 h
  rw [entry_create, if_pos hk]

/-- What is absent stays absent, unless it is created. -/
theorem entries_none (hcs : ∀ c ∈ cs, c.created? k = none) : entries k cs none = none := by
  induction cs with
  | nil => rfl
  | cons c cs ih =>
    obtain ⟨hc, hcs⟩ := List.forall_mem_cons.1 hcs
    have hentry : c.entry k none = none := by
      unfold entry
      rw [hc]
      cases c.set? k <;> simp
    rw [entries_cons, hentry]
    exact ih hcs

/-- A deletion lasts, unless the record is created again. -/
theorem entries_deleted (hcs : ∀ c ∈ cs, c.created? k = none) (hdel : ∃ d ∈ cs, d.deletes k = true)
    (old : Option Attributes) : entries k cs old = none := by
  obtain ⟨d, hd, hdel⟩ := hdel
  obtain ⟨before, later, rfl⟩ := List.append_of_mem hd
  have hentry : ∀ old, d.entry k old = none := fun old => by simp [entry, hdel]
  rw [entries_append, entries_cons, hentry]
  exact entries_none fun c hc => hcs c (by simp [hc])

/-- Without creations and deletions, the attributes that were set are written one after another. -/
theorem entries_set (hcs : ∀ c ∈ cs, c.created? k = none) (hdel : ∀ d ∈ cs, d.deletes k = false)
    (a : Attributes) : entries k cs (some a)
      = some ((cs.filterMap (set? k)).foldl (fun a set => putAll set a) a) := by
  induction cs generalizing a with
  | nil => rfl
  | cons c cs ih =>
    obtain ⟨hc, hcs⟩ := List.forall_mem_cons.1 hcs
    obtain ⟨hd, hdel⟩ := List.forall_mem_cons.1 hdel
    cases hset : c.set? k with
    | none =>
      have hentry : c.entry k (some a) = some a := by simp [entry, hc, hd, hset]
      rw [entries_cons, hentry, ih hcs hdel, List.filterMap_cons_none hset]
    | some set =>
      have hentry : c.entry k (some a) = some (putAll set a) := by simp [entry, hc, hd, hset]
      rw [entries_cons, hentry, ih hcs hdel, List.filterMap_cons_some hset, List.foldl_cons]

end Command

/-- Of many writes the last one counts. -/
theorem find?_putAlls {sets : List Attributes} (hn : ∀ set ∈ sets, (names set).Nodup)
    (name : String) (a : Attributes) : find? name (sets.foldl (fun a set => putAll set a) a)
      = (sets.filterMap (find? name)).getLast?.or (find? name a) := by
  -- What the first of them wrote is the old value for the others.
  induction sets generalizing a with
  | nil => rfl
  | cons set sets ih =>
    obtain ⟨hset, hn⟩ := List.forall_mem_cons.1 hn
    rw [List.foldl_cons, ih hn, find?_putAll, find?_reverse hset]
    cases hv : find? name set with
    | none => rw [List.filterMap_cons_none hv, Option.none_or]
    | some v =>
      rw [List.filterMap_cons_some hv, List.getLast?_cons]
      cases (sets.filterMap (find? name)).getLast? <;> rfl

/-! ## Main statement -/

namespace Memory

variable {K : String} {cs : List Command} {k : String}

theorem find?_created {a : Attributes} {later : List Command} (h : LastCreate k cs a later) :
    find? k ((empty K).after cs).records = Command.entries k later (some a) := by
  obtain ⟨before, c, rfl, hc, -⟩ := h
  rw [find?_after, Command.entries_append, Command.entries_cons, Command.entry_created hc]

theorem find?_deleted {a : Attributes} {later : List Command} (h : LastCreate k cs a later)
    (hdel : ∃ d ∈ later, d.deletes k = true) : find? k ((empty K).after cs).records = none := by
  rw [find?_created h]
  obtain ⟨-, -, -, -, hlater⟩ := h
  exact Command.entries_deleted hlater hdel _

/-- The attributes of a record that was not deleted since its creation. -/
theorem find?_kept {a : Attributes} {later : List Command} (h : LastCreate k cs a later)
    (hcs : ∀ u, .update u ∈ cs → u.IsCompiled) (hdel : ∀ d ∈ later, d.deletes k = false) :
    ∃ now, find? k ((empty K).after cs).records = some now ∧
      ∀ name, find? name now = (settings k name later).getLast?.or (find? name a) := by
  rw [find?_created h]
  obtain ⟨before, c, rfl, -, hlater⟩ := h
  refine ⟨_, Command.entries_set hlater hdel a, fun name => ?_⟩
  rw [find?_putAlls, List.filterMap_filterMap]
  · rfl
  · intro set hset
    obtain ⟨d, hd, hset⟩ := List.mem_filterMap.1 hset
    obtain ⟨u, rfl, -, rfl⟩ := Command.set?_eq_some.1 hset
    exact (hcs u (List.mem_append_right _ (List.mem_cons_of_mem _ hd))).wellNamed.nodup

/-- A record that is there was created, and was not deleted since. -/
theorem exists_kept {now : Attributes} (h : find? k ((empty K).after cs).records = some now) :
    ∃ a later, LastCreate k cs a later ∧ ∀ d ∈ later, d.deletes k = false := by
  rcases exists_lastCreate k cs with hnone | ⟨a, later, hlast⟩
  · have habsent : find? k ((empty K).after cs).records = none :=
      (find?_after _ _ _).trans (Command.entries_none hnone)
    rw [habsent] at h
    cases h
  · refine ⟨a, later, hlast, fun d hd => ?_⟩
    by_contra hdeletes
    rw [find?_deleted hlast ⟨d, hd, by simpa using hdeletes⟩] at h
    cases h

/-- An attribute that no update sets has the value of the last creation. -/
theorem find?_unset {name : String} {now : Attributes}
    (hcs : ∀ u, .update u ∈ cs → u.IsCompiled ∧ name ∉ names u.assignments)
    (h : find? k ((empty K).after cs).records = some now) :
    ∃ a later, LastCreate k cs a later ∧ find? name now = find? name a := by
  obtain ⟨a, later, hlast, hdel⟩ := exists_kept h
  obtain ⟨_, hnow, hvalue⟩ := find?_kept hlast (fun u hu => (hcs u hu).1) hdel
  obtain rfl := Option.some.inj (h.symm.trans hnow)
  refine ⟨a, later, hlast, ?_⟩
  obtain ⟨before, c, rfl, -, -⟩ := hlast
  have hunset : settings k name later = [] := settings_eq_nil fun u hu =>
    (hcs u (List.mem_append_right _ (List.mem_cons_of_mem _ hu))).2
  rw [hvalue, hunset, List.getLast?_nil, Option.none_or]

theorem run_get_notFound {m : Memory} {key : Key} :
    (m.run (.get key)).1 = .error (.notFound key) ↔ find? key.value m.records = none := by
  rw [run_get]
  cases find? key.value m.records <;> simp

theorem mem_names_kept {name : String} {a now : Attributes} {later : List Command}
    (h : find? name now = (settings k name later).getLast?.or (find? name a)) :
    name ∈ names now ↔ name ∈ names a ∨
      ∃ u, Command.update u ∈ later ∧ u.key.value = k ∧ name ∈ names u.assignments := by
  rw [← find?_isSome, h, Option.isSome_or, Bool.or_eq_true, find?_isSome, List.getLast?_isSome,
    or_comm]
  refine or_congr_right ⟨fun hne => ?_, ?_⟩
  · obtain ⟨v, hv⟩ := List.exists_mem_of_ne_nil _ hne
    obtain ⟨c, hc, hv⟩ := List.mem_filterMap.1 hv
    obtain ⟨set, hset, hv⟩ := Option.bind_eq_some_iff.1 hv
    obtain ⟨u, rfl, hk, rfl⟩ := Command.set?_eq_some.1 hset
    exact ⟨u, hc, hk, mem_names (mem_of_find? hv)⟩
  · rintro ⟨u, hu, hk, hname⟩
    obtain ⟨v, hv⟩ := Option.isSome_iff_exists.1 ((find?_isSome name u.assignments).2 hname)
    have : v ∈ settings k name later :=
      List.mem_filterMap.2 ⟨_, hu, by simp [Command.set?, hk, hv]⟩
    exact List.ne_nil_of_mem this

/-- A record is absent after a run exactly if it was never created, or was deleted since. If it is
there, it has the attributes of its last creation and those set since, each with the value written
last. A command about another key, one that reads and one that fails change nothing about it, and
an update makes no record appear. -/
theorem get_after_run (hcs : ∀ u, .update u ∈ cs → u.IsCompiled) (key : Key) :
    let m := (empty K).after cs
    ((m.run (.get key)).1 = .error (.notFound key) ↔
      (∀ c ∈ cs, c.created? key.value = none) ∨
      ∃ a later, LastCreate key.value cs a later ∧ ∃ d ∈ later, d.deletes key.value = true) ∧
    (∀ a later, LastCreate key.value cs a later → (∀ d ∈ later, d.deletes key.value = false) →
      ∃ now, (m.run (.get key)).1 = .ok (.record ⟨⟨K, key.value⟩, now⟩) ∧
        ∀ name, find? name now = (settings key.value name later).getLast?.or (find? name a) ∧
          (name ∈ names now ↔ name ∈ names a ∨ ∃ u, .update u ∈ later ∧
            u.key.value = key.value ∧ name ∈ names u.assignments)) ∧
    (∀ c : Command, c.subject? ≠ some key.value →
      ((m.run c).2.run (.get key)).1 = (m.run (.get key)).1) ∧
    (∀ c, (∃ q, c = .get q) ∨ (∃ f, c = .scan f) ∨ (∃ e, (m.run c).1 = .error e) →
      (m.run c).2 = m) ∧
    (∀ u, names (m.run (.update u)).2.records = names m.records) ∧
    ((m.run (.get key)).1 = .error (.notFound key) →
      ∀ u, u.key = key → m.run (.update u) = (.error (.notFound key), m)) := by
  intro m
  refine ⟨?_, fun a later hlast hdel => ?_, fun c hc => ?_, fun c hc => ?_, names_run_update m,
    fun hnone u hu => ?_⟩
  · rw [run_get_notFound]
    constructor
    · -- If nothing deleted the record since it was last created, it would be there.
      intro hnone
      refine (exists_lastCreate key.value cs).imp_right fun ⟨a, later, hlast⟩ => ?_
      refine ⟨a, later, hlast, ?_⟩
      by_contra hkept
      obtain ⟨now, hnow, -⟩ := find?_kept hlast hcs fun d hd => by
        simpa using fun h => hkept ⟨d, hd, h⟩
      rw [hnow] at hnone
      cases hnone
    · rintro (hnone | ⟨a, later, hlast, hdel⟩)
      · exact (find?_after _ _ _).trans (Command.entries_none hnone)
      · exact find?_deleted hlast hdel
  · obtain ⟨now, hnow, hvalue⟩ := find?_kept hlast hcs hdel
    refine ⟨now, ?_, fun name => ⟨hvalue name, mem_names_kept (hvalue name)⟩⟩
    rw [run_get, hnow]
    simp [m, empty]
  · rw [run_get, run_get, find?_run, Command.entry_of_ne hc, keyAttribute_run]
  · rcases hc with ⟨q, rfl⟩ | ⟨f, rfl⟩ | ⟨e, he⟩
    · exact run_get_store m q
    · exact run_scan_store m f
    · exact run_error he
  · subst hu
    simp [run, run_get_notFound.1 hnone]

/-- Created, updated, deleted, created again, and updated again: neither the old attribute nor what
the first update set comes back, and the last update replaces one attribute and adds another. -/
theorem get_after_recreation :
    ∃ u w, Expression.Update.compile ⟨"id", "k"⟩ [] [("a", .null)] = .ok u ∧
      Expression.Update.compile ⟨"id", "k"⟩ [] [("c", .bool true), ("d", .null)] = .ok w ∧
      let cs : List Command := [.create ⟨⟨"id", "k"⟩, [("b", .null)]⟩, .update u,
        .delete ⟨"id", "k"⟩, .create ⟨⟨"id", "k"⟩, [("c", .null), ("e", .null)]⟩, .update w]
      ∃ now, (((empty "id").after cs).run (.get ⟨"id", "k"⟩)).1 = .ok (.record ⟨⟨"id", "k"⟩, now⟩) ∧
        ∀ name, find? name now = find? name [("c", .bool true), ("e", .null), ("d", .null)] := by
  refine ⟨_, _, rfl, rfl, ?_⟩
  intro cs
  have hcs : ∀ u, Command.update u ∈ cs → u.IsCompiled := by
    intro u hu
    simp only [cs, List.mem_cons, reduceCtorEq, Command.update.injEq, List.not_mem_nil, or_false,
      false_or] at hu
    rcases hu with rfl | rfl
    · exact ⟨[], [("a", .null)], rfl⟩
    · exact ⟨[], [("c", .bool true), ("d", .null)], rfl⟩
  obtain ⟨-, h, -⟩ := get_after_run (K := "id") hcs ⟨"id", "k"⟩
  obtain ⟨now, hnow, hvalue⟩ := h [("c", .null), ("e", .null)] (cs.drop 4)
    ⟨cs.take 3, _, rfl, rfl, by decide⟩ (by decide)
  refine ⟨now, hnow, fun name => (hvalue name).1.trans ?_⟩
  -- Only the last update is looked at, and it sets two attributes.
  change ([find? name [("c", Value.bool true), ("d", .null)]].filterMap id).getLast?.or _ = _
  simp only [find?]
  split_ifs <;> simp_all

end Memory

end RecordService.Store
