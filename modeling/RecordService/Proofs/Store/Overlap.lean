import Mathlib.Data.List.Perm.Basic
import RecordService.Proofs.Expression.Compile
import RecordService.Proofs.Related
import RecordService.Proofs.Store.Run
/-!
# Updates one after another

An update that is sent twice has done all it does the first time. Two updates of different records,
or of different attributes, may change places, and of two that set the same attribute the later one
counts. What the order of the updates is seen by, then, is the order of the attributes that they
added.
-/

namespace RecordService

namespace Entries

variable {α : Type}

theorem nodup_eraseDups (ns : List String) : ns.eraseDups.Nodup := by
  cases ns with
  | nil => simp
  | cons n ns =>
    rw [List.eraseDups_cons, List.nodup_cons, List.mem_eraseDups]
    constructor
    · simp
    · exact nodup_eraseDups (ns.filter fun m => !m == n)
termination_by ns.length
decreasing_by exact Nat.lt_succ_of_le (List.length_filter_le _ _)

/-- The same names with the same values, in whatever order. -/
structure SameEntries (es fs : Entries α) : Prop where
  perm_names : (names es).Perm (names fs)
  find?_eq : ∀ name, find? name es = find? name fs

theorem SameEntries.refl (es : Entries α) : SameEntries es es := ⟨.refl _, fun _ => rfl⟩

/-- What was written last under each name is all that counts. -/
theorem sameEntries_putAll {new new' : Entries α}
    (h : ∀ name, find? name new.reverse = find? name new'.reverse) (es : Entries α) :
    SameEntries (putAll new es) (putAll new' es) where
  perm_names := by
    have hmem : ∀ name, name ∈ names new ↔ name ∈ names new' := by
      intro name
      have hsome := congrArg Option.isSome (h name)
      rwa [Bool.eq_iff_iff, find?_isSome, find?_isSome, names_reverse, names_reverse,
        List.mem_reverse, List.mem_reverse] at hsome
    rw [names_putAll, names_putAll]
    refine .append_left _
      ((List.perm_ext_iff_of_nodup (nodup_eraseDups _) (nodup_eraseDups _)).2 ?_)
    intro name
    simp [hmem]
  find?_eq name := by rw [find?_putAll, find?_putAll, h]

end Entries

namespace Store

open Entries
open Expression (Update)

namespace Memory

/-- The same records in the same order, each with its attributes in whatever order. -/
def SameRecords (m m' : Memory) : Prop :=
  m.keyAttribute = m'.keyAttribute ∧ Related (fun _ => SameEntries) m.records m'.records

/-- The store after an update. -/
def updated (m : Memory) (u : Update) : Memory :=
  (m.run (.update u)).2

theorem SameRecords.refl (m : Memory) : SameRecords m m :=
  ⟨rfl, Related.refl (fun _ => SameEntries.refl) _⟩

variable {m : Memory} {u w : Update}

/-! ## One update -/

theorem run_update_found {a : Attributes} (h : find? u.key.value m.records = some a) :
    m.run (.update u)
      = (.ok .done, { m with records := put u.key.value (putAll u.assignments a) m.records }) := by
  simp [run, h]

theorem run_update_absent (h : find? u.key.value m.records = none) :
    m.run (.update u) = (.error (.notFound u.key), m) := by
  simp [run, h]

theorem updated_absent (h : find? u.key.value m.records = none) : m.updated u = m :=
  congrArg Prod.snd (run_update_absent h)

theorem updated_found {a : Attributes} (h : find? u.key.value m.records = some a) :
    m.updated u = { m with records := put u.key.value (putAll u.assignments a) m.records } :=
  congrArg Prod.snd (run_update_found h)

/-- Whether an update finds its record does not depend on the updates before it. -/
theorem result_updated (m : Memory) (u w : Update) :
    ((m.updated w).run (.update u)).1 = (m.run (.update u)).1 := by
  have hkeys : names (m.updated w).records = names m.records := names_run_update m w
  cases h : find? u.key.value m.records with
  | none =>
    have habsent : find? u.key.value (m.updated w).records = none := by
      rwa [find?_eq_none_iff, hkeys, ← find?_eq_none_iff]
    rw [run_update_absent h, run_update_absent habsent]
  | some a =>
    have hthere : (find? u.key.value (m.updated w).records).isSome := by
      rw [find?_isSome, hkeys, ← find?_isSome, h]
      rfl
    obtain ⟨b, hb⟩ := Option.isSome_iff_exists.1 hthere
    rw [run_update_found h, run_update_found hb]

/-! ## Two updates of one record -/

/-- Two updates of a record write the assignments of both. -/
theorem updated_updated (hkey : u.key.value = w.key.value) {a : Attributes}
    (h : find? u.key.value m.records = some a) : (m.updated u).updated w
      = { m with
          records := put u.key.value (putAll (u.assignments ++ w.assignments) a) m.records } := by
  have hnow : find? w.key.value (m.updated u).records = some (putAll u.assignments a) := by
    rw [updated_found h, find?_put, if_pos hkey]
  rw [updated_found hnow, updated_found h, putAll_append, ← hkey, put_put]

/-- If under each name two pairs of updates set the same value last, the order of the attributes is
all in which they differ. -/
theorem sameRecords_updated {u' w' : Update} (huw : u.key.value = w.key.value)
    (hu' : u'.key.value = u.key.value) (hw' : w'.key.value = u.key.value)
    (h : ∀ name, find? name (u.assignments ++ w.assignments).reverse
      = find? name (u'.assignments ++ w'.assignments).reverse) :
    SameRecords ((m.updated u).updated w) ((m.updated u').updated w') := by
  cases ha : find? u.key.value m.records with
  | none =>
    have hw : find? w.key.value m.records = none := by rwa [← huw]
    have ha' : find? u'.key.value m.records = none := by rwa [hu']
    have hb' : find? w'.key.value m.records = none := by rwa [hw']
    rw [updated_absent ha, updated_absent hw, updated_absent ha', updated_absent hb']
    exact .refl m
  | some a =>
    have ha' : find? u'.key.value m.records = some a := by rwa [hu']
    rw [updated_updated huw ha, updated_updated (hu'.trans hw'.symm) ha', hu']
    exact ⟨rfl, (Related.refl (fun _ => SameEntries.refl) _).put (sameEntries_putAll h a)⟩

/-! ## Two updates of different records -/

theorem find?_updated (hkey : u.key.value ≠ w.key.value) (m : Memory) :
    find? u.key.value (m.updated w).records = find? u.key.value m.records := by
  rw [updated, find?_run, Command.entry_update, if_neg (Ne.symm hkey)]

theorem updated_comm (hkey : u.key.value ≠ w.key.value) (m : Memory) :
    (m.updated u).updated w = (m.updated w).updated u := by
  have hu := find?_updated hkey m
  have hw := find?_updated (Ne.symm hkey) m
  cases ha : find? u.key.value m.records with
  | none => rw [updated_absent ha, updated_absent (hu.trans ha)]
  | some a =>
    cases hb : find? w.key.value m.records with
    | none => rw [updated_absent hb, updated_absent (hw.trans hb)]
    | some b =>
      have hmem : w.key.value ∈ names m.records := mem_names (mem_of_find? hb)
      rw [updated_found (hw.trans hb), updated_found (hu.trans ha), updated_found ha,
        updated_found hb, put_comm (Ne.symm hkey) hmem]

/-! ## Main statement -/

/-- An update that was carried out changes nothing when it is carried out again. -/
theorem run_updated_self (hu : u.IsCompiled) (m : Memory) :
    (m.updated u).run (.update u) = m.run (.update u) := by
  cases ha : find? u.key.value m.records with
  | none => rw [updated_absent ha]
  | some a =>
    have hnow : find? u.key.value (m.updated u).records = some (putAll u.assignments a) := by
      rw [updated_found ha, find?_put, if_pos rfl]
    rw [run_update_found hnow, run_update_found ha, updated_found ha,
      putAll_putAll_self hu.wellNamed.nodup, put_put]

/-- An update without assignments changes nothing. -/
theorem updated_nothing (h : u.assignments = []) (m : Memory) : m.updated u = m := by
  cases ha : find? u.key.value m.records with
  | none => exact updated_absent ha
  | some a => rw [updated_found ha, h, putAll_nil, put_of_find? ha]

/-- In any store: a compiled update that is carried out twice does and answers what it does once.
Two updates of different records, or of different attributes, answer the same in either order, and
leave the same but for the order of attributes. Of two updates of one record the first counts only
with what the second does not set, which is an update too, or nothing. -/
theorem updates_overlap (hu : u.IsCompiled) (w : Update) (m : Memory) :
    (m.updated u).run (.update u) = m.run (.update u) ∧
    (u.key.value ≠ w.key.value ∨ (names u.assignments).Disjoint (names w.assignments) →
      ((m.updated w).run (.update u)).1 = (m.run (.update u)).1 ∧
      ((m.updated u).run (.update w)).1 = (m.run (.update w)).1 ∧
      SameRecords ((m.updated u).updated w) ((m.updated w).updated u)) ∧
    (u.key.value = w.key.value →
      let rest := Update.setting u.key (u.assignments.filter fun e => e.1 ∉ names w.assignments)
      (rest.IsCompiled ∨ rest.assignments = [] ∧ m.updated rest = m) ∧
        SameRecords ((m.updated u).updated w) ((m.updated rest).updated w)) := by
  refine ⟨run_updated_self hu m, fun h => ?_, fun hkey => ?_⟩
  · refine ⟨result_updated m u w, result_updated m w u, ?_⟩
    by_cases hkey : u.key.value = w.key.value
    · have hdisjoint := h.resolve_left (fun hne => hne hkey)
      refine sameRecords_updated hkey hkey.symm rfl fun name => ?_
      rw [List.reverse_append, List.reverse_append, find?_append, find?_append]
      -- At most one of the two sets the name.
      by_cases hname : name ∈ names u.assignments
      · have hw : find? name w.assignments.reverse = none := by
          rw [find?_eq_none_iff, names_reverse, List.mem_reverse]
          exact hdisjoint hname
        rw [hw, Option.none_or, Option.or_none]
      · have hu : find? name u.assignments.reverse = none := by
          rwa [find?_eq_none_iff, names_reverse, List.mem_reverse]
        rw [hu, Option.none_or, Option.or_none]
    · rw [updated_comm hkey]
      exact .refl _
  · intro rest
    have hrest : rest.assignments = u.assignments.filter fun e => e.1 ∉ names w.assignments :=
      Update.setting_assignments _ _
    constructor
    · by_cases hnil : rest.assignments = []
      · exact .inr ⟨hnil, updated_nothing hnil m⟩
      · exact .inl (hu.part List.filter_sublist (hrest ▸ hnil))
    · refine sameRecords_updated hkey rfl hkey.symm fun name => ?_
      rw [hrest, List.reverse_append, List.reverse_append, find?_append, find?_append,
        ← List.filter_reverse]
      by_cases hname : name ∈ names w.assignments
      · have hw : (find? name w.assignments.reverse).isSome := by
          rwa [find?_isSome, names_reverse, List.mem_reverse]
        obtain ⟨v, hv⟩ := Option.isSome_iff_exists.1 hw
        rw [hv, Option.some_or, Option.some_or]
      · rw [find?_filter (p := fun n => n ∉ names w.assignments) (by simpa using hname)]

/-- Three updates of one record: the first two set the same attribute, the third another one. -/
theorem updates_overlap_shared :
    let key : Key := ⟨"id", "k"⟩
    let m : Memory := ⟨"id", [("k", [("a", .null)]), ("l", [])]⟩
    let u := Update.setting key [("b", .null), ("a", .bool true)]
    let w := Update.setting key [("c", .null), ("b", .bool true)]
    let x := Update.setting key [("d", .null)]
    Update.compile key [] [("b", .null), ("id", .string "k"), ("a", .bool true)] = .ok u ∧
      (m.updated u).run (.update u) = m.run (.update u) ∧
      SameRecords ((m.updated u).updated x) ((m.updated x).updated u) ∧
      SameRecords ((m.updated u).updated w)
        ((m.updated (Update.setting key [("a", .bool true)])).updated w) := by
  intro key m u w x
  have hcompile :
      Update.compile key [] [("b", .null), ("id", .string "k"), ("a", .bool true)] = .ok u := by
    refine Update.compile_ok_iff.2 ⟨?_, rfl, ⟨by decide, by decide, by decide⟩, ?_, ?_, by decide⟩
    · rintro v ⟨⟩
      rfl
    · exact List.cons_ne_nil _ _
    · exact fun n _ => List.not_mem_nil
  have hu : u.IsCompiled := ⟨[], _, hcompile⟩
  obtain ⟨htwice, hindependent, -⟩ := updates_overlap hu x m
  obtain ⟨-, -, hshared⟩ := updates_overlap hu w m
  have hdisjoint : (names u.assignments).Disjoint (names x.assignments) := by
    simp [u, x, Update.setting_assignments, names]
  exact ⟨hcompile, htwice, (hindependent (.inr hdisjoint)).2.2, (hshared rfl).2⟩

end Memory

end Store

end RecordService
