import RecordService.Http.Service
import RecordService.Proofs.Except
import RecordService.Proofs.Expression.Compile
import RecordService.Proofs.Related
import RecordService.Proofs.Store.Run
/-!
# Stores that differ in hidden values

With a projection, an attribute that is neither the key nor projected is hidden. Two stores with the
same records and the same names in them, in the same order, may hold different values under hidden
names. A command on both, which may differ in the same way, shows the same and leaves two such
stores.
-/

namespace RecordService

open Entries (names find? Related)
open Expression

/-- The name is neither the key's nor projected. -/
def Settings.Hides (s : Settings) (name : String) : Prop :=
  name ≠ s.keyAttribute ∧ name ∉ s.projection

instance (s : Settings) : DecidablePred s.Hides :=
  fun _ => inferInstanceAs (Decidable (_ ∧ _))

/-- Values under a name: equal, if the name is shown. -/
def Settings.Alike (s : Settings) (name : String) (v w : Value) : Prop :=
  s.Hides name ∨ v = w

variable {s : Settings}

theorem Settings.Alike.refl (name : String) (v : Value) : s.Alike name v v := .inr rfl

/-- What is found under a shown name is the same. -/
theorem find?_eq_of_related {es fs : Attributes} (h : Related s.Alike es fs) {name : String}
    (hname : ¬s.Hides name) : find? name es = find? name fs := by
  rcases h.find?_cases name with ⟨hv, hw⟩ | ⟨v, w, hv, hw, hvalue⟩
  · rw [hv, hw]
  · rw [hv, hw, hvalue.resolve_left hname]

theorem not_hides_key : ¬s.Hides s.keyAttribute := fun h => h.1 rfl

/-! ## Records -/

/-- The same key, and attributes that differ in hidden values only. -/
def Record.Alike (s : Settings) (r q : Record) : Prop :=
  r.key = q.key ∧ Related s.Alike r.attributes q.attributes

namespace Record.Alike

variable {r q : Record}

/-- What is shown of two such records is the same. -/
theorem shown_eq (hprojection : s.projection ≠ []) (h : Record.Alike s r q) :
    Http.Response.shown s r = Http.Response.shown s q := by
  obtain ⟨hkey, hattributes⟩ := h
  have hempty : s.projection.isEmpty = false := by simpa using hprojection
  have hkept : (r.attributes.filter fun e => s.projection.contains e.1)
      = q.attributes.filter fun e => s.projection.contains e.1 := by
    refine (hattributes.filter fun n => s.projection.contains n).eq fun n hn v w hvalue => ?_
    obtain ⟨e, he, rfl⟩ := List.mem_map.1 hn
    have hshown : s.projection.contains e.1 = true := (List.mem_filter.1 he).2
    exact hvalue.resolve_left fun hhidden => hhidden.2 (by simpa using hshown)
  simp only [Http.Response.shown, project, hempty, Bool.false_eq_true, if_false, toValue, hkey,
    hkept]

/-- A filter on a shown name takes both or neither. -/
theorem accepts_eq (h : Record.Alike s r q) {f : Filter} (hname : ¬s.Hides f.name) :
    f.accepts r = f.accepts q := by
  obtain ⟨hkey, hattributes⟩ := h
  simp only [Filter.accepts, get?, hkey, find?_eq_of_related hattributes hname]

/-- Lists of such records are shown alike. -/
theorem map_shown_eq (hprojection : s.projection ≠ []) {rs qs : List Record}
    (h : List.Forall₂ (Record.Alike s) rs qs) :
    rs.map (Http.Response.shown s) = qs.map (Http.Response.shown s) := by
  induction h with
  | nil => rfl
  | cons hrecord _ ih => rw [List.map_cons, List.map_cons, hrecord.shown_eq hprojection, ih]

/-- A filter on a shown name takes such records from the same places. -/
theorem filter {rs qs : List Record} (h : List.Forall₂ (Record.Alike s) rs qs) {f : Filter}
    (hname : ¬s.Hides f.name) :
    List.Forall₂ (Record.Alike s) (rs.filter f.accepts) (qs.filter f.accepts) := by
  induction h with
  | nil => exact .nil
  | cons hrecord _ ih =>
    rw [List.filter_cons, List.filter_cons, hrecord.accepts_eq hname]
    split
    · exact .cons hrecord ih
    · exact ih

end Record.Alike

/-- Bodies that are the same, or objects that differ in hidden values. -/
def Value.Alike (s : Settings) (v w : Value) : Prop :=
  v = w ∨ ∃ es fs, v = .map es ∧ w = .map fs ∧ Related s.Alike es fs

theorem Attributes.ofBody_agree {v w : Value} (h : Value.Alike s v w) :
    Agree (Related s.Alike) (Attributes.ofBody v) (Attributes.ofBody w) := by
  obtain rfl | ⟨es, fs, rfl, rfl, h⟩ := h
  · exact .refl _ (Related.refl Settings.Alike.refl) _
  · simp only [Attributes.ofBody, Entries.find?_isSome, h.names_eq]
    split
    · exact .error _
    · exact .ok h

theorem Record.ofBody_agree {v w : Value} (h : Value.Alike s v w) :
    Agree (Record.Alike s) (Record.ofBody s.keyAttribute v) (Record.ofBody s.keyAttribute w) := by
  refine (Attributes.ofBody_agree h).bind fun a b hab => ?_
  rw [← find?_eq_of_related hab not_hides_key]
  split
  · split
    · exact .error _
    · exact .ok ⟨rfl, hab.erase s.keyAttribute⟩
  · exact .error _

/-! ## Updates -/

namespace Expression.Update

/-- The same tokens are taken, so the same assignment is refused. -/
def Draft.SameOwners (d e : Draft) : Prop :=
  d.owners = e.owners

theorem assign_agree {d e : Draft} (h : d.SameOwners e) (name : String) (v w : Value) :
    Agree Draft.SameOwners (d.assign name v) (e.assign name w) := by
  refine (Agree.refl Eq (fun _ => rfl) (token? name)).bind fun t _ ht => ?_
  subst ht
  rw [← show d.owners = e.owners from h]
  split
  · exact .error _
  · exact .ok rfl

theorem assignAll_agree {d e : Draft} (h : d.SameOwners e) {es fs : Attributes}
    (hset : Related s.Alike es fs) :
    Agree Draft.SameOwners (d.assignAll es) (e.assignAll fs) := by
  induction hset generalizing d e with
  | nil => exact .ok h
  | @cons x y _ _ hentry _ ih =>
    obtain ⟨n, v⟩ := x
    obtain ⟨n', w⟩ := y
    obtain rfl : n = n' := hentry.1
    exact (assign_agree h n v w).bind fun _ _ hnext => ih hnext

theorem withoutKey_agree {key : Key} (hkey : ¬s.Hides key.name) {es fs : Attributes}
    (h : Related s.Alike es fs) :
    Agree (Related s.Alike) (withoutKey key es) (withoutKey key fs) := by
  unfold withoutKey
  rw [← find?_eq_of_related h hkey]
  split
  · exact .ok h
  · split
    · exact .ok (h.erase key.name)
    · exact .error _
  · exact .error _

/-- The same key, and assignments that differ in hidden values only. -/
def Alike (s : Settings) (u w : Update) : Prop :=
  u.key = w.key ∧ Related s.Alike u.assignments w.assignments

theorem compile_agree {key : Key} (hkey : ¬s.Hides key.name) (readOnly : List String)
    {es fs : Attributes} (h : Related s.Alike es fs) :
    Agree (Update.Alike s) (compile key readOnly es) (compile key readOnly fs) := by
  -- That both end alike is seen from the names; what they end with is known already.
  have hagree : Agree (fun _ _ => True) (compile key readOnly es) (compile key readOnly fs) := by
    refine (withoutKey_agree hkey h).bind fun a b hab => ?_
    rw [← hab.names_eq]
    split
    · exact .error _
    · have hempty : a.isEmpty = b.isEmpty := by
        cases hab <;> rfl
      rw [← hempty]
      dsimp only
      split
      · exact .error _
      · refine (Agree.refl Eq (fun _ => rfl) (token? key.name)).bind fun t _ ht => ?_
        subst ht
        have howners :
            Draft.SameOwners ⟨[(t, key.name)], [], [], []⟩ ⟨[(t, key.name)], [], [], []⟩ :=
          rfl
        exact (assignAll_agree howners hab).bind fun _ _ _ => .ok trivial
  refine hagree.imp fun u w hu hw => ?_
  obtain ⟨hu, -⟩ := compile_ok hu
  obtain ⟨hw, -⟩ := compile_ok hw
  rw [hu, hw]
  refine ⟨rfl, ?_⟩
  rw [setting_assignments, setting_assignments]
  exact h.erase key.name

end Expression.Update

/-! ## Commands -/

namespace Store

/-- The same command, but for hidden values; a scan does not filter on a hidden name. -/
inductive Command.Alike (s : Settings) : Command → Command → Prop where
  | get (key : Key) : Alike s (.get key) (.get key)
  | create {r q : Record} (h : Record.Alike s r q) : Alike s (.create r) (.create q)
  | update {u w : Update} (h : Update.Alike s u w) : Alike s (.update u) (.update w)
  | delete (key : Key) : Alike s (.delete key) (.delete key)
  | scan (filter : Option Filter) (h : ∀ f ∈ filter, ¬s.Hides f.name) :
      Alike s (.scan filter) (.scan filter)

/-- The same records in the same order, but for hidden values. -/
structure Memory.Alike (s : Settings) (m n : Memory) : Prop where
  keyAttribute : m.keyAttribute = n.keyAttribute
  records : Related (fun _ => Related s.Alike) m.records n.records

namespace Memory.Alike

variable {m n : Memory}

theorem refl (m : Memory) : Memory.Alike s m m :=
  ⟨rfl, Related.refl (fun _ a => Related.refl Settings.Alike.refl a) m.records⟩

theorem record (h : Memory.Alike s m n) {k : String} {a b : Attributes}
    (hab : Related s.Alike a b) : Record.Alike s (m.record (k, a)) (n.record (k, b)) := by
  refine ⟨?_, hab⟩
  rw [Memory.record, Memory.record, h.keyAttribute]

theorem toList (h : Memory.Alike s m n) :
    List.Forall₂ (Record.Alike s) m.toList n.toList := by
  refine List.forall₂_map_left_iff.2 (List.forall₂_map_right_iff.2 (h.records.imp ?_))
  rintro ⟨k, a⟩ ⟨l, b⟩ ⟨hkey, hab⟩
  obtain rfl : k = l := hkey
  exact h.record hab

theorem matching (h : Memory.Alike s m n) {filter : Option Filter}
    (hfilter : ∀ f ∈ filter, ¬s.Hides f.name) :
    List.Forall₂ (Record.Alike s) (m.matching filter) (n.matching filter) := by
  cases filter with
  | none => exact h.toList
  | some f => exact Record.Alike.filter h.toList (hfilter f rfl)

/-- A command and one that differs in hidden values show the same, and leave stores that differ in
hidden values. -/
theorem run (hprojection : s.projection ≠ []) (h : Memory.Alike s m n) {c d : Command}
    (hcd : Command.Alike s c d) :
    Http.Response.ofOutcome s c (m.run c).1 = Http.Response.ofOutcome s d (n.run d).1 ∧
      Memory.Alike s (m.run c).2 (n.run d).2 := by
  cases hcd with
  | get key =>
    refine ⟨?_, by rwa [Memory.run_get_store, Memory.run_get_store]⟩
    rw [Memory.run_get, Memory.run_get]
    rcases h.records.find?_cases key.value with ⟨ha, hb⟩ | ⟨a, b, ha, hb, hab⟩
    · rw [ha, hb]
    · rw [ha, hb]
      exact congrArg (Http.Response.json 200) ((h.record hab).shown_eq hprojection)
  | @create r q hrecord =>
    refine ⟨congrArg (Http.Response.json 200) (hrecord.shown_eq hprojection), h.keyAttribute, ?_⟩
    change Related _ (Entries.put r.key.value _ _) (Entries.put q.key.value _ _)
    rw [hrecord.1]
    exact h.records.put hrecord.2
  | @update u w hupdate =>
    obtain ⟨hkey, hset⟩ := hupdate
    simp only [Memory.run, ← hkey]
    rcases h.records.find?_cases u.key.value with ⟨ha, hb⟩ | ⟨a, b, ha, hb, hab⟩
    · rw [ha, hb]
      exact ⟨rfl, h⟩
    · rw [ha, hb]
      have hecho : Record.Alike s ⟨u.key, u.assignments⟩ ⟨w.key, w.assignments⟩ := ⟨hkey, hset⟩
      exact ⟨congrArg (Http.Response.json 200) (hecho.shown_eq hprojection), h.keyAttribute,
        h.records.put (hset.putAll hab)⟩
  | delete key => exact ⟨rfl, h.keyAttribute, h.records.erase key.value⟩
  | scan filter hfilter =>
    exact ⟨congrArg (Http.Response.json 200 ∘ Value.list)
      (Record.Alike.map_shown_eq hprojection (h.matching hfilter)), h⟩

end Memory.Alike

end Store

end RecordService
