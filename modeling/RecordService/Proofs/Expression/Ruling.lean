import RecordService.Proofs.Expression.Compile
/-!
# How bodies are decided

What the compiler makes of a body is settled by a few questions, asked in one order, and the first
of them that is answered badly is the error. `Ruling` says it without the loop: it looks at the
value under the key's name and at the names of the other attributes, and at nothing else. That two
attributes share a placeholder is no ruling, so it never happens.
-/

namespace RecordService.Expression.Update

open Entries (erase find? names)

/-- The body leaves the key out, or repeats it. -/
def KeepsKey (key : Key) (body : Attributes) : Prop :=
  ∀ v, find? key.name body = some v → v = .string key.value

/-- What a body comes to. -/
inductive Ruling (key : Key) (readOnly : List String) (body : Attributes) :
    Except Error Update → Prop where
  | keyChanged (changed : ¬KeepsKey key body) :
      Ruling key readOnly body (.error (.validation (.keyChanged key.name)))
  /-- The first attribute that is read-only, in the order of the body. -/
  | readOnly {before after : List String} {name : String} (kept : KeepsKey key body)
      (split : names (erase key.name body) = before ++ name :: after) (first : name ∈ readOnly)
      (others : ∀ n ∈ before, n ∉ readOnly) :
      Ruling key readOnly body (.error (.readOnlyAttribute name))
  | empty (kept : KeepsKey key body) (nothing : erase key.name body = []) :
      Ruling key readOnly body (.error (.emptyUpdate key.name))
  /-- The key or another attribute has no name. -/
  | nameless (kept : KeepsKey key body) (free : ∀ n ∈ names (erase key.name body), n ∉ readOnly)
      (something : erase key.name body ≠ [])
      (unnamed : key.name = "" ∨ "" ∈ names (erase key.name body)) :
      Ruling key readOnly body (.error (.invalidAttributeName ""))
  | compiled (kept : KeepsKey key body) (free : ∀ n ∈ names (erase key.name body), n ∉ readOnly)
      (something : erase key.name body ≠ []) (keyNamed : key.name ≠ "")
      (named : "" ∉ names (erase key.name body)) :
      Ruling key readOnly body (.ok (setting key (erase key.name body)))

/-! ## The compiler follows the ruling -/

theorem withoutKey_changed {key : Key} {body : Attributes} (h : ¬KeepsKey key body) :
    withoutKey key body = .error (.validation (.keyChanged key.name)) := by
  unfold withoutKey
  split
  · next hnone => exact absurd (fun v hv => by simp [hnone] at hv) h
  · next value hvalue =>
    have hne : value ≠ key.value := by
      rintro rfl
      exact h fun v hv => by simpa [hvalue, eq_comm] using hv
    exact if_neg hne
  · rfl

/-- The loop stops at the empty name, and at nothing else. -/
theorem assignAll_nameless {keyName : String} {set rest : Attributes}
    (hset : set.WellNamed keyName) (hn : (names (set ++ rest)).Nodup)
    (hk : keyName ∉ names (set ++ rest)) (hempty : "" ∈ names rest) :
    Draft.assignAll (Draft.ofSet keyName set) rest = .error (.invalidAttributeName "") := by
  -- Attributes before the empty name are new, so each of them is assigned.
  induction rest generalizing set with
  | nil => cases hempty
  | cons e rest ih =>
    obtain ⟨name, v⟩ := e
    by_cases hname : name = ""
    · subst hname
      rfl
    · have hnames : names (set ++ (name, v) :: rest) = names set ++ name :: names rest :=
        Entries.names_append _ _
      rw [hnames] at hn hk
      have hkey : name ≠ keyName := by
        rintro rfl
        exact hk (by simp)
      have hnew : name ∉ names set := fun hm =>
        (List.nodup_append.1 hn).2.2 name hm name (by simp) rfl
      have hput := hset.put hname hkey v
      rw [Entries.put_of_not_mem hnew] at hput
      have hrest := ih hput (by simpa [Entries.names_append, names] using hn)
        (by simpa [Entries.names_append, names] using hk)
        ((List.mem_cons.1 hempty).resolve_left (Ne.symm hname))
      simp only [Draft.assignAll, bind, Except.bind, assign_new hname hkey hnew v]
      exact hrest

variable {key : Key} {readOnly : List String} {body set : Attributes}

/-- Without a name for the key or for an attribute that is to be set, there is no update. -/
theorem compile_nameless (hset : withoutKey key body = .ok set)
    (hfirst : (names set).find? readOnly.contains = none) (hsome : set ≠ [])
    (hn : (names set).Nodup) (hk : key.name ∉ names set)
    (hunnamed : key.name = "" ∨ "" ∈ names set) :
    compile key readOnly body = .error (.invalidAttributeName "") := by
  have hmore : set.isEmpty = false := by simpa using hsome
  by_cases hkey : key.name = ""
  · have hreserved : token? key.name = .error (.invalidAttributeName "") := by
      rw [hkey]
      rfl
    simp only [compile, hset, bind, Except.bind, hfirst, hmore, hreserved]
    rfl
  · have hloop := @assignAll_nameless key.name [] set .nil hn hk (hunnamed.resolve_left hkey)
    simp only [compile, hset, bind, Except.bind, hfirst, hmore, token?_of_ne hkey]
    rw [show Draft.mk [(token key.name, key.name)] [] [] [] = Draft.ofSet key.name [] from rfl,
      hloop]
    rfl

/-- The compiler follows each ruling. -/
theorem Ruling.compile_eq (hbody : (names body).Nodup) {r : Except Error Update}
    (h : Ruling key readOnly body r) : compile key readOnly body = r := by
  have hkeyless : key.name ∉ names (erase key.name body) := by simp [Entries.mem_names_erase]
  have hnodup := Entries.nodup_erase hbody key.name
  cases h with
  | keyChanged changed =>
    rw [compile, withoutKey_changed changed]
    rfl
  | readOnly kept split first others =>
    have hfirst : (names (erase key.name body)).find? readOnly.contains = some _ :=
      List.find?_eq_some_iff_append.2 ⟨by simpa using first, _, _, split, by simpa using others⟩
    simp only [compile, withoutKey_ok_iff.2 ⟨kept, rfl⟩, bind, Except.bind, hfirst]
    rfl
  | empty kept nothing =>
    simp only [compile, withoutKey_ok_iff.2 ⟨kept, rfl⟩, bind, Except.bind, nothing]
    rfl
  | nameless kept free something unnamed =>
    have hfirst : (names (erase key.name body)).find? readOnly.contains = none := by
      simpa [List.find?_eq_none] using free
    exact compile_nameless (withoutKey_ok_iff.2 ⟨kept, rfl⟩) hfirst something hnodup hkeyless
      unnamed
  | compiled kept free something keyNamed named =>
    exact compile_ok_iff.2 ⟨kept, rfl, ⟨hnodup, named, hkeyless⟩, something, free, keyNamed⟩

/-- There is a ruling for every body. -/
theorem exists_ruling (key : Key) (readOnly : List String) (body : Attributes) :
    ∃ r, Ruling key readOnly body r := by
  by_cases hkept : KeepsKey key body
  · cases hfirst : (names (erase key.name body)).find? (· ∈ readOnly) with
    | some name =>
      obtain ⟨hname, before, after, hsplit, hbefore⟩ := List.find?_eq_some_iff_append.1 hfirst
      exact ⟨_, .readOnly hkept hsplit (by simpa using hname) (by simpa using hbefore)⟩
    | none =>
      have hfree : ∀ n ∈ names (erase key.name body), n ∉ readOnly := by
        simpa using List.find?_eq_none.1 hfirst
      by_cases hnothing : erase key.name body = []
      · exact ⟨_, .empty hkept hnothing⟩
      · by_cases hunnamed : key.name = "" ∨ "" ∈ names (erase key.name body)
        · exact ⟨_, .nameless hkept hfree hnothing hunnamed⟩
        · obtain ⟨hkey, hnamed⟩ := not_or.1 hunnamed
          exact ⟨_, .compiled hkept hfree hnothing hkey hnamed⟩
  · exact ⟨_, .keyChanged hkept⟩

theorem compile_eq_iff (hbody : (names body).Nodup) {r : Except Error Update} :
    compile key readOnly body = r ↔ Ruling key readOnly body r := by
  constructor
  · rintro rfl
    obtain ⟨r, hr⟩ := exists_ruling key readOnly body
    rwa [hr.compile_eq hbody]
  · exact Ruling.compile_eq hbody

/-! ## What does not matter -/

/-- What a result is, without the update. -/
def kind (r : Except Error Update) : Except Error Unit :=
  r.map fun _ => ()

/-- The names of the attributes that are to be set decide, not their values. -/
theorem Ruling.kind_eq {other : Attributes} {r : Except Error Update}
    (hkey : find? key.name other = find? key.name body)
    (hnames : names (erase key.name other) = names (erase key.name body))
    (h : Ruling key readOnly body r) : ∃ r', Ruling key readOnly other r' ∧ kind r' = kind r := by
  have hkept : KeepsKey key other ↔ KeepsKey key body := by rw [KeepsKey, KeepsKey, hkey]
  have hnil : erase key.name other = [] ↔ erase key.name body = [] := by
    simpa [names] using congrArg (· = []) hnames
  cases h with
  | keyChanged changed => exact ⟨_, .keyChanged (hkept.not.2 changed), rfl⟩
  | readOnly kept split first others =>
    exact ⟨_, .readOnly (hkept.2 kept) (hnames.trans split) first others, rfl⟩
  | empty kept nothing => exact ⟨_, .empty (hkept.2 kept) (hnil.2 nothing), rfl⟩
  | nameless kept free something unnamed =>
    exact ⟨_, .nameless (hkept.2 kept) (hnames ▸ free) (hnil.not.2 something) (hnames ▸ unnamed),
      rfl⟩
  | compiled kept free something keyNamed named =>
    exact ⟨_, .compiled (hkept.2 kept) (hnames ▸ free) (hnil.not.2 something) keyNamed
      (hnames ▸ named), rfl⟩

/-- The order of a body does not decide whether it is compiled. -/
theorem Ruling.ok_of_perm {other : Attributes} {u : Update} (hbody : (names body).Nodup)
    (hperm : body.Perm other) (h : Ruling key readOnly body (.ok u)) :
    ∃ u', Ruling key readOnly other (.ok u') := by
  have hrest : (erase key.name body).Perm (erase key.name other) := hperm.filter _
  have hmem : ∀ n, n ∈ names (erase key.name other) ↔ n ∈ names (erase key.name body) :=
    fun n => (hrest.map (·.1)).mem_iff.symm
  cases h with
  | compiled kept free something keyNamed named =>
    refine ⟨_, .compiled ?_ (fun n hn => free n ((hmem n).1 hn)) ?_ keyNamed ((hmem _).not.2 named)⟩
    · intro v hv
      have hmem : (key.name, v) ∈ body := hperm.mem_iff.2 (Entries.mem_of_find? hv)
      exact kept v (Entries.find?_of_mem hbody hmem)
    · exact fun hnil => something (hnil ▸ hrest).eq_nil

/-- The decision about a body is complete. A result is the compiler's exactly if it is the ruling,
so no two attributes are ever said to share a placeholder. The kind of the result, with the name in
an error, stays the same if the attributes that are to be set get other values; and a body that is
compiled is compiled in any order. -/
theorem compile_decided {key : Key} {readOnly : List String} {body : Attributes}
    (hbody : (names body).Nodup) :
    (∀ r, compile key readOnly body = r ↔ Ruling key readOnly body r) ∧
    (∀ first second placeholder,
      compile key readOnly body ≠ .error (.aliasCollision first second placeholder)) ∧
    (∀ other, (names other).Nodup → find? key.name other = find? key.name body →
      names (erase key.name other) = names (erase key.name body) →
      kind (compile key readOnly other) = kind (compile key readOnly body)) ∧
    ∀ other, body.Perm other → (∃ u, compile key readOnly body = .ok u) →
      ∃ u, compile key readOnly other = .ok u := by
  refine ⟨fun r => compile_eq_iff hbody, ?_, ?_, ?_⟩
  · intro first second placeholder h
    cases (compile_eq_iff hbody).1 h
  · intro other hother hkey hnames
    obtain ⟨r, hr, hkind⟩ := ((compile_eq_iff hbody).1 rfl).kind_eq hkey hnames
    rw [hr.compile_eq hother, hkind]
  · rintro other hperm ⟨u, hu⟩
    obtain ⟨u', hu'⟩ := ((compile_eq_iff hbody).1 hu).ok_of_perm hbody hperm
    have hother : (names other).Nodup := (hperm.map Prod.fst).nodup_iff.1 hbody
    exact ⟨u', hu'.compile_eq hother⟩

/-- A body that repeats the key is refused for an attribute without a name, whatever its values; one
that sets a read-only attribute, for the first of them. -/
theorem compile_decided_nameless :
    let key : Key := ⟨"id", "k"⟩
    let body : Attributes := [("a", .null), ("id", .string "k"), ("", .bool true)]
    compile key ["b"] body = .error (.invalidAttributeName "") ∧
      kind (compile key ["b"] [("a", .list []), ("", .null), ("id", .string "k")])
        = .error (.invalidAttributeName "") ∧
      compile key ["", "a"] body = .error (.readOnlyAttribute "a") := by
  intro key body
  have hbody : (names body).Nodup := by decide
  have hrest : names (erase key.name body) = ["a", ""] := by decide
  have hkept : KeepsKey key body := by
    rintro v ⟨⟩
    rfl
  obtain ⟨hruling, -, hvalues, -⟩ := @compile_decided key ["b"] body hbody
  have hnameless : compile key ["b"] body = .error (.invalidAttributeName "") :=
    (hruling _).2 (.nameless hkept (by simp [hrest]) (by decide) (.inr (by simp [hrest])))
  refine ⟨hnameless, ?_, ?_⟩
  · have hkind := hvalues [("a", .list []), ("", .null), ("id", .string "k")] (by decide) rfl rfl
    rwa [hnameless] at hkind
  · obtain ⟨hfirst, -⟩ := @compile_decided key ["", "a"] body hbody
    exact (hfirst _).2 (.readOnly hkept (hrest.trans (List.nil_append _).symm) (by simp) (by simp))

end RecordService.Expression.Update
