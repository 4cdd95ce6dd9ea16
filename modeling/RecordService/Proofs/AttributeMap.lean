import RecordService.Proofs.Arrival
import RecordService.Proofs.Attributes
import RecordService.Proofs.Value.Equality
/-!
# Attributes as an ordered map

However attributes came about and whatever was done to them since, each name stands in them once,
with the value written last, in the order in which the names that are there came in. What they were
made of counts as written entry by entry, so a log of changes from nothing says all about them.
-/

namespace RecordService.Attributes

open Entries

/-- What can be done to attributes. -/
inductive Change where
  | insert (name : String) (value : Value)
  | remove (name : String)
  /-- Taken out as a key, which it may be no text for. -/
  | take (name : String)

namespace Change

def name : Change → String
  | insert name _ => name
  | remove name => name
  | take name => name

def apply (a : Attributes) : Change → Attributes
  | insert name value => put name value a
  | remove name => erase name a
  | take name => (Key.takeFrom name a).2

def touch : Change → Touch
  | insert name _ => .write name
  | remove name => .erase name
  | take name => .erase name

end Change

/-- The attributes after changes. -/
def changed (a : Attributes) (cs : List Change) : Attributes :=
  cs.foldl Change.apply a

/-- What attributes are made of: nothing, a request body, a JSON object as it is, or pairs in which
a name may occur more than once. In JSON objects none does. -/
inductive MadeOf : List (String × Value) → Attributes → Prop where
  | nothing : MadeOf [] []
  | body {members : Entries Value} {a : Attributes} (nodup : (names members).Nodup)
      (read : Attributes.ofBody (.map members) = .ok a) : MadeOf members a
  | object {members : Entries Value} (nodup : (names members).Nodup) : MadeOf members members
  | pairs (pairs : List (String × Value)) : MadeOf pairs (ofPairs pairs)

/-- The attributes came about by these changes, the first of which stand for what they were made
of. -/
def CameBy (log : List Change) (a : Attributes) : Prop :=
  ∃ pairs start cs, MadeOf pairs start ∧
    log = pairs.map (fun e => .insert e.1 e.2) ++ cs ∧ a = changed start cs

/-- The latest change of the name wrote the value. -/
def LastWrite (name : String) (v : Value) (cs : List Change) : Prop :=
  ∃ before later, cs = before ++ .insert name v :: later ∧ ∀ c ∈ later, c.name ≠ name

/-! ## One more change -/

theorem changed_concat (a : Attributes) (cs : List Change) (c : Change) :
    changed a (cs ++ [c]) = c.apply (changed a cs) := by
  simp [changed]

theorem names_apply (a : Attributes) (c : Change) :
    names (c.apply a) = c.touch.apply (names a) := by
  cases c with
  | insert name v => exact names_put name v a
  | remove name => exact names_erase name a
  | take name => exact names_erase name a

theorem find?_apply (name : String) (a : Attributes) (c : Change) : find? name (c.apply a)
    = if c.name = name then (match c with | .insert _ v => some v | _ => none)
      else find? name a := by
  cases c with
  | insert n v => exact find?_put n name v a
  | remove n => exact find?_erase n name a
  | take n => exact find?_erase n name a

variable {name : String} {v : Value} {cs : List Change} {c : Change} {a : Attributes}

/-- Only a text is taken out as a key. -/
theorem takeFrom_eq_some_iff {key : Key} :
    (Key.takeFrom name a).1 = some key ↔
      key.name = name ∧ find? name a = some (.string key.value) := by
  obtain ⟨n, text⟩ := key
  show ((find? name a).bind Value.string?).map (Key.mk name) = some ⟨n, text⟩ ↔ _
  cases hfind : find? name a with
  | none => simp
  | some v => cases v <;> simp [Value.string?, and_comm, eq_comm]

theorem lastWrite_concat : LastWrite name v (cs ++ [c]) ↔
    c = .insert name v ∨ (LastWrite name v cs ∧ c.name ≠ name) := by
  constructor
  · rintro ⟨before, later, hcs, hlater⟩
    rcases concat_eq_append_cons_iff.1 hcs with ⟨-, rfl, -⟩ | ⟨rest, rfl, rfl⟩
    · exact .inl rfl
    · exact .inr ⟨⟨before, rest, rfl, fun d hd => hlater d (List.mem_append_left _ hd)⟩,
        hlater c (List.mem_append_right _ List.mem_cons_self)⟩
  · rintro (rfl | ⟨⟨before, later, rfl, hlater⟩, hc⟩)
    · exact ⟨cs, [], rfl, by simp⟩
    · refine ⟨before, later ++ [c], by simp, fun d hd => ?_⟩
      rcases List.mem_append.1 hd with hd | hd
      · exact hlater d hd
      · rw [List.mem_singleton.1 hd]
        exact hc

/-! ## All changes from nothing -/

theorem names_changed (cs : List Change) :
    names (changed [] cs) = touched (cs.map Change.touch) := by
  rw [touched, List.foldl_map]
  exact (List.foldl_hom names fun a c => (names_apply a c).symm).symm

theorem find?_changed : find? name (changed [] cs) = some v ↔ LastWrite name v cs := by
  induction cs using List.reverseRecOn with
  | nil =>
    refine ⟨nofun, ?_⟩
    rintro ⟨before, later, hcs, -⟩
    simp at hcs
  | append_singleton cs c ih =>
    rw [changed_concat, find?_apply, lastWrite_concat, ← ih]
    by_cases hc : c.name = name
    · subst hc
      cases c <;> simp [Change.name]
    · have hother : c ≠ .insert name v := by
        rintro rfl
        exact hc rfl
      rw [if_neg hc]
      simp [hc, hother]

/-- What attributes are made of is inserted, pair by pair. -/
theorem MadeOf.eq_changed {pairs : List (String × Value)} (h : MadeOf pairs a) :
    a = changed [] (pairs.map fun e => .insert e.1 e.2) := by
  have hpairs : changed [] (pairs.map fun e => .insert e.1 e.2) = ofPairs pairs := List.foldl_map
  rw [hpairs]
  cases h with
  | nothing => rfl
  | body nodup read =>
    obtain ⟨heq, -⟩ := Attributes.ofBody_ok read
    cases heq
    exact (ofPairs_of_nodup nodup).symm
  | object nodup => exact (ofPairs_of_nodup nodup).symm
  | pairs => rfl

theorem CameBy.eq_changed {log : List Change} (h : CameBy log a) : a = changed [] log := by
  obtain ⟨pairs, start, cs, hstart, rfl, rfl⟩ := h
  rw [hstart.eq_changed]
  exact List.foldl_append.symm

/-! ## Main statement -/

/-- Attributes that came about by any changes have distinct names, as many as entries, in the order
in which they came in, and under each name the value written last, if it was not removed since; what
they list is what is found. To remove a name, also as a key that it is no text for, takes its one
entry out of its place. Attributes are equal if each name has equal values in both, or none. -/
theorem ordered_map {log : List Change} (h : CameBy log a) :
    ((names a).Nodup ∧ a.length = (names a).length) ∧
    ((∀ name v, find? name a = some v ↔ LastWrite name v log) ∧
      ∀ name, find? name a = none ↔ ¬∃ v, LastWrite name v log) ∧
    ((∀ e ∈ a, find? e.1 a = some e.2) ∧
      (∀ name ∈ names a, ∃! i, ArrivesAt name (log.map Change.touch) i) ∧
      (names a).Pairwise fun n m => ∀ i j, ArrivesAt n (log.map Change.touch) i →
        ArrivesAt m (log.map Change.touch) j → i < j) ∧
    (∀ name, (∀ v, find? name a = some v → ∃ before later, a = before ++ (name, v) :: later ∧
        Change.apply a (.remove name) = before ++ later ∧
        Change.apply a (.take name) = before ++ later) ∧
      (name ∉ names a → Change.apply a (.remove name) = a ∧ Change.apply a (.take name) = a) ∧
      ∀ key, (Key.takeFrom name a).1 = some key ↔
        key.name = name ∧ find? name a = some (.string key.value)) ∧
    ∀ log' b, CameBy log' b → ((Value.map a == .map b) = true ↔
      ∀ name, Option.Rel (fun v w => (v == w) = true) (find? name a) (find? name b)) := by
  have hnames : ∀ {log a}, CameBy log a → names a = touched (log.map Change.touch) :=
    fun h => h.eq_changed ▸ names_changed _
  have hnodup : ∀ {log a}, CameBy log a → (names a).Nodup := fun h => hnames h ▸ nodup_touched _
  have hn : (names a).Nodup := hnodup h
  have hfind : ∀ name v, find? name a = some v ↔ LastWrite name v log :=
    fun name v => h.eq_changed ▸ find?_changed
  refine ⟨⟨hn, (List.length_map _).symm⟩, ⟨hfind, fun name => ?_⟩,
    ⟨fun e he => find?_of_mem hn he, fun name hname => ?_, ?_⟩,
    fun name => ⟨fun v hv => ?_, fun hname => ?_, fun key => ?_⟩,
    fun log' b hb => Value.map_beq_iff_find? hn (hnodup hb)⟩
  · simp only [← hfind, ← Option.isSome_iff_exists, Option.not_isSome_iff_eq_none]
  · rw [hnames h, mem_touched_iff] at hname
    exact hname.existsUnique_arrivesAt
  · exact hnames h ▸ pairwise_touched _
  · obtain ⟨before, later, ha, herase⟩ := exists_erase_eq hn hv
    exact ⟨before, later, ha, herase, herase⟩
  · exact ⟨erase_of_not_mem hname, erase_of_not_mem hname⟩
  · exact takeFrom_eq_some_iff

/-- Of three pairs two have one name; then a name is taken out that is no text, and comes back
behind the others. The same names with equal values also come about in another order. -/
theorem ordered_map_reinserted :
    let log : List Change := [.insert "x" (.string "old"), .insert "n" (.list [.null]),
      .insert "x" (.string "new"), .insert "y" .null, .take "n", .remove "z",
      .insert "n" (.bool true)]
    let a : Attributes := [("x", .string "new"), ("y", .null), ("n", .bool true)]
    let b : Attributes := [("n", .bool true), ("x", .string "new"), ("y", .null)]
    let log' : List Change := b.map fun e => .insert e.1 e.2
    CameBy log a ∧ CameBy log' b ∧ (names a).Nodup ∧ LastWrite "x" (.string "new") log ∧
      (∀ i j, ArrivesAt "y" (log.map Change.touch) i → ArrivesAt "n" (log.map Change.touch) j →
        i < j) ∧
      (∀ key, (Key.takeFrom "n" a).1 ≠ some key) ∧ Change.apply a (.take "z") = a ∧
      Option.Rel (fun v w => (v == w) = true) (find? "n" a) (find? "n" b) := by
  intro log a b log'
  have ha : CameBy log a := ⟨[("x", .string "old"), ("n", .list [.null]), ("x", .string "new")],
    _, [.insert "y" .null, .take "n", .remove "z", .insert "n" (.bool true)], .pairs _, rfl, rfl⟩
  have hb : CameBy log' b := ⟨b, b, [], .object (by decide), rfl, rfl⟩
  obtain ⟨⟨hn, -⟩, ⟨hfind, -⟩, ⟨-, -, horder⟩, hremove, heq⟩ := ordered_map ha
  refine ⟨ha, hb, hn, (hfind _ _).1 rfl, ?_, fun key hkey => ?_, ?_, ?_⟩
  · exact (List.pairwise_cons.1 (List.pairwise_cons.1 horder).2).1 "n" (.head _)
  · obtain ⟨-, htext⟩ := ((hremove "n").2.2 key).1 hkey
    cases htext
  · exact ((hremove "z").2.1 (by decide)).2
  · exact (heq log' b hb).1 (by decide) "n"

end RecordService.Attributes
