import RecordService.Proofs.Entries
import RecordService.Proofs.Except
import RecordService.Record
/-!
# The names of attributes

In a record that came in through the checks, the names of the attributes are distinct, none of them
is empty, and none is the name of the key attribute. Writing, erasing and choosing attributes keep
this.
-/

namespace RecordService

open Entries

/-- The names are distinct and not empty, and the key attribute is not among them. -/
structure Attributes.WellNamed (keyName : String) (a : Attributes) : Prop where
  nodup : (Entries.names a).Nodup
  nameless : "" ∉ Entries.names a
  keyless : keyName ∉ Entries.names a

namespace Attributes.WellNamed

variable {keyName : String} {a new : Attributes}

theorem nil : WellNamed keyName [] := by
  constructor <;> simp [Entries.names]

theorem sublist (h : WellNamed keyName a) {b : Attributes} (hb : b.Sublist a) :
    WellNamed keyName b where
  nodup := h.nodup.sublist (hb.map _)
  nameless hm := h.nameless ((hb.map _).subset hm)
  keyless hm := h.keyless ((hb.map _).subset hm)

theorem put (h : WellNamed keyName a) {name : String} (hn : name ≠ "") (hk : name ≠ keyName)
    (v : Value) : WellNamed keyName (Entries.put name v a) where
  nodup := Entries.nodup_put h.nodup name v
  nameless hm := (Entries.mem_names_put.1 hm).elim (Ne.symm hn) h.nameless
  keyless hm := (Entries.mem_names_put.1 hm).elim (Ne.symm hk) h.keyless

theorem putAll (h : WellNamed keyName a) (hnew : WellNamed keyName new) :
    WellNamed keyName (Entries.putAll new a) where
  nodup := Entries.nodup_putAll h.nodup new
  nameless hm := (Entries.mem_names_putAll.1 hm).elim hnew.nameless h.nameless
  keyless hm := (Entries.mem_names_putAll.1 hm).elim hnew.keyless h.keyless

end Attributes.WellNamed

/-! ## Their values -/

/-- Attributes as a record may have them, with values that satisfy `p`. -/
structure Attributes.Sound (keyName : String) (p : Value → Prop) (a : Attributes) : Prop extends
    Attributes.WellNamed keyName a where
  values : ∀ e ∈ a, p e.2

namespace Attributes.Sound

variable {keyName : String} {p : Value → Prop} {a new : Attributes}

theorem sublist (h : Sound keyName p a) {b : Attributes} (hb : b.Sublist a) : Sound keyName p b :=
  ⟨h.toWellNamed.sublist hb, fun e he => h.values e (hb.subset he)⟩

theorem put (h : Sound keyName p a) {name : String} (hn : name ≠ "") (hk : name ≠ keyName)
    {v : Value} (hv : p v) : Sound keyName p (Entries.put name v a) := by
  refine ⟨h.toWellNamed.put hn hk v, fun e he => ?_⟩
  rcases mem_put he with rfl | he
  · exact hv
  · exact h.values e he

theorem putAll (h : Sound keyName p a) (hnew : Sound keyName p new) :
    Sound keyName p (Entries.putAll new a) := by
  refine ⟨h.toWellNamed.putAll hnew.toWellNamed, fun e he => ?_⟩
  rcases mem_putAll he with he | he
  · exact hnew.values e he
  · exact h.values e he

end Attributes.Sound

/-! ## The members of a record -/

/-- The members of the object that a record is shown as. -/
def Record.members (r : Record) : Entries Value :=
  (r.key.name, .string r.key.value) :: r.attributes

theorem Record.get?_eq (r : Record) (name : String) : r.get? name = find? name r.members := by
  by_cases h : r.key.name = name
  · simp [Record.get?, Record.members, find?, h]
  · simp [Record.get?, Record.members, find?, h, Ne.symm h]

theorem Record.nodup_members {r : Record} (h : r.attributes.WellNamed r.key.name) :
    (names r.members).Nodup :=
  List.nodup_cons.2 ⟨h.keyless, h.nodup⟩

/-! ## From a body to a record -/

/-- The attributes of a body are the members of the object that it is. -/
theorem Attributes.ofBody_ok_iff {body : Value} {a : Attributes} :
    Attributes.ofBody body = .ok a ↔ body = .map a ∧ "" ∉ Entries.names a := by
  cases body with
  | map members =>
    simp only [Attributes.ofBody, Entries.find?_isSome, Value.map.injEq]
    by_cases h : "" ∈ Entries.names members
    · rw [if_pos h]
      exact ⟨nofun, fun ⟨heq, hn⟩ => absurd (heq ▸ h) hn⟩
    · rw [if_neg h, Except.ok.injEq]
      exact ⟨fun heq => ⟨heq, heq ▸ h⟩, And.left⟩
  | _ => exact ⟨nofun, nofun⟩

theorem Attributes.ofBody_ok {body : Value} {a : Attributes} (h : Attributes.ofBody body = .ok a) :
    body = .map a ∧ "" ∉ Entries.names a :=
  ofBody_ok_iff.1 h

/-- A record is made of an object that has its key as a text; the attributes are the others. -/
theorem Record.ofBody_ok_iff {keyName : String} {body : Value} {r : Record} :
    Record.ofBody keyName body = .ok r ↔
      ∃ members k, body = .map members ∧ "" ∉ Entries.names members ∧
        Entries.find? keyName members = some (.string k) ∧ k ≠ "" ∧
        r = ⟨⟨keyName, k⟩, Entries.erase keyName members⟩ := by
  rw [Record.ofBody, bind_eq_ok]
  constructor
  · rintro ⟨members, ha, h⟩
    obtain ⟨rfl, hn⟩ := Attributes.ofBody_ok ha
    split at h
    · next k hk =>
      split at h
      · cases h
      · next hne =>
        cases h
        exact ⟨members, k, rfl, hn, hk, hne, rfl⟩
    · cases h
  · rintro ⟨members, k, rfl, hn, hk, hne, rfl⟩
    refine ⟨members, Attributes.ofBody_ok_iff.2 ⟨rfl, hn⟩, ?_⟩
    simp only [hk, if_neg hne]
    rfl

theorem Record.ofBody_ok {keyName : String} {body : Value} {r : Record}
    (h : Record.ofBody keyName body = .ok r) :
    ∃ members k, body = .map members ∧ "" ∉ Entries.names members ∧
      Entries.find? keyName members = some (.string k) ∧ k ≠ "" ∧
      r = ⟨⟨keyName, k⟩, Entries.erase keyName members⟩ :=
  ofBody_ok_iff.1 h

/-- What is made of a body with values that satisfy `p`. -/
theorem Record.ofBody_sound {keyName : String} {p : Value → Prop} {members : Entries Value}
    {r : Record} (hn : (names members).Nodup) (hp : ∀ e ∈ members, p e.2)
    (h : Record.ofBody keyName (.map members) = .ok r) :
    r.key.name = keyName ∧ r.key.value ≠ "" ∧ Attributes.Sound keyName p r.attributes := by
  obtain ⟨_, k, hbody, hnameless, -, hk, rfl⟩ := Record.ofBody_ok h
  cases hbody
  refine ⟨rfl, hk, ⟨nodup_erase hn _, fun hm => ?_, fun hm => ?_⟩, fun e he => ?_⟩
  · exact hnameless (mem_names_erase.1 hm).1
  · exact (mem_names_erase.1 hm).2 rfl
  · exact hp e (mem_erase.1 he).1

end RecordService
