import RecordService.Proofs.Attributes
import RecordService.Proofs.Store.Run
/-!
# What a store may hold

The store itself takes whatever it is given. If what it is given is sound, so is what it holds: the
keys are distinct and not empty, the names of a record's attributes are distinct, not empty and not
the name of the key attribute, and every value is such as values should be.
-/

namespace RecordService.Store

open Entries

/-- A store with sound records under keys that are distinct and not empty. -/
structure Memory.Sound (p : Value → Prop) (m : Memory) : Prop where
  keys : (names m.records).Nodup
  keyed : "" ∉ names m.records
  attributes : ∀ e ∈ m.records, Attributes.Sound m.keyAttribute p e.2

/-- What a command brings into a store is sound. -/
def Command.Sound (keyName : String) (p : Value → Prop) : Command → Prop
  | .create r => r.key.value ≠ "" ∧ Attributes.Sound keyName p r.attributes
  | .update u => Attributes.Sound keyName p u.assignments
  | _ => True

namespace Memory

variable {p : Value → Prop}

theorem sound_empty (keyAttribute : String) : (empty keyAttribute).Sound p where
  keys := List.nodup_nil
  keyed := by simp [empty, names]
  attributes := by simp [empty]

theorem Sound.put {m : Memory} (h : m.Sound p) {k : String} (hk : k ≠ "") {a : Attributes}
    (ha : Attributes.Sound m.keyAttribute p a) :
    Sound p { m with records := Entries.put k a m.records } where
  keys := nodup_put h.keys k a
  keyed hm := (mem_names_put.1 hm).elim (Ne.symm hk) h.keyed
  attributes e he := by
    rcases mem_put he with rfl | he
    · exact ha
    · exact h.attributes e he

/-- A sound command keeps a store sound. -/
theorem Sound.run {m : Memory} (h : m.Sound p) {c : Command} (hc : c.Sound m.keyAttribute p) :
    (m.run c).2.Sound p := by
  cases c with
  | get key => rwa [run_get_store]
  | create r => exact h.put hc.1 hc.2
  | update u =>
    simp only [Memory.run]
    split
    · -- The record was there, so its key and its attributes are sound.
      next a ha =>
      have hmem := mem_of_find? ha
      refine h.put (fun hk => h.keyed ?_) ((h.attributes _ hmem).putAll hc)
      exact hk ▸ mem_names hmem
    · exact h
  | delete key =>
    refine ⟨nodup_erase h.keys key.value, fun hm => ?_, fun e he => ?_⟩
    · exact h.keyed (mem_names_erase.1 hm).1
    · exact h.attributes e (mem_erase.1 he).1
  | scan filter => rwa [run_scan_store]

end Memory

end RecordService.Store
