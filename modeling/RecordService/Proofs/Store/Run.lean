import RecordService.Proofs.Entries
import RecordService.Store.Memory
/-!
# Runs of the store in memory

A run is a list of commands, whoever sent them; the store takes them one after another. One equation
says what a command does to the entry of a key; that reading and failing change nothing, and that a
command leaves the other keys alone, follows from it.
-/

namespace RecordService.Store

open Expression

namespace Command

/-- The key of the record that a command is about, if it is about one. -/
def key? : Command → Option Key
  | .get key => some key
  | .create r => some r.key
  | .update u => some u.key
  | .delete key => some key
  | .scan _ => none

/-- The value of the key, under which a command reads or writes. -/
def subject? (c : Command) : Option String :=
  c.key?.map Key.value

/-- The attributes that a command creates the record of `k` with. -/
def created? (k : String) : Command → Option Attributes
  | .create r => if r.key.value = k then some r.attributes else none
  | _ => none

/-- The attributes that a command sets in the record of `k`. -/
def set? (k : String) : Command → Option Attributes
  | .update u => if u.key.value = k then some u.assignments else none
  | _ => none

def deletes (k : String) : Command → Bool
  | .delete key => key.value = k
  | _ => false

/-- What a command makes of the entry of `k`. -/
def entry (k : String) (c : Command) (old : Option Attributes) : Option Attributes :=
  if c.deletes k then none
  else match c.created? k, c.set? k with
    | some a, _ => some a
    | none, some set => old.map (Entries.putAll set)
    | none, none => old

/-- What commands make of the entry of `k`, one after another. -/
def entries (k : String) (cs : List Command) (old : Option Attributes) : Option Attributes :=
  cs.foldl (fun old c => c.entry k old) old

section Entry
variable (k : String) (old : Option Attributes)

@[simp] theorem entry_get (key : Key) : (Command.get key).entry k old = old := rfl

@[simp] theorem entry_create (r : Record) : (Command.create r).entry k old
    = if r.key.value = k then some r.attributes else old := by
  by_cases h : r.key.value = k <;> simp [entry, deletes, created?, set?, h]

@[simp] theorem entry_update (u : Update) : (Command.update u).entry k old
    = if u.key.value = k then old.map (Entries.putAll u.assignments) else old := by
  by_cases h : u.key.value = k <;> simp [entry, deletes, created?, set?, h]

@[simp] theorem entry_delete (key : Key) : (Command.delete key).entry k old
    = if key.value = k then none else old := by
  by_cases h : key.value = k <;> simp [entry, deletes, created?, set?, h]

@[simp] theorem entry_scan (filter : Option Filter) : (Command.scan filter).entry k old = old := rfl

theorem entries_cons (c : Command) (cs : List Command) :
    entries k (c :: cs) old = entries k cs (c.entry k old) := rfl

theorem entries_append (before later : List Command) :
    entries k (before ++ later) old = entries k later (entries k before old) :=
  List.foldl_append

end Entry

theorem entry_of_ne {k : String} {c : Command} (h : c.subject? ≠ some k) (old : Option Attributes) :
    c.entry k old = old := by
  cases c <;> simp_all [subject?, key?]

theorem created?_eq_some {k : String} {c : Command} {a : Attributes} : c.created? k = some a ↔
    ∃ r, c = .create r ∧ r.key.value = k ∧ r.attributes = a := by
  cases c <;> simp [created?]

theorem set?_eq_some {k : String} {c : Command} {set : Attributes} : c.set? k = some set ↔
    ∃ u, c = .update u ∧ u.key.value = k ∧ u.assignments = set := by
  cases c <;> simp [set?]

end Command

namespace Memory

/-- The store after commands. -/
def after (m : Memory) (cs : List Command) : Memory :=
  cs.foldl (fun m c => (m.run c).2) m

/-- What the commands of a run come to. -/
def outcomes (m : Memory) : List Command → List Outcome
  | [] => []
  | c :: cs => (m.run c).1 :: (m.run c).2.outcomes cs

@[simp] theorem after_nil (m : Memory) : m.after [] = m := rfl

@[simp] theorem after_cons (m : Memory) (c : Command) (cs : List Command) :
    m.after (c :: cs) = (m.run c).2.after cs := rfl

theorem keyAttribute_run (m : Memory) (c : Command) :
    (m.run c).2.keyAttribute = m.keyAttribute := by
  cases c <;> simp only [run] <;> split <;> rfl

@[simp] theorem keyAttribute_after (m : Memory) (cs : List Command) :
    (m.after cs).keyAttribute = m.keyAttribute := by
  induction cs generalizing m with
  | nil => rfl
  | cons c cs ih => rw [after_cons, ih, keyAttribute_run]

/-! ## One command -/

/-- One command, seen from one key. -/
theorem find?_run (m : Memory) (c : Command) (k : String) :
    Entries.find? k (m.run c).2.records = c.entry k (Entries.find? k m.records) := by
  cases c with
  | get key => cases h : Entries.find? key.value m.records <;> simp [run, h]
  | create r => simp [run, Entries.find?_put]
  | update u =>
    -- Whether the update succeeds depends on the record it is about, which `k` may name or not.
    by_cases hk : u.key.value = k
    · subst hk
      cases h : Entries.find? u.key.value m.records <;> simp [run, h, Entries.find?_put]
    · cases h : Entries.find? u.key.value m.records <;> simp [run, h, Entries.find?_put, hk]
  | delete key => simp [run, Entries.find?_erase]
  | scan filter => simp [run]

/-- The outcome of reading a key says all about its entry. -/
theorem run_get (m : Memory) (key : Key) : (m.run (.get key)).1 =
    match Entries.find? key.value m.records with
    | some a => .ok (.record ⟨⟨m.keyAttribute, key.value⟩, a⟩)
    | none => .error (.notFound key) := by
  cases h : Entries.find? key.value m.records <;> simp [run, h, record]

theorem run_get_store (m : Memory) (key : Key) : (m.run (.get key)).2 = m := by
  cases h : Entries.find? key.value m.records <;> simp [run, h]

theorem run_scan_store (m : Memory) (filter : Option Filter) : (m.run (.scan filter)).2 = m := rfl

/-- A command that fails changes nothing. -/
theorem run_error {m : Memory} {c : Command} {e : StoreError} (h : (m.run c).1 = .error e) :
    (m.run c).2 = m := by
  cases c with
  | get key => exact run_get_store m key
  | update u =>
    cases hf : Entries.find? u.key.value m.records with
    | none => simp [run, hf]
    | some a => simp [run, hf] at h
  | _ => simp [run] at h

/-- A command about one record leaves the others alone, each in its place among the others. -/
theorem erase_run {c : Command} {k : String} (h : c.subject? = some k) (m : Memory) :
    Entries.erase k (m.run c).2.records = Entries.erase k m.records := by
  cases c with
  | get key => rw [run_get_store]
  | create r =>
    obtain rfl : r.key.value = k := Option.some.inj h
    exact Entries.erase_put _ _ _
  | update u =>
    obtain rfl : u.key.value = k := Option.some.inj h
    cases hf : Entries.find? u.key.value m.records with
    | none => simp [run, hf]
    | some a => simp [run, hf, Entries.erase_put]
  | delete key =>
    obtain rfl : key.value = k := Option.some.inj h
    exact Entries.erase_erase _ _
  | scan filter => rw [run_scan_store]

/-- An update makes no record appear, and none disappear. -/
theorem names_run_update (m : Memory) (u : Update) :
    Entries.names (m.run (.update u)).2.records = Entries.names m.records := by
  cases h : Entries.find? u.key.value m.records with
  | none => simp [run, h]
  | some a =>
    have hm : u.key.value ∈ Entries.names m.records := by
      rw [← Entries.find?_isSome, h]; rfl
    simp [run, h, Entries.names_put, hm]

/-- No command makes a key occur twice. -/
theorem nodup_run {m : Memory} (h : (Entries.names m.records).Nodup) (c : Command) :
    (Entries.names (m.run c).2.records).Nodup := by
  cases c with
  | get key => rwa [run_get_store]
  | create r => exact Entries.nodup_put h _ _
  | update u => rwa [names_run_update]
  | delete key => exact Entries.nodup_erase h _
  | scan filter => rwa [run_scan_store]

/-! ## Many commands -/

theorem nodup_after {m : Memory} (h : (Entries.names m.records).Nodup) (cs : List Command) :
    (Entries.names (m.after cs).records).Nodup := by
  induction cs generalizing m with
  | nil => exact h
  | cons c cs ih => exact ih (nodup_run h c)

/-- A run, seen from one key. -/
theorem find?_after (m : Memory) (cs : List Command) (k : String) :
    Entries.find? k (m.after cs).records = Command.entries k cs (Entries.find? k m.records) := by
  induction cs generalizing m with
  | nil => rfl
  | cons c cs ih => rw [after_cons, ih, find?_run, Command.entries_cons]

end Memory

end RecordService.Store
