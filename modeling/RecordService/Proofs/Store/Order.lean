import RecordService.Proofs.Arrival
import RecordService.Proofs.Store.History
/-!
# The order of listings

A listing has each record that is there once, in the order of the commands that last brought their
keys in: only the creation of an absent record puts a key at the end, and a deletion takes one out.
In a record the attributes of its creation come first, and after them the names that updates added,
in the order in which they did.
-/

namespace RecordService.Store

open Entries
open Expression (Filter Update)

/-- What a command does to the keys. An update finds its record or changes nothing. -/
def Command.touch : Command → Touch
  | .create r => .write r.key.value
  | .delete key => .erase key.value
  | _ => .neither

/-- The names that commands set in the record of `k`, in their order, with repetitions. -/
def namesSet (k : String) (cs : List Command) : List String :=
  (cs.filterMap (Command.set? k)).flatMap names

namespace Memory

/-- The keys of the records, in the order of the listing. -/
def listed (m : Memory) : List String :=
  m.toList.map (·.key.value)

theorem listed_eq (m : Memory) : m.listed = names m.records := by
  simp [listed, toList, record, names]

/-! ## The keys of a listing -/

/-- One command does its touch to the keys. -/
theorem listed_run (m : Memory) (c : Command) : (m.run c).2.listed = c.touch.apply m.listed := by
  rw [listed_eq, listed_eq]
  cases c with
  | get key => rw [run_get_store]; rfl
  | create r => exact names_put _ _ _
  | update u => exact names_run_update m u
  | delete key => exact names_erase _ _
  | scan filter => rw [run_scan_store]; rfl

theorem listed_after (K : String) (cs : List Command) :
    ((empty K).after cs).listed = touched (cs.map Command.touch) := by
  rw [touched, List.foldl_map]
  exact (List.foldl_hom Memory.listed fun m c => (listed_run m c).symm).symm

/-- A listed record is the one that is found under its key. -/
theorem find?_of_mem_toList {m : Memory} (hm : (names m.records).Nodup) {r : Record}
    (hr : r ∈ m.toList) :
    r.key.name = m.keyAttribute ∧ find? r.key.value m.records = some r.attributes := by
  obtain ⟨e, he, rfl⟩ := List.mem_map.1 hr
  exact ⟨rfl, find?_of_mem hm he⟩

/-! ## The attributes of a record -/

variable {K : String} {cs : List Command} {k : String}

/-- A record that was not deleted since its creation has what was created, with all that was set
since written into it. -/
theorem find?_written {a : Attributes} {later : List Command} (h : LastCreate k cs a later)
    (hdel : ∀ d ∈ later, d.deletes k = false) : find? k ((empty K).after cs).records
      = some (putAll (later.filterMap (Command.set? k)).flatten a) := by
  rw [find?_created h, putAll_flatten]
  obtain ⟨-, -, -, -, hlater⟩ := h
  exact Command.entries_set hlater hdel a

theorem names_kept {a now : Attributes} {later : List Command} (h : LastCreate k cs a later)
    (hdel : ∀ d ∈ later, d.deletes k = false)
    (hnow : find? k ((empty K).after cs).records = some now) :
    names now = names a ++ ((namesSet k later).filter (· ∉ names a)).eraseDups := by
  rw [find?_written h hdel] at hnow
  obtain rfl := Option.some.inj hnow
  have hset : names (later.filterMap (Command.set? k)).flatten = namesSet k later :=
    List.map_flatten
  rw [names_putAll, hset]

/-! ## Main statement -/

/-- After any run from the empty store, a listing has every key that was created and not deleted
since, once each, in the order of the commands that last brought them in: to create or update what
is there keeps its place, a deletion leaves the others in their order, and what is created after its
deletion stands at the end. Each listed record is what reading its key gives. Its attributes are
those of its last creation and then the names set since, in the order in which they first were. A
filter takes from the listing what it accepts. -/
theorem listing_after_run (K : String) (cs : List Command) :
    let m := (empty K).after cs
    ((m.run (.scan none)).1 = .ok (.records m.toList) ∧
      ∀ f : Filter, (m.run (.scan (some f))).1 = .ok (.records (m.toList.filter f.accepts))) ∧
    (m.listed.Nodup ∧ ∀ k, k ∈ m.listed ↔ Present k (cs.map Command.touch)) ∧
    ((∀ k ∈ m.listed, ∃! i, ArrivesAt k (cs.map Command.touch) i) ∧
      m.listed.Pairwise fun k l => ∀ i j, ArrivesAt k (cs.map Command.touch) i →
        ArrivesAt l (cs.map Command.touch) j → i < j) ∧
    (∀ r : Record, r.key.value ∈ m.listed → (m.run (.create r)).2.listed = m.listed) ∧
    (∀ u : Update, (m.run (.update u)).2.listed = m.listed) ∧
    (∀ r : Record, let deleted := (m.run (.delete r.key)).2
      deleted.listed = m.listed.filter (· ≠ r.key.value) ∧
        (deleted.run (.create r)).2.listed = deleted.listed ++ [r.key.value]) ∧
    ((∀ r ∈ m.toList, ∀ key : Key, key.value = r.key.value →
        (m.run (.get key)).1 = .ok (.record r)) ∧
      ∀ key : Key, key.value ∉ m.listed → (m.run (.get key)).1 = .error (.notFound key)) ∧
    (∀ r ∈ m.toList, ∃ a later, LastCreate r.key.value cs a later ∧
      (∀ d ∈ later, d.deletes r.key.value = false) ∧ names r.attributes
        = names a ++ ((namesSet r.key.value later).filter (· ∉ names a)).eraseDups) := by
  intro m
  have hm : (names m.records).Nodup := nodup_after (m := empty K) List.nodup_nil cs
  have hlisted : m.listed = touched (cs.map Command.touch) := listed_after K cs
  have hkeys : ∀ k, k ∈ m.listed ↔ Present k (cs.map Command.touch) := by
    intro k
    rw [hlisted, mem_touched_iff]
  refine ⟨⟨rfl, fun f => rfl⟩, ⟨hlisted ▸ nodup_touched _, hkeys⟩, ⟨?_, ?_⟩, ?_, ?_, ?_, ⟨?_, ?_⟩,
    ?_⟩
  · intro k hk
    exact ((hkeys k).1 hk).existsUnique_arrivesAt
  · exact hlisted ▸ pairwise_touched _
  · intro r hr
    rw [listed_run]
    exact if_pos hr
  · intro u
    exact listed_run m _
  · intro r deleted
    have hdeleted : deleted.listed = m.listed.filter (· ≠ r.key.value) := listed_run m _
    refine ⟨hdeleted, ?_⟩
    rw [listed_run]
    exact if_neg (by simp [hdeleted])
  · intro r hr key hkey
    obtain ⟨hname, hfind⟩ := find?_of_mem_toList hm hr
    rw [run_get, hkey, hfind, ← hname]
  · intro key hkey
    rw [listed_eq] at hkey
    exact run_get_notFound.2 (find?_eq_none_iff.2 hkey)
  · intro r hr
    obtain ⟨-, hfind⟩ := find?_of_mem_toList hm hr
    obtain ⟨a, later, hlast, hdel⟩ := exists_kept hfind
    exact ⟨a, later, hlast, hdel, names_kept hlast hdel hfind⟩

/-- A record that comes back stands behind one that came after it before, and has only what it came
back with and was set since. -/
theorem listing_after_comeback :
    let cs : List Command := [.create ⟨⟨"id", "a"⟩, [("x", .null)]⟩, .create ⟨⟨"id", "b"⟩, []⟩,
      .delete ⟨"id", "a"⟩, .create ⟨⟨"id", "a"⟩, [("y", .null)]⟩,
      .update (Update.setting ⟨"id", "a"⟩ [("z", .null), ("y", .bool true)])]
    let m := (empty "id").after cs
    m.listed = ["b", "a"] ∧
      (∀ i j, ArrivesAt "b" (cs.map Command.touch) i → ArrivesAt "a" (cs.map Command.touch) j →
        i < j) ∧
      (m.run (.get ⟨"id", "a"⟩)).1
        = .ok (.record ⟨⟨"id", "a"⟩, [("y", .bool true), ("z", .null)]⟩) := by
  intro cs m
  have hlisted : m.listed = ["b", "a"] := rfl
  have hmem : ⟨⟨"id", "a"⟩, [("y", .bool true), ("z", .null)]⟩ ∈ m.toList := .tail _ (.head _)
  obtain ⟨-, -, ⟨-, horder⟩, -, -, -, ⟨hget, -⟩, -⟩ := listing_after_run "id" cs
  change m.listed.Pairwise _ at horder
  rw [hlisted] at horder
  exact ⟨hlisted, (List.pairwise_cons.1 horder).1 "a" (.head _), hget _ hmem ⟨"id", "a"⟩ rfl⟩

end Memory

end RecordService.Store
