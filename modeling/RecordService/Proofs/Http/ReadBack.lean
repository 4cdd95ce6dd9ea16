import RecordService.Proofs.Http.Route
import RecordService.Proofs.Http.Run
import RecordService.Proofs.Json.Quoted
/-!
# What was created is read back

The answer to a creation is the record as it is shown from then on, until a request writes it with
success: whoever reads it under its key gets this very text, and whoever lists all records finds it
once among the others.
-/

namespace RecordService.Http

open Entries Store

/-! ## Shown records -/

namespace Response

variable {s : Settings} {m : Memory}

theorem shown_eq_map (r : Record) :
    ∃ rest, shown s r = .map ((r.key.name, .string r.key.value) :: rest) := by
  unfold shown Record.project Record.toValue
  split
  · exact ⟨_, rfl⟩
  · exact ⟨_, rfl⟩

/-- Two records that look the same have the same key. -/
theorem key_of_shown {r q : Record} (hname : r.key.name = q.key.name)
    (h : (shown s r).text = (shown s q).text) : r.key.value = q.key.value := by
  obtain ⟨rest, hr⟩ := shown_eq_map (s := s) r
  obtain ⟨rest', hq⟩ := shown_eq_map (s := s) q
  rw [hr, hq, hname] at h
  exact Value.text_key h

/-- No two records of a store look the same. -/
theorem nodup_shown (h : (names m.records).Nodup) :
    ((m.toList.map (shown s)).map Value.text).Nodup := by
  rw [List.map_map, Memory.toList, List.map_map]
  refine List.Nodup.map_on ?_ (List.Nodup.of_map _ h)
  intro d hd e he htext
  have hkey : d.1 = e.1 := key_of_shown (r := m.record d) (q := m.record e) rfl htext
  exact List.inj_on_of_nodup_map h hd he hkey

end Response

/-! ## Requests -/

section Requests
variable {s : Settings} {m : Memory} {a : Arrival}

/-- A creation makes the record of its body, stamps it, and both stores and shows it. -/
theorem Arrival.served_create (hmethod : a.request.method = "POST")
    (hpath : (Target.ofText a.request.target).path = Target.ascii "/records")
    (hstatus : (a.served s m).response.status = 200) :
    ∃ body record, a.request.value = .ok body ∧
      Record.ofBody s.keyAttribute body = .ok record ∧
      a.request.writtenKey? s = some record.key.value ∧
      (a.served s m).response = .json 200 (Response.shown s (Plan.stamped s a.now record)) ∧
      find? record.key.value (a.served s m).store.records
        = some (Plan.stamped s a.now record).attributes := by
  have hroute : a.request.route? = some .records := by
    rw [Request.route?, hpath, Route.ofPath?_records]
  obtain ⟨c, hasks⟩ := Request.IsForRecords.asks (.inl hroute) hstatus
  obtain ⟨body, record, hbody, hrecord, hk, rfl⟩ := hasks.exists_create hmethod
  refine ⟨body, record, hbody, hrecord, hk, ?_⟩
  rw [served, serveMemory, serve_command hasks, hmethod]
  refine ⟨rfl, ?_⟩
  rw [Memory.find?_run, Command.entry_create, Plan.stamped_key, if_pos rfl]

/-- A creation is answered with the record as it is shown, and stores it under its key. -/
theorem Arrival.served_post (hmethod : a.request.method = "POST")
    (hpath : (Target.ofText a.request.target).path = Target.ascii "/records")
    (hstatus : (a.served s m).response.status = 200) :
    ∃ r : Record, r.key.name = s.keyAttribute ∧ r.key.value ≠ "" ∧
      a.request.writtenKey? s = some r.key.value ∧
      (a.served s m).response = .json 200 (Response.shown s r) ∧
      find? r.key.value (a.served s m).store.records = some r.attributes := by
  obtain ⟨body, record, -, hrecord, hk, hresponse, hfind⟩ := served_create hmethod hpath hstatus
  have hkey : (Plan.stamped s a.now record).key = record.key := Plan.stamped_key record
  obtain ⟨members, k, -, -, -, hne, rfl⟩ := Record.ofBody_ok hrecord
  exact ⟨_, congrArg Key.name hkey, by rwa [hkey], by rwa [hkey], hresponse, by rwa [hkey]⟩

/-- Whoever reads a record under its key is shown it. -/
theorem Arrival.served_get {r : Record} (hm : m.keyAttribute = s.keyAttribute)
    (hname : r.key.name = s.keyAttribute) (hk : r.key.value ≠ "")
    (hfind : find? r.key.value m.records = some r.attributes) (hmethod : a.request.method = "GET")
    (htarget : Target.Addresses r.key.value a.request.target) :
    (a.served s m).response = .json 200 (Response.shown s r) := by
  obtain ⟨octets, hroute, hkey⟩ := htarget.route hk
  have hread : Route.isReading a.request.method = true := by rw [hmethod]; rfl
  rw [served, serveMemory, serve_command (.get hroute hread hkey), Memory.run_get, hfind, hm,
    hmethod, ← hname]
  rfl

/-- Whoever lists records is shown those that the filter keeps. -/
theorem Arrival.served_scan {filter : Option Expression.Filter} (hmethod : a.request.method = "GET")
    (hroute : a.request.route? = some .records)
    (hplan : Plan.filter s a.request.parameters = .ok filter) : (a.served s m).response
      = .json 200 (.list ((m.matching filter).map (Response.shown s))) := by
  have hread : Route.isReading a.request.method = true := by rw [hmethod]; rfl
  rw [served, serveMemory, serve_command (.scan hroute hread hplan), hmethod]
  rfl

/-- Whoever lists all records is shown each of them. -/
theorem Arrival.served_list (hfilter : s.defaultFilter = none) (hmethod : a.request.method = "GET")
    (hpath : (Target.ofText a.request.target).path = Target.ascii "/records")
    (hquery : a.request.parameters = []) :
    (a.served s m).response = .json 200 (.list (m.toList.map (Response.shown s))) := by
  have hroute : a.request.route? = some .records := by
    rw [Request.route?, hpath, Route.ofPath?_records]
  have hplan : Plan.filter s a.request.parameters = .ok none := by
    rw [hquery, Plan.filter, hfilter]
  exact served_scan hmethod hroute hplan

end Requests

/-- The key of a record that was created is not empty. Until a request writes this record with
success, whoever reads the path of its key, each octet of it an escape, gets the very answer that
the creation got; and whoever lists all records finds the same object once. -/
theorem created_reads_back {s : Settings} {records : Entries Attributes}
    (hkeys : (names records).Nodup) {created : Arrival} (hmethod : created.request.method = "POST")
    (hpath : (Target.ofText created.request.target).path = Target.ascii "/records")
    (hstatus : (created.served s ⟨s.keyAttribute, records⟩).response.status = 200) :
    let first := created.served s ⟨s.keyAttribute, records⟩
    ∃ k object, k ≠ "" ∧ created.request.writtenKey? s = some k ∧
      first.response = .json 200 object ∧ (∃ target, Target.Addresses k target) ∧
      ∀ later, Never s (Arrival.Writes s k) first.store later →
        let m := reached s first.store later
        (∀ a : Arrival, a.request.method = "GET" → Target.Addresses k a.request.target →
          (a.served s m).response = first.response) ∧
        (s.defaultFilter = none → ∀ a : Arrival, a.request.method = "GET" →
          (Target.ofText a.request.target).path = Target.ascii "/records" →
          a.request.parameters = [] →
          ∃ objects, (a.served s m).response = .json 200 (.list objects) ∧ object ∈ objects ∧
            (objects.map Value.text).count object.text = 1) := by
  intro first
  obtain ⟨r, hname, hne, hk, hresponse, hfind⟩ := Arrival.served_post hmethod hpath hstatus
  refine ⟨r.key.value, Response.shown s r, hne, hk, hresponse, Target.exists_addresses _, ?_⟩
  intro later hnever m
  have hm : m = (Memory.mk s.keyAttribute records).after
      ((created :: later).filterMap (Arrival.command? s)) := reached_eq_after _ (created :: later)
  have hattribute : m.keyAttribute = s.keyAttribute := by rw [hm, Memory.keyAttribute_after]
  have hnodup : (names m.records).Nodup := hm ▸ Memory.nodup_after hkeys _
  have hkept : find? r.key.value m.records = some r.attributes := (find?_reached hnever).trans hfind
  constructor
  · intro a hget htarget
    rw [Arrival.served_get hattribute hname hne hkept hget htarget]
    exact hresponse.symm
  · intro hfilter a hget hlist hquery
    have hmem : Response.shown s r ∈ m.toList.map (Response.shown s) := by
      refine List.mem_map_of_mem (List.mem_map.2 ⟨_, mem_of_find? hkept, ?_⟩)
      rw [Memory.record, hattribute, ← hname]
    refine ⟨_, Arrival.served_list hfilter hget hlist hquery, hmem, ?_⟩
    exact List.count_eq_one_of_mem (Response.nodup_shown hnodup) (List.mem_map_of_mem hmem)

/-- A key that needs escapes, and requests that fail on it or write another record. -/
theorem created_reads_back_escaped :
    let s := Settings.ofNames "records" "client" "pool"
    let arrival (method target body : String) : Arrival :=
      ⟨"2024-05-17T08:00:00Z", fun _ => .ok ⟨200, .null⟩,
        ⟨method, target, some "application/json", body.toUTF8.toList⟩⟩
    let created := arrival "POST" "/records" "\x7b\"n\":1,\"userId\":\"/%é\"\x7d"
    let first := created.served s (Memory.empty "userId")
    let later := [arrival "PUT" "/records/%2F%25%C3%A9" "[]", arrival "DELETE" "/records/x" "",
      arrival "POST" "/records" "\x7b\"userId\":\"%\"\x7d"]
    let m := reached s first.store later
    ((arrival "GET" "/records/%2F%25%c3%A9" "").served s m).response = first.response ∧
      ∃ object objects, first.response = .json 200 object ∧
        ((arrival "GET" "/records" "").served s m).response = .json 200 (.list objects) ∧
        (objects.map Value.text).count object.text = 1 := by
  intro s arrival created first later m
  obtain ⟨k, object, -, hk, hobject, -, h⟩ := @created_reads_back s [] .nil created rfl
    (by decide +kernel) (by decide +kernel)
  have hkey : created.request.writtenKey? s = some "/%é" := by decide +kernel
  obtain rfl : "/%é" = k := Option.some.inj (hkey.symm.trans hk)
  have hnever : Never s (Arrival.Writes s "/%é") first.store later := by decide +kernel
  obtain ⟨hget, hlist⟩ := h later hnever
  have htarget : Target.Addresses "/%é" "/records/%2F%25%c3%A9" :=
    ⟨Target.ascii "%2F%25%c3%A9",
      .cons rfl rfl (.cons rfl rfl (.cons rfl rfl (.cons rfl rfl .nil))), by decide +kernel⟩
  obtain ⟨objects, hobjects, -, hcount⟩ := hlist rfl (arrival "GET" "/records" "") rfl
    (by decide +kernel) (by decide +kernel)
  exact ⟨hget (arrival "GET" "/records/%2F%25%c3%A9" "") rfl htarget,
    object, objects, hobject, hobjects, hcount⟩

end RecordService.Http
