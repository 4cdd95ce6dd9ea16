import RecordService.Proofs.Http.Command
import RecordService.Proofs.Http.Sound
/-!
# What a request leaves alone

A request that is refused, that fails or that only reads leaves the store as it was. Any other names
one record, and leaves all the others as they were. This is true of all settings and of all stores,
and takes no more than which command a request is for.
-/

namespace RecordService.Http

open Entries Store
open Identity (Provider)

namespace Request

variable {s : Settings} {now : String} {r : Request} {c : Command}

/-- The text under the key attribute, if the body is an object that has one. -/
def bodyKey? (s : Settings) (r : Request) : Option String :=
  match r.value with
  | .ok (.map members) => (find? s.keyAttribute members).bind Value.string?
  | _ => none

/-- The key of the record that a request would change: `POST` has it in the body, `PUT` and `DELETE`
have it in the path. -/
def writtenKey? (s : Settings) (r : Request) : Option String :=
  match r.route? with
  | some .records => if r.method = "POST" then r.bodyKey? s else none
  | some (.record octets) =>
    if r.method = "PUT" ∨ r.method = "DELETE" then Plan.keyText? octets else none
  | _ => none

theorem bodyKey?_of_ofBody {body : Value} {record : Record} (hbody : r.value = .ok body)
    (hrecord : Record.ofBody s.keyAttribute body = .ok record) :
    r.bodyKey? s = some record.key.value := by
  obtain ⟨members, k, rfl, -, hk, -, rfl⟩ := Record.ofBody_ok hrecord
  simp [bodyKey?, hbody, hk, Value.string?]

/-- A request that does not only read is for a command about the record it names. -/
theorem Asks.writtenKey? (h : r.Asks s now c) (hread : Route.isReading r.method = false) :
    ∃ k, r.writtenKey? s = some k ∧ c.subject? = some k := by
  cases h with
  | scan _ hmethod => rw [hmethod] at hread; cases hread
  | get _ hmethod => rw [hmethod] at hread; cases hread
  | @create body record hroute hmethod hbody hrecord =>
    refine ⟨record.key.value, ?_, ?_⟩
    · simp [Request.writtenKey?, hroute, hmethod, bodyKey?_of_ofBody hbody hrecord]
    · simp [Command.subject?, Command.key?, Plan.stamped_key]
  | @update octets k body attributes u hroute hmethod hk _ _ hu =>
    obtain ⟨rfl, -⟩ := Expression.Update.compile_ok hu
    exact ⟨k, by simp [Request.writtenKey?, hroute, hmethod, hk], rfl⟩
  | @delete octets k hroute hmethod hk =>
    exact ⟨k, by simp [Request.writtenKey?, hroute, hmethod, hk], rfl⟩

/-- A request that only reads is for a command that changes nothing. -/
theorem Asks.run_reading (h : r.Asks s now c) (hread : Route.isReading r.method = true)
    (m : Memory) : (m.run c).2 = m := by
  cases h with
  | scan => exact m.run_scan_store _
  | get => exact m.run_get_store _
  | create _ hmethod => rw [hmethod] at hread; cases hread
  | update _ hmethod => rw [hmethod] at hread; cases hread
  | delete _ hmethod => rw [hmethod] at hread; cases hread

theorem Asks.isForRecords (h : r.Asks s now c) : r.IsForRecords := by
  cases h with
  | scan hroute => exact .inl hroute
  | create hroute => exact .inl hroute
  | get hroute => exact .inr ⟨_, hroute⟩
  | update hroute => exact .inr ⟨_, hroute⟩
  | delete hroute => exact .inr ⟨_, hroute⟩

end Request

/-! ## What changes the store -/

section Memory
variable {s : Settings} {now : String} {provider : Provider} {m : Memory} {r : Request}

theorem Response.status_ofOutcome {c : Command} {outcome : Outcome} :
    (ofOutcome s c outcome).status = 200 ↔ ∃ answer, outcome = .ok answer := by
  cases outcome with
  | ok answer => simp [ofOutcome, json]
  | error e => simpa [ofOutcome] using Plan.status_ofError (.store e)

/-- A request that changes the store is for a command that went well. -/
theorem asks_of_changed (h : (serveMemory s now provider m r).store ≠ m) :
    ∃ c answer, r.Asks s now c ∧ (m.run c).1 = .ok answer ∧
      serveMemory s now provider m r
        = ⟨(Response.ofOutcome s c (.ok answer)).forMethod r.method, [], (m.run c).2⟩ := by
  have hasks : ∃ c, r.Asks s now c := by
    by_contra hnone
    exact h (serve_idle fun c hc => hnone ⟨c, hc⟩)
  obtain ⟨c, hc⟩ := hasks
  have hserve : serveMemory s now provider m r = _ := serve_command hc
  cases houtcome : (m.run c).1 with
  | ok answer => exact ⟨c, answer, hc, houtcome, by rw [hserve, houtcome]⟩
  | error e =>
    refine absurd ?_ h
    rw [hserve]
    exact Memory.run_error houtcome

theorem status_of_changed (h : (serveMemory s now provider m r).store ≠ m) :
    (serveMemory s now provider m r).response.status = 200 := by
  obtain ⟨c, answer, -, -, hserve⟩ := asks_of_changed h
  rw [hserve, Response.status_forMethod, Response.status_ofOutcome]
  exact ⟨answer, rfl⟩

theorem not_reading_of_changed (h : (serveMemory s now provider m r).store ≠ m) :
    Route.isReading r.method = false := by
  obtain ⟨c, answer, hc, -, hserve⟩ := asks_of_changed h
  rw [hserve] at h
  by_contra hread
  exact h (hc.run_reading (by simpa using hread) m)

/-- A request that changes the store names the record it changes. -/
theorem writtenKey?_of_changed (h : (serveMemory s now provider m r).store ≠ m) :
    ∃ k, r.writtenKey? s = some k ∧
      (serveMemory s now provider m r).store.keyAttribute = m.keyAttribute ∧
      erase k (serveMemory s now provider m r).store.records = erase k m.records := by
  obtain ⟨c, answer, hc, -, hserve⟩ := asks_of_changed h
  obtain ⟨k, hk, hsubject⟩ := hc.writtenKey? (not_reading_of_changed h)
  rw [hserve]
  exact ⟨k, hk, m.keyAttribute_run c, Memory.erase_run hsubject m⟩

end Memory

/-- A request leaves the store as it was if it is not answered with 200, if it only reads, and if it
is not for records. If the store does change, the request names the one record that does: all others
keep their attributes, and are in the same order. -/
theorem failed_request_changes_nothing (s : Settings) (now : String) (provider : Provider)
    (m : Memory) (r : Request) :
    let served := serveMemory s now provider m r
    (served.response.status ≠ 200 ∨ r.method = "GET" ∨ r.method = "HEAD" ∨ ¬r.IsForRecords →
      served.store = m) ∧
    (served.store ≠ m → ∃ k, r.writtenKey? s = some k ∧
      served.store.keyAttribute = m.keyAttribute ∧
      (∀ other, other ≠ k → find? other served.store.records = find? other m.records) ∧
      erase k served.store.records = erase k m.records) := by
  intro served
  constructor
  · intro h
    by_contra hchanged
    rcases h with hstatus | hget | hhead | hpath
    · exact hstatus (status_of_changed hchanged)
    · have hread := not_reading_of_changed hchanged
      rw [hget] at hread
      cases hread
    · have hread := not_reading_of_changed hchanged
      rw [hhead] at hread
      cases hread
    · obtain ⟨c, answer, hc, -⟩ := asks_of_changed hchanged
      exact hpath hc.isForRecords
  · intro hchanged
    obtain ⟨k, hk, hattribute, herase⟩ := writtenKey?_of_changed hchanged
    exact ⟨k, hk, hattribute, fun other hne => find?_of_erase_eq herase hne.symm, herase⟩

/-- A record that is not there is not updated; one of three is deleted. -/
theorem failed_request_changes_nothing_deletion :
    let s := Settings.ofNames "records" "client" "pool"
    let provider : Provider := fun _ => .ok ⟨200, .null⟩
    let m : Memory := ⟨"userId", [("a", [("n", .null)]), ("b/c", []), ("d", [])]⟩
    let update : Request := ⟨"PUT", "/records/x", some "application/json",
      "\x7b\"n\":1\x7d".toUTF8.toList⟩
    let delete : Request := ⟨"DELETE", "/records/b%2Fc", none, []⟩
    (serveMemory s "" provider m update).store = m ∧
      (serveMemory s "" provider m delete).store ≠ m ∧
      erase "b/c" (serveMemory s "" provider m delete).store.records
        = [("a", [("n", .null)]), ("d", [])] := by
  intro s provider m update delete
  have hchanged : (serveMemory s "" provider m delete).store ≠ m := by
    intro h
    have hnames : names (serveMemory s "" provider m delete).store.records ≠ names m.records := by
      decide +kernel
    exact hnames (by rw [h])
  refine ⟨?_, hchanged, ?_⟩
  · have hstatus : (serveMemory s "" provider m update).response.status ≠ 200 := by decide +kernel
    exact (failed_request_changes_nothing s "" provider m update).1 (.inl hstatus)
  · obtain ⟨k, hk, -, -, herase⟩ :=
      (failed_request_changes_nothing s "" provider m delete).2 hchanged
    have hkey : delete.writtenKey? s = some "b/c" := by decide +kernel
    obtain rfl : "b/c" = k := Option.some.inj (hkey.symm.trans hk)
    exact herase

end RecordService.Http
