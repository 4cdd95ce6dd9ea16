import RecordService.Proofs.Http.Relay
import RecordService.Proofs.Http.Run
import RecordService.Proofs.Json.Prefix
/-!
# Malformed bodies

A request to write a record is refused before the store is asked, if its body does not begin with a
JSON object by the grammar. No more can be said of malformed bodies: one that begins with an object
is taken for it, and what follows the object is not looked at (`serve_append`).
-/

namespace RecordService.Http

open Store
open Identity (Provider)

variable {s : Settings} {now : String} {r : Request}

namespace Request

/-- The request is one to create or to update a record. -/
def IsForWriting (r : Request) : Prop :=
  (r.method = "POST" ∧ r.route? = some .records) ∨
    (r.method = "PUT" ∧ ∃ octets, r.route? = some (.record octets))

/-- A request that is for a command to write a record has an object as its body. -/
theorem Asks.exists_map {c : Command} (h : r.Asks s now c) (hwriting : r.IsForWriting) :
    ∃ ms, r.value = .ok (.map ms) := by
  rcases hwriting with ⟨hmethod, -⟩ | ⟨hmethod, -⟩
  · obtain ⟨body, record, hbody, hrecord, -, -⟩ := h.exists_create hmethod
    obtain ⟨ms, k, rfl, -⟩ := Record.ofBody_ok hrecord
    exact ⟨ms, hbody⟩
  · obtain ⟨octets, k, body, attributes, u, -, -, hbody, hattributes, -, -⟩ :=
      h.exists_update hmethod
    obtain ⟨rfl, -⟩ := Attributes.ofBody_ok hattributes
    exact ⟨attributes, hbody⟩

/-- A body that is read as an object begins with one. -/
theorem begins_of_value {ms : Entries Value} (h : r.value = .ok (.map ms)) :
    ∃ object more, r.body = object ++ more ∧ Json.IsObject object := by
  obtain ⟨-, -, hread⟩ := value_ok_iff.1 h
  obtain ⟨tree, object, more, hbody, hwritten, hvalue⟩ := Json.readFirst_written hread
  obtain ⟨members, rfl⟩ := Json.Tree.map_of_value? hvalue
  exact ⟨object, more, hbody, members, hwritten⟩

theorem value_append {ms : Entries Value} (h : r.value = .ok (.map ms)) {more : List UInt8}
    (hlength : (r.body ++ more).length ≤ bodyLimit) :
    ({ r with body := r.body ++ more } : Request).value = .ok (.map ms) := by
  obtain ⟨hkind, -, hread⟩ := value_ok_iff.1 h
  exact value_ok_iff.2 ⟨hkind, hlength, Json.readFirst_append hread more⟩

end Request

/-- A request to create or to update a record is refused with 400, over any store and with any
settings, and the store stays as it was, if no beginning of its body is a well-formed object. -/
theorem malformed_refused (s : Settings) (now : String) (provider : Provider) (m : Memory)
    (r : Request) (hwriting : r.IsForWriting)
    (hbody : ∀ object more, r.body = object ++ more → ¬Json.IsObject object) :
    (serveMemory s now provider m r).response.status = 400 ∧
      (serveMemory s now provider m r).store = m := by
  have hnone : ∀ c, ¬r.Asks s now c := by
    intro c hc
    obtain ⟨ms, hvalue⟩ := hc.exists_map hwriting
    obtain ⟨object, more, hsplit, hobject⟩ := Request.begins_of_value hvalue
    exact hbody object more hsplit hobject
  refine ⟨?_, serve_idle hnone⟩
  rcases hwriting with ⟨hmethod, hroute⟩ | ⟨hmethod, octets, hroute⟩
  · rw [serveMemory, serve_refused hroute (.inl rfl) hnone, hmethod]
    rfl
  · rw [serveMemory, serve_refused hroute (.inr ⟨octets, rfl⟩) hnone, hmethod]
    rfl

/-- An object that is not closed. -/
theorem malformed_refused_unclosed :
    let s := Settings.ofNames "records" "client" "pool"
    let m : Memory := ⟨"userId", [("a", [])]⟩
    let r : Request :=
      ⟨"PUT", "/records/a", some "application/json", "\x7b\"n\":[1,\"\\u00e9\"]".toUTF8.toList⟩
    (serveMemory s "" (fun _ => .ok ⟨200, .null⟩) m r).response.status = 400 ∧
      (serveMemory s "" (fun _ => .ok ⟨200, .null⟩) m r).store = m := by
  intro s m r
  have hopen : (0x7D : UInt8) ∉ r.body := by decide +kernel
  refine malformed_refused s "" _ m r (.inr ⟨rfl, [0x61], by decide +kernel⟩) ?_
  rintro object more hsplit hobject
  exact hopen (by rw [hsplit]; exact List.mem_append_left _ hobject.mem)

/-- Whatever follows the object in a body, a request to create or to update a record comes to the
same over any store, as long as the body is not too long. -/
theorem serve_append {σ : Type} {provider : Provider} {run : Command → Outcome × σ} {idle : σ}
    (hwriting : r.IsForWriting) {ms : Entries Value} (hvalue : r.value = .ok (.map ms))
    {more : List UInt8} (hlength : (r.body ++ more).length ≤ bodyLimit) :
    serve s now provider run idle { r with body := r.body ++ more }
      = serve s now provider run idle r := by
  have hsame := (Request.value_append hvalue hlength).trans hvalue.symm
  have hcreate : Plan.ofAction s now { r with body := r.body ++ more } .create
      = Plan.ofAction s now r .create := by
    simp only [Plan.ofAction, Plan.create, hsame]
  have hupdate (octets : List UInt8) :
      Plan.ofAction s now { r with body := r.body ++ more } (.update octets)
        = Plan.ofAction s now r (.update octets) := by
    simp only [Plan.ofAction, Plan.update, hsame]
  rcases hwriting with ⟨hmethod, hroute⟩ | ⟨hmethod, octets, hroute⟩
  · have haction : Route.records.action? r.method = some .create := by
      rw [hmethod]
      rfl
    rw [Request.route?] at hroute
    simp only [serve, hroute, haction, hcreate]
  · have haction : (Route.record octets).action? r.method = some (.update octets) := by
      rw [hmethod]
      rfl
    rw [Request.route?] at hroute
    simp only [serve, hroute, haction, hupdate]

/-- What follows the object in the body is no JSON, and yet the record is created. -/
theorem trailing_text_passed :
    let s := Settings.ofNames "records" "client" "pool"
    let m := Memory.empty "userId"
    let r : Request :=
      ⟨"POST", "/records", some "application/json", "\x7b\"userId\":\"a\"\x7d x".toUTF8.toList⟩
    let served := serveMemory s "" (fun _ => .ok ⟨200, .null⟩) m r
    r.IsForWriting ∧ r.contentType.any MediaType.isJson = true ∧ r.body.length ≤ bodyLimit ∧
      ¬Json.IsText r.body ∧ served.response.status = 200 ∧
      Entries.names served.store.records = ["a"] := by
  intro s m r served
  refine ⟨.inl ⟨rfl, by decide +kernel⟩, by decide +kernel, by decide +kernel, ?_,
    by decide +kernel, by decide +kernel⟩
  rintro ⟨tree, hwritten⟩
  have hlast : r.body.getLast? = some 0x78 := by decide +kernel
  rcases hwritten.getLast hlast with hblank | hdigit | hmark | hmem
  · exact absurd hblank (by decide)
  · exact absurd hdigit (by decide)
  · exact absurd hmark (by decide)
  · exact absurd hmem (by decide)

end RecordService.Http
