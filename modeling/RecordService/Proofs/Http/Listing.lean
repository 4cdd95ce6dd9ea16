import RecordService.Proofs.Http.ReadBack
import RecordService.Proofs.Value.Equality
/-!
# Filtered listings

A listing shows the projection of the records that it keeps, in the order of the store, and it keeps
a record by the whole object that the record is: the one member of the wanted name is the wanted
text. What the projection leaves out is looked at all the same.
-/

namespace RecordService

open Entries

/-! ## What a filter keeps -/

/-- Some member of the object that the record is has this name and is this text. -/
def Record.hasText (name text : String) (r : Record) : Bool :=
  r.members.any fun e => e.1 == name && e.2 == .string text

theorem Record.hasText_iff {name text : String} {r : Record} :
    r.hasText name text = true ↔ (name, .string text) ∈ r.members := by
  simp only [hasText, List.any_eq_true, Bool.and_eq_true, beq_iff_eq, Value.beq_string_iff]
  constructor
  · rintro ⟨e, he, rfl, htext⟩
    rwa [← htext]
  · intro h
    exact ⟨_, h, rfl, rfl⟩

/-- In an object without a repeated name, this is the member of that name. -/
theorem Record.hasText_iff_find? {name text : String} {r : Record}
    (h : (names r.members).Nodup) :
    r.hasText name text = true ↔ find? name r.members = some (.string text) :=
  hasText_iff.trans ⟨find?_of_mem h, mem_of_find?⟩

/-- A filter keeps the records that have its text. -/
theorem Expression.Filter.accepts_eq {name : String} {value : Option String} {f : Filter}
    (hf : Filter.ofParameter name value = .ok f) {r : Record} (h : (names r.members).Nodup) :
    f.accepts r = r.hasText name (value.getD "") := by
  obtain ⟨-, rfl⟩ := ofParameter_ok_iff.1 hf
  rw [Bool.eq_iff_iff, Record.hasText_iff_find? h, Filter.accepts, Record.get?_eq]
  cases hfind : find? name r.members with
  | none => simp
  | some v => simpa using Value.beq_string_iff

namespace Http

open Store

variable {s : Settings}

/-- In a store that was reached, no object of a record repeats a name. -/
theorem nodup_members_reached (hs : s.validate = .ok ()) (before : List Arrival) :
    ∀ r ∈ (reached s (Memory.empty s.keyAttribute) before).toList, (names r.members).Nodup := by
  intro r hr
  obtain ⟨e, he, rfl⟩ := List.mem_map.1 hr
  obtain ⟨hm, -⟩ :=
    reached_sound (problem?_of_validate hs) (Memory.sound_empty s.keyAttribute) rfl before
  exact Record.nodup_members (hm.attributes e he).toWellNamed

/-- A listing with a filter shows the records that have its text. -/
theorem Arrival.served_filter {m : Memory} (hm : ∀ r ∈ m.toList, (names r.members).Nodup)
    {a : Arrival} {name text : String} {value : Option String} (hname : name ≠ "")
    (htext : value.getD "" = text) (hmethod : a.request.method = "GET")
    (hroute : a.request.route? = some .records)
    (hplan : Plan.filter s a.request.parameters
      = (Expression.Filter.ofParameter name value).map some) :
    (a.served s m).response = .json 200 (.list
      ((m.toList.filter (Record.hasText name text)).map (Response.shown s))) := by
  obtain ⟨f, hf⟩ : ∃ f, Expression.Filter.ofParameter name value = .ok f :=
    ⟨_, Expression.Filter.ofParameter_ok_iff.2 ⟨hname, rfl⟩⟩
  rw [hf] at hplan
  have hmatching : m.matching (some f) = m.toList.filter (Record.hasText name text) :=
    htext ▸ List.filter_congr fun r hr => Expression.Filter.accepts_eq hf (hm r hr)
  rw [Arrival.served_scan hmethod hroute hplan, hmatching]

/-- With settings that were accepted, in a store that was reached from the empty one: a listing for
one pair of a name and a value shows the projections of the records that have this text under this
name, in the order of the store; the default name without a pair is this name with the empty text;
and without either, all records are shown. -/
theorem listing_exact (hs : s.validate = .ok ()) (before : List Arrival) :
    let m := reached s (Memory.empty s.keyAttribute) before
    (∀ name value, name ≠ "" → (∃ target, Target.Filters name value target) ∧
      ∀ a : Arrival, a.request.method = "GET" → Target.Filters name value a.request.target →
        (a.served s m).response = .json 200 (.list
          ((m.toList.filter (Record.hasText name value)).map (Response.shown s)))) ∧
    (∀ r ∈ m.toList, r.toValue = .map r.members ∧ ∀ name value,
      r.hasText name value = true ↔ find? name r.members = some (.string value)) ∧
    ∀ a : Arrival, a.request.method = "GET" → a.request.route? = some .records →
      a.request.parameters = [] →
      (∀ name, s.defaultFilter = some name → ∀ b : Arrival, b.request.method = "GET" →
        Target.Filters name "" b.request.target →
        (a.served s m).response = (b.served s m).response) ∧
      (s.defaultFilter = none →
        (a.served s m).response = .json 200 (.list (m.toList.map (Response.shown s)))) := by
  intro m
  have hm := nodup_members_reached hs before
  have hpair : ∀ name value, name ≠ "" → ∀ a : Arrival, a.request.method = "GET" →
      Target.Filters name value a.request.target → (a.served s m).response = .json 200 (.list
        ((m.toList.filter (Record.hasText name value)).map (Response.shown s))) := by
    intro name value hname a hmethod htarget
    obtain ⟨hpath, hparameters⟩ := htarget.ofText
    have hroute : a.request.route? = some .records := by
      rw [Request.route?, hpath, Route.ofPath?_records]
    have hplan : Plan.filter s a.request.parameters
        = (Expression.Filter.ofParameter name (some value)).map some := by
      rw [Request.parameters, hparameters]
      rfl
    exact Arrival.served_filter hm hname rfl hmethod hroute hplan
  refine ⟨fun name value hname => ⟨Target.exists_filters name value, hpair name value hname⟩,
    fun r hr => ⟨rfl, fun name value => Record.hasText_iff_find? (hm r hr)⟩, ?_⟩
  intro a hmethod hroute hparameters
  constructor
  · intro name hdefault b hget htarget
    have hname : name ≠ "" := fun h => (accepted_settings hs).2.1 (h ▸ hdefault)
    have hplan : Plan.filter s a.request.parameters
        = (Expression.Filter.ofParameter name none).map some := by
      rw [hparameters, Plan.filter, hdefault]
    exact (Arrival.served_filter hm hname rfl hmethod hroute hplan).trans
      (hpair name "" hname b hget htarget).symm
  · intro hdefault
    have hplan : Plan.filter s a.request.parameters = .ok none := by
      rw [hparameters, Plan.filter, hdefault]
    exact Arrival.served_scan hmethod hroute hplan

/-- A text that needs escapes under a name that is not shown, in a record that shows another one;
and the default name. -/
theorem listing_exact_hidden :
    let s := { Settings.ofNames "records" "client" "pool" with
      projection := ["x"], defaultFilter := some "n" }
    let arrival (method target body : String) : Arrival :=
      ⟨"08:00", fun _ => .ok ⟨200, .null⟩,
        ⟨method, target, some "application/json", body.toUTF8.toList⟩⟩
    let m := reached s (Memory.empty "userId") [
      arrival "POST" "/records" "\x7b\"userId\":\"a\",\"n\":\"\",\"x\":1\x7d",
      arrival "POST" "/records" "\x7b\"userId\":\"b\",\"n\":1\x7d",
      arrival "POST" "/records" "\x7b\"userId\":\"c\",\"n\":\"é\",\"x\":2\x7d"]
    ((arrival "GET" "/records?%6E=%C3%a9" "").served s m).response
        = ⟨200, some "application/json", none, "[\x7b\"userId\":\"c\",\"x\":2\x7d]"⟩ ∧
      ((arrival "GET" "/records" "").served s m).response
        = ((arrival "GET" "/records?%6E=" "").served s m).response := by
  intro s arrival m
  obtain ⟨hpair, -, hplain⟩ := listing_exact (s := s) rfl [
    arrival "POST" "/records" "\x7b\"userId\":\"a\",\"n\":\"\",\"x\":1\x7d",
    arrival "POST" "/records" "\x7b\"userId\":\"b\",\"n\":1\x7d",
    arrival "POST" "/records" "\x7b\"userId\":\"c\",\"n\":\"é\",\"x\":2\x7d"]
  have hfilters : Target.Filters "n" "é" "/records?%6E=%C3%a9" :=
    ⟨Target.ascii "%6E", Target.ascii "%C3%a9", .cons rfl rfl .nil,
      .cons rfl rfl (.cons rfl rfl .nil), by decide +kernel⟩
  have hdefault : Target.Filters "n" "" "/records?%6E=" :=
    ⟨Target.ascii "%6E", [], .cons rfl rfl .nil, .nil, by decide +kernel⟩
  constructor
  · refine ((hpair "n" "é" (by decide)).2 (arrival "GET" "/records?%6E=%C3%a9" "") rfl
      hfilters).trans ?_
    decide +kernel
  · exact (hplain (arrival "GET" "/records" "") rfl (by decide +kernel) (by decide +kernel)).1 "n"
      rfl (arrival "GET" "/records?%6E=" "") rfl hdefault

end Http

end RecordService
