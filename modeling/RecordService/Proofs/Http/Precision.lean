import RecordService.Proofs.Http.Malformed
import RecordService.Proofs.Http.ReadBack
import RecordService.Proofs.Json.Places
/-!
# The precision of numbers

The numbers in the body of a creation are shown as the integers and doubles that they are read as.
So what is written of a number denotes what the client sent only up to the double that was made of
it: exactly for an integer that a word can hold and for a number of few digits and a small exponent,
but an integer of many digits comes back as another one.
-/

namespace RecordService

/-- An attribute of this name is shown as it was sent. -/
def Settings.Shows (s : Settings) (name : String) : Prop :=
  (s.projection = [] ∨ name ∈ s.projection) ∧ s.createdAt ≠ some name

namespace Http

open Entries Store
open Json (Literal Place literalAt?)
open Text.Utf8 (encode)

variable {s : Settings} {name : String}

/-! ## What is shown of a body -/

theorem Plan.find?_stamped (now : String) (r : Record) (h : s.createdAt ≠ some name) :
    find? name (stamped s now r).attributes = find? name r.attributes := by
  unfold stamped
  split
  · next other hother =>
    rw [find?_put, if_neg]
    rintro rfl
    exact h hother
  · rfl

namespace Response

theorem shown_eq (s : Settings) (r : Record) : shown s r
    = .map ((r.key.name, .string r.key.value) :: (r.project s.projection).attributes) := by
  unfold shown Record.project Record.toValue
  split <;> rfl

theorem find?_project {r : Record} (h : s.projection = [] ∨ name ∈ s.projection) :
    find? name (r.project s.projection).attributes = find? name r.attributes := by
  unfold Record.project
  split
  · rfl
  · next hsome =>
    have hmem : name ∈ s.projection := h.resolve_left (by simpa using hsome)
    exact find?_filter (p := s.projection.contains) (by simpa using hmem) r.attributes

/-- A number in an attribute of the body is shown in the attribute. -/
theorem shown_at? {now : String} {body : Value} {record : Record}
    (hrecord : Record.ofBody s.keyAttribute body = .ok record) (hname : s.Shows name)
    {places : List Place} {n : Number}
    (h : body.at? (.member name :: places) = some (.number n)) :
    (shown s (Plan.stamped s now record)).at? (.member name :: places) = some (.number n) := by
  obtain ⟨members, k, rfl, -, hk, -, rfl⟩ := Record.ofBody_ok hrecord
  obtain ⟨v, hv, h⟩ := Option.bind_eq_some_iff.1 h
  rw [Value.child?] at hv
  -- The key is a text, so that no number stands in it.
  have hkey : s.keyAttribute ≠ name := by
    rintro rfl
    cases hk.symm.trans hv
    cases places <;> cases h
  refine Option.bind_eq_some_iff.2 ⟨v, ?_, h⟩
  rw [shown_eq, Value.child?, find?, Plan.stamped_key, if_neg hkey, find?_project hname.1,
    Plan.find?_stamped now _ hname.2, find?_erase, if_neg hkey, hv]

end Response

/-- What the created record is shown as repeats no name. -/
theorem Plan.shown_distinct (hs : s.validate = .ok ()) {r : Request} {body : Value}
    {record : Record} (hbody : r.value = .ok body)
    (hrecord : Record.ofBody s.keyAttribute body = .ok record) (now : String) :
    (Response.shown s (stamped s now record)).Distinct := by
  have hcreate : create s now r = .ok (.create (stamped s now record)) :=
    bind_eq_ok.2 ⟨body, hbody, bind_eq_ok.2 ⟨record, hrecord, rfl⟩⟩
  obtain ⟨hsound, hkey⟩ := create_fits (problem?_of_validate hs) hcreate
  exact (Response.shown_sound (hkey _ rfl) hsound.2).distinct

/-- Until a request writes the created record with success, whoever reads it gets the very answer
that the creation got. In the place of each number that was sent in a shown attribute, at any depth,
this answer has a literal to which the number that was read is the nearest one. It denotes what was
sent if that is an integer that a word can hold, or is written with no more than 15 digits of which
the last one has an exponent between -22 and 22. -/
theorem numbers_shown {s : Settings} (hs : s.validate = .ok ()) {records : Entries Attributes}
    {created : Arrival} (hmethod : created.request.method = "POST")
    (hpath : (Target.ofText created.request.target).path = Target.ascii "/records")
    (hstatus : (created.served s ⟨s.keyAttribute, records⟩).response.status = 200) :
    let first := created.served s ⟨s.keyAttribute, records⟩
    ∃ k, created.request.writtenKey? s = some k ∧
      (∀ later, Never s (Arrival.Writes s k) first.store later → ∀ a : Arrival,
        a.request.method = "GET" → Target.Addresses k a.request.target →
        (a.served s (reached s first.store later)).response = first.response) ∧
      ∀ name places l, s.Shows name →
        literalAt? created.request.body (.member name :: places) = some l →
        ∃ written n, l.number? = some n ∧ written.nearest? = some n ∧
          literalAt? (encode first.response.body.toList) (.member name :: places) = some written ∧
          (l.IsWord ∨ l.IsShort → written.toRat = l.toRat) := by
  intro first
  obtain ⟨body, record, hbody, hrecord, hk, hresponse, hfind⟩ :=
    Arrival.served_create hmethod hpath hstatus
  refine ⟨record.key.value, hk, fun later hnever a hget htarget => ?_,
    fun name places l hname hl => ?_⟩
  · obtain ⟨r, hr, hne, hwritten, hshown, hkept⟩ := Arrival.served_post hmethod hpath hstatus
    obtain hsame : r.key.value = record.key.value := Option.some.inj (hwritten.symm.trans hk)
    rw [← hsame] at hnever htarget
    rw [hshown]
    exact Arrival.served_get (keyAttribute_reached _ (created :: later)) hr hne
      ((find?_reached hnever).trans hkept) hget htarget
  · obtain ⟨-, -, hread⟩ := Request.value_ok_iff.1 hbody
    obtain ⟨n, hn, hat⟩ := Json.readFirst_literalAt? hread hl
    have hshown := Json.literalAt?_chars (Plan.shown_distinct hs hbody hrecord created.now)
      (Response.shown_at? hrecord hname hat)
    refine ⟨.ofNumber n, n, hn, Literal.nearest?_ofNumber n, ?_,
      Literal.toRat_ofNumber (Json.wellFormed_of_literalAt? hl) hn⟩
    rw [hresponse, Response.json, Value.text, String.toList_ofList]
    exact hshown

/-- The greatest integer that a word can hold and a number of three digits, inside a list. -/
theorem numbers_shown_nested :
    let s := Settings.ofNames "records" "client" "pool"
    let arrival (method target body : String) : Arrival :=
      ⟨"2024-05-17T08:00:00Z", fun _ => .ok ⟨200, .null⟩,
        ⟨method, target, some "application/json", body.toUTF8.toList⟩⟩
    let created := arrival "POST" "/records"
      "\x7b\"a\":[\x7b\"x\":18446744073709551615\x7d,1.50e-2],\"userId\":\"k\"\x7d"
    let first := created.served s (Memory.empty "userId")
    let last := (arrival "GET" "/records/%6B" "").served s
      (reached s first.store [arrival "DELETE" "/records/x" ""])
    (∃ written, literalAt? (encode last.response.body.toList)
      [.member "a", .item 0, .member "x"] = some written ∧ written.toRat = 18446744073709551615) ∧
    ∃ written, literalAt? (encode last.response.body.toList) [.member "a", .item 1]
      = some written ∧ written.toRat = 3 / 200 := by
  intro s arrival created first last
  let word : Literal := ⟨false, "18446744073709551615".toList, none, none⟩
  let short : Literal := ⟨false, ['1'], some ['5', '0'], some (-2)⟩
  obtain ⟨hpath, hstatus, hkey, hfirst, hsecond⟩ :
      (Target.ofText created.request.target).path = Target.ascii "/records" ∧
      first.response.status = 200 ∧ created.request.writtenKey? s = some "k" ∧
      literalAt? created.request.body [.member "a", .item 0, .member "x"] = some word ∧
      literalAt? created.request.body [.member "a", .item 1] = some short := by decide +kernel
  obtain ⟨k, hk, hget, hshown⟩ := @numbers_shown s rfl [] created rfl hpath hstatus
  obtain rfl : "k" = k := Option.some.inj (hkey.symm.trans hk)
  have htarget : Target.Addresses "k" "/records/%6B" :=
    ⟨Target.ascii "%6B", .cons rfl rfl .nil, by decide +kernel⟩
  have hlast : last.response = first.response :=
    hget [arrival "DELETE" "/records/x" ""] (by decide +kernel) (arrival "GET" "/records/%6B" "")
      rfl htarget
  have hshows : s.Shows "a" := ⟨.inl rfl, nofun⟩
  have hword : word.toRat = 18446744073709551615 := by
    have hdigits : Nat.ofDigitChars 10 word.whole 0 = 18446744073709551615 := by decide +kernel
    rw [Literal.toRat_whole rfl rfl, hdigits]
    norm_num [word]
  have hshort : short.toRat = 3 / 200 := by
    have hscaled : short.parts.scaled = ⟨150, -4⟩ := by decide +kernel
    rw [Literal.toRat, hscaled, Decimal.Scaled.toRat]
    norm_num [short]
  rw [hlast]
  constructor
  · obtain ⟨written, -, -, -, hwritten, hsame⟩ :=
      hshown "a" [.item 0, .member "x"] word hshows hfirst
    refine ⟨written, hwritten, (hsame (.inl ⟨rfl, rfl, ?_⟩)).trans hword⟩
    rw [hword]
    norm_num
  · obtain ⟨written, -, -, -, hwritten, hsame⟩ :=
      hshown "a" [.item 1] short hshows hsecond
    exact ⟨written, hwritten, (hsame (.inr (by decide +kernel))).trans hshort⟩

/-- An integer of thirty digits is shown as another one. -/
theorem long_integer_changed :
    let s := Settings.ofNames "records" "client" "pool"
    let created : Arrival := ⟨"2024-05-17T08:00:00Z", fun _ => .ok ⟨200, .null⟩,
      ⟨"POST", "/records", some "application/json",
        "\x7b\"userId\":\"k\",\"n\":123456789012345678901234567890\x7d".toUTF8.toList⟩⟩
    let first := created.served s (Memory.empty "userId")
    first.response.status = 200 ∧ ∃ sent written : Literal,
      literalAt? created.request.body [.member "n"] = some sent ∧
      literalAt? (encode first.response.body.toList) [.member "n"] = some written ∧
      sent.toRat = 123456789012345678901234567890 ∧
      written.toRat = 123456789012345680000000000000 := by
  intro s created first
  let sent : Literal := ⟨false, "123456789012345678901234567890".toList, none, none⟩
  let written : Literal := ⟨false, ['1'], some "2345678901234568".toList, some 29⟩
  obtain ⟨hstatus, hsent, hwritten⟩ : first.response.status = 200 ∧
      literalAt? created.request.body [.member "n"] = some sent ∧
      literalAt? (encode first.response.body.toList) [.member "n"] = some written := by
    decide +kernel
  refine ⟨hstatus, sent, written, hsent, hwritten, ?_, ?_⟩
  · have hdigits : Nat.ofDigitChars 10 sent.whole 0 = 123456789012345678901234567890 := by
      decide +kernel
    rw [Literal.toRat_whole rfl rfl, hdigits]
    norm_num [sent]
  · have hscaled : written.parts.scaled = ⟨12345678901234568, 13⟩ := by decide +kernel
    rw [Literal.toRat, hscaled, Decimal.Scaled.toRat]
    norm_num [written]

end Http

end RecordService
