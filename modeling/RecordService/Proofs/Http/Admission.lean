import RecordService.Proofs.Http.Route
import RecordService.Proofs.Http.Run
import RecordService.Proofs.Json.Length
import RecordService.Proofs.Json.Texts
/-!
# Which requests are admitted

The status of a request for records, told from the settings, the request and the keys that are
stored. A request is refused for what its body or its query says before the store is asked, so a
refusal comes before a record that is not there. The settings that are accepted leave a request of
each kind that goes well, but for creations under a key attribute whose name no body can hold.
-/

namespace RecordService.Http

open Entries Expression Store

variable {s : Settings}

/-! ## Bodies -/

/-- A record can be created from the value: it is an object without an empty name that has the key
attribute as a text, and this is not empty. -/
def Creatable (keyName : String) (v : Value) : Prop :=
  ∃ members k, v = .map members ∧ "" ∉ names members ∧ (keyName, .string k) ∈ members ∧ k ≠ ""

/-- What makes a value no update of the record of `k`. -/
inductive Unsettable (s : Settings) (k : String) : Value → Prop
  | notObject {v : Value} : (∀ members, v ≠ .map members) → Unsettable s k v
  | nameless {members : Entries Value} : "" ∈ names members → Unsettable s k (.map members)
  | otherKey {members : Entries Value} {v : Value} : (s.keyAttribute, v) ∈ members →
      v ≠ .string k → Unsettable s k (.map members)
  | stamp {members : Entries Value} {name : String} : s.createdAt = some name →
      name ∈ names members → Unsettable s k (.map members)
  | nothing {members : Entries Value} : (∀ n ∈ names members, n = s.keyAttribute) →
      Unsettable s k (.map members)

theorem creatable_iff {keyName : String} {v : Value} (hv : v.Distinct) :
    Creatable keyName v ↔ ∃ record, Record.ofBody keyName v = .ok record := by
  constructor
  · rintro ⟨members, k, rfl, hnameless, hmem, hk⟩
    have hfind := find?_of_mem (Value.eachMap_map.1 hv).1 hmem
    exact ⟨_, Record.ofBody_ok_iff.2 ⟨members, k, rfl, hnameless, hfind, hk, rfl⟩⟩
  · rintro ⟨record, h⟩
    obtain ⟨members, k, rfl, hnameless, hfind, hk, -⟩ := Record.ofBody_ok h
    exact ⟨members, k, rfl, hnameless, mem_of_find? hfind, hk⟩

/-- The values that are updates are those that are compiled. -/
theorem not_unsettable_iff (hs : s.validate = .ok ()) {k : String} {v : Value} (hv : v.Distinct) :
    ¬Unsettable s k v ↔ ∃ attributes u, Attributes.ofBody v = .ok attributes ∧
      Expression.Update.compile ⟨s.keyAttribute, k⟩ s.createdAt.toList attributes = .ok u := by
  constructor
  · intro h
    obtain ⟨members, rfl⟩ : ∃ members, v = .map members := by
      by_contra hno
      exact h (.notObject fun members heq => hno ⟨members, heq⟩)
    have hnodup : (names members).Nodup := (Value.eachMap_map.1 hv).1
    have hnameless : "" ∉ names members := fun hmem => h (.nameless hmem)
    refine ⟨members, _, Attributes.ofBody_ok_iff.2 ⟨rfl, hnameless⟩,
      Expression.Update.compile_ok_iff.2 ⟨?_, rfl, ?_, ?_, ?_, (accepted_settings hs).1⟩⟩
    · intro v hfind
      by_contra hne
      exact h (.otherKey (mem_of_find? hfind) hne)
    · refine ⟨nodup_erase hnodup _, fun hmem => ?_, fun hmem => ?_⟩
      · exact hnameless (mem_names_erase.1 hmem).1
      · exact (mem_names_erase.1 hmem).2 rfl
    · intro hnil
      refine h (.nothing fun n hn => ?_)
      by_contra hne
      have hmem := mem_names_erase.2 ⟨hn, hne⟩
      rw [hnil] at hmem
      cases hmem
    · intro n hn hreadOnly
      rw [Option.mem_toList] at hreadOnly
      exact h (.stamp hreadOnly (mem_names_erase.1 hn).1)
  · rintro ⟨attributes, u, hattributes, hu⟩ hunsettable
    obtain ⟨rfl, hnameless⟩ := Attributes.ofBody_ok hattributes
    obtain ⟨hsame, -, -, hne, hreadOnly, -⟩ := Expression.Update.compile_ok_iff.1 hu
    have hnodup : (names attributes).Nodup := (Value.eachMap_map.1 hv).1
    cases hunsettable with
    | notObject h => exact h _ rfl
    | nameless h => exact hnameless h
    | otherKey hmem hother => exact hother (hsame _ (find?_of_mem hnodup hmem))
    | stamp hname hmem =>
      have hkey : ∀ n, s.createdAt = some n → n ≠ s.keyAttribute :=
        fun n hn heq => (accepted_settings hs).2.2.2 (heq ▸ hn)
      exact hreadOnly _ (mem_names_erase.2 ⟨hmem, hkey _ hname⟩) (Option.mem_toList.2 hname)
    | nothing h =>
      obtain ⟨e, he⟩ := List.exists_mem_of_ne_nil _ hne
      exact (mem_erase.1 he).2 (h _ (mem_names (mem_erase.1 he).1))

/-! ## Queries -/

/-- A query asks for a listing if it has no more than one parameter, and this has a name. -/
theorem filter_ok_iff (hs : s.validate = .ok ()) (parameters : List (String × String)) :
    (∃ filter, Plan.filter s parameters = .ok filter) ↔
      ¬(1 < parameters.length ∨ parameters.map Prod.fst = [""]) := by
  match parameters with
  | [] =>
    refine iff_of_true ?_ (by simp)
    cases hdefault : s.defaultFilter with
    | none => exact ⟨none, by rw [Plan.filter, hdefault]⟩
    | some name =>
      have hname : name ≠ "" := fun h => (accepted_settings hs).2.1 (h ▸ hdefault)
      refine ⟨some ⟨name, .string "", token name⟩, ?_⟩
      rw [Plan.filter, hdefault]
      exact map_eq_ok.2 ⟨_, Filter.ofParameter_ok_iff.2 ⟨hname, rfl⟩, rfl⟩
  | [(name, value)] =>
    by_cases hname : name = ""
    · refine iff_of_false ?_ (by simp [hname])
      rintro ⟨filter, h⟩
      obtain ⟨f, hf, -⟩ := map_eq_ok.1 h
      exact (Filter.ofParameter_ok_iff.1 hf).1 hname
    · refine iff_of_true ⟨some ⟨name, .string value, token name⟩, ?_⟩ (by simp [hname])
      exact map_eq_ok.2 ⟨_, Filter.ofParameter_ok_iff.2 ⟨hname, rfl⟩, rfl⟩
  | _ :: _ :: _ => exact iff_of_false (by rintro ⟨filter, ⟨⟩⟩) (by simp)

/-! ## Statuses -/

/-- The path of the request names the record of `k`. -/
def Request.Names (k : String) (r : Request) : Prop :=
  ∃ octets, r.route? = some (.record octets) ∧ Plan.keyText? octets = some k

section Status
variable {m : Memory} {a : Arrival} {k : String}

theorem status_of_asks {c : Command} (h : a.request.Asks s a.now c) :
    (a.served s m).response.status = (Response.ofOutcome s c (m.run c).1).status := by
  rw [Arrival.served, serveMemory, serve_command h, Response.status_forMethod]

theorem status_refused {route : Route} (hroute : a.request.route? = some route)
    (hrecords : route = .records ∨ ∃ octets, route = .record octets)
    (haction : (route.action? a.request.method).isSome = true)
    (hnone : ∀ c, ¬a.request.Asks s a.now c) : (a.served s m).response.status = 400 :=
  (serve_refused hroute hrecords hnone).trans (if_pos haction)

/-- A record is created from a value exactly if it can be. -/
theorem status_post (hroute : a.request.route? = some .records)
    (hmethod : a.request.method = "POST") {v : Value} (hv : a.request.value = .ok v) :
    (Creatable s.keyAttribute v ∧ (a.served s m).response.status = 200) ∨
      (¬Creatable s.keyAttribute v ∧ (a.served s m).response.status = 400) := by
  have hdistinct := Plan.value_distinct hv
  by_cases h : Creatable s.keyAttribute v
  · obtain ⟨record, hrecord⟩ := (creatable_iff hdistinct).1 h
    exact .inl ⟨h, status_of_asks (.create hroute hmethod hv hrecord)⟩
  · refine .inr ⟨h, status_refused hroute (.inl rfl) (by rw [hmethod]; rfl) fun c hc => ?_⟩
    obtain ⟨body, record, hbody, hrecord, -⟩ := hc.exists_create hmethod
    obtain rfl : v = body := Except.ok.inj (hv.symm.trans hbody)
    exact h ((creatable_iff hdistinct).2 ⟨record, hrecord⟩)

/-- A record is updated if the value is an update of it, and it is there. -/
theorem status_put (hs : s.validate = .ok ()) (hnames : a.request.Names k)
    (hmethod : a.request.method = "PUT") {v : Value} (hv : a.request.value = .ok v) :
    (Unsettable s k v ∧ (a.served s m).response.status = 400) ∨
      (¬Unsettable s k v ∧
        (a.served s m).response.status = if k ∈ names m.records then 200 else 404) := by
  obtain ⟨octets, hroute, hk⟩ := hnames
  have hdistinct := Plan.value_distinct hv
  by_cases h : Unsettable s k v
  · refine .inl ⟨h, status_refused hroute (.inr ⟨octets, rfl⟩) (by rw [hmethod]; rfl) ?_⟩
    intro c hc
    obtain ⟨others, l, body, attributes, u, hother, hl, hbody, hattributes, hu, -⟩ :=
      hc.exists_update hmethod
    obtain rfl : octets = others := by simpa [hroute] using hother
    obtain rfl : k = l := Option.some.inj (hk.symm.trans hl)
    obtain rfl : v = body := Except.ok.inj (hv.symm.trans hbody)
    exact (not_unsettable_iff hs hdistinct).2 ⟨attributes, u, hattributes, hu⟩ h
  · obtain ⟨attributes, u, hattributes, hu⟩ := (not_unsettable_iff hs hdistinct).1 h
    have hkey : u.key.value = k := by
      obtain ⟨rfl, -⟩ := Update.compile_ok hu
      rfl
    refine .inr ⟨h, (status_of_asks (.update hroute hmethod hk hv hattributes hu)).trans ?_⟩
    simp only [Memory.run, hkey, ← find?_isSome]
    cases find? k m.records <;> rfl

/-- A record is read if it is there. -/
theorem status_get (hnames : a.request.Names k) (hread : Route.isReading a.request.method = true) :
    (a.served s m).response.status = if k ∈ names m.records then 200 else 404 := by
  obtain ⟨octets, hroute, hk⟩ := hnames
  rw [status_of_asks (.get hroute hread hk)]
  simp only [Memory.run, ← find?_isSome]
  cases find? k m.records <;> rfl

theorem status_delete (hnames : a.request.Names k) (hmethod : a.request.method = "DELETE") :
    (a.served s m).response.status = 200 := by
  obtain ⟨octets, hroute, hk⟩ := hnames
  exact status_of_asks (.delete hroute hmethod hk)

theorem status_list (hs : s.validate = .ok ()) (hroute : a.request.route? = some .records)
    (hread : Route.isReading a.request.method = true) : (a.served s m).response.status =
      if 1 < a.request.parameters.length ∨ a.request.parameters.map Prod.fst = [""] then 400
      else 200 := by
  split
  · next h =>
    refine status_refused hroute (.inl rfl) (by simp [Route.action?, hread]) fun c hc => ?_
    obtain ⟨filter, hfilter, -⟩ := hc.exists_scan hroute hread
    exact (filter_ok_iff hs _).1 ⟨filter, hfilter⟩ h
  · next h =>
    obtain ⟨filter, hfilter⟩ := (filter_ok_iff hs _).2 h
    exact status_of_asks (.scan hroute hread hfilter)

end Status

/-! ## Requests that go well -/

theorem Request.value_of_jsonBody {r : Request} {octets : List UInt8} {v : Value}
    (hbody : r.jsonBody = .ok octets) (hv : Json.readFirst octets = .ok v) : r.value = .ok v :=
  bind_eq_ok.2 ⟨octets, hbody, by rw [hv]; rfl⟩

theorem Target.Addresses.names {k target : String} (h : Target.Addresses k target) (hk : k ≠ "")
    {r : Request} (hr : r.target = target) : r.Names k := by
  obtain ⟨octets, hroute, hkey⟩ := h.route hk
  exact ⟨octets, by rw [Request.route?, hr]; exact hroute, hkey⟩

/-- Two names are taken by the settings, so one of three is free. -/
theorem exists_free_name (s : Settings) :
    ∃ n ∈ ["a", "b", "c"], n ≠ s.keyAttribute ∧ s.createdAt ≠ some n := by
  by_contra hno
  have htaken : ∀ n ∈ ["a", "b", "c"], n = s.keyAttribute ∨ s.createdAt = some n := by
    intro n hn
    by_contra h
    exact hno ⟨n, hn, fun heq => h (.inl heq), fun heq => h (.inr heq)⟩
  have ha := htaken "a" (by simp)
  have hb := htaken "b" (by simp)
  have hc := htaken "c" (by simp)
  grind

open Json (texts) in
/-- What an object of one text that names the key attribute takes. -/
def leastBody (s : Settings) : List UInt8 :=
  Text.Utf8.encode (Value.chars (.map (texts [(s.keyAttribute, "k")])))

open Json (texts) in
/-- If the shortest body is not too long, a record can be created from one that is not. -/
theorem exists_creatable (hs : s.validate = .ok ()) (hleast : (leastBody s).length ≤ bodyLimit) :
    ∃ octets v, octets.length ≤ bodyLimit ∧ Json.readFirst octets = .ok v ∧
      Creatable s.keyAttribute v := by
  have hkey := (accepted_settings hs).1
  by_cases hembedded : s.keyAttribute = Json.embeddedName
  · -- Such a name has to stand behind another one, and is short enough for that.
    have hread := Json.readFirst_texts [("a", "x"), (Json.embeddedName, "k")] (by decide)
      (by decide)
    refine ⟨_, _, by decide, hread, texts [("a", "x"), (Json.embeddedName, "k")], "k", rfl,
      by decide, ?_, by decide⟩
    simp [texts, mapValues, hembedded]
  · have hread := Json.readFirst_texts [(s.keyAttribute, "k")] (by simp [names])
      (by simpa [names] using hembedded)
    refine ⟨_, _, hleast, hread, texts [(s.keyAttribute, "k")], "k", rfl, ?_, ?_, by decide⟩
    · simp [texts, mapValues, names, Ne.symm hkey]
    · simp [texts, mapValues]

/-- No record is created from a shorter body. -/
theorem length_leastBody {a : Arrival} {v : Value} (hv : a.request.value = .ok v)
    (h : Creatable s.keyAttribute v) : (leastBody s).length ≤ bodyLimit := by
  obtain ⟨members, k, rfl, -, hmem, hk⟩ := h
  obtain ⟨-, hlength, hread⟩ := Request.value_ok_iff.1 hv
  calc (leastBody s).length
      ≤ (Text.Utf8.encode (Value.chars (.map [(s.keyAttribute, .string k)]))).length :=
        Json.length_member_le s.keyAttribute hk
    _ ≤ a.request.body.length := Json.length_of_readFirst hread hmem
    _ ≤ bodyLimit := hlength

/-- If even the shortest body is too long, nothing is created. -/
theorem status_create_refused (hleast : bodyLimit < (leastBody s).length) {m : Memory} {a : Arrival}
    (hroute : a.request.route? = some .records) (hmethod : a.request.method = "POST") :
    (a.served s m).response.status = 400 := by
  refine status_refused hroute (.inl rfl) (by rw [hmethod]; rfl) fun c hc => ?_
  obtain ⟨body, record, hbody, hrecord, -⟩ := hc.exists_create hmethod
  have hcreatable := (creatable_iff (Plan.value_distinct hbody)).2 ⟨record, hrecord⟩
  exact absurd (length_leastBody hbody hcreatable) (Nat.not_le.2 hleast)

open Json (texts) in
/-- Some text of an object that is not long updates any record. -/
theorem exists_settable (s : Settings) (k : String) : ∃ octets v, octets.length ≤ bodyLimit ∧
    Json.readFirst octets = .ok v ∧ ¬Unsettable s k v := by
  obtain ⟨n, hn, hne, hstamp⟩ := exists_free_name s
  have hgood : ∀ n ∈ ["a", "b", "c"], n ≠ "" ∧ n ≠ Json.embeddedName ∧
      (Text.Utf8.encode (Value.chars (.map (texts [(n, "x")])))).length ≤ bodyLimit := by decide
  obtain ⟨hnameless, hhead, hlength⟩ := hgood n hn
  have hread := Json.readFirst_texts [(n, "x")] (by simp [names])
    (by simpa [names] using hhead)
  refine ⟨_, _, hlength, hread, fun h => ?_⟩
  cases h with
  | notObject h => exact h _ rfl
  | nameless h => simp [texts, mapValues, names, Ne.symm hnameless] at h
  | otherKey h => simp [texts, mapValues, Ne.symm hne] at h
  | stamp hname h =>
    obtain rfl : _ = n := by simpa [texts, mapValues, names] using h
    exact hstamp hname
  | nothing h => exact hne (h n (by simp [texts, mapValues, names]))

/-- With settings that were accepted, over any store, the status of a request for records that can
be read is told exactly by what it says and by which keys are stored. Any key can be named, some
body updates any record, and listing goes well. Some body creates a record too, unless the name of
the key attribute is so long that even the least object with it is too long for a body: then all
requests to create a record are refused. -/
theorem requests_admitted {s : Settings} (hs : s.validate = .ok ()) :
    (∀ (m : Memory) (a : Arrival),
      let r := a.request
      let status := (a.served s m).response.status
      (r.route? = some .records → r.method = "POST" → ∀ v, r.value = .ok v →
        (Creatable s.keyAttribute v ∧ status = 200) ∨
          (¬Creatable s.keyAttribute v ∧ status = 400)) ∧
      (r.route? = some .records → Route.isReading r.method = true →
        status = if 1 < r.parameters.length ∨ r.parameters.map Prod.fst = [""] then 400 else 200) ∧
      ∀ k, r.Names k →
        (r.method = "PUT" → ∀ v, r.value = .ok v → (Unsettable s k v ∧ status = 400) ∨
          (¬Unsettable s k v ∧ status = if k ∈ names m.records then 200 else 404)) ∧
        (Route.isReading r.method = true → status = if k ∈ names m.records then 200 else 404) ∧
        (r.method = "DELETE" → status = 200)) ∧
    (∀ k, k ≠ "" → ∃ target, ∀ r : Request, r.target = target → r.Names k) ∧
    ((leastBody s).length ≤ bodyLimit → ∃ body, body.length ≤ bodyLimit ∧
      ∀ (m : Memory) (a : Arrival), a.request.route? = some .records → a.request.method = "POST" →
        a.request.jsonBody = .ok body → (a.served s m).response.status = 200) ∧
    (bodyLimit < (leastBody s).length → ∀ (m : Memory) (a : Arrival),
      a.request.route? = some .records → a.request.method = "POST" →
      (a.served s m).response.status = 400) ∧
    (∀ k, ∃ body, body.length ≤ bodyLimit ∧ ∀ (m : Memory) (a : Arrival), k ∈ names m.records →
      a.request.Names k → a.request.method = "PUT" → a.request.jsonBody = .ok body →
      (a.served s m).response.status = 200) ∧
    ∀ (m : Memory) (a : Arrival), a.request.route? = some .records → a.request.parameters = [] →
      Route.isReading a.request.method = true → (a.served s m).response.status = 200 := by
  refine ⟨fun m a => ⟨?_, ?_, fun k hk => ⟨?_, ?_, ?_⟩⟩, fun k hk => ?_, fun hleast => ?_, ?_,
    fun k => ?_, ?_⟩
  · intro hroute hmethod v hv
    exact status_post hroute hmethod hv
  · intro hroute hread
    exact status_list hs hroute hread
  · intro hmethod v hv
    exact status_put hs hk hmethod hv
  · intro hread
    exact status_get hk hread
  · intro hmethod
    exact status_delete hk hmethod
  · obtain ⟨target, htarget⟩ := Target.exists_addresses k
    exact ⟨target, fun r hr => htarget.names hk hr⟩
  · obtain ⟨body, v, hlength, hread, hv⟩ := exists_creatable hs hleast
    refine ⟨body, hlength, fun m a hroute hmethod hbody => ?_⟩
    have hvalue := Request.value_of_jsonBody hbody hread
    rcases status_post hroute hmethod hvalue with ⟨-, hstatus⟩ | ⟨hno, -⟩
    · exact hstatus
    · exact absurd hv hno
  · intro hleast m a hroute hmethod
    exact status_create_refused hleast hroute hmethod
  · obtain ⟨body, v, hlength, hread, hv⟩ := exists_settable s k
    refine ⟨body, hlength, fun m a hmem hk hmethod hbody => ?_⟩
    have hvalue := Request.value_of_jsonBody hbody hread
    rcases status_put hs hk hmethod hvalue with ⟨hno, -⟩ | ⟨-, hstatus⟩
    · exact absurd hno hv
    · rwa [if_pos hmem] at hstatus
  · intro m a hroute hparameters hread
    rw [status_list hs hroute hread, hparameters]
    rfl

/-- A record that is not there is not updated, and the time of creation is not set even so. -/
theorem requests_admitted_stamped :
    let s := { Settings.ofNames "records" "client" "pool" with createdAt := some "at" }
    let m : Memory := ⟨"userId", [("k", [])]⟩
    let put (target body : String) : Arrival :=
      ⟨"08:00", fun _ => .ok ⟨200, .null⟩,
        ⟨"PUT", target, some "application/json", body.toUTF8.toList⟩⟩
    let missing := put "/records/x" "\x7b\"n\":\"y\",\"userId\":\"x\"\x7d"
    let stamped := put "/records/x" "\x7b\"at\":\"09:00\"\x7d"
    (missing.served s m).response.status = 404 ∧ (stamped.served s m).response.status = 400 := by
  intro s m put missing stamped
  have hnames : ∀ a ∈ [missing, stamped], a.request.Names "x" := by
    intro a ha
    refine ⟨Target.ascii "x", ?_, by decide +kernel⟩
    revert a
    decide +kernel
  obtain ⟨h, -⟩ := requests_admitted (s := s) rfl
  constructor
  · have hv : missing.request.value = .ok (.map [("n", .string "y"), ("userId", .string "x")]) :=
      Request.value_of_jsonBody (by decide +kernel)
        (Json.readFirst_texts [("n", "y"), ("userId", "x")] (by decide) (by decide))
    obtain ⟨-, -, hput⟩ := h m missing
    rcases (hput "x" (hnames _ (by simp))).1 rfl _ hv with ⟨hno, -⟩ | ⟨-, hstatus⟩
    · cases hno with
      | notObject h => exact absurd rfl (h _)
      | nameless h => exact absurd h (by decide)
      | otherKey hmem hother => simp_all [s, Settings.ofNames]
      | stamp hname hmem => cases hname; exact absurd hmem (by decide)
      | nothing h => exact absurd (h "n" (by decide)) (by decide)
    · exact hstatus
  · have hv : stamped.request.value = .ok (.map [("at", .string "09:00")]) :=
      Request.value_of_jsonBody (by decide +kernel)
        (Json.readFirst_texts [("at", "09:00")] (by decide) (by decide))
    obtain ⟨-, -, hput⟩ := h m stamped
    rcases (hput "x" (hnames _ (by simp))).1 rfl _ hv with ⟨-, hstatus⟩ | ⟨hno, -⟩
    · exact hstatus
    · exact absurd (.stamp rfl (by decide)) hno

/-- The check looks for no more in the name of the key attribute than that it is not empty. -/
theorem validate_ofNames {name : String} (h : name ≠ "") :
    Settings.validate { Settings.ofNames "records" "client" "pool" with keyAttribute := name }
      = .ok () := by
  simp [Settings.validate, Settings.problem?, Settings.ofNames, h]

/-- Settings whose key attribute has a name as long as a body may be are accepted, and no record can
be created under them. -/
theorem creations_all_refused :
    let s := { Settings.ofNames "records" "client" "pool" with
      keyAttribute := String.ofList (List.replicate 2097152 'a') }
    s.validate = .ok () ∧ ∀ (m : Memory) (a : Arrival), a.request.route? = some .records →
      a.request.method = "POST" → (a.served s m).response.status = 400 := by
  have hlength : (String.ofList (List.replicate 2097152 'a')).length = bodyLimit := by
    rw [String.length_ofList, List.length_replicate, bodyLimit]
  -- Nothing but its length is looked at from here on.
  generalize String.ofList (List.replicate 2097152 'a') = name at hlength
  have hname : name ≠ "" := by
    rintro rfl
    cases hlength
  refine ⟨validate_ofNames hname, fun m a hroute hmethod => ?_⟩
  exact status_create_refused (hlength ▸ Json.length_lt_member name "k") hroute hmethod

end RecordService.Http
