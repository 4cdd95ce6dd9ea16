import RecordService.Proofs.Http.Malformed
import RecordService.Proofs.Store.Alike
/-!
# What a projection hides

Two runs of requests that differ in the values of hidden members only are answered alike: the stores
differ in hidden values only after each request, and no answer shows one. The bodies are compared as
they are written, member by member. Where they differ they have to be read as values in both runs,
and not to begin with the name by which the reader takes an object for an embedded value.
-/

namespace RecordService.Http

open Entries (Related)
open Json (Quoted Scalar tokens embeddedName readFirst)
open Json.Tree (IsMember embedded? firstName? pairs?_eq_some read?_eq_some value?)
open Store
open Identity (Provider)

variable {s : Settings}

/-! ## Bodies -/

/-- The name is the same, and so is what is written as its value, unless the name is hidden. -/
def MembersAlike (s : Settings) (m n : Quoted × Json.Tree Quoted Scalar) : Prop :=
  m.1 = n.1 ∧ (m.2 = n.2 ∨ ∃ name, m.1 = .text name ∧ s.Hides name)

/-- Both bodies begin with an object, and these are the same but for the values of hidden
members. -/
def BodiesAlike (s : Settings) (b c : List UInt8) : Prop :=
  ∃ ms ns rest rest', tokens b = (Json.Tree.map ms).spelled ++ rest ∧
    tokens c = (Json.Tree.map ns).spelled ++ rest' ∧ List.Forall₂ (MembersAlike s) ms ns

/-- The bodies are short enough and are read as values. If they begin with an object that the reader
takes for an embedded value by its first member, that member is the same in both. -/
structure Comparable (b c : List UInt8) : Prop where
  length : b.length ≤ bodyLimit ∧ c.length ≤ bodyLimit
  readable : (∃ v, readFirst b = .ok v) ∧ ∃ w, readFirst c = .ok w
  first : ∀ ms ns rest rest', tokens b = (Json.Tree.map ms).spelled ++ rest →
    tokens c = (Json.Tree.map ns).spelled ++ rest' →
      firstName? ms = some (.text embeddedName) → ms.head? = ns.head?

/-- The body is a well-formed text within the limits of the reader on length and depth. -/
def IsWithinLimits (b : List UInt8) : Prop :=
  b.length ≤ bodyLimit ∧
    ∃ tree : Json.Tree Quoted Scalar,
      tree.isWithin Json.depthLimit = true ∧ Json.Written tree.spelled b

/-- The tokens that the reader finds in a body tell that it is within the limits. -/
theorem IsWithinLimits.of_tokens {b : List UInt8} {tree : Json.Tree Quoted Scalar}
    (htokens : tokens b = tree.spelled ++ []) (hlength : b.length ≤ bodyLimit)
    (hdepth : tree.isWithin Json.depthLimit = true)
    (hreadable : ∀ t ∈ tokens b, t.isReadable = true) : IsWithinLimits b := by
  have hwritten := Json.written_tokens hreadable
  rw [htokens, List.append_nil] at hwritten
  exact ⟨hlength, tree, hdepth, hwritten⟩

/-- Bodies are comparable, if they can be read and begin with an object that is not taken for an
embedded value. -/
theorem Comparable.of_first {b c : List UInt8} {ms : List (Quoted × Json.Tree Quoted Scalar)}
    {rest : List (Json.Token Quoted Scalar)}
    (htokens : tokens b = (Json.Tree.map ms).spelled ++ rest)
    (hfirst : firstName? ms ≠ some (.text embeddedName))
    (length : b.length ≤ bodyLimit ∧ c.length ≤ bodyLimit)
    (readable : (∃ v, readFirst b = .ok v) ∧ ∃ w, readFirst c = .ok w) : Comparable b c := by
  refine ⟨length, readable, fun ms' _ _ _ htokens' _ hname => ?_⟩
  have hread := (read?_eq_some.2 htokens).symm.trans (read?_eq_some.2 htokens')
  obtain rfl : ms = ms' := Json.Tree.map.inj (congrArg Prod.fst (Option.some.inj hread))
  exact absurd hname hfirst

/-- A value that is read is the value of the tree that the tokens begin with. -/
theorem value?_of_readFirst {b : List UInt8} {v : Value} (h : readFirst b = .ok v)
    {t : Json.Tree Quoted Scalar} {rest : List (Json.Token Quoted Scalar)}
    (htokens : tokens b = t.spelled ++ rest) :
    t.value? (fun s => Json.readWhole s.toUTF8.toList) = some v := by
  obtain ⟨⟨w, after⟩, hfrom, rfl⟩ := map_eq_ok.1 (mapError_eq_ok.1 h)
  obtain ⟨u, hu, hvalue⟩ := Json.Reader.readFrom_tree hfrom
  have hread := read?_eq_some.2 htokens
  obtain rfl : t = u := congrArg Prod.fst (Option.some.inj (hread.symm.trans hu))
  exact hvalue

section Values
variable {inner : String → Except Json.Fault Value}
  {ms ns : List (Quoted × Json.Tree Quoted Scalar)} {v w : Value}

/-- Members that are alike have values that are alike. -/
theorem related_of_members (h : List.Forall₂ (MembersAlike s) ms ns)
    {es fs : List (String × Value)} (hes : List.Forall₂ (IsMember inner) ms es)
    (hfs : List.Forall₂ (IsMember inner) ns fs) : Related s.Alike es fs := by
  induction h generalizing es fs with
  | nil =>
    cases hes
    cases hfs
    exact .nil
  | cons hmember _ ih =>
    obtain _ | ⟨⟨hname, hvalue⟩, hes⟩ := hes
    obtain _ | ⟨⟨hname', hvalue'⟩, hfs⟩ := hfs
    obtain ⟨hsame, hboth⟩ := hmember
    rw [hname, hname', Quoted.text.injEq] at hsame
    refine .cons ⟨hsame, ?_⟩ (ih hes hfs)
    rcases hboth with htree | ⟨name, hhidden, hhides⟩
    · rw [htree, hvalue'] at hvalue
      exact .inr (Option.some.inj hvalue).symm
    · rw [hname, Quoted.text.injEq] at hhidden
      exact .inl (hhidden ▸ hhides)

/-- The first member of an object that is taken for an embedded value is its only one. -/
theorem eq_of_embedded (h : List.Forall₂ (MembersAlike s) ms ns) (hhead : ms.head? = ns.head?)
    (hvalue : embedded? inner ms = some v) : ms = ns := by
  unfold embedded? at hvalue
  split at hvalue
  · obtain _ | ⟨-, hrest⟩ := h
    cases hrest
    obtain rfl := Option.some.inj hhead
    rfl
  · cases hvalue

theorem value?_alike (h : List.Forall₂ (MembersAlike s) ms ns)
    (hfirst : firstName? ms = some (.text embeddedName) → ms.head? = ns.head?)
    (hv : value? inner (.map ms) = some v) (hw : value? inner (.map ns) = some w) :
    Value.Alike s v w := by
  have hnames : firstName? ms = firstName? ns := by
    cases h with
    | nil => rfl
    | cons hmember _ => exact congrArg some hmember.1
  by_cases hname : firstName? ms = some (.text embeddedName)
  · rw [value?, if_pos hname] at hv
    obtain rfl := eq_of_embedded h (hfirst hname) hv
    rw [value?, if_pos hname, hv] at hw
    exact .inl (Option.some.inj hw)
  · rw [value?, if_neg hname] at hv
    rw [value?, if_neg (hnames ▸ hname)] at hw
    obtain ⟨es, hes, rfl⟩ := Option.map_eq_some_iff.1 hv
    obtain ⟨fs, hfs, rfl⟩ := Option.map_eq_some_iff.1 hw
    exact .inr ⟨_, _, rfl, rfl,
      (related_of_members h (pairs?_eq_some.1 hes) (pairs?_eq_some.1 hfs)).ofPairs⟩

end Values

theorem readFirst_alike {b c : List UInt8} (h : BodiesAlike s b c) (hbc : Comparable b c) :
    ∃ v w, readFirst b = .ok v ∧ readFirst c = .ok w ∧ Value.Alike s v w := by
  obtain ⟨ms, ns, rest, rest', hms, hns, hmembers⟩ := h
  obtain ⟨⟨v, hv⟩, w, hw⟩ := hbc.readable
  exact ⟨v, w, hv, hw, value?_alike hmembers (hbc.first ms ns rest rest' hms hns)
    (value?_of_readFirst hv hms) (value?_of_readFirst hw hns)⟩

/-! ## Requests -/

namespace Request

/-- The same request, but for the values of hidden members of the body; such bodies are comparable,
and not for the identity provider. -/
structure Alike (s : Settings) (r q : Request) : Prop where
  method : r.method = q.method
  target : r.target = q.target
  contentType : r.contentType = q.contentType
  body : r.body = q.body ∨ (BodiesAlike s r.body q.body ∧ Comparable r.body q.body ∧
    ∀ operation, ¬r.IsFor operation)

/-- The request lists the records that pass a filter on a hidden name, its own or the default. -/
def FiltersHidden (s : Settings) (r : Request) : Prop :=
  r.route? = some .records ∧ Route.isReading r.method = true ∧
    ((∃ p, r.parameters = [p] ∧ s.Hides p.1) ∨
      r.parameters = [] ∧ ∃ name, s.defaultFilter = some name ∧ s.Hides name)

variable {r q : Request}

theorem Alike.jsonBody_agree (h : Alike s r q) :
    Agree (fun b c => b = r.body ∧ c = q.body) r.jsonBody q.jsonBody := by
  have hlength : bodyLimit < r.body.length ↔ bodyLimit < q.body.length := by
    rcases h.body with hsame | ⟨-, hbodies, -⟩
    · rw [hsame]
    · obtain ⟨hr, hq⟩ := hbodies.length
      exact iff_of_false (Nat.not_lt.2 hr) (Nat.not_lt.2 hq)
  unfold jsonBody
  rw [← h.contentType]
  split
  · exact .error _
  · by_cases hlong : bodyLimit < r.body.length
    · rw [if_pos hlong, if_pos (hlength.1 hlong)]
      exact .error _
    · rw [if_neg hlong, if_neg fun h => hlong (hlength.2 h)]
      exact .ok ⟨rfl, rfl⟩

/-- Both bodies are refused for the same fault, or read as values that are alike. -/
theorem Alike.value_agree (h : Alike s r q) : Agree (Value.Alike s) r.value q.value := by
  refine h.jsonBody_agree.bind fun b c hbc => ?_
  obtain ⟨rfl, rfl⟩ := hbc
  rcases h.body with hsame | ⟨hbodies, hcomparable, -⟩
  · rw [hsame]
    exact .refl _ (fun v => .inl rfl) _
  · obtain ⟨v, w, hv, hw, hvw⟩ := readFirst_alike hbodies hcomparable
    rw [hv, hw]
    exact .ok hvw

end Request

/-! ## Plans -/

namespace Plan

/-- The same plan, but for hidden values. -/
inductive Alike (s : Settings) : Plan → Plan → Prop where
  | answer (response : Response) : Alike s (.answer response) (.answer response)
  | command {c d : Command} (h : Command.Alike s c d) : Alike s (.command c) (.command d)
  | identity (request : Identity.Request) : Alike s (.identity request) (.identity request)

theorem ofCommand_alike {x y : Except Error Command} (h : Agree (Command.Alike s) x y) :
    Alike s (ofCommand x) (ofCommand y) := by
  cases h with
  | ok h => exact .command h
  | error e => exact .answer _

theorem withKey_alike {octets : List UInt8} {plan plan' : Key → Plan}
    (h : ∀ key : Key, key.name = s.keyAttribute → Alike s (plan key) (plan' key)) :
    Alike s (withKey s octets plan) (withKey s octets plan') := by
  unfold withKey
  split
  · exact h _ rfl
  · exact .answer _

variable {r q : Request}

theorem create_agree (h : Request.Alike s r q) (now : String) :
    Agree (Command.Alike s) (create s now r) (create s now q) := by
  refine h.value_agree.bind fun v w hvw => ?_
  refine (Record.ofBody_agree hvw).bind fun a b hab => .ok (.create ?_)
  unfold stamped
  split
  · exact ⟨hab.1, hab.2.put (Settings.Alike.refl _ _)⟩
  · exact hab

theorem update_agree (h : Request.Alike s r q) {key : Key} (hkey : key.name = s.keyAttribute) :
    Agree (Command.Alike s) (update s r key) (update s q key) := by
  have hshown : ¬s.Hides key.name := hkey ▸ not_hides_key
  refine h.value_agree.bind fun v w hvw => ?_
  refine (Attributes.ofBody_agree hvw).bind fun a b hab => ?_
  exact (Expression.Update.compile_agree hshown _ hab).bind fun _ _ hu => .ok (.update hu)

/-- A filter is on the name of the only parameter, or on the default one. -/
theorem name_of_filter {parameters : List (String × String)} {f : Expression.Filter}
    (h : filter s parameters = .ok (some f)) :
    (∃ p, parameters = [p] ∧ p.1 = f.name) ∨ parameters = [] ∧ s.defaultFilter = some f.name := by
  unfold filter at h
  split at h
  · split at h
    · next name hname =>
      obtain ⟨g, hg, h⟩ := map_eq_ok.1 h
      cases h
      obtain ⟨-, rfl⟩ := Expression.Filter.ofParameter_ok_iff.1 hg
      exact .inr ⟨rfl, hname⟩
    · cases h
  · next name value =>
    obtain ⟨g, hg, h⟩ := map_eq_ok.1 h
    cases h
    obtain ⟨-, rfl⟩ := Expression.Filter.ofParameter_ok_iff.1 hg
    exact .inl ⟨_, rfl, rfl⟩
  · cases h

theorem filter_agree (hroute : r.route? = some .records) (hread : Route.isReading r.method = true)
    (hfilter : ¬r.FiltersHidden s) :
    Agree (Command.Alike s) ((filter s r.parameters).map .scan)
      ((filter s r.parameters).map .scan) := by
  cases hplan : filter s r.parameters with
  | error e => exact .error e
  | ok f =>
    refine .ok (.scan f fun g hg hhides => hfilter ⟨hroute, hread, ?_⟩)
    obtain rfl : f = some g := hg
    rcases name_of_filter hplan with ⟨p, hp, hname⟩ | ⟨hnone, hdefault⟩
    · exact .inl ⟨p, hp, hname ▸ hhides⟩
    · exact .inr ⟨hnone, g.name, hdefault, hhides⟩

/-- What is planned for both requests. -/
theorem ofAction_alike (h : Request.Alike s r q) (now : String) {route : Route} {action : Action}
    (hroute : r.route? = some route) (haction : route.action? r.method = some action)
    (hfilter : ¬r.FiltersHidden s) :
    Alike s (ofAction s now r action) (ofAction s now q action) := by
  cases action with
  | health => exact .answer _
  | scan =>
    obtain rfl := Route.route_of_action? haction
    have hread : Route.isReading r.method = true := by
      simp only [Action.route, Route.action?] at haction
      grind
    have hagree := filter_agree hroute hread hfilter
    unfold Request.parameters at hagree
    rw [ofAction, ofAction, ← h.target]
    exact ofCommand_alike hagree
  | create => exact ofCommand_alike (create_agree h now)
  | get octets =>
    rw [ofAction, ofAction]
    exact withKey_alike fun key _ => .command (.get key)
  | update octets =>
    rw [ofAction, ofAction]
    exact withKey_alike fun key hkey => ofCommand_alike (update_agree h hkey)
  | delete octets =>
    rw [ofAction, ofAction]
    exact withKey_alike fun key _ => .command (.delete key)
  | identity operation =>
    -- A body for the identity provider is the same in both.
    have hbody : r.body = q.body := h.body.resolve_right fun hdiffer =>
      hdiffer.2.2 operation (Request.isFor_of_action? hroute haction)
    have hidentity : r.identity operation = q.identity operation := by
      simp only [Request.identity, Request.jsonBody, h.contentType, hbody]
    simp only [ofAction, hidentity]
    split
    · exact .identity _
    · exact .answer _

end Plan

/-! ## One request -/

/-- Requests that are alike, over stores that are alike, are answered the same, and leave stores
that are alike. -/
theorem serveMemory_alike (hprojection : s.projection ≠ []) {r q : Request}
    (h : Request.Alike s r q) (hfilter : ¬r.FiltersHidden s) (now : String) (provider : Provider)
    {m n : Memory} (hmn : Memory.Alike s m n) :
    (serveMemory s now provider m r).response = (serveMemory s now provider n q).response ∧
      Memory.Alike s (serveMemory s now provider m r).store
        (serveMemory s now provider n q).store := by
  simp only [serveMemory, serve, ← h.target, ← h.method]
  split
  · exact ⟨rfl, hmn⟩
  · next route hroute =>
    split
    · exact ⟨rfl, hmn⟩
    · next action haction =>
      have hplan := Plan.ofAction_alike h now hroute haction hfilter
      generalize Plan.ofAction s now r action = plan at hplan ⊢
      generalize Plan.ofAction s now q action = plan' at hplan ⊢
      cases hplan with
      | answer response => exact ⟨rfl, hmn⟩
      | command hcd =>
        obtain ⟨hresponse, hstore⟩ := hmn.run hprojection hcd
        exact ⟨congrArg (Response.forMethod r.method) hresponse, hstore⟩
      | identity request => exact ⟨rfl, hmn⟩

/-! ## Runs -/

/-- The responses to requests that come in one after another. -/
def responses (s : Settings) (m : Memory) : List Arrival → List Response
  | [] => []
  | a :: arrivals => (a.served s m).response :: responses s (a.served s m).store arrivals

/-- Requests that are alike, and come in at the same time, with the same identity provider. -/
structure Arrival.Alike (s : Settings) (a b : Arrival) : Prop where
  now : a.now = b.now
  provider : a.provider = b.provider
  request : Request.Alike s a.request b.request

/-- From stores that are alike, runs of requests that are alike are answered the same. -/
theorem responses_alike (hprojection : s.projection ≠ []) {as bs : List Arrival}
    (h : List.Forall₂ (Arrival.Alike s) as bs)
    (hfilters : ∀ a ∈ as, ¬a.request.FiltersHidden s) {m n : Memory} (hmn : Memory.Alike s m n) :
    responses s m as = responses s n bs := by
  induction h generalizing m n with
  | nil => rfl
  | @cons a b _ _ hab _ ih =>
    obtain ⟨hfilter, hfilters⟩ := List.forall_mem_cons.1 hfilters
    obtain ⟨hresponse, hstore⟩ :=
      serveMemory_alike hprojection hab.request hfilter a.now a.provider hmn
    rw [responses, responses, Arrival.served, Arrival.served, ← hab.now, ← hab.provider, hresponse,
      ih hfilters hstore]

/-- With a projection, two runs from the empty store are answered the same, request by request, if
they differ only in the values of hidden members of bodies, and no listing filters on a hidden
name. -/
theorem projection_hides {s : Settings} (hprojection : s.projection ≠ []) {as bs : List Arrival}
    (h : List.Forall₂ (Arrival.Alike s) as bs)
    (hfilters : ∀ a ∈ as, ¬a.request.FiltersHidden s) :
    responses s (Memory.empty s.keyAttribute) as = responses s (Memory.empty s.keyAttribute) bs :=
  responses_alike hprojection h hfilters (.refl _)

/-- A record that is created with one hidden value or with another, and then listed. -/
theorem projection_hides_listed :
    let s := { Settings.ofNames "records" "client" "pool" with projection := ["name"] }
    let request (method target body : String) : Arrival :=
      ⟨"", fun _ => .ok ⟨200, .null⟩,
        ⟨method, target, some "application/json", body.toUTF8.toList⟩⟩
    let arrivals (body : String) :=
      [request "POST" "/records" body, request "GET" "/records?name=n" ""]
    responses s (Memory.empty "userId")
        (arrivals "\x7b\"userId\":\"a\",\"x\":1,\"name\":\"n\"\x7d")
      = responses s (Memory.empty "userId")
        (arrivals "\x7b\"userId\":\"a\",\"x\":[\"\"],\"name\":\"n\"\x7d") := by
  intro s request arrivals
  let one := "\x7b\"userId\":\"a\",\"x\":1,\"name\":\"n\"\x7d"
  let other := "\x7b\"userId\":\"a\",\"x\":[\"\"],\"name\":\"n\"\x7d"
  let members (x : Json.Tree Quoted Scalar) : List (Quoted × Json.Tree Quoted Scalar) :=
    [(.text "userId", .text (.text "a")), (.text "x", x), (.text "name", .text (.text "n"))]
  let number : Json.Tree Quoted Scalar := .scalar (.number ⟨false, ['1'], none, none⟩)
  have hone : tokens one.toUTF8.toList = (Json.Tree.map (members number)).spelled ++ [] := by
    decide +kernel
  have hother : tokens other.toUTF8.toList
      = (Json.Tree.map (members (.list [.text (.text "")]))).spelled ++ [] := by decide +kernel
  have halike : BodiesAlike s one.toUTF8.toList other.toUTF8.toList := by
    refine ⟨_, _, _, _, hone, hother, .cons ⟨rfl, .inl rfl⟩ (.cons ⟨rfl, .inr ?_⟩
      (.cons ⟨rfl, .inl rfl⟩ .nil))⟩
    exact ⟨"x", rfl, by decide, by decide⟩
  have hcomparable : Comparable one.toUTF8.toList other.toUTF8.toList :=
    .of_first hone (by decide) (by decide +kernel)
      ⟨exists_ok_of_isSome (by decide +kernel), exists_ok_of_isSome (by decide +kernel)⟩
  have hroute : (request "POST" "/records" one).request.route? = some .records := by decide +kernel
  have hidentity : ∀ operation, ¬(request "POST" "/records" one).request.IsFor operation := by
    intro operation h
    rw [Request.isFor_iff, hroute] at h
    cases h.2
  refine projection_hides (s := s) (by decide) (.cons ⟨rfl, rfl, ?_⟩ (.cons ⟨rfl, rfl, ?_⟩ .nil)) ?_
  · exact ⟨rfl, rfl, rfl, .inr ⟨halike, hcomparable, hidentity⟩⟩
  · exact ⟨rfl, rfl, rfl, .inl rfl⟩
  · have hparameters :
        (request "GET" "/records?name=n" "").request.parameters = [("name", "n")] := by
      decide +kernel
    refine List.forall_mem_cons.2
      ⟨fun h => absurd h.2.1 (by decide), List.forall_mem_singleton.2 ?_⟩
    rintro ⟨-, -, ⟨p, hp, hhides⟩ | ⟨hnone, -⟩⟩
    · rw [hparameters] at hp
      obtain rfl := (List.cons.inj hp).1
      exact hhides.2 (by decide)
    · rw [hparameters] at hnone
      cases hnone

/-- Where the bodies are not comparable, or for the identity provider, hidden values are told: by a
body that is taken for an embedded value, by a number that is too large to be read, and by a field
of an identity request that is no text. -/
theorem hidden_values_told :
    let s := { Settings.ofNames "records" "client" "pool" with projection := ["name"] }
    let arrival (target body : String) : Arrival :=
      ⟨"", fun _ => .ok ⟨200, .null⟩,
        ⟨"POST", target, some "application/json", body.toUTF8.toList⟩⟩
    let embedded (key : String) :=
      "\x7b\"$serde_json::private::RawValue\":\"\x7b\\\"userId\\\":\\\"" ++ key ++ "\\\"\x7d\"\x7d"
    let record (x : String) := "\x7b\"userId\":\"a\",\"x\":" ++ x ++ "\x7d"
    let login (password : String) :=
      "\x7b\"username\":\"u\",\"password\":" ++ password ++ "\x7d"
    s.validate = .ok () ∧ s.projection ≠ [] ∧
    ∀ target b c, (target, b, c) ∈ [("/records", embedded "a", embedded "b"),
        ("/records", record "1", record "1e999"), ("/identity/login", login "\"p\"", login "1")] →
      BodiesAlike s b.toUTF8.toList c.toUTF8.toList ∧
      IsWithinLimits b.toUTF8.toList ∧ IsWithinLimits c.toUTF8.toList ∧
      ¬(arrival target b).request.FiltersHidden s ∧ ¬(arrival target c).request.FiltersHidden s ∧
      responses s (Memory.empty "userId") [arrival target b]
        ≠ responses s (Memory.empty "userId") [arrival target c] := by
  intro s arrival embedded record login
  refine ⟨rfl, by decide, ?_⟩
  have hread : Route.isReading "POST" = false := by decide
  have hfilters : ∀ target body, ¬(arrival target body).request.FiltersHidden s :=
    fun target body h => absurd (hread.symm.trans h.2.1) nofun
  intro target b c hmem
  simp only [List.mem_cons, List.not_mem_nil, or_false, Prod.mk.injEq] at hmem
  rcases hmem with ⟨rfl, rfl, rfl⟩ | ⟨rfl, rfl, rfl⟩ | ⟨rfl, rfl, rfl⟩
  · let members (key : String) : List (Quoted × Json.Tree Quoted Scalar) :=
      [(.text embeddedName, .text (.text ("\x7b\"userId\":\"" ++ key ++ "\"\x7d")))]
    have hb : tokens (embedded "a").toUTF8.toList
        = (Json.Tree.map (members "a")).spelled ++ [] := by decide +kernel
    have hc : tokens (embedded "b").toUTF8.toList
        = (Json.Tree.map (members "b")).spelled ++ [] := by decide +kernel
    have hhidden : s.Hides embeddedName := by decide
    have halike : List.Forall₂ (MembersAlike s) (members "a") (members "b") :=
      .cons ⟨rfl, .inr ⟨_, rfl, hhidden⟩⟩ .nil
    exact ⟨⟨_, _, [], [], hb, hc, halike⟩,
      .of_tokens hb (by decide +kernel) rfl (by decide +kernel),
      .of_tokens hc (by decide +kernel) rfl (by decide +kernel),
      hfilters _ _, hfilters _ _, by decide +kernel⟩
  · let members (x : Json.Literal) : List (Quoted × Json.Tree Quoted Scalar) :=
      [(.text "userId", .text (.text "a")), (.text "x", .scalar (.number x))]
    have hb : tokens (record "1").toUTF8.toList
        = (Json.Tree.map (members ⟨false, ['1'], none, none⟩)).spelled ++ [] := by decide +kernel
    have hc : tokens (record "1e999").toUTF8.toList
        = (Json.Tree.map (members ⟨false, ['1'], none, some 999⟩)).spelled ++ [] := by
      decide +kernel
    have hhidden : s.Hides "x" := by decide
    have halike : List.Forall₂ (MembersAlike s) (members ⟨false, ['1'], none, none⟩)
        (members ⟨false, ['1'], none, some 999⟩) :=
      .cons ⟨rfl, .inl rfl⟩ (.cons ⟨rfl, .inr ⟨_, rfl, hhidden⟩⟩ .nil)
    exact ⟨⟨_, _, [], [], hb, hc, halike⟩,
      .of_tokens hb (by decide +kernel) rfl (by decide +kernel),
      .of_tokens hc (by decide +kernel) rfl (by decide +kernel),
      hfilters _ _, hfilters _ _, by decide +kernel⟩
  · let members (password : Json.Tree Quoted Scalar) : List (Quoted × Json.Tree Quoted Scalar) :=
      [(.text "username", .text (.text "u")), (.text "password", password)]
    let number : Json.Tree Quoted Scalar := .scalar (.number ⟨false, ['1'], none, none⟩)
    have hb : tokens (login "\"p\"").toUTF8.toList
        = (Json.Tree.map (members (.text (.text "p")))).spelled ++ [] := by decide +kernel
    have hc : tokens (login "1").toUTF8.toList
        = (Json.Tree.map (members number)).spelled ++ [] := by decide +kernel
    have hhidden : s.Hides "password" := by decide
    have halike : List.Forall₂ (MembersAlike s) (members (.text (.text "p"))) (members number) :=
      .cons ⟨rfl, .inl rfl⟩ (.cons ⟨rfl, .inr ⟨_, rfl, hhidden⟩⟩ .nil)
    exact ⟨⟨_, _, [], [], hb, hc, halike⟩,
      .of_tokens hb (by decide +kernel) rfl (by decide +kernel),
      .of_tokens hc (by decide +kernel) rfl (by decide +kernel),
      hfilters _ _, hfilters _ _, by decide +kernel⟩

end RecordService.Http
