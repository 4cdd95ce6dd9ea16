import RecordService.Proofs.Http.Frame
import RecordService.Proofs.Http.Refusal
/-!
# Runs of requests

Requests that come in one after another give commands to the store, and the store is where these
take it. A request that does not write a record with success leaves it as it was, so the record is
the same after any number of them.
-/

namespace RecordService.Http

open Entries Store

variable {s : Settings} {k : String} {m : Memory}

/-! ## Arrivals -/

namespace Arrival

/-- A request as it is served over a store. -/
abbrev served (s : Settings) (m : Memory) (a : Arrival) : Served Memory :=
  serveMemory s a.now a.provider m a.request

/-- The command that a request is for. -/
def command? (s : Settings) (a : Arrival) : Option Command :=
  a.request.command? s a.now

/-- The request is one to write the record of `k`, and is answered with 200. -/
def Writes (s : Settings) (k : String) (m : Memory) (a : Arrival) : Prop :=
  a.request.writtenKey? s = some k ∧ (a.served s m).response.status = 200

/-- The request is a `POST` of the record of `k`, and is answered with 200. -/
def Creates (s : Settings) (k : String) (m : Memory) (a : Arrival) : Prop :=
  a.request.method = "POST" ∧ a.Writes s k m

instance (m : Memory) (a : Arrival) : Decidable (a.Writes s k m) :=
  inferInstanceAs (Decidable (_ ∧ _))

instance (m : Memory) (a : Arrival) : Decidable (a.Creates s k m) :=
  inferInstanceAs (Decidable (_ ∧ _))

theorem store_served (m : Memory) (a : Arrival) : (a.served s m).store =
    match a.command? s with
    | some c => (m.run c).2
    | none => m := by
  cases hc : a.command? s with
  | none =>
    refine serve_idle fun c h => ?_
    rw [command?, Request.command?_of_asks h] at hc
    cases hc
  | some c => exact congrArg Served.store (serve_command (Request.asks_of_command? hc))

/-- A request that does not write a record with success leaves it as it was. -/
theorem find?_served {a : Arrival} (h : ¬a.Writes s k m) :
    find? k (a.served s m).store.records = find? k m.records := by
  by_cases hsame : (a.served s m).store = m
  · rw [hsame]
  · obtain ⟨l, hl, -, herase⟩ := writtenKey?_of_changed hsame
    have hne : l ≠ k := by
      rintro rfl
      exact h ⟨hl, status_of_changed hsame⟩
    exact find?_of_erase_eq herase hne

end Arrival

/-! ## Answered requests for records -/

namespace Plan

/-- A command, or a refusal. -/
def Decides : Plan → Prop
  | .command _ => True
  | .answer response => response.status = 400
  | .identity _ => False

theorem decides_ofCommand {x : Except Error Command} (h : Refuses x) : (ofCommand x).Decides := by
  cases x with
  | ok c => trivial
  | error e => exact h e rfl

theorem decides_withKey {octets : List UInt8} {plan : Key → Plan}
    (h : ∀ key, (plan key).Decides) : (withKey s octets plan).Decides := by
  unfold withKey
  split
  · exact h _
  · rfl

theorem decides_ofAction {route : Route} {method : String} {action : Action}
    (hroute : route = .records ∨ ∃ octets, route = .record octets)
    (h : route.action? method = some action) (now : String) (r : Request) :
    (ofAction s now r action).Decides := by
  cases action with
  | health => rcases hroute with rfl | ⟨octets, rfl⟩ <;> simp only [Route.action?] at h <;> grind
  | scan => exact decides_ofCommand (refuses_filter s _).map
  | create => exact decides_ofCommand (refuses_create s now r)
  | get octets =>
    rw [ofAction]
    exact decides_withKey fun _ => trivial
  | update octets =>
    rw [ofAction]
    exact decides_withKey fun key => decides_ofCommand (refuses_update s r key)
  | delete octets =>
    rw [ofAction]
    exact decides_withKey fun _ => trivial
  | identity operation =>
    rcases hroute with rfl | ⟨octets, rfl⟩ <;> simp only [Route.action?] at h <;> grind

end Plan

/-- A request for records that is for no command is refused: for its method, or for what it says. -/
theorem serve_refused {σ : Type} {now : String} {provider : Identity.Provider}
    {run : Command → Outcome × σ} {idle : σ} {r : Request} {route : Route}
    (hroute : r.route? = some route)
    (hrecords : route = .records ∨ ∃ octets, route = .record octets)
    (hnone : ∀ c, ¬r.Asks s now c) : (serve s now provider run idle r).response.status =
      if (route.action? r.method).isSome then 400 else 405 := by
  have hpath : Route.ofPath? (Target.ofText r.target).path = some route := hroute
  simp only [serve, hpath]
  cases haction : route.action? r.method with
  | none => rfl
  | some action =>
    have hdecides := Plan.decides_ofAction (s := s) hrecords haction now r
    cases hplan : Plan.ofAction s now r action with
    | answer response =>
      rw [hplan] at hdecides
      simp only [hplan, Response.status_forMethod]
      exact hdecides
    | command c =>
      refine absurd (Request.asks_of_command? ?_) (hnone c)
      exact Request.command?_eq_some.2 ⟨route, action, hroute, haction, hplan⟩
    | identity request =>
      rw [hplan] at hdecides
      exact hdecides.elim

/-- A request for records is for a command, if it is answered with 200. -/
theorem Request.IsForRecords.asks {a : Arrival} (h : a.request.IsForRecords)
    (hstatus : (a.served s m).response.status = 200) : ∃ c, a.request.Asks s a.now c := by
  by_contra hnone
  have hnone : ∀ c, ¬a.request.Asks s a.now c := fun c hc => hnone ⟨c, hc⟩
  obtain ⟨route, hroute, hrecords⟩ : ∃ route, a.request.route? = some route ∧
      (route = .records ∨ ∃ octets, route = .record octets) := by
    rcases h with h | ⟨octets, h⟩
    · exact ⟨_, h, .inl rfl⟩
    · exact ⟨_, h, .inr ⟨octets, rfl⟩⟩
  have hrefused := (serve_refused hroute hrecords hnone).symm.trans hstatus
  split at hrefused <;> cases hrefused

namespace Request

variable {now : String} {r : Request} {c : Command}

theorem isForRecords_of_writtenKey? (h : r.writtenKey? s = some k) : r.IsForRecords := by
  unfold writtenKey? at h
  split at h
  · next hroute => exact .inl hroute
  · next octets hroute => exact .inr ⟨octets, hroute⟩
  · cases h

/-- All that a `POST` can be for is to create the record in its body. -/
theorem Asks.exists_create (h : r.Asks s now c) (hmethod : r.method = "POST") :
    ∃ body record, r.value = .ok body ∧ Record.ofBody s.keyAttribute body = .ok record ∧
      r.writtenKey? s = some record.key.value ∧ c = .create (Plan.stamped s now record) := by
  have hread : Route.isReading r.method = false := by rw [hmethod]; rfl
  obtain ⟨k, hk, hsubject⟩ := h.writtenKey? hread
  cases h with
  | @create body record _ _ hbody hrecord =>
    have hkey : (Plan.stamped s now record).key.value = k := Option.some.inj hsubject
    rw [Plan.stamped_key] at hkey
    exact ⟨body, record, hbody, hrecord, hkey ▸ hk, rfl⟩
  | scan _ hreading => rw [hread] at hreading; cases hreading
  | get _ hreading => rw [hread] at hreading; cases hreading
  | update _ hput => rw [hmethod] at hput; exact absurd hput (by decide)
  | delete _ hdelete => rw [hmethod] at hdelete; exact absurd hdelete (by decide)

/-- All that a `PUT` can be for is to set what its body says in the record of its path. -/
theorem Asks.exists_update (h : r.Asks s now c) (hmethod : r.method = "PUT") :
    ∃ octets k body attributes u, r.route? = some (.record octets) ∧
      Plan.keyText? octets = some k ∧ r.value = .ok body ∧
      Attributes.ofBody body = .ok attributes ∧
      Expression.Update.compile ⟨s.keyAttribute, k⟩ s.createdAt.toList attributes = .ok u ∧
      c = .update u := by
  have hread : Route.isReading r.method = false := by rw [hmethod]; rfl
  cases h with
  | update hroute _ hk hbody hattributes hu =>
    exact ⟨_, _, _, _, _, hroute, hk, hbody, hattributes, hu, rfl⟩
  | scan _ hreading => rw [hread] at hreading; cases hreading
  | get _ hreading => rw [hread] at hreading; cases hreading
  | create _ hpost => rw [hmethod] at hpost; exact absurd hpost (by decide)
  | delete _ hdelete => rw [hmethod] at hdelete; exact absurd hdelete (by decide)

/-- All that reading the records can be for is to list them. -/
theorem Asks.exists_scan (h : r.Asks s now c) (hroute : r.route? = some .records)
    (hread : Route.isReading r.method = true) :
    ∃ filter, Plan.filter s r.parameters = .ok filter ∧ c = .scan filter := by
  cases h with
  | scan _ _ hfilter => exact ⟨_, hfilter, rfl⟩
  | create _ hpost => rw [hpost] at hread; cases hread
  | get hother => rw [hroute] at hother; cases hother
  | update hother => rw [hroute] at hother; cases hother
  | delete hother => rw [hroute] at hother; cases hother

end Request

namespace Arrival

variable {a : Arrival}

/-- A record is created by the requests that are for a command to create it. -/
theorem creates_iff : a.Creates s k m ↔
    ∃ c attributes, a.command? s = some c ∧ c.created? k = some attributes := by
  constructor
  · rintro ⟨hmethod, hkey, hstatus⟩
    obtain ⟨c, hc⟩ := (Request.isForRecords_of_writtenKey? hkey).asks hstatus
    obtain ⟨body, record, -, -, hwritten, rfl⟩ := hc.exists_create hmethod
    refine ⟨_, _, Request.command?_of_asks hc, Command.created?_eq_some.2 ⟨_, rfl, ?_, rfl⟩⟩
    rw [Plan.stamped_key]
    exact Option.some.inj (hwritten.symm.trans hkey)
  · rintro ⟨c, attributes, hcommand, hcreated⟩
    obtain ⟨record, rfl, hk, -⟩ := Command.created?_eq_some.1 hcreated
    have hasks := Request.asks_of_command? hcommand
    have hmethod : a.request.method = "POST" := by cases hasks; assumption
    obtain ⟨body, sent, -, -, hwritten, hrecord⟩ := hasks.exists_create hmethod
    cases hrecord
    rw [Plan.stamped_key] at hk
    refine ⟨hmethod, hk ▸ hwritten, ?_⟩
    rw [served, serveMemory, serve_command hasks, Response.status_forMethod,
      Response.status_ofOutcome]
    exact ⟨_, rfl⟩

end Arrival

/-! ## One after another -/

@[simp] theorem reached_cons (m : Memory) (a : Arrival) (arrivals : List Arrival) :
    reached s m (a :: arrivals) = reached s (a.served s m).store arrivals := rfl

/-- The store after requests is the store after their commands. -/
theorem reached_eq_after (m : Memory) (arrivals : List Arrival) :
    reached s m arrivals = m.after (arrivals.filterMap (Arrival.command? s)) := by
  induction arrivals generalizing m with
  | nil => rfl
  | cons a arrivals ih =>
    rw [reached_cons, ih, Arrival.store_served]
    cases hc : a.command? s with
    | none => rw [List.filterMap_cons_none hc]
    | some c => rw [List.filterMap_cons_some hc, Memory.after_cons]

theorem keyAttribute_reached (m : Memory) (arrivals : List Arrival) :
    (reached s m arrivals).keyAttribute = m.keyAttribute := by
  rw [reached_eq_after, Memory.keyAttribute_after]

/-- Nothing of the kind happens in a run: no request is so over the store it finds. -/
def Never (s : Settings) (p : Memory → Arrival → Prop) (m : Memory) : List Arrival → Prop
  | [] => True
  | a :: arrivals => ¬p m a ∧ Never s p (a.served s m).store arrivals

instance Never.decidable (p : Memory → Arrival → Prop) [∀ m a, Decidable (p m a)] (m : Memory) :
    (arrivals : List Arrival) → Decidable (Never s p m arrivals)
  | [] => isTrue trivial
  | a :: arrivals =>
    have := Never.decidable p (a.served s m).store arrivals
    inferInstanceAs (Decidable (¬p m a ∧ Never s p (a.served s m).store arrivals))

/-- A record that no request of a run writes with success stays as it is. -/
theorem find?_reached {arrivals : List Arrival} (h : Never s (Arrival.Writes s k) m arrivals) :
    find? k (reached s m arrivals).records = find? k m.records := by
  induction arrivals generalizing m with
  | nil => rfl
  | cons a arrivals ih =>
    obtain ⟨ha, h⟩ := h
    rw [reached_cons, ih h, Arrival.find?_served ha]

/-- Whether a record is created does not depend on the store. -/
theorem never_creates_iff {arrivals : List Arrival} : Never s (Arrival.Creates s k) m arrivals ↔
    ∀ c ∈ arrivals.filterMap (Arrival.command? s), c.created? k = none := by
  induction arrivals generalizing m with
  | nil => simp [Never]
  | cons a arrivals ih =>
    rw [Never, ih, Arrival.creates_iff]
    cases hc : a.command? s with
    | none => simp [hc]
    | some c => simp [hc, Option.eq_none_iff_forall_ne_some]

end RecordService.Http
