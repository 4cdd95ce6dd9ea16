import RecordService.Proofs.Except
import RecordService.Http.Service
/-!
# What a request asks of the store

A request is for at most one store command, and which one it is depends on the settings, the time
and the request alone. `command?_eq_some_iff` says for each command which requests are for it. What
the service does follows from the command: `serve_command` and `serve_idle`.
-/

namespace RecordService.Http

open Store
open Identity (Provider)

/-! ## Plans -/

namespace Plan

variable {s : Settings} {now : String} {r : Request} {c : Command}

theorem ofCommand_eq_command {x : Except Error Command} :
    ofCommand x = .command c ↔ x = .ok c := by
  cases x <;> simp [ofCommand]

theorem withKey_eq_command {octets : List UInt8} {plan : Key → Plan} :
    withKey s octets plan = .command c ↔
      ∃ k, keyText? octets = some k ∧ plan ⟨s.keyAttribute, k⟩ = .command c := by
  unfold withKey
  cases keyText? octets <;> simp

theorem create_eq_ok : create s now r = .ok c ↔ ∃ body record, r.value = .ok body ∧
    Record.ofBody s.keyAttribute body = .ok record ∧ c = .create (stamped s now record) := by
  simp only [create, bind_eq_ok, pure, Except.pure, Except.ok.injEq]
  constructor
  · rintro ⟨body, hbody, record, hrecord, rfl⟩
    exact ⟨body, record, hbody, hrecord, rfl⟩
  · rintro ⟨body, record, hbody, hrecord, rfl⟩
    exact ⟨body, hbody, record, hrecord, rfl⟩

theorem update_eq_ok {key : Key} : update s r key = .ok c ↔ ∃ body attributes u,
    r.value = .ok body ∧ Attributes.ofBody body = .ok attributes ∧
      Expression.Update.compile key s.createdAt.toList attributes = .ok u ∧ c = .update u := by
  simp only [update, bind_eq_ok, pure, Except.pure, Except.ok.injEq]
  constructor
  · rintro ⟨body, hbody, attributes, hattributes, u, hu, rfl⟩
    exact ⟨body, attributes, u, hbody, hattributes, hu, rfl⟩
  · rintro ⟨body, attributes, u, hbody, hattributes, hu, rfl⟩
    exact ⟨body, hbody, attributes, hattributes, u, hu, rfl⟩

end Plan

/-! ## Requests -/

namespace Request

variable {s : Settings} {now : String} {r : Request} {c : Command}

def route? (r : Request) : Option Route :=
  Route.ofPath? (Target.ofText r.target).path

def parameters (r : Request) : List (String × String) :=
  (Target.ofText r.target).parameters

/-- The command that is planned for a request. -/
def command? (s : Settings) (now : String) (r : Request) : Option Command := do
  let route ← r.route?
  let action ← route.action? r.method
  match Plan.ofAction s now r action with
  | .command c => some c
  | _ => none

/-- The requests that are for a command. -/
inductive Asks (s : Settings) (now : String) (r : Request) : Command → Prop
  | scan {filter} : r.route? = some .records → Route.isReading r.method = true →
      Plan.filter s r.parameters = .ok filter → Asks s now r (.scan filter)
  | create {body record} : r.route? = some .records → r.method = "POST" → r.value = .ok body →
      Record.ofBody s.keyAttribute body = .ok record →
      Asks s now r (.create (Plan.stamped s now record))
  | get {octets k} : r.route? = some (.record octets) → Route.isReading r.method = true →
      Plan.keyText? octets = some k → Asks s now r (.get ⟨s.keyAttribute, k⟩)
  | update {octets k body attributes u} : r.route? = some (.record octets) → r.method = "PUT" →
      Plan.keyText? octets = some k → r.value = .ok body → Attributes.ofBody body = .ok attributes →
      Expression.Update.compile ⟨s.keyAttribute, k⟩ s.createdAt.toList attributes = .ok u →
      Asks s now r (.update u)
  | delete {octets k} : r.route? = some (.record octets) → r.method = "DELETE" →
      Plan.keyText? octets = some k → Asks s now r (.delete ⟨s.keyAttribute, k⟩)

theorem command?_eq_some : r.command? s now = some c ↔ ∃ route action, r.route? = some route ∧
    route.action? r.method = some action ∧ Plan.ofAction s now r action = .command c := by
  unfold command?
  simp only [Option.bind_eq_bind, Option.bind_eq_some_iff]
  refine exists_congr fun route => ?_
  constructor
  · rintro ⟨hroute, action, haction, hplan⟩
    refine ⟨action, hroute, haction, ?_⟩
    split at hplan
    · next hc => cases hplan; exact hc
    · cases hplan
  · rintro ⟨action, hroute, haction, hplan⟩
    exact ⟨hroute, action, haction, by rw [hplan]⟩

theorem asks_of_command? (h : r.command? s now = some c) : r.Asks s now c := by
  obtain ⟨route, action, hroute, haction, hplan⟩ := command?_eq_some.1 h
  -- By the route and then by the method, as the actions are found.
  cases route with
  | health =>
    simp only [Route.action?] at haction
    split at haction
    · cases haction; cases hplan
    · cases haction
  | records =>
    simp only [Route.action?] at haction
    split at haction
    · next hread =>
      cases haction
      obtain ⟨filter, hfilter, rfl⟩ := map_eq_ok.1 (Plan.ofCommand_eq_command.1 hplan)
      exact .scan hroute hread hfilter
    · split at haction
      · next hpost =>
        cases haction
        obtain ⟨body, record, hbody, hrecord, rfl⟩ :=
          Plan.create_eq_ok.1 (Plan.ofCommand_eq_command.1 hplan)
        exact .create hroute hpost hbody hrecord
      · cases haction
  | record octets =>
    simp only [Route.action?] at haction
    split at haction
    · next hread =>
      cases haction
      rw [Plan.ofAction, Plan.withKey_eq_command] at hplan
      obtain ⟨k, hk, hplan⟩ := hplan
      cases hplan
      exact .get hroute hread hk
    · split at haction
      · next hput =>
        cases haction
        rw [Plan.ofAction, Plan.withKey_eq_command] at hplan
        obtain ⟨k, hk, hplan⟩ := hplan
        obtain ⟨body, attributes, u, hbody, hattributes, hu, rfl⟩ :=
          Plan.update_eq_ok.1 (Plan.ofCommand_eq_command.1 hplan)
        exact .update hroute hput hk hbody hattributes hu
      · split at haction
        · next hdelete =>
          cases haction
          rw [Plan.ofAction, Plan.withKey_eq_command] at hplan
          obtain ⟨k, hk, hplan⟩ := hplan
          cases hplan
          exact .delete hroute hdelete hk
        · cases haction
  | identity operation =>
    simp only [Route.action?] at haction
    split at haction
    · cases haction
      simp only [Plan.ofAction] at hplan
      split at hplan <;> cases hplan
    · cases haction

theorem command?_of_asks (h : r.Asks s now c) : r.command? s now = some c := by
  rw [command?_eq_some]
  cases h with
  | scan hroute hread hfilter =>
    refine ⟨_, .scan, hroute, by simp [Route.action?, hread], ?_⟩
    exact Plan.ofCommand_eq_command.2 (map_eq_ok.2 ⟨_, hfilter, rfl⟩)
  | create hroute hpost hbody hrecord =>
    refine ⟨_, .create, hroute, by rw [hpost]; rfl, ?_⟩
    exact Plan.ofCommand_eq_command.2 (Plan.create_eq_ok.2 ⟨_, _, hbody, hrecord, rfl⟩)
  | @get octets k hroute hread hk =>
    refine ⟨_, .get octets, hroute, by simp [Route.action?, hread], ?_⟩
    rw [Plan.ofAction, Plan.withKey_eq_command]
    exact ⟨k, hk, rfl⟩
  | @update octets k _ _ _ hroute hput hk hbody hattributes hu =>
    refine ⟨_, .update octets, hroute, by rw [hput]; rfl, ?_⟩
    rw [Plan.ofAction, Plan.withKey_eq_command]
    refine ⟨k, hk, ?_⟩
    exact Plan.ofCommand_eq_command.2 (Plan.update_eq_ok.2 ⟨_, _, _, hbody, hattributes, hu, rfl⟩)
  | @delete octets k hroute hdelete hk =>
    refine ⟨_, .delete octets, hroute, by rw [hdelete]; rfl, ?_⟩
    rw [Plan.ofAction, Plan.withKey_eq_command]
    exact ⟨k, hk, rfl⟩

end Request

/-! ## The service -/

section Serve
variable {σ : Type} {s : Settings} {now : String} {provider : Provider}
  {run : Command → Outcome × σ} {idle : σ} {r : Request}

/-- A request for a command is answered by what the command comes to. -/
theorem serve_command {c : Command} (h : r.Asks s now c) : serve s now provider run idle r
    = ⟨(Response.ofOutcome s c (run c).1).forMethod r.method, [], (run c).2⟩ := by
  obtain ⟨route, action, hroute, haction, hplan⟩ :=
    Request.command?_eq_some.1 (Request.command?_of_asks h)
  unfold Request.route? at hroute
  simp only [serve, hroute, haction, hplan]

/-- Any other request leaves the store alone. -/
theorem serve_idle (h : ∀ c, ¬r.Asks s now c) : (serve s now provider run idle r).store = idle := by
  unfold serve
  split
  · rfl
  · next route hroute =>
    split
    · rfl
    · next action haction =>
      split
      · rfl
      · next c hplan =>
        have hc := Request.command?_eq_some.2 ⟨route, action, hroute, haction, hplan⟩
        exact absurd (Request.asks_of_command? hc) (h c)
      · rfl

end Serve

end RecordService.Http
