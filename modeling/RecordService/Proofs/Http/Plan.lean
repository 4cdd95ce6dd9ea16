import RecordService.Http.Plan
import RecordService.Proofs.Expression.Compile
import RecordService.Proofs.Json.Reader
import RecordService.Proofs.Store.Sound
/-!
# What is planned for the store

Bodies are read, made into records and compiled into updates with the checks that soundness needs,
and the settings keep the time of creation apart from the key. So whatever comes in, the commands
that are planned for requests are sound.
-/

namespace RecordService.Http

open Entries Store

theorem problem?_of_validate {s : Settings} (h : s.validate = .ok ()) : s.problem? = none := by
  unfold Settings.validate at h
  split at h
  · assumption
  · cases h

/-- Settings that were accepted name a key attribute, give no other attribute an empty name, and do
not stamp the key attribute. -/
theorem accepted_settings {s : Settings} (h : s.validate = .ok ()) :
    s.keyAttribute ≠ "" ∧ s.defaultFilter ≠ some "" ∧ s.createdAt ≠ some "" ∧
      s.createdAt ≠ some s.keyAttribute := by
  have h := problem?_of_validate h
  unfold Settings.problem? at h
  grind

namespace Request

variable {r : Request}

theorem jsonBody_ok_iff {octets : List UInt8} : r.jsonBody = .ok octets ↔
    r.contentType.any MediaType.isJson = true ∧ r.body.length ≤ bodyLimit ∧ octets = r.body := by
  unfold jsonBody
  by_cases hkind : r.contentType.any MediaType.isJson = true
  · by_cases hlength : bodyLimit < r.body.length
    · simp [hkind, hlength, Nat.not_le.2 hlength]
    · simp [hkind, hlength, Nat.not_lt.1 hlength, eq_comm]
  · simp [hkind]

theorem value_ok_iff {v : Value} : r.value = .ok v ↔
    r.contentType.any MediaType.isJson = true ∧ r.body.length ≤ bodyLimit ∧
      Json.readFirst r.body = .ok v := by
  rw [value, bind_eq_ok]
  constructor
  · rintro ⟨octets, hbody, h⟩
    obtain ⟨hkind, hlength, rfl⟩ := jsonBody_ok_iff.1 hbody
    split at h
    · next hread =>
      cases h
      exact ⟨hkind, hlength, hread⟩
    · cases h
  · rintro ⟨hkind, hlength, hread⟩
    refine ⟨r.body, jsonBody_ok_iff.2 ⟨hkind, hlength, rfl⟩, ?_⟩
    rw [hread]
    rfl

end Request

namespace Plan

variable {s : Settings} {now : String} {r : Request}

theorem value_distinct {v : Value} (h : r.value = .ok v) : v.Distinct := by
  obtain ⟨-, -, hread⟩ := Request.value_ok_iff.1 h
  exact (Json.readFirst_sound hread).distinct

/-- A command fits the settings: it is sound, and its key is named as they say. -/
def Fits (s : Settings) (c : Command) : Prop :=
  c.Sound s.keyAttribute Value.Distinct ∧ ∀ key, c.key? = some key → key.name = s.keyAttribute

theorem stamped_key (record : Record) : (stamped s now record).key = record.key := by
  unfold stamped
  split <;> rfl

theorem stamped_sound (hs : s.problem? = none) {record : Record}
    (h : Attributes.Sound s.keyAttribute Value.Distinct record.attributes) :
    Attributes.Sound s.keyAttribute Value.Distinct (stamped s now record).attributes := by
  unfold stamped
  split
  · next name hname =>
    have hne : name ≠ "" ∧ name ≠ s.keyAttribute := by
      unfold Settings.problem? at hs
      grind
    exact h.put hne.1 hne.2 (Value.eachMap_string now)
  · exact h

theorem create_fits (hs : s.problem? = none) {c : Command} (h : create s now r = .ok c) :
    Fits s c := by
  obtain ⟨v, hv, h⟩ := bind_eq_ok.1 h
  obtain ⟨record, hrecord, h⟩ := bind_eq_ok.1 h
  cases h
  obtain ⟨members, -, rfl, -⟩ := Record.ofBody_ok hrecord
  obtain ⟨hnodup, hvalues⟩ := Value.eachMap_map.1 (value_distinct hv)
  obtain ⟨hname, hk, hsound⟩ := Record.ofBody_sound hnodup hvalues hrecord
  refine ⟨⟨by rwa [stamped_key], stamped_sound hs hsound⟩, ?_⟩
  rintro key ⟨⟩
  rwa [stamped_key]

theorem update_fits {value : String} {c : Command}
    (h : update s r ⟨s.keyAttribute, value⟩ = .ok c) : Fits s c := by
  obtain ⟨v, hv, h⟩ := bind_eq_ok.1 h
  obtain ⟨body, hbody, h⟩ := bind_eq_ok.1 h
  obtain ⟨u, hu, h⟩ := bind_eq_ok.1 h
  cases h
  obtain ⟨rfl, -⟩ := Attributes.ofBody_ok hbody
  have hvalues := (Value.eachMap_map.1 (value_distinct hv)).2
  obtain ⟨rfl, hgood, -⟩ := Expression.Update.compile_ok hu
  constructor
  · rw [Command.Sound, Expression.Update.setting_assignments]
    exact ⟨hgood, fun e he => hvalues e (mem_erase.1 he).1⟩
  · rintro key ⟨⟩
    rfl

/-- A command that fits, or a refusal. -/
def Sound (s : Settings) : Plan → Prop
  | .command c => Fits s c
  | .answer response => response.status ≠ 200
  | .identity _ => False

theorem status_ofError (e : Error) : (Response.ofError e).status ≠ 200 := by
  unfold Response.ofError Response.json Error.status
  split <;> simp

theorem ofCommand_sound {x : Except Error Command} (h : ∀ c, x = .ok c → Fits s c) :
    (ofCommand x).Sound s := by
  cases x with
  | error e => exact status_ofError e
  | ok c => exact h c rfl

theorem withKey_sound {octets : List UInt8} {plan : Key → Plan}
    (h : ∀ value, (plan ⟨s.keyAttribute, value⟩).Sound s) : (withKey s octets plan).Sound s := by
  unfold withKey
  split
  · exact h _
  · simp [Sound, Response.badPathKey]

/-- For records, a command that fits is planned or the request is refused; for anything else, no
command is planned. -/
theorem ofAction_sound (hs : s.problem? = none) (now : String) (r : Request) (action : Action) :
    (ofAction s now r action).Sound s ∨
      (action = .health ∨ ∃ operation, action = .identity operation) ∧
        ∀ c, ofAction s now r action ≠ .command c := by
  cases action with
  | health => exact .inr ⟨.inl rfl, fun c h => by cases h⟩
  | scan =>
    refine .inl (ofCommand_sound fun c h => ?_)
    obtain ⟨filter, -, rfl⟩ := map_eq_ok.1 h
    exact ⟨trivial, by rintro key ⟨⟩⟩
  | create => exact .inl (ofCommand_sound fun c h => create_fits hs h)
  | get octets =>
    left
    rw [ofAction]
    exact withKey_sound fun value => ⟨trivial, by rintro key ⟨⟩; rfl⟩
  | update octets =>
    left
    rw [ofAction]
    exact withKey_sound fun value => ofCommand_sound fun c h => update_fits h
  | delete octets =>
    left
    rw [ofAction]
    exact withKey_sound fun value => ⟨trivial, by rintro key ⟨⟩; rfl⟩
  | identity operation =>
    refine .inr ⟨.inr ⟨operation, rfl⟩, fun c h => ?_⟩
    simp only [ofAction] at h
    split at h <;> cases h

end Plan

end RecordService.Http
