import RecordService.Http.Service
import RecordService.Proofs.Http.Plan
import RecordService.Proofs.Json.Printer
/-!
# What the service stores and shows

Whatever requests come in, the service gives only sound commands to its store. So each store that is
reached is sound, and each record that is shown is an object with its key first, in which no name is
repeated.
-/

namespace RecordService.Http

open Entries Store
open Identity (Provider)

/-! ## Responses -/

/-- An object with the key first, also in its text, in which no name is repeated at any depth. -/
structure IsRecordObject (keyName : String) (v : Value) : Prop where
  keyFirst : ∃ k rest, v = .map ((keyName, .string k) :: rest) ∧
    v.chars = '\x7b' :: [','].intercalate
      (Value.memberChars (keyName, .string k) :: rest.map Value.memberChars) ++ ['\x7d']
  distinct : v.Distinct

namespace Response

variable {s : Settings}

theorem shown_sound {r : Record} (hkey : r.key.name = s.keyAttribute)
    (h : Attributes.Sound s.keyAttribute Value.Distinct r.attributes) :
    IsRecordObject s.keyAttribute (shown s r) := by
  have hshown : ∃ rest, rest.Sublist r.attributes ∧
      shown s r = .map ((s.keyAttribute, .string r.key.value) :: rest) := by
    unfold shown Record.project Record.toValue
    split
    · exact ⟨r.attributes, List.Sublist.refl _, by rw [hkey]⟩
    · exact ⟨_, List.filter_sublist, by rw [hkey]⟩
  obtain ⟨rest, hsub, hshown⟩ := hshown
  have hrest := h.sublist hsub
  rw [hshown]
  refine ⟨⟨_, rest, rfl, Value.chars_map _⟩, ?_⟩
  refine Value.eachMap_map.2 ⟨List.nodup_cons.2 ⟨hrest.keyless, hrest.nodup⟩, ?_⟩
  exact List.forall_mem_cons.2 ⟨Value.eachMap_string _, hrest.values⟩

theorem status_forMethod (method : String) (r : Response) :
    (r.forMethod method).status = r.status := by
  unfold forMethod
  split <;> rfl

end Response

/-! ## Requests -/

/-- The request is for records, or for one of them. -/
def Request.IsForRecords (r : Request) : Prop :=
  Route.ofPath? (Target.ofText r.target).path = some .records ∨
    ∃ key, Route.ofPath? (Target.ofText r.target).path = some (.record key)

/-- A request is answered by what one command that fits came to, or without the store. -/
theorem serveMemory_cases {s : Settings} (hs : s.problem? = none) (now : String)
    (provider : Provider) (m : Memory) (r : Request) :
    let served := serveMemory s now provider m r
    (∃ c : Command, Plan.Fits s c ∧ served.store = (m.run c).2 ∧
      served.response = (Response.ofOutcome s c (m.run c).1).forMethod r.method) ∨
    (served.store = m ∧ (r.IsForRecords → served.response.status ≠ 200)) := by
  intro served
  simp only [served, serveMemory, serve]
  split
  · next hroute =>
    refine .inr ⟨rfl, fun hr => ?_⟩
    simp [Request.IsForRecords, hroute] at hr
  · next route hroute =>
    split
    · exact .inr ⟨rfl, fun _ => by simp [Response.methodRefused]⟩
    · next action haction =>
      rcases Plan.ofAction_sound hs now r action with hsound | ⟨hother, hnone⟩
      · cases hplan : Plan.ofAction s now r action with
        | answer response =>
          rw [hplan] at hsound
          exact .inr ⟨rfl, fun _ => by rwa [Response.status_forMethod]⟩
        | command c => rw [hplan] at hsound; exact .inl ⟨c, hsound, rfl, rfl⟩
        | identity request => rw [hplan] at hsound; exact hsound.elim
      · -- What is not for records may be answered in any way, but leaves the store alone.
        have hr : ¬ r.IsForRecords := by
          simp only [Request.IsForRecords, hroute, Option.some.injEq]
          rintro (rfl | ⟨key, rfl⟩) <;> simp only [Route.action?] at haction <;> grind
        cases hplan : Plan.ofAction s now r action with
        | answer response => exact .inr ⟨rfl, fun h => absurd h hr⟩
        | command c => exact absurd hplan (hnone c)
        | identity request => exact .inr ⟨rfl, fun h => absurd h hr⟩

/-! ## Runs -/

/-- A request as it comes in: when, and with the identity provider as it is then. -/
structure Arrival where
  now : String
  provider : Provider
  request : Request

/-- The store after requests that came in one after another. -/
def reached (s : Settings) (m : Memory) (arrivals : List Arrival) : Memory :=
  arrivals.foldl (fun m a => (serveMemory s a.now a.provider m a.request).store) m

theorem serveMemory_sound {s : Settings} (hs : s.problem? = none) {m : Memory}
    (hm : m.Sound Value.Distinct)
    (hK : m.keyAttribute = s.keyAttribute) (a : Arrival) :
    (serveMemory s a.now a.provider m a.request).store.Sound Value.Distinct ∧
      (serveMemory s a.now a.provider m a.request).store.keyAttribute = s.keyAttribute := by
  rcases serveMemory_cases hs a.now a.provider m a.request with ⟨c, hc, hstore, -⟩ | ⟨hstore, -⟩
  · rw [hstore, Memory.keyAttribute_run]
    exact ⟨hm.run (hK ▸ hc.1), hK⟩
  · rw [hstore]
    exact ⟨hm, hK⟩

theorem reached_sound {s : Settings} (hs : s.problem? = none) {m : Memory}
    (hm : m.Sound Value.Distinct)
    (hK : m.keyAttribute = s.keyAttribute) (arrivals : List Arrival) :
    (reached s m arrivals).Sound Value.Distinct ∧
      (reached s m arrivals).keyAttribute = s.keyAttribute := by
  induction arrivals generalizing m with
  | nil => exact ⟨hm, hK⟩
  | cons a arrivals ih =>
    obtain ⟨hm, hK⟩ := serveMemory_sound hs hm hK a
    exact ih hm hK

end RecordService.Http
