import RecordService.Proofs.Http.Run
import RecordService.Proofs.Store.History
/-!
# The time of creation

If the settings name an attribute for it, each record carries the time of the request that created
it last. A creation writes the time over what the body says, and an update may not write it at all;
so nothing that clients send can forge it or take it away.
-/

namespace RecordService.Http

open Entries Store

variable {s : Settings} {name : String}

theorem createdAt_ne_keyAttribute (hs : s.validate = .ok ()) (hname : s.createdAt = some name) :
    name ≠ s.keyAttribute := by
  rintro rfl
  exact (accepted_settings hs).2.2.2 hname

namespace Request.Asks

variable {now : String} {r : Request}

/-- A record is created with the time at which the request came in. -/
theorem stamp {c : Command} {k : String} {attributes : Attributes} (h : r.Asks s now c)
    (hname : s.createdAt = some name) (hc : c.created? k = some attributes) :
    find? name attributes = some (.string now) := by
  obtain ⟨record, rfl, -, rfl⟩ := Command.created?_eq_some.1 hc
  cases h with
  | create => rw [Plan.stamped, hname, find?_put, if_pos rfl]

/-- No update sets the time of creation. -/
theorem unstamped {u : Expression.Update} (h : r.Asks s now (.update u))
    (hname : s.createdAt = some name) : u.IsCompiled ∧ name ∉ names u.assignments := by
  cases h with
  | update _ _ _ _ _ hu =>
    obtain ⟨hsetting, -, -, hreadOnly, -⟩ := Expression.Update.compile_ok hu
    subst hsetting
    refine ⟨⟨_, _, hu⟩, fun hmem => ?_⟩
    rw [Expression.Update.setting_assignments] at hmem
    exact hreadOnly name hmem (by simp [hname])

end Request.Asks

/-- A last creation among the commands of requests is that of a request. -/
theorem exists_created {arrivals : List Arrival} {k : String} {attributes : Attributes}
    {later : List Command}
    (h : LastCreate k (arrivals.filterMap (Arrival.command? s)) attributes later) (m : Memory) :
    ∃ before created rest, arrivals = before ++ created :: rest ∧
      created.Creates s k (reached s m before) ∧
      Never s (Arrival.Creates s k) (reached s m (before ++ [created])) rest ∧
      ∃ c, created.command? s = some c ∧ c.created? k = some attributes := by
  obtain ⟨before, c, hcommands, hc, hlater⟩ := h
  obtain ⟨first, others, rfl, -, hothers⟩ := List.filterMap_eq_append_iff.1 hcommands
  obtain ⟨idle, created, rest, rfl, -, hcreated, rfl⟩ := List.filterMap_eq_cons_iff.1 hothers
  refine ⟨first ++ idle, created, rest, by simp, ?_, never_creates_iff.2 hlater, c, hcreated, hc⟩
  exact Arrival.creates_iff.2 ⟨c, attributes, hcreated, hc⟩

/-- With settings that were accepted, every record of a store that was reached from the empty one
has its time of creation: that of the last request that created it with success. -/
theorem creation_stamp_kept (hs : s.validate = .ok ()) (hname : s.createdAt = some name)
    (arrivals : List Arrival) :
    let m := Memory.empty s.keyAttribute
    ∀ r ∈ (reached s m arrivals).toList, ∃ before created later,
      arrivals = before ++ created :: later ∧
      created.Creates s r.key.value (reached s m before) ∧
      Never s (Arrival.Creates s r.key.value) (reached s m (before ++ [created])) later ∧
      r.get? name = some (.string created.now) := by
  intro m r hr
  obtain ⟨e, he, rfl⟩ := List.mem_map.1 hr
  have hupdates : ∀ u, .update u ∈ arrivals.filterMap (Arrival.command? s) →
      u.IsCompiled ∧ name ∉ names u.assignments := by
    intro u hu
    obtain ⟨a, -, ha⟩ := List.mem_filterMap.1 hu
    exact (Request.asks_of_command? ha).unstamped hname
  have hreached := reached_eq_after (s := s) m arrivals
  have hnodup : (names (reached s m arrivals).records).Nodup := by
    rw [hreached]
    exact Memory.nodup_after (m := m) List.nodup_nil _
  have hfind := find?_of_mem hnodup he
  rw [hreached] at hfind
  obtain ⟨attributes, later, hlast, hvalue⟩ := Memory.find?_unset hupdates hfind
  obtain ⟨before, created, rest, harrivals, hcreates, hnever, c, hcommand, hcreated⟩ :=
    exists_created hlast m
  refine ⟨before, created, rest, harrivals, hcreates, hnever, ?_⟩
  have hne : name ≠ ((reached s m arrivals).record e).key.name := by
    rw [Memory.record, hreached, Memory.keyAttribute_after]
    exact createdAt_ne_keyAttribute hs hname
  rw [Record.get?, if_neg hne]
  exact hvalue.trans ((Request.asks_of_command? hcommand).stamp hname hcreated)

/-- A body that brings its own time, an update that brings another, and a second creation. -/
theorem creation_stamp_kept_recreated :
    let s := { Settings.ofNames "records" "client" "pool" with createdAt := some "at" }
    let arrival (now method target body : String) : Arrival :=
      ⟨now, fun _ => .ok ⟨200, .null⟩,
        ⟨method, target, some "application/json", body.toUTF8.toList⟩⟩
    let arrivals := [
      arrival "08:00" "POST" "/records" "\x7b\"userId\":\"k\",\"at\":\"00:00\"\x7d",
      arrival "09:00" "POST" "/records" "\x7b\"userId\":\"k\"\x7d",
      arrival "10:00" "PUT" "/records/k" "\x7b\"at\":\"00:00\"\x7d"]
    let m := reached s (Memory.empty "userId") arrivals
    m.toList.map (fun r => r.key.value) = ["k"] ∧
      ∀ r ∈ m.toList, r.get? "at" = some (.string "09:00") := by
  intro s arrival arrivals m
  have hkeys : m.toList.map (fun r => r.key.value) = ["k"] := by decide +kernel
  refine ⟨hkeys, fun r hr => ?_⟩
  obtain ⟨before, created, later, harrivals, hcreates, hnever, hstamp⟩ :=
    creation_stamp_kept (s := s) rfl rfl arrivals r hr
  have hk : r.key.value = "k" := by
    have hmem := List.mem_map_of_mem (f := fun r : Record => r.key.value) hr
    rwa [hkeys, List.mem_singleton] at hmem
  rw [hk] at hcreates hnever
  -- Whichever request it is said to be, it is the second one.
  rcases before with _ | ⟨a, _ | ⟨b, _ | ⟨c, before⟩⟩⟩ <;>
    simp only [arrivals, List.nil_append, List.cons_append, List.cons.injEq, List.nil_eq_append_iff,
      reduceCtorEq, and_false] at harrivals
  · obtain ⟨rfl, rfl⟩ := harrivals
    exact absurd hnever (by decide +kernel)
  · obtain ⟨rfl, rfl, -⟩ := harrivals
    exact hstamp
  · obtain ⟨rfl, rfl, rfl, -⟩ := harrivals
    exact absurd hcreates (by decide +kernel)

end RecordService.Http
