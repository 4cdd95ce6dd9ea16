import RecordService.Proofs.Store.Agreement
/-!
# Runs of the two stores

One command over an ideal table keeps the table and the store in memory alike, and so does a whole
run. The table may answer as it likes within what it is asked; whatever it chooses, the outcomes of
the run are those of the store in memory.
-/

namespace RecordService.Store

open Entries Table

/-! ## One command -/

/-- Each item of the table is the same as itself. -/
theorem Memory.Sound.same_refl {m : Memory} (hm : m.Sound Value.Storable) :
    ∀ item ∈ m.table.items.map (·.2), item.same item = true := by
  intro item hitem
  obtain ⟨d, hd, rfl⟩ := List.mem_map.1 hitem
  obtain ⟨e, he, rfl⟩ := List.mem_map.1 hd
  have ha := hm.attributes e he
  refine Item.same_ofAttributes_refl (Value.eachMap_map.2 ⟨?_, ?_⟩)
  · exact List.nodup_cons.2 ⟨ha.keyless, ha.nodup⟩
  · exact List.forall_mem_cons.2 ⟨Value.eachMap_string _, fun d hd => (ha.values d hd).distinct⟩

namespace Remote

variable {remote : Remote} {m : Memory} (hname : Text.allBlank remote.tableName = false)
include hname

/-- However the table answers, a command does the same to it as to the store in memory, and comes to
the same. -/
theorem exchange_agrees (hK : remote.keyAttribute = m.keyAttribute) (hm : m.Sound Value.Storable)
    {c : Command} (hc : c.Made m.keyAttribute) {replies : List Reply} {deliveries : List Delivery}
    (hsent : List.Forall₂ Reply.Sends replies deliveries) {after : Ideal}
    (h : m.table.Converses (remote.exchange deliveries c).2 replies after) :
    SameOutcome (m.run c).1 (remote.exchange deliveries c).1 ∧ after = (m.run c).2.table := by
  rw [exchange_eq_run hname] at h ⊢
  -- What is read of the one delivery is the reply that was sent in it.
  cases c with
  | get key =>
    obtain ⟨r, d, rfl, hd, hr⟩ := exists_delivery (q := .getItem (Item.ofKey key)) nofun hsent h
    obtain ⟨hread, hsame, hafter⟩ := get_agrees hK hm hr
    rw [Memory.run_get_store]
    refine ⟨?_, hafter⟩
    rwa [← Reply.ofDelivery_of_sends hread hd] at hsame
  | create record =>
    obtain ⟨r, d, rfl, hd, hr⟩ :=
      exists_delivery (q := .putItem (Item.ofRecord record)) nofun hsent h
    have hgood := (Command.Made.sound hc).2.toWellNamed
    obtain ⟨members, -, -, hbody⟩ := hc
    obtain ⟨_, k, -, -, -, -, rfl⟩ := Record.ofBody_ok hbody
    obtain ⟨hread, hsame, hafter⟩ := create_agrees rfl hgood hr
    rw [← Reply.ofDelivery_of_sends hread hd] at hsame
    exact ⟨hsame, hafter⟩
  | update u =>
    obtain ⟨r, d, rfl, hd, hr⟩ := exists_delivery (q := Request.ofUpdate u) nofun hsent h
    obtain ⟨k, readOnly, body, -, hu⟩ := hc
    obtain ⟨hread, hsame, hafter⟩ := update_agrees hu hr
    rw [← Reply.ofDelivery_of_sends hread hd] at hsame
    exact ⟨hsame, hafter⟩
  | delete key =>
    obtain ⟨r, d, rfl, hd, hr⟩ := exists_delivery (q := .deleteItem (Item.ofKey key)) nofun hsent h
    obtain ⟨hread, hsame, hafter⟩ := delete_agrees hr
    rw [← Reply.ofDelivery_of_sends hread hd] at hsame
    exact ⟨hsame, hafter⟩
  | scan filter => exact scan_agrees hK hm hc hsent h

/-- The table can answer the requests of a command. -/
theorem exists_deliveries (hm : m.Sound Value.Storable) (c : Command) :
    ∃ replies deliveries after, List.Forall₂ Reply.Sends replies deliveries ∧
      m.table.Converses (remote.exchange deliveries c).2 replies after := by
  have hone : ∀ q, (∀ filter start, q ≠ .scan filter start) → ∃ r d after,
      List.Forall₂ Reply.Sends [r] [d] ∧ m.table.Converses [q] [r] after := fun q hq => by
    obtain ⟨r, after, ⟨d, hd⟩, h⟩ := Ideal.exists_answer hm.same_refl q
    exact ⟨r, d, after, .cons hd .nil, (converses_one hq).2 ⟨r, rfl, h⟩⟩
  simp only [exchange_eq_run hname]
  cases c with
  | get key =>
    obtain ⟨r, d, after, h⟩ := hone (.getItem (Item.ofKey key)) nofun
    exact ⟨[r], [d], after, h⟩
  | create record =>
    obtain ⟨r, d, after, h⟩ := hone (.putItem (Item.ofRecord record)) nofun
    exact ⟨[r], [d], after, h⟩
  | update u =>
    obtain ⟨r, d, after, h⟩ := hone (Request.ofUpdate u) nofun
    exact ⟨[r], [d], after, h⟩
  | delete key =>
    obtain ⟨r, d, after, h⟩ := hone (.deleteItem (Item.ofKey key)) nofun
    exact ⟨[r], [d], after, h⟩
  | scan filter =>
    obtain ⟨replies, deliveries, after, hsent, h⟩ :=
      Ideal.exists_page hm.same_refl (filter.map Input.ofFilter)
    obtain ⟨rest, hrest⟩ := remote.scanFrom_requests (filter.map Input.ofFilter) none
      (deliveries.map (Reply.ofDelivery .scan))
    exact ⟨replies, deliveries, after, hsent, by simpa only [run, operation, hrest] using h rest⟩

end Remote

/-! ## Runs -/

/-- The commands are run one after another over the table `t`, which answers all requests: what they
come to with what the table sends, and the table after them. -/
inductive Remote.Runs (remote : Remote) : Ideal → List Command → List Outcome → Ideal → Prop
  | nil {t : Ideal} : Runs remote t [] [] t
  | cons {t mid after : Ideal} {c : Command} {cs : List Command} {outcomes : List Outcome}
      {replies : List Reply} {deliveries : List Delivery}
      (sent : List.Forall₂ Reply.Sends replies deliveries)
      (answered : t.Converses (remote.exchange deliveries c).2 replies mid)
      (rest : Runs remote mid cs outcomes after) :
      Runs remote t (c :: cs) ((remote.exchange deliveries c).1 :: outcomes) after

/-- Over a table that holds what the store in memory holds, there is a run, and each run comes to
the same as the run of the store in memory. -/
theorem Remote.runs_agree {remote : Remote} (hname : Text.allBlank remote.tableName = false)
    {m : Memory} (hK : remote.keyAttribute = m.keyAttribute) (hm : m.Sound Value.Storable)
    {cs : List Command} (hcs : ∀ c ∈ cs, c.Made m.keyAttribute) :
    (∃ outcomes after, remote.Runs m.table cs outcomes after) ∧
    ∀ outcomes after, remote.Runs m.table cs outcomes after →
      List.Forall₂ SameOutcome (m.outcomes cs) outcomes ∧ after = (m.after cs).table := by
  -- After one command the table holds what the next store in memory holds.
  induction cs generalizing m with
  | nil => exact ⟨⟨[], m.table, .nil⟩, by rintro _ _ ⟨⟩; exact ⟨.nil, rfl⟩⟩
  | cons c cs ih =>
    obtain ⟨hc, hcs⟩ := List.forall_mem_cons.1 hcs
    have hnext : m.keyAttribute = (m.run c).2.keyAttribute := (m.keyAttribute_run c).symm
    have ih := ih (hK.trans hnext) (hm.run hc.sound) (hnext ▸ hcs)
    constructor
    · obtain ⟨replies, deliveries, mid, hsent, h⟩ := exists_deliveries hname hm c
      obtain ⟨-, rfl⟩ := exchange_agrees hname hK hm hc hsent h
      obtain ⟨outcomes, after, hrest⟩ := ih.1
      exact ⟨_, after, .cons hsent h hrest⟩
    · rintro _ after (_ | ⟨hsent, h, hrest⟩)
      obtain ⟨hsame, rfl⟩ := exchange_agrees hname hK hm hc hsent h
      obtain ⟨hsames, hafter⟩ := ih.2 _ _ hrest
      exact ⟨.cons hsame hsames, hafter⟩

/-- The two stores agree: over an empty table whose name is not blank, commands made for records
with key attribute `K` run, and however the table answers, each of them comes to the same as over
the empty store in memory, and the table then holds the records of the store in memory. -/
theorem stores_agree {tableName : String} (hname : Text.allBlank tableName = false) {K : String}
    {cs : List Command} (hcs : ∀ c ∈ cs, c.Made K) :
    let remote : Remote := ⟨tableName, K⟩
    let m := Memory.empty K
    (∃ outcomes after, remote.Runs ⟨K, []⟩ cs outcomes after) ∧
    ∀ outcomes after, remote.Runs ⟨K, []⟩ cs outcomes after →
      List.Forall₂ SameOutcome (m.outcomes cs) outcomes ∧ after = (m.after cs).table :=
  Remote.runs_agree hname rfl (Memory.sound_empty K) hcs

/-- A record with a map, a list and a negative number is created, changed, listed, read, and
deleted. -/
theorem stores_agree_lifecycle :
    ∃ r u f, Record.ofBody "id" (.map [("id", .string "k"), ("m", .map [("x", .list [.null])]),
        ("n", .number (.integer ⟨-7, by decide, by decide⟩))]) = .ok r ∧
      Expression.Update.compile ⟨"id", "k"⟩ [] [("a-b", .bool true)] = .ok u ∧
      Expression.Filter.ofParameter "a-b" none = .ok f ∧
      ∃ outcomes after, Remote.Runs ⟨"records", "id"⟩ ⟨"id", []⟩ [.create r, .update u,
          .scan (some f), .get ⟨"id", "k"⟩, .delete ⟨"id", "k"⟩] outcomes after ∧
        List.Forall₂ SameOutcome ((Memory.empty "id").outcomes [.create r, .update u,
          .scan (some f), .get ⟨"id", "k"⟩, .delete ⟨"id", "k"⟩]) outcomes := by
  obtain ⟨r, hr⟩ : ∃ r, Record.ofBody "id" (.map [("id", .string "k"),
      ("m", .map [("x", .list [.null])]),
      ("n", .number (.integer ⟨-7, by decide, by decide⟩))]) = .ok r := ⟨_, rfl⟩
  obtain ⟨u, hu⟩ : ∃ u, Expression.Update.compile ⟨"id", "k"⟩ [] [("a-b", .bool true)] = .ok u :=
    ⟨_, rfl⟩
  obtain ⟨f, hf⟩ : ∃ f, Expression.Filter.ofParameter "a-b" none = .ok f := ⟨_, rfl⟩
  have hmap : Value.IsPortableMap [("x", .list [.null])] := ⟨by decide, by decide⟩
  have hmembers : ∀ e ∈ ([("id", .string "k"), ("m", .map [("x", .list [.null])]),
      ("n", .number (.integer ⟨-7, by decide, by decide⟩))] : Entries Value),
      e.2.Storable := by
    simp only [List.forall_mem_cons, List.not_mem_nil]
    exact ⟨⟨by simp, rfl⟩, ⟨by simp [hmap], rfl⟩, ⟨by simp, rfl⟩, by simp⟩
  have hcs : ∀ c ∈ [.create r, .update u, .scan (some f), .get ⟨"id", "k"⟩, .delete ⟨"id", "k"⟩],
      Command.Made "id" c := by
    simp only [List.forall_mem_cons, List.not_mem_nil]
    have hset : ∀ e ∈ ([("a-b", .bool true)] : Entries Value), e.2.Storable :=
      List.forall_mem_singleton.2 ⟨by simp, rfl⟩
    refine ⟨⟨_, by decide, hmembers, hr⟩, ⟨"k", [], _, hset, hu⟩, ?_, trivial, trivial, by simp⟩
    rintro _ ⟨⟩
    exact ⟨"a-b", none, hf⟩
  obtain ⟨⟨outcomes, after, hrun⟩, hagree⟩ := @stores_agree "records" (by decide) "id" _ hcs
  exact ⟨r, u, f, hr, hu, hf, outcomes, after, hrun, (hagree outcomes after hrun).1⟩

/-- A record with a map whose only member has the name that stands for an embedded value is created
and then read: the table keeps it and shows it as it is, and what comes back is another record. -/
theorem stores_disagree_embedded :
    ∃ r, Record.ofBody "id" (.map [("id", .string "k"),
        ("x", .map [(Json.embeddedName, .string "[1, 2]")])]) = .ok r ∧
      ∃ outcomes after,
        Remote.Runs ⟨"records", "id"⟩ ⟨"id", []⟩ [.create r, .get ⟨"id", "k"⟩] outcomes after ∧
        ¬List.Forall₂ SameOutcome
          ((Memory.empty "id").outcomes [.create r, .get ⟨"id", "k"⟩]) outcomes := by
  let remote : Remote := ⟨"records", "id"⟩
  let r : Record := ⟨⟨"id", "k"⟩, [("x", .map [(Json.embeddedName, .string "[1, 2]")])]⟩
  let item : Item := Item.ofRecord r
  let t : Ideal := ⟨"id", [("k", item)]⟩
  refine ⟨r, rfl, ?_⟩
  obtain ⟨d, hd⟩ := Reply.exists_sends (r := .done) nofun
  obtain ⟨d', hd'⟩ := Reply.exists_sends (r := .item (some item)) nofun
  have hitem : item.same item = true := by decide +kernel
  have hlegible : item.Legible 126 := by
    refine ⟨by decide, List.forall_mem_cons.2 ⟨.text "k", List.forall_mem_singleton.2 ?_⟩⟩
    exact @Cell.Legible.map 124 _ (List.nodup_singleton _)
      (List.forall_mem_singleton.2 (@Cell.Legible.text 123 "[1, 2]"))
  have hcreate : Ideal.Converses ⟨"id", []⟩
      (remote.exchange [d] (.create r)).2 [.done] t := by
    rw [Remote.exchange_eq_run (by decide)]
    refine (Remote.converses_one (q := .putItem item) nofun).2 ⟨.done, rfl, ?_⟩
    rintro k hk
    obtain rfl : "k" = k := Option.some.inj hk
    exact ⟨rfl, rfl⟩
  have hget : t.Converses (remote.exchange [d'] (.get ⟨"id", "k"⟩)).2 [.item (some item)] t := by
    rw [Remote.exchange_eq_run (by decide)]
    refine (Remote.converses_one (q := .getItem (Item.ofKey r.key)) nofun).2 ⟨_, rfl, ?_⟩
    rintro k hk
    obtain rfl : "k" = k := Option.some.inj hk
    exact ⟨rfl, item, hitem, rfl⟩
  refine ⟨_, t, .cons (.cons hd .nil) hcreate (.cons (.cons hd' .nil) hget .nil), fun hsame => ?_⟩
  have hread : Reply.ofDelivery .getItem d' = .item (some item) :=
    Reply.ofDelivery_of_sends (by rintro _ ⟨⟩; exact hlegible) hd'
  have hfound : (remote.exchange [d'] (.get r.key)).1
      = (item.record "id").map .record := by
    rw [Remote.exchange_eq_run (by decide), Remote.run]
    exact congrArg (remote.found r.key) hread
  have hdiffers : ∀ other ∈ (item.record "id").toOption,
      (Value.map r.attributes == .map other.attributes) = false := by decide +kernel
  rw [hfound] at hsame
  obtain ⟨-, hsame⟩ := List.forall₂_cons.1 hsame
  obtain ⟨hsame, -⟩ := List.forall₂_cons.1 hsame
  cases hrecord : item.record "id" with
  | error e =>
    rw [hrecord] at hsame
    exact hsame
  | ok other =>
    rw [hrecord] at hsame
    have hmem : other ∈ (item.record "id").toOption := by rw [hrecord]; rfl
    exact Bool.false_ne_true ((hdiffers other hmem).symm.trans hsame.2)

end RecordService.Store
