import RecordService.Proofs.Store.Reply
import RecordService.Proofs.Store.Sound
import RecordService.Proofs.Table.Ideal
import RecordService.Proofs.Table.Transport
/-!
# The two stores agree

A store in a remote table does what the store in memory does, if the table is ideal: command by
command the outcomes are the same, but for the order of attributes and of listed records, and after
every command the table holds the records of the store in memory, and nothing else.
-/

namespace RecordService.Store

open Entries Expression Table

/-- Outcomes that tell the same. -/
def SameOutcome : Outcome → Outcome → Prop
  | .ok .done, .ok .done => True
  | .ok (.record r), .ok (.record other) => r.Same other
  | .ok (.records rs), .ok (.records others) =>
    ∃ order, rs.Perm order ∧ List.Forall₂ Record.Same order others
  | .error e, .error other => e = other
  | _, _ => False

/-- A command as it is made for records with that key attribute: a record of a body, a compiled
update, the filter of a parameter; with values that can be kept in a table. -/
def Command.Made (keyAttribute : String) : Command → Prop
  | .create r => ∃ members : Entries Value, (names members).Nodup ∧
      (∀ e ∈ members, Value.Storable e.2) ∧ Record.ofBody keyAttribute (.map members) = .ok r
  | .update u => ∃ k readOnly body, (∀ e ∈ body, Value.Storable e.2) ∧
      Update.compile ⟨keyAttribute, k⟩ readOnly body = .ok u
  | .scan filter => ∀ f, filter = some f → ∃ name value, Filter.ofParameter name value = .ok f
  | _ => True

theorem Command.Made.sound {keyAttribute : String} {c : Command} (h : c.Made keyAttribute) :
    c.Sound keyAttribute Value.Storable := by
  cases c with
  | create r =>
    obtain ⟨members, hn, hmembers, hr⟩ := h
    exact (Record.ofBody_sound hn hmembers hr).2
  | update u =>
    obtain ⟨k, readOnly, body, hbody, hu⟩ := h
    obtain ⟨rfl, hgood, -⟩ := Update.compile_ok hu
    rw [Command.Sound, Update.setting_assignments]
    exact ⟨hgood, fun e he => hbody e (mem_erase.1 he).1⟩
  | _ => trivial

namespace Memory

/-- The item of a stored record. -/
def item (m : Memory) (k : String) (a : Attributes) : Item :=
  Item.ofAttributes (m.record (k, a)).members

/-- The table that holds the records of a store in memory. -/
def table (m : Memory) : Ideal :=
  ⟨m.keyAttribute, mapValues m.item m.records⟩

theorem find?_table (m : Memory) (k : String) :
    find? k m.table.items = (find? k m.records).map (m.item k) :=
  find?_mapValues _ _ _

theorem put_table (m : Memory) (k : String) (a : Attributes) :
    m.table.put k (m.item k a) = table { m with records := Entries.put k a m.records } := by
  simp only [Ideal.put, table, put_mapValues]
  rfl

/-- Setting attributes sets their cells. -/
theorem putAll_item (m : Memory) {set : Attributes} (h : m.keyAttribute ∉ names set) (k : String)
    (a : Attributes) : putAll (Item.ofAttributes set) (m.item k a) = m.item k (putAll set a) := by
  rw [item, Item.ofAttributes, Item.ofAttributes, putAll_mapValues, Record.members,
    putAll_cons_right h]
  rfl

section Sound
variable {m : Memory} (hm : m.Sound Value.Storable) {e : String × Attributes} (he : e ∈ m.records)
include hm he

/-- The records of a sound store come back from a table. -/
theorem Sound.record : (m.record e).Portable :=
  ⟨(hm.attributes e he).keyless, (hm.attributes e he).nodup,
    fun d hd => ((hm.attributes e he).values d hd).portable⟩

/-- What the table shows of a record can be read. -/
theorem Sound.legible {shown : Item} (h : (m.item e.1 e.2).same shown = true) :
    shown.Legible 125 := by
  have ha := hm.attributes e he
  have hn : (names (m.record e).members).Nodup := List.nodup_cons.2 ⟨ha.keyless, ha.nodup⟩
  have hvalues : ∀ d ∈ (m.record e).members, d.2.Distinct ∧ d.2.tree.isWithin 62 = true :=
    List.forall_mem_cons.2 ⟨⟨Value.eachMap_string _, rfl⟩,
      fun d hd => ⟨(ha.values d hd).distinct, (ha.values d hd).within⟩⟩
  exact Item.legible_of_same hn hvalues h

end Sound

end Memory

/-! ## Requests about one record -/

namespace Remote

section Single
variable {t after : Ideal} {q : Request} (hq : ∀ filter start, q ≠ .scan filter start)
include hq

theorem converses_one {replies : List Reply} :
    t.Converses [q] replies after ↔ ∃ r, replies = [r] ∧ t.Answers q r after := by
  cases q with
  | scan filter start => exact absurd rfl (hq filter start)
  | _ => rcases replies with _ | ⟨r, _ | ⟨r', rs⟩⟩ <;> simp [Ideal.Converses]

/-- A single request is answered with one reply, in one delivery. -/
theorem exists_delivery {replies : List Reply} {deliveries : List Delivery}
    (hsent : List.Forall₂ Reply.Sends replies deliveries) (h : t.Converses [q] replies after) :
    ∃ r d, deliveries = [d] ∧ r.Sends d ∧ t.Answers q r after := by
  obtain ⟨r, rfl, hr⟩ := (converses_one hq).1 h
  obtain ⟨d, _, hd, hnil, rfl⟩ := List.forall₂_cons_left_iff.1 hsent
  cases hnil
  exact ⟨r, d, rfl, hd, hr⟩

end Single

section OneRecord
variable {remote : Remote} {m : Memory} (hK : remote.keyAttribute = m.keyAttribute)
  (hm : m.Sound Value.Storable) {r : Reply} {after : Ideal}

include hK hm in
theorem get_agrees {key : Key} (h : m.table.Answers (.getItem (Item.ofKey key)) r after) :
    r.Readable .getItem ∧ SameOutcome (m.run (.get key)).1 (remote.found key r) ∧
      after = m.table := by
  obtain ⟨hafter, hreply⟩ := h key.value rfl
  rw [Memory.find?_table] at hreply
  rw [Memory.run_get]
  cases ha : find? key.value m.records with
  | none =>
    rw [ha] at hreply
    obtain rfl : r = .item none := hreply
    exact ⟨nofun, rfl, hafter⟩
  | some a =>
    rw [ha] at hreply
    obtain ⟨shown, hsame, rfl⟩ := hreply
    have hmem := mem_of_find? ha
    obtain ⟨other, hother, hrecord⟩ := Item.record_of_same (hm.record hmem) hsame
    have hfound : remote.found key (.item (some shown)) = .ok (.record other) := by
      rw [found, hK]
      simp only [Memory.record] at hother
      rw [hother]
      rfl
    rw [hfound]
    refine ⟨?_, hrecord, hafter⟩
    rintro _ ⟨⟩
    exact (hm.legible hmem hsame).mono 1

theorem create_agrees {record : Record} (hname : record.key.name = m.keyAttribute)
    (hr : Attributes.WellNamed m.keyAttribute record.attributes)
    (h : m.table.Answers (.putItem (Item.ofRecord record)) r after) :
    r.Readable .putItem ∧ SameOutcome (m.run (.create record)).1 (written r) ∧
      after = (m.run (.create record)).2.table := by
  obtain ⟨⟨name, k⟩, a⟩ := record
  obtain rfl : name = m.keyAttribute := hname
  have hitem : Item.ofRecord ⟨⟨m.keyAttribute, k⟩, a⟩ = m.item k a :=
    Item.ofRecord_eq hr.keyless hr.nodup
  rw [hitem] at h
  have hkey : m.table.keyOf? (m.item k a) = some k := by
    simp [Ideal.keyOf?, Memory.table, Memory.item, Item.find?_ofAttributes, Record.members,
      Memory.record, find?, Cell.ofValue]
  obtain ⟨rfl, rfl⟩ := h k hkey
  exact ⟨trivial, trivial, m.put_table k a⟩

/-- The request of a compiled update says to set its attributes, if the key is there. -/
theorem ofUpdate_says {key : Key} {set : Attributes} (hgood : set.WellNamed key.name)
    (hne : set ≠ []) : ∃ condition update,
      Request.ofUpdate (Update.setting key set) = .updateItem (Item.ofKey key) condition update ∧
      Ideal.change? (Item.ofKey key) condition update
        = some ⟨key.value, key.name, Item.ofAttributes set⟩ := by
  have hkey : find? (nameAlias key.name)
      (Entries.put (nameAlias key.name) key.name (Update.nameTable set)) = some key.name := by
    rw [find?_put]
    exact if_pos rfl
  have hnames : ∀ n ∈ names set, find? (nameAlias n)
      (Entries.put (nameAlias key.name) key.name (Update.nameTable set)) = some n := fun n hn => by
    have hother : nameAlias key.name ≠ nameAlias n := fun h =>
      hgood.keyless (nameAlias_injective h ▸ hn)
    rw [find?_put, if_neg hother]
    exact find?_nameTable hn
  have hassign := sent_reads key hgood.nodup hne hnames
  rw [← ofUpdate_values] at hassign
  exact ⟨"attribute_exists(" ++ nameAlias key.name ++ ")",
    ⟨(Update.setting key set).clause,
      Entries.put (nameAlias key.name) key.name (Update.nameTable set),
      (Input.ofUpdate (Update.setting key set)).values⟩,
    rfl, Ideal.change?_of ((Ideal.wanted?_exists key.name _).trans hkey) hassign⟩

theorem update_agrees {k : String} {readOnly : List String} {body : Attributes} {u : Update}
    (hu : Update.compile ⟨m.keyAttribute, k⟩ readOnly body = .ok u)
    (h : m.table.Answers (Request.ofUpdate u) r after) :
    r.Readable .updateItem ∧ SameOutcome (m.run (.update u)).1 (updated u.key r) ∧
      after = (m.run (.update u)).2.table := by
  obtain ⟨rfl, hgood, hne, -, -⟩ := Update.compile_ok hu
  generalize erase m.keyAttribute body = set at hgood hne h ⊢
  obtain ⟨condition, update, hrequest, hsays⟩ := ofUpdate_says hgood hne
  rw [hrequest] at h
  have hreply := h _ hsays
  rw [Memory.find?_table] at hreply
  simp only [Memory.run, Update.setting_assignments]
  cases ha : find? k m.records with
  | none =>
    rw [ha] at hreply
    obtain ⟨rfl, rfl⟩ := hreply
    simp [Update.setting, ha, updated, SameOutcome, Reply.Readable]
  | some a =>
    have hmem : m.keyAttribute ∈ names (m.item k a) := by
      rw [Memory.item, Item.names_ofAttributes]
      exact List.mem_cons_self
    rw [ha] at hreply
    simp only [Option.map_some, Option.filter_some, hmem, decide_true, if_true] at hreply
    obtain ⟨rfl, rfl⟩ := hreply
    rw [Memory.putAll_item m hgood.keyless, Memory.put_table]
    simp [Update.setting, ha, updated, written, SameOutcome, Reply.Readable]

theorem delete_agrees {key : Key} (h : m.table.Answers (.deleteItem (Item.ofKey key)) r after) :
    r.Readable .deleteItem ∧ SameOutcome (m.run (.delete key)).1 (written r) ∧
      after = (m.run (.delete key)).2.table := by
  obtain ⟨rfl, rfl⟩ := h key.value rfl
  refine ⟨trivial, trivial, ?_⟩
  simp only [Memory.table, Memory.run, erase_mapValues]
  rfl

end OneRecord

/-! ## Scans -/

theorem scanFrom_requests (remote : Remote) (filter : Option Input) (start : Option Item)
    (replies : List Reply) :
    ∃ rest, (remote.scanFrom filter start replies).2 = .scan filter start :: rest := by
  unfold scanFrom
  split
  · exact ⟨[], rfl⟩
  · split
    · exact ⟨[], rfl⟩
    · exact ⟨[], rfl⟩
    · split
      · exact ⟨_, rfl⟩
      · exact ⟨[], rfl⟩

/-- The items hold these records. -/
def HoldRecords (remote : Remote) (items : List Item) (records : List Record) : Prop :=
  List.Forall₂ (fun item r => item.record remote.keyAttribute = .ok r) items records

theorem page_last {remote : Remote} {start : Option Item} {items : List Item}
    {records : List Record} (h : remote.HoldRecords items records) :
    remote.page start (.page items none) = .ok (records, none) := by
  rw [page_eq, mapM_eq_ok.2 h]
  rfl

theorem page_more {remote : Remote} {start : Option Item} {items : List Item} {last : Item}
    {records : List Record} (h : remote.HoldRecords items records)
    (hlast : Ideal.GoesOn start last) :
    remote.page start (.page items (some last)) = .ok (records, some last) := by
  obtain ⟨hne, -, hother⟩ := hlast
  have hgoesOn : goesOn start last = true := by
    have hnonempty : last.isEmpty = false := by simpa using hne
    cases start with
    | none => simp [goesOn, hnonempty]
    | some first => simp [goesOn, hnonempty, hother first rfl]
  rw [page_eq, mapM_eq_ok.2 h]
  simp [Except.map, hgoesOn]

theorem HoldRecords.of_append {remote : Remote} {items rest : List Item} {records : List Record}
    (h : remote.HoldRecords (items ++ rest) records) : ∃ rs os,
      remote.HoldRecords items rs ∧ remote.HoldRecords rest os ∧ records = rs ++ os := by
  have hall := mapM_eq_ok.2 h
  rw [List.mapM_append] at hall
  obtain ⟨rs, hrs, hall⟩ := bind_eq_ok.1 hall
  obtain ⟨os, hos, hall⟩ := bind_eq_ok.1 hall
  cases hall
  exact ⟨rs, os, mapM_eq_ok.1 hrs, mapM_eq_ok.1 hos, rfl⟩

/-- The records of all the pages of a listing are those of its items. -/
theorem scanFrom_pages {remote : Remote} {filter : Option Input} {replies : List Reply}
    {left : List Item} {start : Option Item} {records : List Record}
    (hleft : remote.HoldRecords left records)
    (h : Ideal.Pages filter left start (remote.scanFrom filter start replies).2 replies) :
    (remote.scanFrom filter start replies).1 = .ok records := by
  -- With each page, what is left of the listing and the key to start after change.
  induction replies generalizing left start records with
  | nil =>
    obtain ⟨rest, hrest⟩ := remote.scanFrom_requests filter start []
    rw [hrest] at h
    exact h.elim
  | cons reply replies ih =>
    have hpages := h
    obtain ⟨tail, htail⟩ := remote.scanFrom_requests filter start (reply :: replies)
    rw [htail] at hpages
    obtain ⟨items, rest, rfl, hpage⟩ := hpages rfl
    obtain ⟨records, others, hitems, hrest, rfl⟩ := hleft.of_append
    rcases hpage with ⟨rfl, rfl, rfl⟩ | ⟨last, hlast, rfl, hmore⟩
    · cases hrest
      simp [scanFrom, page_last hitems]
    · have hstep : remote.scanFrom filter start (.page items (some last) :: replies) =
          (((remote.scanFrom filter (some last) replies).1.map (records ++ ·)),
            .scan filter start :: (remote.scanFrom filter (some last) replies).2) := by
        simp [scanFrom, page_more hitems hlast, hlast.2.1.isKnown]
      rw [hstep] at htail ⊢
      cases htail
      rw [ih hrest hmore]
      rfl

/-- If there is room for the items of a listing, each page is read as it was sent. -/
theorem pages_delivered {remote : Remote} {filter : Option Input} {replies : List Reply}
    {deliveries : List Delivery} (hsent : List.Forall₂ Reply.Sends replies deliveries)
    {left : List Item} (hleft : ∀ item ∈ left, item.Legible 125) {start : Option Item}
    (h : Ideal.Pages filter left start
      (remote.scanFrom filter start (deliveries.map (Reply.ofDelivery .scan))).2 replies) :
    deliveries.map (Reply.ofDelivery .scan) = replies := by
  induction hsent generalizing left start with
  | nil => rfl
  | @cons r d replies deliveries hd hsent ih =>
    have hpages := h
    obtain ⟨tail, htail⟩ := remote.scanFrom_requests filter start
      ((d :: deliveries).map (Reply.ofDelivery .scan))
    rw [htail] at hpages
    obtain ⟨items, rest, rfl, hpage⟩ := hpages rfl
    obtain ⟨hitems, hrest⟩ := List.forall_mem_append.1 hleft
    rcases hpage with ⟨-, rfl, rfl⟩ | ⟨last, hlast, rfl, hmore⟩
    · cases hsent
      have hread : Reply.Readable .scan (.page items none) := ⟨hitems, nofun⟩
      rw [List.map_cons, Reply.ofDelivery_of_sends hread hd]
      rfl
    · have hread : Reply.Readable .scan (.page items (some last)) :=
        ⟨hitems, by rintro _ ⟨⟩; exact hlast.2.1⟩
      rw [List.map_cons, Reply.ofDelivery_of_sends hread hd] at htail ⊢
      cases hrecords : items.mapM fun item => item.record remote.keyAttribute with
      | error e =>
        -- The scan ends here, so no page is sent after this one.
        have hpage : remote.page start (.page items (some last)) = .error e := by
          rw [page_eq, hrecords]
          rfl
        simp only [scanFrom, hpage] at htail
        cases htail
        cases hsent with
        | nil => rfl
        | cons _ _ => exact hmore.elim
      | ok records =>
        have hpage := page_more (mapM_eq_ok.1 hrecords) hlast
        simp only [scanFrom, hpage, hlast.2.1.isKnown, if_true] at htail
        cases htail
        rw [ih hrest hmore]

end Remote

/-! ## Filters -/

/-- A value is the same as a text in the table exactly if it equals the text. -/
theorem same_text_iff {v : Value} {s : String} :
    Cell.same (Cell.ofValue v) (.text s) = (v == .string s) := by
  rw [Bool.eq_iff_iff]
  cases v with
  | string t => simpa [Cell.ofValue, Cell.same_text] using eq_comm
  | null => exact iff_of_false (by simp [Cell.ofValue, Cell.same_null]) (by rintro ⟨⟩)
  | bool b => exact iff_of_false (by simp [Cell.ofValue, Cell.same_bool]) (by rintro ⟨⟩)
  | number n => exact iff_of_false (by simp [Cell.ofValue, Cell.same_number]) (by rintro ⟨⟩)
  | list xs => exact iff_of_false (by simp [Cell.ofValue, Cell.same_list]) (by rintro ⟨⟩)
  | map ms => exact iff_of_false (by simp [Cell.ofValue, Cell.same_map]) (by rintro ⟨⟩)

/-- A filter holds of an item exactly if it accepts the record. -/
theorem passes_iff {f : Filter} {name s : String} (hname : f.name = name)
    (hvalue : f.value = .string s) (r : Record) :
    Ideal.passes (name, .text s) (Item.ofAttributes r.members) = f.accepts r := by
  rw [Ideal.passes, Filter.accepts, Record.get?_eq, hname, hvalue, Item.find?_ofAttributes]
  cases find? name r.members with
  | none => rfl
  | some v => exact same_text_iff

/-- What a scan finds in the table are the items of the records that it finds in memory. -/
theorem matching_table (m : Memory) {filter : Option Filter}
    (hfilter : Command.Made m.keyAttribute (.scan filter)) :
    ∃ entries : Entries Attributes, (∀ e ∈ entries, e ∈ m.records) ∧
      m.matching filter = entries.map m.record ∧
      m.table.matching? (filter.map Input.ofFilter)
        = some (entries.map fun e => m.item e.1 e.2) := by
  have hitems : m.table.items.map (·.2) = m.records.map fun e => m.item e.1 e.2 := by
    simp [Memory.table, mapValues]
  cases filter with
  | none => exact ⟨m.records, fun _ he => he, rfl, by simp [Ideal.matching?, hitems]⟩
  | some f =>
    obtain ⟨name, value, hf⟩ := hfilter f rfl
    obtain ⟨hname, hvalue, hcomparison⟩ := Ideal.comparison?_ofFilter hf
    refine ⟨m.records.filter fun e => f.accepts (m.record e), fun e he => (List.mem_filter.1 he).1,
      by simp [Memory.matching, Memory.toList, List.filter_map, Function.comp_def], ?_⟩
    simp only [Ideal.matching?, Option.map_some, hcomparison, hitems, List.filter_map,
      Option.bind_eq_bind, Option.bind_some, Function.comp_def]
    have hpasses : ∀ e : String × Attributes, Ideal.passes (name, .text (value.getD ""))
        (m.item e.1 e.2) = f.accepts (m.record e) := fun e => passes_iff hname hvalue _
    simp only [hpasses]
    rfl

theorem exists_perm_of_map {α β : Type} {f : α → β} {xs : List α} {ys : List β}
    (h : (xs.map f).Perm ys) : ∃ zs, xs.Perm zs ∧ ys = zs.map f := by
  generalize hms : xs.map f = ms at h
  induction h generalizing xs with
  | nil => exact ⟨[], by rw [List.map_eq_nil_iff.1 hms], rfl⟩
  | cons y _ ih =>
    obtain ⟨x, xs, rfl, rfl, hxs⟩ := List.map_eq_cons_iff.1 hms
    obtain ⟨zs, hzs, rfl⟩ := ih hxs
    exact ⟨x :: zs, hzs.cons x, rfl⟩
  | swap y y' _ =>
    obtain ⟨x, xs, rfl, rfl, hxs⟩ := List.map_eq_cons_iff.1 hms
    obtain ⟨x', xs, rfl, rfl, rfl⟩ := List.map_eq_cons_iff.1 hxs
    exact ⟨x' :: x :: xs, .swap x' x xs, rfl⟩
  | trans _ _ ih ih' =>
    obtain ⟨zs, hzs, rfl⟩ := ih hms
    obtain ⟨zs', hzs', rfl⟩ := ih' rfl
    exact ⟨zs', hzs.trans hzs', rfl⟩

theorem exists_forall₂ {α β γ : Type} {R : α → β → Prop} {S : β → γ → Prop} {T : α → γ → Prop}
    {xs : List α} {ys : List β} (h : List.Forall₂ R xs ys)
    (hnext : ∀ x ∈ xs, ∀ y, R x y → ∃ z, S y z ∧ T x z) :
    ∃ zs, List.Forall₂ S ys zs ∧ List.Forall₂ T xs zs := by
  induction h with
  | nil => exact ⟨[], .nil, .nil⟩
  | cons hxy _ ih =>
    obtain ⟨hx, hnext⟩ := List.forall_mem_cons.1 hnext
    obtain ⟨z, hyz, hxz⟩ := hx _ hxy
    obtain ⟨zs, hys, hxs⟩ := ih hnext
    exact ⟨z :: zs, .cons hyz hys, .cons hxz hxs⟩

theorem scan_agrees {remote : Remote} {m : Memory} (hK : remote.keyAttribute = m.keyAttribute)
    (hm : m.Sound Value.Storable) {filter : Option Filter}
    (hfilter : Command.Made m.keyAttribute (.scan filter)) {replies : List Reply}
    {deliveries : List Delivery} (hsent : List.Forall₂ Reply.Sends replies deliveries)
    {after : Ideal} (h : m.table.Converses
      (remote.run (deliveries.map (Reply.ofDelivery .scan)) (.scan filter)).2 replies after) :
    SameOutcome (m.run (.scan filter)).1
        (remote.run (deliveries.map (Reply.ofDelivery .scan)) (.scan filter)).1 ∧
      after = m.table := by
  obtain ⟨entries, hentries, hmemory, hfound⟩ := matching_table m hfilter
  obtain ⟨tail, htail⟩ := remote.scanFrom_requests (filter.map Input.ofFilter) none
    (deliveries.map (Reply.ofDelivery .scan))
  have hconverses := h
  simp only [Remote.run, htail] at hconverses
  obtain ⟨rfl, listing, ⟨order, hperm, hsame⟩, hpages⟩ := hconverses _ hfound
  refine ⟨?_, rfl⟩
  -- The listing comes from the records in some other order, and shows each of them.
  obtain ⟨listed, hlisted, rfl⟩ := exists_perm_of_map hperm
  rw [List.forall₂_map_left_iff] at hsame
  have hrecord : ∀ e ∈ listed, ∀ shown, (m.item e.1 e.2).same shown = true →
      ∃ other, shown.record m.keyAttribute = .ok other ∧ (m.record e).Same other :=
    fun e he shown hshown =>
      Item.record_of_same (hm.record (hentries e (hlisted.mem_iff.2 he))) hshown
  obtain ⟨records, hrecords, hagree⟩ := exists_forall₂ hsame hrecord
  have hrecords : remote.HoldRecords listing records := by
    rw [Remote.HoldRecords, hK]
    exact hrecords
  have hlegible : ∀ shown ∈ listing, shown.Legible 125 := fun shown hshown => by
    obtain ⟨e, he, hsame⟩ := exists_of_related hsame shown hshown
    exact hm.legible (hentries e (hlisted.mem_iff.2 he)) hsame
  rw [← htail] at hpages
  have hread := Remote.pages_delivered hsent hlegible hpages
  rw [hread] at hpages ⊢
  have hscan := Remote.scanFrom_pages hrecords hpages
  have hremote : (remote.run replies (.scan filter)).1 = .ok (.records records) := by
    simp only [Remote.run, hscan]
    rfl
  rw [hremote]
  simp only [Memory.run, hmemory]
  exact ⟨listed.map m.record, hlisted.map _, List.forall₂_map_left_iff.2 hagree⟩

end RecordService.Store
