import RecordService.Proofs.Except
import RecordService.Store.Remote
/-!
# What replies come to

A command over a table goes well exactly if every reply to it can be read: an item is a record, a
write is done, and page after page holds records. What cannot be read is a fault of the store, with
one exception: an update whose condition is refused finds no record.
-/

namespace RecordService

/-- The error does not say that a record is missing. -/
def StoreError.IsFault (e : StoreError) : Prop :=
  ∀ key, e ≠ .notFound key

namespace Store

open Table

namespace Remote

variable (m : Remote)

/-! ## Replies that can be read -/

/-- A page that began after `start` names this key to go on after: one that is not empty, and not
the same again. -/
def goesOn (start : Option Item) (last : Item) : Bool :=
  !last.isEmpty && !start.any (last.same ·)

/-- Each page holds records, up to one that names no key to go on after. -/
def ReadsPages : Option Item → List Reply → Prop
  | start, .page items last :: replies =>
    (∀ item ∈ items, ∃ r, item.record m.keyAttribute = .ok r) ∧
      ∀ next, last.filter (goesOn start) = some next →
        next.isKnown = true ∧ ReadsPages (some next) replies
  | _, _ => False

/-- The replies to a command can be read. -/
def Reads (replies : List Reply) : Command → Prop
  | .get _ => ∃ item, first replies = .item item ∧
      ∀ i, item = some i → ∃ r, i.record m.keyAttribute = .ok r
  | .scan _ => m.ReadsPages none replies
  | .create _ | .update _ | .delete _ => first replies = .done

/-! ## Pages -/

theorem page_eq (start : Option Item) (items : List Item) (last : Option Item) :
    m.page start (.page items last) = (items.mapM (Item.record m.keyAttribute ·)).map
      fun records => (records, last.filter (goesOn start)) := by
  cases hrecords : items.mapM (Item.record m.keyAttribute ·) with
  | error e => simp only [page, hrecords]; rfl
  | ok records =>
    simp only [page, hrecords]
    cases start <;> cases last <;> rfl

/-- A scan goes well exactly if all its pages can be read. -/
theorem scanFrom_ok_iff (filter : Option Input) {start : Option Item} {replies : List Reply} :
    (∃ records, (m.scanFrom filter start replies).1 = .ok records) ↔
      m.ReadsPages start replies := by
  induction replies generalizing start with
  | nil => exact iff_of_false (by rintro ⟨_, ⟨⟩⟩) id
  | cons reply replies ih =>
    cases reply with
    | page items last =>
      rw [ReadsPages, scanFrom, page_eq, ← exists_mapM_eq_ok]
      cases items.mapM (Item.record m.keyAttribute ·) with
      | error e => exact iff_of_false (by rintro ⟨_, ⟨⟩⟩) (by rintro ⟨⟨_, ⟨⟩⟩, -⟩)
      | ok records =>
        cases hnext : last.filter (goesOn start) with
        | none => exact iff_of_true ⟨records, rfl⟩ ⟨⟨records, rfl⟩, by rintro _ ⟨⟩⟩
        | some next =>
          by_cases hknown : next.isKnown = true
          · simp only [Except.map, hknown, if_true, Option.some.injEq, forall_eq', true_and, ← ih]
            cases (m.scanFrom filter (some next) replies).1 <;> simp
          · simp [Except.map, hknown]
    | _ => exact iff_of_false (by rintro ⟨_, ⟨⟩⟩) id

/-! ## Faults -/

theorem isFault_fault (reply : Reply) : (fault reply).IsFault := by
  intro key
  unfold fault
  split <;> exact nofun

theorem isFault_record (keyName : String) (item : Item) :
    FailsWith StoreError.IsFault (item.record keyName) := by
  unfold Item.record
  split
  · exact .error nofun
  · split
    · exact .ok _
    · exact .error nofun

theorem isFault_page (start : Option Item) (reply : Reply) :
    FailsWith StoreError.IsFault (m.page start reply) := by
  cases reply with
  | page items last =>
    rw [page_eq]
    exact (FailsWith.mapM (isFault_record m.keyAttribute) items).map
  | _ => exact .error (isFault_fault _)

theorem isFault_scanFrom (filter : Option Input) (start : Option Item) (replies : List Reply) :
    FailsWith StoreError.IsFault (m.scanFrom filter start replies).1 := by
  induction replies generalizing start with
  | nil => exact .error nofun
  | cons reply replies ih =>
    have hpage := m.isFault_page start reply
    unfold scanFrom
    split
    · next e he => exact .error (hpage e he)
    · exact .ok _
    · split
      · exact (ih _).map
      · exact .error nofun

theorem isFault_written (reply : Reply) : FailsWith StoreError.IsFault (written reply) := by
  unfold written
  split
  · exact .ok _
  · exact .error (isFault_fault _)

/-! ## Commands -/

theorem written_eq_ok {reply : Reply} {answer : Answer} (h : written reply = .ok answer) :
    reply = .done := by
  unfold written at h
  split at h
  · rfl
  · cases h

/-- Replies that can be read are answers; that a record is missing is one of them. -/
theorem run_of_reads {replies : List Reply} {c : Command} (h : m.Reads replies c) :
    (∃ answer, (m.run replies c).1 = .ok answer) ∨
      ∃ key, c = .get key ∧ first replies = .item none ∧
        (m.run replies c).1 = .error (.notFound key) := by
  cases c with
  | get key =>
    obtain ⟨item, hitem, hrecord⟩ := h
    cases item with
    | none => exact .inr ⟨key, rfl, hitem, by rw [run, hitem]; rfl⟩
    | some item =>
      obtain ⟨r, hr⟩ := hrecord item rfl
      exact .inl ⟨.record r, by rw [run, hitem]; exact map_eq_ok.2 ⟨r, hr, rfl⟩⟩
  | create r => exact .inl ⟨.done, by rw [run, show first replies = .done from h]; rfl⟩
  | update u => exact .inl ⟨.done, by rw [run, show first replies = .done from h]; rfl⟩
  | delete key => exact .inl ⟨.done, by rw [run, show first replies = .done from h]; rfl⟩
  | scan filter =>
    obtain ⟨records, hrecords⟩ := (m.scanFrom_ok_iff _).2 h
    exact .inl ⟨.records records, map_eq_ok.2 ⟨records, hrecords, rfl⟩⟩

/-- Replies that cannot be read are a fault, unless the condition of an update was refused. -/
theorem run_of_not_reads {replies : List Reply} {c : Command} (h : ¬m.Reads replies c) :
    (∃ e, (m.run replies c).1 = .error e ∧ e.IsFault) ∨
      ∃ u, c = .update u ∧ first replies = .refused ∧
        (m.run replies c).1 = .error (.notFound u.key) := by
  have hfault : ∀ {x : Outcome}, FailsWith StoreError.IsFault x → (∀ answer, x ≠ .ok answer) →
      ∃ e, x = .error e ∧ e.IsFault := by
    intro x hx hno
    cases x with
    | ok answer => exact absurd rfl (hno answer)
    | error e => exact ⟨e, rfl, hx e rfl⟩
  have hwritten : first replies ≠ .done →
      ∃ e, written (first replies) = .error e ∧ e.IsFault := by
    intro hno
    exact hfault (isFault_written _) fun answer hok => hno (written_eq_ok hok)
  cases c with
  | get key =>
    left
    cases hreply : first replies with
    | item item =>
      cases item with
      | none => exact absurd ⟨none, hreply, nofun⟩ h
      | some item =>
        rw [run, hreply]
        refine hfault (isFault_record m.keyAttribute item).map fun answer hok => h ?_
        obtain ⟨r, hr, -⟩ := map_eq_ok.1 hok
        exact ⟨some item, hreply, by rintro _ ⟨⟩; exact ⟨r, hr⟩⟩
    | _ => rw [run, hreply]; exact ⟨_, rfl, isFault_fault _⟩
  | create r => exact .inl (hwritten h)
  | update u =>
    by_cases hrefused : first replies = .refused
    · exact .inr ⟨u, rfl, hrefused, by rw [run, hrefused]; rfl⟩
    · left
      have hupdated : (m.run replies (.update u)).1 = written (first replies) := by
        rw [run]
        cases hreply : first replies <;> first | rfl | exact absurd hreply hrefused
      rw [hupdated]
      exact hwritten h
  | delete key => exact .inl (hwritten h)
  | scan filter =>
    refine .inl (hfault (m.isFault_scanFrom _ none replies).map fun answer hok => h ?_)
    obtain ⟨records, hrecords, -⟩ := map_eq_ok.1 hok
    exact (m.scanFrom_ok_iff _).1 ⟨records, hrecords⟩

/-! ## Deliveries -/

theorem exchange_blank {m : Remote} (h : Text.allBlank m.tableName = true)
    (deliveries : List Delivery) (c : Command) :
    m.exchange deliveries c = (.error (.backend .request), []) :=
  if_pos h

theorem exchange_eq_run {m : Remote} (h : Text.allBlank m.tableName = false)
    (deliveries : List Delivery) (c : Command) :
    m.exchange deliveries c = m.run (deliveries.map (Reply.ofDelivery (operation c))) c := by
  rw [exchange, h]
  rfl

end Remote

end Store

end RecordService
