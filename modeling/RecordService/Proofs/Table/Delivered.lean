import RecordService.Proofs.Table.Legible
import RecordService.Table.Reply
/-!
# Replies that are delivered

A table says a reply in an answer: in an object with the members that the reply has, in any order,
or in an error that names the kind of the refusal. What is read of such an answer is the reply, if
there is room for its items.
-/

namespace RecordService.Table

open Entries Notation
open Text.Utf8 (encode)

/-! ## Members of an answer -/

theorem isNull_eq {v : Value} : isNull (v.treeIn forms) = true ↔ v = .null := by
  cases v <;> simp [Value.treeIn, isNull, forms]

/-- A written member fits if it is null, or has the shape of its name, or no shape and can be passed
over. -/
def Shape.FitsMember (room : Nat) (shapes : List (String × Shape)) (e : String × Value) : Prop :=
  e.2 = .null ∨ match shapes.lookup e.1 with
    | some shape => Shape.fits room shape (e.2.treeIn forms) = true
    | none => isPassed (e.2.treeIn forms) = true

theorem Shape.fitsMembers_written {room : Nat} {shapes : List (String × Shape)}
    {ms : Entries Value} : Shape.fitsMembers room shapes (ms.map member) = true ↔
      ∀ e ∈ ms, Shape.FitsMember room shapes e := by
  induction ms with
  | nil => simp [fitsMembers]
  | cons e ms ih =>
    rw [List.map_cons, member, fitsMembers, Bool.and_eq_true, ih, List.forall_mem_cons,
      text?_written]
    refine and_congr_left fun _ => ?_
    simp only [Bool.or_eq_true, isNull_eq, FitsMember]
    cases shapes.lookup e.1 <;> rfl

namespace Reply

theorem last?_written {ms : Entries Value} (hn : (names ms).Nodup) (name : String) :
    last? name (ms.map member) = (find? name ms).map (Value.treeIn forms) := by
  have hfind : ∀ es : Entries Value,
      ((es.map member).find? fun m => text? m.1 == some name).map (·.2)
        = (find? name es).map (Value.treeIn forms) := by
    intro es
    induction es with
    | nil => rfl
    | cons e es ih =>
      rw [List.map_cons, List.find?_cons, find?, member, text?_written]
      by_cases hname : e.1 = name
      · simp [hname]
      · rw [if_neg hname, ← ih, beq_false_of_ne (by simpa using hname)]
  rw [last?, ← List.map_reverse, hfind, find?_reverse hn]

/-! ## What a table sends -/

/-- The member that names the last key of a page. -/
def lastMember : Option Item → Entries Value
  | some key => [("LastEvaluatedKey", key.wire)]
  | none => []

/-- The members of a page, which says also how many items it has and how many were looked at. -/
def pageMembers (items : List Item) (last : Option Item) (count scanned : WordInt) :
    Entries Value :=
  ("Items", .list (items.map Item.wire)) :: ("Count", .number (.integer count)) ::
    ("ScannedCount", .number (.integer scanned)) :: lastMember last

/-- A whole number of 32 bits that is not negative. -/
def IsCount (i : WordInt) : Prop :=
  0 ≤ i.toInt ∧ i.toInt < 0x80000000

/-- The members of an answer that says the reply. -/
def Tells : Reply → Entries Value → Prop
  | .item (some found), ms => ms = [("Item", found.wire)]
  | .item none, ms => ms = []
  | .done, ms => ms = []
  | .page items last, ms => ∃ count scanned, IsCount count ∧ IsCount scanned ∧
      ms.Perm (pageMembers items last count scanned)
  | _, _ => False

/-- The kind of the error that says that the condition of an update does not hold. -/
def IsRefusalKind (kind : String) : Prop :=
  bareKind kind = "ConditionalCheckFailedException"

/-- The members of the error that says a refusal. -/
def refusalMembers (kind message : String) : Entries Value :=
  [("__type", .string kind), ("message", .string message)]

/-- What a table may send to say a reply. An error names its kind in the body, and may name it in a
header too. -/
inductive Sends : Reply → Delivery → Prop
  | answer {r : Reply} {status : Nat} {ms : Entries Value} (errorType : Option String)
      (success : 200 ≤ status ∧ status < 300) (tells : r.Tells ms) :
      Sends r (.answered status errorType (encode (Value.map ms).chars))
  | refusal {status : Nat} {kind : String} {errorType : Option String} (message : String)
      (failure : ¬(200 ≤ status ∧ status < 300)) (refuses : IsRefusalKind kind)
      (header : ∀ k, errorType = some k → IsRefusalKind k) :
      Sends .refused (.answered status errorType
        (encode (Value.map (refusalMembers kind message)).chars))

/-- Every reply but a failure can be said. -/
theorem exists_sends {r : Reply} (h : ∀ fault, r ≠ .failed fault) : ∃ d, r.Sends d := by
  have htold : ∀ {r : Reply}, (∃ ms, r.Tells ms) → ∃ d, r.Sends d := by
    rintro r ⟨ms, hms⟩
    exact ⟨_, @Sends.answer _ 200 _ none (by decide) hms⟩
  cases r with
  | item item =>
    cases item with
    | none => exact htold ⟨_, rfl⟩
    | some item => exact htold ⟨_, rfl⟩
  | page items last =>
    have hzero : IsCount ⟨0, by decide, by decide⟩ := by unfold IsCount; decide
    exact htold ⟨_, _, _, hzero, hzero, .refl _⟩
  | done => exact htold ⟨_, rfl⟩
  | refused =>
    have hkind : IsRefusalKind "ConditionalCheckFailedException" := by
      unfold IsRefusalKind
      decide
    exact ⟨_, @Sends.refusal 400 _ none "" (by decide) hkind nofun⟩
  | failed fault => exact absurd rfl (h fault)

/-! ## What is read -/

/-- A reply that is read where an operation is answered: it is one of those the operation has, and
there is room for its items. -/
def Readable : Operation → Reply → Prop
  | .getItem, .item found => ∀ item, found = some item → item.Legible 126
  | .scan, .page items last =>
    (∀ item ∈ items, item.Legible 125) ∧ ∀ key, last = some key → key.Legible 126
  | .putItem, .done | .updateItem, .done | .deleteItem, .done | .updateItem, .refused => True
  | _, _ => False

end Reply

theorem Cell.whole_typed {kind : String} {v : Value} (h : v.Whole) : (typed kind v).Whole :=
  Value.whole_map.2 (List.forall_mem_singleton.2 h)

theorem Cell.whole_textList (items : List String) : (textList items).Whole := by
  refine Value.whole_list.2 fun v hv => ?_
  obtain ⟨s, -, rfl⟩ := List.mem_map.1 hv
  exact Value.whole_string s

/-- What is written of a cell has its numbers in texts. -/
theorem Cell.Legible.whole_wire {room : Nat} {c : Cell} (h : c.Legible room) : c.wire.Whole := by
  induction h with
  | null isNull => exact whole_typed (Value.whole_bool isNull)
  | bool b => exact whole_typed (Value.whole_bool b)
  | number numeral => exact whole_typed (Value.whole_string numeral)
  | text s => exact whole_typed (Value.whole_string s)
  | list _ ih =>
    rw [wire, wireItems_nil]
    exact whole_typed (Value.whole_list.2 (List.forall_mem_map.2 ih))
  | map _ _ ih =>
    rw [wire, wireMembers_nil]
    exact whole_typed (Value.whole_map.2 (List.forall_mem_map.2 ih))
  | numbers numerals => exact whole_typed (whole_textList numerals)
  | texts items => exact whole_typed (whole_textList items)
  | @binary _ octets _ => exact whole_typed (Value.whole_string octets)
  | @binaries _ items _ => exact whole_typed (whole_textList items)

theorem Item.Legible.whole_wire {room : Nat} {item : Item} (h : item.Legible room) :
    item.wire.Whole := by
  rw [wire, Cell.wireMembers_nil]
  exact Value.whole_map.2 (List.forall_mem_map.2 fun e he => (h.cells e he).whole_wire)

/-- An item that can be read has the shape of an item. -/
theorem Item.Legible.fits {room : Nat} {item : Item} (h : item.Legible room) :
    Shape.fits (room + 1) .item (item.wire.treeIn forms) = true := by
  have hread := h.ofTree?_wire
  rw [treeIn_wire] at hread ⊢
  rw [Shape.fits, hread]
  rfl

theorem Shape.fitsItems_written {room : Nat} {items : List Item}
    (h : ∀ item ∈ items, item.Legible room) :
    fitsItems (room + 1) .item (items.map fun item => item.wire.treeIn forms) = true := by
  induction items with
  | nil => rfl
  | cons item items ih =>
    obtain ⟨hitem, hitems⟩ := List.forall_mem_cons.1 h
    rw [List.map_cons, fitsItems, hitem.fits, ih hitems]
    rfl

/-- A whole number that 32 bits can hold counts. -/
theorem Shape.fits_count {room : Nat} {i : WordInt} (h : Reply.IsCount i) :
    fits room .count ((Value.number (.integer i)).treeIn forms) = true := by
  have hlow : -0x80000000 ≤ i.toInt := Int.le_trans (by decide) h.1
  exact decide_eq_true ⟨hlow, h.2⟩

namespace Reply

/-! ## Pages -/

theorem nodup_pageMembers (items : List Item) (last : Option Item) (count scanned : WordInt) :
    (names (pageMembers items last count scanned)).Nodup := by
  cases last <;> simp [pageMembers, names, lastMember]

section Page
variable {items : List Item} {last : Option Item} (hitems : ∀ item ∈ items, item.Legible 125)
include hitems

/-- The items of a page are read. -/
theorem items_written {ms : Entries Value} (hn : (names ms).Nodup)
    (hfound : find? "Items" ms = some (.list (items.map Item.wire))) :
    Reply.items "Items" (ms.map member) = items := by
  have hread : ∀ item ∈ items, Item.ofTree? (room - 1) (item.wire.treeIn forms) = some item :=
    fun item hitem => (hitems item hitem).ofTree?_wire
  rw [Reply.items, last?_written hn, hfound, Option.map_some, Value.treeIn_list, List.map_map]
  simp only [List.filterMap_map, Function.comp_def]
  rw [List.filterMap_congr hread, List.filterMap_some]

variable (hlast : ∀ key, last = some key → key.Legible 126)
include hlast

theorem whole_pageMembers (count scanned : WordInt) :
    (Value.map (pageMembers items last count scanned)).Whole := by
  have hlist : (Value.list (items.map Item.wire)).Whole :=
    Value.whole_list.2 (List.forall_mem_map.2 fun item hitem => (hitems item hitem).whole_wire)
  rw [Value.whole_map, pageMembers]
  simp only [List.forall_mem_cons]
  refine ⟨hlist, Value.whole_number.2 ⟨_, rfl⟩, Value.whole_number.2 ⟨_, rfl⟩, ?_⟩
  cases last with
  | none => nofun
  | some key => exact List.forall_mem_singleton.2 (hlast key rfl).whole_wire

theorem fits_pageMembers {count scanned : WordInt} (hcount : IsCount count)
    (hscanned : IsCount scanned) :
    ∀ e ∈ pageMembers items last count scanned, Shape.FitsMember room (shapes .scan) e := by
  have hlist : Shape.fits room (.list .item)
      ((Value.list (items.map Item.wire)).treeIn forms) = true := by
    rw [Value.treeIn_list, List.map_map, Shape.fits]
    exact Shape.fitsItems_written hitems
  rw [pageMembers]
  simp only [List.forall_mem_cons]
  refine ⟨.inr hlist, .inr (Shape.fits_count hcount), .inr (Shape.fits_count hscanned), ?_⟩
  cases last with
  | none => nofun
  | some key => exact List.forall_mem_singleton.2 (.inr (hlast key rfl).fits)

end Page

/-! ## Answers -/

section Answered
variable {operation : Operation} {status : Nat} {ms : Entries Value} (errorType : Option String)
  (hstatus : 200 ≤ status ∧ status < 300)
include hstatus

/-- An answer of success is read. -/
theorem ofDelivery_success (hwhole : (Value.map ms).Whole)
    (hfits : ∀ e ∈ ms, Shape.FitsMember room (shapes operation) e) :
    ofDelivery operation (.answered status errorType (encode (Value.map ms).chars))
      = ofMembers (ms.map member) operation := by
  rw [ofDelivery, if_pos hstatus, ofAnswer, members?_chars hwhole]
  exact if_pos (Shape.fitsMembers_written.2 hfits)

/-- An answer without members says nothing but that it is done. -/
theorem ofDelivery_empty : ofDelivery operation
    (.answered status errorType (encode (Value.map []).chars)) = ofMembers [] operation :=
  ofDelivery_success errorType hstatus (by simp) nofun

theorem ofDelivery_item {found : Item} (h : found.Legible 126) :
    ofDelivery .getItem (.answered status errorType
      (encode (Value.map [("Item", found.wire)]).chars)) = .item (some found) := by
  have hfits : Shape.FitsMember room (shapes .getItem) ("Item", found.wire) := .inr h.fits
  have hread : Item.ofTree? room (found.wire.treeIn forms) = some found := h.ofTree?_wire
  rw [ofDelivery_success errorType hstatus (by simpa using h.whole_wire) (by simpa using hfits),
    ofMembers, item?, last?_written (by simp [names])]
  simp [find?, hread]

theorem ofDelivery_page {items : List Item} {last : Option Item}
    (hitems : ∀ item ∈ items, item.Legible 125) (hlast : ∀ key, last = some key → key.Legible 126)
    (h : (Reply.page items last).Tells ms) :
    ofDelivery .scan (.answered status errorType (encode (Value.map ms).chars))
      = .page items last := by
  obtain ⟨count, scanned, hcount, hscanned, hperm⟩ := h
  have hn : (names ms).Nodup :=
    (hperm.map Prod.fst).nodup_iff.2 (nodup_pageMembers items last count scanned)
  have hfound : ∀ name, find? name ms = find? name (pageMembers items last count scanned) :=
    find?_of_perm hn hperm
  have hwhole : (Value.map ms).Whole := Value.whole_map.2 fun e he =>
    Value.whole_map.1 (whole_pageMembers hitems hlast count scanned) e (hperm.mem_iff.1 he)
  have hfits : ∀ e ∈ ms, Shape.FitsMember room (shapes .scan) e := fun e he =>
    fits_pageMembers hitems hlast hcount hscanned e (hperm.mem_iff.1 he)
  rw [ofDelivery_success errorType hstatus hwhole hfits, ofMembers,
    items_written hitems hn (hfound "Items"), item?, last?_written hn, hfound]
  cases last with
  | none => rfl
  | some key =>
    have hread : Item.ofTree? room (key.wire.treeIn forms) = some key :=
      (hlast key rfl).ofTree?_wire
    simp [pageMembers, find?, lastMember, hread]

end Answered

/-- The kind of the error is found in the header or in the body. -/
theorem kind_of_refusal {kind : String} {errorType : Option String} (message : String)
    (hkind : IsRefusalKind kind) (hheader : ∀ k, errorType = some k → IsRefusalKind k) :
    (errorType <|> textUnder? "code" ((refusalMembers kind message).map member) <|>
      textUnder? "__type" ((refusalMembers kind message).map member)).any
        (bareKind · == "ConditionalCheckFailedException") = true := by
  have hcode : textUnder? "code" ((refusalMembers kind message).map member) = none := by
    have hnames : written "__type" ≠ "code" ∧ written "message" ≠ "code" := by decide
    simp [refusalMembers, textUnder?, member, Value.treeIn, forms, hnames]
  have htype : textUnder? "__type" ((refusalMembers kind message).map member) = some kind := by
    have hnames : written "__type" = "__type" ∧ written "message" ≠ "__type" := by decide
    simp [refusalMembers, textUnder?, member, Value.treeIn, forms, hnames]
  rw [hcode, htype]
  cases errorType with
  | none => exact beq_iff_eq.2 hkind
  | some k => exact beq_iff_eq.2 (hheader k rfl)

/-- An error that names the kind of the refusal is read as the refusal. -/
theorem ofDelivery_refusal {status : Nat} {kind : String} {errorType : Option String}
    (message : String) (hstatus : ¬(200 ≤ status ∧ status < 300)) (hkind : IsRefusalKind kind)
    (hheader : ∀ k, errorType = some k → IsRefusalKind k) :
    ofDelivery .updateItem (.answered status errorType
      (encode (Value.map (refusalMembers kind message)).chars)) = .refused := by
  have hreadable : isReadable ((refusalMembers kind message).map member) = true := by
    simp [refusalMembers, isReadable, member, Value.treeIn, forms]
  have hfits : Shape.fitsMembers room [("message", .text), ("Item", .item)]
      ((refusalMembers kind message).map member) = true := by
    refine Shape.fitsMembers_written.2 (List.forall_mem_cons.2 ⟨.inr rfl,
      List.forall_mem_singleton.2 (.inr ?_)⟩)
    show Shape.fits room .text _ = true
    simp [Value.treeIn, forms, Shape.fits, Shape.fitsText]
  have hrefusal :
      isRefusal errorType (encode (Value.map (refusalMembers kind message)).chars) = true := by
    rw [isRefusal, members?_chars (by simp [refusalMembers])]
    simp only [hreadable, hfits, kind_of_refusal message hkind hheader, Bool.and_self]
  rw [ofDelivery, if_neg hstatus, if_pos ⟨rfl, hrefusal⟩]

/-- What is read of an answer that says a reply is the reply. -/
theorem ofDelivery_of_sends {operation : Operation} {r : Reply} {d : Delivery}
    (hr : r.Readable operation) (h : r.Sends d) : ofDelivery operation d = r := by
  cases h with
  | @answer _ status ms errorType success tells =>
    cases r with
    | item found =>
      obtain rfl : operation = .getItem := by cases operation <;> first | rfl | exact hr.elim
      cases found with
      | none =>
        obtain rfl : ms = [] := tells
        exact ofDelivery_empty errorType success
      | some found =>
        obtain rfl : ms = [("Item", found.wire)] := tells
        exact ofDelivery_item errorType success (hr found rfl)
    | page items last =>
      obtain rfl : operation = .scan := by cases operation <;> first | rfl | exact hr.elim
      exact ofDelivery_page errorType success hr.1 hr.2 tells
    | done =>
      obtain rfl : ms = [] := tells
      rw [ofDelivery_empty errorType success]
      cases operation with
      | getItem | scan => exact hr.elim
      | _ => rfl
    | refused => exact tells.elim
    | failed fault => exact tells.elim
  | @refusal status kind errorType message failure refuses header =>
    obtain rfl : operation = .updateItem := by cases operation <;> first | rfl | exact hr.elim
    exact ofDelivery_refusal message failure refuses header

end Reply

end RecordService.Table
