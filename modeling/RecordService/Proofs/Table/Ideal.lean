import RecordService.Proofs.Expression.Clause
import RecordService.Proofs.Table.Delivered
/-!
# The ideal table

A table that does what its requests say, and knows of them only what is sent: items are found by the
text of a key, expressions are read as texts and resolved through their tables of placeholders. It
may write an item in any order of its cells, list items in any order, and cut a listing into pages
wherever it likes. To a request that makes no sense it may answer anything, and do anything.
-/

namespace RecordService.Table

open Entries
open Expression

/-- The items of a table, by the text of their key attribute. -/
structure Ideal where
  keyAttribute : String
  items : Entries Item

namespace Ideal

/-! ## What requests say -/

/-- The text of a key. -/
def keyText? : Item → Option String
  | [(_, .text k)] => some k
  | _ => none

/-- The text under which an item is kept. -/
def keyOf? (t : Ideal) (item : Item) : Option String :=
  match find? t.keyAttribute item with
  | some (.text k) => some k
  | _ => none

/-- The attribute that a condition wants an item to have. -/
def wanted? (condition : String) (nameOf : Entries String) : Option String := do
  let rest ← after? "attribute_exists(" condition
  match Text.cut ")" rest with
  | [placeholder, ""] => find? placeholder nameOf
  | _ => none

/-- What an update says: whose item to change if it has the attribute, and the cells to set. -/
structure Change where
  key : String
  wanted : String
  cells : Item

def change? (key : Item) (condition : String) (update : Input) : Option Change := do
  let k ← keyText? key
  let name ← wanted? condition update.names
  let cells ← assignments? update.expression update.names update.values
  pure ⟨k, name, cells⟩

/-- The attribute that a filter looks at, and the cell it compares it with. -/
def comparison? (filter : Input) : Option (String × Cell) :=
  resolve? filter.names filter.values filter.expression

/-- The item has the attribute, with the same cell. -/
def passes (comparison : String × Cell) (item : Item) : Bool :=
  (find? comparison.1 item).any fun c => c.same comparison.2

/-- The items on which a filter holds, or all of them. -/
def matching? (t : Ideal) : Option Input → Option (List Item)
  | none => some (t.items.map (·.2))
  | some filter => do
    let comparison ← comparison? filter
    pure ((t.items.map (·.2)).filter (passes comparison))

/-! ## What it answers -/

/-- Writes an item in place of any other under the same key. -/
def put (t : Ideal) (k : String) (item : Item) : Ideal :=
  { t with items := Entries.put k item t.items }

/-- The table answers a request that is not for a page, and becomes `after`. -/
def Answers (t : Ideal) : Request → Reply → Ideal → Prop
  | .getItem key, reply, after => ∀ k, keyText? key = some k → after = t ∧
      match find? k t.items with
      | some item => ∃ shown, item.same shown = true ∧ reply = .item (some shown)
      | none => reply = .item none
  | .putItem item, reply, after => ∀ k, t.keyOf? item = some k →
      reply = .done ∧ after = t.put k item
  | .updateItem key condition update, reply, after => ∀ c, change? key condition update = some c →
      match (find? c.key t.items).filter fun item => c.wanted ∈ names item with
      | some item => reply = .done ∧ after = t.put c.key (putAll c.cells item)
      | none => reply = .refused ∧ after = t
  | .deleteItem key, reply, after => ∀ k, keyText? key = some k →
      reply = .done ∧ after = { t with items := erase k t.items }
  | .scan .., _, _ => True

/-- The items as they are listed. -/
def Lists (found listing : List Item) : Prop :=
  ∃ order, found.Perm order ∧ List.Forall₂ (fun item shown => item.same shown = true) order listing

/-- A page that began after `start` may name this key to go on after; there is room for it in an
answer. -/
def GoesOn (start : Option Item) (last : Item) : Prop :=
  last ≠ [] ∧ last.Legible 126 ∧ ∀ first, start = some first → last.same first = false

/-- The items that are left are given page by page, as long as it is asked for the next one. -/
def Pages (filter : Option Input) : List Item → Option Item → List Request → List Reply → Prop
  | _, _, [], [] => True
  | left, start, q :: qs, r :: rs => q = .scan filter start →
      ∃ items rest, left = items ++ rest ∧
        ((rest = [] ∧ rs = [] ∧ r = .page items none) ∨
          ∃ last, GoesOn start last ∧ r = .page items (some last) ∧
            Pages filter rest (some last) qs rs)
  | _, _, _, _ => False

/-- The replies to the requests of one command, and the table after them. -/
def Converses : Ideal → List Request → List Reply → Ideal → Prop
  | t, [], [], after => after = t
  | t, .scan filter none :: qs, replies, after => ∀ found, t.matching? filter = some found →
      after = t ∧ ∃ listing, Lists found listing ∧
        Pages filter listing none (.scan filter none :: qs) replies
  | t, q :: qs, r :: rs, after => ∃ mid, t.Answers q r mid ∧ mid.Converses qs rs after
  | _, _, _, _ => False

/-! ## What it makes of what is sent -/

theorem wanted?_exists (name : String) (nameOf : Entries String) :
    wanted? ("attribute_exists(" ++ nameAlias name ++ ")") nameOf
      = find? (nameAlias name) nameOf := by
  have hfree : ∀ p ∈ [nameAlias name, ""], ')' ∉ p.toList := by
    simp [toList_nameAlias, not_mem_token (show isPlain ')' = false by decide)]
  have hsep : ")".toList = ')' :: [] := by decide
  have hcut := Text.cut_intercalate hsep (List.cons_ne_nil _ _) hfree
  simp only [String.intercalate_cons_cons, String.intercalate_singleton, String.append_empty]
    at hcut
  simp only [wanted?, String.append_assoc, after?_append, hcut, Option.bind_eq_bind,
    Option.bind_some]

theorem change?_of {key : Key} {condition name : String} {update : Input} {cells : Item}
    (hwanted : wanted? condition update.names = some name)
    (hassign : assignments? update.expression update.names update.values = some cells) :
    change? (Item.ofKey key) condition update = some ⟨key.value, name, cells⟩ := by
  simp [change?, keyText?, Item.ofKey, hwanted, hassign]

/-- The comparison that a filter was made for. -/
theorem comparison?_ofFilter {name : String} {value : Option String} {f : Filter}
    (h : Filter.ofParameter name value = .ok f) : f.name = name ∧
      f.value = .string (value.getD "") ∧
      comparison? (Input.ofFilter f) = some (name, .text (value.getD "")) := by
  obtain ⟨t, ht, h⟩ := bind_eq_ok.1 h
  cases h
  obtain ⟨-, rfl⟩ := Update.token?_ok ht
  refine ⟨rfl, rfl, ?_⟩
  exact resolve?_term (e := (name, Cell.text (value.getD ""))) (if_pos rfl) (if_pos rfl)

/-! ## It can always answer -/

theorem mem_of_matching? {t : Ideal} {filter : Option Input} {found : List Item}
    (h : t.matching? filter = some found) {item : Item} (hitem : item ∈ found) :
    item ∈ t.items.map (·.2) := by
  cases filter with
  | none => cases h; exact hitem
  | some filter =>
    obtain ⟨comparison, -, h⟩ := Option.bind_eq_some_iff.1 h
    cases h
    exact List.mem_of_mem_filter hitem

/-- What makes no sense may be answered anyhow. -/
theorem exists_of_sense {α : Type} (t : Ideal) {P : α → Reply → Ideal → Prop} {said : Option α}
    (h : ∀ a, ∃ r after, (∃ d, r.Sends d) ∧ P a r after) :
    ∃ r after, (∃ d, r.Sends d) ∧ ∀ a, said = some a → P a r after := by
  cases said with
  | none => exact ⟨.done, t, Reply.exists_sends nofun, nofun⟩
  | some a =>
    obtain ⟨r, after, hd, hP⟩ := h a
    exact ⟨r, after, hd, by rintro _ ⟨⟩; exact hP⟩

variable {t : Ideal} (ht : ∀ item ∈ t.items.map (·.2), item.same item = true)
include ht

/-- It can show each item as it keeps it. -/
theorem exists_answer (q : Request) : ∃ r after, (∃ d, r.Sends d) ∧ t.Answers q r after := by
  cases q with
  | getItem key =>
    refine exists_of_sense t fun k =>
      ⟨.item (find? k t.items), t, Reply.exists_sends nofun, rfl, ?_⟩
    cases hitem : find? k t.items with
    | none => exact rfl
    | some item => exact ⟨item, ht item (List.mem_map.2 ⟨_, mem_of_find? hitem, rfl⟩), rfl⟩
  | putItem item => exact exists_of_sense t fun k => ⟨.done, _, Reply.exists_sends nofun, rfl, rfl⟩
  | updateItem key condition update =>
    refine exists_of_sense t fun c => ?_
    cases (find? c.key t.items).filter fun item => c.wanted ∈ names item with
    | none => exact ⟨.refused, _, Reply.exists_sends nofun, rfl, rfl⟩
    | some item => exact ⟨.done, _, Reply.exists_sends nofun, rfl, rfl⟩
  | deleteItem key =>
    exact exists_of_sense t fun k => ⟨.done, _, Reply.exists_sends nofun, rfl, rfl⟩
  | scan filter start => exact ⟨.done, t, Reply.exists_sends nofun, trivial⟩

/-- It can give all that a filter finds on one page. -/
theorem exists_page (filter : Option Input) :
    ∃ replies deliveries after, List.Forall₂ Reply.Sends replies deliveries ∧
      ∀ requests, t.Converses (.scan filter none :: requests) replies after := by
  cases hfound : t.matching? filter with
  | none => exact ⟨[], [], t, .nil, fun _ found h => by rw [hfound] at h; cases h⟩
  | some found =>
    obtain ⟨d, hd⟩ := Reply.exists_sends (r := .page found none) nofun
    refine ⟨[.page found none], [d], t, .cons hd .nil, fun _ found' h => ?_⟩
    cases hfound.symm.trans h
    have hsame : List.Forall₂ (fun item shown => Item.same item shown = true) found found :=
      List.forall₂_same.2 fun item hitem => ht item (mem_of_matching? hfound hitem)
    exact ⟨rfl, found, ⟨found, .refl found, hsame⟩, fun _ =>
      ⟨found, [], (List.append_nil found).symm, .inl ⟨rfl, rfl, rfl⟩⟩⟩

end Ideal

end RecordService.Table
