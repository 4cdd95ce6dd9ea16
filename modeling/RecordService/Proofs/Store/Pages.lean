import RecordService.Proofs.Store.Reply
/-!
# A scan, turn by turn

A scan is a number of turns: in each of them one page is asked for, and one answer comes back. What
a turn leads to depends on the turn alone (`Turn.GoesOn`, `Turn.Fails`), and the outcome of the scan
on its turns. Of the answers of the table no more are looked at than there are turns.
-/

namespace RecordService

/-- A request for a page can be replied to like this. -/
def Table.Reply.IsForScan : Reply → Prop
  | .page .. | .failed _ => True
  | _ => False

theorem Table.Reply.isForScan_ofDelivery (d : Table.Delivery) :
    (Reply.ofDelivery .scan d).IsForScan := by
  have hanswer : ∀ body, (ofAnswer .scan body).IsForScan := by
    intro body
    unfold ofAnswer
    split
    · split <;> trivial
    · trivial
  unfold ofDelivery
  split
  · trivial
  · split
    · exact hanswer _
    · simp [IsForScan]

namespace Store

open Expression Table

/-- A page that was asked for: the key it was to start after, and what came back. -/
structure Turn where
  start : Option Item
  reply : Reply

namespace Turn

/-- The request for the page. -/
def request (filter : Option Input) (t : Turn) : Request :=
  .scan filter t.start

/-- The member of the request that is not the same in all turns. -/
def startMember (t : Turn) : List (String × Value) :=
  match t.start with
  | some key => [("ExclusiveStartKey", key.wire)]
  | none => []

variable (m : Remote)

/-- The members of the request that are the same in all turns. -/
def sharedMembers (tableName : String) (filter : Option Input) : List (String × Value) :=
  ("TableName", .string tableName) ::
    match filter with
    | some input => ("FilterExpression", .string input.expression) :: input.tables
    | none => []

theorem body_request (tableName : String) (filter : Option Input) (t : Turn) :
    (t.request filter).body tableName =
      .map (sharedMembers tableName filter ++ t.startMember) := by
  cases filter <;> cases t with | mk start => cases start <;> rfl

/-- The page was read, and its items are these records. -/
def Reads (t : Turn) (records : List Record) : Prop :=
  ∃ items last, t.reply = .page items last ∧
    List.Forall₂ (fun item r => item.record m.keyAttribute = .ok r) items records

/-- The page was not read, or an item is no record; of these items the first one counts. -/
inductive Fails (t : Turn) : StoreError → Prop where
  | page {fault : BackendFault} (h : t.reply = .failed fault) : Fails t (.backend fault)
  | item {before after : List Item} {item : Item} {last : Option Item} {records : List Record}
      {e : StoreError} (h : t.reply = .page (before ++ item :: after) last)
      (hbefore : List.Forall₂ (fun item r => item.record m.keyAttribute = .ok r) before records)
      (hitem : item.record m.keyAttribute = .error e) : Fails t e

/-- The page names a key to go on after: one that is not empty, and not the one just sent. -/
def Names (t : Turn) (key : Item) : Prop :=
  ∃ items, t.reply = .page items (some key) ∧ key ≠ [] ∧
    ∀ start, t.start = some start → key.same start = false

/-- The page was read with all its items, and names a key that can be sent. -/
def GoesOn (t : Turn) (key : Item) : Prop :=
  (∃ records, t.Reads m records) ∧ t.Names key ∧ key.isKnown = true

/-- The page was read with all its items, and names a key that cannot be sent. -/
def Sticks (t : Turn) : Prop :=
  (∃ records, t.Reads m records) ∧ ∃ key, t.Names key ∧ key.isKnown = false

/-! ## One turn -/

variable {m} {start : Option Item}

theorem names_iff {items : List Item} {last : Option Item} {key : Item} :
    Turn.Names ⟨start, .page items last⟩ key ↔ last.filter (Remote.goesOn start) = some key := by
  have hgoesOn : Remote.goesOn start key = true ↔
      key ≠ [] ∧ ∀ first, start = some first → key.same first = false := by
    cases start <;> simp [Remote.goesOn]
  rw [Option.filter_eq_some_iff, hgoesOn]
  constructor
  · rintro ⟨_, ⟨⟩, hkey⟩
    exact ⟨rfl, hkey⟩
  · rintro ⟨rfl, hkey⟩
    exact ⟨items, rfl, hkey⟩

/-- What a page that was read comes to: the records of its items, and the key it names. -/
theorem page_eq_ok {reply : Reply} {records : List Record} {next : Option Item} :
    m.page start reply = .ok (records, next) ↔ Turn.Reads m ⟨start, reply⟩ records ∧
      ∀ key, next = some key ↔ Turn.Names ⟨start, reply⟩ key := by
  cases reply with
  | page items last =>
    rw [Remote.page_eq, map_eq_ok]
    simp only [Prod.mk.injEq, mapM_eq_ok, names_iff]
    constructor
    · rintro ⟨_, hrecords, rfl, rfl⟩
      exact ⟨⟨items, last, rfl, hrecords⟩, fun key => Iff.rfl⟩
    · rintro ⟨⟨_, _, ⟨⟩, hrecords⟩, hnext⟩
      exact ⟨records, hrecords, rfl, (Option.ext hnext).symm⟩
  | _ => exact iff_of_false nofun (by rintro ⟨⟨_, _, ⟨⟩, _⟩, _⟩)

theorem page_eq_error {reply : Reply} {e : StoreError} (h : reply.IsForScan) :
    m.page start reply = .error e ↔ Turn.Fails m ⟨start, reply⟩ e := by
  cases reply with
  | page items last =>
    have hmap : ∀ {x : Except StoreError (List Record)},
        x.map (fun records => (records, last.filter (Remote.goesOn start))) = .error e ↔
          x = .error e := by
      rintro (_ | _) <;> simp [Except.map]
    rw [Remote.page_eq, hmap, mapM_eq_error]
    constructor
    · rintro ⟨before, item, after, records, rfl, hbefore, hitem⟩
      exact .item rfl hbefore hitem
    · rintro (⟨⟨⟩⟩ | ⟨⟨⟩, hbefore, hitem⟩)
      exact ⟨_, _, _, _, rfl, hbefore, hitem⟩
  | failed fault =>
    constructor
    · rintro ⟨⟩
      exact .page rfl
    · rintro (⟨⟨⟩⟩ | ⟨⟨⟩⟩)
      rfl
  | _ => exact h.elim

theorem Names.unique {t : Turn} {key other : Item} (h : t.Names key) (h' : t.Names other) :
    key = other := by
  obtain ⟨items, hreply, -⟩ := h
  obtain ⟨_, hreply', -⟩ := h'
  cases hreply.symm.trans hreply'
  rfl

theorem Reads.unique {t : Turn} {records others : List Record} (h : t.Reads m records)
    (h' : t.Reads m others) : records = others := by
  obtain ⟨items, last, hreply, hrecords⟩ := h
  obtain ⟨_, _, hreply', hothers⟩ := h'
  cases hreply.symm.trans hreply'
  exact Except.ok.inj ((mapM_eq_ok.2 hrecords).symm.trans (mapM_eq_ok.2 hothers))

theorem Fails.page_eq {t : Turn} {e : StoreError} (h : t.Fails m e) :
    m.page t.start t.reply = .error e := by
  obtain ⟨start, reply⟩ := t
  refine (page_eq_error ?_).2 h
  cases h with
  | page h => exact h ▸ trivial
  | item h => exact h ▸ trivial

theorem Fails.unique {t : Turn} {e e' : StoreError} (h : t.Fails m e) (h' : t.Fails m e') :
    e = e' :=
  Except.error.inj (h.page_eq.symm.trans h'.page_eq)

/-- A page that was read does not fail. -/
theorem Reads.not_fails {t : Turn} {records : List Record} (h : t.Reads m records)
    (e : StoreError) : ¬t.Fails m e := by
  obtain ⟨items, last, hreply, hrecords⟩ := h
  intro hfails
  have hpage := hfails.page_eq
  rw [hreply, Remote.page_eq, mapM_eq_ok.2 hrecords] at hpage
  cases hpage

/-- A key either can be sent or cannot. -/
theorem Sticks.not_goesOn {t : Turn} (h : t.Sticks m) (key : Item) : ¬t.GoesOn m key := by
  obtain ⟨-, other, hother, hunknown⟩ := h
  rintro ⟨-, hkey, hknown⟩
  rw [hother.unique hkey, hknown] at hunknown
  cases hunknown

end Turn

/-! ## All turns -/

namespace Remote

/-- The reply in a turn; when there is none left, the table does not answer. -/
def replyAt (replies : List Reply) (turn : Nat) : Reply :=
  replies.getD turn (.failed .dispatch)

/-- A scan that goes on after `start`: its turns, and what they come to. -/
inductive Course (m : Remote) :
    Option Item → List Reply → List Turn → Except StoreError (List Record) → Prop where
  | fails {start : Option Item} {replies : List Reply} {e : StoreError}
      (h : Turn.Fails m ⟨start, replyAt replies 0⟩ e) :
      Course m start replies [⟨start, replyAt replies 0⟩] (.error e)
  | sticks {start : Option Item} {replies : List Reply}
      (h : Turn.Sticks m ⟨start, replyAt replies 0⟩) :
      Course m start replies [⟨start, replyAt replies 0⟩] (.error (.backend .request))
  | ends {start : Option Item} {replies : List Reply} {records : List Record}
      (h : Turn.Reads m ⟨start, replyAt replies 0⟩ records)
      (hlast : ∀ key, ¬Turn.Names ⟨start, replyAt replies 0⟩ key) :
      Course m start replies [⟨start, replyAt replies 0⟩] (.ok records)
  | goesOn {start : Option Item} {replies : List Reply} {records : List Record} {key : Item}
      {turns : List Turn} {result : Except StoreError (List Record)}
      (h : Turn.Reads m ⟨start, replyAt replies 0⟩ records)
      (hkey : Turn.Names ⟨start, replyAt replies 0⟩ key) (hknown : key.isKnown = true)
      (rest : Course m (some key) replies.tail turns result) :
      Course m start replies (⟨start, replyAt replies 0⟩ :: turns) (result.map (records ++ ·))

variable {m : Remote} {start : Option Item} {replies : List Reply} {turns : List Turn}
  {result : Except StoreError (List Record)}

/-- A scan takes such a course. -/
theorem scanFrom_course (filter : Option Input) (start : Option Item) {replies : List Reply}
    (h : ∀ r ∈ replies, r.IsForScan) : ∃ turns,
      Course m start replies turns (m.scanFrom filter start replies).1 ∧
        (m.scanFrom filter start replies).2 = turns.map (Turn.request filter) := by
  induction replies generalizing start with
  | nil => exact ⟨_, .fails (.page rfl), rfl⟩
  | cons reply replies ih =>
    obtain ⟨hreply, hreplies⟩ := List.forall_mem_cons.1 h
    rw [scanFrom]
    split
    · next e hpage => exact ⟨_, .fails ((Turn.page_eq_error hreply).1 hpage), rfl⟩
    · next records hpage =>
      obtain ⟨hreads, hnext⟩ := Turn.page_eq_ok.1 hpage
      exact ⟨_, .ends hreads fun key hkey => by simpa using (hnext key).2 hkey, rfl⟩
    · next records key hpage =>
      obtain ⟨hreads, hnext⟩ := Turn.page_eq_ok.1 hpage
      have hkey := (hnext key).1 rfl
      split
      · next hknown =>
        obtain ⟨turns, hcourse, hrequests⟩ := ih (some key) hreplies
        exact ⟨_, .goesOn hreads hkey hknown hcourse, by simp [hrequests, Turn.request]⟩
      · next hknown =>
        exact ⟨_, .sticks ⟨⟨records, hreads⟩, key, hkey, by simpa using hknown⟩, rfl⟩

namespace Course

/-- The first turn begins where the scan does. -/
theorem first (h : Course m start replies turns result) :
    ∃ rest, turns = ⟨start, replyAt replies 0⟩ :: rest := by
  cases h <;> exact ⟨_, rfl⟩

/-- In each turn the next reply comes back. -/
theorem reply_eq (h : Course m start replies turns result) {n : Nat} {t : Turn}
    (ht : turns[n]? = some t) : t.reply = replyAt replies n := by
  induction h generalizing n with
  | goesOn _ _ _ _ ih =>
    cases n with
    | zero =>
      cases ht
      rfl
    | succ n =>
      rw [ih (by simpa using ht)]
      simp [replyAt]
  | _ =>
    obtain ⟨rfl, rfl⟩ : n = 0 ∧ _ = t := by simpa [List.getElem?_singleton] using ht
    rfl

/-- There is a turn after another exactly if that one goes on, and it begins after the key. -/
theorem next_iff (h : Course m start replies turns result) {n : Nat} {t : Turn}
    (ht : turns[n]? = some t) (next : Option Item) :
    turns[n + 1]?.map Turn.start = some next ↔ ∃ key, next = some key ∧ t.GoesOn m key := by
  -- A turn that is the last does not go on.
  have hlast : ∀ {last : Turn} {n : Nat}, [last][n]? = some t → (∀ key, ¬last.GoesOn m key) →
      ([last][n + 1]?.map Turn.start = some next ↔ ∃ key, next = some key ∧ t.GoesOn m key) := by
    intro last n ht hlast
    obtain ⟨rfl, rfl⟩ : n = 0 ∧ last = t := by simpa [List.getElem?_singleton] using ht
    exact iff_of_false nofun (by rintro ⟨key, -, hkey⟩; exact hlast key hkey)
  induction h generalizing n with
  | fails hfails => exact hlast ht fun key hkey => hkey.1.elim fun _ h => h.not_fails _ hfails
  | sticks hsticks => exact hlast ht hsticks.not_goesOn
  | ends hreads hnone => exact hlast ht fun key hkey => hnone key hkey.2.1
  | goesOn hreads hkey hknown hrest ih =>
    cases n with
    | succ n => exact ih (by simpa using ht)
    | zero =>
      cases ht
      obtain ⟨rest, rfl⟩ := hrest.first
      constructor
      · rintro ⟨⟩
        exact ⟨_, rfl, ⟨_, hreads⟩, hkey, hknown⟩
      · rintro ⟨other, rfl, -, hother, -⟩
        rw [hother.unique hkey]
        rfl

/-- A turn is read, or it fails. -/
theorem reads_or_fails (h : Course m start replies turns result) :
    ∀ t ∈ turns, (∃ records, t.Reads m records) ∨ ∃ e, t.Fails m e := by
  induction h with
  | fails hfails => exact List.forall_mem_singleton.2 (.inr ⟨_, hfails⟩)
  | sticks hsticks => exact List.forall_mem_singleton.2 (.inl hsticks.1)
  | ends hreads _ => exact List.forall_mem_singleton.2 (.inl ⟨_, hreads⟩)
  | goesOn hreads _ _ _ ih => exact List.forall_mem_cons.2 ⟨.inl ⟨_, hreads⟩, ih⟩

/-- A turn that fails makes the whole scan fail. -/
theorem error_of_fails (h : Course m start replies turns result) :
    ∀ t ∈ turns, ∀ e, t.Fails m e → result = .error e := by
  induction h with
  | fails hfails =>
    intro t ht e he
    rw [List.mem_singleton.1 ht] at he
    rw [hfails.unique he]
  | sticks hsticks =>
    obtain ⟨_, hreads⟩ := hsticks.1
    intro t ht e he
    rw [List.mem_singleton.1 ht] at he
    exact (hreads.not_fails e he).elim
  | ends hreads _ =>
    intro t ht e he
    rw [List.mem_singleton.1 ht] at he
    exact (hreads.not_fails e he).elim
  | goesOn hreads _ _ _ ih =>
    refine List.forall_mem_cons.2 ⟨fun e he => (hreads.not_fails e he).elim, ?_⟩
    intro t ht e he
    rw [ih t ht e he]
    rfl

/-- So does one whose key cannot be sent. -/
theorem error_of_sticks (h : Course m start replies turns result) :
    ∀ t ∈ turns, t.Sticks m → result = .error (.backend .request) := by
  induction h with
  | fails hfails =>
    intro t ht hsticks
    rw [List.mem_singleton.1 ht] at hsticks
    obtain ⟨⟨_, hreads⟩, -⟩ := hsticks
    exact (hreads.not_fails _ hfails).elim
  | sticks _ => exact fun _ _ _ => rfl
  | ends _ hlast =>
    intro t ht hsticks
    rw [List.mem_singleton.1 ht] at hsticks
    obtain ⟨-, key, hkey, -⟩ := hsticks
    exact (hlast key hkey).elim
  | goesOn hreads hkey hknown _ ih =>
    refine List.forall_mem_cons.2 ⟨fun hsticks => ?_, fun t ht hsticks => ?_⟩
    · exact (hsticks.not_goesOn _ ⟨⟨_, hreads⟩, hkey, hknown⟩).elim
    · rw [ih t ht hsticks]
      rfl

/-- If all pages are read, and every key can be sent, their records one after another are what is
found. -/
theorem ok_of_reads (h : Course m start replies turns result) {pages : List (List Record)}
    (hpages : List.Forall₂ (Turn.Reads m) turns pages) (hsent : ∀ t ∈ turns, ¬t.Sticks m) :
    result = .ok pages.flatten := by
  induction h generalizing pages with
  | fails hfails =>
    cases hpages with
    | cons hreads _ => exact (hreads.not_fails _ hfails).elim
  | sticks hsticks => exact (hsent _ (List.mem_singleton.2 rfl) hsticks).elim
  | ends hreads _ =>
    cases hpages with
    | cons hpage hnil =>
      cases hnil
      simp [hreads.unique hpage]
  | goesOn hreads _ _ _ ih =>
    cases hpages with
    | cons hpage hpages =>
      rw [ih hpages (List.forall_mem_cons.1 hsent).2, hreads.unique hpage]
      rfl

/-- Each turn takes a reply, but the last may find none. -/
theorem length_le (h : Course m start replies turns result) :
    turns.length ≤ replies.length + 1 := by
  induction h with
  | @goesOn start replies records key turns result hreads hkey hknown hrest ih =>
    cases replies with
    | nil =>
      obtain ⟨_, _, hpage, -⟩ := hreads
      cases hpage
    | cons reply replies => simpa using ih
  | _ => simp

end Course

/-- Replies that come after those that are asked for do not matter. -/
theorem scanFrom_append (filter : Option Input) (start : Option Item) {replies : List Reply}
    (h : (m.scanFrom filter start replies).2.length ≤ replies.length) (more : List Reply) :
    m.scanFrom filter start (replies ++ more) = m.scanFrom filter start replies := by
  induction replies generalizing start with
  | nil => simp [scanFrom] at h
  | cons reply replies ih =>
    rw [List.cons_append, scanFrom, scanFrom]
    rw [scanFrom] at h
    split
    · rfl
    · rfl
    · next records key hpage =>
      split
      · next hknown =>
        simp only [hpage, if_pos hknown, List.length_cons, Nat.add_le_add_iff_right] at h
        rw [ih _ h]
      · rfl

/-- A scan of a table whose name is blank sends nothing and fails. Of any other table it goes turn
by turn: the first page is asked for without a key, and a further one exactly if the page before was
read with all its items and names a key that can be sent; it begins after that key, and all else in
its request is as before. If all pages are read, what is found is their records, one page after
another. If one fails, its fault is what comes of the scan, and so is a key that cannot be sent.
Nothing that comes back later makes a difference. -/
theorem scan_turns (m : Remote) (filter : Option Filter) (deliveries : List Delivery) :
    let sent := filter.map Input.ofFilter
    (Text.allBlank m.tableName = true →
      m.exchange deliveries (.scan filter) = (.error (.backend .request), [])) ∧
    (Text.allBlank m.tableName = false →
      ∃ (turns : List Turn) (result : Except StoreError (List Record)),
        m.exchange deliveries (.scan filter) =
          (result.map .records, turns.map (Turn.request sent)) ∧
        turns.length ≤ deliveries.length + 1 ∧
        turns.head?.map Turn.start = some none ∧
        (∀ n t, turns[n]? = some t →
          t.reply = replyAt (deliveries.map (Reply.ofDelivery .scan)) n ∧
          (t.request sent).body m.tableName =
            .map (Turn.sharedMembers m.tableName sent ++ t.startMember) ∧
          ∀ next, turns[n + 1]?.map Turn.start = some next ↔
            ∃ key, next = some key ∧ t.GoesOn m key) ∧
        (∀ t ∈ turns, (∃ records, t.Reads m records) ∨ ∃ e, t.Fails m e) ∧
        (∀ t ∈ turns, ∀ e, t.Fails m e → result = .error e) ∧
        (∀ t ∈ turns, t.Sticks m → result = .error (.backend .request)) ∧
        (∀ pages, List.Forall₂ (Turn.Reads m) turns pages → (∀ t ∈ turns, ¬t.Sticks m) →
          result = .ok pages.flatten) ∧
        (turns.length ≤ deliveries.length → ∀ more,
          m.exchange (deliveries ++ more) (.scan filter) =
            m.exchange deliveries (.scan filter))) := by
  intro sent
  refine ⟨fun h => exchange_blank h deliveries _, fun h => ?_⟩
  have hreplies : ∀ r ∈ deliveries.map (Reply.ofDelivery .scan), r.IsForScan := by
    simp [Reply.isForScan_ofDelivery]
  obtain ⟨turns, hcourse, hrequests⟩ := scanFrom_course (m := m) sent none hreplies
  obtain ⟨rest, hfirst⟩ := hcourse.first
  have hexchange : ∀ given, m.exchange given (.scan filter) =
      ((m.scanFrom sent none (given.map (Reply.ofDelivery .scan))).1.map .records,
        (m.scanFrom sent none (given.map (Reply.ofDelivery .scan))).2) :=
    fun given => exchange_eq_run h given _
  refine ⟨turns, _, by rw [hexchange, hrequests], by simpa using hcourse.length_le,
    by simp [hfirst], fun n t ht => ?_, hcourse.reads_or_fails, hcourse.error_of_fails,
    hcourse.error_of_sticks, fun pages => hcourse.ok_of_reads, fun hlength more => ?_⟩
  · exact ⟨hcourse.reply_eq ht, t.body_request _ _, hcourse.next_iff ht⟩
  · have hall : (m.scanFrom sent none (deliveries.map (Reply.ofDelivery .scan))).2.length ≤
        (deliveries.map (Reply.ofDelivery .scan)).length := by
      simpa [hrequests] using hlength
    rw [hexchange, hexchange, List.map_append, scanFrom_append _ _ hall]

/-- After an empty page that names a key and a page that names none, nothing that is delivered is
looked at. -/
theorem scan_turns_two :
    let m : Remote := ⟨"t", "k"⟩
    let answer (body : String) : Delivery := .answered 200 none body.toUTF8.toList
    let deliveries :=
      [answer "\x7b\"LastEvaluatedKey\":\x7b\"k\":\x7b\"S\":\"a\"\x7d\x7d\x7d",
        answer "\x7b\"Items\":[\x7b\"k\":\x7b\"S\":\"b\"\x7d\x7d]\x7d"]
    Text.allBlank m.tableName = false ∧
      m.exchange deliveries (.scan none) =
        (.ok (.records [⟨⟨"k", "b"⟩, []⟩]),
          [.scan none none, .scan none (some [("k", .text "a")])]) ∧
      ∀ more, m.exchange (deliveries ++ more) (.scan none) =
        m.exchange deliveries (.scan none) := by
  intro m answer deliveries
  have hexchange : m.exchange deliveries (.scan none) = (.ok (.records [⟨⟨"k", "b"⟩, []⟩]),
      [.scan none none, .scan none (some [("k", .text "a")])]) := by
    have hfirst : Reply.ofDelivery .scan (answer
        "\x7b\"LastEvaluatedKey\":\x7b\"k\":\x7b\"S\":\"a\"\x7d\x7d\x7d") =
          .page [] (some [("k", .text "a")]) := by
      with_unfolding_all rfl
    have hlast : Reply.ofDelivery .scan (answer
        "\x7b\"Items\":[\x7b\"k\":\x7b\"S\":\"b\"\x7d\x7d]\x7d") =
          .page [[("k", .text "b")]] none := by
      with_unfolding_all rfl
    rw [exchange_eq_run (by decide), List.map_cons, List.map_cons, operation, hfirst, hlast]
    rfl
  refine ⟨by decide, hexchange, ?_⟩
  obtain ⟨turns, result, hturns, -, -, -, -, -, -, -, hmore⟩ :=
    (scan_turns m none deliveries).2 (by decide)
  have hlength := congrArg (fun exchange => exchange.2.length) (hturns.symm.trans hexchange)
  simp only [List.length_map, List.length_cons, List.length_nil] at hlength
  exact hmore (Nat.le_of_eq hlength)

/-- A key with a cell of an unknown kind ends a scan, though its page was read and names it; a table
without a name is not asked at all; and a table that names two keys in turn is asked again as often
as it answers. -/
theorem scan_turns_stopped :
    let m : Remote := ⟨"t", "k"⟩
    let answer (body : String) : Delivery := .answered 200 none body.toUTF8.toList
    let unknown := answer "\x7b\"LastEvaluatedKey\":\x7b\"k\":\x7b\"X\":\"1\"\x7d\x7d\x7d"
    let one := answer "\x7b\"LastEvaluatedKey\":\x7b\"k\":\x7b\"S\":\"a\"\x7d\x7d\x7d"
    let other := answer "\x7b\"LastEvaluatedKey\":\x7b\"k\":\x7b\"S\":\"b\"\x7d\x7d\x7d"
    (Turn.Reads m ⟨none, Reply.ofDelivery .scan unknown⟩ [] ∧
      Turn.Names ⟨none, Reply.ofDelivery .scan unknown⟩ [("k", .unknown)] ∧
      m.exchange [unknown, answer ""] (.scan none) =
        (.error (.backend .request), [.scan none none])) ∧
    (∀ deliveries, Remote.exchange ⟨"", "k"⟩ deliveries (.scan none) =
      (.error (.backend .request), [])) ∧
    ∀ n, (m.exchange (List.replicate n [one, other]).flatten (.scan none)).2.length =
      2 * n + 1 := by
  intro m answer unknown one other
  refine ⟨?_, fun deliveries => exchange_blank rfl deliveries _, fun n => ?_⟩
  · have hreply : Reply.ofDelivery .scan unknown = .page [] (some [("k", .unknown)]) := by
      with_unfolding_all rfl
    rw [hreply]
    refine ⟨⟨[], _, rfl, .nil⟩, ⟨[], rfl, nofun, nofun⟩, ?_⟩
    rw [exchange_eq_run (by decide), List.map_cons, operation, hreply]
    rfl
  · let named (value : String) : Reply := .page [] (some [("k", .text value)])
    have hone : Reply.ofDelivery .scan one = named "a" := by with_unfolding_all rfl
    have hother : Reply.ofDelivery .scan other = named "b" := by with_unfolding_all rfl
    have hreplies : (List.replicate n [one, other]).flatten.map (Reply.ofDelivery .scan) =
        (List.replicate n [named "a", named "b"]).flatten := by
      simp [List.map_flatten, hone, hother]
    -- After the first turn each one begins after the key that is not named in it.
    have htwo : ∀ start : Option Item, (∀ key, start = some key → key = [("k", .text "b")]) →
        ∀ replies, (m.scanFrom none start (named "a" :: named "b" :: replies)).2.length =
          (m.scanFrom none (some [("k", .text "b")]) replies).2.length + 2 := by
      intro start hstart replies
      cases start with
      | none => rfl
      | some key =>
        obtain rfl := hstart key rfl
        rfl
    have hscan : ∀ n start, (∀ key, start = some key → key = [("k", .text "b")]) →
        (m.scanFrom none start (List.replicate n [named "a", named "b"]).flatten).2.length =
          2 * n + 1 := by
      intro n
      induction n with
      | zero => simp [scanFrom]
      | succ n ih =>
        intro start hstart
        rw [List.replicate_succ, List.flatten_cons, List.cons_append, List.cons_append,
          List.nil_append, htwo start hstart, ih _ fun key hkey => (Option.some.inj hkey).symm]
        omega
    rw [exchange_eq_run (by decide), operation, hreplies]
    refine hscan n none ?_
    rintro key ⟨⟩

end Remote

end Store

end RecordService
