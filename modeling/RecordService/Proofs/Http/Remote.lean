import RecordService.Proofs.Http.Admission
import RecordService.Proofs.Store.Reply
import RecordService.Proofs.Store.Request
/-!
# Requests over a table

What is sent to the table for a request, and what becomes of the request when an answer of the table
cannot be read. A refused request sends nothing, and any other one sends what its method is for: no
more than one request, unless it lists. Whatever the table says, the caller is told of a failure in
one fixed sentence.
-/

namespace RecordService.Http

open Store Table
open Identity (Provider)

/-! ## Answers of the table -/

/-- The answer can be read, and there is no item in it. -/
def NoItem : List Delivery → Prop
  | .answered status _ body :: _ =>
    200 ≤ status ∧ status < 300 ∧ Reply.ofAnswer .getItem body = .item none
  | _ => False

/-- The answer is an error that says that the condition of the update does not hold. -/
def Refused : List Delivery → Prop
  | .answered status errorType body :: _ =>
    ¬(200 ≤ status ∧ status < 300) ∧ Reply.isRefusal errorType body = true
  | _ => False

/-- What the deliveries for a command say. -/
def repliesTo (c : Command) (deliveries : List Delivery) : List Reply :=
  deliveries.map (Reply.ofDelivery (Remote.operation c))

theorem ofAnswer_ne_refused (operation : Operation) (body : List UInt8) :
    Reply.ofAnswer operation body ≠ .refused := by
  unfold Reply.ofAnswer
  split
  · split
    · cases operation <;> exact nofun
    · exact nofun
  · exact nofun

theorem noItem_iff (key : Key) {deliveries : List Delivery} : NoItem deliveries ↔
    Remote.first (repliesTo (.get key) deliveries) = .item none := by
  cases deliveries with
  | nil => exact iff_of_false id nofun
  | cons d deliveries =>
    cases d with
    | failed => exact iff_of_false id nofun
    | answered status errorType body =>
      simp only [NoItem, repliesTo, Remote.operation, Remote.first, List.map_cons, List.headD_cons,
        Reply.ofDelivery, ← and_assoc]
      split
      · next h => simp [h]
      · next h => simp [h]

theorem refused_iff {u : Expression.Update} {deliveries : List Delivery} : Refused deliveries ↔
    Remote.first (repliesTo (.update u) deliveries) = .refused := by
  cases deliveries with
  | nil => exact iff_of_false id nofun
  | cons d deliveries =>
    cases d with
    | failed => exact iff_of_false id nofun
    | answered status errorType body =>
      simp only [Refused, repliesTo, Remote.operation, Remote.first, List.map_cons,
        List.headD_cons, Reply.ofDelivery]
      split
      · next h => simp [h, ofAnswer_ne_refused]
      · next h => simp [h]

/-! ## Responses -/

/-- What the caller is told of any failure of the store. -/
def Response.storeFailed : Response :=
  .json 500 (errorBody "the record store request failed")

theorem ofOutcome_fault (s : Settings) (c : Command) {e : StoreError} (h : e.IsFault) :
    Response.ofOutcome s c (.error e) = .storeFailed := by
  cases e with
  | notFound key => exact absurd rfl (h key)
  | _ => rfl

/-! ## What is sent -/

/-- The operation that the requests to the table are for. -/
def Request.operation (r : Request) : Operation :=
  if r.method = "POST" then .putItem
  else if r.method = "PUT" then .updateItem
  else if r.method = "DELETE" then .deleteItem
  else if r.route? = some .records then .scan
  else .getItem

/-- The request lists records. -/
def Request.Lists (r : Request) : Prop :=
  r.route? = some .records ∧ Route.isReading r.method = true

section Serve
variable {s : Settings} {now : String} {provider : Provider} {remote : Remote}
  {deliveries : List Delivery} {r : Request} {c : Command}

theorem Request.Asks.operation (h : r.Asks s now c) : r.operation = Remote.operation c := by
  have hread : Route.isReading r.method = true →
      r.method ≠ "POST" ∧ r.method ≠ "PUT" ∧ r.method ≠ "DELETE" := by
    simp only [Route.isReading, Bool.or_eq_true, beq_iff_eq]
    rintro (h | h) <;> rw [h] <;> decide
  cases h with
  | scan hroute hreading =>
    obtain ⟨hpost, hput, hdelete⟩ := hread hreading
    simp [Request.operation, hpost, hput, hdelete, hroute, Remote.operation]
  | create _ hmethod => simp [Request.operation, hmethod, Remote.operation]
  | get hroute hreading =>
    obtain ⟨hpost, hput, hdelete⟩ := hread hreading
    simp [Request.operation, hpost, hput, hdelete, hroute, Remote.operation]
  | update _ hmethod => simp [Request.operation, hmethod, Remote.operation]
  | delete _ hmethod => simp [Request.operation, hmethod, Remote.operation]

theorem serveRemote_command (h : r.Asks s now c) :
    serveRemote s now provider remote deliveries r
      = ⟨(Response.ofOutcome s c (remote.exchange deliveries c).1).forMethod r.method, [],
          (remote.exchange deliveries c).2⟩ :=
  serve_command h

theorem status_serveRemote (h : r.Asks s now c) :
    (serveRemote s now provider remote deliveries r).response.status
      = (Response.ofOutcome s c (remote.exchange deliveries c).1).status := by
  rw [serveRemote_command h, Response.status_forMethod]

/-- What a command comes to is no refusal of a request. -/
theorem status_ofOutcome_ne (s : Settings) (c : Command) (outcome : Outcome) :
    (Response.ofOutcome s c outcome).status ≠ 400 ∧
      (Response.ofOutcome s c outcome).status ≠ 405 := by
  cases outcome with
  | ok answer => simp [Response.ofOutcome, Response.json]
  | error e => cases e <;> simp [Response.ofOutcome, Response.ofError, Response.json, Error.status]

/-- Whatever is sent for a request is for its operation. -/
theorem operation_of_sent {q : Table.Request}
    (hq : q ∈ (serveRemote s now provider remote deliveries r).store) :
    q.operation = r.operation := by
  by_cases hasks : ∃ c, r.Asks s now c
  · obtain ⟨c, hc⟩ := hasks
    rw [serveRemote_command hc] at hq
    rw [hc.operation]
    exact remote.operation_exchange hq
  · rw [serveRemote, serve_idle fun c hc => hasks ⟨c, hc⟩] at hq
    cases hq

/-- No more than one request is sent, unless the request lists. -/
theorem length_sent (h : ¬r.Lists) :
    (serveRemote s now provider remote deliveries r).store.length ≤ 1 := by
  by_cases hasks : ∃ c, r.Asks s now c
  · obtain ⟨c, hc⟩ := hasks
    rw [serveRemote_command hc]
    refine remote.length_exchange deliveries fun filter heq => h ?_
    subst heq
    cases hc with
    | scan hroute hread => exact ⟨hroute, hread⟩
  · rw [serveRemote, serve_idle fun c hc => hasks ⟨c, hc⟩]
    exact Nat.zero_le 1

/-- What is sent for an update that is not refused. -/
theorem sent_put {k : String} (hnames : r.Names k) (hmethod : r.method = "PUT")
    (hblank : Text.allBlank remote.tableName = false)
    (hstatus : (serveRemote s now provider remote deliveries r).response.status ≠ 400) :
    ∃ condition update, (serveRemote s now provider remote deliveries r).store
      = [.updateItem (Item.ofKey ⟨s.keyAttribute, k⟩) condition update] := by
  obtain ⟨octets, hroute, hk⟩ := hnames
  obtain ⟨c, hc⟩ : ∃ c, r.Asks s now c := by
    by_contra hnone
    refine hstatus ((serve_refused hroute (.inr ⟨octets, rfl⟩) fun c hc => hnone ⟨c, hc⟩).trans ?_)
    rw [hmethod]
    rfl
  obtain ⟨others, l, body, attributes, u, hother, hl, -, -, hu, rfl⟩ := hc.exists_update hmethod
  obtain rfl : octets = others := by simpa [hroute] using hother
  obtain rfl : k = l := Option.some.inj (hk.symm.trans hl)
  obtain ⟨rfl, -⟩ := Expression.Update.compile_ok hu
  rw [serveRemote_command hc, remote.exchange_eq_run hblank]
  exact ⟨_, _, rfl⟩

/-! ## What the caller is told -/

theorem response_blank (hc : r.Asks s now c) (hblank : Text.allBlank remote.tableName = true) :
    (serveRemote s now provider remote deliveries r).store = [] ∧
      (serveRemote s now provider remote deliveries r).response
        = Response.storeFailed.forMethod r.method := by
  rw [serveRemote_command hc, remote.exchange_blank hblank]
  exact ⟨rfl, congrArg (Response.forMethod r.method) (ofOutcome_fault s c nofun)⟩

/-- Answers that can be read are a success, or say that there is no record to read. -/
theorem status_of_reads (hc : r.Asks s now c) (hblank : Text.allBlank remote.tableName = false)
    (hreads : remote.Reads (repliesTo c deliveries) c) :
    (serveRemote s now provider remote deliveries r).response.status = 200 ∨
      ∃ key, c = .get key ∧ NoItem deliveries ∧
        (serveRemote s now provider remote deliveries r).response.status = 404 := by
  rw [status_serveRemote hc, remote.exchange_eq_run hblank]
  rcases remote.run_of_reads hreads with ⟨answer, hanswer⟩ | ⟨key, rfl, hitem, herror⟩
  · left
    rw [repliesTo] at hanswer
    rw [hanswer]
    rfl
  · refine .inr ⟨key, rfl, (noItem_iff key).2 hitem, ?_⟩
    rw [repliesTo] at herror
    rw [herror]
    rfl

/-- Answers that cannot be read are a failure, or say that there is no record to update. -/
theorem response_of_not_reads (hc : r.Asks s now c)
    (hblank : Text.allBlank remote.tableName = false)
    (hreads : ¬remote.Reads (repliesTo c deliveries) c) :
    (serveRemote s now provider remote deliveries r).response
        = Response.storeFailed.forMethod r.method ∨
      ∃ u, c = .update u ∧ Refused deliveries ∧
        (serveRemote s now provider remote deliveries r).response.status = 404 := by
  rcases remote.run_of_not_reads hreads with ⟨e, herror, hfault⟩ | ⟨u, rfl, hrefused, herror⟩
  · left
    rw [repliesTo] at herror
    rw [serveRemote_command hc, remote.exchange_eq_run hblank, herror, ofOutcome_fault s c hfault]
  · refine .inr ⟨u, rfl, refused_iff.2 hrefused, ?_⟩
    rw [repliesTo] at herror
    rw [status_serveRemote hc, remote.exchange_eq_run hblank, herror]
    rfl

/-- A record is said to be missing exactly if the table says so. -/
theorem status_read {k : String} (hnames : r.Names k) (hread : Route.isReading r.method = true) :
    (serveRemote s now provider remote deliveries r).response.status = 404 ↔
      Text.allBlank remote.tableName = false ∧ NoItem deliveries := by
  obtain ⟨octets, hroute, hk⟩ := hnames
  have hc : r.Asks s now (.get ⟨s.keyAttribute, k⟩) := .get hroute hread hk
  have hfailed : (Response.storeFailed.forMethod r.method).status = 500 :=
    Response.status_forMethod r.method .storeFailed
  cases hblank : Text.allBlank remote.tableName with
  | true =>
    refine iff_of_false ?_ (by simp)
    rw [(response_blank hc hblank).2, hfailed]
    decide
  | false =>
    rw [and_iff_right rfl]
    constructor
    · intro hstatus
      by_cases hreads : remote.Reads (repliesTo (.get ⟨s.keyAttribute, k⟩) deliveries)
          (.get ⟨s.keyAttribute, k⟩)
      · rcases status_of_reads hc hblank hreads with hok | ⟨key, -, hitem, -⟩
        · rw [hstatus] at hok
          cases hok
        · exact hitem
      · rcases response_of_not_reads hc hblank hreads with hresponse | ⟨u, ⟨⟩, -⟩
        rw [hresponse, hfailed] at hstatus
        cases hstatus
    · intro hitem
      have hfirst := (noItem_iff ⟨s.keyAttribute, k⟩).1 hitem
      rw [repliesTo] at hfirst
      rw [status_serveRemote hc, remote.exchange_eq_run hblank, Remote.run, hfirst]
      rfl

end Serve

/-- A refused request, and any that is not for records, sends nothing to the table. A request that
does not list sends no more than one request, and only for the operation that its method stands for;
an update that is not refused sends one, for the key in the path, if the table has a name. An answer
that cannot be read is told in one fixed sentence, unless it says that the record to update is not
there; and a record is not there to be read exactly if the table says so. Without a name for the
table nothing is sent, and the same sentence is told. -/
theorem table_failures_isolated (s : Settings) (now : String) (provider : Provider)
    (remote : Remote) (deliveries : List Delivery) (r : Request) :
    let served := serveRemote s now provider remote deliveries r
    let status := served.response.status
    let failed := served.response = Response.storeFailed.forMethod r.method
    (status = 400 ∨ status = 405 ∨ ¬r.IsForRecords → served.store = []) ∧
    (∀ q ∈ served.store, q.operation = r.operation) ∧
    (¬r.Lists → served.store.length ≤ 1) ∧
    (Text.allBlank remote.tableName = false →
      (∀ k, r.Names k → r.method = "PUT" → status ≠ 400 → ∃ condition update,
        served.store = [.updateItem (Item.ofKey ⟨s.keyAttribute, k⟩) condition update]) ∧
      (∀ c, r.Asks s now c → ¬remote.Reads (repliesTo c deliveries) c →
        failed ∨ r.method = "PUT" ∧ Refused deliveries ∧ status = 404) ∧
      ∀ c, r.Asks s now c → remote.Reads (repliesTo c deliveries) c →
        status = 200 ∨ Route.isReading r.method = true ∧ NoItem deliveries ∧ status = 404) ∧
    (∀ k, r.Names k → Route.isReading r.method = true →
      (status = 404 ↔ Text.allBlank remote.tableName = false ∧ NoItem deliveries)) ∧
    (Text.allBlank remote.tableName = true → ∀ c, r.Asks s now c →
      served.store = [] ∧ failed) := by
  intro served status failed
  refine ⟨fun h => ?_, fun q hq => operation_of_sent hq, length_sent, fun hblank => ⟨?_, ?_, ?_⟩,
    fun k hnames hread => status_read hnames hread, fun hblank c hc => response_blank hc hblank⟩
  · refine serve_idle fun c hc => ?_
    have houtcome : status = _ := status_serveRemote hc
    have hne := status_ofOutcome_ne s c (remote.exchange deliveries c).1
    rcases h with hstatus | hstatus | hpath
    · exact hne.1 (houtcome.symm.trans hstatus)
    · exact hne.2 (houtcome.symm.trans hstatus)
    · exact hpath hc.isForRecords
  · intro k hnames hmethod hstatus
    exact sent_put hnames hmethod hblank hstatus
  · intro c hc hreads
    rcases response_of_not_reads hc hblank hreads with hresponse | ⟨u, rfl, hrefused, hstatus⟩
    · exact .inl hresponse
    · cases hc with
      | update _ hmethod => exact .inr ⟨hmethod, hrefused, hstatus⟩
  · intro c hc hreads
    rcases status_of_reads hc hblank hreads with hok | ⟨key, rfl, hitem, hstatus⟩
    · exact .inl hok
    · cases hc with
      | get _ hread => exact .inr ⟨hread, hitem, hstatus⟩

/-- An update whose condition is refused, and a read that finds no item. -/
theorem table_failures_isolated_missing :
    let s := Settings.ofNames "records" "client" "pool"
    let provider : Provider := fun _ => .ok ⟨200, .null⟩
    let put : Request := ⟨"PUT", "/records/k", some "application/json",
      "\x7b\"n\":1\x7d".toUTF8.toList⟩
    let get : Request := ⟨"HEAD", "/records/k", none, []⟩
    let refusal := Delivery.answered 400 (some "x#ConditionalCheckFailedException:y") []
    let updated := serveRemote s "" provider ⟨"records", "userId"⟩ [refusal] put
    let read := serveRemote s "" provider ⟨"records", "userId"⟩ [.answered 200 none []] get
    updated.response.status = 404 ∧
      (∃ condition update,
        updated.store = [.updateItem (Item.ofKey ⟨"userId", "k"⟩) condition update]) ∧
      read.response.status = 404 := by
  intro s provider put get refusal updated read
  have hstatus : updated.response.status = 404 := by decide +kernel
  have hnames : ∀ r ∈ [put, get], r.Names "k" := by
    intro r hr
    refine ⟨Target.ascii "k", ?_, by decide +kernel⟩
    revert r
    decide +kernel
  refine ⟨hstatus, ?_, ?_⟩
  · obtain ⟨-, -, -, h, -⟩ :=
      table_failures_isolated s "" provider ⟨"records", "userId"⟩ [refusal] put
    exact (h (by decide +kernel)).1 "k" (hnames put (by simp)) rfl (by rw [hstatus]; decide)
  · obtain ⟨-, -, -, -, h, -⟩ :=
      table_failures_isolated s "" provider ⟨"records", "userId"⟩ [.answered 200 none []] get
    exact (h "k" (hnames get (by simp)) rfl).2 ⟨by decide +kernel, by decide, by decide, rfl⟩

/-- To a table with an empty name nothing is sent, though the settings are accepted and the update
is not refused. -/
theorem update_unsent_without_table : ¬∀ (s : Settings) (now : String) (provider : Provider)
    (deliveries : List Delivery) (r : Request) (k : String), s.validate = .ok () →
    let served := serveRemote s now provider ⟨s.tableName, s.keyAttribute⟩ deliveries r
    r.Names k → r.method = "PUT" → served.response.status ≠ 400 → ∃ condition update,
      served.store = [.updateItem (Item.ofKey ⟨s.keyAttribute, k⟩) condition update] := by
  intro h
  let put : Request := ⟨"PUT", "/records/k", some "application/json",
    "\x7b\"n\":1\x7d".toUTF8.toList⟩
  let provider : Provider := fun _ => .ok ⟨200, .null⟩
  obtain ⟨condition, update, hsent⟩ := h (Settings.ofNames "" "client" "pool") "" provider [] put
    "k" rfl ⟨Target.ascii "k", by decide +kernel, by decide +kernel⟩ rfl (by decide +kernel)
  have hnone : (serveRemote (Settings.ofNames "" "client" "pool") "" provider ⟨"", "userId"⟩ []
      put).store.length = 0 := by decide +kernel
  exact Nat.one_ne_zero ((congrArg List.length hsent).symm.trans hnone)

end RecordService.Http
