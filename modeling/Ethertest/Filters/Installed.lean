-- SUMMARY: Installed filters: their cursors, and what a poll reads, delivers and leaves.
import Ethertest.Filters.Range

/-!
# Installed filters

A filter keeps a cursor into the event log, or into the log of pending hashes. A poll reads the
events after the cursor, collects what they announce and advances the cursor only when it
answers. The chain goes on while a poll runs, so each of its reads may see another node.
-/

namespace Ethertest

namespace Filters

/-! ## State -/

/-- `rpc.ID` -/
abbrev FilterId := Bytes

inductive InstalledFilterKind where
  | log
  | block
  | pendingTransaction
  deriving DecidableEq

structure InstalledFilter where
  kind : InstalledFilterKind
  criteria : FilterQuery := {}
  revision : Nat := 0
  pendingSeq : Nat := 0
  /-- in nanoseconds -/
  lastUsed : Int := 0

structure FilterLimits extends LogLimits where
  maxFilters : Nat
  filterTimeout : Int

structure Api where
  filters : Store FilterId InstalledFilter := ∅

/-- The nodes that a poll reads while it handles one event. -/
structure EventReads (σ : Type) where
  fromBlock : Node σ
  toBlock : Node σ
  block : Node σ
  receipts : Node σ

/-- The nodes that a call reads. -/
structure Reads (σ : Type) where
  /-- of `EventsSince`, of the pending log, or of a new filter's cursor -/
  events : Node σ
  /-- of the cursor that a gap sets -/
  current : Node σ
  /-- of `CurrentBlock` -/
  head : Node σ
  /-- by the index of the event -/
  event : Nat → EventReads σ

/-! ## Installing -/

/-- `next-1` in `uint64` -/
def pendingCurrent (log : PendingHashLog) : Nat := (log.next + maxUint64) % 2 ^ 64

def Api.pruneExpiredFilters (limits : FilterLimits) (now : Int) (api : Api) : Api where
  filters := api.filters.filter fun _ filter => now - filter.lastUsed < limits.filterTimeout

/-- `installFilterLocked`, with the id that is drawn. -/
def Api.installFilter (limits : FilterLimits) (now : Int) (id : FilterId) (filter : InstalledFilter) (api : Api) :
    Api × Except RpcError FilterId :=
  let api := api.pruneExpiredFilters limits now
  if limits.maxFilters ≤ api.filters.size then
    (api, .error (resourceLimit "installed filter count" (api.filters.size + 1) limits.maxFilters))
  else ({ filters := api.filters.insert id { filter with lastUsed := now } }, .ok id)

/-- A bound of a query, if it has one. -/
def resolveBound (E : Env) (l : Ledger) (value : Option Int) (head : UInt64) : Except RpcError (Option UInt64) :=
  match value with
  | none => .ok none
  | some value => (resolveLogBlockNumber E l (some value) latestBlockNumber head).map some

def validateInstalledLogCriteria (E : Env) (l : Ledger) (query : FilterQuery) : Except RpcError Unit :=
  match query.blockHash with
  | some _ => .ok ()
  | none => do
    let headBlock ← l.head.mapError RpcError.error
    let head := UInt64.ofNat headBlock.number
    let first ← resolveBound E l query.fromBlock head
    let last ← resolveBound E l query.toBlock head
    failIf (∃ a ∈ first, ∃ b ∈ last, b < a) (.invalidInput "invalid block range: fromBlock exceeds toBlock")

def newFilter (E : Env) (limits : FilterLimits) (reads : Reads E.geth.State) (now : Int) (ctx : Ctx) (id : FilterId)
    (criteria : FilterQuery) (api : Api) : Api × Except RpcError FilterId :=
  match (do
    let _ ← checkCtx ctx
    validateInstalledLogCriteria E reads.head.toLedger criteria) with
  | .error err => (api, .error err)
  | .ok () =>
    api.installFilter limits now id { kind := .log, criteria := criteria, revision := reads.events.events.current }

def newBlockFilter {σ : Type} (limits : FilterLimits) (reads : Reads σ) (now : Int) (id : FilterId) (api : Api) :
    Api × Except RpcError FilterId :=
  api.installFilter limits now id { kind := .block, revision := reads.events.events.current }

def newPendingTransactionFilter {σ : Type} (limits : FilterLimits) (reads : Reads σ) (now : Int) (id : FilterId)
    (api : Api) : Api × Except RpcError FilterId :=
  api.installFilter limits now id
    { kind := .pendingTransaction, pendingSeq := pendingCurrent reads.events.pendingEvents }

/-! ## Polling -/

def filterNotFound : RpcError := .error (.new "filter not found")

/-- The error of a filter whose next events are gone. -/
def historyGone : RpcError := .invalidInput "filter history is no longer available"

def pendingHistoryGone : RpcError := .invalidInput "pending transaction filter history is no longer available"

inductive FilterChanges where
  | hashes (hashes : List Hash)
  | logs (entries : List LogEntry)

def isBlockRevisionEvent (event : Event) : Bool := event.type = .block || event.type = .controlBlock

def checkHashResultLimits (limits : LogLimits) (resource : String) (count : Nat) : Except RpcError Unit := do
  failIf (limits.maxLogResults < count) (resourceLimit (resource ++ " result count") count limits.maxLogResults)
  -- in `uint64`
  let size := if count = 0 then 2 else (2 + (count * 68 + (count - 1))) % 2 ^ 64
  failIf (limits.maxResponseBytes < size) (resourceLimit (resource ++ " response bytes") size limits.maxResponseBytes)

/-- The loops that collect hashes, with the last sequence number that they have passed. -/
def collectHashes {α : Type} (sequence : α → Nat) (hash : α → Option Hash) :
    List α → Nat → List Hash → Ctx → Except RpcError (List Hash × Nat)
  | [], next, result, _ => .ok (result, next)
  | event :: rest, _, result, ctx => do
    let ctx ← checkCtx ctx
    collectHashes sequence hash rest (sequence event) (result ++ (hash event).toList) ctx

/-- The hash that a block filter reports of an event. -/
def addedBlock (event : Event) : Option Hash :=
  if isBlockRevisionEvent event && !event.removed then some event.blockHash else none

def filterIncludesBlock (E : Env) (reads : EventReads E.geth.State) (query : FilterQuery) (event : Event)
    (head : UInt64) : Except RpcError Bool :=
  match query.blockHash with
  | some hash => .ok (hash = event.blockHash)
  | none => do
    let first ← resolveBound E reads.fromBlock.toLedger query.fromBlock head
    if ∃ a ∈ first, event.blockNumber < a.toNat then .ok false
    else
      let last ← resolveBound E reads.toBlock.toLedger query.toBlock head
      .ok (¬ ∃ b ∈ last, b.toNat < event.blockNumber)

/-- The matching logs of the block that an event announces. -/
def eventLogs (E : Env) (reads : EventReads E.geth.State) (query : FilterQuery) (event : Event) (head : UInt64) :
    Except RpcError (List LogEntry) :=
  if isBlockRevisionEvent event then do
    let included ← filterIncludesBlock E reads query event head
    if included then
      .ok ((reads.block.db.blockByHash event.blockHash).elim [] fun b =>
        filterBlockLogs (entriesByHash reads.receipts.db (E.hash b) b) query)
    else .ok []
  else .ok []

/-- The loop of a log filter. Its logs are appended one by one, which is what `appendLimitedLogs`
does with a list. -/
def collectChanges (E : Env) (limits : LogLimits) (marshal : LogEntry → Bytes) (query : FilterQuery) (head : UInt64)
    (reads : Nat → EventReads E.geth.State) :
    Nat → List Event → Nat → List LogEntry → Nat → Ctx → Except RpcError (List LogEntry × Nat)
  | _, [], next, result, _, _ => .ok (result, next)
  | i, event :: rest, _, result, encodedSize, ctx => do
    let ctx ← checkCtx ctx
    let entries ← eventLogs E (reads i) query event head
    let (result, encodedSize) ← appendLimitedLogs limits marshal result encodedSize
      (entries.map fun entry => { entry with removed := event.removed })
    collectChanges E limits marshal query head reads (i + 1) rest event.revision result encodedSize ctx

/-- The answer of a poll and the cursor it leaves, once its events are read. -/
def pendingChanges (limits : LogLimits) (events : List PendingHashEvent) (cursor : Nat) (ctx : Ctx) :
    Except RpcError (FilterChanges × Nat) := do
  let (result, next) ← collectHashes PendingHashEvent.sequence (fun event => some event.hash) events cursor [] ctx
  checkHashResultLimits limits "pending transaction filter" result.length
  .ok (.hashes result, next)

@[inherit_doc pendingChanges]
def blockChanges (limits : LogLimits) (events : List Event) (cursor : Nat) (ctx : Ctx) :
    Except RpcError (FilterChanges × Nat) := do
  let (result, next) ← collectHashes Event.revision addedBlock events cursor [] ctx
  checkHashResultLimits limits "block filter" result.length
  .ok (.hashes result, next)

@[inherit_doc pendingChanges]
def logChanges (E : Env) (limits : LogLimits) (marshal : LogEntry → Bytes) (reads : Reads E.geth.State)
    (query : FilterQuery) (events : List Event) (cursor : Nat) (ctx : Ctx) : Except RpcError (FilterChanges × Nat) := do
  failIf (limits.maxResponseBytes < 2) (resourceLimit "log response bytes" 2 limits.maxResponseBytes)
  let headBlock ← reads.head.head.mapError RpcError.error
  let (result, next) ← collectChanges E limits marshal query (UInt64.ofNat headBlock.number) reads.event 0 events
    cursor [] 2 ctx
  .ok (.logs result, next)

/-- A cursor moves only with an answer. -/
def advance (filter : InstalledFilter) (move : Nat → InstalledFilter) :
    Except RpcError (FilterChanges × Nat) → InstalledFilter × Except RpcError FilterChanges
  | .error err => (filter, .error err)
  | .ok (changes, next) => (move next, .ok changes)

/-- A poll of the event log, with what is made of the events. A gap is the only error of
`since`. -/
def pollEvents {σ : Type} (reads : Reads σ) (filter : InstalledFilter)
    (changes : List Event → Except RpcError (FilterChanges × Nat)) : InstalledFilter × Except RpcError FilterChanges :=
  match reads.events.events.since filter.revision with
  | .error _ => ({ filter with revision := reads.current.events.current }, .error historyGone)
  | .ok events => advance filter (fun next => { filter with revision := next }) (changes events)

/-- A poll of the log of pending hashes. -/
def pollPending {σ : Type} (reads : Reads σ) (filter : InstalledFilter)
    (changes : List PendingHashEvent → Except RpcError (FilterChanges × Nat)) :
    InstalledFilter × Except RpcError FilterChanges :=
  match reads.events.pendingEvents.since filter.pendingSeq with
  | .error _ => ({ filter with pendingSeq := pendingCurrent reads.current.pendingEvents }, .error pendingHistoryGone)
  | .ok events => advance filter (fun next => { filter with pendingSeq := next }) (changes events)

/-- `GetFilterChanges` for a filter that is found. -/
def pollFilter (E : Env) (limits : LogLimits) (marshal : LogEntry → Bytes) (reads : Reads E.geth.State) (ctx : Ctx)
    (filter : InstalledFilter) : InstalledFilter × Except RpcError FilterChanges :=
  match filter.kind with
  | .pendingTransaction =>
    pollPending reads filter fun events => pendingChanges limits events filter.pendingSeq ctx
  | .block => pollEvents reads filter fun events => blockChanges limits events filter.revision ctx
  | .log =>
    pollEvents reads filter fun events =>
      logChanges E limits marshal reads filter.criteria events filter.revision ctx

def getFilterChanges (E : Env) (limits : FilterLimits) (marshal : LogEntry → Bytes) (reads : Reads E.geth.State)
    (now : Int) (ctx : Ctx) (id : FilterId) (api : Api) : Api × Except RpcError FilterChanges :=
  let api := api.pruneExpiredFilters limits now
  match api.filters[id]? with
  | none => (api, .error filterNotFound)
  | some filter =>
    let polled := pollFilter E limits.toLogLimits marshal reads ctx { filter with lastUsed := now }
    ({ filters := api.filters.insert id polled.1 }, polled.2)

/-! ## The other calls -/

/-- The filters after `GetFilterLogs`; its answer is that of `logs`. -/
def getFilterLogs (E : Env) (limits : FilterLimits) (marshal : LogEntry → Bytes) (reads : Reads E.geth.State)
    (now : Int) (ctx : Ctx) (id : FilterId) (api : Api) : Api × Except RpcError FilterChanges :=
  let api := api.pruneExpiredFilters limits now
  match api.filters[id]? with
  | none => (api, .error filterNotFound)
  | some filter =>
    let api : Api := { filters := api.filters.insert id { filter with lastUsed := now } }
    if filter.kind ≠ .log then (api, .error (.error (.new "filter is not a log filter")))
    else (api, (logs E reads.head.toLedger limits.toLogLimits marshal filter.criteria none ctx).map fun out =>
      .logs out.1)

def uninstallFilter (limits : FilterLimits) (now : Int) (id : FilterId) (api : Api) : Api × Bool :=
  let api := api.pruneExpiredFilters limits now
  if api.filters[id]?.isSome then ({ filters := api.filters.erase id }, true) else (api, false)

/-! ## What the loops collect -/

section Loops

variable {α : Type} {sequence : α → Nat} {hash : α → Option Hash}

/-- The cursor after a list of events. -/
def cursorAfter (sequence : α → Nat) (events : List α) (cursor : Nat) : Nat :=
  events.foldl (fun _ event => sequence event) cursor

variable {ctx : Ctx} {encodedSize : Nat} {E : Env} {query : FilterQuery} {head : UInt64}
  {reads : Nat → EventReads E.geth.State} {events : List Event}

theorem collectHashes_ok {events : List α} {next next' : Nat} {result out : List Hash}
    (h : collectHashes sequence hash events next result ctx = .ok (out, next')) :
    out = result ++ events.filterMap hash ∧ next' = cursorAfter sequence events next := by
  induction events generalizing next result ctx with
  | nil =>
    simp only [collectHashes, Except.ok.injEq, Prod.mk.injEq] at h
    obtain ⟨rfl, rfl⟩ := h
    exact ⟨by simp, rfl⟩
  | cons event rest ih =>
    simp only [collectHashes, Except.do_ok_iff] at h
    obtain ⟨ctx', -, h⟩ := h
    obtain ⟨rfl, rfl⟩ := ih h
    refine ⟨?_, rfl⟩
    rw [List.filterMap_cons]
    cases hash event <;> simp

variable {limits : LogLimits} {marshal : LogEntry → Bytes}

/-- What is appended are the entries. -/
theorem appendLimitedLogs_fst {result entries : List LogEntry} {out : List LogEntry × Nat}
    (h : appendLimitedLogs limits marshal result encodedSize entries = .ok out) : out.1 = result ++ entries := by
  induction entries generalizing result encodedSize with
  | nil =>
    rw [appendLimitedLogs, Except.ok.injEq] at h
    rw [← h, List.append_nil]
  | cons entry rest ih =>
    simp only [appendLimitedLogs, Except.do_ok_iff] at h
    obtain ⟨-, -, -, -, h⟩ := h
    rw [ih h, List.append_assoc]
    rfl

/-- Whatever is read, the loop passes every event. -/
theorem collectChanges_next {i next next' : Nat} {result out : List LogEntry}
    (h : collectChanges E limits marshal query head reads i events next result encodedSize ctx = .ok (out, next')) :
    next' = cursorAfter Event.revision events next := by
  induction events generalizing i next result encodedSize ctx with
  | nil =>
    simp only [collectChanges, Except.ok.injEq, Prod.mk.injEq] at h
    exact h.2.symm
  | cons event rest ih =>
    simp only [collectChanges, Except.do_ok_iff] at h
    obtain ⟨ctx', -, entries, -, out', -, h⟩ := h
    exact ih h

/-- If what is read for an event is always the same, the loop collects just that. -/
theorem collectChanges_ok {entriesOf : Event → List LogEntry} {i next next' : Nat}
    {result out : List LogEntry}
    (hreads : ∀ j event entries, event ∈ events → eventLogs E (reads j) query event head = .ok entries →
      entries = entriesOf event)
    (h : collectChanges E limits marshal query head reads i events next result encodedSize ctx = .ok (out, next')) :
    out = result ++ events.flatMap fun event =>
      (entriesOf event).map fun entry => { entry with removed := event.removed } := by
  induction events generalizing i next result encodedSize ctx with
  | nil =>
    simp only [collectChanges, Except.ok.injEq, Prod.mk.injEq] at h
    rw [← h.1, List.flatMap_nil, List.append_nil]
  | cons event rest ih =>
    simp only [collectChanges, Except.do_ok_iff] at h
    obtain ⟨ctx', -, entries, hentries, ⟨result', encodedSize'⟩, happend, h⟩ := h
    obtain rfl := hreads i event entries List.mem_cons_self hentries
    have hresult : result' = _ := appendLimitedLogs_fst happend
    rw [ih (fun j e es he => hreads j e es (List.mem_cons_of_mem _ he)) h, hresult, List.flatMap_cons,
      List.append_assoc]

end Loops

/-! ## What a call leaves -/

section Calls

variable {E : Env} {limits : FilterLimits} {marshal : LogEntry → Bytes} {reads : Reads E.geth.State} {now : Int}
  {ctx : Ctx} {id : FilterId} {api : Api}

private theorem get_prune (id : FilterId) : (api.pruneExpiredFilters limits now).filters[id]? =
    api.filters[id]?.filter fun filter => now - filter.lastUsed < limits.filterTimeout :=
  Std.ExtTreeMap.getElem?_filter'

variable {filter : InstalledFilter} {err : RpcError}
  {changes : List Event → Except RpcError (FilterChanges × Nat)}

theorem of_get_prune (h : (api.pruneExpiredFilters limits now).filters[id]? = some filter) :
    api.filters[id]? = some filter := by
  rw [get_prune, Option.filter_eq_some_iff] at h
  exact h.1

private theorem advance_error {move : Nat → InstalledFilter} {answer : Except RpcError (FilterChanges × Nat)}
    (h : (advance filter move answer).2 = .error err) : (advance filter move answer).1 = filter := by
  cases answer with
  | error err => rfl
  | ok out => cases h

private theorem pollEvents_error (h : (pollEvents reads filter changes).2 = .error err) (hgap : err ≠ historyGone) :
    (pollEvents reads filter changes).1 = filter := by
  unfold pollEvents at h ⊢
  split at h
  · exact absurd (Except.error.inj h).symm hgap
  · exact advance_error h

private theorem pollPending_error {changes : List PendingHashEvent → Except RpcError (FilterChanges × Nat)}
    (h : (pollPending reads filter changes).2 = .error err) (hgap : err ≠ pendingHistoryGone) :
    (pollPending reads filter changes).1 = filter := by
  unfold pollPending at h ⊢
  split at h
  · exact absurd (Except.error.inj h).symm hgap
  · exact advance_error h

/-- A poll that fails without a gap leaves the filter as it is. -/
theorem pollFilter_error {limits : LogLimits}
    (h : (pollFilter E limits marshal reads ctx filter).2 = .error err) (hgap : err ≠ historyGone)
    (hpending : filter.kind = .pendingTransaction → err ≠ pendingHistoryGone) :
    (pollFilter E limits marshal reads ctx filter).1 = filter := by
  unfold pollFilter at h ⊢
  split at h
  · next hkind => exact pollPending_error h (hpending hkind)
  · exact pollEvents_error h hgap
  · exact pollEvents_error h hgap

/-- What a successful poll of the event log has read, and where it leaves the cursor. -/
theorem pollEvents_ok {answer : FilterChanges} (h : (pollEvents reads filter changes).2 = .ok answer) :
    ∃ events next, reads.events.events.since filter.revision = .ok events ∧ changes events = .ok (answer, next) ∧
      (pollEvents reads filter changes).1 = { filter with revision := next } := by
  unfold pollEvents at h ⊢
  split at h
  · cases h
  · next events hsince =>
    cases hchanges : changes events with
    | error err =>
      rw [hchanges] at h
      cases h
    | ok out =>
      rw [hchanges] at h
      obtain ⟨answer', next⟩ := out
      obtain rfl : answer' = answer := Except.ok.inj h
      exact ⟨events, next, hsince, hchanges, rfl⟩

end Calls

end Filters

end Ethertest
