-- SUMMARY: Filters follow the chain: polls consume the events in segments, and their logs fold to the canonical ones.
import Ethertest.Filters.Delivered
import Ethertest.Guarantees.Pool

/-!
# Filters along a run

The calls of the filter API interleave with the moves of the node, also while a poll runs. The
cursor of a filter is the number of events of the node that its last successful poll has read.
-/

namespace Ethertest

namespace Filters

open Relation (ReflTransGen)
open Window (Numbered)

/-! ## Runs -/

/-- A node at any point of a run. -/
def Attained (E : Env) (n : Node E.geth.State) : Prop :=
  ∃ start, E.newNode = .ok start ∧ ReflTransGen (E.Move Guard.any) start n

/-- A call reads nodes between the one before it and the one after it, its events first. -/
structure Reads.Between (E : Env) (reads : Reads E.geth.State) (n n' : Node E.geth.State) : Prop where
  events : Follows E n reads.events
  current : Follows E reads.events reads.current ∧ Follows E reads.current n'
  head : Follows E reads.events reads.head ∧ Follows E reads.head n'
  event : ∀ i, ∀ m ∈ [(reads.event i).fromBlock, (reads.event i).toBlock, (reads.event i).block,
    (reads.event i).receipts], Follows E reads.events m ∧ Follows E m n'

/-- The calls of the API, with the ids that are drawn, and the rounds of the reaper. -/
inductive Call where
  | newFilter (id : FilterId) (criteria : FilterQuery)
  | newBlockFilter (id : FilterId)
  | newPendingTransactionFilter (id : FilterId)
  | getFilterLogs (id : FilterId)
  | getFilterChanges (id : FilterId)
  | uninstallFilter (id : FilterId)
  | reap

/-- The id of a new filter. -/
def Call.installs : Call → Option FilterId
  | .newFilter id _ | .newBlockFilter id | .newPendingTransactionFilter id => some id
  | _ => none

/-- A poll that found its filter: the cursor before and after it, the node whose events it has
read, and the answer. -/
structure Poll (σ : Type) where
  before : Nat
  after : Nat
  node : Node σ
  result : Except RpcError FilterChanges

section Calls

variable (E : Env) (limits : FilterLimits) (marshal : LogEntry → Bytes) (reads : Reads E.geth.State)
  (now : Int) (ctx : Ctx)

/-- The filters after a call. -/
def Call.apply (c : Call) (api : Api) : Api :=
  match c with
  | .newFilter id criteria => (Filters.newFilter E limits reads now ctx id criteria api).1
  | .newBlockFilter id => (Filters.newBlockFilter limits reads now id api).1
  | .newPendingTransactionFilter id => (Filters.newPendingTransactionFilter limits reads now id api).1
  | .getFilterLogs id => (Filters.getFilterLogs E limits marshal reads now ctx id api).1
  | .getFilterChanges id => (Filters.getFilterChanges E limits marshal reads now ctx id api).1
  | .uninstallFilter id => (Filters.uninstallFilter limits now id api).1
  | .reap => api.pruneExpiredFilters limits now

/-- The poll of a filter that a call is, if it is one. -/
def Call.polls (id : FilterId) (c : Call) (api : Api) : List (Poll E.geth.State) :=
  match c with
  | .getFilterChanges id' =>
    if id' = id then
      match (api.pruneExpiredFilters limits now).filters[id]? with
      | none => []
      | some filter =>
        let polled := pollFilter E limits.toLogLimits marshal reads ctx { filter with lastUsed := now }
        [⟨filter.revision, polled.1.revision, reads.events, polled.2⟩]
    else []
  | _ => []

end Calls

/-- The interleavings of calls and moves after a filter was installed on a node, with the polls of
the filter. The filter is a log filter with criteria, or a block filter. -/
inductive Served (E : Env) (limits : FilterLimits) (marshal : LogEntry → Bytes) (id : FilterId)
    (start : Node E.geth.State) (criteria : Option FilterQuery) :
    Node E.geth.State → Api → List (Poll E.geth.State) → Prop
  | log {reads : Reads E.geth.State} {now : Int} {ctx : Ctx} {query : FilterQuery} {api api' : Api}
      (cursor : reads.events = start) (query_eq : criteria = some query)
      (installed : newFilter E limits reads now ctx id query api = (api', .ok id)) :
      Served E limits marshal id start criteria start api' []
  | block {reads : Reads E.geth.State} {now : Int} {api api' : Api} (cursor : reads.events = start)
      (query_eq : criteria = none) (installed : newBlockFilter limits reads now id api = (api', .ok id)) :
      Served E limits marshal id start criteria start api' []
  | move {n n' : Node E.geth.State} {api : Api} {polls : List (Poll E.geth.State)}
      (run : Served E limits marshal id start criteria n api polls) (onward : Onward E n n') :
      Served E limits marshal id start criteria n' api polls
  | call {n n' : Node E.geth.State} {api : Api} {polls : List (Poll E.geth.State)}
      (run : Served E limits marshal id start criteria n api polls) (c : Call) {reads : Reads E.geth.State} (now : Int)
      (ctx : Ctx) (fresh : c.installs ≠ some id) (between : reads.Between E n n') :
      Served E limits marshal id start criteria n' (c.apply E limits marshal reads now ctx api)
        (polls ++ c.polls E limits marshal reads now ctx id api)

/-! ## What the polls have consumed -/

namespace Poll

variable {σ : Type}

/-- The events between the cursors of a successful poll. -/
def segment (p : Poll σ) : List Event :=
  match p.result with
  | .error _ => []
  | .ok _ => p.node.toLedger.emitted.filter fun e => p.before < e.revision ∧ e.revision ≤ p.after

def hashes (p : Poll σ) : List Hash :=
  match p.result with
  | .ok (.hashes hashes) => hashes
  | _ => []

def logs (p : Poll σ) : List LogEntry :=
  match p.result with
  | .ok (.logs entries) => entries
  | _ => []

end Poll

/-- The node whose events the last successful poll has read, or the one of the installation. -/
def lastRead {σ : Type} (start : Node σ) (polls : List (Poll σ)) : Node σ :=
  polls.foldl (fun n p => if p.result.isOk then p.node else n) start

/-! ## One call -/

section OneCall

variable {E : Env} {limits : FilterLimits} {marshal : LogEntry → Bytes} {reads : Reads E.geth.State} {now : Int}
  {ctx : Ctx} {id : FilterId} {api : Api}

/-- The filter is the other one, used at another time. -/
def InstalledFilter.Same (filter filter' : InstalledFilter) : Prop :=
  ∃ time, filter' = { filter with lastUsed := time }

/-- The filter of an id is unchanged or gone. -/
def Untouched (id : FilterId) (api api' : Api) : Prop :=
  ∀ filter', api'.filters[id]? = some filter' → ∃ filter, api.filters[id]? = some filter ∧ filter.Same filter'

theorem untouched_prune : Untouched id api (api.pruneExpiredFilters limits now) := fun filter' h =>
  ⟨filter', of_get_prune h, filter'.lastUsed, rfl⟩

variable {id' : FilterId} {filter : InstalledFilter}

theorem Untouched.insert {api' : Api} (h : Untouched id api api')
    (hfilter : id = id' → ∃ old, api'.filters[id']? = some old ∧ old.Same filter) :
    Untouched id api { filters := api'.filters.insert id' filter } := by
  intro filter' hget
  rw [Store.get_insert] at hget
  split at hget
  · next heq =>
    subst heq
    obtain rfl := Option.some.inj hget
    obtain ⟨old, hold, time, rfl⟩ := hfilter rfl
    obtain ⟨first, hfirst, time', rfl⟩ := h old hold
    exact ⟨first, hfirst, time, rfl⟩
  · exact h filter' hget

theorem untouched_installFilter (hne : id' ≠ id) :
    Untouched id api (api.installFilter limits now id' filter).1 := by
  unfold Api.installFilter
  simp only
  split
  · exact untouched_prune
  · exact untouched_prune.insert fun heq => absurd heq.symm hne

/-- Every call but a poll of the filter leaves it alone. -/
theorem untouched_apply (c : Call) (hfresh : c.installs ≠ some id) (hpoll : c ≠ .getFilterChanges id) :
    Untouched id api (c.apply E limits marshal reads now ctx api) := by
  cases c with
  | newFilter id' criteria =>
    have hne : id' ≠ id := fun heq => hfresh (congrArg some heq)
    unfold Call.apply Filters.newFilter
    simp only
    split
    · exact fun filter' h => ⟨filter', h, filter'.lastUsed, rfl⟩
    · exact untouched_installFilter hne
  | newBlockFilter id' => exact untouched_installFilter fun heq => hfresh (congrArg some heq)
  | newPendingTransactionFilter id' => exact untouched_installFilter fun heq => hfresh (congrArg some heq)
  | getFilterLogs id' =>
    unfold Call.apply Filters.getFilterLogs
    simp only
    split
    · exact untouched_prune
    · next filter hfilter =>
      have hpruned : Untouched id api (api.pruneExpiredFilters limits now) := untouched_prune
      have hsame := @Untouched.insert id api id' { filter with lastUsed := now } _ hpruned
        fun _ => ⟨filter, hfilter, now, rfl⟩
      split
      · exact hsame
      · exact hsame
  | getFilterChanges id' =>
    unfold Call.apply Filters.getFilterChanges
    simp only
    split
    · exact untouched_prune
    · exact untouched_prune.insert fun heq => absurd (congrArg Call.getFilterChanges heq.symm) hpoll
  | uninstallFilter id' =>
    unfold Call.apply Filters.uninstallFilter
    simp only
    split
    · intro filter' hget
      rw [Store.get_erase] at hget
      split at hget
      · cases hget
      · exact untouched_prune filter' hget
    · exact untouched_prune
  | reap => exact untouched_prune

end OneCall

/-! ## One poll -/

section OnePoll

variable {E : Env} {limits : LogLimits} {marshal : LogEntry → Bytes} {reads : Reads E.geth.State} {ctx : Ctx}
  {m m' n n' : Node E.geth.State}

/-- The events of a node that follows another one continue the events of that one. -/
theorem Follows.emitted (hE : E.Lawful) (S : Sound E m) (h : Follows E m m') :
    ∃ events, m'.toLedger.emitted = m.toLedger.emitted ++ events := by
  obtain ⟨-, -, hsteps⟩ := h.spec hE S
  have hapart : Apart (fun _ => ([] : List Nat)) := fun _ _ _ => List.disjoint_nil_left _
  obtain ⟨⟨events, hevents, -⟩, -⟩ := Chain.settles_run hE hapart S.inv.chain hsteps
  exact ⟨events, hevents⟩

variable {events new : List Event} {cursor : Nat} {answer : FilterChanges}

private theorem cursorAfter_numbered (h : Numbered Event.revision (cursor + 1) events) :
    cursorAfter Event.revision events cursor = cursor + events.length := by
  induction events generalizing cursor with
  | nil => rfl
  | cons event rest ih =>
    obtain ⟨hevent, hrest⟩ := Window.numbered_cons.mp h
    have := ih hrest
    rw [cursorAfter, List.foldl_cons, hevent]
    rw [cursorAfter] at this
    rw [this, List.length_cons]
    omega

/-- What a poll reads from a cursor that stands at the end of an earlier node's events. -/
theorem since_events (S : Sound E m') (hnew : m'.toLedger.emitted = m.toLedger.emitted ++ new)
    (h : m'.events.since m.toLedger.emitted.length = .ok events) :
    events = new ∧ cursorAfter Event.revision events m.toLedger.emitted.length = m'.toLedger.emitted.length := by
  obtain ⟨hcapacity, R⟩ := S.retains
  have hfilter := R.since_ok_all hcapacity h
  have hevents : events = new := by
    rw [hfilter, ← R.numbered.dropWhile_le_eq_filter, R.numbered.dropWhile_le, hnew, Nat.add_sub_cancel, List.drop_left]
  refine ⟨hevents, ?_⟩
  rw [cursorAfter_numbered (R.since_ok h).1, hevents, hnew, List.length_append]

/-- The events after a node's own, by their revisions. -/
theorem filter_emitted (S : Sound E m') (hnew : m'.toLedger.emitted = m.toLedger.emitted ++ new) :
    (m'.toLedger.emitted.filter fun e =>
      m.toLedger.emitted.length < e.revision ∧ e.revision ≤ m'.toLedger.emitted.length) = new := by
  have hnumbered := S.retains.2.numbered
  have hupper : (m'.toLedger.emitted.filter fun e =>
      m.toLedger.emitted.length < e.revision ∧ e.revision ≤ m'.toLedger.emitted.length) =
      m'.toLedger.emitted.filter fun e => m.toLedger.emitted.length < e.revision := by
    refine List.filter_congr fun e he => ?_
    have := (hnumbered.bounds he).2
    simp only [decide_eq_decide, and_iff_left_iff_imp]
    omega
  rw [hupper, ← hnumbered.dropWhile_le_eq_filter, hnumbered.dropWhile_le, Nat.add_sub_cancel, hnew, List.drop_left]

private theorem blockChanges_ok {next : Nat} (h : blockChanges limits events cursor ctx = .ok (answer, next)) :
    answer = .hashes (events.filterMap addedBlock) ∧ next = cursorAfter Event.revision events cursor := by
  simp only [blockChanges, Except.do_ok_iff, Except.ok.injEq, Prod.mk.injEq] at h
  obtain ⟨⟨result, next'⟩, hcollect, -, -, rfl, rfl⟩ := h
  obtain ⟨rfl, rfl⟩ := collectHashes_ok hcollect
  exact ⟨rfl, rfl⟩

/-- A successful poll of the event log passes every event that it has read. -/
theorem pollFilter_ok {filter : InstalledFilter} (hkind : filter.kind ≠ .pendingTransaction)
    (h : (pollFilter E limits marshal reads ctx filter).2 = .ok answer) :
    ∃ events, reads.events.events.since filter.revision = .ok events ∧
      (pollFilter E limits marshal reads ctx filter).1 =
        { filter with revision := cursorAfter Event.revision events filter.revision } ∧
      (filter.kind = .block → answer = .hashes (events.filterMap addedBlock)) ∧
      (filter.kind = .log →
        ∃ next, logChanges E limits marshal reads filter.criteria events filter.revision ctx = .ok (answer, next)) := by
  unfold pollFilter at h ⊢
  split at h
  · next hpending => exact absurd hpending hkind
  · next hblock =>
    obtain ⟨events, next, hsince, hchanges, hpolled⟩ := pollEvents_ok h
    obtain ⟨rfl, rfl⟩ := blockChanges_ok hchanges
    exact ⟨events, hsince, hpolled, fun _ => rfl, fun hlog => (by rw [hblock] at hlog; cases hlog)⟩
  · next hlog =>
    obtain ⟨events, next, hsince, hchanges, hpolled⟩ := pollEvents_ok h
    have hnext : next = cursorAfter Event.revision events filter.revision := by
      simp only [logChanges, Except.do_ok_iff, Except.ok.injEq, Prod.mk.injEq] at hchanges
      obtain ⟨-, -, headBlock, -, ⟨result, next'⟩, hcollect, -, rfl⟩ := hchanges
      exact collectChanges_next hcollect
    subst hnext
    exact ⟨events, hsince, hpolled, fun hblock => (by rw [hlog] at hblock; cases hblock), fun _ => ⟨_, hchanges⟩⟩

/-- The answer of a log filter: for every event the entries that a later node has for it. -/
theorem logChanges_ok {query : FilterQuery} (hquery : query.Bounded) (hE : E.Lawful)
    (S : Sound E reads.events) (hbetween : reads.Between E n n')
    (hevents : ∀ e ∈ events, e ∈ reads.events.toLedger.emitted) {next : Nat}
    (h : logChanges E limits marshal reads query events cursor ctx = .ok (answer, next)) :
    answer = .logs (events.flatMap fun event => (announced E n'.toLedger query event).map fun entry =>
      { entry with removed := event.removed }) := by
  simp only [logChanges, Except.do_ok_iff, Except.ok.injEq, Prod.mk.injEq] at h
  obtain ⟨-, -, headBlock, -, ⟨result, next'⟩, hcollect, rfl, -⟩ := h
  have hlater : Keeps E reads.events n' := ((hbetween.current.1.trans hbetween.current.2).spec hE S).2.1
  have hreads : ∀ j event entries, event ∈ events →
      eventLogs E (reads.event j) query event (UInt64.ofNat headBlock.number) = .ok entries →
        entries = announced E n'.toLedger query event := by
    intro j event entries hevent hlogs
    have hblock := (hbetween.event j (reads.event j).block (by simp)).1.spec hE S
    have hreceipts := (hbetween.event j (reads.event j).receipts (by simp)).1.spec hE S
    exact eventLogs_ok hquery S.inv (hevents event hevent) hblock.2.1 hreceipts.2.1 hlater hlogs
  rw [collectChanges_ok hreads hcollect, List.nil_append]

/-- Folding the entries of the events between two nodes. -/
theorem foldl_between (hE : E.Lawful) (S : Sound E m) (h : Follows E m m') (h' : Follows E m' n')
    (hnew : m'.toLedger.emitted = m.toLedger.emitted ++ new) (query : FilterQuery) :
    (new.flatMap fun event => (announced E n'.toLedger query event).map fun entry =>
      { entry with removed := event.removed }).foldl deliver (chainLogs E m.toLedger query) =
        chainLogs E m'.toLedger query := by
  obtain ⟨S', -, hsteps⟩ := h.spec hE S
  obtain ⟨S'', hkeeps', -⟩ := h'.spec hE S'
  have hkeeps := ((h.trans h').spec hE S).2.1
  have hapart : Apart (blockEntries E n'.toLedger query) := apart_blockEntries S''.inv
  obtain ⟨⟨events, hevents, hfold⟩, -⟩ := Chain.settles_run hE hapart S.inv.chain hsteps
  obtain rfl : events = new := List.append_cancel_left (hevents.symm.trans hnew)
  rw [foldl_deliver_announced S''.inv, ← hkeeps.chainLogs S.inv, ← hkeeps'.chainLogs S'.inv]
  exact hfold

end OnePoll

/-! ## The run -/

/-- What holds of a filter and its polls as long as there was no gap. -/
structure Consumed (E : Env) (id : FilterId) (start : Node E.geth.State) (criteria : Option FilterQuery)
    (n : Node E.geth.State) (api : Api) (polls : List (Poll E.geth.State)) : Prop where
  behind : Follows E start (lastRead start polls)
  ahead : Follows E (lastRead start polls) n
  cursor : ∀ filter, api.filters[id]? = some filter →
    filter.revision = (lastRead start polls).toLedger.emitted.length
  kind : ∀ filter, api.filters[id]? = some filter → filter.kind = criteria.elim .block fun _ => .log
  query : ∀ filter, api.filters[id]? = some filter → ∀ query ∈ criteria, filter.criteria = query
  segments : polls.flatMap Poll.segment =
    (lastRead start polls).toLedger.emitted.drop start.toLedger.emitted.length
  hashes : criteria = none → polls.flatMap Poll.hashes =
    ((lastRead start polls).toLedger.emitted.drop start.toLedger.emitted.length).filterMap addedBlock
  logs : ∀ query ∈ criteria, query.Bounded →
    (polls.flatMap Poll.logs).foldl deliver (chainLogs E start.toLedger query) =
      chainLogs E (lastRead start polls).toLedger query

section Run

variable {E : Env} {limits : FilterLimits} {marshal : LogEntry → Bytes} {reads : Reads E.geth.State} {now : Int}
  {ctx : Ctx} {id : FilterId} {api api' : Api} {start n n' : Node E.geth.State} {criteria : Option FilterQuery}
  {polls : List (Poll E.geth.State)}

/-- Nothing is consumed where the filter is left alone. -/
theorem Consumed.untouched (C : Consumed E id start criteria n api polls) (hn : Follows E n n')
    (h : Untouched id api api') : Consumed E id start criteria n' api' polls where
  behind := C.behind
  ahead := C.ahead.trans hn
  cursor filter' hget := by
    obtain ⟨filter, hfilter, time, rfl⟩ := h filter' hget
    exact C.cursor filter hfilter
  kind filter' hget := by
    obtain ⟨filter, hfilter, time, rfl⟩ := h filter' hget
    exact C.kind filter hfilter
  query filter' hget := by
    obtain ⟨filter, hfilter, time, rfl⟩ := h filter' hget
    exact C.query filter hfilter
  segments := C.segments
  hashes := C.hashes
  logs := C.logs

private theorem lastRead_append (p : Poll E.geth.State) :
    lastRead start (polls ++ [p]) = if p.result.isOk then p.node else lastRead start polls := by
  rw [lastRead, List.foldl_append]
  rfl

variable {err : RpcError} {filter : InstalledFilter}

/-- A poll that failed is not seen. -/
theorem Consumed.failed (C : Consumed E id start criteria n api polls) {p : Poll E.geth.State}
    (herr : p.result = .error err) : Consumed E id start criteria n api (polls ++ [p]) := by
  have hlast : lastRead start (polls ++ [p]) = lastRead start polls := by
    rw [lastRead_append, herr]
    rfl
  have hsegment : p.segment = [] := by rw [Poll.segment, herr]
  have hhashes : p.hashes = [] := by rw [Poll.hashes, herr]
  have hlogs : p.logs = [] := by rw [Poll.logs, herr]
  refine ⟨?_, ?_, ?_, C.kind, C.query, ?_, ?_, ?_⟩
  all_goals simp only [hlast, List.flatMap_append, List.flatMap_singleton, hsegment, hhashes, hlogs, List.append_nil]
  · exact C.behind
  · exact C.ahead
  · exact C.cursor
  · exact C.segments
  · exact C.hashes
  · exact C.logs

/-- A poll that is answered consumes the events since the last one. -/
theorem Consumed.answered (hE : E.Lawful) (S : Sound E start) (C : Consumed E id start criteria n api polls)
    (hbetween : reads.Between E n n') {polled : InstalledFilter} (hfilter : api.filters[id]? = some filter)
    {answer : FilterChanges}
    (hpoll : pollFilter E limits.toLogLimits marshal reads ctx { filter with lastUsed := now } = (polled, .ok answer))
    (hget : ∀ filter', api'.filters[id]? = some filter' → filter' = polled) :
    Consumed E id start criteria n' api' (polls ++ [⟨filter.revision, polled.revision, reads.events, .ok answer⟩]) := by
  have hkind := C.kind filter hfilter
  have hnot : ({ filter with lastUsed := now } : InstalledFilter).kind ≠ .pendingTransaction := by
    change filter.kind ≠ _
    rw [hkind]
    cases criteria <;> simp
  obtain ⟨events, hsince, hpolled, hblock, hlog⟩ := pollFilter_ok hnot (congrArg Prod.snd hpoll)
  rw [hpoll] at hpolled
  change polled = _ at hpolled
  -- the nodes: the last one that was read, the one that is read now, and the one after the poll
  generalize hm : lastRead start polls = m at *
  have Cbehind := hm ▸ C.behind
  have Cahead := hm ▸ C.ahead
  have hcursor : filter.revision = m.toLedger.emitted.length := hm ▸ C.cursor filter hfilter
  obtain ⟨Sm, -⟩ := Cbehind.spec hE S
  have hto : Follows E m reads.events := Cahead.trans hbetween.events
  have hon : Follows E reads.events n' := hbetween.current.1.trans hbetween.current.2
  obtain ⟨Sr, -⟩ := hto.spec hE Sm
  obtain ⟨before, hbefore⟩ := Cbehind.emitted hE S
  obtain ⟨new, hnew⟩ := hto.emitted hE Sm
  change reads.events.events.since filter.revision = _ at hsince
  rw [hcursor] at hsince
  obtain ⟨rfl, hafter⟩ := since_events Sr hnew hsince
  have hrevision : polled.revision = reads.events.toLedger.emitted.length := by
    rw [hpolled]
    change cursorAfter Event.revision events filter.revision = _
    rw [hcursor, hafter]
  have hlast : lastRead start (polls ++ [⟨filter.revision, polled.revision, reads.events, .ok answer⟩]) =
      reads.events := by
    rw [lastRead_append]
    rfl
  have hsplit : reads.events.toLedger.emitted.drop start.toLedger.emitted.length =
      m.toLedger.emitted.drop start.toLedger.emitted.length ++ events := by
    rw [hnew, hbefore, List.append_assoc, List.drop_left, List.drop_left]
  have hkind' : ∀ filter', api'.filters[id]? = some filter' → filter'.kind = criteria.elim .block fun _ => .log := by
    intro filter' hfilter'
    rw [hget filter' hfilter', hpolled]
    exact hkind
  have hquery' : ∀ filter', api'.filters[id]? = some filter' → ∀ query ∈ criteria, filter'.criteria = query := by
    intro filter' hfilter'
    rw [hget filter' hfilter', hpolled]
    exact C.query filter hfilter
  refine ⟨?_, ?_, ?_, hkind', hquery', ?_, ?_, ?_⟩
  all_goals simp only [hlast, List.flatMap_append, List.flatMap_singleton]
  · exact Cbehind.trans hto
  · exact hon
  · intro filter' hfilter'
    rw [hget filter' hfilter', hrevision]
  · rw [hsplit, ← hm, C.segments, hm]
    congr 1
    change (reads.events.toLedger.emitted.filter _) = _
    rw [hcursor, hrevision]
    exact filter_emitted Sr hnew
  · intro hnone
    rw [hsplit, List.filterMap_append, ← hm, C.hashes hnone, hm]
    rw [hnone] at hkind
    obtain rfl := hblock hkind
    rfl
  · intro query hquery hbounded
    rw [List.foldl_append, C.logs query hquery hbounded, hm]
    rw [Option.mem_def] at hquery
    rw [hquery] at hkind
    obtain ⟨next, hchanges⟩ := hlog hkind
    change logChanges E limits.toLogLimits marshal reads filter.criteria events filter.revision ctx = _ at hchanges
    rw [C.query filter hfilter query hquery] at hchanges
    have hmem : ∀ e ∈ events, e ∈ reads.events.toLedger.emitted := fun e he => hnew ▸ List.mem_append_right _ he
    obtain rfl := logChanges_ok hbounded hE Sr hbetween hmem hchanges
    exact foldl_between hE Sm hto hon hnew query

/-- A call keeps what the polls have consumed, unless it finds a gap. -/
theorem Consumed.call (hE : E.Lawful) (S : Sound E start) (C : Consumed E id start criteria n api polls) (c : Call)
    (hfresh : c.installs ≠ some id) (hbetween : reads.Between E n n')
    (hgap : ∀ p ∈ c.polls E limits marshal reads now ctx id api, p.result ≠ .error historyGone) :
    Consumed E id start criteria n' (c.apply E limits marshal reads now ctx api)
      (polls ++ c.polls E limits marshal reads now ctx id api) := by
  have hn : Follows E n n' := hbetween.events.trans (hbetween.current.1.trans hbetween.current.2)
  by_cases hpoll : c = .getFilterChanges id
  · subst hpoll
    unfold Call.polls Call.apply Filters.getFilterChanges at *
    simp only [if_true] at hgap ⊢
    cases hfound : (api.pruneExpiredFilters limits now).filters[id]? with
    | none =>
      simp only [List.append_nil]
      exact C.untouched hn untouched_prune
    | some filter =>
      simp only [hfound] at hgap ⊢
      cases hpolled : pollFilter E limits.toLogLimits marshal reads ctx { filter with lastUsed := now } with
      | mk polled result =>
        rw [hpolled] at hgap
        cases result with
        | error err =>
          have hkind := C.kind filter (of_get_prune hfound)
          have hnot : filter.kind ≠ .pendingTransaction := by
            rw [hkind]
            cases criteria <;> simp
          have hsame := pollFilter_error (congrArg Prod.snd hpolled)
            (fun heq => hgap _ List.mem_cons_self (congrArg Except.error heq)) fun hpending => absurd hpending hnot
          rw [hpolled] at hsame
          have huntouched :
              Untouched id api { filters := (api.pruneExpiredFilters limits now).filters.insert id polled } :=
            untouched_prune.insert fun _ => ⟨filter, hfound, now, hsame⟩
          exact (C.untouched hn huntouched).failed rfl
        | ok answer =>
          refine C.answered hE S hbetween (of_get_prune hfound) hpolled fun filter' hget => ?_
          rw [Store.get_insert, if_pos rfl] at hget
          exact (Option.some.inj hget).symm
  · have hnone : c.polls E limits marshal reads now ctx id api = [] := by
      cases c with
      | getFilterChanges id' =>
        have hne : id' ≠ id := fun heq => hpoll (congrArg _ heq)
        simp only [Call.polls, hne, if_false]
      | _ => rfl
    rw [hnone, List.append_nil]
    exact C.untouched hn (untouched_apply c hfresh hpoll)

/-- A filter that was just installed has consumed nothing. -/
theorem consumed_installFilter (S : Sound E start) (hcursor : filter.revision = start.events.current)
    (hkind : filter.kind = criteria.elim .block fun _ => .log)
    (hquery : ∀ query ∈ criteria, filter.criteria = query)
    (h : api.installFilter limits now id filter = (api', .ok id)) : Consumed E id start criteria start api' [] := by
  have hget : ∀ filter', api'.filters[id]? = some filter' → filter' = { filter with lastUsed := now } := by
    intro filter' hfilter'
    unfold Api.installFilter at h
    simp only at h
    split at h
    · cases congrArg Prod.snd h
    · obtain ⟨rfl, -⟩ := Prod.mk.inj h
      rw [Store.get_insert, if_pos rfl] at hfilter'
      exact (Option.some.inj hfilter').symm
  have hnothing : start.toLedger.emitted.drop start.toLedger.emitted.length = [] := List.drop_length
  exact
    { behind := .refl
      ahead := .refl
      cursor := fun filter' hfilter' => by rw [hget filter' hfilter']; exact hcursor.trans S.current
      kind := fun filter' hfilter' => by rw [hget filter' hfilter']; exact hkind
      query := fun filter' hfilter' => by rw [hget filter' hfilter']; exact hquery
      segments := hnothing.symm
      hashes := fun _ => (congrArg (List.filterMap addedBlock) hnothing).symm
      logs := fun _ _ _ => rfl }

/-- What the polls of a run have consumed. -/
theorem Served.consumed (hE : E.Lawful) (S : Sound E start) (h : Served E limits marshal id start criteria n api polls)
    (hgap : ∀ p ∈ polls, p.result ≠ .error historyGone) : Consumed E id start criteria n api polls := by
  induction h with
  | log cursor query_eq installed =>
    subst cursor query_eq
    unfold newFilter at installed
    split at installed
    · cases congrArg Prod.snd installed
    · exact consumed_installFilter S rfl rfl (fun query hquery => Option.some.inj hquery) installed
  | block cursor query_eq installed =>
    subst cursor query_eq
    exact consumed_installFilter S rfl rfl (fun query hquery => absurd hquery (Option.not_mem_none query)) installed
  | move run onward ih => exact (ih hgap).untouched (.single onward) fun filter' h =>
      ⟨filter', h, filter'.lastUsed, rfl⟩
  | call run c now ctx fresh between ih =>
    have C := ih fun p hp => hgap p (List.mem_append_left _ hp)
    exact C.call hE S c fresh between fun p hp => hgap p (List.mem_append_right _ hp)

/-- Every node of a run is sound. -/
theorem Attained.sound (hE : E.Lawful) (h : Attained E n) : Sound E n := by
  obtain ⟨first, hfirst, hmoves⟩ := h
  induction hmoves with
  | refl => exact ⟨Env.inv_newNode hE hfirst, Env.logged_newNode hE hfirst⟩
  | tail _ hmove ih => exact ⟨hmove.inv hE ih.inv, hmove.logged hE ih.inv ih.logged⟩

/-- The events after a node's own, by their revisions. -/
theorem Sound.drop_eq_filter (S : Sound E start) (S' : Sound E n) :
    n.toLedger.emitted.drop start.toLedger.emitted.length =
      n.toLedger.emitted.filter fun e => start.events.current < e.revision := by
  have hnumbered := S'.retains.2.numbered
  rw [S.current, ← hnumbered.dropWhile_le_eq_filter, hnumbered.dropWhile_le, Nat.add_sub_cancel]

/-- A poll that fails without a gap leaves the cursor where it is. -/
theorem getFilterChanges_error (h : (getFilterChanges E limits marshal reads now ctx id api).2 = .error err)
    (hgap : err ≠ historyGone) (hpending : err ≠ pendingHistoryGone)
    (hfilter : (api.pruneExpiredFilters limits now).filters[id]? = some filter) :
    (getFilterChanges E limits marshal reads now ctx id api).1.filters[id]? = some { filter with lastUsed := now } := by
  unfold getFilterChanges at h ⊢
  simp only [hfilter] at h ⊢
  rw [Store.get_insert, if_pos rfl, pollFilter_error h hgap fun _ => hpending]

end Run

/-- For every run and every interleaving of the calls with it. Without a gap, the segments that the
polls of a filter have consumed are together the events since its installation, in order, up to
the last one that was read. A block filter has answered the added blocks of these events, and the
answers of a log filter with numbers for bounds fold the matching logs of the chain at the
installation to those of the chain at the last event that was read. A poll that fails without a
gap keeps the cursor. -/
theorem filters_replay {E : Env} (hE : E.Lawful) {limits : FilterLimits} {marshal : LogEntry → Bytes} {id : FilterId}
    {start n : Node E.geth.State} {criteria : Option FilterQuery} {api : Api} {polls : List (Poll E.geth.State)}
    (hstart : Attained E start) (h : Served E limits marshal id start criteria n api polls) :
    ((∀ p ∈ polls, p.result ≠ .error historyGone) →
      polls.flatMap Poll.segment =
        ((lastRead start polls).toLedger.emitted.filter fun e => start.events.current < e.revision) ∧
      Numbered Event.revision (start.events.current + 1) (polls.flatMap Poll.segment) ∧
      (criteria = none → polls.flatMap Poll.hashes = (polls.flatMap Poll.segment).filterMap addedBlock) ∧
      ∀ query ∈ criteria, query.Bounded →
        (polls.flatMap Poll.logs).foldl deliver (chainLogs E start.toLedger query) =
          chainLogs E (lastRead start polls).toLedger query) ∧
    ∀ reads now ctx id' err, (getFilterChanges E limits marshal reads now ctx id' api).2 = .error err →
      err ≠ historyGone → err ≠ pendingHistoryGone →
        ∀ filter, (api.pruneExpiredFilters limits now).filters[id']? = some filter →
          (getFilterChanges E limits marshal reads now ctx id' api).1.filters[id']? =
            some { filter with lastUsed := now } := by
  have S := hstart.sound hE
  refine ⟨fun hgap => ?_, fun reads now ctx id' err herr hne hne' filter => getFilterChanges_error herr hne hne'⟩
  have C := h.consumed hE S hgap
  obtain ⟨S', -⟩ := C.behind.spec hE S
  have hnumbered := S'.retains.2.numbered.drop start.toLedger.emitted.length
  refine ⟨C.segments.trans (S.drop_eq_filter S'), ?_, fun hnone => ?_, C.logs⟩
  · rw [C.segments, S.current, Nat.add_comm]
    exact hnumbered
  · rw [C.hashes hnone, C.segments]

end Filters

namespace Reference

open Filters

/-- A node with a transaction in its pool. -/
def pooled : Node env.geth.State := run [⟨.setAutomine false, none⟩, ⟨.sendTransaction cheap, none⟩]

/-- The block that the node mines, and the node after it. -/
def mined : Option (Extension × Node env.geth.State) := do
  let (x, _) ← (env.planMine pooled none false).toOption
  let n ← (env.commitPrepared pooled (env.mineOperation pooled x) (env.mineEvents pooled x) (.extend x.block x.receipts)
    (env.mineApply pooled x)).toOption
  some (x, n)

def pollLimits : FilterLimits where
  maxLogBlocks := 10
  maxLogResults := 10
  maxResponseBytes := 1000
  maxFilters := 1
  filterTimeout := 10

def readsOf (n : Node env.geth.State) : Reads env.geth.State := ⟨n, n, n, fun _ => ⟨n, n, n, n⟩⟩

theorem between_readsOf (n : Node env.geth.State) : (readsOf n).Between env n n where
  events := .refl
  current := ⟨.refl, .refl⟩
  head := ⟨.refl, .refl⟩
  event i m hm := by
    have hm : m = n := by simpa [readsOf] using hm
    rw [hm]
    exact ⟨.refl, .refl⟩

/-- The filters after a log filter is installed on the node. -/
def installed : Api × Except RpcError FilterId := newFilter env pollLimits (readsOf pooled) 0 none [1] {} {}

/-- The poll after the block. -/
def delivered : List (Poll env.geth.State) :=
  mined.elim [] fun out =>
    (Call.getFilterChanges [1]).polls env pollLimits (fun _ => []) (readsOf out.2) 1 none [1] installed.1

/-- Mining a block that is not stored keeps all receipts. -/
theorem onward_mined {x : Extension} {n : Node env.geth.State} (h : mined = some (x, n))
    (hnew : pooled.db.blockByHash (env.hash x.block) = none) : Onward env pooled n := by
  have I : pooled.toLedger.Inv env := (reachable_run _).inv lawful
  simp only [mined, Option.bind_eq_bind, Option.bind_eq_some_iff, Option.some.injEq, Prod.mk.injEq] at h
  obtain ⟨⟨x', ctx⟩, hplan, n', hcommit, rfl, rfl⟩ := h
  have hplan := Except.toOption_eq_some.mp hplan
  have hcommit := Except.toOption_eq_some.mp hcommit
  refine ⟨.mine hplan hcommit, fun {b} hb _ => ?_⟩
  have p := Env.planMine_spec lawful I.chain.wellFormed hplan
  obtain ⟨events, hevents, hdb, -⟩ := Env.commitPrepared_db (fun _ => Env.mineApply_db) hcommit
  rw [hdb, (Env.proper_mine lawful I.chain.wellFormed p hevents).after_get_receipts_block lawful (.inl rfl), if_neg]
  · rfl
  · intro heq
    rw [heq] at hnew
    cases hb.symm.trans hnew

set_option maxRecDepth 100000 in
/-- The poll after the block delivers its log. -/
theorem filters_replay_mined : ∃ n api polls, Served env pollLimits (fun _ => []) [1] pooled (some {}) n api polls ∧
    (polls.flatMap Poll.logs).length = 1 ∧
    (polls.flatMap Poll.logs).foldl deliver (chainLogs env pooled.toLedger {}) =
      chainLogs env (lastRead pooled polls).toLedger {} := by
  have hfound : mined.map (fun out => decide (pooled.db.blockByHash (env.hash out.1.block) = none)) = some true := by
    decide +kernel
  obtain ⟨⟨x, n⟩, hmined, hnew⟩ := Option.map_eq_some_iff.mp hfound
  have honward := onward_mined hmined (of_decide_eq_true hnew)
  have hinstalled : installed.2.toOption = some [1] := by decide +kernel
  have hserved : Served env pollLimits (fun _ => []) [1] pooled (some {}) pooled installed.1 [] :=
    .log rfl rfl (Prod.ext rfl (Except.toOption_eq_some.mp hinstalled))
  have hpoll := (hserved.move honward).call (.getFilterChanges [1]) 1 none (by simp [Call.installs]) (between_readsOf n)
  have hdelivered : delivered = (Call.getFilterChanges [1]).polls env pollLimits (fun _ => []) (readsOf n) 1 none [1]
      installed.1 := by
    rw [delivered, hmined]
    rfl
  rw [← hdelivered, List.nil_append] at hpoll
  have hok : delivered.all (fun p => p.result.isOk) = true := by decide +kernel
  have hgap : ∀ p ∈ delivered, p.result ≠ .error historyGone := by
    intro p hp herr
    have := List.all_eq_true.mp hok p hp
    rw [herr] at this
    cases this
  have hattained : Attained env pooled := (reachable_run _).moves fun _ => Env.guarded_any
  have hreplay := (filters_replay lawful hattained hpoll).1 hgap
  exact ⟨_, _, _, hpoll, by decide +kernel, hreplay.2.2.2 {} rfl ⟨by simp, by simp⟩⟩

end Reference

end Ethertest
