-- SUMMARY: The event log: revisions, the planned database writes of a batch of events, and the retained window.
import Ethertest.Database

/-!
# The event log

Events get consecutive revisions. A batch is first planned, so that its database
writes can be committed together with the change that it announces, and then applied
to the log in memory. Only the last `capacity` events are retained.
-/

namespace Ethertest

structure EventLog where
  capacity : Nat
  next : Nat := 1
  events : List Event := []

structure EventPlan where
  events : List Event
  puts : List KV
  deletes : List Key
  next : Nat

namespace EventLog

/-- Give consecutive revisions, from `next` on, to a batch. -/
def number (next : Nat) : List Event → Except Error (List Event × Nat)
  | [] => .ok ([], next)
  | e :: rest => do
    failIf (next = maxUint64) (.new "event revision overflows uint64")
    let (numbered, next') ← number (next + 1) rest
    .ok ({ e with revision := next } :: numbered, next')

def plan (l : EventLog) (events : List Event) : Except Error EventPlan := do
  let (numbered, next) ← number l.next events
  let retained := l.events ++ numbered
  .ok { events := numbered
        puts := numbered.map (fun e => (.event e.revision, .event e)) ++ [(.eventNext, .revision next)]
        deletes := (retained.take (retained.length - l.capacity)).map fun e => .event e.revision
        next := next }

def apply (l : EventLog) (p : EventPlan) : EventLog :=
  if p.events = [] then l
  else
    let retained := l.events ++ p.events
    { l with next := p.next, events := retained.drop (retained.length - l.capacity) }

/-- `current` -/
def current (l : EventLog) : Nat := l.next - 1

end EventLog

/-! ## Reading -/

/-- `ErrEventGap` -/
def errEventGap : Error := .new "requested revision is no longer available"

/-- `sinceLocked` of the two logs: the retained events after a revision. -/
def sinceLocked {α : Type} (revisionOf : α → Nat) (events : List α) (revision : Nat) : Except Error (List α) :=
  match events with
  | [] => .ok []
  | first :: _ =>
    -- `revision+1` wraps
    if (revision + 1) % 2 ^ 64 < revisionOf first then .error errEventGap
    else .ok (events.dropWhile fun e => revisionOf e ≤ revision)

namespace EventLog

/-- `since` -/
def since (l : EventLog) (revision : Nat) : Except Error (List Event) :=
  sinceLocked Event.revision l.events revision

/-- One round of the loop of `newEventLog`. -/
def readEvent (log : EventLog) : Key × Value → Except Error EventLog
  | (.event _, .event event) =>
    if log.next ≤ event.revision then do
      failIf (event.revision = maxUint64) (.new "persisted event revision overflows uint64")
      .ok { log with events := log.events ++ [event], next := event.revision + 1 }
    else .ok { log with events := log.events ++ [event] }
  | (.event _, _) => .error (.new "decode event")
  | _ => .ok log

/-- `newEventLog`: the log that a database holds. -/
def newEventLog (capacity : Nat) (db : Db) : Except Error EventLog :=
  db.entries.toList.foldlM readEvent { capacity := capacity }

/-! ## What planning keeps of a batch -/

/-- An event without its revision. -/
def unnumbered (e : Event) : Event := { e with revision := 0 }

theorem number_unnumbered {next next' : Nat} {events numbered : List Event}
    (h : number next events = .ok (numbered, next')) :
    numbered.map unnumbered = events.map unnumbered := by
  induction events generalizing next next' numbered with
  | nil =>
    simp only [number, Except.ok.injEq, Prod.mk.injEq] at h
    rw [← h.1]
  | cons e rest ih =>
    simp only [number, Except.do_ok_iff, failIf_eq_ok] at h
    obtain ⟨-, -, ⟨numbered', next''⟩, hrest, h⟩ := h
    simp only [Except.ok.injEq, Prod.mk.injEq] at h
    rw [← h.1, List.map_cons, List.map_cons, ih hrest]
    rfl

/-- A plan holds the batch's events in order, with revisions filled in. -/
theorem plan_events {l : EventLog} {events : List Event} {p : EventPlan} (h : l.plan events = .ok p) :
    p.events.map unnumbered = events.map unnumbered := by
  simp only [plan, Except.do_ok_iff] at h
  obtain ⟨⟨numbered, next⟩, hnum, h⟩ := h
  simp only [Except.ok.injEq] at h
  rw [← h]
  exact number_unnumbered hnum

/-- A plan's writes are only about the log's own keys. -/
theorem plan_keys {l : EventLog} {events : List Event} {p : EventPlan} (h : l.plan events = .ok p) :
    (∀ kv ∈ p.puts, kv.1 = .eventNext ∨ ∃ r, kv.1 = .event r) ∧
      ∀ k ∈ p.deletes, ∃ r, k = .event r := by
  simp only [plan, Except.do_ok_iff] at h
  obtain ⟨⟨numbered, next⟩, -, h⟩ := h
  simp only [Except.ok.injEq] at h
  subst h
  constructor
  · intro kv hkv
    simp only [List.mem_append, List.mem_map, List.mem_singleton] at hkv
    rcases hkv with ⟨e, -, rfl⟩ | rfl
    · exact .inr ⟨e.revision, rfl⟩
    · exact .inl rfl
  · intro k hk
    simp only [List.mem_map] at hk
    obtain ⟨e, -, rfl⟩ := hk
    exact ⟨e.revision, rfl⟩

end EventLog

end Ethertest
