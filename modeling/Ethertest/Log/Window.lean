-- SUMMARY: The window that the event log and the pending-hash log retain, in memory and in the database.
import Ethertest.Base.Window
import Ethertest.Node

/-!
# The retained window

A log keeps the last events that were appended to it. The events carry consecutive
revisions, the database holds the same events, and a reader gets all events after its
revision or learns that some of them are gone.
-/

namespace Ethertest

open Window (Numbered numbered_cons numbered_append)

/-! ## Reading -/

section Reading

variable {α : Type} {revisionOf : α → Nat} {events : List α} {first : Nat}

/-- What a reader gets of consecutive events. -/
theorem sinceLocked_eq (h : Numbered revisionOf first events) {r : Nat} (hr : r < maxUint64) :
    sinceLocked revisionOf events r =
      if events ≠ [] ∧ r + 1 < first then .error errEventGap else .ok (events.filter fun e => r < revisionOf e) := by
  have hwrap : (r + 1) % 2 ^ 64 = r + 1 := Nat.mod_eq_of_lt (by unfold maxUint64 at hr; omega)
  cases events with
  | nil => simp [sinceLocked]
  | cons e rest =>
    have hfirst : revisionOf e = first := (numbered_cons.mp h).1
    rw [sinceLocked, hwrap, hfirst, h.dropWhile_le_eq_filter]
    simp

end Reading

/-- What readers rely on, with all events that were ever appended: the window holds the last
of them, their revisions are consecutive and end before the counter, and reading fails
only if events are gone. -/
structure RetainedWindow {α : Type} (revisionOf : α → Nat) (capacity next : Nat) (all events : List α) : Prop where
  retained : events = Window.last (min capacity all.length) all
  consecutive : ∃ first, Numbered revisionOf first events
  /-- `next-1` in `uint64` -/
  newest : ∀ e ∈ events.getLast?, revisionOf e = (next + maxUint64) % 2 ^ 64
  since : ∀ r < maxUint64, sinceLocked revisionOf events r =
    if ∃ e ∈ Window.discarded (min capacity all.length) all, r < revisionOf e then .error errEventGap
    else .ok (events.filter fun e => r < revisionOf e)

section Windows

variable {α : Type} {revisionOf : α → Nat} {all : List α} {capacity next : Nat}

private theorem last_min (capacity : Nat) (all : List α) :
    Window.last (min capacity all.length) all = Window.last capacity all := by
  rw [Window.last, Window.last]
  congr 1
  omega

theorem discarded_min (capacity : Nat) (all : List α) :
    Window.discarded (min capacity all.length) all = Window.discarded capacity all := by
  rw [Window.discarded, Window.discarded]
  congr 1
  omega

/-- Events that are numbered from one on, with a counter that has not wrapped, give a window
that readers can rely on. -/
theorem RetainedWindow.of_numbered (hcapacity : 0 < capacity) (h : Numbered revisionOf 1 all)
    (hnext : next = (all.length + 1) % 2 ^ 64) (hbound : all.length ≤ maxUint64) :
    RetainedWindow revisionOf capacity next all (Window.last capacity all) where
  retained := (last_min _ _).symm
  consecutive := ⟨_, h.drop _⟩
  newest := by
    intro e he
    have hmem : e ∈ all.getLast? := by
      rw [Window.last] at he
      have hne : all ≠ [] := by
        rintro rfl
        simp at he
      have hpos : 0 < all.length := List.length_pos_of_ne_nil hne
      rwa [List.getLast?_drop, if_neg (by omega)] at he
    have hrevision : revisionOf e = all.length := by
      obtain ⟨front, rfl⟩ := List.mem_getLast?_eq_getLast hmem |>.elim fun hne heq =>
        (⟨all.dropLast, (heq ▸ List.dropLast_append_getLast hne).symm⟩ : ∃ front, all = front ++ [e])
      have := (numbered_append.mp h).2
      have := (numbered_cons.mp this).1
      simp only [List.length_append, List.length_singleton]
      omega
    rw [hrevision, hnext]
    have hpos : 0 < all.length := List.length_pos_of_mem (List.mem_of_mem_getLast? hmem)
    unfold maxUint64 at *
    omega
  since := by
    intro r hr
    have hlast : Numbered revisionOf (1 + (all.length - capacity)) (Window.last capacity all) := h.drop _
    rw [discarded_min, sinceLocked_eq hlast hr]
    refine if_congr ?_ rfl rfl
    have hdiscarded : Numbered revisionOf 1 (Window.discarded capacity all) := h.take _
    have hlength := Window.length_discarded capacity all
    constructor
    · rintro ⟨-, hlt⟩
      obtain ⟨e, he, heq⟩ := hdiscarded.exists_of_lt (k := r + 1) (by omega) (by omega)
      exact ⟨e, he, by omega⟩
    · rintro ⟨e, he, hlt⟩
      have hb := (hdiscarded.bounds he).2
      refine ⟨fun hnil => ?_, by omega⟩
      rw [Window.last_eq_nil hcapacity] at hnil
      simp [hnil, Window.discarded] at he

end Windows

/-! ## Planning and applying -/

namespace EventLog

/-- The log is the window of all events ever appended to it. -/
structure Retains (l : EventLog) (all : List Event) : Prop where
  numbered : Numbered Event.revision 1 all
  next : l.next = all.length + 1
  bound : l.next ≤ maxUint64
  events : l.events = Window.last l.capacity all

theorem number_numbered {next next' : Nat} {events numbered : List Event}
    (h : number next events = .ok (numbered, next')) (hnext : next ≤ maxUint64) :
    Numbered Event.revision next numbered ∧ next' = next + numbered.length ∧ next' ≤ maxUint64 := by
  induction events generalizing next numbered with
  | nil =>
    simp only [number, Except.ok.injEq, Prod.mk.injEq] at h
    obtain ⟨rfl, rfl⟩ := h
    exact ⟨Window.numbered_nil, rfl, hnext⟩
  | cons e rest ih =>
    simp only [number, Except.do_ok_iff, exists_const, failIf_eq_ok] at h
    obtain ⟨hlt, ⟨numbered', next''⟩, hrest, h⟩ := h
    simp only [Except.ok.injEq, Prod.mk.injEq] at h
    obtain ⟨rfl, rfl⟩ := h
    obtain ⟨hnumbered, hlength, hbound⟩ := ih hrest (by omega)
    refine ⟨numbered_cons.mpr ⟨rfl, hnumbered⟩, ?_, hbound⟩
    rw [hlength, List.length_cons]
    omega

/-- What a plan is. -/
theorem plan_spec {l : EventLog} {events : List Event} {p : EventPlan} (h : l.plan events = .ok p) :
    number l.next events = .ok (p.events, p.next) ∧
      p.puts = p.events.map (fun e => (.event e.revision, .event e)) ++ [(.eventNext, .revision p.next)] ∧
      p.deletes = (Window.discarded l.capacity (l.events ++ p.events)).map fun e => .event e.revision := by
  simp only [plan, Except.do_ok_iff, Except.ok.injEq] at h
  obtain ⟨⟨numbered, next⟩, hnumber, rfl⟩ := h
  exact ⟨hnumber, rfl, rfl⟩

theorem apply_capacity (l : EventLog) (p : EventPlan) : (l.apply p).capacity = l.capacity := by
  unfold apply
  split <;> rfl

theorem retains_fresh (capacity : Nat) : Retains { capacity := capacity } [] where
  numbered := Window.numbered_nil
  next := rfl
  bound := (by decide : 1 ≤ maxUint64)
  events := by simp [Window.last]

section Apply

variable {l : EventLog} {all events : List Event} {p : EventPlan}

theorem Retains.plan_numbered (R : l.Retains all) (h : l.plan events = .ok p) :
    Numbered Event.revision 1 (all ++ p.events) ∧ p.next = all.length + p.events.length + 1 ∧ p.next ≤ maxUint64 := by
  obtain ⟨hnumber, -, -⟩ := plan_spec h
  obtain ⟨hnumbered, hnext, hbound⟩ := number_numbered hnumber R.bound
  rw [R.next] at hnumbered hnext
  refine ⟨numbered_append.mpr ⟨R.numbered, ?_⟩, by omega, hbound⟩
  rwa [Nat.add_comm]

/-- Applying a plan appends its events. -/
theorem Retains.apply (R : l.Retains all) (h : l.plan events = .ok p) : (l.apply p).Retains (all ++ p.events) := by
  obtain ⟨hnumbered, hnext, hbound⟩ := R.plan_numbered h
  unfold EventLog.apply
  split
  · next hnil =>
    rw [hnil, List.append_nil]
    exact R
  · refine ⟨hnumbered, ?_, hbound, ?_⟩
    · simp only [List.length_append]
      exact hnext
    · change Window.last l.capacity (l.events ++ p.events) = Window.last l.capacity (all ++ p.events)
      rw [R.events, Window.last_append]

theorem Retains.events_apply (R : l.Retains all) (h : l.plan events = .ok p) :
    (l.apply p).events = Window.last l.capacity (l.events ++ p.events) := by
  rw [(R.apply h).events, apply_capacity, R.events, Window.last_append]

/-- The window and a batch are numbered on from the window's first event. -/
theorem Retains.numbered_window (R : l.Retains all) (h : l.plan events = .ok p) :
    Numbered Event.revision (1 + (all.length - l.capacity)) (l.events ++ p.events) := by
  have hdrop := (R.plan_numbered h).1.drop (all.length - l.capacity)
  rwa [List.drop_append_of_le_length (by omega), ← Window.last, ← R.events] at hdrop

end Apply

/-! ## The database -/

/-- The database holds the events of the log and no others. -/
def Persisted (l : EventLog) (db : Db) : Prop :=
  ∀ r v, db.get (.event r) = some v ↔ ∃ e ∈ l.events, e.revision = r ∧ v = .event e

/-- The key is not one of an event. -/
def Other (k : Key) : Prop := ∀ r, k ≠ .event r

section Persisted

variable {l : EventLog} {all events : List Event} {p : EventPlan} {db db' : Db} {puts : List KV} {deletes : List Key}

/-- The events that a batch leaves under an event's key: a deleted event is gone, even if
the batch has put it. -/
theorem get_event_write (hputs : ∀ kv ∈ puts, Other kv.1) (hdeletes : ∀ k ∈ deletes, Other k)
    (h : l.plan events = .ok p) (r : Nat) :
    (db.write (Store.puts (puts ++ p.puts) ++ Store.deletes (deletes ++ p.deletes))).get (.event r) =
      if r ∈ (Window.discarded l.capacity (l.events ++ p.events)).map Event.revision then none
      else (Store.lastWrite (Store.puts (p.events.map fun e => ((.event e.revision, .event e) : KV)))
        (.event r)).getD (db.get (.event r)) := by
  obtain ⟨-, hpputs, hpdeletes⟩ := plan_spec h
  have hother : Store.lastWrite (Store.puts puts) (.event r) = none :=
    Store.lastWrite_puts_eq_none fun kv hkv => hputs kv hkv r
  have hcounter : Store.lastWrite (Store.puts [((.eventNext, .revision p.next) : KV)]) (.event r) = none :=
    Store.lastWrite_puts_eq_none (by simp)
  rw [Db.get_write, Store.lastWrite_append, Store.lastWrite_puts_append, hother, Option.or_none, hpputs,
    Store.lastWrite_puts_append, hcounter, Option.none_or]
  split
  · next hmem =>
    rw [Store.lastWrite_deletes_of_mem]
    · rfl
    · obtain ⟨e, he, rfl⟩ := List.mem_map.mp hmem
      rw [hpdeletes]
      exact List.mem_append_right _ (List.mem_map.mpr ⟨e, he, rfl⟩)
  · next hmem =>
    rw [Store.lastWrite_deletes_eq_none]
    · rfl
    · intro hdeleted
      rcases List.mem_append.mp hdeleted with hd | hd
      · exact hdeletes _ hd r rfl
      · rw [hpdeletes] at hd
        obtain ⟨e, he, heq⟩ := List.mem_map.mp hd
        exact hmem (List.mem_map.mpr ⟨e, he, Key.event.inj heq⟩)

/-- Committing a plan keeps the database and the log together. -/
theorem Persisted.apply (P : l.Persisted db) (R : l.Retains all) (hputs : ∀ kv ∈ puts, Other kv.1)
    (hdeletes : ∀ k ∈ deletes, Other k) (h : l.plan events = .ok p)
    (hdb : ∀ r, db'.get (.event r) =
      (db.write (Store.puts (puts ++ p.puts) ++ Store.deletes (deletes ++ p.deletes))).get (.event r)) :
    (l.apply p).Persisted db' := by
  intro r v
  have hwindow := R.numbered_window h
  rw [hdb, get_event_write hputs hdeletes h, R.events_apply h]
  have hsplit : l.events ++ p.events = _ := (Window.discarded_append_last l.capacity (l.events ++ p.events)).symm
  -- revisions are distinct, so a revision is either discarded or in the window
  have hexclusive : ∀ {e e' : Event}, e ∈ Window.discarded l.capacity (l.events ++ p.events) →
      e' ∈ Window.last l.capacity (l.events ++ p.events) → e.revision < e'.revision := by
    intro e e' he he'
    have hpair := hwindow.pairwise
    rw [hsplit] at hpair
    exact (List.pairwise_append.mp hpair).2.2 e he e' he'
  have hread : ∀ {e : Event}, e ∈ l.events ++ p.events →
      (Store.lastWrite (Store.puts (p.events.map fun e => ((.event e.revision, .event e) : KV)))
        (.event e.revision)).getD (db.get (.event e.revision)) = some (.event e) := by
    intro e he
    have hsame : ∀ {e' : Event}, e' ∈ p.events → e'.revision = e.revision → e' = e := fun he' heq =>
      hwindow.eq_of_number (List.mem_append_right _ he') he heq
    by_cases hnew : e ∈ p.events
    · rw [Store.lastWrite_puts_of_mem (v := .event e) (List.mem_map.mpr ⟨e, hnew, rfl⟩)]
      · rfl
      · intro v' hv'
        obtain ⟨e', he', heq⟩ := List.mem_map.mp hv'
        simp only [Prod.mk.injEq, Key.event.injEq] at heq
        rw [← heq.2, hsame he' heq.1]
    · rw [Store.lastWrite_puts_eq_none]
      · exact (P _ _).mpr ⟨e, (List.mem_append.mp he).resolve_right hnew, rfl, rfl⟩
      · intro item hitem heq
        obtain ⟨e', he', rfl⟩ := List.mem_map.mp hitem
        exact hnew (hsame he' (Key.event.inj heq) ▸ he')
  constructor
  · intro hget
    split at hget
    · cases hget
    · next hdiscarded =>
      have hmem : ∃ e ∈ l.events ++ p.events, e.revision = r ∧ v = .event e := by
        cases hw : Store.lastWrite (Store.puts (p.events.map fun e => ((.event e.revision, .event e) : KV)))
            (.event r) with
        | some w =>
          rw [hw, Option.getD_some] at hget
          subst hget
          obtain ⟨e, he, heq⟩ := List.mem_map.mp (Store.mem_of_lastWrite_puts hw)
          simp only [Prod.mk.injEq, Key.event.injEq] at heq
          exact ⟨e, List.mem_append_right _ he, heq.1, heq.2.symm⟩
        | none =>
          rw [hw, Option.getD_none] at hget
          obtain ⟨e, he, hr, hv⟩ := (P r v).mp hget
          exact ⟨e, List.mem_append_left _ he, hr, hv⟩
      obtain ⟨e, he, rfl, rfl⟩ := hmem
      rw [hsplit] at he
      rcases List.mem_append.mp he with he | he
      · exact absurd (List.mem_map_of_mem he) hdiscarded
      · exact ⟨e, he, rfl, rfl⟩
  · rintro ⟨e, he, rfl, rfl⟩
    rw [if_neg]
    · exact hread (hsplit ▸ List.mem_append_right _ he)
    · intro hmem
      obtain ⟨e', he', heq⟩ := List.mem_map.mp hmem
      have := hexclusive he' he
      omega

end Persisted

/-! ## Restarts -/

/-- Entries that are not events are skipped. -/
theorem foldlM_readEvent_filter (entries : List (Key × Value)) (log : EventLog) :
    entries.foldlM readEvent log =
      (entries.filter fun entry => entry.1 matches .event _).foldlM readEvent log := by
  induction entries generalizing log with
  | nil => rfl
  | cons entry entries ih =>
    obtain ⟨k, v⟩ := entry
    cases k with
    | event r =>
      rw [List.filter_cons_of_pos rfl, List.foldlM_cons, List.foldlM_cons]
      exact congrArg _ (funext fun log' => ih log')
    | _ =>
      rw [List.filter_cons_of_neg (by simp), List.foldlM_cons]
      exact ih log

/-- Reading back numbered events appends them and advances the counter past them. -/
theorem foldlM_readEvent_numbered {events : List Event} {first : Nat} {log : EventLog}
    (h : Numbered Event.revision first events) (hnext : log.next ≤ first)
    (hbound : first + events.length ≤ maxUint64) :
    (events.map fun e => ((.event e.revision, .event e) : Key × Value)).foldlM readEvent log =
      .ok { log with
        events := log.events ++ events
        next := if events = [] then log.next else first + events.length } := by
  induction events generalizing first log with
  | nil => simp [pure, Except.pure]
  | cons e events ih =>
    obtain ⟨he, hrest⟩ := numbered_cons.mp h
    rw [List.length_cons] at hbound
    have hread : readEvent log (.event e.revision, .event e) =
        .ok { log with events := log.events ++ [e], next := first + 1 } := by
      have hmax : ¬ first = maxUint64 := by omega
      simp [readEvent, he, hnext, failIf, hmax, bind, Except.bind]
    rw [List.map_cons, List.foldlM_cons, hread]
    change List.foldlM readEvent { log with events := log.events ++ [e], next := first + 1 } _ = _
    rw [ih hrest (le_refl (first + 1)) (by omega)]
    simp only [List.append_assoc, List.singleton_append, List.length_cons, reduceCtorEq, if_false]
    congr 2
    split
    · next hnil => simp [hnil]
    · omega

/-- A restart rebuilds the log. -/
theorem newEventLog_eq {l : EventLog} {all : List Event} {db : Db} (hcapacity : 0 < l.capacity) (R : l.Retains all)
    (P : l.Persisted db) : newEventLog l.capacity db = .ok l := by
  have hnumbered : Numbered Event.revision (1 + (all.length - l.capacity)) l.events := by
    rw [R.events]
    exact R.numbered.drop _
  have hentries : db.entries.toList.filter (fun entry => entry.1 matches .event _) =
      l.events.map fun e => ((.event e.revision, .event e) : Key × Value) := by
    refine Store.filter_toList_eq_of_sorted ?_ fun k v => ?_
    · refine List.pairwise_map.mpr (hnumbered.pairwise.imp fun {e e'} hlt => ?_)
      change compare (Key.code (.event e.revision)) (Key.code (.event e'.revision)) = .lt
      simp [Key.code, Nat.compare_eq_lt.mpr hlt]
    · constructor
      · rintro ⟨hget, hkey⟩
        cases k with
        | event r =>
          obtain ⟨e, he, rfl, rfl⟩ := (P r v).mp hget
          exact List.mem_map.mpr ⟨e, he, rfl⟩
        | _ => simp at hkey
      · intro hmem
        obtain ⟨e, he, heq⟩ := List.mem_map.mp hmem
        simp only [Prod.mk.injEq] at heq
        obtain ⟨rfl, rfl⟩ := heq
        exact ⟨(P _ _).mpr ⟨e, he, rfl, rfl⟩, rfl⟩
  have hlength := Window.length_last l.capacity all
  rw [← R.events] at hlength
  have hnext := R.next
  have hbound := R.bound
  rw [newEventLog, foldlM_readEvent_filter, hentries, foldlM_readEvent_numbered hnumbered (by simp) (by omega)]
  obtain ⟨capacity, next, events⟩ := l
  simp only [List.nil_append, Except.ok.injEq, EventLog.mk.injEq, true_and, and_true]
  simp only at hlength hnext hbound hcapacity
  split
  · next hnil =>
    rw [hnil, List.length_nil] at hlength
    omega
  · next hne =>
    have := List.length_pos_of_ne_nil hne
    omega

end EventLog

/-- A log over its life: batches are planned, committed to the database together with other
metadata, and applied; and the log is rebuilt at a restart. -/
inductive LogRun (capacity : Nat) : EventLog → Db → List Event → Prop
  | fresh {db : Db} (empty : ∀ r, db.get (.event r) = none) : LogRun capacity { capacity := capacity } db []
  | commit {l : EventLog} {db db' : Db} {all events : List Event} {p : EventPlan} {puts : List KV} {deletes : List Key}
      (run : LogRun capacity l db all) (plan : l.plan events = .ok p) (puts_other : ∀ kv ∈ puts, EventLog.Other kv.1)
      (deletes_other : ∀ k ∈ deletes, EventLog.Other k)
      (written : ∀ r, db'.get (.event r) =
        (db.write (Store.puts (puts ++ p.puts) ++ Store.deletes (deletes ++ p.deletes))).get (.event r)) :
      LogRun capacity (l.apply p) db' (all ++ p.events)
  | restart {l l' : EventLog} {db : Db} {all : List Event} (run : LogRun capacity l db all)
      (rebuilt : EventLog.newEventLog capacity db = .ok l') : LogRun capacity l' db all

/-- What a run keeps: the log is the window of its events, and the database holds it. -/
theorem LogRun.invariant {capacity : Nat} (hcapacity : 0 < capacity) {l : EventLog} {db : Db} {all : List Event}
    (h : LogRun capacity l db all) : l.capacity = capacity ∧ l.Retains all ∧ l.Persisted db := by
  induction h with
  | fresh empty =>
    refine ⟨rfl, EventLog.retains_fresh capacity, fun r v => ?_⟩
    rw [empty]
    simp
  | commit run plan puts_other deletes_other written ih =>
    obtain ⟨hc, R, P⟩ := ih
    exact ⟨(EventLog.apply_capacity _ _).trans hc, R.apply plan, P.apply R puts_other deletes_other plan written⟩
  | restart run rebuilt ih =>
    obtain ⟨rfl, R, P⟩ := ih
    rw [EventLog.newEventLog_eq hcapacity R P] at rebuilt
    rw [← Except.ok.inj rebuilt]
    exact ⟨rfl, R, P⟩

/-! ## The pending-hash log -/

namespace PendingHashLog

/-- A new log after some hashes were recorded, with all events that were ever recorded. -/
def recorded (capacity : Nat) (hashes : List Hash) : PendingHashLog × List PendingHashEvent :=
  hashes.foldl (fun s hash => (s.1.record hash, s.2 ++ [⟨s.1.next, hash⟩])) ({ capacity := capacity }, [])

private theorem recorded_concat (capacity : Nat) (hashes : List Hash) (hash : Hash) :
    recorded capacity (hashes ++ [hash]) =
      ((recorded capacity hashes).1.record hash,
        (recorded capacity hashes).2 ++ [⟨(recorded capacity hashes).1.next, hash⟩]) := by
  rw [recorded, List.foldl_append]
  rfl

/-- The log keeps the last events, and its counter counts modulo 2^64. -/
theorem recorded_spec (capacity : Nat) (hashes : List Hash) :
    (recorded capacity hashes).1.capacity = capacity ∧
      (recorded capacity hashes).2.length = hashes.length ∧
      (recorded capacity hashes).1.next = (hashes.length + 1) % 2 ^ 64 ∧
      (recorded capacity hashes).1.events = Window.last capacity (recorded capacity hashes).2 ∧
      (recorded capacity hashes).2.map (·.sequence) = (List.range' 1 hashes.length).map (· % 2 ^ 64) := by
  induction hashes using List.reverseRecOn with
  | nil => exact ⟨rfl, rfl, rfl, by simp [recorded, Window.last], rfl⟩
  | append_singleton hashes hash ih =>
    obtain ⟨hcapacity, hlength, hnext, hevents, hsequence⟩ := ih
    rw [recorded_concat]
    refine ⟨hcapacity, by simp [hlength], ?_, ?_, ?_⟩
    · simp only [record, hnext, List.length_append, List.length_singleton]
      omega
    · change Window.last (recorded capacity hashes).1.capacity ((recorded capacity hashes).1.events ++ _) = _
      rw [hcapacity, hevents, Window.last_append]
    · rw [List.map_append, hsequence, List.length_append, List.length_singleton, List.range'_concat, List.map_append]
      simp [hnext, Nat.add_comm]

/-- What readers of the log rely on, after some hashes were recorded. -/
abbrev Retained (capacity : Nat) (hashes : List Hash) : Prop :=
  RetainedWindow PendingHashEvent.sequence capacity (recorded capacity hashes).1.next (recorded capacity hashes).2
    (recorded capacity hashes).1.events

/-- Up to 2^64-1 recorded hashes the counter does not wrap. -/
theorem retained_of_le {capacity : Nat} (hcapacity : 0 < capacity) {hashes : List Hash}
    (h : hashes.length ≤ maxUint64) : Retained capacity hashes := by
  obtain ⟨-, hlength, hnext, hevents, hsequence⟩ := recorded_spec capacity hashes
  have hnumbered : Numbered PendingHashEvent.sequence 1 (recorded capacity hashes).2 := by
    rw [Numbered, hsequence, hlength]
    refine (List.map_congr_left fun k hk => ?_).trans (List.map_id _)
    rw [List.mem_range'_1] at hk
    exact Nat.mod_eq_of_lt (by unfold maxUint64 at h; omega)
  rw [Retained, hevents]
  exact .of_numbered hcapacity hnumbered (by rw [hlength]; exact hnext) (by rw [hlength]; exact h)

/-- Beyond that, the event with the largest number is either followed by the number zero or
it is gone without a gap being reported. -/
theorem not_retained_of_lt {capacity : Nat} {hashes : List Hash} (h : maxUint64 < hashes.length) :
    ¬ Retained capacity hashes := by
  intro W
  obtain ⟨-, hlength, hnext, hevents, hsequence⟩ := recorded_spec capacity hashes
  have hmax : maxUint64 = 2 ^ 64 - 1 := rfl
  -- the event with the largest number, and the one after it
  have hget : ∀ i < hashes.length, ∃ e, (recorded capacity hashes).2[i]? = some e ∧ e.sequence = (i + 1) % 2 ^ 64 := by
    intro i hi
    have := congrArg (fun l => l[i]?) hsequence
    simp only [List.getElem?_map, List.getElem?_range' hi, Option.map_some,
      Option.map_eq_some_iff] at this
    obtain ⟨e, he, hseq⟩ := this
    exact ⟨e, he, by rw [hseq]; congr 1; omega⟩
  obtain ⟨e, he, hseq⟩ := hget (maxUint64 - 1) (by omega)
  obtain ⟨e', he', hseq'⟩ := hget maxUint64 h
  have hseq : e.sequence = maxUint64 := by rw [hseq]; decide
  have hseq' : e'.sequence = 0 := by rw [hseq']; decide
  have hretained := W.retained
  rw [last_min] at hretained
  have hevent : ∀ e ∈ (recorded capacity hashes).1.events, e.sequence ≤ maxUint64 := by
    intro x hx
    rw [hretained] at hx
    have hmem : x.sequence ∈ (recorded capacity hashes).2.map (·.sequence) :=
      List.mem_map_of_mem (List.mem_of_mem_drop hx)
    rw [hsequence] at hmem
    obtain ⟨k, -, hk⟩ := List.mem_map.mp hmem
    have := Nat.mod_lt k (show 0 < 2 ^ 64 by decide)
    omega
  by_cases hold : maxUint64 - 1 < hashes.length - capacity
  · -- the largest number is gone: a reader just below it must learn so, but no first event is above it
    have hdiscarded : e ∈ Window.discarded (min capacity (recorded capacity hashes).2.length)
        (recorded capacity hashes).2 := by
      rw [discarded_min, Window.discarded, hlength]
      exact List.mem_of_getElem? (i := maxUint64 - 1) (by rw [List.getElem?_take_of_lt hold]; exact he)
    have hsince := W.since (maxUint64 - 1) (by omega)
    rw [if_pos ⟨e, hdiscarded, by omega⟩] at hsince
    cases hne : (recorded capacity hashes).1.events with
    | nil => rw [hne] at hsince; cases hsince
    | cons x rest =>
      have hx := hevent x (hne ▸ List.mem_cons_self)
      rw [hne, sinceLocked, if_neg (by rw [hmax] at hx ⊢; omega)] at hsince
      cases hsince
  · -- it is in the window, and the number after it is zero
    obtain ⟨first, hfirst⟩ := W.consecutive
    rw [hretained] at hfirst
    have hmem : ∀ {i x}, maxUint64 - 1 ≤ i → (recorded capacity hashes).2[i]? = some x →
        x ∈ Window.last capacity (recorded capacity hashes).2 := by
      intro i x hi hx
      rw [Window.last, hlength]
      exact List.mem_of_getElem? (i := i - (hashes.length - capacity)) (by
        rw [List.getElem?_drop, Nat.add_sub_cancel' (by omega)]
        exact hx)
    have hlt : e.sequence < e'.sequence := by
      have hpair := hfirst.pairwise
      rw [List.pairwise_iff_getElem] at hpair
      have hi : maxUint64 - 1 - (hashes.length - capacity) <
          (Window.last capacity (recorded capacity hashes).2).length := by
        rw [Window.length_last, hlength]; omega
      have hj :
          maxUint64 - (hashes.length - capacity) < (Window.last capacity (recorded capacity hashes).2).length := by
        rw [Window.length_last, hlength]; omega
      have := hpair _ _ hi hj (by omega)
      simp only [Window.last, List.getElem_drop, hlength] at this
      have h₁ : hashes.length - capacity + (maxUint64 - 1 - (hashes.length - capacity)) = maxUint64 - 1 := by omega
      have h₂ : hashes.length - capacity + (maxUint64 - (hashes.length - capacity)) = maxUint64 := by omega
      simp only [h₁, h₂] at this
      rw [List.getElem?_eq_some_iff] at he he'
      obtain ⟨_, rfl⟩ := he
      obtain ⟨_, rfl⟩ := he'
      exact this
    omega

end PendingHashLog

/-- The event log and its database agree on the last events at any time, and readers of it can rely
on its window; readers of the pending-hash log can as long as its counter has not wrapped. -/
theorem retained_window {capacity : Nat} (hcapacity : 0 < capacity) :
    (∀ l db all, LogRun capacity l db all →
      RetainedWindow Event.revision capacity l.next all l.events ∧ l.Persisted db ∧
        EventLog.newEventLog capacity db = .ok l) ∧
      ∀ hashes, PendingHashLog.Retained capacity hashes ↔ hashes.length ≤ maxUint64 := by
  constructor
  · intro l db all h
    obtain ⟨rfl, R, P⟩ := h.invariant hcapacity
    refine ⟨?_, P, EventLog.newEventLog_eq hcapacity R P⟩
    have hnext := R.next
    have hbound := R.bound
    rw [R.events]
    refine .of_numbered hcapacity R.numbered ?_ (by omega)
    rw [hnext, Nat.mod_eq_of_lt (by unfold maxUint64 at hbound; omega)]
  · intro hashes
    refine ⟨fun h => ?_, PendingHashLog.retained_of_le hcapacity⟩
    by_contra hlt
    exact PendingHashLog.not_retained_of_lt (by omega) h

/-- A batch that is committed alone. -/
theorem LogRun.batch {capacity : Nat} {l : EventLog} {db : Db} {all events : List Event} {p : EventPlan}
    (run : LogRun capacity l db all) (plan : l.plan events = .ok p) :
    LogRun capacity (l.apply p) (db.write (Store.puts ([] ++ p.puts) ++ Store.deletes ([] ++ p.deletes)))
      (all ++ p.events) :=
  @LogRun.commit _ _ _ _ _ _ _ [] [] run plan (fun _ h => nomatch h) (fun _ h => nomatch h) fun _ => rfl

/-- A missed slot, as an event. -/
def missed (revision slot : Nat) : Event := { revision := revision, type := .missedSlot, slot := slot }

/-- The plans of two batches over a window of two: the second one discards the first event. -/
def batches : EventPlan × EventPlan :=
  ({ events := [missed 1 1, missed 2 2], deletes := [], next := 3,
     puts := [(.event 1, .event (missed 1 1)), (.event 2, .event (missed 2 2)), (.eventNext, .revision 3)] },
   { events := [missed 3 3], deletes := [.event 1], next := 4,
     puts := [(.event 3, .event (missed 3 3)), (.eventNext, .revision 4)] })

/-- After both batches and a restart, a reader that has seen nothing learns of the gap. -/
theorem retained_window_two : ∃ l db, LogRun 2 l db [missed 1 1, missed 2 2, missed 3 3] ∧
    l.events = [missed 2 2, missed 3 3] ∧ EventLog.newEventLog 2 db = .ok l ∧
    sinceLocked Event.revision l.events 0 = .error errEventGap ∧
    sinceLocked Event.revision l.events 1 = .ok l.events ∧ PendingHashLog.Retained 1 [1, 2] := by
  have hfresh : LogRun 2 { capacity := 2 } {} [] := .fresh fun _ => rfl
  have hfirst : EventLog.plan { capacity := 2 } [missed 0 1, missed 0 2] = .ok batches.1 := rfl
  have hsecond : EventLog.plan (EventLog.apply { capacity := 2 } batches.1) [missed 0 3] = .ok batches.2 := rfl
  have hrun := (hfresh.batch hfirst).batch hsecond
  obtain ⟨W, -, hrebuilt⟩ := (retained_window Nat.two_pos).1 _ _ _ hrun
  refine ⟨_, _, .restart hrun hrebuilt, rfl, hrebuilt, ?_, ?_, ?_⟩
  · rw [W.since 0 (by decide), if_pos (by decide)]
  · rw [W.since 1 (by decide), if_neg (by decide)]
    rfl
  · exact ((retained_window Nat.one_pos).2 [1, 2]).mpr (by decide)

/-- With 2^64 hashes recorded, the window is not what readers rely on. -/
theorem not_retained_wrapped : ¬ PendingHashLog.Retained 1 (List.replicate (2 ^ 64) 1) :=
  PendingHashLog.not_retained_of_lt (by rw [List.length_replicate]; decide)

end Ethertest
