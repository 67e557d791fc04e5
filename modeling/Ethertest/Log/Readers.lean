-- SUMMARY: Readers that follow the event log while it is written, and that they get every event once.
import Ethertest.Log.Window

/-!
# Readers of the event log

A reader asks for the events after its cursor, delivers them, and waits for the channel that
it got with them. The writer closes that channel with the next events. Reading the
events and the channel is one step, so no wake-up can be lost in between.
-/

namespace Ethertest

open Window (Numbered numbered_cons numbered_append)

/-! ## The shared log -/

/-- The log with its wake-up channel. Channels are numbered in the order in which they are made. -/
structure SharedLog where
  log : EventLog
  changed : Nat := 0

namespace SharedLog

/-- Every channel before the current one has been closed. -/
def Closed (s : SharedLog) (channel : Nat) : Prop := channel < s.changed

instance (s : SharedLog) (channel : Nat) : Decidable (s.Closed channel) := Nat.decLt _ _

/-- `apply`, with the channel: an empty batch wakes nobody. -/
def apply (s : SharedLog) (p : EventPlan) : SharedLog where
  log := s.log.apply p
  changed := if p.events = [] then s.changed else s.changed + 1

/-- `sinceAndWait` -/
def sinceAndWait (s : SharedLog) (revision : Nat) : Except Error (List Event × Nat) := do
  let events ← s.log.since revision
  .ok (events, s.changed)

end SharedLog

/-! ## Readers -/

/-- Where a reader is in its loop. -/
inductive Phase where
  | reading
  | delivering (events : List Event) (channel : Nat)
  | waiting (channel : Nat)
  /-- `ErrEventGap` was returned -/
  | gap
  | stopped
  deriving DecidableEq

structure Reader where
  cursor : Nat
  delivered : List Event := []
  phase : Phase := .reading

namespace Reader

/-- The reader's next step, if it can make one. -/
def advance (s : SharedLog) (r : Reader) : Reader :=
  match r.phase with
  | .reading =>
    match s.sinceAndWait r.cursor with
    | .error _ => { r with phase := .gap }
    | .ok (events, channel) => { r with phase := .delivering events channel }
  | .delivering [] channel => { r with phase := .waiting channel }
  | .delivering (event :: rest) channel =>
    { cursor := event.revision, delivered := r.delivered ++ [event], phase := .delivering rest channel }
  | .waiting channel => if s.Closed channel then { r with phase := .reading } else r
  | .gap => r
  | .stopped => r

def stop (r : Reader) : Reader := { r with phase := .stopped }

end Reader

section Interleavings

variable {ι : Type} [DecidableEq ι]

/-- The interleavings of one writer with any readers, and all events that were written. -/
inductive Interleaving (start : ι → Nat) : SharedLog → (ι → Reader) → List Event → Prop
  | start {log : EventLog} {all : List Event} (retains : log.Retains all) :
      Interleaving start { log := log } (fun i => { cursor := start i }) all
  | write {s : SharedLog} {readers : ι → Reader} {all events : List Event} {p : EventPlan}
      (run : Interleaving start s readers all) (plan : s.log.plan events = .ok p) :
      Interleaving start (s.apply p) readers (all ++ p.events)
  | advance {s : SharedLog} {readers : ι → Reader} {all : List Event} (run : Interleaving start s readers all)
      (i : ι) : Interleaving start s (Function.update readers i ((readers i).advance s)) all
  | stop {s : SharedLog} {readers : ι → Reader} {all : List Event} (run : Interleaving start s readers all)
      (i : ι) : Interleaving start s (Function.update readers i (readers i).stop) all

/-! ## The invariant -/

/-- What holds of the phase: the events in hand continue the delivered ones, and as long as the
channel is open the log holds nothing after them. -/
def PhaseOk (s : SharedLog) (all : List Event) (cursor : Nat) : Phase → Prop
  | .delivering events channel =>
    Numbered Event.revision (cursor + 1) events ∧ (∀ e ∈ events, e ∈ all) ∧ channel ≤ s.changed ∧
      (channel = s.changed → ∀ e ∈ s.log.events, e.revision ≤ cursor + events.length)
  | .waiting channel => channel ≤ s.changed ∧ (channel = s.changed → ∀ e ∈ s.log.events, e.revision ≤ cursor)
  | _ => True

structure ReaderOk (s : SharedLog) (all : List Event) (start : Nat) (r : Reader) : Prop where
  cursor : r.cursor = start + r.delivered.length
  delivered : Numbered Event.revision (start + 1) r.delivered
  written : ∀ e ∈ r.delivered, e ∈ all
  phase : PhaseOk s all r.cursor r.phase

/-- What `since` returns continues the reader's events and leaves out nothing. -/
theorem EventLog.Retains.since_ok {l : EventLog} {all events : List Event} {r : Nat} (R : l.Retains all)
    (h : l.since r = .ok events) :
    Numbered Event.revision (r + 1) events ∧ events = l.events.filter fun e => r < e.revision := by
  have hwindow : Numbered Event.revision (1 + (all.length - l.capacity)) l.events := by
    rw [R.events]
    exact R.numbered.drop _
  unfold EventLog.since sinceLocked at h
  split at h
  · next hnil =>
    rw [← Except.ok.inj h, hnil]
    exact ⟨Window.numbered_nil, rfl⟩
  · next first rest hcons =>
    split at h
    · cases h
    · next hgap =>
      have hfirst : first.revision = 1 + (all.length - l.capacity) := by
        rw [hcons] at hwindow
        exact (numbered_cons.mp hwindow).1
      have hmod := Nat.mod_le (r + 1) (2 ^ 64)
      rw [← Except.ok.inj h, hwindow.dropWhile_le_eq_filter]
      exact ⟨hwindow.filter_lt (by omega), rfl⟩

/-- With a window that holds something, it leaves out nothing of what was ever written. -/
theorem EventLog.Retains.since_ok_all {l : EventLog} {all events : List Event} {r : Nat} (R : l.Retains all)
    (hcapacity : 0 < l.capacity) (h : l.since r = .ok events) : events = all.filter fun e => r < e.revision := by
  obtain ⟨hnumbered, hevents⟩ := R.since_ok h
  have hsplit : all = Window.discarded l.capacity all ++ l.events := by
    rw [R.events, Window.discarded_append_last]
  have hpairwise := R.numbered.pairwise
  rw [hsplit, List.pairwise_append] at hpairwise
  have hdiscarded : (Window.discarded l.capacity all).filter (fun e => decide (r < e.revision)) = [] := by
    rw [List.filter_eq_nil_iff]
    intro e he hlt
    have hlt : r < e.revision := by simpa using hlt
    -- the window's first event would be returned without the event that follows the reader's
    have hne : l.events ≠ [] := by
      rw [R.events, ne_eq, Window.last_eq_nil hcapacity]
      rintro rfl
      simp [Window.discarded] at he
    obtain ⟨first, hfirst⟩ := List.exists_mem_of_ne_nil _ hne
    have hmem : first ∈ events := by
      rw [hevents]
      exact List.mem_filter.mpr
        ⟨hfirst, by have := hpairwise.2.2 e he first hfirst; simp only [decide_eq_true_eq]; omega⟩
    obtain ⟨x, hx, hxr⟩ := hnumbered.exists_of_lt (le_refl (r + 1)) (by have := List.length_pos_of_mem hmem; omega)
    rw [hevents] at hx
    have := hpairwise.2.2 e he x (List.mem_filter.mp hx).1
    omega
  conv_rhs => rw [hsplit, List.filter_append, hdiscarded, List.nil_append]
  exact hevents

variable {s : SharedLog} {all : List Event} {start : Nat} {r : Reader}

theorem PhaseOk.apply {cursor : Nat} {phase : Phase} (h : PhaseOk s all cursor phase) (p : EventPlan) :
    PhaseOk (s.apply p) (all ++ p.events) cursor phase := by
  -- a channel that is still open after the batch means that the batch was empty
  have hopen : ∀ {channel}, channel ≤ s.changed →
      channel ≤ (s.apply p).changed ∧
        (channel = (s.apply p).changed → channel = s.changed ∧ (s.apply p).log = s.log) := by
    intro channel hle
    simp only [SharedLog.apply, EventLog.apply]
    split
    · exact ⟨hle, fun heq => ⟨heq, rfl⟩⟩
    · exact ⟨by omega, fun heq => by omega⟩
  cases phase with
  | delivering events channel =>
    obtain ⟨hnumbered, hwritten, hle, hlast⟩ := h
    refine ⟨hnumbered, fun e he => List.mem_append_left _ (hwritten e he), (hopen hle).1, fun heq => ?_⟩
    obtain ⟨heq, hlog⟩ := (hopen hle).2 heq
    rw [hlog]
    exact hlast heq
  | waiting channel =>
    obtain ⟨hle, hlast⟩ := h
    refine ⟨(hopen hle).1, fun heq => ?_⟩
    obtain ⟨heq, hlog⟩ := (hopen hle).2 heq
    rw [hlog]
    exact hlast heq
  | reading => trivial
  | gap => trivial
  | stopped => trivial

/-- Writing keeps what a reader relies on. -/
theorem ReaderOk.apply (h : ReaderOk s all start r) (p : EventPlan) :
    ReaderOk (s.apply p) (all ++ p.events) start r where
  cursor := h.cursor
  delivered := h.delivered
  written e he := List.mem_append_left _ (h.written e he)
  phase := h.phase.apply p

/-- A reader's own step keeps it. -/
theorem ReaderOk.advance (h : ReaderOk s all start r) (R : s.log.Retains all) :
    ReaderOk s all start (r.advance s) := by
  obtain ⟨cursor, delivered, phase⟩ := r
  obtain ⟨hcursor, hdelivered, hwritten, hphase⟩ := h
  cases phase with
  | reading =>
    cases hsince : s.log.since cursor with
    | error e =>
      simp only [Reader.advance, SharedLog.sinceAndWait, hsince]
      exact ⟨hcursor, hdelivered, hwritten, trivial⟩
    | ok events =>
      have hstep : Reader.advance s ⟨cursor, delivered, .reading⟩ =
          ⟨cursor, delivered, .delivering events s.changed⟩ := by
        simp only [Reader.advance, SharedLog.sinceAndWait, hsince]
        rfl
      rw [hstep]
      obtain ⟨hnumbered, hfilter⟩ := R.since_ok hsince
      refine ⟨hcursor, hdelivered, hwritten, hnumbered, fun e he => ?_, le_refl _, fun _ e he => ?_⟩
      · rw [hfilter, R.events] at he
        exact List.mem_of_mem_drop (List.mem_filter.mp he).1
      · by_cases hlt : cursor < e.revision
        · have hmem : e ∈ events := by
            rw [hfilter]
            exact List.mem_filter.mpr ⟨he, by simpa using hlt⟩
          have := (hnumbered.bounds hmem).2
          simp only
          omega
        · simp only
          omega
  | delivering events channel =>
    obtain ⟨hnumbered, hmem, hle, hlast⟩ := hphase
    cases events with
    | nil => exact ⟨hcursor, hdelivered, hwritten, hle, hlast⟩
    | cons event rest =>
      obtain ⟨hevent, hrest⟩ := numbered_cons.mp hnumbered
      have hstep : Reader.advance s ⟨cursor, delivered, .delivering (event :: rest) channel⟩ =
          ⟨event.revision, delivered ++ [event], .delivering rest channel⟩ := rfl
      simp only at hcursor hevent
      rw [hstep]
      refine ⟨?_, ?_, ?_, ?_, fun e he => hmem e (List.mem_cons_of_mem _ he), hle, fun heq e he => ?_⟩
      · simp only [List.length_append, List.length_singleton]
        omega
      · refine numbered_append.mpr ⟨hdelivered, numbered_cons.mpr ⟨?_, Window.numbered_nil⟩⟩
        omega
      · intro e he
        rcases List.mem_append.mp he with he | he
        · exact hwritten e he
        · rw [List.mem_singleton.mp he]
          exact hmem event List.mem_cons_self
      · simp only
        rwa [hevent]
      · have := hlast heq e he
        simp only [List.length_cons] at this ⊢
        omega
  | waiting channel =>
    simp only [Reader.advance]
    split
    · exact ⟨hcursor, hdelivered, hwritten, trivial⟩
    · exact ⟨hcursor, hdelivered, hwritten, hphase⟩
  | gap => exact ⟨hcursor, hdelivered, hwritten, trivial⟩
  | stopped => exact ⟨hcursor, hdelivered, hwritten, trivial⟩

theorem ReaderOk.stop (h : ReaderOk s all start r) : ReaderOk s all start r.stop :=
  ⟨h.cursor, h.delivered, h.written, trivial⟩

/-- What every interleaving keeps. -/
theorem Interleaving.invariant {start : ι → Nat} {readers : ι → Reader} (h : Interleaving start s readers all) :
    s.log.Retains all ∧ ∀ i, ReaderOk s all (start i) (readers i) := by
  induction h with
  | start retains => exact ⟨retains, fun i => ⟨rfl, Window.numbered_nil, by simp, trivial⟩⟩
  | write run plan ih => exact ⟨ih.1.apply plan, fun i => (ih.2 i).apply _⟩
  | advance run i ih =>
    refine ⟨ih.1, fun j => ?_⟩
    by_cases hj : j = i
    · subst hj
      rw [Function.update_self]
      exact (ih.2 j).advance ih.1
    · rw [Function.update_of_ne hj]
      exact ih.2 j
  | stop run i ih =>
    refine ⟨ih.1, fun j => ?_⟩
    by_cases hj : j = i
    · subst hj
      rw [Function.update_self]
      exact (ih.2 j).stop
    · rw [Function.update_of_ne hj]
      exact ih.2 j

/-- However the writer and the readers interleave, a reader has delivered the events from its
first cursor up to its cursor, each once and in order, and it does not wait on an open
channel while the log holds more. -/
theorem interleaving_delivers {start : ι → Nat} {readers : ι → Reader} (h : Interleaving start s readers all)
    (i : ι) :
    Numbered Event.revision (start i + 1) (readers i).delivered ∧
      (∀ e, e ∈ (readers i).delivered ↔ e ∈ all ∧ start i < e.revision ∧ e.revision ≤ (readers i).cursor) ∧
      ∀ channel, (readers i).phase = .waiting channel → ¬ s.Closed channel →
        ∀ e ∈ s.log.events, e.revision ≤ (readers i).cursor := by
  obtain ⟨R, hreaders⟩ := h.invariant
  obtain ⟨hcursor, hdelivered, hwritten, hphase⟩ := hreaders i
  refine ⟨hdelivered, fun e => ⟨fun he => ?_, fun ⟨he, hlow, hhigh⟩ => ?_⟩, fun channel hwaiting hopen => ?_⟩
  · have := hdelivered.bounds he
    exact ⟨hwritten e he, by omega, by omega⟩
  · obtain ⟨e', he', heq⟩ := hdelivered.exists_of_lt (k := e.revision) (by omega) (by omega)
    rwa [← R.numbered.eq_of_number (hwritten e' he') he heq]
  · rw [hwaiting] at hphase
    obtain ⟨hle, hlast⟩ := hphase
    exact hlast (Nat.le_antisymm hle (Nat.le_of_not_lt hopen))

/-- A reader that has read an empty log is woken by the first event and gets it. -/
theorem interleaving_delivers_first :
    ∃ (s : SharedLog) (readers : Unit → Reader) (e : Event),
      Interleaving (fun _ => 0) s readers [e] ∧ e.revision = 1 ∧ e ∈ (readers ()).delivered := by
  have hplan : ∃ p, ({ capacity := 4 } : EventLog).plan [{ type := .missedSlot, slot := 1 }] = .ok p ∧
      p.events = [{ revision := 1, type := .missedSlot, slot := 1 }] := ⟨_, rfl, rfl⟩
  obtain ⟨p, hplan, hevents⟩ := hplan
  have hidle : Interleaving (ι := Unit) (fun _ => 0) { log := { capacity := 4 } } (fun _ => { cursor := 0 }) [] :=
    .start (EventLog.retains_fresh 4)
  have hwritten := (((hidle.advance ()).advance ()).write hplan)
  have hrun := ((hwritten.advance ()).advance ()).advance ()
  rw [hevents] at hrun
  refine ⟨_, _, _, hrun, rfl, ((interleaving_delivers hrun ()).2.1 _).mpr ⟨List.mem_cons_self, by decide, ?_⟩⟩
  simp [Reader.advance, SharedLog.sinceAndWait, SharedLog.apply, SharedLog.Closed, EventLog.since, EventLog.apply,
    sinceLocked, hevents, bind, Except.bind]

end Interleavings

end Ethertest
