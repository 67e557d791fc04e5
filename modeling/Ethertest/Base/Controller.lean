-- SUMMARY: A single writer that serves calls from a channel, and linearizability of every interleaving.
import Mathlib.Data.List.Sublists
import Mathlib.Logic.Function.Basic
import Mathlib.Logic.Relation

/-!
# Single-writer controllers

Callers hand commands to one writer over an unbuffered channel and wait for the response
in a buffer of their own. Every caller has a context that may be cancelled at any time,
and the writer may be told to stop at any time, which then cancels the context of the
writer's own commands, also of one that is running. `Step` has one rule for each atomic
action of a caller, of the writer and of their surroundings, so its runs are all the
interleavings.

A run is linearizable: the commands that took effect form one sequential history, which
explains every response and keeps the order of calls that do not overlap.
-/

namespace Controller

/-! ## Order in a list -/

/-- `a` stands in the list, and `b` stands somewhere after it. -/
def Before {α : Type} (xs : List α) (a b : α) : Prop := [a, b].Sublist xs

namespace Before

variable {α : Type} {xs : List α} {a b x : α}

theorem left_mem (h : Before xs a b) : a ∈ xs := h.subset (by simp)

theorem mono (h : Before xs a b) (ys : List α) : Before (xs ++ ys) a b := h.trans (List.sublist_append_left xs ys)

theorem concat (h : a ∈ xs) (b : α) : Before (xs ++ [b]) a b :=
  (List.singleton_sublist.mpr h).append (List.Sublist.refl [b])

/-- A pair in a list that grew by one element was there before, or ends with that element. -/
theorem of_concat (h : Before (xs ++ [x]) a b) : Before xs a b ∨ a ∈ xs ∧ b = x := by
  obtain ⟨l, r, hsplit, hl, hr⟩ := List.sublist_append_iff.mp h
  rcases List.sublist_singleton.mp hr with rfl | rfl
  · rw [List.append_nil] at hsplit
    subst hsplit
    exact .inl hl
  · have hpair : [a] ++ [b] = l ++ [x] := hsplit
    obtain ⟨rfl, hx⟩ := List.append_inj' hpair rfl
    exact .inr ⟨List.singleton_sublist.mp hl, List.singleton_inj.mp hx⟩

end Before

/-! ## The system -/

/-- What a call returns: the writer's response, the error of its own context, or the
error of a writer that takes no more calls. -/
inductive Reply (R : Type) where
  | value (result : R)
  | canceled
  | stopped

/-- Where a call is: before its look at the running flag, in the choice between sending
and giving up, in the choice between the response and giving up, or back at its caller. -/
inductive Stage (R : Type) where
  | entered
  | sending
  | waiting
  | returned (reply : Reply R)

structure Call (A R : Type) where
  arg : A
  /-- the context is done -/
  canceled : Bool := false
  stage : Stage R := .entered
  /-- the channel of capacity one on which the writer responds -/
  response : Option (Reply R) := none

/-- Where the writer is: `working` is at a command of its own, and `last` is set after a
command that panicked. -/
inductive Writer (I R : Type) where
  | unstarted
  | selecting
  | working
  | received (id : I)
  | executing (id : I)
  | replying (id : I) (reply : Reply R) (last : Bool)
  | stopped

/-- What an observer of the callers sees. -/
inductive Event (I A R : Type) where
  | invoked (id : I) (arg : A)
  | canceled (id : I)
  | returned (id : I) (reply : Reply R)

def Event.id {I A R : Type} : Event I A R → I
  | .invoked id _ | .canceled id | .returned id _ => id

/-- A command that took effect; the writer's own commands have no caller. -/
structure Entry (I C R : Type) where
  caller : Option I
  command : C
  result : R

/-- The callers whose commands took effect, in order. -/
def callers {I C R : Type} (log : List (Entry I C R)) : List I := log.filterMap Entry.caller

/-- `log` and `trace` record the run; no rule reads them. -/
structure System (S I A C R : Type) where
  state : S
  running : Bool := false
  stopping : Bool := false
  /-- the context of the writer's own commands is done -/
  ended : Bool := false
  writer : Writer I R := .unstarted
  calls : I → Option (Call A R) := fun _ => none
  log : List (Entry I C R) := []
  trace : List (Event I A R) := []

/-- What the writer does with a command, the commands that a call with a given argument
may run as, and the writer's own commands, both before and after the context is cancelled. -/
structure Machine (S A C R : Type) where
  exec : S → C → S × R
  panics : S → C → Bool
  admits : A → Bool → C → Prop
  own : Bool → C → Prop

namespace System

variable {S I A C R : Type} [DecidableEq I]

/-- Put a call into the table. -/
def setCall (x : System S I A C R) (id : I) (call : Call A R) : System S I A C R :=
  { x with calls := Function.update x.calls id (some call) }

/-- A call returns to its caller. -/
def back (x : System S I A C R) (id : I) (call : Call A R) (reply : Reply R) : System S I A C R :=
  { x.setCall id { call with stage := .returned reply } with trace := x.trace ++ [.returned id reply] }

/-- The writer executes a command. -/
def ran (x : System S I A C R) (M : Machine S A C R) (caller : Option I) (c : C) : System S I A C R :=
  { x with
    state := (M.exec x.state c).1
    log := x.log ++ [⟨caller, c, (M.exec x.state c).2⟩] }

end System

/-! ## Steps -/

section Steps

variable {S I A C R : Type} [DecidableEq I] (M : Machine S A C R)

/-- One atomic action. -/
inductive Step (x : System S I A C R) : System S I A C R → Prop
  | start : x.writer = .unstarted → x.stopping = false →
    Step x { x with running := true, writer := .selecting }
  | invoke (id : I) (arg : A) : x.calls id = none →
    Step x { x.setCall id { arg := arg } with trace := x.trace ++ [.invoked id arg] }
  | cancel {id : I} {call : Call A R} : x.calls id = some call → call.canceled = false →
    Step x { x.setCall id { call with canceled := true } with trace := x.trace ++ [.canceled id] }
  | enter {id : I} {call : Call A R} : x.calls id = some call → call.stage = .entered → x.running = true →
    Step x (x.setCall id { call with stage := .sending })
  | reject {id : I} {call : Call A R} : x.calls id = some call → call.stage = .entered → x.running = false →
    Step x (x.back id call .stopped)
  | submit {id : I} {call : Call A R} : x.calls id = some call → call.stage = .sending → x.writer = .selecting →
    Step x { x.setCall id { call with stage := .waiting } with writer := .received id }
  | abandon {id : I} {call : Call A R} : x.calls id = some call → call.stage = .sending → call.canceled = true →
    Step x (x.back id call .canceled)
  | refuse {id : I} {call : Call A R} : x.calls id = some call → call.stage = .sending → x.stopping = true →
    Step x (x.back id call .stopped)
  | accept {id : I} {call : Call A R} : x.writer = .received id → x.calls id = some call → call.canceled = false →
    Step x { x with writer := .executing id }
  | decline {id : I} {call : Call A R} : x.writer = .received id → x.calls id = some call → call.canceled = true →
    Step x { x with writer := .replying id .canceled false }
  | finish {id : I} {call : Call A R} (c : C) : x.writer = .executing id → x.calls id = some call →
    M.admits call.arg call.canceled c → M.panics x.state c = false →
    Step x { x.ran M (some id) c with writer := .replying id (.value (M.exec x.state c).2) false }
  | panic {id : I} {call : Call A R} (c : C) : x.writer = .executing id → x.calls id = some call →
    M.admits call.arg call.canceled c → M.panics x.state c = true →
    Step x { x.ran M (some id) c with
      writer := .replying id (.value (M.exec x.state c).2) true, running := false, stopping := true }
  | respond {id : I} {call : Call A R} {reply : Reply R} {last : Bool} : x.writer = .replying id reply last →
    x.calls id = some call →
    Step x { x.setCall id { call with response := some reply } with
      writer := if last then .stopped else .selecting }
  | deliver {id : I} {call : Call A R} {reply : Reply R} : x.calls id = some call → call.stage = .waiting →
    call.response = some reply → Step x (x.back id call reply)
  | leave {id : I} {call : Call A R} : x.calls id = some call → call.stage = .waiting → call.canceled = true →
    Step x (x.back id call .canceled)
  | wake : x.writer = .selecting → Step x { x with writer := .working }
  | own (c : C) : x.writer = .working → M.own x.ended c → M.panics x.state c = false →
    Step x { x.ran M none c with writer := .selecting }
  | disable : Step x { x with running := false }
  | stop : Step x { x with stopping := true }
  | expire : x.stopping = true → Step x { x with ended := true }
  | halt : x.writer = .selecting → x.stopping = true → Step x { x with writer := .stopped }

/-- A run of the system. -/
abbrev Run : System S I A C R → System S I A C R → Prop := Relation.ReflTransGen (Step M)

/-- The commands of a history, executed one after the other, give its results. -/
inductive Replays (s : S) : List (Entry I C R) → S → Prop
  | nil : Replays s [] s
  | snoc {log : List (Entry I C R)} {s' : S} (caller : Option I) (c : C) : Replays s log s' →
    Replays s (log ++ [⟨caller, c, (M.exec s' c).2⟩]) (M.exec s' c).1

end Steps

/-! ## One call -/

section Local

variable {S I A C R : Type} [DecidableEq I]

/-- The writer as one call sees it: busy elsewhere, serving the call, or about to respond. -/
def Writer.view (w : Writer I R) (id : I) : Option (Option (Reply R)) :=
  match w with
  | .received i | .executing i => if i = id then some none else none
  | .replying i reply _ => if i = id then some (some reply) else none
  | _ => none

/-- The commands of one caller that took effect, with their results. -/
def effects (log : List (Entry I C R)) (id : I) : List (C × R) :=
  log.filterMap fun entry => if entry.caller = some id then some (entry.command, entry.result) else none

/-- What concerns one call. -/
structure Local (I A C R : Type) where
  call : Option (Call A R)
  view : Option (Option (Reply R))
  effects : List (C × R)
  seen : List (Event I A R)

def System.at (x : System S I A C R) (id : I) : Local I A C R where
  call := x.calls id
  view := x.writer.view id
  effects := effects x.log id
  seen := x.trace.filter (·.id = id)

/-- A call may return: it was not taken, its context is done, or it has its response. -/
inductive Leaves : Call A R → Reply R → Prop
  | entered {call : Call A R} : call.stage = .entered → Leaves call .stopped
  | sending {call : Call A R} : call.stage = .sending → Leaves call .stopped
  | abandoned {call : Call A R} : call.stage = .sending → call.canceled = true → Leaves call .canceled
  | left {call : Call A R} : call.stage = .waiting → call.canceled = true → Leaves call .canceled
  | responded {call : Call A R} {reply : Reply R} : call.stage = .waiting → call.response = some reply →
    Leaves call reply

/-- The steps of the system as one call sees them. -/
inductive LocalStep (M : Machine S A C R) (id : I) (l : Local I A C R) : Local I A C R → Prop
  | stutter : LocalStep M id l l
  | invoke (arg : A) : l.call = none →
    LocalStep M id l { l with call := some { arg := arg }, seen := l.seen ++ [.invoked id arg] }
  | cancel {call : Call A R} : l.call = some call →
    LocalStep M id l { l with call := some { call with canceled := true }, seen := l.seen ++ [.canceled id] }
  | enter {call : Call A R} : l.call = some call → call.stage = .entered →
    LocalStep M id l { l with call := some { call with stage := .sending } }
  | back {call : Call A R} {reply : Reply R} : l.call = some call → Leaves call reply →
    LocalStep M id l
      { l with call := some { call with stage := .returned reply }, seen := l.seen ++ [.returned id reply] }
  | submit {call : Call A R} : l.call = some call → call.stage = .sending →
    LocalStep M id l { l with call := some { call with stage := .waiting }, view := some none }
  | decline {call : Call A R} : l.view = some none → l.call = some call → call.canceled = true →
    LocalStep M id l { l with view := some (some .canceled) }
  | finish {call : Call A R} (c : C) (result : R) : l.view = some none → l.call = some call →
    M.admits call.arg call.canceled c →
    LocalStep M id l { l with view := some (some (.value result)), effects := l.effects ++ [(c, result)] }
  | respond {call : Call A R} {reply : Reply R} : l.view = some (some reply) → l.call = some call →
    LocalStep M id l { l with call := some { call with response := some reply }, view := none }

/-- A response that agrees with what took effect. -/
def Earned (effects : List (C × R)) (canceled : Bool) : Reply R → Prop
  | .value result => ∃ c, effects = [(c, result)]
  | .canceled => effects = [] ∧ canceled = true
  | .stopped => False

/-- The invariant of a call that was made. -/
structure Sound (M : Machine S A C R) (id : I) (l : Local I A C R) (call : Call A R) : Prop where
  early : call.stage = .entered ∨ call.stage = .sending → l.view = none ∧ l.effects = [] ∧ call.response = none
  served : l.view = some none → l.effects = [] ∧ call.response = none
  responding : ∀ reply, l.view = some (some reply) → Earned l.effects call.canceled reply ∧ call.response = none
  responded : ∀ reply, call.response = some reply → Earned l.effects call.canceled reply ∧ l.view = none
  valued : ∀ result, call.stage = .returned (.value result) → ∃ c, l.effects = [(c, result)]
  refused : call.stage = .returned .stopped → l.effects = [] ∧ l.view = none
  gaveUp : call.stage = .returned .canceled → call.canceled = true
  waiting : call.stage = .waiting → l.view ≠ none ∨ call.response ≠ none
  admitted : ∀ p ∈ l.effects, ∃ canceled, M.admits call.arg canceled p.1 ∧ (canceled = true → call.canceled = true)
  atMostOnce : l.effects.length ≤ 1
  invoked : ∀ arg, .invoked id arg ∈ l.seen ↔ call.arg = arg
  canceled : .canceled id ∈ l.seen ↔ call.canceled = true
  returned : ∀ reply, .returned id reply ∈ l.seen ↔ call.stage = .returned reply

/-- The invariant of one call, made or not. -/
structure Local.Inv (M : Machine S A C R) (id : I) (l : Local I A C R) : Prop where
  absent : l.call = none → l.view = none ∧ l.effects = [] ∧ l.seen = []
  made : ∀ call, l.call = some call → Sound M id l call

variable {M : Machine S A C R} {id : I} {l l' : Local I A C R}

theorem Earned.cancel {effects : List (C × R)} {canceled : Bool} {reply : Reply R}
    (h : Earned effects canceled reply) : Earned effects true reply := by
  cases reply with
  | value result => exact h
  | canceled => exact ⟨h.1, rfl⟩
  | stopped => exact h

omit [DecidableEq I] in
/-- A step of a call keeps its invariant. -/
theorem LocalStep.inv (h : LocalStep M id l l') (hl : l.Inv M id) : l'.Inv M id := by
  refine ⟨?_, ?_⟩
  · cases h <;> simp_all [hl.absent]
  · intro call hcall
    cases h with
    | stutter => exact hl.made call hcall
    | invoke arg hnone =>
      obtain ⟨hview, heffects, hseen⟩ := hl.absent hnone
      obtain rfl := Option.some.inj hcall
      constructor <;> simp_all [eq_comm]
    | cancel hold =>
      have hs := hl.made _ hold
      obtain rfl := Option.some.inj hcall
      constructor <;> grind [Sound, Earned.cancel]
    | enter hold hstage =>
      have hs := hl.made _ hold
      obtain rfl := Option.some.inj hcall
      constructor <;> grind [Sound]
    | back hold hleaves =>
      have hs := hl.made _ hold
      obtain rfl := Option.some.inj hcall
      cases hleaves <;> constructor <;> grind [Sound, Earned]
    | submit hold hstage =>
      have hs := hl.made _ hold
      obtain rfl := Option.some.inj hcall
      constructor <;> grind [Sound]
    | decline hview hold hcanceled =>
      obtain rfl : _ = call := Option.some.inj (hold.symm.trans hcall)
      have hs := hl.made _ hold
      constructor <;> grind [Sound, Earned]
    | finish c result hview hold hadmits =>
      obtain rfl : _ = call := Option.some.inj (hold.symm.trans hcall)
      have hs := hl.made _ hold
      constructor <;> grind [Sound, Earned]
    | respond hview hold =>
      have hs := hl.made _ hold
      obtain rfl := Option.some.inj hcall
      constructor <;> grind [Sound, Earned]

theorem effects_concat (log : List (Entry I C R)) (entry : Entry I C R) (id : I) :
    effects (log ++ [entry]) id =
      effects log id ++ if entry.caller = some id then [(entry.command, entry.result)] else [] := by
  simp only [effects, List.filterMap_append, List.filterMap_cons, List.filterMap_nil]
  split <;> simp_all

section Projection

variable {x y : System S I A C R} {i : I} {call : Call A R}

theorem LocalStep.of_eq (h : LocalStep M i (x.at i) l') (heq : y.at i = l') : LocalStep M i (x.at i) (y.at i) := by
  rw [heq]
  exact h

/-- A step that concerns another call. -/
theorem LocalStep.other (hcall : y.calls i = x.calls i) (hview : y.writer.view i = x.writer.view i)
    (heffects : effects y.log i = effects x.log i)
    (hseen : y.trace.filter (·.id = i) = x.trace.filter (·.id = i)) : LocalStep M i (x.at i) (y.at i) :=
  of_eq .stutter (by simp only [System.at, hcall, hview, heffects, hseen])

/-- A step that changes one call and is seen at that call only. -/
theorem LocalStep.sets {event : Event I A R} (hid : event.id = id)
    (h : LocalStep M id (x.at id) { x.at id with call := some call, seen := (x.at id).seen ++ [event] }) :
    LocalStep M i (x.at i) (System.at { x.setCall id call with trace := x.trace ++ [event] } i) := by
  rcases eq_or_ne i id with rfl | hne
  · exact of_eq h (by simp [System.at, System.setCall, hid])
  · exact other (by simp [System.setCall, hne]) rfl rfl (by simp [hid, hne.symm])

theorem LocalStep.returns {reply : Reply R} (hcall : x.calls id = some call) (hleaves : Leaves call reply) :
    LocalStep M i (x.at i) ((x.back id call reply).at i) :=
  sets rfl (.back hcall hleaves)

theorem LocalStep.ran {c : C} {last : Bool} (hw : x.writer = .executing id) (hcall : x.calls id = some call)
    (hadmits : M.admits call.arg call.canceled c) (hcalls : y.calls = x.calls) (htrace : y.trace = x.trace)
    (hlog : y.log = (x.ran M (some id) c).log)
    (hwriter : y.writer = .replying id (.value (M.exec x.state c).2) last) :
    LocalStep M i (x.at i) (y.at i) := by
  rcases eq_or_ne i id with rfl | hid
  · refine of_eq (.finish c (M.exec x.state c).2 (by simp [System.at, Writer.view, hw]) hcall hadmits) ?_
    simp [System.at, hcalls, htrace, hlog, hwriter, System.ran, Writer.view, effects_concat]
  · refine other (by rw [hcalls]) (by simp [Writer.view, hwriter, hw, hid.symm]) ?_ (by rw [htrace])
    simp [hlog, System.ran, effects_concat, hid.symm]

/-- Every call sees a step of the system as one of its own steps. -/
theorem Step.local (h : Step M x y) (i : I) : LocalStep M i (x.at i) (y.at i) := by
  cases h with
  | start hw _ => exact .other rfl (by simp [Writer.view, hw]) rfl rfl
  | disable => exact .other rfl rfl rfl rfl
  | stop => exact .other rfl rfl rfl rfl
  | expire => exact .other rfl rfl rfl rfl
  | halt hw _ => exact .other rfl (by simp [Writer.view, hw]) rfl rfl
  | wake hw => exact .other rfl (by simp [Writer.view, hw]) rfl rfl
  | own c hw _ _ => exact .other rfl (by simp [Writer.view, hw]) (by simp [System.ran, effects_concat]) rfl
  | accept hw _ _ => exact .other rfl (by simp [Writer.view, hw]) rfl rfl
  | invoke id arg hnone => exact .sets rfl (.invoke arg hnone)
  | cancel hcall _ => exact .sets rfl (.cancel hcall)
  | @enter id call hcall hstage _ =>
    rcases eq_or_ne i id with rfl | hid
    · exact .of_eq (.enter hcall hstage) (by simp [System.at, System.setCall])
    · exact .other (by simp [System.setCall, hid]) rfl rfl rfl
  | reject hcall hstage _ => exact .returns hcall (.entered hstage)
  | abandon hcall hstage hcanceled => exact .returns hcall (.abandoned hstage hcanceled)
  | refuse hcall hstage _ => exact .returns hcall (.sending hstage)
  | deliver hcall hstage hresponse => exact .returns hcall (.responded hstage hresponse)
  | leave hcall hstage hcanceled => exact .returns hcall (.left hstage hcanceled)
  | @submit id call hcall hstage hw =>
    rcases eq_or_ne i id with rfl | hid
    · exact .of_eq (.submit hcall hstage) (by simp [System.at, System.setCall, Writer.view])
    · exact .other (by simp [System.setCall, hid]) (by simp [Writer.view, hw, hid.symm]) rfl rfl
  | @decline id call hw hcall hcanceled =>
    rcases eq_or_ne i id with rfl | hid
    · exact .of_eq (.decline (by simp [System.at, Writer.view, hw]) hcall hcanceled) (by simp [System.at, Writer.view])
    · exact .other rfl (by simp [Writer.view, hw, hid.symm]) rfl rfl
  | finish c hw hcall hadmits _ => exact .ran hw hcall hadmits rfl rfl rfl rfl
  | panic c hw hcall hadmits _ => exact .ran hw hcall hadmits rfl rfl rfl rfl
  | @respond id call reply last hw hcall =>
    have hidle : (if last then .stopped else .selecting : Writer I R).view i = none := by cases last <;> rfl
    rcases eq_or_ne i id with rfl | hid
    · have hview : (x.at i).view = some (some reply) := by simp [System.at, Writer.view, hw]
      exact .of_eq (.respond hview hcall) (by simp [System.at, System.setCall, hidle])
    · exact .other (by simp [System.setCall, hid]) (hidle.trans (by simp [Writer.view, hw, hid.symm])) rfl rfl

end Projection

end Local

/-! ## Order -/

section Order

variable {S I A C R : Type} [DecidableEq I] {M : Machine S A C R} {x y : System S I A C R}

variable {id : I}

theorem mem_callers {log : List (Entry I C R)} : id ∈ callers log ↔ effects log id ≠ [] := by
  simp [callers, effects, List.filterMap_eq_nil_iff]

/-- A step, as far as the order of calls is concerned. -/
inductive Tracks (x y : System S I A C R) : Prop
  | quiet : y.trace = x.trace → callers y.log = callers x.log →
    (∀ i, y.writer.view i = some none →
      x.writer.view i = some none ∨ ∃ call, x.calls i = some call ∧ call.stage = .sending) → Tracks x y
  | observed (event : Event I A R) : y.trace = x.trace ++ [event] →
    (∀ id arg, event = .invoked id arg → x.calls id = none) → callers y.log = callers x.log →
    y.writer = x.writer → Tracks x y
  | ran (id : I) : y.trace = x.trace → callers y.log = callers x.log ++ [id] → x.writer.view id = some none →
    (∀ i, y.writer.view i ≠ some none) → Tracks x y

theorem Step.tracks (h : Step M x y) : Tracks x y := by
  cases h with
  | start hw _ => exact .quiet rfl rfl fun i hi => by simp [Writer.view] at hi
  | disable => exact .quiet rfl rfl fun i hi => .inl hi
  | stop => exact .quiet rfl rfl fun i hi => .inl hi
  | expire => exact .quiet rfl rfl fun i hi => .inl hi
  | halt hw _ => exact .quiet rfl rfl fun i hi => by simp [Writer.view] at hi
  | wake hw => exact .quiet rfl rfl fun i hi => by simp [Writer.view] at hi
  | own c hw _ _ => exact .quiet rfl (by simp [System.ran, callers]) fun i hi => by simp [Writer.view] at hi
  | accept hw _ _ => exact .quiet rfl rfl fun i hi => .inl (by simpa [Writer.view, hw] using hi)
  | invoke id arg hnone =>
    refine .observed (.invoked id arg) rfl (fun id' arg' heq => ?_) rfl rfl
    obtain ⟨rfl, rfl⟩ := Event.invoked.inj heq
    exact hnone
  | enter hcall hstage _ => exact .quiet rfl rfl fun i hi => .inl hi
  | @submit id call hcall hstage hw =>
    refine .quiet rfl rfl fun i hi => .inr ?_
    obtain rfl : id = i := by simpa [Writer.view] using hi
    exact ⟨call, hcall, hstage⟩
  | decline hw hcall _ => exact .quiet rfl rfl fun i hi => by simp [Writer.view] at hi
  | @finish id call c hw hcall _ _ =>
    exact .ran id rfl (by simp [System.ran, callers]) (by simp [Writer.view, hw])
      fun i hi => by simp [Writer.view] at hi
  | @panic id call c hw hcall _ _ =>
    exact .ran id rfl (by simp [System.ran, callers]) (by simp [Writer.view, hw])
      fun i hi => by simp [Writer.view] at hi
  | @respond id call reply last hw hcall =>
    refine .quiet rfl rfl fun i hi => ?_
    cases last <;> simp [Writer.view] at hi
  | _ => exact .observed _ rfl (fun _ _ heq => by cases heq) rfl rfl -- a return, or a cancellation

/-- Calls that do not overlap take effect in their order. While the writer serves a call,
no call that was made after its return has taken effect. -/
structure Ordered (x : System S I A C R) : Prop where
  nodup : (callers x.log).Nodup
  before : ∀ i j reply arg, Before x.trace (.returned i reply) (.invoked j arg) →
    i ∈ callers x.log → j ∈ callers x.log → Before (callers x.log) i j
  ne : ∀ i j reply arg, Before x.trace (.returned i reply) (.invoked j arg) → i ≠ j
  overtaken : ∀ i j reply arg, Before x.trace (.returned i reply) (.invoked j arg) →
    x.writer.view i = some none → j ∉ callers x.log

theorem System.mem_seen {event : Event I A R} (hid : event.id = id) :
    event ∈ (x.at id).seen ↔ event ∈ x.trace := by
  simp [System.at, hid]

/-- A step keeps the order. -/
theorem Ordered.step (h : Ordered x) (hl : ∀ i, (x.at i).Inv M i) (hstep : Step M x y) : Ordered y := by
  have returned {i : I} {reply : Reply R} {call : Call A R} (hi : .returned i reply ∈ x.trace)
      (hcall : x.calls i = some call) : call.stage = .returned reply :=
    (((hl i).made call hcall).returned reply).mp ((System.mem_seen rfl).mpr hi)
  cases hstep.tracks with
  | quiet htrace hlog hview =>
    refine ⟨by rw [hlog]; exact h.nodup, by rw [htrace, hlog]; exact h.before, by rw [htrace]; exact h.ne, ?_⟩
    intro i j reply arg hij hi
    rw [htrace] at hij
    rw [hlog]
    rcases hview i hi with hi | ⟨call, hcall, hstage⟩
    · exact h.overtaken i j reply arg hij hi
    · rw [returned hij.left_mem hcall] at hstage
      cases hstage
  | observed event htrace hfresh hlog hwriter =>
    -- a pair that ends with the new event is an earlier return and a new call
    have pair {i j : I} {reply : Reply R} {arg : A} (hij : Before y.trace (.returned i reply) (.invoked j arg)) :
        Before x.trace (.returned i reply) (.invoked j arg) ∨
          .returned i reply ∈ x.trace ∧ x.calls j = none ∧ j ∉ callers x.log := by
      rw [htrace] at hij
      rcases hij.of_concat with hij | ⟨hi, hj⟩
      · exact .inl hij
      · have hnone := hfresh j arg hj.symm
        refine .inr ⟨hi, hnone, fun hmem => mem_callers.mp hmem ((hl j).absent hnone).2.1⟩
    refine ⟨by rw [hlog]; exact h.nodup, ?_, ?_, ?_⟩
    · intro i j reply arg hij
      rw [hlog]
      rcases pair hij with hij | ⟨-, -, hj⟩
      · exact h.before i j reply arg hij
      · intro _ hj'
        exact absurd hj' hj
    · intro i j reply arg hij
      rcases pair hij with hij | ⟨hi, hnone, -⟩
      · exact h.ne i j reply arg hij
      · rintro rfl
        have hseen : .returned i reply ∈ (x.at i).seen := (System.mem_seen rfl).mpr hi
        rw [((hl i).absent hnone).2.2] at hseen
        cases hseen
    · intro i j reply arg hij hi
      rw [hlog]
      rcases pair hij with hij | ⟨-, -, hj⟩
      · exact h.overtaken i j reply arg hij (hwriter ▸ hi)
      · exact hj
  | ran id htrace hlog hserved hview =>
    have hnone : (x.at id).effects = [] := by
      cases hcall : x.calls id with
      | none => exact ((hl id).absent hcall).2.1
      | some call => exact (((hl id).made call hcall).served hserved).1
    have hnew : id ∉ callers x.log := fun hmem => mem_callers.mp hmem hnone
    refine ⟨?_, ?_, by rw [htrace]; exact h.ne, fun i j reply arg _ hi => absurd hi (hview i)⟩
    · rw [hlog]
      exact List.nodup_append.mpr
        ⟨h.nodup, List.nodup_singleton id, by simpa using fun a ha => ne_of_mem_of_not_mem ha hnew⟩
    · intro i j reply arg hij
      rw [htrace] at hij
      rw [hlog]
      intro hi hj
      rcases List.mem_append.mp hj with hjOld | hjNew
      · rcases List.mem_append.mp hi with hiOld | hiNew
        · exact (h.before i j reply arg hij hiOld hjOld).mono [id]
        · obtain rfl := List.mem_singleton.mp hiNew
          exact absurd hjOld (h.overtaken i j reply arg hij hserved)
      · obtain rfl := List.mem_singleton.mp hjNew
        rcases List.mem_append.mp hi with hiOld | hiNew
        · exact Before.concat hiOld j
        · exact absurd (List.mem_singleton.mp hiNew) (h.ne i j reply arg hij)

end Order

/-! ## Runs -/

section Runs

variable {S I A C R : Type} [DecidableEq I] {M : Machine S A C R} {s : S} {x y : System S I A C R}

/-- The writer has stopped, or stops after its response. -/
def Writer.ending : Writer I R → Bool
  | .replying _ _ last => last
  | .stopped => true
  | _ => false

/-- What every state of a run keeps. -/
structure Inv (M : Machine S A C R) (s : S) (x : System S I A C R) : Prop where
  legal : Replays M s x.log x.state
  owned : ∀ entry ∈ x.log, entry.caller = none → ∃ ended, M.own ended entry.command ∧ (ended = true → x.stopping = true)
  calls : ∀ i, (x.at i).Inv M i
  ordered : Ordered x
  ending : x.writer.ending = true ∨ x.ended = true → x.stopping = true

/-- A step either executes a command or leaves the state and the history alone. -/
theorem Step.log_cases (h : Step M x y) : y.state = x.state ∧ y.log = x.log ∨
    ∃ caller c, (caller = none → M.own x.ended c) ∧ y.state = (M.exec x.state c).1 ∧
      y.log = x.log ++ [⟨caller, c, (M.exec x.state c).2⟩] := by
  cases h with
  | own c _ hown _ => exact .inr ⟨none, c, fun _ => hown, rfl, rfl⟩
  | finish c _ _ _ _ => exact .inr ⟨some _, c, by simp, rfl, rfl⟩
  | panic c _ _ _ _ => exact .inr ⟨some _, c, by simp, rfl, rfl⟩
  | _ => exact .inl ⟨rfl, rfl⟩

theorem Step.stopping (h : Step M x y) (hx : x.stopping = true) : y.stopping = true := by
  cases h <;> first | exact hx | rfl

theorem Inv.init (s : S) : Inv M s ({ state := s } : System S I A C R) where
  legal := .nil
  owned := by simp
  calls i := ⟨fun _ => ⟨rfl, rfl, rfl⟩, by simp [System.at]⟩
  ordered := ⟨List.nodup_nil, by simp [callers], by simp [Before], by simp [callers]⟩
  ending := by simp [Writer.ending]

theorem Inv.step (h : Inv M s x) (hstep : Step M x y) : Inv M s y where
  legal := by
    rcases hstep.log_cases with ⟨hstate, hlog⟩ | ⟨caller, c, -, hstate, hlog⟩
    · rw [hstate, hlog]
      exact h.legal
    · rw [hstate, hlog]
      exact .snoc caller c h.legal
  owned := by
    have hold : ∀ entry ∈ x.log, entry.caller = none → ∃ ended, M.own ended entry.command ∧
        (ended = true → y.stopping = true) := by
      intro entry hentry hnone
      obtain ⟨ended, hown, hstop⟩ := h.owned entry hentry hnone
      exact ⟨ended, hown, fun hended => hstep.stopping (hstop hended)⟩
    rcases hstep.log_cases with ⟨-, hlog⟩ | ⟨caller, c, hown, -, hlog⟩ <;> rw [hlog]
    · exact hold
    · intro entry hentry hnone
      rcases List.mem_append.mp hentry with hentry | hnew
      · exact hold entry hentry hnone
      · obtain rfl := List.mem_singleton.mp hnew
        exact ⟨x.ended, hown hnone, fun hended => hstep.stopping (h.ending (.inr hended))⟩
  calls i := (hstep.local i).inv (h.calls i)
  ordered := h.ordered.step h.calls hstep
  ending := by
    have hending := h.ending
    cases hstep with
    | @respond _ _ _ last hw _ => cases last <;> simp_all [Writer.ending, System.setCall]
    | _ => simp_all [Writer.ending, System.setCall, System.back, System.ran]

theorem Run.inv (h : Run M { state := s } x) : Inv M s x := by
  induction h with
  | refl => exact Inv.init s
  | tail _ hstep ih => exact ih.step hstep

/-- A history explains what the callers saw. -/
structure Linearizes (M : Machine S A C R) (s : S) (x : System S I A C R) : Prop where
  /-- executed one after the other, its commands give its results and the state -/
  legal : Replays M s x.log x.state
  /-- no call takes effect twice -/
  once : (callers x.log).Nodup
  /-- a command with a caller is the one that was asked for -/
  invoked : ∀ id c result, ⟨some id, c, result⟩ ∈ x.log → ∃ arg canceled, .invoked id arg ∈ x.trace ∧
    M.admits arg canceled c ∧ (canceled = true → .canceled id ∈ x.trace)
  /-- a command without a caller is one of the writer's own, cancelled only by a stop -/
  owned : ∀ c result, ⟨none, c, result⟩ ∈ x.log → ∃ ended, M.own ended c ∧ (ended = true → x.stopping = true)
  /-- a value that was returned is the result of the call's command -/
  value : ∀ id result, .returned id (.value result) ∈ x.trace → ∃ c, ⟨some id, c, result⟩ ∈ x.log
  /-- a call that was turned away took no effect -/
  stopped : ∀ id, .returned id .stopped ∈ x.trace → id ∉ callers x.log
  /-- only a call whose context was cancelled returns its error -/
  canceled : ∀ id, .returned id .canceled ∈ x.trace → .canceled id ∈ x.trace
  /-- a call returns once -/
  unique : ∀ id reply reply', .returned id reply ∈ x.trace → .returned id reply' ∈ x.trace → reply = reply'
  /-- calls that do not overlap take effect in their order -/
  order : ∀ i j reply arg, Before x.trace (.returned i reply) (.invoked j arg) →
    i ∈ callers x.log → j ∈ callers x.log → Before (callers x.log) i j

variable {log : List (Entry I C R)} {id : I} {c : C} {call : Call A R} {arg : A}

theorem mem_effects {result : R} : (c, result) ∈ effects log id ↔ ⟨some id, c, result⟩ ∈ log := by
  simp only [effects, List.mem_filterMap]
  constructor
  · rintro ⟨entry, hentry, heq⟩
    simp only [Option.ite_none_right_eq_some, Option.some.injEq, Prod.mk.injEq] at heq
    obtain ⟨hcaller, rfl, rfl⟩ := heq
    rw [← hcaller]
    exact hentry
  · intro hentry
    exact ⟨_, hentry, by simp⟩

/-- A return in the trace is where the call is. -/
theorem Inv.stage_of_returned (h : Inv M s x) {reply : Reply R} (hr : .returned id reply ∈ x.trace) :
    ∃ call, x.calls id = some call ∧ call.stage = .returned reply ∧ Sound M id (x.at id) call := by
  have hseen : .returned id reply ∈ (x.at id).seen := (System.mem_seen rfl).mpr hr
  cases hcall : x.calls id with
  | none =>
    rw [((h.calls id).absent hcall).2.2] at hseen
    cases hseen
  | some call =>
    have hs := (h.calls id).made call hcall
    exact ⟨call, rfl, (hs.returned reply).mp hseen, hs⟩

theorem Inv.linearizes (h : Inv M s x) : Linearizes M s x where
  legal := h.legal
  once := h.ordered.nodup
  invoked id c result hentry := by
    have heffect : (c, result) ∈ (x.at id).effects := mem_effects.mpr hentry
    cases hcall : x.calls id with
    | none =>
      rw [((h.calls id).absent hcall).2.1] at heffect
      cases heffect
    | some call =>
      have hs := (h.calls id).made call hcall
      obtain ⟨canceled, hadmits, hcanceled⟩ := hs.admitted _ heffect
      refine ⟨call.arg, canceled, (System.mem_seen rfl).mp ((hs.invoked _).mpr rfl), hadmits, fun hc => ?_⟩
      exact (System.mem_seen rfl).mp (hs.canceled.mpr (hcanceled hc))
  owned c result hentry := h.owned _ hentry rfl
  value id result hr := by
    obtain ⟨call, -, hstage, hs⟩ := h.stage_of_returned hr
    obtain ⟨c, heffects⟩ := hs.valued result hstage
    have hmem : (c, result) ∈ (x.at id).effects := heffects ▸ List.mem_singleton_self _
    exact ⟨c, mem_effects.mp hmem⟩
  stopped id hr hmem := by
    obtain ⟨call, -, hstage, hs⟩ := h.stage_of_returned hr
    exact mem_callers.mp hmem (hs.refused hstage).1
  canceled id hr := by
    obtain ⟨call, -, hstage, hs⟩ := h.stage_of_returned hr
    exact (System.mem_seen rfl).mp (hs.canceled.mpr (hs.gaveUp hstage))
  unique id reply reply' hr hr' := by
    obtain ⟨call, hcall, hstage, -⟩ := h.stage_of_returned hr
    obtain ⟨call', hcall', hstage', -⟩ := h.stage_of_returned hr'
    obtain rfl := Option.some.inj (hcall.symm.trans hcall')
    exact Stage.returned.inj (hstage.symm.trans hstage')
  order := h.ordered.before

/-- A call that the writer has taken has its response, or the writer is at it. -/
theorem Inv.taken (h : Inv M s x) (hcall : x.calls id = some call) (hwaiting : call.stage = .waiting) :
    x.writer.view id ≠ none ∨ call.response ≠ none :=
  ((h.calls id).made call hcall).waiting hwaiting

/-- Once the writer has stopped, a call that is still out can return at once. -/
theorem Inv.drains (h : Inv M s x) (hstopped : x.writer = .stopped) (hcall : x.calls id = some call)
    (hout : ∀ reply, call.stage ≠ .returned reply) : ∃ reply y, Run M x y ∧ .returned id reply ∈ y.trace := by
  have hstopping : x.stopping = true := h.ending (.inl (by rw [hstopped]; rfl))
  cases hstage : call.stage with
  | entered =>
    cases hrunning : x.running with
    | false => exact ⟨.stopped, _, .single (.reject hcall hstage hrunning), by simp [System.back]⟩
    | true =>
      have henter : Step M x (x.setCall id { call with stage := .sending }) := .enter hcall hstage hrunning
      have hrefuse : Step M (x.setCall id { call with stage := .sending })
          ((x.setCall id { call with stage := .sending }).back id { call with stage := .sending } .stopped) :=
        .refuse (by simp [System.setCall]) rfl hstopping
      exact ⟨.stopped, _, .tail (.single henter) hrefuse, by simp [System.back]⟩
  | sending => exact ⟨.stopped, _, .single (.refuse hcall hstage hstopping), by simp [System.back]⟩
  | waiting =>
    rcases h.taken hcall hstage with hview | hresponse
    · simp [hstopped, Writer.view] at hview
    · obtain ⟨reply, hreply⟩ := Option.ne_none_iff_exists'.mp hresponse
      exact ⟨reply, _, .single (.deliver hcall hstage hreply), by simp [System.back]⟩
  | returned reply => exact absurd hstage (hout reply)

/-- A stopped writer stays stopped, and executes nothing. -/
theorem Step.of_stopped (h : Step M x y) (hstopped : x.writer = .stopped) :
    y.writer = .stopped ∧ y.state = x.state ∧ y.log = x.log := by
  cases h <;> simp_all [System.setCall, System.back]

theorem Run.of_stopped (h : Run M x y) (hstopped : x.writer = .stopped) :
    y.writer = .stopped ∧ y.state = x.state ∧ y.log = x.log := by
  induction h with
  | refl => exact ⟨hstopped, rfl, rfl⟩
  | tail _ hstep ih =>
    obtain ⟨hw, hstate, hlog⟩ := hstep.of_stopped ih.1
    exact ⟨hw, hstate.trans ih.2.1, hlog.trans ih.2.2⟩

/-- A new call comes to the point where it hands its command over. -/
theorem Run.enters (id : I) (arg : A) (hrunning : x.running = true) (hfresh : x.calls id = none) :
    Run M x { x.setCall id { arg := arg, stage := .sending } with trace := x.trace ++ [.invoked id arg] } := by
  let x₁ : System S I A C R := { x.setCall id { arg := arg } with trace := x.trace ++ [.invoked id arg] }
  have h₁ : Step M x x₁ := .invoke id arg hfresh
  have c₁ : x₁.calls id = some { arg := arg } := Function.update_self ..
  have h₂ : Step M x₁ (x₁.setCall id { arg := arg, stage := .sending }) := .enter c₁ rfl hrunning
  have hlast : x₁.setCall id { arg := arg, stage := .sending } =
      { x.setCall id { arg := arg, stage := .sending } with trace := x.trace ++ [.invoked id arg] } := by
    simp [x₁, System.setCall]
  exact hlast ▸ (Relation.ReflTransGen.single h₁).tail h₂

/-- A writer that waits for calls serves one of those that are there: it can run its command and
return the result. -/
theorem Run.serves (id : I) (c : C) (hw : x.writer = .selecting)
    (hcall : x.calls id = some { arg := arg, stage := .sending }) (hadmits : M.admits arg false c)
    (hpanics : M.panics x.state c = false) :
    Run M x ((x.ran M (some id) c).back id { arg := arg, response := some (.value (M.exec x.state c).2) }
      (.value (M.exec x.state c).2)) := by
  let result := (M.exec x.state c).2
  let waiting : Call A R := { arg := arg, stage := .waiting }
  let answered : Call A R := { arg := arg, stage := .waiting, response := some (.value result) }
  let x₁ : System S I A C R := { x.setCall id waiting with writer := .received id }
  let x₂ : System S I A C R := { x₁ with writer := .executing id }
  let x₃ : System S I A C R := { x₂.ran M (some id) c with writer := .replying id (.value result) false }
  let x₄ : System S I A C R := { x₃.setCall id answered with writer := .selecting }
  have c₁ : x₁.calls id = some waiting := Function.update_self ..
  have h₁ : Step M x x₁ := .submit hcall rfl hw
  have h₂ : Step M x₁ x₂ := .accept rfl c₁ rfl
  have h₃ : Step M x₂ x₃ := .finish c rfl c₁ hadmits hpanics
  have w₃ : x₃.writer = .replying id (.value result) false := rfl
  have h₄ : Step M x₃ x₄ := .respond w₃ c₁
  have h₅ : Step M x₄ (x₄.back id answered (.value result)) := .deliver (Function.update_self ..) rfl rfl
  have hlast : x₄.back id answered (.value result) = (x.ran M (some id) c).back id
      { arg := arg, response := some (.value result) } (.value result) := by
    simp [x₄, x₃, x₂, x₁, answered, System.back, System.setCall, System.ran, hw]
  exact hlast ▸ ((((Relation.ReflTransGen.single h₁).tail h₂).tail h₃).tail h₄).tail h₅

/-- A call that is made while the writer waits can run its command and return the result. -/
theorem available (hw : x.writer = .selecting) (hrunning : x.running = true) (hfresh : x.calls id = none)
    (hadmits : M.admits arg false c) (hpanics : M.panics x.state c = false) :
    ∃ y, Run M x y ∧ .returned id (.value (M.exec x.state c).2) ∈ y.trace ∧
      y.state = (M.exec x.state c).1 := by
  have henters := Run.enters (M := M) id arg hrunning hfresh
  exact ⟨_, henters.trans (Run.serves id c hw (Function.update_self ..) hadmits hpanics),
    List.mem_append_right _ (List.mem_singleton_self _), rfl⟩

omit [DecidableEq I] in
/-- A result in the history was given by a state of the history. -/
theorem Replays.result {s' : S} (h : Replays M s log s') {entry : Entry I C R} (hentry : entry ∈ log) :
    ∃ (log' : List (Entry I C R)) (t : S), Replays M s log' t ∧ entry.result = (M.exec t entry.command).2 := by
  induction h with
  | nil => cases hentry
  | @snoc log t caller c h ih =>
    rcases List.mem_append.mp hentry with hold | hnew
    · exact ih hold
    · obtain rfl := List.mem_singleton.mp hnew
      exact ⟨log, t, h, rfl⟩

/-- **Linearizability**: whatever the interleaving, the history of a run explains it. -/
theorem Run.linearizes (h : Run M { state := s } x) : Linearizes M s x := h.inv.linearizes

end Runs

end Controller
