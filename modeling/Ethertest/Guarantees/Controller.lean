-- SUMMARY: Concurrent callers of the single-writer controller see one sequential run of the node.
import Ethertest.Base.Controller
import Ethertest.Run
import Ethertest.Reference

/-!
# The controller

Callers hand write operations and functions that only read to the controller, each with a
context of its own, from any number of goroutines; the interval miner's ticks and a
request to stop come in between, and a stop may cut a tick off. Whatever the interleaving, the node only ever is where a
sequential run of the operations would have brought it.
-/

namespace Ethertest

open Controller

/-- What a caller asks for: a write operation, or a reading of the node. -/
inductive Task (σ ρ : Type) where
  | write (op : Op)
  | read (query : Node σ → ρ)

/-- A task as it runs: an operation with the context it sees, or a reading. -/
inductive Job (σ ρ : Type) where
  | write (command : Command)
  | read (query : Node σ → ρ)

/-- What a task answers. -/
inductive Answer (ρ : Type) where
  | status (result : Except Error Unit)
  | value (value : ρ)

/-- A panic, as it leaves the function in which it happens. -/
def Error.panics : Error → Bool
  | .panic _ => true
  | .wrap _ cause => cause.panics
  | _ => false

/-- The operation panicked. -/
def panicked (result : Except Error Unit) : Bool :=
  match result with
  | .ok _ => false
  | .error err => err.panics

/-- The error that `callCommand` makes of a recovered panic. -/
def recovered (result : Except Error Unit) : Except Error Unit :=
  result.mapError fun err => if err.panics then .wrap "single-writer command panicked: %v" err else err

theorem recovered_eq {result : Except Error Unit} (h : panicked result = false) : recovered result = result := by
  cases result with
  | ok value => rfl
  | error err => simp [recovered, Except.mapError, show err.panics = false from h]

namespace Env

variable (E : Env) (ρ : Type)

/-- `callCommand` -/
def callCommand (n : Node E.geth.State) : Job E.geth.State ρ → Node E.geth.State × Answer ρ
  | .write c => ((E.execute n c).1, .status (recovered (E.execute n c).2))
  | .read query => (n, .value (query n))

/-- The controller of a node. A context that was found live when the controller looked at
it may be cancelled while the operation runs; one that was not cancelled when the
operation ended was live throughout. A tick runs on the node's own context, which nobody
looks at first. -/
def controller : Machine (Node E.geth.State) (Task E.geth.State ρ) (Job E.geth.State ρ) (Answer ρ) where
  exec := E.callCommand ρ
  panics n job :=
    match job with
    | .write c => panicked (E.execute n c).2
    | .read _ => false
  admits task canceled job :=
    match task, job with
    | .write op, .write c => c.op = op ∧ c.ctx ≠ some 0 ∧ (canceled = false → c.ctx = Ctx.background)
    | .read query, .read query' => query' = query
    | _, _ => False
  own ended job := ∃ ctx, job = .write { op := .intervalTick, ctx := ctx } ∧ (ended = false → ctx = Ctx.background)

/-- A node with its controller and callers. -/
abbrev Serving (I : Type) :=
  System (Node E.geth.State) I (Task E.geth.State ρ) (Job E.geth.State ρ) (Answer ρ)

variable {E ρ} {I : Type} [DecidableEq I] {n n' : Node E.geth.State}

omit [DecidableEq I] in
/-- What every operation keeps, a sequential history keeps. -/
theorem keeps_of_replays {P : Node E.geth.State → Prop} (hstep : ∀ {n c}, P n → P (E.step n c))
    {log : List (Controller.Entry I (Job E.geth.State ρ) (Answer ρ))} (hn : P n)
    (h : Replays (E.controller ρ) n log n') : P n' := by
  induction h with
  | nil => exact hn
  | snoc caller job _ ih =>
    cases job with
    | write c => exact hstep ih
    | read query => exact ih

/-- Whatever the interleaving of callers, cancellations, ticks and a request to stop: the
node is reachable by a sequential run, the controller's history explains everything that
the callers saw, and a reading returns what it reads from a reachable node. -/
theorem controller_linearizable (hn : E.Reachable n) {x : E.Serving ρ I}
    (h : Run (E.controller ρ) { state := n } x) :
    E.Reachable x.state ∧ Linearizes (E.controller ρ) n x ∧
    ∀ id value, .returned id (.value (.value value)) ∈ x.trace →
      ∃ query n', .invoked id (.read query) ∈ x.trace ∧ E.Reachable n' ∧ value = query n' := by
  have hlin := h.linearizes
  have hstep {n c} (hn : E.Reachable n) : E.Reachable (E.step n c) := .step hn trivial
  refine ⟨keeps_of_replays hstep hn hlin.legal, hlin, fun id value hreturned => ?_⟩
  obtain ⟨job, hentry⟩ := hlin.value id _ hreturned
  obtain ⟨log, n', hlog, hresult⟩ := hlin.legal.result hentry
  obtain ⟨task, canceled, hinvoked, hadmits, -⟩ := hlin.invoked id job _ hentry
  cases job with
  | write c => cases hresult
  | read query =>
    cases task with
    | write op => cases hadmits
    | read query' =>
      obtain rfl : query = query' := hadmits
      exact ⟨query, n', hinvoked, keeps_of_replays hstep hn hlog, Answer.value.inj hresult⟩

/-- No call is lost. A call that the controller has taken has its response, or the
controller is at it; one that comes while the controller waits can run to its end. Once
the controller has stopped, every call that is still out can return, and nothing any
caller does changes the node. -/
theorem controller_answers {x : E.Serving ρ I} (h : Run (E.controller ρ) { state := n } x) :
    (∀ id call, x.calls id = some call → call.stage = .waiting → x.writer.view id ≠ none ∨ call.response ≠ none) ∧
    (x.writer = .selecting → x.running = true → ∀ id op, x.calls id = none →
      panicked (E.execute x.state { op := op }).2 = false →
      ∃ y, Run (E.controller ρ) x y ∧ y.state = E.step x.state { op := op } ∧
        .returned id (.value (.status (E.execute x.state { op := op }).2)) ∈ y.trace) ∧
    (x.writer = .stopped →
      (∀ id call, x.calls id = some call → (∀ reply, call.stage ≠ .returned reply) →
        ∃ reply y, Run (E.controller ρ) x y ∧ .returned id reply ∈ y.trace) ∧
      ∀ y, Run (E.controller ρ) x y → y.state = x.state ∧ y.log = x.log) := by
  have hinv := h.inv
  refine ⟨fun id call hcall hwaiting => hinv.taken hcall hwaiting, ?_, fun hstopped => ⟨?_, ?_⟩⟩
  · intro hw hrunning id op hfresh hpanics
    have hadmits : (E.controller ρ).admits (.write op) false (.write { op := op }) := ⟨rfl, nofun, fun _ => rfl⟩
    obtain ⟨y, hrun, hreturned, hstate⟩ := available hw hrunning hfresh hadmits hpanics
    refine ⟨y, hrun, hstate, ?_⟩
    rw [← recovered_eq hpanics]
    exact hreturned
  · intro id call hcall hout
    exact hinv.drains hstopped hcall hout
  · intro y hrun
    exact (hrun.of_stopped hstopped).2

end Env

namespace Reference

/-- The reference node after `Start`. -/
def served : env.Serving Nat Nat :=
  { state := start, running := true, writer := .selecting }

theorem run_served : Run (env.controller Nat) { state := start } served := .single (.start rfl rfl)

/-- A write and a reading are out at the same time. Then a stop cuts a tick off when its block
is committed, which disables writes, and turns a third call away. -/
theorem controller_linearizable_stop : ∃ x : env.Serving Nat Nat,
    Run (env.controller Nat) { state := start } x ∧
    (x.trace.map Event.id = [0, 1, 0, 1, 2, 2] ∧ x.log.map Entry.caller = [some 0, some 1, none] ∧
      .returned 2 .stopped ∈ x.trace ∧ x.state.writeErr = some .canceled) ∧
    env.Reachable x.state ∧ Linearizes (env.controller Nat) start x := by
  let interval : Command := { op := .setIntervalMining second }
  let tick : Command := { op := .intervalTick, ctx := some 1 }
  have h₁ := (run_served.trans (Run.enters 0 (.write interval.op) rfl rfl)).trans
    (Run.enters 1 (.read fun n => n.slot) rfl rfl)
  have h₂ := h₁.trans (Run.serves (M := env.controller Nat) 0 (.write interval) rfl rfl ⟨rfl, nofun, fun _ => rfl⟩
    (by decide +kernel))
  have h₃ := h₂.trans (Run.serves (M := env.controller Nat) 1 (.read fun n => n.slot) rfl rfl rfl rfl)
  have h₄ := (((h₃.trans (Run.enters 2 (.write .minerStop) rfl rfl)).tail (.wake rfl)).tail .stop).tail (.expire rfl)
  have h₅ := (h₄.tail (.own (.write tick) rfl ⟨some 1, rfl, nofun⟩ (by decide +kernel))).tail
    (@Step.refuse _ _ _ _ _ _ _ _ 2 _ rfl rfl rfl)
  have h := Env.controller_linearizable (.start newNode_eq) h₅
  exact ⟨_, h₅, ⟨rfl, rfl, List.mem_append_right _ (List.mem_singleton_self _), by decide +kernel⟩, h.1, h.2.1⟩

/-- A call to a started node, and a node that has stopped. -/
theorem controller_answers_served :
    (∃ x, Run (env.controller Nat) served x ∧
      x.state = env.step start { op := .setFeeRecipient 1 }) ∧
    ∀ y, Run (env.controller Nat) ({ served with stopping := true, writer := .stopped } : env.Serving Nat Nat) y →
      y.state = start := by
  have h := Env.controller_answers run_served
  have hhalted := (run_served.tail .stop).tail (.halt rfl rfl)
  refine ⟨?_, fun y hy => (((Env.controller_answers hhalted).2.2 rfl).2 y hy).1⟩
  obtain ⟨x, hrun, hstate, -⟩ := h.2.1 rfl rfl 0 (.setFeeRecipient 1) rfl (by decide +kernel)
  exact ⟨x, hrun, hstate⟩

end Reference

end Ethertest
