-- SUMMARY: The log tracer of simulations: after a call tree it holds the logs of the frames that did not revert.
import Ethertest.Base.Keyed
import Ethertest.Types

/-!
# Simulation logs

The tracer keeps one list of logs for every open frame. When a frame is left, its list is
appended to the one of the caller, or dropped if the frame reverted. What it holds in the end
is compared with a reading of the call tree: the logs of the frames without a reverted
ancestor, numbered by their place among all that were emitted.
-/

namespace Ethertest

namespace Simulate

/-! ## Hooks -/

def opCallCode : UInt8 := 0xf2

def opDelegateCall : UInt8 := 0xf4

/-- What a tracer is told when a frame is entered. -/
structure Call where
  operation : UInt8
  source : Address
  target : Address
  value : Option Int

/-- The calls of a tracer's hooks. -/
inductive Hook where
  | enter (depth : Nat) (call : Call)
  | exit (depth : Nat) (reverted : Bool)
  | log (log : Log)

/-- A log with its place. -/
structure TracedLog where
  log : Log
  blockNumber : Nat
  blockTimestamp : Nat
  txHash : Hash
  txIndex : Nat
  index : Nat
  deriving DecidableEq

def simulationTransferTopic : Hash := 0xddf252ad1be2c89b69c2b068fc378daa952ba7f163c4a11628f55a4df523b3ef

def simulationTransferAddress : Address := 0xEeeeeEeeeEeEeeEeEeEeeEEEeeeeEeeeeeeeEEeE

structure SimulationTracer where
  /-- one list for every open frame, the innermost last -/
  logs : List (List TracedLog) := []
  count : Nat := 0
  traceTransfers : Bool
  blockNumber : Nat
  blockTimestamp : Nat
  txHash : Hash := 0
  txIndex : Nat := 0

def newSimulationTracer (traceTransfers : Bool) (blockNumber blockTimestamp : Nat) : SimulationTracer :=
  { traceTransfers := traceTransfers, blockNumber := blockNumber, blockTimestamp := blockTimestamp }

/-- The log that stands for a transfer. -/
def transferLog (source target : Address) (value : Int) : Log where
  address := simulationTransferAddress
  topics := [simulationTransferTopic, source, target]
  data := beBytes 32 value.toNat

namespace SimulationTracer

variable (t : SimulationTracer)

/-- A log that a tracer captures now. -/
def traced (log : Log) (index : Nat) : TracedLog :=
  { log := log, blockNumber := t.blockNumber, blockTimestamp := t.blockTimestamp, txHash := t.txHash,
    txIndex := t.txIndex, index := index }

def captureLog (log : Log) : SimulationTracer :=
  match t.logs.getLast? with
  | none => t
  | some top => { t with logs := t.logs.dropLast ++ [top ++ [t.traced log t.count]], count := t.count + 1 }

def captureTransfer (source target : Address) (value : Int) : SimulationTracer :=
  if t.traceTransfers then t.captureLog (transferLog source target value) else t

def onEnter (call : Call) : SimulationTracer :=
  let t := { t with logs := t.logs ++ [[]] }
  match call.value with
  | none => t
  | some value =>
    if call.operation ≠ opDelegateCall ∧ call.operation ≠ opCallCode ∧ 0 < value then
      t.captureTransfer call.source call.target value
    else t

def onExit (depth : Nat) (reverted : Bool) : SimulationTracer :=
  if depth = 0 then
    if reverted ∧ t.logs ≠ [] then { t with logs := t.logs.set 0 [] } else t
  else if t.logs.length < 2 then t
  else
    let logs := t.logs.getLast?.getD []
    let rest := t.logs.dropLast
    if reverted then { t with logs := rest }
    else { t with logs := rest.dropLast ++ [rest.getLast?.getD [] ++ logs] }

def onHook : Hook → SimulationTracer
  | .enter _ call => t.onEnter call
  | .exit depth reverted => t.onExit depth reverted
  | .log log => t.captureLog log

/-- `Reset` -/
def reset (hash : Hash) (index : Nat) : SimulationTracer :=
  { t with logs := [], txHash := hash, txIndex := index }

/-- `Logs` -/
def logsOf : List TracedLog := t.logs.head?.getD []

end SimulationTracer

/-! ## Call trees -/

/-- What happens in a frame: logs, and calls with what happens in them. -/
inductive Body where
  | done
  | log (log : Log) (rest : Body)
  | call (call : Call) (body : Body) (reverted : Bool) (rest : Body)

/-- The hooks of a frame at a depth, in the order in which they are called. -/
def Body.hooks (depth : Nat) : Body → List Hook
  | .done => []
  | .log l rest => .log l :: rest.hooks depth
  | .call c body reverted rest =>
    .enter depth c :: (body.hooks (depth + 1) ++ .exit depth reverted :: rest.hooks depth)

/-- A call that is traced: its transaction and its root frame. -/
structure TracedCall where
  txHash : Hash
  txIndex : Nat
  call : Call
  body : Body
  reverted : Bool

def TracedCall.hooks (c : TracedCall) : List Hook := Body.hooks 0 (.call c.call c.body c.reverted .done)

/-- Trace one call. -/
def SimulationTracer.trace (t : SimulationTracer) (c : TracedCall) : SimulationTracer :=
  c.hooks.foldl SimulationTracer.onHook (t.reset c.txHash c.txIndex)

/-- The logs of calls that are traced one after another. -/
def SimulationTracer.traceAll (t : SimulationTracer) : List TracedCall → List (List TracedLog)
  | [] => []
  | c :: calls => (t.trace c).logsOf :: (t.trace c).traceAll calls

/-! ## What survives -/

/-- The transfer of a call, if it has one and transfers are traced. -/
def Call.transfers (traceTransfers : Bool) (c : Call) : List Log :=
  match c.value with
  | none => []
  | some value =>
    if traceTransfers ∧ c.operation ≠ opDelegateCall ∧ c.operation ≠ opCallCode ∧ 0 < value then
      [transferLog c.source c.target value]
    else []

/-- All that is emitted in a frame, in order, with whether none of the enclosing frames reverted. -/
def Body.emissions (traceTransfers live : Bool) : Body → List (Log × Bool)
  | .done => []
  | .log l rest => (l, live) :: rest.emissions traceTransfers live
  | .call c body reverted rest =>
    (c.transfers traceTransfers).map (fun log => (log, live && !reverted)) ++
      body.emissions traceTransfers (live && !reverted) ++ rest.emissions traceTransfers live

def TracedCall.emissions (traceTransfers : Bool) (c : TracedCall) : List (Log × Bool) :=
  Body.emissions traceTransfers true (.call c.call c.body c.reverted .done)

/-- The live ones of a list of emissions, numbered among all. -/
def SimulationTracer.surviving (t : SimulationTracer) (emissions : List (Log × Bool)) (count : Nat) : List TracedLog :=
  (emissions.zipIdx count).filterMap fun e => if e.1.2 then some (t.traced e.1.1 e.2) else none

/-! ## One frame -/

namespace SimulationTracer

variable {t : SimulationTracer} {stack : List (List TracedLog)} {top : List TracedLog} {count : Nat}

/-- A tracer with other open frames. -/
def withFrames (t : SimulationTracer) (frames : List (List TracedLog)) (count : Nat) : SimulationTracer :=
  { t with logs := frames, count := count }

theorem surviving_nil : t.surviving [] count = [] := rfl

theorem surviving_append (emissions emissions' : List (Log × Bool)) :
    t.surviving (emissions ++ emissions') count =
      t.surviving emissions count ++ t.surviving emissions' (count + emissions.length) := by
  rw [surviving, List.zipIdx_append, List.filterMap_append]
  rfl

theorem surviving_cons (log : Log) (live : Bool) (emissions : List (Log × Bool)) :
    t.surviving ((log, live) :: emissions) count =
      (if live then [t.traced log count] else []) ++ t.surviving emissions (count + 1) := by
  cases live <;> rfl

theorem surviving_dead {emissions : List (Log × Bool)} (h : ∀ e ∈ emissions, e.2 = false) :
    t.surviving emissions count = [] := by
  rw [surviving, List.filterMap_eq_nil_iff]
  rintro ⟨e, i⟩ he
  rw [h e (List.fst_mem_of_mem_zipIdx he)]
  rfl

private theorem captureLog_frames (log : Log) : (t.withFrames (stack ++ [top]) count).captureLog log =
    t.withFrames (stack ++ [top ++ [t.traced log count]]) (count + 1) := by
  simp [captureLog, withFrames, traced]

theorem onEnter_frames (c : Call) : (t.withFrames stack count).onEnter c =
    t.withFrames (stack ++ [t.surviving ((c.transfers t.traceTransfers).map fun log => (log, true)) count])
      (count + (c.transfers t.traceTransfers).length) := by
  unfold onEnter Call.transfers
  cases c.value with
  | none => rfl
  | some value =>
    dsimp only
    by_cases hmoves : c.operation ≠ opDelegateCall ∧ c.operation ≠ opCallCode ∧ 0 < value
    · rw [if_pos hmoves, captureTransfer]
      change (if t.traceTransfers then (t.withFrames (stack ++ [[]]) count).captureLog _
        else t.withFrames (stack ++ [[]]) count) = _
      cases htraced : t.traceTransfers with
      | true =>
        rw [if_pos rfl, if_pos ⟨rfl, hmoves⟩, captureLog_frames]
        rfl
      | false => rfl
    · rw [if_neg hmoves, if_neg fun h => hmoves h.2]
      rfl

theorem onExit_frames (depth : Nat) (reverted : Bool) (logs : List TracedLog) :
    (t.withFrames (stack ++ [top] ++ [logs]) count).onExit (depth + 1) reverted =
      t.withFrames (stack ++ [top ++ if reverted then [] else logs]) count := by
  cases reverted <;> simp [onExit, withFrames]

end SimulationTracer

/-- Whether a frame is reverted decides over all that is emitted in it. -/
theorem Body.emissions_live (traceTransfers live : Bool) (b : Body) :
    b.emissions traceTransfers live = (b.emissions traceTransfers true).map fun e => (e.1, e.2 && live) := by
  induction b generalizing live with
  | done => rfl
  | log l rest ih => rw [emissions, ih, emissions, List.map_cons, Bool.true_and]
  | call c body reverted rest ihbody ihrest =>
    rw [emissions, ihbody, ihrest, emissions, ihbody (true && !reverted)]
    simp only [List.map_append, List.map_map, Bool.true_and, Function.comp_def, Bool.and_assoc, Bool.and_comm live]

/-- All that is emitted in a frame, with its transfer. -/
theorem emissions_frame (traceTransfers reverted : Bool) (c : Call) (b : Body) :
    (c.transfers traceTransfers).map (fun log => (log, !reverted)) ++ b.emissions traceTransfers (!reverted) =
      ((c.transfers traceTransfers).map (fun log => (log, true)) ++ b.emissions traceTransfers true).map
        fun e => (e.1, e.2 && !reverted) := by
  rw [Body.emissions_live _ (!reverted), List.map_append, List.map_map]
  simp only [Function.comp_def, Bool.true_and]

namespace SimulationTracer

variable {t : SimulationTracer} {stack : List (List TracedLog)} {top : List TracedLog} {count : Nat}

/-- Emissions of a frame survive in its caller unless the frame reverted. -/
theorem surviving_reverted (reverted : Bool) (emissions : List (Log × Bool)) :
    t.surviving (emissions.map fun e => (e.1, e.2 && !reverted)) count =
      if reverted then [] else t.surviving emissions count := by
  cases reverted with
  | true => exact surviving_dead (by simp)
  | false => simp

/-- Tracing a frame appends what survives of it to the frame's logs. -/
theorem foldl_hooks (b : Body) (depth : Nat) :
    (b.hooks (depth + 1)).foldl onHook (t.withFrames (stack ++ [top]) count) =
      t.withFrames (stack ++ [top ++ t.surviving (b.emissions t.traceTransfers true) count])
        (count + (b.emissions t.traceTransfers true).length) := by
  induction b generalizing depth stack top count with
  | done => simp [Body.hooks, Body.emissions, surviving_nil]
  | log l rest ih =>
    rw [Body.hooks, List.foldl_cons, onHook, captureLog_frames, ih, Body.emissions, surviving_cons]
    simp [Nat.add_assoc, Nat.add_comm 1]
  | call c body reverted rest ihbody ihrest =>
    rw [Body.hooks, List.foldl_cons, onHook, onEnter_frames, List.foldl_append, ihbody, List.foldl_cons, onHook,
      onExit_frames, ihrest, Body.emissions, Bool.true_and, emissions_frame, surviving_append, surviving_reverted,
      surviving_append]
    simp only [List.length_append, List.length_map, List.append_assoc, Nat.add_assoc]

/-! ## Calls -/

private theorem onExit_root (reverted : Bool) (logs : List TracedLog) :
    (t.withFrames [logs] count).onExit 0 reverted = t.withFrames [if reverted then [] else logs] count := by
  cases reverted <;> rfl

/-- A traced call leaves the logs that survive it. -/
theorem foldl_call (c : TracedCall) : c.hooks.foldl onHook (t.withFrames [] count) =
    t.withFrames [t.surviving (c.emissions t.traceTransfers) count]
      (count + (c.emissions t.traceTransfers).length) := by
  rw [TracedCall.hooks, Body.hooks, List.foldl_cons, onHook, onEnter_frames, List.foldl_append, foldl_hooks,
    List.nil_append, List.foldl_cons, onHook, onExit_root, Body.hooks, List.foldl_nil, TracedCall.emissions,
    Body.emissions, Bool.true_and, emissions_frame, Body.emissions, List.append_nil, surviving_reverted,
    surviving_append]
  simp only [List.length_append, List.length_map, Nat.add_assoc]

private theorem trace_eq (c : TracedCall) : t.trace c = (t.reset c.txHash c.txIndex).withFrames
    [(t.reset c.txHash c.txIndex).surviving (c.emissions t.traceTransfers) t.count]
    (t.count + (c.emissions t.traceTransfers).length) :=
  foldl_call (t := t.reset c.txHash c.txIndex) c

/-- The logs of calls, read off their trees. -/
def expected (t : SimulationTracer) (count : Nat) : List TracedCall → List (List TracedLog)
  | [] => []
  | c :: calls => (t.reset c.txHash c.txIndex).surviving (c.emissions t.traceTransfers) count ::
      t.expected (count + (c.emissions t.traceTransfers).length) calls

/-- What is expected does not depend on the frames and the transaction before. -/
theorem expected_withFrames (hash : Hash) (index : Nat) (frames : List (List TracedLog)) (n : Nat)
    (calls : List TracedCall) :
    ((t.reset hash index).withFrames frames n).expected count calls = t.expected count calls := by
  induction calls generalizing count with
  | nil => rfl
  | cons c calls ih => exact congrArg (List.cons _) ih

theorem traceAll_eq (calls : List TracedCall) : t.traceAll calls = t.expected t.count calls := by
  induction calls generalizing t with
  | nil => rfl
  | cons c calls ih =>
    rw [traceAll, ih, expected, trace_eq, expected_withFrames]
    rfl

/-! ## Indices -/

theorem surviving_index {emissions : List (Log × Bool)} {l : TracedLog} (h : l ∈ t.surviving emissions count) :
    count ≤ l.index ∧ l.index < count + emissions.length := by
  induction emissions generalizing count with
  | nil => cases h
  | cons e emissions ih =>
    rw [surviving_cons, List.mem_append] at h
    rw [List.length_cons]
    rcases h with h | h
    · obtain ⟨-, hl⟩ : e.2 = true ∧ l = t.traced e.1 count := by
        split at h
        · next hlive => exact ⟨hlive, List.mem_singleton.mp h⟩
        · cases h
      have hindex : l.index = count := congrArg TracedLog.index hl
      omega
    · have := ih h
      omega

private theorem surviving_pairwise (emissions : List (Log × Bool)) :
    (t.surviving emissions count).Pairwise fun l l' => l.index < l'.index := by
  induction emissions generalizing count with
  | nil => exact .nil
  | cons e emissions ih =>
    rw [surviving_cons]
    split
    · refine List.pairwise_cons.mpr ⟨fun l hl => ?_, ih⟩
      exact (surviving_index hl).1
    · exact ih

private theorem expected_index {calls : List TracedCall} {l : TracedLog} (h : l ∈ (t.expected count calls).flatten) :
    count ≤ l.index := by
  induction calls generalizing count with
  | nil => cases h
  | cons c calls ih =>
    rw [expected, List.flatten_cons, List.mem_append] at h
    rcases h with h | h
    · exact (surviving_index h).1
    · exact (Nat.le_add_right _ _).trans (ih h)

private theorem expected_pairwise (calls : List TracedCall) :
    (t.expected count calls).flatten.Pairwise fun l l' => l.index < l'.index := by
  induction calls generalizing count with
  | nil => exact .nil
  | cons c calls ih =>
    rw [expected, List.flatten_cons, List.pairwise_append]
    refine ⟨surviving_pairwise _, ih, fun l hl l' hl' => ?_⟩
    exact (surviving_index hl).2.trans_le (expected_index hl')

end SimulationTracer

/-- Simulation logs. Whatever calls a tracer traces one after another, the logs of each are
the ones that were emitted in frames without a reverted ancestor, in order, numbered by their
place among all emissions, and the indices increase over all calls. -/
theorem simulation_logs (t : SimulationTracer) (calls : List TracedCall) :
    t.traceAll calls = t.expected t.count calls ∧
      (t.traceAll calls).flatten.Pairwise fun l l' => l.index < l'.index := by
  rw [SimulationTracer.traceAll_eq]
  exact ⟨rfl, SimulationTracer.expected_pairwise calls⟩

/-- A frame that reverts after a call in it succeeded, and a log after it. -/
def nestedRevert : TracedCall where
  txHash := 1
  txIndex := 0
  call := ⟨0xf1, 1, 2, some 3⟩
  body := .call ⟨0xf1, 2, 3, some 4⟩ (.call ⟨0xf1, 3, 4, none⟩ (.log { address := 4 } .done) false .done) true
    (.log { address := 2 } .done)
  reverted := false

example : ((newSimulationTracer true 7 8).trace nestedRevert).logsOf.map (fun l => (l.log.address, l.index)) =
    [(simulationTransferAddress, 0), (2, 3)] := by decide

end Simulate

end Ethertest
