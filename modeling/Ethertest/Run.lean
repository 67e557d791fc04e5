-- SUMMARY: All public write operations as one step function, and the states that runs of them reach.
import Ethertest.Metadata
import Ethertest.Commands.Control
import Ethertest.Commands.Points
import Ethertest.Commands.Pool

/-!
# Runs

The controller executes one operation after the other, so a run of a node is a sequence
of operations, each with its caller's context. A failed operation is a step as well: it
may have changed the node.
-/

namespace Ethertest

/-- The public write operations, and the tick of the interval miner. -/
inductive Op where
  | sendTransaction (tx : Transaction)
  | mine (count : Nat) (empty : Bool)
  | mineCompatible (count : Nat) (timestamp interval : Option Nat)
  | missSlots (count : Nat)
  | applyControl (changes : ControlChanges)
  | addWithdrawal (request : WithdrawalRequest)
  | addDepositRequest (request : ExecutionDepositRequest)
  | addWithdrawalRequest (request : ExecutionWithdrawalRequest)
  | addConsolidationRequest (request : ExecutionConsolidationRequest)
  | setFeeRecipient (address : Address)
  | setAutomine (enabled : Bool)
  | setIntervalMining (interval : Int)
  | minerStart
  | minerStop
  | dropTransaction (hash : Hash)
  | dropAllTransactions
  | removePoolTransactions (address : Address)
  | createBranch (name : Bytes) (blockNumber : Nat)
  | mineBranch (name : Bytes) (count : Nat)
  | switchBranch (name : Bytes)
  | snapshot
  | revert (id : Nat)
  | checkpoint (name : Bytes)
  | restore (name : Bytes)
  | pauseFinality
  | resumeFinality
  | intervalTick

/-- An operation and the context it is called with. -/
structure Command where
  op : Op
  ctx : Ctx := Ctx.background

/-- The node after an operation, and whether the operation succeeded. -/
def Outcome.status {σ α : Type} (o : Outcome σ α) : Node σ × Except Error Unit :=
  (o.node, o.result.map fun _ => ())

namespace Env

variable (E : Env)

/-- Execute one operation. -/
def execute (n : Node E.geth.State) (c : Command) : Node E.geth.State × Except Error Unit :=
  match c.op with
  | .sendTransaction tx => (E.sendTransaction n c.ctx tx).status
  | .mine count empty => (E.mine n c.ctx count empty).status
  | .mineCompatible count timestamp interval => (E.mineCompatible n c.ctx count timestamp interval).status
  | .missSlots count => (E.missSlots n c.ctx count).status
  | .applyControl changes => (E.applyControl n c.ctx changes).status
  | .addWithdrawal request => (E.addWithdrawal n c.ctx request).status
  | .addDepositRequest request => (E.addDepositRequest n c.ctx request).status
  | .addWithdrawalRequest request => (E.addWithdrawalRequest n c.ctx request).status
  | .addConsolidationRequest request => (E.addConsolidationRequest n c.ctx request).status
  | .setFeeRecipient address => (E.setFeeRecipient n c.ctx address).status
  | .setAutomine enabled => (E.setAutomine n c.ctx enabled).status
  | .setIntervalMining interval => (E.setIntervalMining n c.ctx interval).status
  | .minerStart => (E.minerStart n c.ctx).status
  | .minerStop => (E.minerStop n c.ctx).status
  | .dropTransaction hash => (E.dropTransaction n c.ctx hash).status
  | .dropAllTransactions => (E.dropAllTransactions n c.ctx).status
  | .removePoolTransactions address => (E.removeAccountTransactions n c.ctx address).status
  | .createBranch name blockNumber => (E.createBranch n c.ctx name blockNumber).status
  | .mineBranch name count => (E.mineBranch n c.ctx name count).status
  | .switchBranch name => (E.switchBranch n c.ctx name).status
  | .snapshot => (E.snapshot n c.ctx).status
  | .revert id => (E.revert n c.ctx id).status
  | .checkpoint name => (E.checkpoint n c.ctx name).status
  | .restore name => (E.restore n c.ctx name).status
  | .pauseFinality => (E.pauseFinality n c.ctx).status
  | .resumeFinality => (E.resumeFinality n c.ctx).status
  | .intervalTick => (E.intervalTick n c.ctx).status

/-- The node after one operation, whether it succeeded or failed. -/
def step (n : Node E.geth.State) (c : Command) : Node E.geth.State := (E.execute n c).1

/-- The nodes that a fresh node reaches by operations that each meet a condition on the
node before it. -/
inductive ReachableBy (P : Node E.geth.State → Command → Prop) : Node E.geth.State → Prop
  | start {n : Node E.geth.State} : E.newNode = .ok n → ReachableBy P n
  | step {n : Node E.geth.State} {c : Command} :
    ReachableBy P n → P n c → ReachableBy P (E.step n c)

/-- The nodes that a fresh node reaches by any operations. -/
abbrev Reachable : Node E.geth.State → Prop := E.ReachableBy fun _ _ => True

theorem ReachableBy.reachable {P : Node E.geth.State → Command → Prop} {n : Node E.geth.State}
    (h : E.ReachableBy P n) : E.Reachable n := by
  induction h with
  | start h => exact .start h
  | step _ _ ih => exact .step ih trivial

end Env

end Ethertest
