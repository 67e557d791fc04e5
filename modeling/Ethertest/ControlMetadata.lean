-- SUMMARY: Checkpoints and branches at start: reading them back and checking them against the chain.
import Ethertest.Metadata

/-!
# Checkpoints and branches at start

`loadControlMetadata` reads the checkpoints and branches of an existing store, and
`validateControlMetadata` compares them with the execution chain, the slots and the safety
records. The source goes over its maps in no particular order; here it is the order of the
names.
-/

namespace Ethertest

/-! ## Loading -/

/-- The entries under `ethertest/checkpoint/` -/
def loadCheckpoints : Db → Except Error (Store Bytes ChainPoint) :=
  loadIndex (fun | .checkpoint name => some name | _ => none) fun name value =>
    match value with
    | .point stored => do
      failIf (name = []) (.new "decode checkpoint metadata: empty name")
      .ok { hash := stored.hash, number := stored.number, slot := stored.slot, tainted := stored.tainted }
    | _ => .error (.new "decode checkpoint metadata")

/-- The entries under `ethertest/branch/` -/
def loadBranches : Db → Except Error (Store Bytes Branch) :=
  loadIndex (fun | .branch name => some name | _ => none) fun name value =>
    match value with
    | .branch stored => do
      failIf (name = [] ∨ stored.name ≠ name)
        (.errorf "decode branch metadata: inconsistent name %q" [.bytes name])
      .ok { name := stored.name, base := stored.base, head := stored.head, tainted := stored.tainted }
    | _ => .error (.new "decode branch metadata")

/-- `loadControlMetadata` -/
def loadControlMetadata (db : Db) : Except Error (Store Bytes ChainPoint × Store Bytes Branch) := do
  let checkpoints ← loadCheckpoints db
  let branches ← loadBranches db
  .ok (checkpoints, branches)

/-! ## Validation -/

namespace Ledger

variable (E : Env) (l : Ledger)

/-- The checks of one checkpoint. -/
def validateCheckpoint (name : Bytes) (point : ChainPoint) : Except Error Unit := do
  failIf (l.db.readBlock point.hash point.number = none)
    (.errorf "checkpoint %q references missing execution block %s" [.bytes name, .hash point.hash])
  failIf (¬ ∃ slot ∈ l.slotByHash[point.hash]?, slot ≤ point.slot)
    (.errorf "checkpoint %q has inconsistent slot metadata" [.bytes name])
  failIf (¬ ∃ safety ∈ l.blockSafety[point.hash]?, safety.tainted = point.tainted)
    (.errorf "checkpoint %q has inconsistent safety metadata" [.bytes name])

/-- The walk from a branch's head down to its base. The number falls with every round, so
the head's number bounds the rounds. -/
def validateLineage (name : Bytes) (base : Block) : Nat → Block → Except Error Unit
  | 0, block =>
    failIf (E.hash block ≠ E.hash base) (.errorf "branch %q head does not descend from its base" [.bytes name])
  | rounds + 1, block =>
    if E.hash block = E.hash base then .ok ()
    else do
      failIf (block.number = 0 ∨ block.number ≤ base.number)
        (.errorf "branch %q head does not descend from its base" [.bytes name])
      match l.slotByHash[E.hash block]?, l.db.readBlock block.parentHash (block.number - 1) with
      | some blockSlot, some parent => do
        failIf (blockSlot ≤ l.slotByHash[E.hash parent]?.getD 0)
          (.errorf "branch %q has inconsistent lineage metadata" [.bytes name])
        validateLineage name base rounds parent
      | _, _ => .error (.errorf "branch %q has inconsistent lineage metadata" [.bytes name])

/-- The checks of one branch. -/
def validateBranch (name : Bytes) (item : Branch) : Except Error Unit := do
  let base ← orFail (l.db.blockByHash item.base)
    (.errorf "branch %q references missing base block %s" [.bytes name, .hash item.base])
  let head ← orFail (l.db.blockByHash item.head)
    (.errorf "branch %q references missing head block %s" [.bytes name, .hash item.head])
  l.validateLineage E name base head.number head
  failIf (¬ ∃ safety ∈ l.blockSafety[item.head]?, safety.tainted = item.tainted)
    (.errorf "branch %q has inconsistent safety metadata" [.bytes name])

/-- `validateControlMetadata` -/
def validateControlMetadata (checkpoints : Store Bytes ChainPoint) (branches : Store Bytes Branch) :
    Except Error Unit := do
  checkpoints.toList.forM fun entry => l.validateCheckpoint entry.1 entry.2
  branches.toList.forM fun entry => l.validateBranch E entry.1 entry.2

end Ledger

end Ethertest
