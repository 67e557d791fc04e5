-- SUMMARY: Snapshots and checkpoints of the chain, and pausing finality.
import Ethertest.Commands.Branch

/-!
# Snapshots, checkpoints and finality

A snapshot or a checkpoint remembers the head and the slot. Going back to one is a
switch of the canonical chain. A snapshot can be used once; a checkpoint is persisted
and stays.
-/

namespace Ethertest

namespace Env

variable (E : Env)

/-- The point of the current head and slot. -/
def pointHere (n : Node E.geth.State) (head : Block) : ChainPoint where
  hash := E.hash head
  number := head.number
  slot := n.slot
  tainted := (n.safetyOf (E.hash head)).tainted

/-- `Snapshot` -/
def snapshot (n : Node E.geth.State) (ctx : Ctx) : Outcome E.geth.State Nat :=
  n.executeWrite ctx fun n ctx => .settle n do
    let head ← n.head
    failIf (n.nextSnapshot = maxUint64) (.new "snapshot ID overflows uint64")
    let id := n.nextSnapshot + 1
    .ok (.done { n with nextSnapshot := id, snapshots := n.snapshots.insert id (E.pointHere n head) } id ctx)

/-- `Revert` -/
def revert (n : Node E.geth.State) (ctx : Ctx) (id : Nat) : Outcome E.geth.State Bool :=
  n.executeWrite ctx fun n ctx =>
    match n.snapshots[id]? with
    | none => .done n false ctx
    | some point =>
      if point.used then .done n false ctx
      else .settle n do
        let target ← orFail (n.db.readBlock point.hash point.number) (.new "snapshot block is unavailable")
        .ok <| (E.switchCanonical n ctx target point.slot).andThen fun n _ ctx =>
          .done { n with snapshots := n.snapshots.insert id { point with used := true } } true ctx

/-- `Checkpoint` -/
def checkpoint (n : Node E.geth.State) (ctx : Ctx) (name : Bytes) : Outcome E.geth.State Unit :=
  .settle n do
    failIf (name = []) (.new "checkpoint name is required")
    .ok <| n.executeWrite ctx fun n ctx => .settle n do
      let head ← n.head
      let point := E.pointHere n head
      let n ← n.commitAuxiliary [checkpointPut name point] [] [] fun n =>
        { n with checkpoints := n.checkpoints.insert name point }
      .ok (.done n () ctx)

/-- `Restore` -/
def restore (n : Node E.geth.State) (ctx : Ctx) (name : Bytes) : Outcome E.geth.State Unit :=
  n.executeWrite ctx fun n ctx => .settle n do
    let point ← orFail n.checkpoints[name]? (.errorf "checkpoint %q not found" [.bytes name])
    let target ← orFail (n.db.readBlock point.hash point.number) (.new "checkpoint block is unavailable")
    .ok (E.switchCanonical n ctx target point.slot)

/-! ## Finality -/

/-- `PauseFinality` -/
def pauseFinality (n : Node E.geth.State) (ctx : Ctx) : Outcome E.geth.State Unit :=
  n.executeWrite ctx fun n ctx =>
    if n.finalityPaused then .done n () ctx
    else .settle n do
      let timeline := { n.timeline E with finalityPaused := true, finalitySlot := n.slot }
      let n ← n.commitAuxiliary [timelinePut timeline] [] [] fun n =>
        { n with finalityPaused := true, finalitySlot := n.slot }
      .ok (.done n () ctx)

/-- `ResumeFinality` -/
def resumeFinality (n : Node E.geth.State) (ctx : Ctx) : Outcome E.geth.State Unit :=
  n.executeWrite ctx fun n ctx =>
    if !n.finalityPaused then .done n () ctx
    else .settle n do
      let finalitySlot := min n.slot n.finalitySlot
      let previous := n.resolveSyntheticFinalityAt E finalitySlot
      let next := n.resolveSyntheticFinalityAt E n.slot
      let timeline := { n.timeline E with finalityPaused := false, finalitySlot := 0 }
      let n ← n.commitAuxiliary [timelinePut timeline] []
        (Ledger.finalizedEventForTransition E previous next) fun n =>
          { n with finalityPaused := false, finalitySlot := 0 }
      .ok (.done n () ctx)

end Env

end Ethertest
