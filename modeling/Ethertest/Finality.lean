-- SUMMARY: Synthetic finality: the safe and finalized blocks of a slot, and the event for a new finalized block.
import Ethertest.Node

/-!
# Synthetic finality

The safe and the finalized block trail the observer slot by one and two epochs. Pausing
finality freezes the observer slot.
-/

namespace Ethertest

structure FinalityResolution where
  headSlot : Nat
  safeSlot : Nat
  finalizedSlot : Nat
  safe : Block
  finalized : Block

def subtractSlots (slot lag : Nat) : Nat :=
  if slot ≤ lag then 0 else slot - lag

namespace Ledger

variable (E : Env) (l : Ledger)

/-- The canonical block that the slot index names at a slot. -/
def indexedBlock (slot : Nat) : Option Block :=
  l.canonicalBlockBySlot[slot]?.bind fun hash =>
    (l.db.blockByHash hash).filter fun b => l.db.canonicalHash b.number = hash

def blockAtOrBeforeSlot : Nat → Block
  | 0 => (l.indexedBlock 0).getD E.genesis.block
  | slot + 1 => (l.indexedBlock (slot + 1)).getD (blockAtOrBeforeSlot slot)

def syntheticFinalitySlot (headSlot : Nat) : Nat :=
  if l.finalityPaused ∧ l.finalitySlot < headSlot then l.finalitySlot else headSlot

def resolveSyntheticFinalityAt (headSlot : Nat) : FinalityResolution :=
  let safeSlot := subtractSlots headSlot E.cfg.chain.slotsPerEpoch
  let finalizedSlot := subtractSlots headSlot (2 * E.cfg.chain.slotsPerEpoch % 2 ^ 64)
  { headSlot := headSlot, safeSlot := safeSlot, finalizedSlot := finalizedSlot,
    safe := l.blockAtOrBeforeSlot E safeSlot, finalized := l.blockAtOrBeforeSlot E finalizedSlot }

def resolveSyntheticFinality (headSlot : Nat) : FinalityResolution :=
  l.resolveSyntheticFinalityAt E (l.syntheticFinalitySlot headSlot)

/-- What `FinalityStatus` reports. -/
structure Status where
  paused : Bool
  currentSlot : Nat
  finalitySlot : Nat
  safeSlot : Nat
  safeBlockHash : Hash
  safeBlockNumber : Nat
  finalizedSlot : Nat
  finalizedBlockHash : Hash
  finalizedBlockNumber : Nat
  consensusMode : String

/-- The report of a resolution. -/
def statusOf (resolution : FinalityResolution) : Status where
  paused := l.finalityPaused
  currentSlot := l.slot
  finalitySlot := resolution.headSlot
  safeSlot := resolution.safeSlot
  safeBlockHash := E.hash resolution.safe
  safeBlockNumber := resolution.safe.number
  finalizedSlot := resolution.finalizedSlot
  finalizedBlockHash := E.hash resolution.finalized
  finalizedBlockNumber := resolution.finalized.number
  consensusMode := "synthetic"

/-- `FinalityStatus` -/
def finalityStatus : Status :=
  let finalitySlot := if !l.finalityPaused ∨ l.slot < l.finalitySlot then l.slot else l.finalitySlot
  l.statusOf E (l.resolveSyntheticFinalityAt E finalitySlot)

/-- `beaconBlockFinalized` -/
def beaconBlockFinalized (b : Block) : Bool :=
  if l.db.canonicalHash b.number ≠ E.hash b then false
  else l.slotOf E b ≤ (l.resolveSyntheticFinality E l.slot).finalizedSlot

/-- The `finalized_checkpoint` event of a transition, if the finalized block or its epoch
changes. -/
def finalizedEventForTransition (previous next : FinalityResolution) : List Event :=
  let epoch (r : FinalityResolution) := r.finalizedSlot / E.cfg.chain.slotsPerEpoch
  if E.hash previous.finalized = E.hash next.finalized ∧ epoch previous = epoch next then []
  else
    [{ type := .finalizedCheckpoint, slot := next.finalizedSlot, blockHash := E.hash next.finalized,
       blockNumber := next.finalized.number }]

def finalizedEventBetween (fromSlot toSlot : Nat) : List Event :=
  finalizedEventForTransition E (l.resolveSyntheticFinality E fromSlot)
    (l.resolveSyntheticFinality E toSlot)

end Ledger

end Ethertest
