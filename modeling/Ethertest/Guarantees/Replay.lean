-- SUMMARY: The event stream of every reachable node: folded over a stack it gives the canonical chain.
import Ethertest.Guarantees.Timeline
import Ethertest.Log.Node

/-!
# Replaying the events of reachable nodes

The emitted events carry consecutive revisions. A subscriber that folds them over a stack
never pushes on anything but the parent, never pops another block, and ends with the
canonical chain.
-/

namespace Ethertest

open Window (Numbered)

/-- The parent of a stored block, by hash. -/
def Db.parentOf (db : Db) (h : Hash) : Option Hash := (db.blockByHash h).map Block.parentHash

/-- The emitted events replay to the canonical chain. -/
structure Ledger.ReplaysToCanonical (E : Env) (l : Ledger) : Prop where
  /-- the events in the order of their revisions -/
  revisions : Numbered Event.revision 1 l.emitted
  /-- from the genesis to the head, the head on top -/
  stack : replayFrom l.db.parentOf [E.genesisHash] l.emitted = some (l.db.canonicalLine.map E.hash)
  /-- a reorganisation is announced by the batch of its switch -/
  reorg : ∀ {before batch after}, l.history.batches = before ++ batch :: after →
    ∀ e ∈ batch, e.type = .chainReorg → ∃ stack stack',
      replayFrom l.db.parentOf [E.genesisHash] before.flatten = some stack ∧
      replayFrom l.db.parentOf stack batch = some stack' ∧
      stack.head? = some e.oldHead ∧ stack'.head? = some e.newHead ∧ e.depth = (batch.filter (·.removed)).length

/-- The events of every reachable node replay to its canonical chain. -/
theorem reachable_replaysToCanonical {E : Env} (hE : E.Lawful) {n : Node E.geth.State} (h : E.Reachable n) :
    n.toLedger.ReplaysToCanonical E := by
  have I := h.inv hE
  obtain ⟨head, hcurrent, hhead⟩ := I.exists_head
  refine ⟨(h.retains hE).2.numbered, ?_, I.chain.replay.reorg⟩
  rw [Ledger.canonicalLine_eq hcurrent]
  exact I.chain.replay.stack hhead

theorem reachable_replaysToCanonical_reference :
    (Reference.run [⟨.snapshot, none⟩, ⟨.mine 2 false, none⟩, ⟨.revert 1, none⟩]).toLedger.ReplaysToCanonical
      Reference.env :=
  reachable_replaysToCanonical Reference.lawful (Reference.reachable_run _)

end Ethertest
