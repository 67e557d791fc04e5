-- SUMMARY: The clock of every reachable node: slots of blocks, their order, the slot index and the current slot.
import Ethertest.Reference
import Ethertest.Refinement.Canonical

/-!
# The timeline of reachable nodes

What the in-memory slot metadata of a node means, in terms of the stored blocks.
-/

namespace Ethertest

/-- The slot metadata in memory agrees with the stored blocks. -/
structure Ledger.TimelineCoherent (E : Env) (l : Ledger) : Prop where
  /-- the blocks with a slot are the stored ones -/
  known : ∀ h, l.slotByHash[h]?.isSome ↔ (l.db.blockByHash h).isSome
  /-- a block's slot is the slot of its timestamp, without remainder -/
  slot : ∀ {h b}, l.db.blockByHash h = some b →
    E.genesisTime ≤ b.time ∧ (b.time - E.genesisTime) % E.slotDuration = 0 ∧
      l.slotByHash[h]? = some ((b.time - E.genesisTime) / E.slotDuration)
  /-- it is the slot of the block's Beacon projection -/
  projection : ∀ {h b}, l.db.blockByHash h = some b →
    ∃ p, l.db.get (.projection h) = some (.projection p) ∧ l.slotByHash[h]? = some p.slot
  /-- and the one in its header, where Amsterdam is active -/
  slotNumber : ∀ {h b}, l.db.blockByHash h = some b → b ≠ E.genesis.block →
    E.geth.isAmsterdam E.config b.number b.time → b.header.slotNumber = l.slotByHash[h]?
  /-- slots grow along every parent link -/
  increasing : ∀ {h b}, l.db.blockByHash h = some b → b ≠ E.genesis.block →
    ∃ p slot parentSlot, l.db.blockByHash b.parentHash = some p ∧ l.slotByHash[h]? = some slot ∧
      l.slotByHash[b.parentHash]? = some parentSlot ∧ parentSlot < slot
  /-- the index holds the canonical blocks at their slots -/
  indexed : ∀ slot h, l.canonicalBlockBySlot[slot]? = some h ↔
    ∃ b ∈ l.db.canonicalLine, E.hash b = h ∧ l.slotByHash[h]? = some slot
  /-- the clock is not behind the head -/
  clock : ∃ head slot, l.db.currentBlock = some head ∧ l.slotByHash[E.hash head]? = some slot ∧ slot ≤ l.slot
  processed : l.slot = l.lastProcessedSlot

namespace Ledger

variable {E : Env} {l : Ledger}

theorem Inv.timelineCoherent (I : l.Inv E) : l.TimelineCoherent E := by
  have W := I.chain.wellFormed
  have T := I.chain.timeline
  have hslot {h : Hash} {b : Block} (hb : l.db.blockByHash h = some b) :
      l.chain.Mem E b ∧ E.hash b = h ∧ l.slotByHash[h]? = some (E.slotAt b.time) := by
    obtain ⟨hmem, rfl⟩ := W.mem_of_blocks hb
    exact ⟨hmem, rfl, T.slots hmem⟩
  obtain ⟨head, hcurrent, hhead⟩ := I.exists_head
  refine
    { known := W.slots
      slot := fun hb => ?_
      projection := fun {h b} hb => ?_
      slotNumber := fun hb hne hactive => ?_
      increasing := fun hb hne => ?_
      indexed := fun slot h => ?_
      clock := ⟨head, _, hcurrent, T.slots hhead.1, T.now hhead⟩
      processed := T.processed.symm }
  · obtain ⟨hmem, -, hget⟩ := hslot hb
    have hexact := T.exact hmem
    refine ⟨by omega, ?_, hget⟩
    rw [hexact, Nat.add_sub_cancel_left, Nat.mul_mod_left]
  · obtain ⟨hmem, rfl, hget⟩ := hslot hb
    obtain ⟨p, hp⟩ := Option.isSome_iff_exists.mp ((W.projections (E.hash b)).mpr (Option.isSome_of_mem hmem))
    refine ⟨p, ?_, by rw [hget, T.projections hmem hp]⟩
    change l.db.projection (E.hash b) = some p at hp
    unfold Db.projection at hp
    split at hp
    · next hstored => rw [hstored, Option.some.inj hp]
    · cases hp
  · obtain ⟨hmem, -, hget⟩ := hslot hb
    rw [hget]
    exact T.slotNumber hmem hne hactive
  · obtain ⟨hmem, -, hget⟩ := hslot hb
    obtain ⟨p, hparent, -⟩ := W.tree.parent_of_ne _ hmem hne
    obtain ⟨-, -, hgetParent⟩ := hslot (h := _) hparent
    exact ⟨p, _, _, hparent, hget, hgetParent, T.increasing hmem hne hparent⟩
  · rw [canonicalLine_eq hcurrent]
    refine (T.index hhead slot h).trans (exists_congr fun b => and_congr_right fun hb => and_congr_right ?_)
    rintro rfl
    have hget : l.slotByHash[E.hash b]? = some (E.slotAt b.time) := T.slots (W.tree.mem_of_mem_line hhead.1 hb)
    rw [hget, Option.some.injEq]

end Ledger

/-- The timeline of every reachable node is coherent. -/
theorem reachable_timelineCoherent {E : Env} (hE : E.Lawful) {n : Node E.geth.State} (h : E.Reachable n) :
    n.toLedger.TimelineCoherent E :=
  (h.inv hE).timelineCoherent

theorem reachable_timelineCoherent_reference :
    (Reference.run [⟨.missSlots 2, none⟩, ⟨.mine 1 false, none⟩]).toLedger.TimelineCoherent Reference.env :=
  reachable_timelineCoherent Reference.lawful (Reference.reachable_run _)

end Ethertest
