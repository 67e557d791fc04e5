-- SUMMARY: What a node keeps over its moves so that it can be rebuilt from its database.
import Ethertest.Guarantees.Return
import Ethertest.Log.Node
import Ethertest.Refinement.Canonical
import Ethertest.Refinement.Mirror
import Ethertest.Refinement.Roots

/-!
# Nodes that stand on their database

A node keeps its ledger in memory and writes it to the database as it goes. `Standing` is
what makes the two the same: memory and database agree on the metadata, the event log is
the stored one, and the index of Beacon roots follows from the stored projections.
-/

namespace Ethertest

namespace Env

variable {E : Env} {Q : Guard E.geth.State} {n n' : Node E.geth.State}

/-- No checkpoint is marked as used: that mark is for snapshots, and it is not stored. -/
def Unused (n : Node E.geth.State) : Prop :=
  ∀ (name : Bytes) (point : ChainPoint), n.checkpoints[name]? = some point → point.used = false

theorem Unused.of_eq (U : Unused n) (h : n'.checkpoints = n.checkpoints) : Unused n' := by
  intro name point hpoint
  exact U name point (h ▸ hpoint)

theorem unused_commitAuxiliary {put : KV} {events : List Event} {apply : Node E.geth.State → Node E.geth.State}
    (U : Unused n) (h : n.commitAuxiliary [put] [] events apply = .ok n')
    (happly : ∀ db, apply { n with db := db } = { apply n with db := db })
    (hsame : (apply n).checkpoints = n.checkpoints) : Unused n' := by
  obtain ⟨log, batches, hledger⟩ := commitAuxiliary_ledger h happly
  refine U.of_eq ?_
  rw [hledger]
  exact hsame

theorem Move.unused (U : Unused n) (h : E.Move Q n n') : Unused n' := by
  cases h with
  | mine plan commit => exact U.of_eq (samePoints_commitPrepared commit fun _ => samePoints_mineApply).checkpoints
  | control plan commit => exact U.of_eq (samePoints_commitPrepared commit fun _ => ⟨rfl, rfl, rfl⟩).checkpoints
  | branch named plan commit => exact U.of_eq (samePoints_commitPrepared commit fun _ => ⟨rfl, rfl, rfl⟩).checkpoints
  | switch known allowed plan commit =>
    exact U.of_eq (samePoints_commitPrepared commit fun _ => ⟨rfl, rfl, rfl⟩).checkpoints
  | note note =>
    cases note with
    | wait pos bound pending commit => exact unused_commitAuxiliary U commit (fun _ => rfl) rfl
    | issue enqueued pending valid commit => exact unused_commitAuxiliary U commit (fun _ => rfl) rfl
    | fork name_ne allowed fresh found taint commit => exact unused_commitAuxiliary U commit (fun _ => rfl) rfl
    | @checkpoint _ name point head name_ne allowed current here commit =>
      obtain ⟨log, batches, hledger⟩ := commitAuxiliary_ledger commit fun _ => rfl
      intro name' point' hpoint
      rw [hledger] at hpoint
      change (n.checkpoints.insert name point)[name']? = some point' at hpoint
      rw [Store.get_insert] at hpoint
      split at hpoint
      · rw [← Option.some.inj hpoint, here]
        rfl
      · exact U name' point' hpoint
    | snapshot next current here => exact U
    | used known => exact U
    | pause allowed running commit => exact unused_commitAuxiliary U commit (fun _ => rfl) rfl
    | resume allowed paused commit => exact unused_commitAuxiliary U commit (fun _ => rfl) rfl
  | other same => exact U.of_eq (congrArg Ledger.checkpoints same)

/-- The node stands on its database: everything in memory but the snapshots is there too. -/
structure Standing (n : Node E.geth.State) : Prop where
  inv : n.toLedger.Inv E
  mirror : n.toLedger.Mirror E
  logged : n.toLedger.Logged E
  projected : E.Projected n.db
  rooted : Rooted n
  unused : Unused n

/-- A move keeps a node on its database. -/
theorem Move.standing (hE : E.Lawful) (S : Standing n) (h : E.Move Q n n') : Standing n' where
  inv := h.inv hE S.inv
  mirror := h.mirror hE S.inv S.mirror
  logged := h.logged hE S.inv S.logged
  projected := h.projected hE S.inv S.projected
  rooted := h.rooted hE S.inv S.projected S.rooted
  unused := h.unused S.unused

theorem standing_newNode (hE : E.Lawful) (h : E.newNode = .ok n) : Standing n where
  inv := inv_newNode hE h
  mirror := mirror_newNode hE h
  logged := logged_newNode hE h
  projected := projected_newNode hE h
  rooted := rooted_newNode hE h
  unused := by
    obtain ⟨projection, record, -, -, hledger⟩ := newNode_spec h
    intro name point hpoint
    rw [hledger] at hpoint
    simp [freshLedger] at hpoint

end Env

/-! ## What a restart forgets -/

/-- The ledger without what is only in memory. -/
def Ledger.reopened (l : Ledger) : Ledger := { l with snapshots := ∅, nextSnapshot := 0 }

namespace Env

variable {E : Env} {n n' : Node E.geth.State}

private theorem chain_reopened {l : Ledger} {head : Block} (hhead : l.chain.blocks l.chain.head = some head) :
    Chain.Step E l.chain l.reopened.chain := by
  have hpoints : ∀ p ∈ l.reopened.chain.points, p ∈ l.chain.points ∨ p = (l.chain.head, head.number, l.chain.slot) := by
    rintro p (⟨id, point, hpoint, -⟩ | ⟨name, point, hpoint, rfl⟩)
    · simp [Ledger.reopened] at hpoint
    · exact .inl (.inr ⟨name, point, hpoint, rfl⟩)
  exact .point hhead hpoints

private theorem inv_reopened (hE : E.Lawful) {l : Ledger} (I : l.Inv E) : l.reopened.Inv E where
  chain := by
    obtain ⟨head, hcurrent, -⟩ := I.exists_head
    exact I.chain.step hE (chain_reopened (l := l) hcurrent)
  stored := I.stored
  named := I.named

/-- A node with the same ledger but for the snapshots stands on its database as well. -/
theorem Standing.reopened (hE : E.Lawful) (S : Standing n) (h : n'.toLedger = n.toLedger.reopened) : Standing n' where
  inv := by
    rw [h]
    exact inv_reopened hE S.inv
  mirror := by
    rw [h]
    exact mirror_snapshots S.mirror
  logged := by
    rw [h]
    exact S.logged
  projected := by
    rw [h]
    exact S.projected
  rooted := by
    intro root hash
    rw [h]
    exact S.rooted root hash
  unused := S.unused.of_eq (by rw [h]; rfl)

end Env

end Ethertest
