-- SUMMARY: The index from Beacon roots to execution blocks is the inverse of the stored projections.
import Ethertest.Refinement.Start

/-!
# The index of Beacon roots

A node keeps the execution block of every Beacon root in memory. A block that is stored is
entered under the root of its projection, and a root that belongs to another block is
refused, so the index is always the inverse of the projections in the database.
-/

namespace Ethertest

namespace Env

variable {E : Env} {Q : Guard E.geth.State} {n n' : Node E.geth.State}

/-- The index holds the root of every stored projection, and nothing else. -/
def Rooted (n : Node E.geth.State) : Prop := n.beaconBlockByRoot.Inverse n.db.projection StoredProjection.root

/-- A block is entered in the index and in the database. -/
structure Enters (n n' : Node E.geth.State) (x : Extension) : Prop where
  projections : ∀ h, n'.db.get (.projection h) =
    if x.hash E = h then some (.projection x.projection) else n.db.get (.projection h)
  index : n'.beaconBlockByRoot = n.beaconBlockByRoot.insert x.projection.root (x.hash E)

/-- A change that leaves the index and the projections alone. -/
structure Leaves (n n' : Node E.geth.State) : Prop where
  projections : ∀ h, n'.db.get (.projection h) = n.db.get (.projection h)
  index : n'.beaconBlockByRoot = n.beaconBlockByRoot

/-- A move enters a planned block, or leaves the index alone. -/
theorem Move.enters (hE : E.Lawful) (I : n.toLedger.Inv E) (h : E.Move Q n n') :
    (∃ x changes, Planning E n x changes ∧ Enters n n' x) ∨ Leaves n n' := by
  have W := I.chain.wellFormed
  cases h with
  | @mine _ _ _ x plan commit =>
    have p := planMine_spec hE W plan
    obtain ⟨-, events, hplan, applied, rfl, rfl⟩ := commitPrepared_spec commit
    refine .inl ⟨x, none, .mine plan, ?_, ?_⟩
    · intro h
      rw [mineApply_db.1]
      exact (records_mine hE W p hplan).projections h
    · simp only [mineApply]
      split <;> rfl
  | @control _ _ changes x plan commit =>
    have p := planControl_spec hE W plan
    obtain ⟨-, events, hplan, applied, rfl, rfl⟩ := commitPrepared_spec commit
    exact .inl ⟨x, some changes, .control plan, (records_control hE W p hplan).projections, rfl⟩
  | @branch _ _ _ item x named plan commit =>
    have p := planBranch_spec hE W plan
    obtain ⟨-, events, hplan, applied, rfl, rfl⟩ := commitPrepared_spec commit
    exact .inl ⟨x, none, .branch plan, (records_branch hE p hplan).projections, rfl⟩
  | switch known allowed plan commit =>
    obtain ⟨hmem, -⟩ := switch_target W known
    obtain ⟨-, rfl, rfl, -⟩ := planSwitch_spec plan
    obtain ⟨-, events, hplan, applied, rfl, rfl⟩ := commitPrepared_spec commit
    exact .inr ⟨fun h => get_switch hE W hmem hplan rfl (by simp), rfl⟩
  | note note => exact .inr ⟨fun _ => note.aside.get rfl, note.aside.roots⟩
  | other same => exact .inr ⟨fun _ => by rw [same], by rw [same]⟩

/-- A root that a projection may take is free, or is the block's own. -/
theorem projectionPut_index {block : Block} {requests : Option ExecutionRequests} {p : StoredProjection} {h : Hash}
    (hput : E.projectionPut n block requests = .ok p) (hindex : n.beaconBlockByRoot[p.root]? = some h) :
    h = E.hash block := by
  simp only [projectionPut, Except.do_ok_iff] at hput
  obtain ⟨record, -, hput⟩ := hput
  split at hput
  · next previous hprevious =>
    simp only [Except.do_ok_iff, failIf_eq_ok, not_not, Except.ok.injEq, exists_const] at hput
    obtain ⟨hown, rfl⟩ := hput
    rw [hprevious, Option.some.injEq] at hindex
    exact hindex.symm.trans hown
  · next hnone =>
    rw [← Except.ok.inj hput, hnone] at hindex
    cases hindex

/-- Every move keeps the index the inverse of the projections. -/
theorem Move.rooted (hE : E.Lawful) (I : n.toLedger.Inv E) (P : E.Projected n.db) (R : Rooted n)
    (h : E.Move Q n n') : Rooted n' := by
  rcases h.enters hE I with ⟨x, changes, planning, hprojections, hindex⟩ | ⟨hprojections, hindex⟩
  · have hput := planning.projection
    have hnew : n'.db.projection = fun h => if h = x.hash E then some x.projection else n.db.projection h := by
      funext h
      rw [Db.projection, hprojections]
      by_cases heq : h = x.hash E
      · rw [if_pos heq.symm, if_pos heq]
      · rw [if_neg (Ne.symm heq), if_neg heq]
        rfl
    rw [Rooted, hindex, hnew]
    refine R.insert (fun p hp => ?_) fun h => projectionPut_index hput
    -- the block's old projection has the same root
    have hget := Db.projection_eq_some.mp hp
    exact (projectionRecord_root (projectionPut_ok hput) (loadProjection_eq_some.mpr ⟨hget, P _ _ hget⟩)).symm
  · rw [Rooted, hindex, Db.projection_congr hprojections]
    exact R

theorem rooted_newNode (hE : E.Lawful) (h : E.newNode = .ok n) : Rooted n := by
  obtain ⟨projection, record, -, -, hledger⟩ := newNode_spec h
  rw [Rooted, hledger]
  simp only [funext (startDb_projection hE)]
  exact Store.inverse_empty.insert nofun (by simp)

end Env

end Ethertest
