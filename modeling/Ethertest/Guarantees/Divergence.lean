-- SUMMARY: The paths of a reorganization: in every rooted block tree they lead to the lowest common ancestor.
import Ethertest.Base.Divergence
import Ethertest.Guarantees.Switching

/-!
# Divergent paths

The walk that prepares a switch reads ancestors by hash from the database. On any tree of stored
blocks it ends, and the two paths are what separates the blocks from their lowest common
ancestor. The stored blocks of a reachable node are such a tree.
-/

namespace Ethertest

open Ancestry

/-- Blocks that are stored under their hashes and form a tree. Other blocks may be stored too. -/
structure Env.BlockTree (E : Env) (db : Db) (mem : Block → Prop) (root : Block) : Prop where
  root_mem : mem root
  stored : ∀ b, mem b → db.blockByHash (E.hash b) = some b
  parent : ∀ b, mem b → b ≠ root → ∃ p, mem p ∧ E.hash p = b.parentHash ∧ b.number = p.number + 1

namespace Env.BlockTree

variable {E : Env} {db : Db} {mem : Block → Prop} {root : Block} (T : E.BlockTree db mem root)
include T

private theorem rootedTree : RootedTree db.parent Block.number mem root where
  root_mem := T.root_mem
  parent_of_ne := by
    intro b hb hne
    obtain ⟨p, hp, hhash, hnum⟩ := T.parent b hb hne
    exact ⟨p, by rw [Db.parent, ← hhash, T.stored p hp], hp, hnum⟩

/-- A hash names one block of the tree. -/
theorem hash_eq_iff {a b : Block} (ha : mem a) (hb : mem b) : E.hash a = E.hash b ↔ a = b := by
  refine ⟨fun h => ?_, fun h => by rw [h]⟩
  have hstored := T.stored a ha
  rw [h, T.stored b hb] at hstored
  exact (Option.some.inj hstored).symm

end Env.BlockTree

/-- On every pair of blocks of a tree, the walk ends. Its paths are disjoint chains of parent
links that start at the blocks and lead to their lowest common ancestor, and a path is empty
exactly if its block is an ancestor of the other. -/
theorem divergentPaths_exact {E : Env} {db : Db} {mem : Block → Prop} {root : Block} (T : E.BlockTree db mem root)
    {a b : Block} (ha : mem a) (hb : mem b) :
    ∃ oldPath newPath c, E.divergentPaths db a b = .ok (oldPath, newPath) ∧
      LowestCommonAncestor db.parent root a b c ∧ Path db.parent root oldPath a c ∧
      Path db.parent root newPath b c ∧ oldPath.Disjoint newPath ∧
      (oldPath = [] ↔ Ancestor db.parent root a b) ∧ (newPath = [] ↔ Ancestor db.parent root b a) := by
  have hsame (a b : Block) (ha : mem a) (hb : mem b) : decide (E.hash a = E.hash b) = true ↔ a = b := by
    rw [decide_eq_true_iff, T.hash_eq_iff ha hb]
  obtain ⟨oldPath, newPath, c, hpaths, hrest⟩ := T.rootedTree.tree.divergentPaths_lowest hsame ha hb
  refine ⟨oldPath, newPath, c, ?_, hrest⟩
  rw [Env.divergentPaths, orFail_eq_ok]
  exact T.rootedTree.divergentPaths_shift ha hb hpaths

/-- The stored blocks of a reachable node are a tree under the genesis. -/
theorem Env.Reachable.blockTree {E : Env} (hE : E.Lawful) {n : Node E.geth.State} (h : E.Reachable n) :
    E.BlockTree n.db (n.chain.Mem E) E.genesis.block := by
  have W := (h.inv hE).chain.wellFormed
  refine ⟨W.tree.root_mem, fun b hb => hb, fun b hb hne => ?_⟩
  obtain ⟨p, hp, hpm, hnum⟩ := W.tree.parent_of_ne b hb hne
  exact ⟨p, hpm, (W.mem_of_blocks hp).2, hnum⟩

namespace Reference

def forked : Node env.geth.State :=
  run [⟨.createBranch [97] 0, none⟩, ⟨.mineBranch [97] 1, none⟩, ⟨.mine 1 true, none⟩]

/-- The canonical head and the head of the branch. -/
def heads : Option (Block × Block) := do
  let a ← forked.db.currentBlock
  let branch ← forked.branches[([97] : Bytes)]?
  let b ← forked.db.blockByHash branch.head
  some (a, b)

set_option maxRecDepth 100000 in
/-- A canonical block and a block of a branch, both on the genesis. -/
theorem divergentPaths_exact_reference : ∃ a b, heads = some (a, b) ∧ a ≠ b ∧ a.number = b.number ∧
    ∃ oldPath newPath c, env.divergentPaths forked.db a b = .ok (oldPath, newPath) ∧
      LowestCommonAncestor forked.db.parent env.genesis.block a b c ∧ oldPath.Disjoint newPath := by
  have hfound : heads.map (fun pair => decide (pair.1 ≠ pair.2 ∧ pair.1.number = pair.2.number)) = some true := by
    decide +kernel
  obtain ⟨⟨a, b⟩, hheads, hdiffer⟩ := Option.map_eq_some_iff.mp hfound
  obtain ⟨hne, hnumber⟩ := of_decide_eq_true hdiffer
  have hreached : env.Reachable forked := reachable_run _
  have W := (hreached.inv lawful).chain.wellFormed
  have hfind := hheads
  simp only [heads, Option.bind_eq_bind, Option.bind_eq_some_iff, Option.some.injEq, Prod.mk.injEq] at hfind
  obtain ⟨a, ha, branch, -, b, hb, rfl, rfl⟩ := hfind
  have hcurrent : forked.chain.blocks forked.db.headHash = some a := ha
  obtain ⟨oldPath, newPath, c, hpaths, hlowest, -, -, hdisjoint, -, -⟩ :=
    divergentPaths_exact (hreached.blockTree lawful) (W.mem_of_blocks hcurrent).1 (W.mem_of_blocks hb).1
  exact ⟨a, b, hheads, hne, hnumber, oldPath, newPath, c, hpaths, hlowest, hdisjoint⟩

end Reference

end Ethertest
