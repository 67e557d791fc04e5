-- SUMMARY: Branches and finalized history: a switch keeps it, and work on branches does not touch the canonical chain.
import Ethertest.Guarantees.Finality
import Ethertest.Guarantees.Return

/-!
# Branches of reachable nodes

`SwitchBranch` climbs from the head as many parents as blocks are abandoned, and compares the
number of the block it finds with the finalized one. That block is the last common ancestor
of the two lines, so every finalized block is on both.
-/

namespace Ethertest

/-- The canonical chain and what depends on it are the same. -/
structure Ledger.SameCanonical (E : Env) (l l' : Ledger) : Prop where
  head : l'.db.currentBlock = l.db.currentBlock
  chain : l'.db.canonicalLine = l.db.canonicalLine
  slot : l'.slot = l.slot
  queue : l'.pendingExecutionRequests = l.pendingExecutionRequests
  finality : l.FinalityConstant E l'

/-- The blocks up to the finalized one are canonical in both, at the same numbers. -/
def Ledger.KeepsFinalized (E : Env) (l l' : Ledger) : Prop :=
  ∀ b ∈ l.db.canonicalLine, b.number ≤ (l.resolveSyntheticFinality E l.slot).finalized.number →
    b ∈ l'.db.canonicalLine ∧ l'.db.blockByNumber b.number = some b

variable {E : Env} {l : Ledger}

theorem Ledger.SameCanonical.trans {l' l'' : Ledger} (h : l.SameCanonical E l')
    (h' : l'.SameCanonical E l'') : l.SameCanonical E l'' where
  head := h'.head.trans h.head
  chain := h'.chain.trans h.chain
  slot := h'.slot.trans h.slot
  queue := h'.queue.trans h.queue
  finality := ⟨h'.finality.finalized.trans h.finality.finalized, h'.finality.safe.trans h.finality.safe⟩

theorem Ledger.SameCanonical.refl : l.SameCanonical E l :=
  ⟨rfl, rfl, rfl, rfl, rfl, rfl⟩

/-- The head is the first block of the canonical chain. -/
theorem Ledger.Inv.currentBlock_eq_head? (I : l.Inv E) : l.db.currentBlock = l.db.canonicalLine.head? := by
  obtain ⟨head, hcurrent, -⟩ := I.exists_head
  obtain ⟨rest, hline⟩ := Ancestry.Tree.line_eq_cons l.chain.parent Block.number head
  rw [hcurrent, canonicalLine_eq hcurrent, Chain.line, hline]
  rfl

namespace Env

variable {E : Env} {n n' : Node E.geth.State}

/-- What the observer sees and the queue determine the rest. -/
theorem sameCanonical_of_observer (I : n.toLedger.Inv E) (I' : n'.toLedger.Inv E)
    (hfrozen : ∀ slot ∈ n.frozen, slot ≤ n.slot) (hobserver : n'.observer = n.observer)
    (hqueue : n'.pendingExecutionRequests = n.pendingExecutionRequests) :
    n.toLedger.SameCanonical E n'.toLedger := by
  have hline : n'.db.canonicalLine = n.db.canonicalLine := congrArg Observer.line hobserver
  have hslot : n'.slot = n.slot := congrArg Observer.slot hobserver
  have hfrozen' : ∀ slot ∈ n'.frozen, slot ≤ n'.slot := by
    have hsame : n'.frozen = n.frozen := congrArg Observer.frozen hobserver
    rwa [hsame, hslot]
  refine ⟨?_, hline, hslot, hqueue, ?_, ?_⟩
  · rw [I.currentBlock_eq_head?, I'.currentBlock_eq_head?, hline]
  · rw [I.finalized_eq hfrozen, I'.finalized_eq hfrozen', hobserver]
  · rw [I.safe_eq hfrozen, I'.safe_eq hfrozen', hobserver]

/-! ## Work on branches -/

/-- What holds of a node before and after work on a branch. -/
structure Untouched (n n' : Node E.geth.State) : Prop where
  inv : n'.toLedger.Inv E
  frozen : ∀ slot ∈ n'.frozen, slot ≤ n'.slot
  same : n.toLedger.SameCanonical E n'.toLedger

theorem Untouched.refl (I : n.toLedger.Inv E) (hfrozen : ∀ slot ∈ n.frozen, slot ≤ n.slot) : Untouched n n :=
  ⟨I, hfrozen, .refl⟩

theorem Untouched.trans {n'' : Node E.geth.State} (h : Untouched n n') (h' : Untouched n' n'') : Untouched n n'' :=
  ⟨h'.inv, h'.frozen, h.same.trans h'.same⟩

section Branches

variable (hE : E.Lawful) (I : n.toLedger.Inv E) (hfrozen : ∀ slot ∈ n.frozen, slot ≤ n.slot)
include hE I hfrozen

/-- A move that is not observed and leaves the queue alone. -/
theorem untouched_of_move (hmove : E.Move .any n n') (hobserver : n'.observer = n.observer)
    (hqueue : n'.pendingExecutionRequests = n.pendingExecutionRequests) : Untouched n n' :=
  ⟨hmove.inv hE I, hmove.frozen_le hE I hfrozen,
    sameCanonical_of_observer I (hmove.inv hE I) hfrozen hobserver hqueue⟩

variable {ctx : Ctx} {name : Bytes}

theorem untouched_createBranch {blockNumber : Nat} :
    Untouched n (E.createBranch n ctx name blockNumber).node := by
  have hrefl := Untouched.refl I hfrozen
  refine settle_node hrefl fun o ho => ?_
  simp only [Except.do_ok_iff, exists_const, failIf_eq_ok, Except.ok.injEq] at ho
  obtain ⟨hname, -, rfl⟩ := ho
  refine executeWrite_node hrefl fun _ => settle_node hrefl fun o ho => ?_
  simp only [Except.do_ok_iff, exists_const, failIf_eq_ok, orFail_eq_ok, Except.ok.injEq] at ho
  obtain ⟨hfresh, base, hbase, -, n', commit, rfl⟩ := ho
  have hmove : E.Move .any n n' :=
    .note (.fork hname trivial (Option.not_isSome_iff_eq_none.mp hfresh) hbase rfl commit)
  refine untouched_of_move hE I hfrozen hmove (observer_auxiliary_same commit rfl (fun _ => rfl) rfl) ?_
  obtain ⟨-, plan, -, applied, rfl, rfl⟩ := Node.commitAuxiliary_spec commit
  rfl

private theorem untouched_mineBranchBlock : Untouched n (E.mineBranchBlock n ctx name).node := by
  refine settle_node (Untouched.refl I hfrozen) fun o ho => ?_
  simp only [Except.do_ok_iff, orFail_eq_ok, Except.ok.injEq] at ho
  obtain ⟨item, hitem, ⟨x, ctx'⟩, plan, n', commit, rfl⟩ := ho
  have W := I.chain.wellFormed
  refine untouched_of_move hE I hfrozen (.branch hitem plan commit)
    (observer_branch hE W (planBranch_spec hE W plan) commit) ?_
  obtain ⟨-, plan, -, applied, rfl, rfl⟩ := commitPrepared_spec commit
  rfl

end Branches

variable {name : Bytes} {count : Nat} {ctx : Ctx}

private theorem untouched_mineBranchBlocks (hE : E.Lawful) (I : n.toLedger.Inv E)
    (hfrozen : ∀ slot ∈ n.frozen, slot ≤ n.slot) : Untouched n (E.mineBranchBlocks name count n ctx).node := by
  induction count generalizing n ctx with
  | zero => exact .refl I hfrozen
  | succ count ih =>
    have hfirst : Untouched n (E.mineBranchBlock n ctx name).node := untouched_mineBranchBlock hE I hfrozen
    refine andThen_node hfirst fun _ ctx' => andThen_node ?_ fun _ _ => ?_
    · exact hfirst.trans (ih hfirst.inv hfirst.frozen)
    · exact hfirst.trans (ih hfirst.inv hfirst.frozen)

theorem untouched_mineBranch (hE : E.Lawful) (I : n.toLedger.Inv E)
    (hfrozen : ∀ slot ∈ n.frozen, slot ≤ n.slot) : Untouched n (E.mineBranch n ctx name count).node := by
  have hrefl := Untouched.refl I hfrozen
  refine settle_node hrefl fun o ho => ?_
  simp only [Except.do_ok_iff, Except.ok.injEq] at ho
  obtain ⟨-, -, -, -, rfl⟩ := ho
  refine executeWrite_node hrefl fun _ => settle_node hrefl fun o ho => ?_
  simp only [Except.do_ok_iff, Except.ok.injEq] at ho
  obtain ⟨-, -, rfl⟩ := ho
  exact untouched_mineBranchBlocks hE I hfrozen

/-! ## Switching to a branch -/

/-- A switch that succeeds makes the line of its target canonical. -/
theorem canonicalLine_switchCanonical (hE : E.Lawful) (I : n.toLedger.Inv E) {ctx' : Ctx} {target : Block}
    {slot : Nat} (hmem : n.chain.Mem E target) (hslot : slot = n.slotOf E target)
    (h : (E.switchCanonical n ctx target slot).result = .ok ((), ctx')) :
    (E.switchCanonical n ctx target slot).node.toLedger.Inv E ∧
      (E.switchCanonical n ctx target slot).node.db.canonicalLine = n.chain.line target := by
  have hmoves : Relation.ReflTransGen (E.Move .any) n (E.switchCanonical n ctx target slot).node :=
    moves_switchCanonical (.inl ⟨⟨_, hmem⟩, hslot⟩) trivial
  have I' := Move.run_inv hE I hmoves
  have K := I.chain.keeps_run hE (Move.run_simulates hE I hmoves)
  obtain ⟨hhead, -⟩ := switchCanonical_ok hE I.chain.wellFormed hmem h
  have hcurrent : (E.switchCanonical n ctx target slot).node.db.currentBlock = some target := by
    rw [Ledger.currentBlock_eq, hhead]
    exact K.mem hmem
  refine ⟨I', ?_⟩
  rw [Ledger.canonicalLine_eq hcurrent, K.line I.chain.wellFormed hmem]

/-- A common ancestor at or above the finalized block has it and all before it on its line. -/
theorem mem_line_of_ancestor (I : n.toLedger.Inv E) {head ancestor b : Block} {path : List Block}
    (hhead : n.chain.Mem E head) (hline : n.chain.line head = path ++ n.chain.line ancestor)
    (hb : b ∈ n.chain.line head) (hnumber : b.number ≤ ancestor.number) : b ∈ n.chain.line ancestor := by
  have tree := I.chain.wellFormed.tree
  have hordered : (n.chain.line head).Pairwise fun x y => y.number < x.number :=
    tree.line_pairwise tree.number_lt hhead
  rw [hline] at hb hordered
  rcases List.mem_append.mp hb with hb | hb
  · have hlt := (List.pairwise_append.mp hordered).2.2 b hb ancestor (Ancestry.Tree.self_mem_line ancestor)
    exact absurd hlt (not_lt.mpr hnumber)
  · exact hb

theorem keepsFinalized_switchBranch (hE : E.Lawful) (I : n.toLedger.Inv E) {ctx' : Ctx}
    (h : (E.switchBranch n ctx name).result = .ok ((), ctx')) :
    n.toLedger.KeepsFinalized E (E.switchBranch n ctx name).node.toLedger := by
  have W := I.chain.wellFormed
  obtain ⟨ctx₁, hrun⟩ := executeWrite_ok h
  change E.switchBranch n ctx name = _ at hrun
  rw [hrun] at h ⊢
  obtain ⟨o, ho, heq⟩ := settle_ok_of_result h
  rw [heq] at h ⊢
  simp only [divergentPaths, Except.do_ok_iff, exists_const, failIf_eq_ok, orFail_eq_ok, Except.ok.injEq] at ho
  obtain ⟨item, -, target, htarget, oldHead, hold, ⟨oldPath, newPath⟩, hpaths, ancestor, hancestor, hguard, rfl⟩ := ho
  obtain ⟨hmem, -⟩ := W.mem_of_blocks htarget
  obtain ⟨hheadMem, -⟩ := W.mem_of_blocks (Ledger.head_eq_ok.mp hold)
  obtain ⟨d, hd, hlineOld, hlineNew, -, -⟩ := W.paths hE hheadMem hmem hpaths
  obtain rfl : d = ancestor := Option.some.inj ((W.tree.ascend_of_line hheadMem hlineOld).symm.trans hancestor)
  obtain ⟨I', hline⟩ := canonicalLine_switchCanonical hE I hmem rfl h
  intro b hb hnumber
  rw [Ledger.canonicalLine_eq (Ledger.head_eq_ok.mp hold)] at hb
  have hcommon := mem_line_of_ancestor I hheadMem hlineOld hb (hnumber.trans (not_lt.mp hguard))
  have hstill : b ∈ (E.switchCanonical n ctx₁ target (n.slotOf E target)).node.db.canonicalLine := by
    rw [hline, hlineNew]
    exact List.mem_append_right _ hcommon
  exact ⟨hstill, I'.blockByNumber_eq_some.mpr ⟨hstill, rfl⟩⟩

end Env

/-- In every reachable node, a successful `SwitchBranch` keeps the finalized history, and
`CreateBranch` and `MineBranch` do not touch the canonical chain, whether they succeed or fail. -/
theorem reachable_branchesSafe (hE : E.Lawful) {n : Node E.geth.State} (h : E.Reachable n) :
    (∀ {ctx ctx' : Ctx} {name : Bytes}, (E.switchBranch n ctx name).result = .ok ((), ctx') →
      n.toLedger.KeepsFinalized E (E.switchBranch n ctx name).node.toLedger) ∧
    (∀ (ctx : Ctx) (name : Bytes) (blockNumber : Nat),
      n.toLedger.SameCanonical E (E.createBranch n ctx name blockNumber).node.toLedger) ∧
    ∀ (ctx : Ctx) (name : Bytes) (count : Nat),
      n.toLedger.SameCanonical E (E.mineBranch n ctx name count).node.toLedger := by
  have I := h.inv hE
  have hfrozen := h.frozen_le hE
  exact ⟨Env.keepsFinalized_switchBranch hE I, fun _ _ _ => (Env.untouched_createBranch hE I hfrozen).same,
    fun _ _ _ => (Env.untouched_mineBranch hE I hfrozen).same⟩

/-- Two epochs after its block the first slot is final. A block is mined on top of it, and
another one on a branch. -/
def Reference.forkedLate : List Command :=
  [⟨.mine 1 false, none⟩, ⟨.missSlots 15, none⟩, ⟨.createBranch [97] 1, none⟩, ⟨.mine 1 false, none⟩,
    ⟨.mineBranch [97] 1, none⟩]

/-- The switch gives up the head, and keeps the finalized block. -/
theorem reachable_branchesSafe_reference :
    let n := Reference.run Reference.forkedLate
    let switched := Reference.env.switchBranch n none [97]
    (n.resolveSyntheticFinality Reference.env n.slot).finalized.number = 1 ∧
      n.toLedger.KeepsFinalized Reference.env switched.node.toLedger ∧
      (∃ head ∈ n.db.currentBlock, head.number = 2 ∧ head ∉ switched.node.db.canonicalLine) ∧
      n.toLedger.SameCanonical Reference.env (Reference.env.createBranch n none [98] 2).node.toLedger ∧
      n.toLedger.SameCanonical Reference.env (Reference.env.mineBranch n none [97] 2).node.toLedger := by
  have hswitched :
      (Reference.env.switchBranch (Reference.run Reference.forkedLate) none [97]).result.toOption.map (·.1) =
        some () := by decide +kernel
  obtain ⟨ctx, hswitched⟩ := Reference.result_of_toOption hswitched
  obtain ⟨hswitch, hcreate, hmine⟩ :=
    reachable_branchesSafe Reference.lawful (Reference.reachable_run Reference.forkedLate)
  exact ⟨by decide +kernel, hswitch hswitched, by decide +kernel, hcreate none [98] 2, hmine none [97] 2⟩

end Ethertest
