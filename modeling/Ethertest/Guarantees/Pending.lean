-- SUMMARY: In every reachable node that accepts writes the published pending view is the next block.
import Ethertest.Guarantees.Pool
import Ethertest.Refinement.Pending

/-!
# The published pending view

The view that answers questions about pending state is published by the commands and not
computed when it is read. It is nevertheless the candidate for the current state, and mining
commits its block.
-/

namespace Ethertest

/-! ## Sets of hashes -/

theorem mem_hashSet {txs : List Transaction} {hash : Hash} : hash ∈ hashSet txs ↔ ∃ tx ∈ txs, tx.hash = hash := by
  suffices h : ∀ (txs : List Transaction) (acc : Store Hash Unit),
      hash ∈ txs.foldl (fun acc tx => acc.insert tx.hash ()) acc ↔ hash ∈ acc ∨ ∃ tx ∈ txs, tx.hash = hash by
    rw [hashSet, h]
    simp
  intro txs
  induction txs with
  | nil => simp
  | cons tx txs ih =>
    intro acc
    rw [List.foldl_cons, ih]
    simp [or_assoc, or_left_comm]

theorem TransactionPool.mem_transactions {p : TransactionPool} {tx : Transaction} :
    tx ∈ p.transactions ↔ p.Pooled tx := by
  simp only [transactions, List.mem_flatMap, List.mem_map, Pooled, lookup, Option.bind_eq_some_iff]
  constructor
  · rintro ⟨⟨a, m⟩, hm, ⟨nonce, tx'⟩, htx, rfl⟩
    exact ⟨a, nonce, m, Store.mem_toList.mp hm, Store.mem_toList.mp htx⟩
  · rintro ⟨a, nonce, m, hm, htx⟩
    exact ⟨(a, m), Store.mem_toList.mpr hm, (nonce, tx), Store.mem_toList.mpr htx, rfl⟩

/-- The queued transactions are the pooled ones that are not executable. -/
theorem mem_queued {σ : Type} {p : TransactionPool} {c : Env.Candidate σ} {hash : Hash} :
    hash ∈ (Node.viewOf p c).queued ↔
      (∃ tx, p.Pooled tx ∧ tx.hash = hash) ∧ hash ∉ (Node.viewOf p c).executable := by
  have hnone : ∀ hash : Hash, (hashSet c.block.transactions)[hash]?.isNone ↔ hash ∉ hashSet c.block.transactions := by
    simp
  simp only [Node.viewOf, mem_hashSet, List.mem_filter, TransactionPool.mem_transactions, hnone]
  constructor
  · rintro ⟨tx, ⟨htx, hnot⟩, rfl⟩
    exact ⟨⟨tx, htx, rfl⟩, hnot⟩
  · rintro ⟨⟨tx, htx, rfl⟩, hnot⟩
    exact ⟨tx, ⟨htx, hnot⟩, rfl⟩

/-- What a published view has to be. -/
structure PendingView.Current (E : Env) (n : Node E.geth.State) (view : PendingView E.geth.State) : Prop where
  /-- the candidate that would be computed now -/
  candidate : ∃ c, E.pendingCandidate n .background n.pendingExecutionRequests = .ok (c, .background) ∧
    view = Node.viewOf n.pool c
  /-- mining a block changes nothing, or it makes the view's block the head -/
  next : ∀ ctx, (E.mine n ctx 1 false).node = n ∨ (E.mine n ctx 1 false).node.head = .ok view.block
  mined : ∀ {ctx hashes ctx'}, (E.mine n ctx 1 false).result = .ok (hashes, ctx') →
    hashes = [E.hash view.block] ∧ (E.mine n ctx 1 false).node.head = .ok view.block
  /-- every pooled transaction is executable or queued, and not both -/
  pooled : ∀ hash : Hash, (hash ∈ view.executable ∨ hash ∈ view.queued) ↔ ∃ tx, n.pool.Pooled tx ∧ tx.hash = hash
  disjoint : ∀ hash : Hash, ¬ (hash ∈ view.executable ∧ hash ∈ view.queued)

namespace Env

variable {E : Env} {n : Node E.geth.State} {ctx ctx' : Ctx}

/-! ## The block of a candidate -/

/-- The stages of a candidate. -/
theorem pendingCandidate_ok {queue : ExecutionRequestQueue} {c : Candidate E.geth.State}
    (h : E.pendingCandidate n ctx queue = .ok (c, ctx')) :
    ∃ parent projection built p, n.head = .ok parent ∧ E.ensureProjection n parent = .ok projection ∧
      E.buildBlockAtSlot n ctx false projection.root ((n.slot + 1) % 2 ^ 64) = .ok (built, ctx') ∧
      prepareExecutionRequestBlock E.geth built.generated.block built.generated.requests queue = .ok p ∧
      c.block = p.block := by
  obtain ⟨-, h⟩ := pendingCandidate_eq_ok.mp h
  simp only [pendingCandidateAtSlot, Except.do_ok_iff, Except.ok.injEq, Prod.mk.injEq] at h
  obtain ⟨parent, hparent, projection, hprojection, ⟨built, ctx₁⟩, hbuilt, p, hp, receipts, -, committed, -, -, -,
    rfl, rfl⟩ := h
  exact ⟨parent, projection, built, p, hparent, hprojection, hbuilt, hp, rfl⟩

/-- A block that is planned for mining is the candidate's. -/
theorem planMine_candidate {x : Extension} {c : Candidate E.geth.State} (h : E.planMine n ctx false = .ok (x, ctx'))
    (hc : E.pendingCandidate n none n.pendingExecutionRequests = .ok (c, none)) : x.block = c.block := by
  obtain ⟨parent, projection, built, p, receipts, stored, put, committed, hhead, hensure, hbuild, hprepared, -, -, -, -,
    -, rfl⟩ := planMine_ok h
  obtain ⟨parent', projection', built', p', hhead', hensure', hbuild', hprepared', hblock⟩ := pendingCandidate_ok hc
  obtain rfl : parent = parent' := Except.ok.inj (hhead.symm.trans hhead')
  obtain rfl : projection = projection' := Except.ok.inj (hensure.symm.trans hensure')
  have hbuild := buildBlockAtSlot_checks.background (buildBlock_ok hbuild).2
  obtain rfl : built = built' := (Prod.mk.inj (Except.ok.inj (hbuild.symm.trans hbuild'))).1
  obtain rfl : p = p' := Except.ok.inj (hprepared.symm.trans hprepared')
  exact hblock.symm

/-- The transactions of a candidate are pooled ones. -/
theorem candidate_pooled (hE : E.Lawful) {queue : ExecutionRequestQueue} {c : Candidate E.geth.State}
    (h : E.pendingCandidate n ctx queue = .ok (c, ctx')) :
    ∀ tx ∈ c.block.transactions, ∃ y, n.pool.Pooled y ∧ tx = y.withoutBlobTxSidecar := by
  obtain ⟨parent, projection, built, p, -, -, hbuild, hprepared, hblock⟩ := pendingCandidate_ok h
  obtain ⟨⟨_, _, _, _, -, htxs⟩, -⟩ := resealed_of_assembles (prepare_spec hprepared)
  intro tx htx
  rw [hblock, htxs] at htx
  exact buildBlockAtSlot_pooled hE hbuild tx htx

/-! ## Mining the next block -/

/-- The head after a mined block. -/
theorem head_mined (hE : E.Lawful) (I : n.toLedger.Inv E) {empty : Bool} {x : Extension} {m : Node E.geth.State}
    (plan : E.planMine n ctx empty = .ok (x, ctx'))
    (commit : E.commitPrepared n (E.mineOperation n x) (E.mineEvents n x) (.extend x.block x.receipts)
      (E.mineApply n x) = .ok m) : m.head = .ok x.block := by
  have W := I.chain.wellFormed
  obtain ⟨events, -, X⟩ := extends_mine hE W (planMine_spec hE W plan) commit
  have hcurrent : m.db.currentBlock = some x.block := by
    rw [Db.currentBlock, X.head, X.records.blocks]
    exact Function.update_self _ _ _
  rw [Ledger.head, hcurrent]
  rfl

/-- An attempt to mine the next block changes nothing, or it makes the candidate's block the head. -/
theorem mineExecutionBlock_candidate (hE : E.Lawful) (I : n.toLedger.Inv E) {c : Candidate E.geth.State}
    (hc : E.pendingCandidate n none n.pendingExecutionRequests = .ok (c, none)) :
    (∃ err, E.mineExecutionBlock n ctx false = .fail n err) ∨
      (E.mineExecutionBlock n ctx false).node.head = .ok c.block ∧
      ∀ {mined ctx'}, (E.mineExecutionBlock n ctx false).result = .ok (mined, ctx') → mined.1 = c.block := by
  rcases @mineExecutionBlock_cases E n ctx false with hfail | ⟨x, ctx', m, plan, commit, heq⟩
  · exact .inl hfail
  · have hblock := planMine_candidate plan hc
    have hledger : (E.mineExecutionBlock n ctx false).node.toLedger = m.toLedger := by
      rw [heq]
      exact rebuildAfterCommit_ledger
    refine .inr ⟨?_, fun {mined ctx₁} hresult => ?_⟩
    · rw [hledger, ← hblock]
      exact head_mined hE I plan commit
    · rw [heq, rebuildAfterCommit] at hresult
      split at hresult
      · rw [← (Prod.mk.inj (Except.ok.inj hresult)).1]
        exact hblock
      · cases hresult

/-- `Mine(1, false)` is one attempt, after some checks. -/
theorem mine_one_cases : (∃ err, E.mine n ctx 1 false = .fail n err) ∨
    ∃ ctx₁, E.mine n ctx 1 false = (E.mineExecutionBlock n ctx₁ false).andThen fun m mined ctx =>
      .done m [E.hash mined.1] ctx := by
  unfold mine Outcome.settle
  split
  · next o ho =>
    simp only [Except.do_ok_iff, Except.ok.injEq] at ho
    obtain ⟨-, -, -, -, rfl⟩ := ho
    unfold Node.executeWrite Outcome.settle
    split
    · next o ho =>
      simp only [Except.do_ok_iff, Except.ok.injEq] at ho
      obtain ⟨ctx₁, -, -, -, rfl⟩ := ho
      unfold mineBlocks Outcome.settle
      split
      · next o ho =>
        simp only [Except.do_ok_iff, Except.ok.injEq] at ho
        obtain ⟨ctx₂, -, rfl⟩ := ho
        exact .inr ⟨ctx₂, rfl⟩
      · next err _ => exact .inl ⟨err, rfl⟩
    · next err _ => exact .inl ⟨err, rfl⟩
  · next err _ => exact .inl ⟨err, rfl⟩

/-- What mining one block does if the candidate is known. -/
theorem mine_one_candidate (hE : E.Lawful) (I : n.toLedger.Inv E) {c : Candidate E.geth.State}
    (hc : E.pendingCandidate n none n.pendingExecutionRequests = .ok (c, none)) :
    (∃ err, E.mine n ctx 1 false = .fail n err) ∨
      (E.mine n ctx 1 false).node.head = .ok c.block ∧
      ∀ {hashes ctx'}, (E.mine n ctx 1 false).result = .ok (hashes, ctx') → hashes = [E.hash c.block] := by
  rcases @mine_one_cases E n ctx with hfail | ⟨ctx₁, heq⟩
  · exact .inl hfail
  · rw [heq]
    rcases @mineExecutionBlock_candidate E n ctx₁ hE I c hc with ⟨err, hfail⟩ | ⟨hhead, hmined⟩
    · rw [hfail]
      exact .inl ⟨err, rfl⟩
    · unfold Outcome.andThen
      split
      · next mined ctx₂ hresult =>
        refine .inr ⟨hhead, fun {hashes ctx'} hdone => ?_⟩
        rw [← (Prod.mk.inj (Except.ok.inj hdone)).1, hmined hresult]
      · exact .inr ⟨hhead, fun {hashes ctx'} hdone => nomatch hdone⟩

/-- A fresh view is the next block. -/
theorem Fresh.current (hE : E.Lawful) (I : n.toLedger.Inv E) (h : Fresh E n) :
    ∃ view, n.pendingView = some view ∧ view.Current E n := by
  obtain ⟨c, hc, hview⟩ := h
  refine ⟨_, hview, ⟨c, hc, rfl⟩, fun ctx => ?_, fun {ctx hashes ctx'} hresult => ?_, fun hash => ?_, fun hash => ?_⟩
  · rcases @mine_one_candidate E n ctx hE I c hc with ⟨err, hfail⟩ | ⟨hhead, -⟩
    · rw [hfail]
      exact .inl rfl
    · exact .inr hhead
  · rcases @mine_one_candidate E n ctx hE I c hc with ⟨err, hfail⟩ | ⟨hhead, hmined⟩
    · rw [hfail] at hresult
      cases hresult
    · exact ⟨hmined hresult, hhead⟩
  · have hexecutable : hash ∈ hashSet c.block.transactions → ∃ tx, n.pool.Pooled tx ∧ tx.hash = hash := by
      rw [mem_hashSet]
      rintro ⟨tx, htx, rfl⟩
      obtain ⟨y, hy, rfl⟩ := candidate_pooled hE hc tx htx
      exact ⟨y, hy, rfl⟩
    rw [mem_queued]
    by_cases hmem : hash ∈ (Node.viewOf n.pool c).executable
    · simp only [hmem, true_or, true_iff]
      exact hexecutable hmem
    · simp only [hmem, false_or, not_false_eq_true, and_true]
  · rw [mem_queued]
    rintro ⟨hmem, -, hnot⟩
    exact hnot hmem

end Env

/-- In every reachable node that accepts writes there is a pending view, and it is the candidate
for the current state. -/
theorem reachable_pendingView {E : Env} (hE : E.Lawful) {n : Node E.geth.State} (h : E.Reachable n)
    (hwrites : n.writeErr = none) : ∃ view, n.pendingView = some view ∧ view.Current E n :=
  (h.fresh hE hwrites).current hE (h.inv hE)

namespace Reference

/-- A sent transaction, missed slots, another fee recipient and a withdrawal. -/
theorem reachable_pendingView_reference :
    ∃ view, (run [⟨.sendTransaction cheap, none⟩, ⟨.missSlots 2, none⟩, ⟨.setFeeRecipient 5, none⟩,
        ⟨.addWithdrawal ⟨1, 2, 3⟩, none⟩]).pendingView = some view ∧
      view.Current env (run [⟨.sendTransaction cheap, none⟩, ⟨.missSlots 2, none⟩, ⟨.setFeeRecipient 5, none⟩,
        ⟨.addWithdrawal ⟨1, 2, 3⟩, none⟩]) :=
  reachable_pendingView lawful (reachable_run _) (by decide +kernel)

end Reference

end Ethertest
