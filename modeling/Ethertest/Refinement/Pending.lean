-- SUMMARY: The published pending view is what would be built from the node's state, after every act.
import Ethertest.Refinement.Canonical
import Ethertest.Refinement.Projections
import Ethertest.Refinement.Start

/-!
# The pending view

A candidate is built from a few inputs: the head, with its projection and the withdrawals on its
line, the slot, the fee recipient, the pool, the pending withdrawals and the request queue. An
act that changes an input publishes a view of the new candidate, unless it disables writes; the
other acts leave the inputs alone.
-/

namespace Ethertest

namespace Env

variable {E : Env} {Q : Policy E.geth.State} {n n' : Node E.geth.State} {ctx ctx' : Ctx}

/-! ## The inputs of a candidate -/

/-- Two nodes on the same head, from which the same candidates are built for a slot after both. -/
structure SameInputs (E : Env) (n n' : Node E.geth.State) : Prop where
  head : n'.head = n.head
  root : ∀ {b p}, n.head = .ok b → E.ensureProjection n b = .ok p →
    ∃ p', E.ensureProjection n' b = .ok p' ∧ p'.root = p.root
  assigned : ∀ {b}, n.head = .ok b →
    assignedWithdrawals n'.db b n'.pendingWithdrawals = assignedWithdrawals n.db b n.pendingWithdrawals
  pool : n'.pool = n.pool
  feeRecipient : n'.feeRecipient = n.feeRecipient

private theorem selectLoop_congr (h : n'.pool = n.pool) (baseFee : Option Nat) (fuel : Nat)
    (nextNonce : Store Address Nat) :
    E.selectLoop n' baseFee fuel nextNonce = E.selectLoop n baseFee fuel nextNonce := by
  have hselect : ∀ nextNonce, E.selectTransaction n' baseFee nextNonce = E.selectTransaction n baseFee nextNonce := by
    intro nextNonce
    have hbefore : E.transactionBefore n' baseFee = E.transactionBefore n baseFee := by
      unfold transactionBefore
      rw [h]
    unfold selectTransaction
    rw [hbefore, h]
  induction fuel generalizing nextNonce with
  | zero => rfl
  | succ fuel ih =>
    rw [selectLoop, selectLoop, hselect]
    cases E.selectTransaction n baseFee nextNonce with
    | none => rfl
    | some selected => exact congrArg (selected.2 :: ·) (ih _)

private theorem executableTransactions_congr (h : n'.pool = n.pool) (head : Block) :
    E.executableTransactions n' head = E.executableTransactions n head := by
  simp only [executableTransactions, h, selectLoop_congr h]

variable {slot : Nat} {queue : ExecutionRequestQueue} {candidate : Candidate E.geth.State}
  {result : Candidate E.geth.State × Ctx}

private theorem buildBlockAtSlot_congr (S : SameInputs E n n') {empty : Bool} {root : Hash}
    {built : Built E.geth.State} (hslot : n'.slot < slot)
    (h : E.buildBlockAtSlot n ctx empty root slot = .ok (built, ctx')) :
    E.buildBlockAtSlot n' ctx empty root slot = .ok (built, ctx') := by
  simp only [buildBlockAtSlot, Except.do_ok_iff, Except.ok.injEq, Prod.mk.injEq, failIf_eq_ok, exists_const] at h ⊢
  obtain ⟨parent, hparent, ws, hws, txs, htxs, hafter, htime, state, hstate, ⟨g, ctx₁⟩, hg, rfl, rfl⟩ := h
  refine ⟨parent, S.head.trans hparent, ws, (S.assigned hparent).trans hws, txs,
    (executableTransactions_congr S.pool parent).trans htxs, ?_, htime, state, hstate, (g, ctx₁), ?_, rfl, rfl⟩
  · rintro (hzero | hle)
    · exact hafter (.inl hzero)
    · exact absurd hslot (not_lt.mpr hle)
  · rw [S.feeRecipient]
    exact hg

theorem pendingCandidateAtSlot_congr (S : SameInputs E n n') (hslot : n'.slot < slot)
    (h : E.pendingCandidateAtSlot n ctx queue slot = .ok (candidate, ctx')) :
    E.pendingCandidateAtSlot n' ctx queue slot = .ok (candidate, ctx') := by
  simp only [pendingCandidateAtSlot, Except.do_ok_iff, Except.ok.injEq, Prod.mk.injEq] at h ⊢
  obtain ⟨parent, hparent, p, hp, ⟨built, ctx₁⟩, hbuilt, rest⟩ := h
  obtain ⟨p', hp', hroot⟩ := S.root hparent hp
  refine ⟨parent, S.head.trans hparent, p', hp', (built, ctx₁), ?_, rest⟩
  rw [hroot]
  exact buildBlockAtSlot_congr S hslot hbuilt

/-! ## Acts that leave the inputs alone -/

/-- The withdrawal index after a stored block does not change when blocks are added. -/
theorem nextWithdrawalIndex_keeps (W : Chain.WellFormed E n.chain) (K : Chain.Keeps E n.chain n'.chain) {b : Block}
    (hb : n.chain.Mem E b) (fuel : Nat) : nextWithdrawalIndex n'.db fuel b = nextWithdrawalIndex n.db fuel b := by
  induction fuel generalizing b with
  | zero => simp only [nextWithdrawalIndex]
  | succ fuel ih =>
    rw [nextWithdrawalIndex, nextWithdrawalIndex]
    cases (b.withdrawals.getD []).getLast? with
    | some last => rfl
    | none =>
      simp only
      split
      · rfl
      · next hne =>
        have hgenesis : b ≠ E.genesis.block := fun heq => hne (heq ▸ E.genesis_number)
        obtain ⟨p, hp, hpm, hnumber, hph⟩ := W.parent_eq hb hgenesis
        have hread : n.db.readBlock b.parentHash (b.number - 1) = some p := by
          have hfound : n.db.blockByHash b.parentHash = some p := hph ▸ hpm
          simp [Db.readBlock, hfound, hnumber]
        have hread' : n'.db.readBlock b.parentHash (b.number - 1) = some p := by
          have hfound : n'.db.blockByHash b.parentHash = some p := hph ▸ K.mem hpm
          simp [Db.readBlock, hfound, hnumber]
        rw [hread, hread']
        exact ih hpm

/-- A move that keeps the head, and what is not in the ledger, keeps the inputs. -/
theorem Move.sameInputs {Q : Guard E.geth.State} (hE : E.Lawful) (I : n.toLedger.Inv E) (P : E.Projected n.db)
    (h : E.Move Q n n') (hhead : n'.db.headHash = n.db.headHash) (hpool : n'.pool = n.pool)
    (hrecipient : n'.feeRecipient = n.feeRecipient) (hpending : n'.pendingWithdrawals = n.pendingWithdrawals) :
    SameInputs E n n' := by
  have W := I.chain.wellFormed
  have K := I.chain.keeps_run hE (h.simulates hE I)
  obtain ⟨head, hcurrent, hmem, -⟩ := I.exists_head
  have hhash : E.hash head = n.db.headHash := W.addressed hcurrent
  have hcurrent' : n'.db.currentBlock = some head := by
    rw [Db.currentBlock, hhead, ← hhash]
    exact K.mem hmem
  have hheads : n.head = .ok head ∧ n'.head = .ok head := by
    simp only [Ledger.head, hcurrent, hcurrent', orFail, Option.elim_some, and_self]
  refine ⟨hheads.2.trans hheads.1.symm, ?_, ?_, hpool, hrecipient⟩
  · intro b p hb hp
    rw [ensureProjection_eq_ok] at hp
    obtain ⟨p', hget, hroot⟩ := h.projection_root hE I P hp.1
    exact ⟨p', ensureProjection_eq_ok.mpr ⟨hget, h.projected hE I P _ _ hget⟩, hroot⟩
  · intro b hb
    obtain rfl : head = b := Except.ok.inj (hheads.1.symm.trans hb)
    rw [hpending, assignedWithdrawals, assignedWithdrawals, nextWithdrawalIndex_keeps W K hmem]

/-! ## Fresh views -/

/-- The published view is that of the candidate which would be built now. -/
def Fresh (E : Env) (n : Node E.geth.State) : Prop :=
  ∃ candidate, E.pendingCandidate n none n.pendingExecutionRequests = .ok (candidate, none) ∧
    n.pendingView = some (Node.viewOf n.pool candidate)

theorem pendingCandidate_eq_ok :
    E.pendingCandidate n ctx queue = .ok result ↔
      (n.slot + 1) % 2 ^ 64 ≠ 0 ∧ E.pendingCandidateAtSlot n ctx queue ((n.slot + 1) % 2 ^ 64) = .ok result := by
  simp only [pendingCandidate, Except.do_ok_iff, exists_const, failIf_eq_ok]

theorem lt_of_pendingCandidateAtSlot (h : E.pendingCandidateAtSlot n ctx queue slot = .ok result) :
    n.slot < slot := by
  simp only [pendingCandidateAtSlot, buildBlockAtSlot, Except.do_ok_iff, exists_const, failIf_eq_ok, not_or] at h
  obtain ⟨-, -, -, -, built, ⟨-, -, -, -, -, -, ⟨-, hlt⟩, -⟩, -⟩ := h
  exact not_le.mp hlt

theorem pendingCandidate_congr (S : SameInputs E n n') (hslot : n'.slot = n.slot)
    (h : E.pendingCandidate n ctx queue = .ok (candidate, ctx')) :
    E.pendingCandidate n' ctx queue = .ok (candidate, ctx') := by
  obtain ⟨hzero, hat⟩ := pendingCandidate_eq_ok.mp h
  have hlt : n'.slot < (n.slot + 1) % 2 ^ 64 := hslot.trans_lt (lt_of_pendingCandidateAtSlot hat)
  rw [pendingCandidate_eq_ok, hslot]
  exact ⟨hzero, pendingCandidateAtSlot_congr S hlt hat⟩

/-- The inputs are the same if the ledger is. -/
theorem sameInputs_of_ledger (hledger : n'.toLedger = n.toLedger) (hpool : n'.pool = n.pool)
    (hrecipient : n'.feeRecipient = n.feeRecipient) (hpending : n'.pendingWithdrawals = n.pendingWithdrawals) :
    SameInputs E n n' where
  head := by rw [hledger]
  root := by
    intro b p _ hp
    exact ⟨p, by rw [ensureProjection_eq_ok] at hp ⊢; rw [hledger]; exact hp, rfl⟩
  assigned := by
    intro b _
    rw [hledger, hpending]
  pool := hpool
  feeRecipient := hrecipient

/-- A view that was just published is fresh. -/
theorem fresh_setPendingView
    (h : E.pendingCandidate n ctx n.pendingExecutionRequests = .ok (candidate, ctx')) :
    Fresh E (n.setPendingView candidate) := by
  have S : SameInputs E n (n.setPendingView candidate) := sameInputs_of_ledger rfl rfl rfl rfl
  have hqueue : (n.setPendingView candidate).pendingExecutionRequests = n.pendingExecutionRequests := rfl
  refine ⟨candidate, ?_, rfl⟩
  rw [hqueue]
  exact pendingCandidate_congr S rfl (pendingCandidate_checks.background h)

theorem fresh_rebuildPendingView (h : E.rebuildPendingView n ctx = .ok (n', ctx')) : Fresh E n' := by
  obtain ⟨candidate, hcandidate, rfl⟩ := rebuildPendingView_spec h
  exact fresh_setPendingView hcandidate

/-- A rebuilt node has a fresh view, unless writes were disabled. -/
theorem fresh_rebuilt (hwrites : (E.rebuilt n ctx).writeErr = none) : Fresh E (E.rebuilt n ctx) := by
  rcases rebuilt_cases n ctx with ⟨candidate, ctx', hcandidate, heq⟩ | ⟨err, -, heq⟩
  · rw [heq]
    exact fresh_setPendingView hcandidate
  · rw [heq] at hwrites
    change n.writeErr.or (some err) = none at hwrites
    simp at hwrites

/-- A view stays fresh while the inputs stay. -/
theorem Fresh.keep (h : Fresh E n) (S : SameInputs E n n') (hslot : n'.slot = n.slot)
    (hqueue : n'.pendingExecutionRequests = n.pendingExecutionRequests) (hview : n'.pendingView = n.pendingView) :
    Fresh E n' := by
  obtain ⟨candidate, hcandidate, hpublished⟩ := h
  refine ⟨candidate, ?_, by rw [hview, hpublished, S.pool]⟩
  rw [hqueue]
  exact pendingCandidate_congr S hslot hcandidate

/-- What is not among the inputs may change in memory. -/
theorem Fresh.congr (h : Fresh E n) (hledger : n'.toLedger = n.toLedger) (hpool : n'.pool = n.pool)
    (hrecipient : n'.feeRecipient = n.feeRecipient) (hpending : n'.pendingWithdrawals = n.pendingWithdrawals)
    (hview : n'.pendingView = n.pendingView) : Fresh E n' :=
  h.keep (sameInputs_of_ledger hledger hpool hrecipient hpending) (by rw [hledger]) (by rw [hledger]) hview

/-- A note keeps what blocks are built from. -/
theorem Note.sameInputs {Q : Guard E.geth.State} (hE : E.Lawful) (I : n.toLedger.Inv E) (P : E.Projected n.db)
    (h : E.Note Q n n') : SameInputs E n n' :=
  have A := h.aside
  Move.sameInputs hE I P (.note h) A.sameChain.head A.pool A.feeRecipient A.pendingWithdrawals

/-- A note leaves a fresh view: that of the candidate that it built, or the one before. -/
theorem Note.fresh {Q : Guard E.geth.State} (hE : E.Lawful) (I : n.toLedger.Inv E) (P : E.Projected n.db)
    (F : n.writeErr = none → Fresh E n) (h : E.Note Q n n') (hwrites : n'.writeErr = none) : Fresh E n' := by
  have S := h.sameInputs hE I P
  have hview := (F (h.aside.writeErr.symm.trans hwrites)).keep S
  cases h with
  | @wait _ ctx ctx' count candidate pos bound pending commit =>
    -- the candidate was built for the slot after the missed ones
    have hlt := lt_of_pendingCandidateAtSlot pending
    have hnext : (n.slot + count + 1) % 2 ^ 64 = n.slot + count + 1 := by
      simp only [maxUint64] at bound
      omega
    obtain ⟨-, plan, hplan, applied, rfl, rfl⟩ := Node.commitAuxiliary_spec commit
    refine ⟨candidate, pendingCandidate_eq_ok.mpr ⟨?_, ?_⟩, rfl⟩
    · change (n.slot + count + 1) % 2 ^ 64 ≠ 0
      omega
    · refine pendingCandidateAtSlot_congr S ?_ (pendingCandidateAtSlot_checks.background pending)
      change n.slot + count < (n.slot + count + 1) % 2 ^ 64
      omega
  | issue enqueued pending valid commit allowed =>
    obtain ⟨-, plan, hplan, applied, rfl, rfl⟩ := Node.commitAuxiliary_spec commit
    exact ⟨_, pendingCandidate_congr S rfl (pendingCandidate_checks.background pending), rfl⟩
  | fork name_ne allowed fresh found taint commit =>
    obtain ⟨-, plan, hplan, applied, rfl, rfl⟩ := Node.commitAuxiliary_spec commit
    exact hview rfl rfl rfl
  | checkpoint name_ne allowed current here commit =>
    obtain ⟨-, plan, hplan, applied, rfl, rfl⟩ := Node.commitAuxiliary_spec commit
    exact hview rfl rfl rfl
  | snapshot next current here => exact hview rfl rfl rfl
  | used known => exact hview rfl rfl rfl
  | pause allowed running commit =>
    obtain ⟨-, plan, hplan, applied, rfl, rfl⟩ := Node.commitAuxiliary_spec commit
    exact hview rfl rfl rfl
  | resume allowed paused commit =>
    obtain ⟨-, plan, hplan, applied, rfl, rfl⟩ := Node.commitAuxiliary_spec commit
    exact hview rfl rfl rfl

/-- Every act leaves a fresh view, unless it disables writes. -/
theorem Act.fresh (hE : E.Lawful) (I : n.toLedger.Inv E) (P : E.Projected n.db) (F : n.writeErr = none → Fresh E n)
    (h : E.Act Q n n') (hwrites : n'.writeErr = none) : Fresh E n' := by
  cases h with
  | mine plan commit live => exact fresh_rebuilt hwrites
  | control plan commit live => exact fresh_rebuilt hwrites
  | switch known allowed plan commit live => exact fresh_rebuilt hwrites
  | branch named plan commit =>
    have hmove : E.Move Q.toGuard n n' := .branch named plan commit
    have hhead : n'.db.headHash = n.db.headHash :=
      congrArg Chain.head (chain_branch hE (planBranch_spec hE I.chain.wellFormed plan) commit)
    obtain ⟨hbefore, plan, hplan, applied, rfl, rfl⟩ := commitPrepared_spec commit
    exact (F hbefore).keep (hmove.sameInputs hE I P hhead rfl rfl rfl) rfl rfl rfl
  | note note => exact note.fresh hE I P F hwrites
  | send allowed added pending => exact (fresh_setPendingView pending).congr rfl rfl rfl rfl rfl
  | sendMined allowed added plan commit live mined ends =>
    rcases ends with rfl | ⟨hdisabled, -⟩
    · subst mined
      exact (fresh_rebuilt hwrites).congr rfl rfl rfl rfl rfl
    · exact absurd hwrites hdisabled
  | drop view => exact fresh_rebuildPendingView view
  | recipient view => exact fresh_rebuildPendingView view
  | withdraw allowed room view => exact fresh_rebuildPendingView view
  | mode => exact (F hwrites).congr rfl rfl rfl rfl rfl

theorem Act.projected (hE : E.Lawful) (I : n.toLedger.Inv E) (P : E.Projected n.db) (h : E.Act Q n n') :
    E.Projected n'.db := by
  have hmoves := h.moves
  clear h
  induction hmoves with
  | refl => exact P
  | tail hrun hmove ih => exact hmove.projected hE (Move.run_inv hE I hrun) ih

theorem fresh_newNode (h : E.newNode = .ok n) : Fresh E n := by
  simp only [newNode, Except.do_ok_iff, Except.ok.injEq] at h
  obtain ⟨m, -, -, -, ⟨n₁, ctx₁⟩, hview, rfl⟩ := h
  exact fresh_rebuildPendingView hview

/-- In every reachable node that accepts writes the view is fresh. -/
theorem ReachableBy.fresh {R : Node E.geth.State → Command → Prop} (hE : E.Lawful) (h : E.ReachableBy R n)
    (hwrites : n.writeErr = none) : Fresh E n := by
  have hany {n : Node E.geth.State} {c : Command} (_ : R n c) : Obeys Guard.any.policy n c := { }
  exact (h.act_invariant (X := fun n => E.Projected n.db ∧ (n.writeErr = none → Fresh E n)) hE hany
    (fun hstart => ⟨projected_newNode hE hstart, fun _ => fresh_newNode hstart⟩)
    fun I X hact => ⟨hact.projected hE I X.1, hact.fresh hE I X.1 X.2⟩).2 hwrites

end Env

end Ethertest
