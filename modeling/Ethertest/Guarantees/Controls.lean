-- SUMMARY: Execution-request controls of every reachable node: none is lost, duplicated or reordered.
import Ethertest.Guarantees.Timeline
import Ethertest.Guarantees.Withdrawals
import Ethertest.Refinement.History

/-!
# Controls of reachable nodes

Of each type, the controls in the canonical blocks and the waiting ones are together all
that were ever issued, in the order of their IDs. So the checks of the queue never fail.
-/

namespace Ethertest

/-- The controls of a type in the canonical blocks, from the genesis to the head. -/
def Db.recordedControls (E : Env) (db : Db) (t : RequestType) : List QueuedExecutionRequest :=
  db.canonicalLine.reverse.flatMap fun b => (db.record (E.hash b)).elim [] fun record => record.controls.get t

/-- The controls of a type that were ever issued. -/
def Ledger.issued (l : Ledger) (t : RequestType) : List QueuedExecutionRequest := ofType l.history.issued t

/-- Controls are conserved in order, and the queue passes its checks in every use. -/
structure Ledger.ControlsConserved (E : Env) (l : Ledger) : Prop where
  /-- the canonical blocks hold the first controls of a type, the queue the others -/
  conserved : ∀ t, ∃ k, l.db.recordedControls E t = (l.issued t).take k ∧
    l.pendingExecutionRequests.get t = (l.issued t).drop k
  increasing : ∀ t, ((l.issued t).map (·.id)).Pairwise (· < ·)
  nextID : ∀ t, ∀ item ∈ l.issued t, item.id < l.pendingExecutionRequests.nextID
  /-- a switch to any stored block reconciles the queue -/
  switch : ∀ {h target}, l.db.blockByHash h = some target → ∃ oldHead oldPath newPath queue put,
    l.head = .ok oldHead ∧ E.divergentPaths l.db oldHead target = .ok (oldPath, newPath) ∧
      reconcileExecutionRequestQueue (loadExecutionRequestRecord l.db) l.pendingExecutionRequests
        (oldPath.map E.hash) (newPath.map E.hash) = .ok queue ∧
      executionRequestQueuePut queue = .ok put
  /-- what a block leaves of the queue can be stored -/
  remaining : ∀ {block native p}, prepareExecutionRequestBlock E.geth block native l.pendingExecutionRequests = .ok p →
    ∃ put, executionRequestQueuePut p.remaining = .ok put
  /-- and so can the queue with one more control -/
  enqueued : ∀ {requestType data queue}, l.pendingExecutionRequests.enqueue requestType data = .ok queue →
    ∃ put, executionRequestQueuePut queue = .ok put

namespace Ledger

variable {E : Env} {l : Ledger}

theorem recordedControls_eq {head : Block} (h : l.db.currentBlock = some head) (t : RequestType) :
    l.db.recordedControls E t = l.chain.consumed E head t := by
  rw [Db.recordedControls, canonicalLine_eq h, Chain.consumed, pathControls, ofType_flatMap, ← List.map_reverse,
    List.flatMap_map]
  congr 1
  funext b
  rw [ofType_items, Chain.recordOf]
  change (l.db.record (E.hash b)).elim [] _ = ((l.db.record (E.hash b)).getD _).controls.get t
  cases l.db.record (E.hash b) with
  | some record => rfl
  | none => cases t <;> rfl

/-- A queue that holds a part of what was issued can be stored. -/
theorem queuePut_of_sublist (R : l.chain.Requests E) {q : ExecutionRequestQueue}
    (hformat : q.format = l.pendingExecutionRequests.format)
    (hnext : q.nextID = l.pendingExecutionRequests.nextID) (hq : ∀ t, (q.get t).Sublist (l.issued t)) :
    ∃ put, executionRequestQueuePut q = .ok put := by
  have hvalid := R.issuance.validate_queue (hformat.trans R.format) hnext hq
  exact ⟨_, by rw [executionRequestQueuePut, hvalid]; rfl⟩

theorem Inv.switchQueue (hE : E.Lawful) (I : l.Inv E) {h : Hash} {target : Block}
    (htarget : l.db.blockByHash h = some target) : ∃ oldHead oldPath newPath queue put,
      l.head = .ok oldHead ∧ E.divergentPaths l.db oldHead target = .ok (oldPath, newPath) ∧
        reconcileExecutionRequestQueue (loadExecutionRequestRecord l.db) l.pendingExecutionRequests
          (oldPath.map E.hash) (newPath.map E.hash) = .ok queue ∧
        executionRequestQueuePut queue = .ok put := by
  have W := I.chain.wellFormed
  have R := I.chain.requests
  obtain ⟨head, hcurrent, hhead⟩ := I.exists_head
  obtain ⟨hmem, -⟩ := W.mem_of_blocks htarget
  have hsame : ∀ a b, l.chain.Mem E a → l.chain.Mem E b → (decide (E.hash a = E.hash b) = true ↔ a = b) :=
    fun a b _ _ => by rw [decide_eq_true_iff]; exact hE.blockHash_injective.eq_iff
  obtain ⟨oldPath, newPath, -, hpaths, -⟩ := W.tree.divergentPaths_spec hsame hhead.1 hmem
  obtain ⟨left, hleft⟩ := R.exists_left hmem
  have hqueue := R.reconcile_move W hE hhead hmem hpaths hleft
  obtain ⟨put, hput⟩ := queuePut_of_sublist R (q := l.pendingExecutionRequests.withControls (.ofFun left)) rfl rfl
    fun t => List.IsSuffix.sublist ⟨l.chain.consumed E target t, by
      rw [ExecutionRequestQueue.withControls_get, ExecutionRequestControlSet.get_ofFun]
      exact hleft t⟩
  refine ⟨head, oldPath, newPath, _, put, head_eq_ok.mpr hcurrent, ?_, ?_, hput⟩
  · rw [Env.divergentPaths, orFail_eq_ok]
    exact hpaths
  · rw [show loadExecutionRequestRecord l.db = l.chain.load from funext fun h => loadRecord_eq I.stored h]
    exact hqueue

theorem Inv.controlsConserved (hE : E.Lawful) (I : l.Inv E) : l.ControlsConserved E := by
  have R := I.chain.requests
  obtain ⟨head, hcurrent, hhead⟩ := I.exists_head
  have hconserved (t : RequestType) :
      l.chain.consumed E head t ++ l.pendingExecutionRequests.get t = l.issued t := R.conserved hhead t
  refine
    { conserved := fun t => ⟨(l.chain.consumed E head t).length, ?_, ?_⟩
      increasing := fun t => List.pairwise_map.mpr (R.issuance.ofType_pairwise t)
      nextID := fun t item hitem => (R.issuance.id_bounds (mem_ofType.mp hitem)).2
      switch := fun htarget => I.switchQueue hE htarget
      remaining := fun {block native p} hp => ?_
      enqueued := fun {requestType data queue} hq => ?_ }
  · rw [recordedControls_eq hcurrent, ← hconserved, List.take_left]
  · rw [← hconserved, List.drop_left]
  · have hspec := prepare_spec hp
    refine queuePut_of_sublist R hspec.remaining.1 hspec.remaining.2 fun t => ?_
    exact (List.IsSuffix.sublist ⟨_, hspec.split t⟩).trans (List.IsSuffix.sublist ⟨_, hconserved t⟩)
  · obtain ⟨t, -, hsize, rfl⟩ := ExecutionRequestQueue.enqueue_spec hq
    have R' := Chain.requests_issue R hsize
    have hvalid : validateExecutionRequestQueue (l.pendingExecutionRequests.push t data) = .ok () :=
      R'.issuance.validate_queue R'.format rfl fun u => List.IsSuffix.sublist ⟨_, R'.conserved hhead u⟩
    exact ⟨_, by rw [executionRequestQueuePut, hvalid]; rfl⟩

end Ledger

/-- The control that a command issues: what it asked for, if it succeeded, under the next ID. -/
def Command.issues (c : Command) (nextID : Nat) (result : Except Error Unit) : List TypedControl :=
  match result with
  | .ok _ => c.op.request.toList.map fun request => (request.1, ⟨nextID, request.2⟩)
  | .error _ => []

namespace Env

variable {E : Env} {n : Node E.geth.State}

/-- A request is refused, and nothing changes, or it is issued. -/
theorem addExecutionRequest_cases (n : Node E.geth.State) (ctx : Ctx) (t : RequestType) (data : Bytes) :
    (∃ err, (E.addExecutionRequest n ctx t.byte data).status = (n, .error err)) ∨
    ∃ n', (E.addExecutionRequest n ctx t.byte data).status = (n', .ok ()) ∧
      n'.history.issued = n.history.issued ++ [(t, ⟨n.pendingExecutionRequests.nextID, data⟩)] := by
  have hfail (err : Error) : (Outcome.fail n err : Outcome E.geth.State Unit).status = (n, .error err) := rfl
  unfold addExecutionRequest Node.executeWrite
  rcases settle_cases n _ with ⟨err, h⟩ | ⟨o, ho, h⟩ <;> rw [h]
  · exact .inl ⟨err, hfail err⟩
  simp only [Except.do_ok_iff, Except.ok.injEq] at ho
  obtain ⟨ctx₁, -, -, -, rfl⟩ := ho
  rcases settle_cases n _ with ⟨err, h⟩ | ⟨o, ho, h⟩ <;> rw [h]
  · exact .inl ⟨err, hfail err⟩
  simp only [Except.do_ok_iff, Except.ok.injEq] at ho
  obtain ⟨proposed, -, ⟨candidate, ctx'⟩, -, put, -, n', commit, rfl⟩ := ho
  obtain ⟨-, plan, -, applied, rfl, rfl⟩ := Node.commitAuxiliary_spec commit
  refine .inr ⟨_, rfl, ?_⟩
  change (E.recordIssued n t.byte data).issued = _
  cases t <;> rfl

/-- The issued controls are those that successful calls asked for. -/
theorem step_issued (n : Node E.geth.State) (c : Command) : (E.step n c).history.issued =
    n.history.issued ++ c.issues n.pendingExecutionRequests.nextID (E.execute n c).2 := by
  have hrequest {t : RequestType} {data : Bytes} (hop : c.op.request = some (t, data))
      (hexecute : E.execute n c = (E.addExecutionRequest n c.ctx t.byte data).status) :
      (E.step n c).history.issued =
        n.history.issued ++ c.issues n.pendingExecutionRequests.nextID (E.execute n c).2 := by
    rcases addExecutionRequest_cases n c.ctx t data with ⟨err, h⟩ | ⟨n', h, hissued⟩ <;> rw [step, hexecute, h]
    · exact (List.append_nil _).symm
    · rw [hissued, Command.issues, hop]
      rfl
  cases hop : c.op.request with
  | none =>
    have hguarded : Guarded { Guard.any with issue := False } n c := { issue := by simp [hop] }
    have hkept {m : Node E.geth.State}
        (h : Relation.ReflTransGen (E.Move { Guard.any with issue := False }) n m) :
        m.history.issued = n.history.issued := by
      induction h with
      | refl => rfl
      | tail _ hmove ih => exact (hmove.issued id).trans ih
    have hnone : c.issues n.pendingExecutionRequests.nextID (E.execute n c).2 = [] := by
      unfold Command.issues
      split
      · rw [hop]
        rfl
      · rfl
    rw [hnone, hkept (moves_step hguarded), List.append_nil]
  | some request =>
    obtain ⟨op, ctx⟩ := c
    cases op with
    | addDepositRequest request => exact hrequest rfl rfl
    | addWithdrawalRequest request => exact hrequest rfl rfl
    | addConsolidationRequest request => exact hrequest rfl rfl
    | _ => cases hop

end Env

/-- Controls are conserved in every reachable node, and the issued ones are exactly those that
the successful calls asked for, in order. -/
theorem reachable_controlsConserved {E : Env} (hE : E.Lawful) {n : Node E.geth.State} (h : E.Reachable n) :
    n.toLedger.ControlsConserved E ∧ (E.newNode = .ok n → n.history.issued = []) ∧
    ∀ c, (E.step n c).history.issued =
      n.history.issued ++ c.issues n.pendingExecutionRequests.nextID (E.execute n c).2 := by
  refine ⟨(h.inv hE).controlsConserved hE, fun hstart => ?_, E.step_issued n⟩
  obtain ⟨projection, record, -, -, hledger⟩ := Env.newNode_spec hstart
  rw [hledger]
  rfl

/-- Two consolidations are mined, more controls follow them, and all four are back in the queue
after the return; on the branch the first ones are mined again. -/
theorem reachable_controlsConserved_reference :
    (Reference.run Reference.reorg).toLedger.ControlsConserved Reference.env ∧
    ((Reference.run (Reference.reorg.take 9)).pendingExecutionRequests.consolidations.map (·.id) = [1, 2, 3] ∧
      (Reference.run (Reference.reorg.take 9)).pendingExecutionRequests.withdrawals.map (·.id) = [4]) ∧
    ((Reference.run Reference.reorg).db.recordedControls Reference.env .consolidation).map (·.id) = [1, 2] ∧
      (Reference.run Reference.reorg).pendingExecutionRequests.consolidations.map (·.id) = [3] ∧
      ((Reference.run Reference.reorg).db.recordedControls Reference.env .withdrawal).map (·.id) = [4] :=
  ⟨(reachable_controlsConserved Reference.lawful (Reference.reachable_run _)).1, by decide +kernel, by decide +kernel,
    by decide +kernel, by decide +kernel⟩

end Ethertest
