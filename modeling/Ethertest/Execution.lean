-- SUMMARY: What a generated block has in common with the inputs it was generated from.
import Ethertest.Lawful

/-!
# Generated blocks

A generated block keeps the header fields that were set for it, holds transactions that
were offered to it, and does not depend on when its caller's context would have been
cancelled. Its native requests are a function of its parent and of the block itself: a
transaction that is skipped leaves no trace, so executing the accepted ones again gives
the same result.
-/

namespace Ethertest

/-! ## Contexts -/

namespace Env

variable {E : Env}

/-! ## The transaction loop -/

/-- Apply transactions all of which must succeed. -/
def applyAll (E : Env) : List Transaction → Execution E.geth → Option (Execution E.geth)
  | [], x => some x
  | tx :: rest, x => do
    let message ← (E.geth.transactionToMessage E.config x.header tx).toOption
    let (receipt, access, state, gas) ←
      (E.geth.applyTransaction E.config x.header x.accepted.length tx message x.state x.gas).toOption
    applyAll E rest (E.accept x tx receipt access state gas)

/-- The accumulators without the list of blocked senders. -/
def unblocked (x : Execution E.geth) : Execution E.geth := { x with blocked := [] }

variable {skipInvalid : Bool} {txs : List Transaction} {withdrawals : Option (List Withdrawal)}
  {g : Generated E.geth.State} {parent : Block} {targetTime : Nat} {root : Hash} {extra : Bytes}
  {state : E.geth.State} {coinbase : Address}

/-- A round either skips its transaction, and then only a sender may be blocked, or
accepts it. -/
theorem applyOne_spec {tx : Transaction} {x x' : Execution E.geth}
    (h : E.applyOne skipInvalid x tx = .ok x') :
    unblocked x' = unblocked x ∨ ∃ message receipt access state gas,
      E.geth.transactionToMessage E.config x.header tx.withoutBlobTxSidecar = .ok message ∧
      E.geth.applyTransaction E.config x.header x.accepted.length tx.withoutBlobTxSidecar message x.state
        x.gas = .ok (receipt, access, state, gas) ∧
      x' = E.accept x tx.withoutBlobTxSidecar receipt access state gas := by
  have skipped {c : Bool} {y : Execution E.geth} {err : Error}
      (h : (if c then .ok y else .error err : Except Error (Execution E.geth)) = .ok x')
      (hy : unblocked y = unblocked x) : unblocked x' = unblocked x := by
    split at h
    · rw [← Except.ok.inj h, hy]
    · cases h
  simp only [applyOne] at h
  split at h
  · exact .inl (skipped h rfl)
  · split at h
    · exact .inl (by rw [Except.ok.inj h])
    · split at h
      · exact .inl (skipped h rfl)
      · next message hmessage =>
        split at h
        · exact .inl (skipped h rfl)
        · next receipt access state gas happly =>
          exact .inr ⟨message, receipt, access, state, gas, hmessage, happly, (Except.ok.inj h).symm⟩

/-- What the transaction loop did: it accepted some of the transactions offered, and
applying these alone gives the same result. -/
structure Applied (E : Env) (txs : List Transaction) (x x' : Execution E.geth) (accepted : List Transaction) :
    Prop where
  accepted_eq : x'.accepted = x.accepted ++ accepted
  offered : ∀ tx ∈ accepted, ∃ tx' ∈ txs, tx = tx'.withoutBlobTxSidecar
  header_eq : ∃ used, x'.header = { x.header with blobGasUsed := used }
  again : E.applyAll accepted (unblocked x) = some (unblocked x')

theorem applyTransactions_spec {ctx ctx' : Ctx} {x x' : Execution E.geth}
    (h : E.applyTransactions skipInvalid txs ctx x = .ok (x', ctx')) :
    ∃ accepted, Applied E txs x x' accepted := by
  induction txs generalizing ctx x with
  | nil =>
    simp only [applyTransactions, Except.ok.injEq, Prod.mk.injEq] at h
    obtain ⟨rfl, rfl⟩ := h
    exact ⟨[], by simp, by simp, ⟨_, rfl⟩, rfl⟩
  | cons tx rest ih =>
    simp only [applyTransactions, Except.do_ok_iff] at h
    obtain ⟨ctx₁, -, x₁, hone, h⟩ := h
    obtain ⟨accepted, happlied⟩ := ih h
    have hoffered : ∀ tx' ∈ accepted, ∃ tx'' ∈ tx :: rest, tx' = tx''.withoutBlobTxSidecar := by
      intro tx' htx'
      obtain ⟨tx'', hmem, heq⟩ := happlied.offered tx' htx'
      exact ⟨tx'', List.mem_cons_of_mem _ hmem, heq⟩
    obtain ⟨used, hused⟩ := happlied.header_eq
    rcases applyOne_spec hone with hx | ⟨message, receipt, access, state, gas, hmessage, happly, rfl⟩
    · have hacc : x₁.accepted = x.accepted := congrArg (fun y => y.accepted) hx
      have hhead : x₁.header = x.header := congrArg (fun y => y.header) hx
      exact ⟨accepted, by rw [happlied.accepted_eq, hacc], hoffered, ⟨used, by rw [hused, hhead]⟩,
        by rw [← hx, happlied.again]⟩
    · refine ⟨tx.withoutBlobTxSidecar :: accepted, ?_, ?_, ⟨used, hused⟩, ?_⟩
      · rw [happlied.accepted_eq]
        simp [accept]
      · exact List.forall_mem_cons.mpr ⟨⟨tx, List.mem_cons_self, rfl⟩, hoffered⟩
      · have hmessage' : E.geth.transactionToMessage E.config (unblocked x).header
            tx.withoutBlobTxSidecar = .ok message := hmessage
        have happly' : E.geth.applyTransaction E.config (unblocked x).header
            (unblocked x).accepted.length tx.withoutBlobTxSidecar message (unblocked x).state
            (unblocked x).gas = .ok (receipt, access, state, gas) := happly
        rw [applyAll, hmessage']
        simp only [Except.toOption, Option.bind_eq_bind, Option.bind_some, happly']
        exact happlied.again

theorem applyTransactions_checks (txs : List Transaction) (x : Execution E.geth) :
    Ctx.Checks fun ctx => E.applyTransactions skipInvalid txs ctx x := by
  induction txs generalizing x with
  | nil => exact .ok x
  | cons tx rest ih => exact .check (.lift ih)

/-! ## Generated blocks -/

/-- The native requests of a block, from its parent and the inputs it was executed with. -/
def nativeRequests (E : Env) (parent : Block) (targetTime : Nat) (root : Hash) (extra : Bytes)
    (coinbase : Address) (txs : List Transaction) : Option (Option (List Bytes)) := do
  let state ← (E.geth.openState parent.root).toOption
  let header ← (E.geth.prepare E.config parent.header
    (E.childHeader parent targetTime root extra coinbase)).toOption
  let x ← E.applyAll txs (E.startExecution parent.header header state)
  let result ← (E.geth.postExecution E.config { x.header with gasUsed := E.geth.gasUsed x.gas } x.logs
    (x.accepted.length + 1) x.state).toOption
  some result.1

/-- The header fields of a child that were set for it. -/
structure Child (E : Env) (parent block : Block) (targetTime : Nat) (root : Hash) (extra : Bytes)
    (coinbase : Address) : Prop where
  parentHash : block.parentHash = E.hash parent
  number : block.number = parent.number + 1
  time : block.time = targetTime
  extra : block.header.extra = extra
  coinbase : block.header.coinbase = coinbase
  slotNumber : E.geth.isAmsterdam E.config block.number block.time →
    block.header.slotNumber = some ((targetTime - E.genesisTime) / E.slotDuration)
  parentBeaconRoot : block.header.parentBeaconRoot =
    if E.geth.isCancun E.config (parent.number + 1) targetTime then some root else none

/-- What is known about a generated block. -/
structure Generates (E : Env) (parent : Block) (targetTime : Nat) (root : Hash) (txs : List Transaction)
    (extra : Bytes) (coinbase : Address) (g : Generated E.geth.State) : Prop where
  child : Child E parent g.block targetTime root extra coinbase
  offered : ∀ tx ∈ g.block.transactions, ∃ tx' ∈ txs, tx = tx'.withoutBlobTxSidecar
  native : E.nativeRequests parent targetTime root extra coinbase g.block.transactions = some g.requests
  verified : verifyExecutionRequestsHash E.geth g.block g.requests = .ok ()

/-- A sealed execution: the post-execution step gave its requests, and the block was
assembled from the accepted transactions. -/
theorem sealExecution_spec (hE : E.Lawful) {x : Execution E.geth}
    (h : E.sealExecution x withdrawals = .ok g) :
    (∃ rest, E.geth.postExecution E.config { x.header with gasUsed := E.geth.gasUsed x.gas } x.logs
      (x.accepted.length + 1) x.state = .ok (g.requests, rest)) ∧
    (∃ root used requests bal, g.block.header = { x.header with
      root := root, gasUsed := used, requestsHash := requests, blockAccessListHash := bal }) ∧
    g.block.transactions = x.accepted ∧
    verifyExecutionRequestsHash E.geth g.block g.requests = .ok () := by
  simp only [sealExecution, Except.do_ok_iff] at h
  obtain ⟨⟨requests, access, state⟩, hpost, h⟩ := h
  simp only at h
  split at h
  · cases h
  · simp only [Except.do_ok_iff, Except.unit_ok_iff, Except.ok.injEq] at h
    obtain ⟨-, receipts, -, hverify, rfl⟩ := h
    obtain ⟨root, bal, hheader⟩ := hE.assembled_header _ _ _ _ _ _
    exact ⟨⟨_, hpost⟩, ⟨_, _, _, _, hheader⟩, hE.assembled_transactions _ _ _ _ _ _, hverify⟩

theorem generateBlock_spec (hE : E.Lawful) {ctx ctx' : Ctx}
    (hstate : E.geth.openState parent.root = .ok state)
    (h : E.generateBlock ctx parent targetTime root txs withdrawals skipInvalid extra state coinbase =
      .ok (g, ctx')) : Generates E parent targetTime root txs extra coinbase g := by
  simp only [generateBlock, Except.do_ok_iff, Except.ok.injEq, Prod.mk.injEq] at h
  obtain ⟨ctx₁, -, -, -, header, hprepare, ⟨x, ctx₂⟩, hloop, generated, hseal, rfl, -⟩ := h
  obtain ⟨accepted, happlied⟩ := applyTransactions_spec hloop
  obtain ⟨⟨rest, hpost⟩, ⟨_, _, _, _, hheader⟩, htxs, hverify⟩ := sealExecution_spec hE hseal
  obtain ⟨used, hused⟩ := happlied.header_eq
  obtain rfl := hE.prepare_eq hprepare
  have hall : x.accepted = accepted := happlied.accepted_eq
  refine ⟨?_, by rw [htxs, hall]; exact happlied.offered, ?_, hverify⟩
  · constructor
    all_goals
      simp +contextual [Block.parentHash, Block.number, Block.time, hheader, hused, startExecution, childHeader]
  · have hagain : E.applyAll generated.block.transactions (E.startExecution parent.header
        (E.childHeader parent targetTime root extra coinbase) state) = some (unblocked x) := by
      rw [htxs, hall]
      exact happlied.again
    have hpost' : E.geth.postExecution E.config
        { (unblocked x).header with gasUsed := E.geth.gasUsed (unblocked x).gas } (unblocked x).logs
        ((unblocked x).accepted.length + 1) (unblocked x).state = .ok (generated.requests, rest) := hpost
    simp only [nativeRequests, hstate, hprepare, hagain, hpost', Except.toOption, Option.bind_eq_bind,
      Option.bind_some]

theorem generateBlock_checks : Ctx.Checks fun ctx =>
      E.generateBlock ctx parent targetTime root txs withdrawals skipInvalid extra state coinbase :=
  .check <| .lift fun _ => .lift fun _ => .bind (applyTransactions_checks ..) fun _ => .lift fun g => .ok g

/-- The parent's Beacon root matters only if the header has a place for it. -/
theorem Child.nativeRequests_eq {block : Block} (h : Child E parent block targetTime root extra coinbase)
    (txs : List Transaction) :
    E.nativeRequests parent targetTime root extra coinbase txs =
      E.nativeRequests parent block.time (block.header.parentBeaconRoot.getD 0) extra coinbase txs := by
  have hheader : E.childHeader parent targetTime root extra coinbase =
      E.childHeader parent block.time (block.header.parentBeaconRoot.getD 0) extra coinbase := by
    rw [h.time, h.parentBeaconRoot]
    by_cases hc : E.geth.isCancun E.config (parent.number + 1) targetTime <;> simp [childHeader, hc]
  unfold nativeRequests
  rw [hheader]

end Env

end Ethertest
