-- SUMMARY: Enabling automine drains the pool: every round mines a pooled transaction, and the loop ends.
import Ethertest.Guarantees.Pending
import Ethertest.Pool.Entries

/-!
# Enabling automine

`SetAutomine` mines while the published view has executable transactions. The view is the next
block, so every round mines a transaction of the pool and takes it out. The loop ends after at
most as many rounds as there are pooled transactions, and then none of those that are left would
be in the next block.
-/

namespace Ethertest

open TransactionPool (Entered)

namespace Env

variable {E : Env} {Q : Policy E.geth.State} {signer : Transaction → Address} {n n' m : Node E.geth.State}
  {ctx ctx' : Ctx}

/-! ## Senders of mined transactions -/

/-- The accepted transactions have senders. -/
def Recovered (E : Env) (x : Execution E.geth) : Prop :=
  ∀ tx ∈ x.accepted, ∃ a, E.geth.sender E.config x.header.number x.header.time tx = .ok a

theorem recovered_applyOne {skipInvalid : Bool} {tx : Transaction} {x x' : Execution E.geth} (R : Recovered E x)
    (h : E.applyOne skipInvalid x tx = .ok x') : Recovered E x' := by
  have skipped {c : Bool} {y : Execution E.geth} {err : Error}
      (h : (if c then .ok y else .error err : Except Error (Execution E.geth)) = .ok x') (hy : Recovered E y) :
      Recovered E x' := by
    split at h
    · exact Except.ok.inj h ▸ hy
    · cases h
  simp only [applyOne] at h
  split at h
  · exact skipped h R
  · next sender hsender =>
    split at h
    · exact Except.ok.inj h ▸ R
    · split at h
      · exact skipped h R
      · split at h
        · exact skipped h R
        · obtain rfl := Except.ok.inj h
          intro y hy
          rcases List.mem_append.mp hy with hy | hy
          · exact R y hy
          · exact ⟨sender, List.mem_singleton.mp hy ▸ hsender⟩

private theorem recovered_applyTransactions {skipInvalid : Bool} {txs : List Transaction} {x x' : Execution E.geth}
    (R : Recovered E x) (h : E.applyTransactions skipInvalid txs ctx x = .ok (x', ctx')) : Recovered E x' := by
  induction txs generalizing ctx x with
  | nil =>
    simp only [applyTransactions, Except.ok.injEq, Prod.mk.injEq] at h
    exact h.1 ▸ R
  | cons tx rest ih =>
    simp only [applyTransactions, Except.do_ok_iff] at h
    obtain ⟨ctx₁, -, x₁, hone, h⟩ := h
    exact ih (recovered_applyOne R hone) h

private theorem generateBlock_senders (hE : E.Lawful) {parent : Block} {time : Nat} {root : Hash}
    {txs : List Transaction}
    {withdrawals : Option (List Withdrawal)} {skipInvalid : Bool} {extra : Bytes} {state : E.geth.State}
    {coinbase : Address} {g : Generated E.geth.State}
    (h : E.generateBlock ctx parent time root txs withdrawals skipInvalid extra state coinbase = .ok (g, ctx')) :
    ∀ tx ∈ g.block.transactions, ∃ a, E.geth.sender E.config g.block.number g.block.time tx = .ok a := by
  simp only [generateBlock, Except.do_ok_iff, Except.ok.injEq, Prod.mk.injEq] at h
  obtain ⟨ctx₁, -, -, -, header, -, ⟨x, ctx₂⟩, hloop, generated, hseal, rfl, -⟩ := h
  have R : Recovered E x := recovered_applyTransactions (fun tx htx => by cases htx) hloop
  obtain ⟨-, ⟨_, _, _, _, hheader⟩, htxs, -⟩ := sealExecution_spec hE hseal
  simp only [Block.number, Block.time, hheader, htxs]
  exact R

theorem planMine_senders (hE : E.Lawful) {empty : Bool} {x : Extension} (h : E.planMine n ctx empty = .ok (x, ctx')) :
    ∀ tx ∈ x.block.transactions, ∃ a, E.geth.sender E.config x.block.number x.block.time tx = .ok a := by
  obtain ⟨parent, projection, built, p, receipts, stored, put, committed, -, -, hbuild, hprepared, -, -, -, -, -,
    rfl⟩ := planMine_ok h
  obtain ⟨⟨_, _, _, _, hheader, htxs⟩, -⟩ := resealed_of_assembles (prepare_spec hprepared)
  have hbuild := (buildBlock_ok hbuild).2
  simp only [buildBlockAtSlot, Except.do_ok_iff, Except.ok.injEq, Prod.mk.injEq] at hbuild
  obtain ⟨_, -, _, -, _, -, -, -, -, -, _, -, ⟨g, ctx₁⟩, hgen, rfl, -⟩ := hbuild
  have hsenders := generateBlock_senders hE hgen
  simp only [Extension.block, Block.number, Block.time, hheader, htxs]
  exact hsenders

/-! ## Entries of a reachable node's pool -/

private theorem entered_addTransaction (hS : E.Signed signer) (N : n.pool.Entered signer) {tx : Transaction}
    {pool : TransactionPool} (h : E.addTransaction n tx = .ok pool) : pool.Entered signer := by
  simp only [addTransaction, Except.do_ok_iff, Except.unit_ok_iff, Except.ok.injEq] at h
  obtain ⟨head, -, validationTx, hvalidation, hvalid, state, -, -, -, bundle, -, rfl⟩ := h
  obtain ⟨a, ha⟩ := hS.validated hvalid (validationTransaction_spec hvalidation).1
  obtain rfl := hS.sender ha
  rw [ha]
  exact N.insertTransaction

theorem Act.entered (hS : E.Signed signer) (N : n.pool.Entered signer) (h : E.Act Q n n') : n'.pool.Entered signer := by
  have hchange := h.poolChange
  generalize n'.pool = pool at hchange ⊢
  cases hchange with
  | same => exact N
  | mined plan => exact N.within (TransactionPool.within_removeMined _)
  | sent allowed added => exact entered_addTransaction hS N added
  | sentMined allowed added plan =>
      exact (entered_addTransaction hS N added).within (TransactionPool.within_removeMined _)
  | dropped select => exact N.within (TransactionPool.within_removeSelected select)

/-! ## The loop -/

/-- The loop goes on: the published view has an executable transaction. -/
def Ready (n : Node E.geth.State) : Prop := ∃ view, n.pendingView = some view ∧ view.executable.isEmpty = false

/-- Rounds of the loop, one after the other. -/
inductive Rounds (E : Env) (n : Node E.geth.State) (ctx : Ctx) : Node E.geth.State → Ctx → Prop
  | start : Rounds E n ctx n ctx
  | next {m : Node E.geth.State} {ctx₁ ctx₂ ctx₃ : Ctx} {mined : Block × List Receipt} (rounds : Rounds E n ctx m ctx₁)
      (ready : Ready m) (live : ctx₁.check = .ok ctx₂)
      (mines : (E.mineExecutionBlock m ctx₂ false).result = .ok (mined, ctx₃)) :
      Rounds E n ctx (E.mineExecutionBlock m ctx₂ false).node ctx₃

/-- What holds of the node between rounds. -/
structure Steady (signer : Transaction → Address) (n : Node E.geth.State) : Prop where
  inv : n.toLedger.Inv E
  projected : E.Projected n.db
  fresh : n.writeErr = none → Fresh E n
  entered : n.pool.Entered signer

theorem Steady.acts (hE : E.Lawful) (hS : E.Signed signer) (S : Steady signer n)
    (h : Relation.ReflTransGen (E.Act Q) n n') : Steady signer n' := by
  induction h with
  | refl => exact S
  | tail hrun hact ih =>
    exact ⟨Move.run_inv hE ih.inv hact.moves, hact.projected hE ih.inv ih.projected,
      hact.fresh hE ih.inv ih.projected ih.fresh, hact.entered hS ih.entered⟩

theorem Steady.mined (hE : E.Lawful) (hS : E.Signed signer) (S : Steady signer n) :
    Steady signer (E.mineExecutionBlock n ctx false).node := by
  have hacts : Acts E Guard.any.policy n (E.mineExecutionBlock n ctx false) := acts_mineExecutionBlock fun h => h.elim
  exact S.acts hE hS hacts.run

theorem Steady.rounds (hE : E.Lawful) (hS : E.Signed signer) (S : Steady signer n) (h : Rounds E n ctx m ctx') :
    Steady signer m := by
  induction h with
  | start => exact S
  | next rounds ready live mines ih => exact ih.mined hE hS

/-- A view that was rebuilt after a commit leaves writes as they were. -/
theorem rebuildAfterCommit_ok {α : Type} {message : String} {value value' : α}
    (h : (E.rebuildAfterCommit n ctx message value).result = .ok (value', ctx')) :
    value' = value ∧ (E.rebuildAfterCommit n ctx message value).node.pool = n.pool ∧
      (E.rebuildAfterCommit n ctx message value).node.writeErr = n.writeErr := by
  unfold rebuildAfterCommit at h ⊢
  cases hview : E.rebuildPendingView n ctx with
  | error err =>
    rw [hview] at h
    cases h
  | ok result =>
    rw [hview] at h
    obtain ⟨candidate, -, heq⟩ := rebuildPendingView_spec hview
    refine ⟨(Prod.mk.inj (Except.ok.inj h)).1.symm, ?_, ?_⟩
    · change result.1.pool = n.pool
      rw [heq]
      rfl
    · change result.1.writeErr = n.writeErr
      rw [heq]
      rfl

private theorem mine_writeErr {x : Extension} (h : E.commitPrepared n (E.mineOperation n x) (E.mineEvents n x)
    (.extend x.block x.receipts) (E.mineApply n x) = .ok m) : n.writeErr = none ∧ m.writeErr = none := by
  obtain ⟨hwrites, plan, -, applied, happlied, rfl⟩ := commitPrepared_spec h
  refine ⟨hwrites, ?_⟩
  change applied.writeErr = none
  rw [happlied, mineApply]
  simp only
  split <;> exact hwrites

/-- A round mines a pooled transaction and takes it out of the pool. -/
theorem Steady.round (hE : E.Lawful) (hS : E.Signed signer) (S : Steady signer n) (hready : Ready n)
    {mined : Block × List Receipt} (h : (E.mineExecutionBlock n ctx false).result = .ok (mined, ctx')) :
    ((E.mineExecutionBlock n ctx false).node.head = .ok mined.1 ∧
      (∃ tx ∈ mined.1.transactions, ∃ y, n.pool.Pooled y ∧ tx.hash = y.hash) ∧
      (E.mineExecutionBlock n ctx false).node.pool.count < n.pool.count) ∧
      (E.mineExecutionBlock n ctx false).node.writeErr = none := by
  rcases @mineExecutionBlock_cases E n ctx false with ⟨err, hfail⟩ | ⟨x, ctx₁, m, plan, commit, heq⟩
  · rw [hfail] at h
    cases h
  · obtain ⟨hbefore, hafter⟩ := mine_writeErr commit
    obtain ⟨c, hc, hview⟩ := S.fresh hbefore
    have hblock := planMine_candidate plan hc
    rw [heq] at h ⊢
    obtain ⟨rfl, hpool, hwrites⟩ := rebuildAfterCommit_ok h
    -- the view has an executable transaction, so the mined block has one
    have hne : x.block.transactions ≠ [] := by
      obtain ⟨view, hsome, hexecutable⟩ := hready
      obtain rfl : view = Node.viewOf n.pool c := Option.some.inj (hsome.symm.trans hview)
      rw [hblock]
      intro hnil
      have hempty : (hashSet c.block.transactions).isEmpty = true := by
        rw [hnil]
        rfl
      exact absurd (hempty.symm.trans hexecutable) (by decide)
    have hpooled := planMine_pooled hE plan
    refine ⟨⟨?_, ?_, ?_⟩, hwrites.trans hafter⟩
    · have hhead := head_mined hE S.inv plan commit
      rw [rebuildAfterCommit_ledger]
      exact hhead
    · obtain ⟨tx, rest, htxs⟩ := List.exists_cons_of_ne_nil hne
      have hmem : tx ∈ x.block.transactions := htxs ▸ List.mem_cons_self
      obtain ⟨y, hy, heq⟩ := hpooled tx hmem
      exact ⟨tx, hmem, y, hy, by rw [heq]; rfl⟩
    · rw [hpool]
      change m.pool.count < n.pool.count
      rw [mine_pool commit]
      exact TransactionPool.removeMined_count_lt hS S.entered hpooled (planMine_senders hE plan) hne

/-- A loop that is not ready is left. -/
theorem drainPool_done (h : ¬ Ready n) (fuel : Nat) : E.drainPool fuel n ctx = .done n () ctx := by
  have hstop : n.pendingView.elim true (fun view => view.executable.isEmpty) = true := by
    cases hview : n.pendingView with
    | none => rfl
    | some view => exact Bool.not_eq_false _ ▸ fun hempty => h ⟨view, hview, hempty⟩
  unfold drainPool
  rw [if_pos hstop]

theorem drainPool_round (h : Ready n) (fuel : Nat) : E.drainPool (fuel + 1) n ctx = .settle n (do
    let ctx ← ctx.check
    .ok ((E.mineExecutionBlock n ctx false).andThen fun n _ ctx => E.drainPool fuel n ctx)) := by
  obtain ⟨view, hview, hexecutable⟩ := h
  rw [drainPool, hview, Option.elim_some, hexecutable]
  rfl

/-- A view with an executable transaction is one over a pool that is not empty. -/
theorem Steady.count_pos (hE : E.Lawful) (S : Steady signer n) (hwrites : n.writeErr = none) (hready : Ready n) :
    0 < n.pool.count := by
  obtain ⟨c, hc, hview⟩ := S.fresh hwrites
  obtain ⟨view, hsome, hexecutable⟩ := hready
  obtain rfl : view = Node.viewOf n.pool c := Option.some.inj (hsome.symm.trans hview)
  cases htxs : c.block.transactions with
  | nil =>
    have hempty : (hashSet c.block.transactions).isEmpty = true := by
      rw [htxs]
      rfl
    exact absurd (hempty.symm.trans hexecutable) (by decide)
  | cons tx rest =>
    obtain ⟨y, ⟨a, nonce, hy⟩, -⟩ := candidate_pooled hE hc tx (htxs ▸ List.mem_cons_self)
    rw [← TransactionPool.length_entries]
    exact List.length_pos_of_mem ((TransactionPool.mem_entries _).mpr (Option.isSome_iff_exists.mpr ⟨y, hy⟩))

/-- The number of pooled transactions is fuel enough. -/
theorem Steady.drainPool_fuel (hE : E.Lawful) (hS : E.Signed signer) (S : Steady signer n) (hwrites : n.writeErr = none)
    {fuel fuel' : Nat} (hfuel : n.pool.count ≤ fuel) (hfuel' : n.pool.count ≤ fuel') :
    E.drainPool fuel n ctx = E.drainPool fuel' n ctx := by
  induction hcount : n.pool.count using Nat.strong_induction_on generalizing n ctx fuel fuel' with
  | _ count ih =>
    by_cases hready : Ready n
    · have hpos := S.count_pos hE hwrites hready
      obtain ⟨k, rfl⟩ : ∃ k, fuel = k + 1 := ⟨fuel - 1, by omega⟩
      obtain ⟨k', rfl⟩ : ∃ k', fuel' = k' + 1 := ⟨fuel' - 1, by omega⟩
      rw [drainPool_round hready, drainPool_round hready]
      cases ctx.check with
      | error err => rfl
      | ok ctx₁ =>
        have hnext : ((E.mineExecutionBlock n ctx₁ false).andThen fun n _ ctx => E.drainPool k n ctx) =
            (E.mineExecutionBlock n ctx₁ false).andThen fun n _ ctx => E.drainPool k' n ctx := by
          unfold Outcome.andThen
          split
          · next mined ctx₂ hresult =>
            obtain ⟨⟨-, -, hlt⟩, hstill⟩ := S.round hE hS hready hresult
            exact ih _ (hcount ▸ hlt) (S.mined hE hS) hstill (by omega) (by omega) rfl
          · rfl
        simp only [Except.ok_do, hnext]
    · rw [drainPool_done hready, drainPool_done hready]

/-- If no round fails, the loop ends after some rounds, when there is nothing left to mine. -/
theorem Steady.drainPool_ends (hE : E.Lawful) (hS : E.Signed signer) (S : Steady signer n) (hwrites : n.writeErr = none)
    (hrounds : ∀ m ctx₁, Rounds E n ctx m ctx₁ → Ready m → ∃ ctx₂ out, ctx₁.check = .ok ctx₂ ∧
      (E.mineExecutionBlock m ctx₂ false).result = .ok out) {fuel : Nat} (hfuel : n.pool.count ≤ fuel) :
    ∃ m ctx', Rounds E n ctx m ctx' ∧ E.drainPool fuel n ctx = .done m () ctx' := by
  suffices h : ∀ count m ctx₁ fuel, m.pool.count = count → Rounds E n ctx m ctx₁ → m.writeErr = none → count ≤ fuel →
      ∃ m' ctx', Rounds E n ctx m' ctx' ∧ E.drainPool fuel m ctx₁ = .done m' () ctx' from
    h _ n ctx fuel rfl .start hwrites hfuel
  intro count
  induction count using Nat.strong_induction_on with
  | _ count ih =>
    intro m ctx₁ fuel hcount hrun hwrites hfuel
    by_cases hready : Ready m
    · have Sm := S.rounds hE hS hrun
      have hpos := Sm.count_pos hE hwrites hready
      obtain ⟨k, rfl⟩ : ∃ k, fuel = k + 1 := ⟨fuel - 1, by omega⟩
      obtain ⟨ctx₂, ⟨mined, ctx₃⟩, hlive, hresult⟩ := hrounds m ctx₁ hrun hready
      obtain ⟨⟨-, -, hlt⟩, hstill⟩ := Sm.round hE hS hready hresult
      obtain ⟨m', ctx', hrun', hdone⟩ :=
        ih _ (hcount ▸ hlt) _ ctx₃ k rfl (.next hrun hready hlive hresult) hstill (by omega)
      refine ⟨m', ctx', hrun', ?_⟩
      rw [drainPool_round hready, hlive, Except.ok_do, Outcome.settle_ok, Outcome.andThen, hresult]
      exact hdone
    · exact ⟨m, ctx₁, hrun, drainPool_done hready fuel⟩

/-- The node after a loop that ended. -/
theorem Steady.drained (hE : E.Lawful) (hS : E.Signed signer) (S : Steady signer n) (hwrites : n.writeErr = none)
    {fuel : Nat} {u : Unit} (h : (E.drainPool fuel n ctx).result = .ok (u, ctx')) :
    Steady signer (E.drainPool fuel n ctx).node ∧ (E.drainPool fuel n ctx).node.writeErr = none ∧
      ¬ Ready (E.drainPool fuel n ctx).node := by
  induction fuel generalizing n ctx with
  | zero =>
    by_cases hready : Ready n
    · obtain ⟨view, hview, hexecutable⟩ := hready
      rw [drainPool, hview, Option.elim_some, hexecutable] at h
      cases h
    · rw [drainPool_done hready]
      exact ⟨S, hwrites, hready⟩
  | succ fuel ih =>
    by_cases hready : Ready n
    · rw [drainPool_round hready] at h ⊢
      cases hlive : ctx.check with
      | error err =>
        rw [hlive] at h
        cases h
      | ok ctx₁ =>
        rw [hlive, Except.ok_do, Outcome.settle_ok, Outcome.andThen] at h
        rw [Except.ok_do, Outcome.settle_ok, Outcome.andThen]
        cases hresult : (E.mineExecutionBlock n ctx₁ false).result with
        | error err =>
          rw [hresult] at h
          cases h
        | ok out =>
          rw [hresult] at h
          obtain ⟨-, hstill⟩ := S.round hE hS hready hresult
          exact ih (S.mined hE hS) hstill h
    · rw [drainPool_done hready]
      exact ⟨S, hwrites, hready⟩

/-- With nothing executable in the view, the next block has no transactions. -/
theorem next_empty (F : Fresh E n) (hready : ¬ Ready n) {x : Extension}
    (plan : E.planMine n ctx false = .ok (x, ctx')) :
    x.block.transactions = [] := by
  obtain ⟨c, hc, hview⟩ := F
  rw [planMine_candidate plan hc]
  by_contra hne
  obtain ⟨tx, rest, htxs⟩ := List.exists_cons_of_ne_nil hne
  have hmem : tx.hash ∈ hashSet c.block.transactions := mem_hashSet.mpr ⟨tx, htxs ▸ List.mem_cons_self, rfl⟩
  refine hready ⟨_, hview, ?_⟩
  rw [Bool.eq_false_iff]
  intro hempty
  have hnil : hashSet c.block.transactions = ∅ := Std.ExtTreeMap.isEmpty_iff.mp hempty
  rw [hnil] at hmem
  exact absurd hmem Std.ExtTreeMap.not_mem_empty

/-- The mining mode is not an input of the view. -/
theorem Fresh.setMiningMode (F : Fresh E n) (mode : MiningMode) : Fresh E (n.setMiningMode mode) :=
  F.congr rfl rfl rfl rfl rfl

theorem setAutomine_ok {u : Unit} (h : (E.setAutomine n ctx true).result = .ok (u, ctx')) :
    ∃ ctx₁ ctx₂, n.writeErr = none ∧ (E.drainPool n.pool.count n ctx₁).result = .ok ((), ctx₂) ∧
      (E.setAutomine n ctx true).node = (E.drainPool n.pool.count n ctx₁).node.setMiningMode .transaction := by
  obtain ⟨o, ho, heq⟩ := settle_ok_of_result h
  simp only [Except.do_ok_iff, Node.checkWrites_eq_ok, exists_const, Except.ok.injEq, Bool.not_true, Bool.false_eq_true,
    if_false] at ho
  obtain ⟨ctx₁, -, hwrites, rfl⟩ := ho
  change (E.setAutomine n ctx true) = _ at heq
  rw [heq] at h ⊢
  unfold Outcome.andThen at h ⊢
  cases hresult : (E.drainPool n.pool.count n ctx₁).result with
  | error err =>
    rw [hresult] at h
    cases h
  | ok out => exact ⟨ctx₁, out.2, hwrites, hresult, rfl⟩

/-- A loop that ends lets the command return. -/
theorem setAutomine_of_drained {ctx₁ : Ctx} (hwrites : n.writeErr = none) (hlive : ctx.check = .ok ctx₁)
    (h : E.drainPool n.pool.count n ctx₁ = .done m () ctx') :
    E.setAutomine n ctx true = .done (m.setMiningMode .transaction) () ctx' := by
  simp only [setAutomine, Node.executeWrite, hlive, Except.ok_do, Node.checkWrites, hwrites, Outcome.settle_ok, h]
  rfl

/-- A reachable node. -/
theorem ReachableBy.steady {R : Node E.geth.State → Command → Prop} (hE : E.Lawful) (hS : E.Signed signer)
    (h : E.ReachableBy R n) : Steady signer n := by
  have hany {n : Node E.geth.State} {c : Command} (_ : R n c) : Obeys Guard.any.policy n c := { }
  obtain ⟨start, hstart, hacts⟩ := h.acts hany
  refine Steady.acts hE hS ⟨inv_newNode hE hstart, projected_newNode hE hstart, fun _ => fresh_newNode hstart, ?_⟩ hacts
  obtain ⟨l, candidate, ctx, -, rfl⟩ := newNode_idle hstart
  intro a nonce tx htx
  change (({} : TransactionPool).lookup a nonce) = some tx at htx
  simp [TransactionPool.lookup] at htx

end Env

/-- What enabling automine has to do on a node. -/
structure Env.Drains (E : Env) (n : Node E.geth.State) : Prop where
  /-- every round commits a block with a pooled transaction, and leaves fewer in the pool -/
  round : ∀ {ctx m ctx₁ ctx₂ mined ctx₃}, E.Rounds n ctx m ctx₁ → Ready m →
    (E.mineExecutionBlock m ctx₂ false).result = .ok (mined, ctx₃) →
    (E.mineExecutionBlock m ctx₂ false).node.head = .ok mined.1 ∧
    (∃ tx ∈ mined.1.transactions, ∃ y, m.pool.Pooled y ∧ tx.hash = y.hash) ∧
    (E.mineExecutionBlock m ctx₂ false).node.pool.count < m.pool.count
  /-- no more rounds are needed than there are pooled transactions -/
  bounded : ∀ {ctx fuel}, n.writeErr = none → n.pool.count ≤ fuel → E.drainPool fuel n ctx =
    E.drainPool n.pool.count n ctx
  /-- the command returns, unless a round fails or is cancelled -/
  returns : ∀ {ctx ctx₁}, n.writeErr = none → ctx.check = .ok ctx₁ →
    (∀ m ctx₂, E.Rounds n ctx₁ m ctx₂ → Ready m → ∃ ctx₃ out, ctx₂.check = .ok ctx₃ ∧
      (E.mineExecutionBlock m ctx₃ false).result = .ok out) →
    ∃ ctx', (E.setAutomine n ctx true).result = .ok ((), ctx')
  /-- and then the next block would have no transactions -/
  drained : ∀ {ctx ctx'}, (E.setAutomine n ctx true).result = .ok ((), ctx') → ∀ {ctx₁ x ctx₂},
    E.planMine (E.setAutomine n ctx true).node ctx₁ false = .ok (x, ctx₂) → x.block.transactions = []

open Env in
/-- Enabling automine on a reachable node drains its pool. -/
theorem setAutomine_drains {E : Env} {signer : Transaction → Address} (hE : E.Lawful) (hS : E.Signed signer)
    {n : Node E.geth.State} (h : E.Reachable n) : E.Drains n := by
  have S : Steady signer n := h.steady hE hS
  refine ⟨fun hrun hready hresult => ((S.rounds hE hS hrun).round hE hS hready hresult).1,
    fun hwrites hfuel => S.drainPool_fuel hE hS hwrites hfuel le_rfl, fun hwrites hlive hrounds => ?_,
    fun {ctx ctx'} hresult {ctx₁ x ctx₂} plan => ?_⟩
  · obtain ⟨m, ctx', -, hdone⟩ := S.drainPool_ends hE hS hwrites hrounds le_rfl
    exact ⟨ctx', by rw [setAutomine_of_drained hwrites hlive hdone]; rfl⟩
  · obtain ⟨ctx₃, ctx₄, hwrites, hdrained, hnode⟩ := setAutomine_ok hresult
    obtain ⟨S', hwrites', hready⟩ := S.drained hE hS hwrites hdrained
    rw [hnode] at plan
    exact next_empty ((S'.fresh hwrites').setMiningMode _) hready plan

namespace Reference

/-- A pooled transaction is mined when automine is enabled. -/
theorem setAutomine_drains_reference :
    (run [⟨.setAutomine false, none⟩, ⟨.sendTransaction cheap, none⟩]).pool.count = 1 ∧
    (env.setAutomine (run [⟨.setAutomine false, none⟩, ⟨.sendTransaction cheap, none⟩]) none true).node.pool.count = 0 ∧
    env.Drains (run [⟨.setAutomine false, none⟩, ⟨.sendTransaction cheap, none⟩]) :=
  ⟨by decide +kernel, by decide +kernel, setAutomine_drains lawful signed (reachable_run _)⟩

end Reference

end Ethertest
