-- SUMMARY: The tables of the pool agree in every reachable node, unless a cheap pooled transaction is sent again.
import Ethertest.Pool.Tables
import Ethertest.Refinement.Start

/-!
# The pool of a reachable node

A transaction enters the pool when it is sent and leaves it when it is mined or dropped. The
tables of the pool stay in agreement, with one exception: a pooled transaction that is sent
again passes the price check if both its caps are below ten, and its arrival number is lost.
-/

namespace Ethertest

open TransactionPool (Pooled Shrinks Inserted)

namespace Env

variable {E : Env} {signer : Transaction → Address} {content : Hash → Transaction}
  {n n' m : Node E.geth.State} {ctx ctx' : Ctx}

/-! ## What is mined was pooled -/

private theorem pooled_of_selectTrace {baseFee : Option Nat} {orders : Nat → Store Address Nat → List (Address × Nat)}
    {fuel : Nat} {nextNonce : Store Address Nat} {item : Address × Transaction}
    (h : item ∈ E.selectTrace n baseFee orders fuel nextNonce) : n.pool.Pooled item.2 := by
  induction fuel generalizing nextNonce with
  | zero => cases h
  | succ fuel ih =>
    rw [selectTrace] at h
    split at h
    · cases h
    · next a tx hselect =>
      rcases List.mem_cons.mp h with rfl | hmem
      · rw [selectTransactionIn_eq] at hselect
        obtain ⟨nonce, -, hlookup⟩ := mem_candidates.mp (Merge.mem_of_least hselect)
        exact ⟨a, nonce, hlookup⟩
      · exact ih hmem

variable {tx : Transaction} {empty : Bool} {x : Extension} {pool : TransactionPool}

private theorem pooled_of_executable {head : Block} {txs : List Transaction}
    (h : E.executableTransactions n head = .ok txs) (htx : tx ∈ txs) : n.pool.Pooled tx := by
  simp only [executableTransactions, Except.do_ok_iff, Except.ok.injEq] at h
  obtain ⟨state, -, rfl⟩ := h
  rw [selectLoop_eq] at htx
  obtain ⟨item, hitem, rfl⟩ := List.mem_map.mp htx
  exact pooled_of_selectTrace hitem

theorem buildBlockAtSlot_pooled (hE : E.Lawful) {root : Hash} {slot : Nat} {built : Built E.geth.State}
    (h : E.buildBlockAtSlot n ctx empty root slot = .ok (built, ctx')) :
    ∀ tx ∈ built.generated.block.transactions, ∃ y, n.pool.Pooled y ∧ tx = y.withoutBlobTxSidecar := by
  simp only [buildBlockAtSlot, Except.do_ok_iff, Except.ok.injEq, Prod.mk.injEq] at h
  obtain ⟨parent, -, withdrawals, -, txs, htxs, -, -, -, -, state, hstate, ⟨g, ctx₁⟩, hgen, rfl, -⟩ := h
  intro tx htx
  obtain ⟨y, hy, rfl⟩ := (generateBlock_spec hE (newCandidateState_eq_ok.mp hstate) hgen).offered tx htx
  refine ⟨y, ?_, rfl⟩
  split at hy
  · cases hy
  · exact pooled_of_executable htxs hy

theorem planMine_pooled (hE : E.Lawful) (h : E.planMine n ctx empty = .ok (x, ctx')) :
    ∀ tx ∈ x.block.transactions, ∃ y, n.pool.Pooled y ∧ tx = y.withoutBlobTxSidecar := by
  obtain ⟨parent, projection, built, p, receipts, stored, put, committed, -, -, hbuild, hprepared, -, -, -, -, -,
    rfl⟩ := planMine_ok h
  obtain ⟨⟨_, _, _, _, -, htxs⟩, -⟩ := resealed_of_assembles (prepare_spec hprepared)
  intro tx htx
  rw [Extension.block, htxs] at htx
  exact buildBlockAtSlot_pooled hE (buildBlock_ok hbuild).2 tx htx

/-! ## What the acts do to the pool -/

theorem rebuilt_pool (n : Node E.geth.State) (ctx : Ctx) : (E.rebuilt n ctx).pool = n.pool := by
  rcases rebuilt_cases n ctx with ⟨candidate, ctx', -, h⟩ | ⟨err, -, h⟩ <;> rw [h] <;> rfl

theorem rebuildPendingView_pool {n₀ : Node E.geth.State} (h : E.rebuildPendingView n₀ ctx = .ok (n', ctx'))
    (hpool : n₀.pool = pool) : n'.pool = pool := by
  obtain ⟨candidate, -, rfl⟩ := rebuildPendingView_spec h
  exact hpool

theorem commitPrepared_pool {operation : PreparedOperation} {events : List Event} {mutation : Mutation}
    {apply : Node E.geth.State → Node E.geth.State} (h : E.commitPrepared n operation events mutation apply = .ok m) :
    ∃ db, m.pool = (apply { n with db := db }).pool := by
  obtain ⟨-, plan, -, applied, rfl, rfl⟩ := commitPrepared_spec h
  exact ⟨_, rfl⟩

theorem mine_pool (h : E.commitPrepared n (E.mineOperation n x) (E.mineEvents n x)
    (.extend x.block x.receipts) (E.mineApply n x) = .ok m) : m.pool = n.pool.removeMined E x.block := by
  obtain ⟨db, hpool⟩ := commitPrepared_pool h
  rw [hpool, mineApply]
  simp only
  split <;> rfl

/-- Transactions that are sent must be admitted. -/
def admitting (E : Env) (content : Hash → Transaction) (signer : Transaction → Address) : Policy E.geth.State where
  send n tx := n.pool.Admits content signer tx

theorem validationTransaction_spec {header : Header} {tx' : Transaction}
    (h : E.validationTransaction header tx = .ok tx') :
    tx.withoutBlobTxSidecar = tx'.withoutBlobTxSidecar ∧ tx'.sidecar.isSome = tx.sidecar.isSome := by
  unfold validationTransaction at h
  split at h
  · rw [← Except.ok.inj h]
    exact ⟨rfl, rfl⟩
  · next sidecar hsidecar =>
    simp only [Except.do_ok_iff] at h
    obtain ⟨-, -, h⟩ := h
    split at h
    · split at h
      · rw [← Except.ok.inj h, hsidecar]
        exact ⟨rfl, rfl⟩
      · cases h
    · rw [← Except.ok.inj h]
      exact ⟨rfl, rfl⟩

private theorem retainedBundle_isSome {bundle : Option BlobBundle} (h : E.retainedBundle tx = .ok bundle)
    (hsidecar : tx.sidecar.isSome) : bundle.isSome := by
  unfold retainedBundle at h
  split at h
  · next hnone => rw [hnone] at hsidecar; cases hsidecar
  · split at h
    · rw [← Except.ok.inj h]
      rfl
    · cases h

theorem addTransaction_inserted (hS : E.Signed signer) (S : n.pool.Sound signer)
    (G : n.pool.Genuine content) (A : n.pool.Admits content signer tx)
    (h : E.addTransaction n tx = .ok pool) : Inserted signer content n.pool pool tx := by
  simp only [addTransaction, Except.do_ok_iff, Except.unit_ok_iff, Except.ok.injEq] at h
  obtain ⟨head, -, validationTx, hvalidation, hvalid, state, -, hprice, -, bundle, hbundle, rfl⟩ := h
  obtain ⟨hsame, hsidecar⟩ := validationTransaction_spec hvalidation
  obtain ⟨a, ha⟩ := hS.validated hvalid hsame
  obtain rfl := hS.sender ha
  rw [ha] at hprice ⊢
  refine TransactionPool.insertTransaction_inserted (fun hblob => ?_) hS S G A hprice
  have hblobs : validationTx.blobHashes = tx.blobHashes := (congrArg Transaction.blobHashes hsame.symm :)
  exact retainedBundle_isSome hbundle (hsidecar ▸ hS.sidecar hvalid (hblobs ▸ hblob))

/-- What an act makes of the pool. -/
inductive PoolChange (E : Env) (Q : Policy E.geth.State) (n : Node E.geth.State) : TransactionPool → Prop
  | same : PoolChange E Q n n.pool
  | mined {ctx ctx' : Ctx} {empty : Bool} {x : Extension} (plan : E.planMine n ctx empty = .ok (x, ctx')) :
      PoolChange E Q n (n.pool.removeMined E x.block)
  | sent {tx : Transaction} {pool : TransactionPool} (allowed : Q.send n tx)
      (added : E.addTransaction n tx = .ok pool) :
      PoolChange E Q n pool
  | sentMined {ctx ctx' : Ctx} {tx : Transaction} {pool : TransactionPool} {x : Extension} (allowed : Q.send n tx)
      (added : E.addTransaction n tx = .ok pool) (plan : E.planMine { n with pool := pool } ctx false = .ok (x, ctx')) :
      PoolChange E Q n (pool.removeMined E x.block)
  | dropped (select : Address → Transaction → Bool) : PoolChange E Q n (E.removeSelected n select).1

theorem Act.poolChange {Q : Policy E.geth.State} (h : E.Act Q n n') : PoolChange E Q n n'.pool := by
  have hkept {pool : TransactionPool} (hpool : pool = n.pool) : PoolChange E Q n pool := hpool ▸ .same
  cases h with
  | mine plan commit live =>
    rw [rebuilt_pool, mine_pool commit]
    exact .mined plan
  | control plan commit live =>
    obtain ⟨db, hpool⟩ := commitPrepared_pool commit
    exact hkept ((rebuilt_pool _ _).trans hpool)
  | branch named plan commit =>
    obtain ⟨db, hpool⟩ := commitPrepared_pool commit
    exact hkept hpool
  | switch known allowed plan commit live =>
    obtain ⟨db, hpool⟩ := commitPrepared_pool commit
    exact hkept ((rebuilt_pool _ _).trans hpool)
  | note note => exact hkept note.aside.pool
  | send allowed added pending => exact .sent allowed added
  | sendMined allowed added plan commit live mined ends =>
    rcases ends with rfl | ⟨-, rfl⟩
    · rw [mined, rebuilt_pool, mine_pool commit]
      exact .sentMined allowed added plan
    · exact .same
  | drop view =>
    rw [rebuildPendingView_pool view rfl]
    exact .dropped _
  | recipient view => exact hkept (rebuildPendingView_pool view rfl)
  | withdraw allowed room view => exact hkept (rebuildPendingView_pool view rfl)
  | mode => exact .same

private theorem mined_keeps (hE : E.Lawful) (hS : E.Signed signer) (n : Node E.geth.State) (S : n.pool.Sound signer)
    (G : n.pool.Genuine content) (plan : E.planMine n ctx empty = .ok (x, ctx')) :
    (n.pool.removeMined E x.block).Sound signer ∧ (n.pool.removeMined E x.block).Genuine content := by
  obtain ⟨hsound, hshrinks⟩ := TransactionPool.removeMined_keeps hS S (planMine_pooled hE plan)
  exact ⟨hsound, G.shrinks hshrinks⟩

/-- An act keeps the tables of the pool in agreement. -/
theorem Act.poolSound (hE : E.Lawful) (hS : E.Signed signer) (S : n.pool.Sound signer) (G : n.pool.Genuine content)
    (h : E.Act (E.admitting content signer) n n') : n'.pool.Sound signer ∧ n'.pool.Genuine content := by
  have hchange := h.poolChange
  generalize n'.pool = pool at hchange ⊢
  cases hchange with
  | same => exact ⟨S, G⟩
  | mined plan => exact mined_keeps hE hS n S G plan
  | sent allowed added =>
    have hinserted := addTransaction_inserted hS S G allowed added
    exact ⟨hinserted.sound, hinserted.genuine⟩
  | @sentMined _ _ tx pool x allowed added plan =>
    have hinserted := addTransaction_inserted hS S G allowed added
    exact mined_keeps hE hS { n with pool := pool } hinserted.sound hinserted.genuine plan
  | dropped select =>
    obtain ⟨hsound, hshrinks⟩ := TransactionPool.removeSelected_keeps S
    exact ⟨hsound, G.shrinks hshrinks⟩

/-- Every transaction that is sent is admitted by the pool. -/
def SendsAdmitted (E : Env) (content : Hash → Transaction) (signer : Transaction → Address) (n : Node E.geth.State)
    (c : Command) : Prop :=
  ∀ tx, c.op = .sendTransaction tx → n.pool.Admits content signer tx

theorem ReachableBy.poolSound (hE : E.Lawful) (hS : E.Signed signer)
    (h : E.ReachableBy (E.SendsAdmitted content signer) n) : n.pool.Sound signer ∧ n.pool.Genuine content := by
  have hobeys {n : Node E.geth.State} {c : Command} (hc : E.SendsAdmitted content signer n c) :
      Obeys (E.admitting content signer) n c := { send := hc }
  refine h.act_invariant (X := fun n => n.pool.Sound signer ∧ n.pool.Genuine content) hE hobeys (fun hstart => ?_)
    fun _ ⟨S, G⟩ hact => hact.poolSound hE hS S G
  obtain ⟨l, candidate, ctx, -, rfl⟩ := newNode_idle hstart
  refine ⟨TransactionPool.sound_empty, ?_⟩
  rintro tx ⟨a, nonce, htx⟩
  change (({} : TransactionPool).lookup a nonce) = some tx at htx
  simp [TransactionPool.lookup] at htx

end Env

/-- The tables of the pool agree in every node that is reached by sending admitted
transactions, and a replacement keeps the arrival number. -/
theorem reachable_poolSound {E : Env} {signer : Transaction → Address} {content : Hash → Transaction}
    {n : Node E.geth.State} (hE : E.Lawful) (hS : E.Signed signer)
    (h : E.ReachableBy (E.SendsAdmitted content signer) n) :
    n.pool.Sound signer ∧
    ∀ tx pool, n.pool.Admits content signer tx → E.addTransaction n tx = .ok pool →
      ∀ previous ∈ n.pool.lookup (signer tx) tx.nonce, pool.arrival[tx.hash]? = n.pool.arrival[previous.hash]? := by
  obtain ⟨S, G⟩ := h.poolSound hE hS
  exact ⟨S, fun tx pool A hadd => (Env.addTransaction_inserted hS S G A hadd).replaced⟩

namespace Reference

theorem signed : env.Signed fun _ => 7 where
  sender h := Except.ok.inj h
  stripped _ := rfl
  validated _ _ := ⟨7, rfl⟩
  sidecar h hblob := by
    have h : ¬(_ ∧ _) := failIf_eq_ok.mp h
    exact Option.isSome_iff_ne_none.mpr fun hnone => h ⟨hblob, hnone⟩

/-- A transaction with a fee cap of nine. -/
def cheap : Transaction := { hash := 21, nonce := 0, gasFeeCap := 9, gasTipCap := 1, cost := 0 }

/-- A replacement for it. -/
def dearer : Transaction := { hash := 22, nonce := 0, gasFeeCap := 10, gasTipCap := 2, cost := 0 }

def sent (hash : Hash) : Transaction := if hash = 21 then cheap else dearer

theorem reachable_poolSound_replaced :
    (run [⟨.sendTransaction cheap, none⟩, ⟨.sendTransaction dearer, none⟩]).pool.Sound (fun _ => 7) ∧
    (run [⟨.sendTransaction cheap, none⟩, ⟨.sendTransaction dearer, none⟩]).pool.arrival[22]? = some 1 := by
  have hfirst : env.SendsAdmitted sent (fun _ => 7) start ⟨.sendTransaction cheap, none⟩ := by
    rintro tx ⟨⟩
    exact ⟨rfl, by decide +kernel, fun _ => by decide +kernel⟩
  have hsecond : env.SendsAdmitted sent (fun _ => 7) (env.step start ⟨.sendTransaction cheap, none⟩)
      ⟨.sendTransaction dearer, none⟩ := by
    rintro tx ⟨⟩
    exact ⟨rfl, by decide +kernel, fun _ => by decide +kernel⟩
  refine ⟨(reachable_poolSound lawful signed (.step (.step (.start newNode_eq) hfirst) hsecond)).1, by decide +kernel⟩

/-- The same transaction sent twice is pooled without an arrival number. -/
theorem not_poolSound_resent :
    env.Reachable (run [⟨.sendTransaction cheap, none⟩, ⟨.sendTransaction cheap, none⟩]) ∧
    ¬ (run [⟨.sendTransaction cheap, none⟩, ⟨.sendTransaction cheap, none⟩]).pool.Sound fun _ => 7 := by
  refine ⟨reachable_run _, fun S => ?_⟩
  have hpooled : (run [⟨.sendTransaction cheap, none⟩, ⟨.sendTransaction cheap, none⟩]).pool.lookup 7 0 =
      some cheap := by
    decide +kernel
  have hlost : (run [⟨.sendTransaction cheap, none⟩, ⟨.sendTransaction cheap, none⟩]).pool.arrival[21]? = none := by
    decide +kernel
  have harrived := (S.arrived 21).mpr ⟨cheap, ⟨7, 0, hpooled⟩, rfl⟩
  rw [hlost] at harrived
  cases harrived

end Reference

end Ethertest
