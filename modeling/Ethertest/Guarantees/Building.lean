-- SUMMARY: When the next block can be built: geth does its part, and the slot has a timestamp and withdrawal indices.
import Ethertest.Control.Expansion
import Ethertest.Guarantees.Assembly
import Ethertest.Guarantees.Skipping
import Ethertest.Guarantees.Withdrawals
import Ethertest.Refinement.Pending

/-!
# Blocks that can be built

Building a block opens the parent's state, executes what is offered, seals the block, assembles
its requests and commits. `Executes` says what is needed of geth for that: states can be opened
again after a commit, transactions leave a state `fit` for the calls at the end of a block, and so
do overrides of accounts that these calls do not need. The rest is the node's: its projections,
its withdrawal indices and its request queue never stand in the way.
-/

namespace Ethertest

/-- The overrides leave the given accounts alone. -/
def ControlChanges.Spares (changes : ControlChanges) (system : Address → Prop) : Prop :=
  ∀ a, system a → changes[a]? = none

namespace Env

/-- What is needed of geth. A state is `fit`, with the logs that a block has so far, if the calls
at the end of the block succeed on it; the accounts in `system` are the ones they need. -/
structure Executes (E : Env) (system : Address → Prop) (fit : E.geth.State → List Log → Prop) : Prop where
  genesis : ∃ s, E.geth.openState E.genesis.block.root = .ok s ∧ fit s []
  reopens : ∀ {number time s logs root entries stable}, fit s logs →
    E.geth.commit E.config number time s = .ok (root, entries, stable) →
    ∃ s', E.geth.openState root = .ok s' ∧ fit s' []
  prepares : ∀ parent header, ∃ header', E.geth.prepare E.config parent header = .ok header'
  starts : ∀ {s} parent header, fit s [] → fit (E.geth.preExecution E.config parent header s).1 []
  applies : ∀ {header index tx message s gas logs receipt access s' gas'}, fit s logs →
    E.geth.applyTransaction E.config header index tx message s gas = .ok (receipt, access, s', gas') →
    fit s' (logs ++ receipt.logs)
  /-- the requests are well-formed, and builder requests come only with a slot number -/
  finishes : ∀ {s logs} header index, fit s logs → ∃ requests access s',
    E.geth.postExecution E.config header logs index s = .ok (requests, access, s') ∧ fit s' logs ∧
    (∀ l, requests = some l → ListAccepted l) ∧
    (header.slotNumber = none → ∀ request ∈ requests.getD [], ∀ b ∈ request.head?, b < executionRequestBuilderDeposit)
  finalizes : ∀ {s logs} header txs withdrawals index access, fit s logs →
    E.geth.stateError (E.geth.finalize E.config header txs withdrawals index access s).1 = none ∧
    fit (E.geth.finalize E.config header txs withdrawals index access s).1 logs
  /-- the access list of an assembled block is valid, and its root is the one that is committed -/
  assembles : ∀ {s logs block} header txs withdrawals receipts access, fit s logs →
    E.geth.assembleBlock E.config header s txs withdrawals receipts access = block →
    (∀ list, block.accessList = some list → E.geth.validateAccessList list header.gasLimit txs.length = .ok ()) ∧
    ∃ entries stable, E.geth.commit E.config header.number header.time s = .ok (block.root, entries, stable)
  derives : ∀ {block : Block} {receipts} fee, receipts.length = block.transactions.length →
    ∃ derived, E.geth.deriveFields E.config block fee receipts = .ok derived ∧ derived.length = receipts.length
  setBalance : ∀ {a s logs} balance, ¬ system a → fit s logs → fit (E.geth.setBalance a balance s) logs
  setNonce : ∀ {a s logs} nonce, ¬ system a → fit s logs → fit (E.geth.setNonce a nonce s) logs
  setCode : ∀ {a s logs} code, ¬ system a → fit s logs → fit (E.geth.setCode a code s) logs
  setStorage : ∀ {a s logs} storage, ¬ system a → fit s logs → fit (E.geth.setStorage a storage s) logs
  setState : ∀ {a s logs} key value, ¬ system a → fit s logs → fit (E.geth.setState a key value s) logs
  prepareControl : ∀ {s logs} number time, fit s logs → fit (E.geth.prepareControl E.config number time s) logs
  finaliseControl : ∀ {s logs} number time, fit s logs → fit (E.geth.finaliseControl E.config number time s).1 logs

variable {E : Env} {system : Address → Prop} {fit : E.geth.State → List Log → Prop} {n n' m : Node E.geth.State}
  {ctx ctx' : Ctx}

/-! ## Generated blocks -/

/-- The execution of a block can go on: its state is fit, and every transaction has a receipt. -/
structure Going (fit : E.geth.State → List Log → Prop) (x : Execution E.geth) : Prop where
  state : fit x.state x.logs
  receipts : x.receipts.length = x.accepted.length

/-- A generated block that can be assembled with requests and committed. -/
structure Finished (fit : E.geth.State → List Log → Prop) (g : Generated E.geth.State) : Prop where
  verified : verifyExecutionRequestsHash E.geth g.block g.requests = .ok ()
  parsed : ∃ v, parseExecutionRequests g.requests = .ok v
  receipts : g.receipts.length = g.block.transactions.length
  state : ∃ logs, fit g.state logs
  committed : ∃ entries stable,
    E.geth.commit E.config g.block.number g.block.time g.state = .ok (g.block.root, entries, stable)

namespace Executes

variable (X : E.Executes system fit)
include X

variable {skipInvalid : Bool} {txs : List Transaction} {s : E.geth.State} {parent : Block}
  {g : Generated E.geth.State} {logs : List Log} {changes : ControlChanges}

theorem going_loop {x x' : Execution E.geth} (G : Going fit x)
    (h : E.applyTransactions skipInvalid txs ctx x = .ok (x', ctx')) : Going fit x' := by
  induction txs generalizing ctx x with
  | nil =>
    obtain ⟨rfl, -⟩ := Prod.mk.inj (Except.ok.inj h)
    exact G
  | cons tx rest ih =>
    simp only [applyTransactions, Except.do_ok_iff] at h
    obtain ⟨ctx₁, -, x₁, hone, h⟩ := h
    refine ih ?_ h
    rcases applyOne_spec hone with hsame | ⟨message, receipt, access, state, gas, -, happly, rfl⟩
    · have hunblocked : Going fit (unblocked x₁) := hsame ▸ ⟨G.state, G.receipts⟩
      exact ⟨hunblocked.state, hunblocked.receipts⟩
    · exact ⟨X.applies G.state happly, by simp [accept, G.receipts]⟩

theorem sealExecution_ok (hE : E.Lawful) {x : Execution E.geth} (G : Going fit x)
    (withdrawals : Option (List Withdrawal)) : ∃ g, E.sealExecution x withdrawals = .ok g ∧ Finished fit g := by
  obtain ⟨requests, access, s, hpost, hfit, haccepted, hbuilder⟩ :=
    X.finishes { x.header with gasUsed := E.geth.gasUsed x.gas } (x.accepted.length + 1) G.state
  -- before Prague there are no requests to parse
  have hparsed : ∃ v, parseExecutionRequests requests = .ok v := by
    cases requests with
    | none => exact ⟨none, rfl⟩
    | some l => exact parse_some_ok_iff.mpr (haccepted l rfl)
  let header : Header :=
    { x.header with gasUsed := E.geth.gasUsed x.gas, requestsHash := requests.map E.geth.calcRequestsHash }
  let paid := if E.geth.isShanghai E.config header.number header.time ∧ withdrawals = none then some [] else withdrawals
  let final := E.geth.finalize E.config header x.accepted paid (x.accepted.length + 1) (E.geth.merge x.access access) s
  obtain ⟨hnone, hfinal⟩ : E.geth.stateError final.1 = none ∧ fit final.1 x.logs := X.finalizes _ _ _ _ _ hfit
  generalize hblock : E.geth.assembleBlock E.config header final.1 x.accepted paid x.receipts final.2 = block
  obtain ⟨haccess, entries, stable, hcommit⟩ := X.assembles _ _ _ _ _ hfinal hblock
  obtain ⟨root, bal, hheader⟩ : ∃ root bal, block.header = { header with root := root, blockAccessListHash := bal } :=
    hblock ▸ hE.assembled_header _ _ _ _ _ _
  have htransactions : block.transactions = x.accepted := hblock ▸ hE.assembled_transactions _ _ _ _ _ _
  -- the access list is checked against the assembled block, whose gas limit and transactions are those executed
  have hchecked : E.checkAccessList block = .ok () := by
    unfold checkAccessList
    split
    · next list hlist =>
      rw [hheader, htransactions]
      exact haccess list hlist
    · rfl
  obtain ⟨derived, hderived, hlength⟩ : ∃ derived, E.deriveReceiptFields block x.receipts = .ok derived ∧
      derived.length = x.receipts.length :=
    X.derives _ (G.receipts.trans (congrArg List.length htransactions).symm)
  have hverified : verifyExecutionRequestsHash E.geth block requests = .ok () :=
    verify_ok (by rw [hheader]) (by rw [hheader]; exact hbuilder)
  refine ⟨⟨block, derived, final.1, requests⟩, ?_, hverified, hparsed, ?_, ⟨_, hfinal⟩, entries, stable, ?_⟩
  · rw [sealExecution, hpost]
    simp only [Except.ok_do]
    split
    · next err herr => cases hnone.symm.trans herr
    · change (do
        let block := E.geth.assembleBlock E.config header final.1 x.accepted paid x.receipts final.2
        E.checkAccessList block
        let receipts ← E.deriveReceiptFields block x.receipts
        verifyExecutionRequestsHash E.geth block requests
        .ok (⟨block, receipts, final.1, requests⟩ : Generated E.geth.State)) = _
      simp only [hblock, hchecked, hderived, hverified, Except.ok_do]
  · rw [hlength, htransactions]
    exact G.receipts
  · have hnumber : block.number = header.number := by rw [Block.number, hheader]
    have htime : block.time = header.time := by rw [Block.time, hheader]
    rw [hnumber, htime]
    exact hcommit

omit X in
private theorem going_start (X : E.Executes system fit) (hs : fit s []) (parent header : Header) :
    Going fit (E.startExecution parent header s) :=
  ⟨X.starts parent header hs, rfl⟩

/-- A block that was generated on a fit state is finished. -/
theorem finished (hE : E.Lawful) {targetTime : Nat} {root : Hash} {withdrawals : Option (List Withdrawal)}
    {extra : Bytes} {coinbase : Address} (hs : fit s [])
    (h : E.generateBlock ctx parent targetTime root txs withdrawals skipInvalid extra s coinbase = .ok (g, ctx')) :
    Finished fit g := by
  simp only [generateBlock, Except.do_ok_iff, Except.ok.injEq, Prod.mk.injEq] at h
  obtain ⟨ctx₁, -, -, -, header, -, ⟨x, ctx₂⟩, hloop, g', hseal, rfl, -⟩ := h
  obtain ⟨g, hseal', hfinished⟩ := X.sealExecution_ok hE (X.going_loop (X.going_start hs _ _) hloop) withdrawals
  rwa [Except.ok.inj (hseal.symm.trans hseal')]

omit X in
theorem fit_elim {α : Type} {f : α → E.geth.State → E.geth.State}
    (hf : ∀ v {s}, fit s logs → fit (f v s) logs) (hs : fit s logs) (o : Option α) :
    fit (o.elim s fun v => f v s) logs := by
  cases o with
  | none => exact hs
  | some v => exact hf v hs

private theorem override_fit {a : Address} (ha : ¬ system a) (hs : fit s logs) (change : AccountChanges) :
    fit (E.override a change s) logs := by
  have hdiff (items : List (Hash × Hash)) {s : E.geth.State} (hs : fit s logs) :
      fit (items.foldl (fun s item => E.geth.setState a item.1 item.2 s) s) logs := by
    induction items generalizing s with
    | nil => exact hs
    | cons item items ih => exact ih (X.setState _ _ ha hs)
  have hbalance := fit_elim (fun v _ h => X.setBalance (Int.toNat v) ha h) hs change.balance
  have hnonce := fit_elim (fun v _ h => X.setNonce v ha h) hbalance change.nonce
  have hcode := fit_elim (fun v _ h => X.setCode (Option.getD v []) ha h) hnonce change.code
  have hstorage := fit_elim (fun v _ h => X.setStorage v ha h) hcode change.storage
  exact fit_elim (fun v _ h => hdiff (Std.ExtTreeMap.toList v) h) hstorage change.storageDiff

private theorem applyAccountChanges_fit (hchanges : changes.Spares system) {s' : E.geth.State} (hs : fit s logs)
    (h : E.applyAccountChanges changes s = .ok s') : fit s' logs := by
  -- the loop runs over the entries, so the condition on lookups is turned into one on them
  have hitems : ∀ item ∈ changes.toList, ¬ system item.1 := fun item hitem hsystem => by
    have hget := Store.mem_toList.mp hitem
    rw [hchanges item.1 hsystem] at hget
    cases hget
  unfold applyAccountChanges at h
  generalize changes.toList = items at h hitems
  induction items generalizing s with
  | nil =>
    obtain rfl := Except.ok.inj h
    exact hs
  | cons item items ih =>
    rw [List.foldlM_cons, Except.do_ok_iff] at h
    obtain ⟨s₁, hone, h⟩ := h
    obtain ⟨-, rfl⟩ := applyChange_eq_ok.mp hone
    rw [List.forall_mem_cons] at hitems
    exact ih (X.override_fit hitems.1 hs item.2) h hitems.2

theorem overrideBlock_fit (hchanges : changes.Spares system) {block : Block} (hs : fit g.state logs)
    (h : E.overrideBlock ctx parent g changes = .ok (block, s, ctx')) : fit s logs := by
  by_cases hA : E.geth.isAmsterdam E.config g.block.number g.block.time
  · simp only [overrideBlock, hA, if_true, Except.do_ok_iff, Except.unit_ok_iff, Except.ok.injEq, Prod.mk.injEq] at h
    obtain ⟨⟨expanded, ctx₁⟩, hexpand, s₁, happly, -, _, rfl, -, rfl, -⟩ := h
    obtain ⟨_, -, hspec⟩ := expandStorageReplacements_spec hexpand
    -- the expansion adds storage writes only to accounts that are overridden anyway
    have hspares : expanded.Spares system := fun a ha => (hspec a).1 (hchanges a ha)
    exact X.finaliseControl _ _ (X.applyAccountChanges_fit hspares (X.prepareControl _ _ hs) happly)
  · simp only [overrideBlock, hA, Bool.false_eq_true, if_false, Except.do_ok_iff, Except.ok.injEq, Prod.mk.injEq] at h
    obtain ⟨_, ⟨rfl, rfl⟩, s₁, happly, _, ⟨rfl, -⟩, -, rfl, -⟩ := h
    exact X.applyAccountChanges_fit hchanges hs happly

end Executes

/-! ## Stored states -/

/-- The states of all stored blocks can be opened, and are fit. -/
def Opens (fit : E.geth.State → List Log → Prop) (db : Db) : Prop :=
  ∀ h b, db.blockByHash h = some b → ∃ s, E.geth.openState b.root = .ok s ∧ fit s []

variable {b : Block} {s : E.geth.State}

theorem Opens.fit_state {db : Db} (R : Opens fit db) {h : Hash} (hb : db.blockByHash h = some b)
    (hs : E.newCandidateState b.root = .ok s) : fit s [] := by
  obtain ⟨s', hopen, hfit⟩ := R h b hb
  rwa [Except.ok.inj ((newCandidateState_eq_ok.mp hs).symm.trans hopen)]

/-- The root of a committed block can be opened. -/
theorem Executes.committed_root (X : E.Executes system fit) {logs : List Log} (hs : fit s logs)
    {block : Block} {committed : Committed E.geth.State} (h : E.commitCandidate s block = .ok committed)
    (hroot : committed.root = block.root) : ∃ s', E.geth.openState block.root = .ok s' ∧ fit s' [] := by
  simp only [commitCandidate, Except.do_ok_iff, Except.ok.injEq] at h
  obtain ⟨⟨root, entries, stable⟩, hcommit, rfl⟩ := h
  exact hroot ▸ X.reopens hs hcommit

theorem Planning.opens (hE : E.Lawful) (X : E.Executes system fit) (R : Opens fit n.db) {x : Extension}
    {changes : Option ControlChanges} (hchanges : ∀ c ∈ changes, c.Spares system) (h : Planning E n x changes) :
    ∃ s, E.geth.openState x.block.root = .ok s ∧ fit s [] := by
  cases h with
  | mine plan =>
    obtain ⟨parent, projection, built, p, receipts, stored, put, committed, hhead, -, hbuild, -, -, -, -, hcommit,
      hroot, rfl⟩ := planMine_ok plan
    have hbuild := (buildBlock_ok hbuild).2
    simp only [buildBlockAtSlot, Except.do_ok_iff, Except.ok.injEq, Prod.mk.injEq] at hbuild
    obtain ⟨parent', hhead', _, -, _, -, -, -, -, -, s, hs, ⟨g, ctx₁⟩, hgen, rfl, -⟩ := hbuild
    obtain ⟨logs, hfit⟩ := (X.finished hE (R.fit_state (Ledger.head_eq_ok.mp hhead') hs) hgen).state
    exact X.committed_root hfit hcommit hroot
  | control plan =>
    obtain ⟨parent, projection, withdrawals, s, g, ctx₁, block, overridden, p, receipts, stored, put, committed,
      hhead, -, -, hs, hgen, hoverride, -, -, -, -, hcommit, hroot, rfl⟩ := planControl_ok plan
    obtain ⟨logs, hfit⟩ := (X.finished hE (R.fit_state (Ledger.head_eq_ok.mp hhead) hs) hgen).state
    exact X.committed_root (X.overrideBlock_fit (hchanges _ rfl) hfit hoverride) hcommit hroot
  | branch plan =>
    simp only [planBranch, Except.do_ok_iff, Except.ok.injEq, Prod.mk.injEq, orFail_eq_ok, failIf_eq_ok, exists_const,
      not_not] at plan
    obtain ⟨ctx₀, -, parent, hhead, projection, -, -, s, hs, ⟨g, ctx₁⟩, hgen, p, -, receipts, -, committed, hcommit,
      hroot, stored, -, put, -, rfl, -⟩ := plan
    obtain ⟨logs, hfit⟩ := (X.finished hE (R.fit_state hhead hs) hgen).state
    exact X.committed_root hfit hcommit hroot

theorem Move.opens {Q : Guard E.geth.State} (hE : E.Lawful) (X : E.Executes system fit)
    (hcontrol : ∀ c, Q.control c → c.Spares system) (I : n.toLedger.Inv E) (R : Opens fit n.db) (h : E.Move Q n n') :
    Opens fit n'.db := by
  intro hash b hb
  rcases h.records_placed hE I with ⟨x, changes, planning, -, hallowed, recorded⟩ | U
  · rw [recorded.blocks, Function.update_apply] at hb
    split at hb
    · obtain rfl := Option.some.inj hb
      exact planning.opens hE X R fun c hc => hcontrol c (hallowed c hc)
    · exact R hash b hb
  · exact R hash b (U.blocks ▸ hb)

/-- The control blocks of a run spare the system accounts. -/
def SparesSystem (E : Env) (system : Address → Prop) (_ : Node E.geth.State) (c : Command) : Prop :=
  ∀ changes, c.op = .applyControl changes → changes.Spares system

private theorem spares_clone {changes : ControlChanges} (h : changes.Spares system) :
    (cloneControlChanges changes).Spares system := fun a ha => by
  have hget : (cloneControlChanges changes)[a]? = changes[a]?.map AccountChanges.clone := Std.ExtTreeMap.getElem?_map
  rw [hget, h a ha, Option.map_none]

theorem ReachableBy.opens {R : Node E.geth.State → Command → Prop} (hE : E.Lawful) (X : E.Executes system fit)
    (hspares : ∀ {n c}, R n c → E.SparesSystem system n c) (h : E.ReachableBy R n) : Opens fit n.db := by
  refine h.invariant (Q := { control := (·.Spares system) }) (X := fun n => Opens fit n.db) hE
    (fun hc => { control := fun changes hop => spares_clone (hspares hc changes hop) }) (fun hstart => ?_)
    fun I R hmove => hmove.opens hE X (fun _ hc => hc) I R
  obtain ⟨projection, record, -, -, hledger⟩ := newNode_spec hstart
  intro hash b hb
  have hmem : (startChain E projection record).blocks hash = some b := chain_newNode hE hledger ▸ hb
  obtain rfl := mem_startChain.mp ((wellFormed_startChain.mem_of_blocks hmem).1)
  exact X.genesis

/-! ## The next block -/

/-- A finished block is assembled and committed with any queue of well-formed requests. -/
theorem Finished.commits (X : E.Executes system fit) {g : Generated E.geth.State} (h : Finished fit g)
    {queue : ExecutionRequestQueue} (hsize : ∀ t, ∀ item ∈ queue.get t, item.data.length = t.size) :
    ∃ p receipts committed, prepareExecutionRequestBlock E.geth g.block g.requests queue = .ok p ∧
      E.deriveReceiptFields p.block g.receipts = .ok receipts ∧ E.commitCandidate g.state p.block = .ok committed ∧
      committed.root = p.block.root := by
  obtain ⟨v, hparsed⟩ := h.parsed
  obtain ⟨p, hp⟩ := prepare_ok h.verified hparsed hsize
  obtain ⟨hash, hsealed⟩ := (prepare_spec hp).sealed
  have hlength : g.receipts.length = p.block.transactions.length := by
    rw [hsealed]
    exact h.receipts
  obtain ⟨receipts, hreceipts, -⟩ := X.derives _ hlength
  obtain ⟨entries, stable, hcommit⟩ := h.committed
  have hsame : p.block.number = g.block.number ∧ p.block.time = g.block.time ∧ p.block.root = g.block.root := by
    rw [hsealed]
    exact ⟨rfl, rfl, rfl⟩
  obtain ⟨committed, hcommitted, hroot⟩ : ∃ committed, E.commitCandidate g.state p.block = .ok committed ∧
      committed.root = g.block.root := by
    rw [commitCandidate, hsame.1, hsame.2.1, hcommit]
    exact ⟨_, rfl, rfl⟩
  exact ⟨p, receipts, committed, hp, hreceipts, hcommitted, hroot.trans hsame.2.2.symm⟩

end Env

end Ethertest
