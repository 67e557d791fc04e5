-- SUMMARY: Withdrawals are numbered from zero on every line, and accepted ones go into the next block on the head.
import Ethertest.Chain.Withdrawals
import Ethertest.Reference
import Ethertest.Refinement.Start

/-!
# Withdrawals across forks

Indices are read off the parent's line, so they are per line. The pending withdrawals are
the node's: a mined or a control block takes all of them, a branch block takes none, and
moving the head neither takes nor returns any.
-/

namespace Ethertest

open Relation (ReflTransGen)

/-- The block that a commit put on the head. -/
def Commit.extended (c : Commit) : Option Block :=
  match c.mutation with
  | .extend block _ => some block
  | .store _ _ | .setHead _ => none

/-- The blocks that were committed on the head, in order. -/
def Ledger.committed (l : Ledger) : List Block := l.history.commits.filterMap Commit.extended

/-- The requests behind the withdrawals of a list of blocks. -/
def paidRequests (blocks : List Block) : List WithdrawalRequest :=
  blocks.flatMap fun b => b.paid.map Withdrawal.request

/-- Where pending withdrawals go while blocks are committed: all into the first block. -/
inductive Places (pending : List WithdrawalRequest) : List Block → List WithdrawalRequest → Prop
  | none : Places pending [] pending
  | first {block : Block} {rest : List Block} (paid : block.paid.map Withdrawal.request = pending)
      (rest_paid : ∀ b ∈ rest, b.paid = []) : Places pending (block :: rest) []

variable {blocks : List Block}

theorem Places.paid {pending left : List WithdrawalRequest} (h : Places pending blocks left) :
    paidRequests blocks ++ left = pending := by
  cases h with
  | none => rfl
  | @first block rest paid rest_paid =>
    have hrest : paidRequests rest = [] := by
      rw [paidRequests, List.flatMap_eq_nil_iff]
      intro b hb
      rw [rest_paid b hb]
      rfl
    rw [paidRequests, List.flatMap_cons, paid, List.append_nil]
    exact (congrArg (pending ++ ·) hrest).trans (List.append_nil _)

/-- One more block takes what is left. -/
theorem Places.snoc {pending left : List WithdrawalRequest} (h : Places pending blocks left) {block : Block}
    (hpaid : block.paid.map Withdrawal.request = left) : Places pending (blocks ++ [block]) [] := by
  cases h with
  | none => exact .first hpaid (by simp)
  | first paid rest_paid =>
    refine .first paid fun b hb => ?_
    rcases List.mem_append.mp hb with hb | hb
    · exact rest_paid b hb
    · rw [List.mem_singleton.mp hb]
      exact List.map_eq_nil_iff.mp hpaid

/-- A successful `AddWithdrawal` accepts its request. -/
def Command.accepted (c : Command) (result : Except Error Unit) : List WithdrawalRequest :=
  match c.op, result with
  | .addWithdrawal request, .ok _ => [request]
  | _, _ => []

namespace Env

/-- geth puts the withdrawals it is given into a block. -/
def AssemblesWithdrawals (E : Env) : Prop :=
  ∀ header state txs withdrawals receipts access,
    (E.geth.assembleBlock E.config header state txs withdrawals receipts access).withdrawals = withdrawals

/-- What a change of a node means for withdrawals. -/
inductive Settles (E : Env) (allowed : WithdrawalRequest → Prop) (l : Ledger) (pending : List WithdrawalRequest)
    (l' : Ledger) : List WithdrawalRequest → Prop
  /-- a block on the head takes what is pending -/
  | extended {e : Entry} {queue remaining : ExecutionRequestQueue} {withdrawals : Option (List Withdrawal)}
      (sound : e.Sound E l.chain queue remaining) (blocks : l'.chain.blocks = (l.chain.put E e).blocks)
      (assigned : assignedWithdrawals l.db e.parent pending = .ok withdrawals)
      (paid : e.block.paid = withdrawals.getD []) (committed : l'.committed = l.committed ++ [e.block]) :
      Settles E allowed l pending l' []
  /-- a branch block has no withdrawals -/
  | branched {e : Entry} {queue remaining : ExecutionRequestQueue} (sound : e.Sound E l.chain queue remaining)
      (blocks : l'.chain.blocks = (l.chain.put E e).blocks) (paid : e.block.paid = [])
      (committed : l'.committed = l.committed) : Settles E allowed l pending l' pending
  | kept (blocks : l'.chain.blocks = l.chain.blocks) (committed : l'.committed = l.committed) :
      Settles E allowed l pending l' pending
  | accepted {request : WithdrawalRequest} (may : allowed request) (blocks : l'.chain.blocks = l.chain.blocks)
      (committed : l'.committed = l.committed) (room : pending.length < maxWithdrawalsPerBlock) :
      Settles E allowed l pending l' (pending ++ [request])

variable {E : Env} {Q : Policy E.geth.State} {n n' m : Node E.geth.State} {ctx ctx' : Ctx} {x : Extension}

/-! ## The withdrawals of planned blocks -/

variable {e : Execution E.geth} {withdrawals : Option (List Withdrawal)} {g : Generated E.geth.State}
  {empty : Bool} {changes : ControlChanges} {pending : List WithdrawalRequest}
  {allowed : WithdrawalRequest → Prop}

/-- The withdrawals of a sealed block: from Shanghai on, no list is an empty one. -/
theorem sealExecution_withdrawals (hW : E.AssemblesWithdrawals) (h : E.sealExecution e withdrawals = .ok g) :
    g.block.withdrawals =
      if E.geth.isShanghai E.config e.header.number e.header.time ∧ withdrawals = none then some []
      else withdrawals := by
  simp only [sealExecution, Except.do_ok_iff] at h
  obtain ⟨post, -, h⟩ := h
  split at h
  · cases h
  · simp only [Except.do_ok_iff, Except.ok.injEq] at h
    obtain ⟨-, -, receipts, -, -, -, rfl⟩ := h
    rw [hW]

private theorem sealExecution_paid (hW : E.AssemblesWithdrawals) (h : E.sealExecution e withdrawals = .ok g) :
    g.block.paid = withdrawals.getD [] := by
  rw [Block.paid, sealExecution_withdrawals hW h]
  split
  · next hnone =>
    rw [hnone.2]
    rfl
  · rfl

theorem generateBlock_paid (hW : E.AssemblesWithdrawals) {parent : Block} {targetTime : Nat} {root : Hash}
    {txs : List Transaction} {skipInvalid : Bool} {extra : Bytes} {state : E.geth.State}
    {coinbase : Address}
    (h : E.generateBlock ctx parent targetTime root txs withdrawals skipInvalid extra state coinbase = .ok (g, ctx')) :
    g.block.paid = withdrawals.getD [] := by
  simp only [generateBlock, Except.do_ok_iff, Except.ok.injEq, Prod.mk.injEq] at h
  obtain ⟨ctx₁, -, -, -, header, -, ⟨e, ctx₂⟩, -, g', hseal, rfl, -⟩ := h
  exact sealExecution_paid hW hseal

/-- Assembling requests leaves the withdrawals alone. -/
theorem prepared_paid {block : Block} {native : Option (List Bytes)} {queue : ExecutionRequestQueue}
    {p : PreparedBlock} (h : prepareExecutionRequestBlock E.geth block native queue = .ok p) :
    p.block.paid = block.paid := by
  obtain ⟨hash, hsealed⟩ := (prepare_spec h).sealed
  rw [hsealed]
  rfl

theorem planMine_paid (hW : E.AssemblesWithdrawals) (h : E.planMine n ctx empty = .ok (x, ctx')) :
    ∃ withdrawals, assignedWithdrawals n.db x.parent n.pendingWithdrawals = .ok withdrawals ∧
      x.block.paid = withdrawals.getD [] := by
  obtain ⟨parent, projection, built, p, receipts, stored, put, committed, hhead, -, hbuild, hprepared, -, -, -, -, -,
    rfl⟩ := planMine_ok h
  have hbuild := (buildBlock_ok hbuild).2
  simp only [buildBlockAtSlot, Except.do_ok_iff, Except.ok.injEq, Prod.mk.injEq] at hbuild
  obtain ⟨parent', hhead', withdrawals, hassigned, txs, -, -, -, -, -, state, -, ⟨g, ctx₁⟩, hgen, rfl, -⟩ := hbuild
  obtain rfl : parent = parent' := Except.ok.inj (hhead.symm.trans hhead')
  exact ⟨withdrawals, hassigned, (prepared_paid hprepared).trans (generateBlock_paid hW hgen)⟩

theorem planControl_paid (hW : E.AssemblesWithdrawals) (h : E.planControl n ctx changes = .ok (x, ctx')) :
    ∃ withdrawals, assignedWithdrawals n.db x.parent n.pendingWithdrawals = .ok withdrawals ∧
      x.block.paid = withdrawals.getD [] := by
  obtain ⟨parent, projection, withdrawals, state, g, ctx₁, block, overridden, p, receipts, stored, put, committed,
    -, -, hassigned, -, hgen, hoverride, hprepared, -, -, -, -, -, rfl⟩ := planControl_ok h
  refine ⟨withdrawals, hassigned, (prepared_paid hprepared).trans ?_⟩
  rw [Block.paid, (overrideBlock_spec hoverride).2.2]
  exact generateBlock_paid hW hgen

theorem planBranch_paid (hW : E.AssemblesWithdrawals) {item : Branch} (h : E.planBranch n ctx item = .ok (x, ctx')) :
    x.block.paid = [] := by
  simp only [planBranch, Except.do_ok_iff, Except.ok.injEq, Prod.mk.injEq] at h
  obtain ⟨ctx₀, -, parent, -, projection, -, -, -, state, -, ⟨g, ctx₁⟩, hgen, p, hprepared, receipts, -,
    committed, -, -, -, stored, -, put, -, rfl, -⟩ := h
  exact (prepared_paid hprepared).trans (generateBlock_paid hW hgen)

/-! ## The acts -/

theorem rebuilt_pendingWithdrawals (n : Node E.geth.State) (ctx : Ctx) :
    (E.rebuilt n ctx).pendingWithdrawals = n.pendingWithdrawals := by
  rcases rebuilt_cases n ctx with ⟨candidate, ctx', -, h⟩ | ⟨err, -, h⟩ <;> rw [h] <;> rfl

theorem rebuildPendingView_pendingWithdrawals {n₀ : Node E.geth.State}
    (h : E.rebuildPendingView n₀ ctx = .ok (n', ctx')) (hsame : n₀.pendingWithdrawals = pending) :
    n'.pendingWithdrawals = pending := by
  obtain ⟨candidate, -, rfl⟩ := rebuildPendingView_spec h
  exact hsame

/-- What a commit adds to the committed blocks. -/
theorem committed_eq {operation : PreparedOperation} {events : List Event} {mutation : Mutation}
    {apply : Node E.geth.State → Node E.geth.State} (happly : ∀ m, (apply m).db = m.db ∧ (apply m).history = m.history)
    (h : E.commitPrepared n operation events mutation apply = .ok m) :
    m.committed = n.committed ++
      match mutation with
      | .extend block _ => [block]
      | .store _ _ | .setHead _ => [] := by
  obtain ⟨plan, -, -, hcommits⟩ := commitPrepared_db happly h
  rw [Ledger.committed, hcommits, List.filterMap_append]
  cases mutation <;> rfl

/-- A mined block takes what is pending. -/
theorem settles_mine (hE : E.Lawful) (hW : E.AssemblesWithdrawals) (I : n.toLedger.Inv E)
    (plan : E.planMine n ctx empty = .ok (x, ctx'))
    (commit : E.commitPrepared n (E.mineOperation n x) (E.mineEvents n x) (.extend x.block x.receipts)
      (E.mineApply n x) = .ok m) : Settles E allowed n.toLedger n.pendingWithdrawals m.toLedger [] := by
  have W := I.chain.wellFormed
  have p := planMine_spec hE W plan
  obtain ⟨events, -, hext⟩ := extends_mine hE W p commit
  obtain ⟨withdrawals, hassigned, hpaid⟩ := planMine_paid hW plan
  exact .extended p.sound (congrArg Chain.blocks hext.chain_eq :) hassigned hpaid
    (committed_eq (fun _ => mineApply_db) commit)

private theorem settles_control (hE : E.Lawful) (hW : E.AssemblesWithdrawals) (I : n.toLedger.Inv E)
    (plan : E.planControl n ctx changes = .ok (x, ctx'))
    (commit : E.commitPrepared n (E.controlOperation n x changes) (E.controlEvents n x)
      (.extend x.block x.receipts) (E.controlApply n x) = .ok m) :
    Settles E allowed n.toLedger n.pendingWithdrawals m.toLedger [] := by
  have W := I.chain.wellFormed
  have p := planControl_spec hE W plan
  obtain ⟨events, -, hext⟩ := extends_control hE W p commit
  obtain ⟨withdrawals, hassigned, hpaid⟩ := planControl_paid hW plan
  exact .extended p.sound (congrArg Chain.blocks hext.chain_eq :) hassigned hpaid
    (committed_eq (fun _ => controlApply_db) commit)

/-- What every act does with withdrawals. -/
theorem Act.settles (hE : E.Lawful) (hW : E.AssemblesWithdrawals) (I : n.toLedger.Inv E) (h : E.Act Q n n') :
    Settles E Q.withdraw n.toLedger n.pendingWithdrawals n'.toLedger n'.pendingWithdrawals := by
  have W := I.chain.wellFormed
  cases h with
  | mine plan commit live =>
    rw [rebuilt_spent_ledger, rebuilt_pendingWithdrawals]
    exact settles_mine hE hW I plan commit
  | control plan commit live =>
    rw [rebuilt_spent_ledger, rebuilt_pendingWithdrawals]
    exact settles_control hE hW I plan commit
  | @branch _ _ _ _ item x named plan commit =>
    have p := planBranch_spec hE W plan
    have hpending : n'.pendingWithdrawals = n.pendingWithdrawals := by
      obtain ⟨-, _, -, applied, rfl, rfl⟩ := commitPrepared_spec commit
      rfl
    rw [hpending]
    exact .branched p.sound (congrArg Chain.blocks (chain_branch hE p commit) :) (planBranch_paid hW plan)
      ((committed_eq (fun _ => branchApply_db) commit).trans (List.append_nil _))
  | @switch m ctx target slot w known allowed plan commit live =>
    obtain ⟨hmem, -⟩ := switch_target W known
    obtain ⟨-, rfl, rfl, -⟩ := planSwitch_spec plan
    obtain ⟨events, -, hchain⟩ := chain_switch hE W hmem rfl commit
    have hpending : m.pendingWithdrawals = n.pendingWithdrawals := by
      obtain ⟨-, _, -, applied, rfl, rfl⟩ := commitPrepared_spec commit
      rfl
    rw [rebuilt_ledger, rebuilt_pendingWithdrawals, hpending]
    exact .kept (congrArg Chain.blocks hchain :)
      ((committed_eq (fun _ => switchApply_db) commit).trans (List.append_nil _))
  | note note =>
    have A := note.aside
    rw [A.pendingWithdrawals]
    exact .kept A.sameChain.blocks (congrArg (List.filterMap Commit.extended) A.commits)
  | send allowed added pending => exact .kept rfl rfl
  | @sendMined m r _ ctx' tx pool pool' x events allowed added plan commit live mined ends =>
    have hledger : r.toLedger = m.toLedger := mined ▸ rebuilt_spent_ledger m ctx'
    have hspent : r.pendingWithdrawals = [] := mined ▸ rebuilt_pendingWithdrawals _ _
    have hmine : Settles E Q.withdraw n.toLedger n.pendingWithdrawals m.toLedger [] :=
      settles_mine (n := { n with pool := pool }) hE hW I plan commit
    change Settles E Q.withdraw n.toLedger n.pendingWithdrawals r.toLedger r.pendingWithdrawals
    rw [hledger, hspent]
    exact hmine
  | drop view =>
    rw [rebuildPendingView_ledger view rfl, rebuildPendingView_pendingWithdrawals view rfl]
    exact .kept rfl rfl
  | recipient view =>
    rw [rebuildPendingView_ledger view rfl, rebuildPendingView_pendingWithdrawals view rfl]
    exact .kept rfl rfl
  | withdraw allowed room view =>
    rw [rebuildPendingView_ledger view rfl, rebuildPendingView_pendingWithdrawals view rfl]
    exact .accepted allowed rfl rfl room
  | mode => exact .kept rfl rfl

/-! ## Numbered lines -/

/-- The lines are numbered, and what is pending fits into a block. -/
structure Paid (E : Env) (n : Node E.geth.State) : Prop where
  numbered : n.chain.Numbered E
  room : n.pendingWithdrawals.length ≤ maxWithdrawalsPerBlock

theorem Settles.paid (hE : E.Lawful) (hgenesis : E.genesis.block.paid = []) (I : n.toLedger.Inv E)
    (P : Paid E n) (h : Settles E allowed n.toLedger n.pendingWithdrawals n'.toLedger n'.pendingWithdrawals) :
    Paid E n' := by
  have W := I.chain.wellFormed
  generalize hleft : n'.pendingWithdrawals = left at h
  cases h with
  | @extended e _ _ withdrawals sound blocks assigned paid committed =>
    have hindices := assignedWithdrawals_indices W P.numbered hgenesis (fun _ => rfl) sound.parent_mem assigned
    have hlength : e.block.paid.length = n.pendingWithdrawals.length := by
      rw [← (assignedWithdrawals_spec assigned).1, List.length_map, paid]
    have hput : (n.chain.put E e).Numbered E := by
      refine P.numbered.put hE W sound ?_ (hlength ▸ P.room)
      rw [hlength, paid]
      exact hindices
    exact ⟨hput.congr blocks, by simp [hleft]⟩
  | @branched e _ _ sound blocks paid committed =>
    have hput : (n.chain.put E e).Numbered E := P.numbered.put hE W sound (by simp [paid]) (by simp [paid])
    exact ⟨hput.congr blocks, hleft ▸ P.room⟩
  | kept blocks committed => exact ⟨P.numbered.congr blocks, hleft ▸ P.room⟩
  | accepted allowed blocks committed room =>
    refine ⟨P.numbered.congr blocks, ?_⟩
    rw [hleft, List.length_append]
    exact room

private theorem newNode_unpaid (h : E.newNode = .ok n) : n.committed = [] ∧ n.pendingWithdrawals = [] := by
  obtain ⟨projection, record, -, -, hledger⟩ := newNode_spec h
  obtain ⟨l, candidate, ctx, -, hidle⟩ := newNode_idle h
  refine ⟨?_, by rw [hidle]; rfl⟩
  rw [Ledger.committed, hledger]
  rfl

private theorem paid_newNode (hE : E.Lawful) (hgenesis : E.genesis.block.paid = []) (h : E.newNode = .ok n) :
    Paid E n := by
  obtain ⟨projection, record, -, -, hledger⟩ := newNode_spec h
  refine ⟨?_, by simp [(newNode_unpaid h).2]⟩
  rw [chain_newNode hE hledger]
  constructor
  · intro b hb
    obtain rfl := mem_startChain.mp hb
    rw [Chain.indices_genesis wellFormed_startChain hgenesis]
    rfl
  · intro b hb
    obtain rfl := mem_startChain.mp hb
    simp [hgenesis]

theorem ReachableBy.paid {P : Node E.geth.State → Command → Prop} (hE : E.Lawful) (hW : E.AssemblesWithdrawals)
    (hgenesis : E.genesis.block.paid = []) (h : E.ReachableBy P n) : Paid E n := by
  have hany {n : Node E.geth.State} {c : Command} (_ : P n c) : Obeys Guard.any.policy n c := { }
  exact h.act_invariant hE hany (paid_newNode hE hgenesis) fun I P hact => (hact.settles hE hW I).paid hE hgenesis I P

/-! ## Placement -/

/-- The pending withdrawals go where they should while blocks are committed. -/
def Placing (l : Ledger) (pending : List WithdrawalRequest) (l' : Ledger) (left : List WithdrawalRequest) : Prop :=
  ∃ blocks, l'.committed = l.committed ++ blocks ∧ Places pending blocks left

/-- Without new requests, what is left of the pending withdrawals goes into the next block. -/
theorem Settles.placing {l₀ l l' : Ledger} {left left' : List WithdrawalRequest}
    (hplaced : Placing l₀ pending l left) (h : Settles E (fun _ => False) l left l' left') :
    Placing l₀ pending l' left' := by
  obtain ⟨blocks, hcommitted, hplaces⟩ := hplaced
  cases h with
  | @extended e _ _ withdrawals sound _ assigned paid committed =>
    refine ⟨blocks ++ [e.block], by rw [committed, hcommitted, List.append_assoc], hplaces.snoc ?_⟩
    rw [paid]
    exact (assignedWithdrawals_spec assigned).1
  | branched _ _ _ committed => exact ⟨blocks, committed.trans hcommitted, hplaces⟩
  | kept _ committed => exact ⟨blocks, committed.trans hcommitted, hplaces⟩
  | accepted may => exact may.elim

/-- No withdrawals are accepted. -/
def withoutWithdrawals (E : Env) : Policy E.geth.State where
  withdraw _ := False

theorem settle_cases {α : Type} (n : Node E.geth.State) (prepared : Except Error (Outcome E.geth.State α)) :
    (∃ err, Outcome.settle n prepared = .fail n err) ∨
      ∃ o, prepared = .ok o ∧ Outcome.settle n prepared = o := by
  cases prepared with
  | error err => exact .inl ⟨err, rfl⟩
  | ok o => exact .inr ⟨o, rfl, rfl⟩

private theorem addWithdrawal_cases (n : Node E.geth.State) (ctx : Ctx) (request : WithdrawalRequest) :
    (∃ err, (E.addWithdrawal n ctx request).status = (n, .error err)) ∨
    ∃ n' ctx₁ ctx', (E.addWithdrawal n ctx request).status = (n', .ok ()) ∧
      E.rebuildPendingView { n with pendingWithdrawals := n.pendingWithdrawals ++ [request] } ctx₁ =
        .ok (n', ctx') := by
  have hfail (err : Error) : (Outcome.fail n err : Outcome E.geth.State Unit).status = (n, .error err) := rfl
  unfold addWithdrawal
  rcases settle_cases n _ with ⟨err, h⟩ | ⟨o, ho, h⟩ <;> rw [h]
  · exact .inl ⟨err, hfail err⟩
  simp only [Except.do_ok_iff, Except.ok.injEq] at ho
  obtain ⟨-, -, rfl⟩ := ho
  unfold Node.executeWrite
  rcases settle_cases n _ with ⟨err, h⟩ | ⟨o, ho, h⟩ <;> rw [h]
  · exact .inl ⟨err, hfail err⟩
  simp only [Except.do_ok_iff, Except.ok.injEq] at ho
  obtain ⟨ctx₁, -, -, -, rfl⟩ := ho
  rcases settle_cases n _ with ⟨err, h⟩ | ⟨o, ho, h⟩ <;> rw [h]
  · exact .inl ⟨err, hfail err⟩
  simp only [Except.do_ok_iff, Except.ok.injEq] at ho
  obtain ⟨-, -, ⟨n', ctx'⟩, hview, rfl⟩ := ho
  exact .inr ⟨n', ctx₁, ctx', rfl, hview⟩

/-- One operation places what was pending, and what it accepts is pending after it. -/
theorem step_placing (hE : E.Lawful) (hW : E.AssemblesWithdrawals) (I : n.toLedger.Inv E) (c : Command) :
    Placing n.toLedger (n.pendingWithdrawals ++ c.accepted (E.execute n c).2) (E.step n c).toLedger
      (E.step n c).pendingWithdrawals := by
  by_cases hop : ∃ request, c.op = .addWithdrawal request
  · obtain ⟨op, ctx⟩ := c
    obtain ⟨request, rfl⟩ := hop
    rcases addWithdrawal_cases n ctx request with ⟨err, h⟩ | ⟨n', ctx₁, ctx', h, hview⟩
    · have hexecute : E.execute n ⟨.addWithdrawal request, ctx⟩ = (n, .error err) := h
      rw [step, hexecute]
      exact ⟨[], by simp, by simpa [Command.accepted] using .none⟩
    · have hexecute : E.execute n ⟨.addWithdrawal request, ctx⟩ = (n', .ok ()) := h
      rw [step, hexecute, rebuildPendingView_ledger hview rfl, rebuildPendingView_pendingWithdrawals hview rfl]
      exact ⟨[], by simp, .none⟩
  · have hnone : c.accepted (E.execute n c).2 = [] := by
      unfold Command.accepted
      split
      · next request _ hop' _ => exact absurd ⟨request, hop'⟩ hop
      · rfl
    rw [hnone, List.append_nil]
    have hobeys : Obeys E.withoutWithdrawals n c := { withdraw := fun request h => hop ⟨request, h⟩ }
    refine Act.run_invariant (X := fun m => Placing n.toLedger n.pendingWithdrawals m.toLedger m.pendingWithdrawals)
      hE I (acts_step hobeys) ⟨[], by simp, .none⟩ fun I' hplaced hact => (hact.settles hE hW I').placing hplaced

/-- The nodes that a run reaches, with the withdrawals that were accepted on the way. -/
inductive Accepts (E : Env) : Node E.geth.State → List WithdrawalRequest → Prop
  | start {n : Node E.geth.State} : E.newNode = .ok n → Accepts E n []
  | step {n : Node E.geth.State} {accepted : List WithdrawalRequest} {c : Command} :
    Accepts E n accepted → Accepts E (E.step n c) (accepted ++ c.accepted (E.execute n c).2)

theorem Accepts.reachable {accepted : List WithdrawalRequest} (h : Accepts E n accepted) : E.Reachable n := by
  induction h with
  | start h => exact .start h
  | step _ ih => exact .step ih trivial

theorem Accepts.balance (hE : E.Lawful) (hW : E.AssemblesWithdrawals) {accepted : List WithdrawalRequest}
    (h : Accepts E n accepted) : paidRequests n.committed ++ n.pendingWithdrawals = accepted := by
  induction h with
  | start h =>
    rw [(newNode_unpaid h).1, (newNode_unpaid h).2]
    rfl
  | @step n accepted c h ih =>
    obtain ⟨blocks, hcommitted, hplaces⟩ := step_placing hE hW (h.reachable.inv hE) c
    have happend : paidRequests (n.committed ++ blocks) = paidRequests n.committed ++ paidRequests blocks :=
      List.flatMap_append
    rw [hcommitted, happend, List.append_assoc, hplaces.paid, ← List.append_assoc, ih]

end Env

/-- Withdrawal accounting. On every line of the block tree the indices are 0, 1, 2, ..., with
at most 16 in a block. The accepted withdrawals, in order, are those of the blocks that were
committed on the head and then the pending ones; and while an operation commits blocks, the
first of them takes all that is pending. -/
theorem withdrawals_accounted {E : Env} {n : Node E.geth.State} {accepted : List WithdrawalRequest} (hE : E.Lawful)
    (hW : E.AssemblesWithdrawals) (hgenesis : E.genesis.block.paid = []) (h : E.Accepts n accepted) :
    (∀ b, n.chain.Mem E b → n.chain.indices b = List.range (n.chain.indices b).length ∧ b.paid.length ≤ 16) ∧
    paidRequests n.committed ++ n.pendingWithdrawals = accepted ∧
    ∀ c, ∃ blocks, (E.step n c).committed = n.committed ++ blocks ∧
      Places (n.pendingWithdrawals ++ c.accepted (E.execute n c).2) blocks (E.step n c).pendingWithdrawals := by
  have P := h.reachable.paid hE hW hgenesis
  exact ⟨fun b hb => ⟨P.numbered.ordered b hb, P.numbered.bounded b hb⟩, h.balance hE hW,
    Env.step_placing hE hW (h.reachable.inv hE)⟩

namespace Reference

theorem assemblesWithdrawals : env.AssemblesWithdrawals := fun _ _ _ _ _ _ => rfl

def firstWithdrawal : WithdrawalRequest := ⟨1, 7, 100⟩

def secondWithdrawal : WithdrawalRequest := ⟨2, 7, 50⟩

/-- The head goes back to the genesis between the two withdrawals, so both have index zero. -/
def revertedWithdrawals : List Command :=
  [⟨.snapshot, none⟩, ⟨.addWithdrawal firstWithdrawal, none⟩, ⟨.mine 1 false, none⟩, ⟨.revert 1, none⟩,
    ⟨.addWithdrawal secondWithdrawal, none⟩, ⟨.mine 2 false, none⟩]

/-- The withdrawals that a run accepts. -/
def acceptedBy (n : Node Nat) : List Command → List WithdrawalRequest
  | [] => []
  | c :: commands => c.accepted (env.execute n c).2 ++ acceptedBy (env.step n c) commands

private theorem accepts_run (commands : List Command) : env.Accepts (run commands) (acceptedBy start commands) := by
  suffices h : ∀ n accepted, env.Accepts n accepted →
      env.Accepts (commands.foldl env.step n) (accepted ++ acceptedBy n commands) from h _ _ (.start newNode_eq)
  induction commands with
  | nil => exact fun n accepted hn => (List.append_nil accepted).symm ▸ hn
  | cons c commands ih =>
    intro n accepted hn
    have hrest := ih _ _ (hn.step (c := c))
    rw [List.append_assoc] at hrest
    exact hrest

theorem withdrawals_accounted_reverted :
    paidRequests (run revertedWithdrawals).committed ++ (run revertedWithdrawals).pendingWithdrawals =
      [firstWithdrawal, secondWithdrawal] ∧
    ((run revertedWithdrawals).committed.map fun b => b.paid.map (·.index)) = [[0], [0], []] := by
  have haccepted : acceptedBy start revertedWithdrawals = [firstWithdrawal, secondWithdrawal] := by decide +kernel
  have hrun := accepts_run revertedWithdrawals
  rw [haccepted] at hrun
  exact ⟨(withdrawals_accounted lawful assemblesWithdrawals rfl hrun).2.1, by decide +kernel⟩

end Reference

end Ethertest
