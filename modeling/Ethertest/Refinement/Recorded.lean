-- SUMMARY: What a move stores about a block: the block, its receipts, its projection and its control record.
import Ethertest.Refinement.Simulation

/-!
# Recorded blocks

A move stores one block, with its receipts, its projection and, for a control block, the
record of its changes, or it leaves all of these alone. Invariants about them have two cases.
-/

namespace Ethertest

/-- The receipts after a commit that stores a block. -/
theorem Commit.Proper.after_get_receipts_block {E : Env} {c : Commit} (P : c.Proper E) (hE : E.Lawful) {b : Block}
    {r : List Receipt} (hmutation : c.mutation = .extend b r ∨ c.mutation = .store b r) (h : Hash) :
    (c.after E.geth).get (.receipts h) = if E.hash b = h then some (.receipts r) else c.before.get (.receipts h) := by
  have hbase : c.base E.geth = persistBuiltBlock E.geth b r (writeJournalPuts c.operation.executionPuts c.before) := by
    obtain ⟨before, operation, mutation⟩ := c
    rcases hmutation with rfl | rfl <;> rfl
  rw [P.after_get_receipts hE, hbase, persistBuiltBlock, Db.get_write, writeJournalPuts, Db.get_write,
    Commit.lastWrite_execution P.execution (by simp)]
  simp only [Store.lastWrite, Store.Write.key, Store.Write.result, Option.none_or, Option.getD_none, Key.receipts.injEq]
  by_cases heq : E.hash b = h
  · simp [heq]
  · simp [heq]

namespace Env

/-- A block that was planned for the head or for a branch, with the changes of a control block. -/
inductive Planning (E : Env) (n : Node E.geth.State) (x : Extension) : Option ControlChanges → Prop
  | mine {ctx ctx' : Ctx} {empty : Bool} (plan : E.planMine n ctx empty = .ok (x, ctx')) : Planning E n x none
  | control {ctx ctx' : Ctx} {changes : ControlChanges} (plan : E.planControl n ctx changes = .ok (x, ctx')) :
      Planning E n x (some changes)
  | branch {ctx ctx' : Ctx} {item : Branch} (plan : E.planBranch n ctx item = .ok (x, ctx')) : Planning E n x none

/-- What storing a block does to the database. -/
structure Recorded (E : Env) (x : Extension) (changes : Option ControlChanges) (db db' : Db) : Prop where
  blocks : db'.blockByHash = Function.update db.blockByHash (x.hash E) (some x.block)
  receipts : ∀ h, db'.get (.receipts h) =
    if x.hash E = h then some (.receipts x.receipts) else db.get (.receipts h)
  projections : ∀ h, db'.get (.projection h) =
    if x.hash E = h then some (.projection x.projection) else db.get (.projection h)
  controls : ∀ h, db'.get (.control h) =
    (changes.bind fun c => if x.hash E = h then some (.control ⟨c, E.hash x.parent⟩) else none).or (db.get (.control h))

/-- The database holds the same about blocks. -/
structure Unrecorded (db db' : Db) : Prop where
  blocks : db'.blockByHash = db.blockByHash
  receipts : ∀ h, db'.get (.receipts h) = db.get (.receipts h)
  projections : ∀ h, db'.get (.projection h) = db.get (.projection h)
  controls : ∀ h, db'.get (.control h) = db.get (.control h)

variable {E : Env} {Q : Guard E.geth.State} {n n' : Node E.geth.State} {x : Extension} {changes : Option ControlChanges}

theorem Planning.planned (hE : E.Lawful) (W : Chain.WellFormed E n.chain) (h : Planning E n x changes) :
    ∃ queue, Planned E n x queue changes.isSome := by
  cases h with
  | mine plan => exact ⟨_, (planMine_spec hE W plan).toPlanned⟩
  | control plan => exact ⟨_, (planControl_spec hE W plan).toPlanned⟩
  | branch plan => exact ⟨_, (planBranch_spec hE W plan).toPlanned⟩

theorem Planning.projection (h : Planning E n x changes) :
    E.projectionPut n x.block x.prepared.requests = .ok x.projection := by
  cases h with
  | mine plan =>
    obtain ⟨parent, projection, built, p, receipts, stored, put, committed, -, -, -, -, -, hprojection, -, -, -,
      rfl⟩ := planMine_ok plan
    exact hprojection
  | control plan =>
    obtain ⟨parent, projection, withdrawals, state, g, ctx₁, block, overridden, p, receipts, stored, put, committed,
      -, -, -, -, -, -, -, -, hprojection, -, -, -, rfl⟩ := planControl_ok plan
    exact hprojection
  | branch plan =>
    simp only [planBranch, Except.do_ok_iff, Except.ok.injEq, Prod.mk.injEq] at plan
    obtain ⟨ctx₀, -, parent, -, projection, -, -, -, state, -, ⟨g, ctx₁⟩, -, p, -, receipts, -, committed, -, -, -,
      stored, hprojection, put, -, rfl, -⟩ := plan
    exact hprojection

theorem Aside.unrecorded (h : Aside Q n n') : Unrecorded n.db n'.db where
  blocks := h.sameChain.blocks
  receipts := fun _ => h.get rfl
  projections := fun _ => h.get rfl
  controls := fun _ => h.get rfl

/-- Where a planned block goes: on the head, or on the head of the branch that it names. -/
def Placed (E : Env) (n : Node E.geth.State) (x : Extension) : Prop :=
  n.chain.head = E.hash x.parent ∨
    ∃ name, n.chain.branches name = some (E.hash x.parent) ∧ x.block.header.extra = branchExtraPrefix ++ name

/-- A block that is stored is not stored again while it is canonical. -/
theorem Placed.not_mem_line (hE : E.Lawful) (W : Chain.WellFormed E n.chain) (h : Placed E n x)
    {queue : ExecutionRequestQueue} {control : Bool} (p : Planned E n x queue control) {head : Block}
    (hhead : n.chain.IsHead E head) : x.block ∉ n.chain.line head := by
  intro hmem
  have hnumber : x.block.number = x.parent.number + 1 := p.sound.number
  have hle {top : Block} (htop : n.chain.Mem E top) (hline : x.block ∈ n.chain.line top) :
      x.block.number ≤ top.number :=
    W.tree.le_of_mem_line W.tree.number_lt htop hline
  rcases h with hparent | ⟨name, hname, hextra⟩
  · obtain rfl : head = x.parent := hE.blockHash_injective (hhead.2.trans hparent)
    have := hle hhead.1 hmem
    omega
  · -- a block with the name of a branch lies on the line of its head, which is the parent here
    obtain ⟨top, htop, htopMem, hline⟩ :=
      W.branched (W.tree.mem_of_mem_line hhead.1 hmem) p.sound.ne_genesis hextra
    obtain rfl : top = x.parent := hE.blockHash_injective (Option.some.inj (htop.symm.trans hname))
    have := hle htopMem hline
    omega

/-- What a move does to the blocks of a database, where a new block goes and what a control
block may override. -/
theorem Move.records_placed (hE : E.Lawful) (I : n.toLedger.Inv E) (h : E.Move Q n n') :
    (∃ x changes, Planning E n x changes ∧ Placed E n x ∧ (∀ c ∈ changes, Q.control c) ∧
      Recorded E x changes n.db n'.db) ∨ Unrecorded n.db n'.db := by
  have W := I.chain.wellFormed
  cases h with
  | @mine _ _ _ x plan commit =>
    have p := planMine_spec hE W plan
    obtain ⟨events, hplan, hdb, -⟩ := commitPrepared_db (fun _ => mineApply_db) commit
    have R := records_mine hE W p hplan
    refine .inl ⟨x, none, .mine plan, .inl p.head, nofun, ?_⟩
    rw [hdb]
    exact ⟨R.blocks, (proper_mine hE W p hplan).after_get_receipts_block hE (.inl rfl), R.projections,
      fun h => get_mine hE W p hplan rfl⟩
  | @control _ _ changes x plan commit allowed =>
    have p := planControl_spec hE W plan
    obtain ⟨events, hplan, hdb, -⟩ := commitPrepared_db (fun _ => controlApply_db) commit
    have R := @records_control E n x hE W p events changes hplan
    refine .inl ⟨x, some changes, .control plan, .inl p.head, fun c hc => Option.some.inj hc ▸ allowed, ?_⟩
    rw [hdb]
    exact ⟨R.blocks, (proper_control hE W p hplan).after_get_receipts_block hE (.inl rfl), R.projections,
      fun h => get_control hE W p hplan rfl⟩
  | @branch _ _ _ item x named plan commit =>
    have p := planBranch_spec hE W plan
    obtain ⟨events, hplan, hdb, -⟩ := commitPrepared_db (fun _ => branchApply_db) commit
    have R := records_branch hE p hplan
    have hhead : n.chain.branches item.name = some (E.hash x.parent) := by
      change (n.branches[item.name]?).map _ = _
      rw [I.named named, named, Option.map_some, p.head]
    refine .inl ⟨x, none, .branch plan, .inr ⟨item.name, hhead, p.extra⟩, nofun, ?_⟩
    rw [hdb]
    exact ⟨R.blocks, (proper_branch p hplan).after_get_receipts_block hE (.inr rfl), R.projections,
      fun h => get_branch hE p hplan rfl⟩
  | switch known allowed plan commit =>
    obtain ⟨hmem, -⟩ := switch_target W known
    obtain ⟨-, rfl, rfl, -⟩ := planSwitch_spec plan
    obtain ⟨events, hplan, hdb, -⟩ := commitPrepared_db (fun _ => switchApply_db) commit
    obtain ⟨events', -, hchain⟩ := chain_switch hE W hmem rfl commit
    have hreceipts : ∀ h, n'.db.get (.receipts h) = n.db.get (.receipts h) := fun h => by
      rw [hdb, (proper_switch W hmem hplan).after_get_receipts hE, Commit.base_get_of_none _ _ rfl]
      rfl
    refine .inr ⟨(congrArg Chain.blocks hchain :), hreceipts, fun h => ?_, fun h => ?_⟩ <;> rw [hdb] <;>
      exact get_switch hE W hmem hplan rfl (by simp)
  | note note => exact .inr note.aside.unrecorded
  | other same =>
    have hdb : n'.db = n.db := congrArg Ledger.db same
    rw [hdb]
    exact .inr ⟨rfl, fun _ => rfl, fun _ => rfl, fun _ => rfl⟩

/-- What a move does to the blocks of a database. -/
theorem Move.records (hE : E.Lawful) (I : n.toLedger.Inv E) (h : E.Move Q n n') :
    (∃ x changes, Planning E n x changes ∧ Recorded E x changes n.db n'.db) ∨ Unrecorded n.db n'.db := by
  rcases h.records_placed hE I with ⟨x, changes, hplanning, -, -, hrecorded⟩ | hsame
  · exact .inl ⟨x, changes, hplanning, hrecorded⟩
  · exact .inr hsame

end Env

end Ethertest
