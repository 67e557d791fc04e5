-- SUMMARY: The chain that a ledger represents, and what its database keeps in order.
import Ethertest.Chain.Invariant

/-!
# The chain of a ledger

`Ledger.chain` forgets how the state is spread over memory and the database. `Db.Stored` is
what the database itself keeps: values of the right kind under every key, no journal, and
geth's canonical entries for exactly the line of the head.
-/

namespace Ethertest

namespace Db

/-- The request record of a block. -/
def record (db : Db) (hash : Hash) : Option ExecutionRequestRecord :=
  match db.get (.requestRecord hash) with
  | some (.record record) => some record
  | _ => none

/-- The Beacon projection of a block. -/
def projection (db : Db) (hash : Hash) : Option StoredProjection :=
  match db.get (.projection hash) with
  | some (.projection projection) => some projection
  | _ => none

theorem projection_eq_some {db : Db} {h : Hash} {p : StoredProjection} :
    db.projection h = some p ↔ db.get (.projection h) = some (.projection p) := by
  unfold Db.projection
  split
  · next q hq => simp [hq]
  · next hne =>
    constructor
    · intro hnone
      cases hnone
    · intro hp
      exact absurd hp (hne p)

theorem record_congr {db db' : Db} (h : ∀ hash, db'.get (.requestRecord hash) = db.get (.requestRecord hash)) :
    db'.record = db.record := by
  funext hash
  rw [record, h]
  rfl

theorem projection_congr {db db' : Db} (h : ∀ hash, db'.get (.projection hash) = db.get (.projection hash)) :
    db'.projection = db.projection := by
  funext hash
  rw [projection, h]
  rfl

/-- The blocks with a control record. -/
def controls (db : Db) : Set Hash := { hash | (db.get (.control hash)).isSome }

theorem controls_congr {db db' : Db} (h : ∀ hash, db'.get (.control hash) = db.get (.control hash)) :
    db'.controls = db.controls :=
  Set.ext fun hash => by rw [controls, Set.mem_ofPred_eq, h]; rfl

end Db

/-- Block hash, number and slot of a remembered point. -/
def ChainPoint.place (p : ChainPoint) : Hash × Nat × Nat := (p.hash, p.number, p.slot)

namespace Ledger

/-- The chain that a ledger represents. -/
def chain (l : Ledger) : Chain where
  blocks := l.db.blockByHash
  head := l.db.headHash
  slot := l.slot
  processed := l.lastProcessedSlot
  slots := fun hash => l.slotByHash[hash]?
  index := fun slot => l.canonicalBlockBySlot[slot]?
  safety := fun hash => l.blockSafety[hash]?
  session :=
    { tainted := l.sessionTainted
      first := l.firstUnsafeBlock
      reasons := { r | l.taintReasons[r]?.isSome } }
  records := l.db.record
  controls := l.db.controls
  projections := l.db.projection
  queue := l.pendingExecutionRequests
  issued := l.history.issued
  points :=
    { p | (∃ (id : Nat) (point : ChainPoint), l.snapshots[id]? = some point ∧ p = point.place) ∨
      ∃ (name : Bytes) (point : ChainPoint), l.checkpoints[name]? = some point ∧ p = point.place }
  branches := fun name => l.branches[name]?.map (·.head)
  batches := l.history.batches

end Ledger

/-- The value is of the kind that belongs under the key. -/
def Key.Holds : Key → Value → Prop
  | .block _, v => ∃ b, v = .block b
  | .requestRecord _, v => ∃ r, v = .record r
  | .projection _, v => ∃ p, v = .projection p
  | .canonicalSlot _, v => ∃ h, v = .hash h
  | _, _ => True

/-- What the database keeps in order. -/
structure Db.Stored (E : Env) (db : Db) : Prop where
  journal : db.journal = none
  typed : ∀ {k v}, db.get k = some v → k.Holds v
  canonical : ∀ {head}, db.currentBlock = some head → ∀ k : Key, k.canonical →
    db.get k = E.canonicalEntry (db.line head) k
  receipts : ∀ hash, (db.get (.receipts hash)).isSome ↔ (db.blockByHash hash).isSome

/-- The invariant of a ledger. -/
structure Ledger.Inv (E : Env) (l : Ledger) : Prop where
  chain : l.chain.Inv E
  stored : l.db.Stored E
  /-- a branch is kept under its own name -/
  named : ∀ {name : Bytes} {item : Branch}, l.branches[name]? = some item → item.name = name

namespace Ledger

variable {E : Env} {l : Ledger}

/-! ## Readings -/

theorem currentBlock_eq (l : Ledger) : l.db.currentBlock = l.chain.blocks l.chain.head := rfl

theorem line_eq (l : Ledger) (b : Block) : l.db.line b = l.chain.line b := rfl

theorem slotOf_eq (l : Ledger) (b : Block) : l.slotOf E b = l.chain.slotOf E b := by
  unfold slotOf Chain.slotOf
  change _ = Option.getD l.slotByHash[E.hash b]? _
  cases l.slotByHash[E.hash b]? with
  | some slot => rfl
  | none =>
    have hpos := E.slotDuration_pos
    simp only [Option.getD_none]
    split
    · next h =>
      rcases h with h | h
      · rw [Env.slotAt, Nat.sub_eq_zero_of_le h, Nat.zero_div]
      · omega
    · rfl

/-- The head block, as it is read and as the chain has it. -/
theorem head_eq_ok {b : Block} : l.head = .ok b ↔ l.chain.blocks l.chain.head = some b := by
  rw [Ledger.head, orFail_eq_ok, currentBlock_eq]

theorem loadRecord_eq (S : l.db.Stored E) (h : Hash) : loadExecutionRequestRecord l.db h = l.chain.load h := by
  have hrecords : l.chain.records h = l.db.record h := rfl
  rw [loadExecutionRequestRecord, Chain.load, hrecords, Db.record]
  cases hget : l.db.get (.requestRecord h) with
  | none => rfl
  | some v =>
    obtain ⟨r, rfl⟩ := S.typed hget
    rfl

/-- The block is stored with all its ancestors. -/
theorem linked_of_tree {db : Db}
    (T : Ancestry.Tree db.parent Block.number (fun b => db.blockByHash (E.hash b) = some b) E.genesis.block)
    {b : Block} (hb : db.blockByHash (E.hash b) = some b) : E.Linked db b := by
  refine ⟨hb, fun a ha => ?_⟩
  by_cases hroot : a = E.genesis.block
  · left
    rw [hroot]
    exact T.root_number
  · obtain ⟨p, hp, -, hnum⟩ := T.parent_of_ne a (T.mem_of_mem_line hb ha) hroot
    exact .inr ⟨p, hp, hnum⟩

end Ledger

end Ethertest
