-- SUMMARY: Prepared operations: the database steps of a commit, and the recovery that runs at the next start.
import Ethertest.Geth

/-!
# Prepared operations and recovery

A change that touches geth's data is committed in several database steps. The first
writes a journal, the last removes it in the same batch that writes the node's own
metadata. When a node starts and finds a journal, `recoverPreparedOperation` either
completes the operation or takes it back.
-/

namespace Ethertest

variable (G : Geth)

/-! ## Single steps -/

def writePreparedOperation (operation : PreparedOperation) (db : Db) : Db :=
  { db with journal := some { operation with version := currentMetadataFormat } }

/-- The puts of a candidate state and the keys among them that the database does not
hold yet. -/
def executionPutsForJournal (db : Db) (puts : List KV) : List KV × List Key :=
  (puts, (puts.map (·.1)).filter fun k => !db.has k)

def writeJournalPuts (puts : List KV) (db : Db) : Db :=
  db.write (Store.puts puts)

/-- Store an executed block and its receipts. -/
def persistBuiltBlock (block : Block) (receipts : List Receipt) (db : Db) : Db :=
  db.write [.put (.block (G.blockHash block)) (.block block),
    .put (.receipts (G.blockHash block)) (.receipts receipts)]

/-- `SetCanonical` on the database. -/
def setCanonical (target : Block) (db : Db) : Db :=
  { db with entries := G.setCanonical db.entries target }

def finalizePreparedOperation (operation : PreparedOperation) (db : Db) : Db :=
  { db.write (Store.puts operation.executionPuts ++ Store.puts operation.puts ++
      Store.deletes operation.deletes) with journal := none }

def cancelPreparedOperation (operation : PreparedOperation) (db : Db) : Db :=
  { db.write (Store.deletes operation.rollbackDeletes) with journal := none }

/-- The deletes of `discardPreparedTarget`: lookup entries and the canonical hash if they
belong to the block, then the block and its receipts. -/
def discardBatch (hash : Hash) (number : Nat) (db : Db) : List (Store.Write Key Value) :=
  let lookups := match db.readBlock hash number with
    | some block => (block.transactions.filter fun tx => db.txLookup tx.hash = some number).map
        fun tx => Store.Write.delete (.txLookup tx.hash)
    | none => []
  let canonical := if db.canonicalHash number = hash then [Store.Write.delete (.canonicalHash number)] else []
  lookups ++ canonical ++ [.delete (.receipts hash), .delete (.block hash)]

def discardPreparedTarget (hash : Hash) (number : Nat) (db : Db) : Db :=
  db.write (discardBatch hash number db)

/-! ## Commits -/

/-- What happens between the journal and the final batch. -/
inductive Mutation where
  /-- write the execution puts, store the block and make it the head -/
  | extend (block : Block) (receipts : List Receipt)
  /-- write the execution puts and store the block -/
  | store (block : Block) (receipts : List Receipt)
  /-- make a stored block the head -/
  | setHead (target : Block)

def Mutation.steps (operation : PreparedOperation) : Mutation → List (Db → Db)
  | extend block receipts =>
    [writeJournalPuts operation.executionPuts, persistBuiltBlock G block receipts, setCanonical G block]
  | store block receipts =>
    [writeJournalPuts operation.executionPuts, persistBuiltBlock G block receipts]
  | setHead target => [setCanonical G target]

/-- A commit of a prepared operation: the database it starts from, the operation as it is
journalled, and the mutation. -/
structure Commit where
  before : Db
  operation : PreparedOperation
  mutation : Mutation

namespace Commit

/-- The database steps of a commit, in order. Each is atomic. -/
def steps (c : Commit) : List (Db → Db) :=
  writePreparedOperation c.operation :: c.mutation.steps G c.operation ++
    [finalizePreparedOperation c.operation]

/-- The database after the first `k` steps. -/
def crash (c : Commit) (k : Nat) : Db :=
  ((c.steps G).take k).foldl (fun db step => step db) c.before

/-- The database after all steps. -/
def after (c : Commit) : Db :=
  (c.steps G).foldl (fun db step => step db) c.before

end Commit

/-! ## Recovery -/

/-- Complete or take back the journalled operation, if there is one. -/
def recoverPreparedOperation (db : Db) : Except Error Db :=
  match db.journal with
  | none => .ok db
  | some operation => do
    failIf (operation.version ≠ currentMetadataFormat)
      (.errorf "unsupported recovery journal version %d" [.num operation.version])
    match operation.kind with
    | .head =>
      let head := db.headHash
      if head = operation.newHead then .ok (finalizePreparedOperation operation db)
      else if head = operation.oldHead then
        .ok (cancelPreparedOperation operation
          (if operation.discardTargetOnCancel then
            discardPreparedTarget operation.newHead operation.targetNumber db
          else db))
      else
        .error (.errorf "recovery journal head mismatch: have %s, old %s, target %s"
          [.hash head, .hash operation.oldHead, .hash operation.newHead])
    | .block =>
      if (db.blockByHash operation.targetBlock).isSome then .ok (finalizePreparedOperation operation db)
      else
        .ok (cancelPreparedOperation operation
          (if operation.targetBlock ≠ 0 then
            discardPreparedTarget operation.targetBlock operation.targetNumber db
          else db))
    | .other text => .error (.errorf "unsupported recovery journal kind %q" [.name text])

end Ethertest
