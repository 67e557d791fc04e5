-- SUMMARY: The documented behaviour of geth that the results rest on, as named hypotheses.
import Ethertest.Builder
import Ethertest.Requests.Prepare

/-!
# What is assumed of geth

`Env.Lawful` collects what the proofs use of the dependencies. Hashes do not collide.
Preparing and assembling a block keep the header fields that the node has set.
`SetCanonical` makes the line of a stored block canonical and touches nothing else. A
fresh store holds the genesis and none of the node's own entries.
-/

namespace Ethertest

/-- The keys that the node itself writes (`ethertest/...`). -/
def Key.own : Key → Bool
  | .block _ | .receipts _ | .canonicalHash _ | .headBlock | .txLookup _ | .state _ => false
  | _ => true

/-- The keys that geth keeps about the canonical chain. -/
def Key.canonical : Key → Bool
  | .canonicalHash _ | .headBlock | .txLookup _ => true
  | _ => false

/-- A block and its stored ancestors. -/
abbrev Db.line (db : Db) (b : Block) : List Block :=
  Ancestry.line db.parent Block.number b

namespace Env

variable (E : Env)

/-- What geth stores about a canonical chain, given as its blocks, head first. -/
def canonicalEntry (line : List Block) : Key → Option Value
  | .headBlock => line.head?.map fun b => .hash (E.hash b)
  | .canonicalHash number => (line.find? fun b => b.number = number).map fun b => .hash (E.hash b)
  | .txLookup hash =>
    (line.find? fun b => b.transactions.any fun tx => tx.hash = hash).map fun b => .blockNumber b.number
  | _ => none

/-- The block is stored, with all its ancestors. -/
structure Linked (db : Db) (b : Block) : Prop where
  stored : db.blockByHash (E.hash b) = some b
  linked : ∀ a ∈ db.line b, a.number = 0 ∨ ∃ p, db.parent a = some p ∧ a.number = p.number + 1

/-- The behaviour of geth that the results rest on. -/
structure Lawful : Prop where
  /-- block hashes are injective on the contents of a block -/
  blockHash_injective : Function.Injective E.geth.blockHash
  /-- request hashes are injective on the lists they cover -/
  requestsHash_injective : RequestsHashInjective E.geth
  /-- `Prepare` sets only the difficulty, which the model's headers do not have -/
  prepare_eq : ∀ {parent h h'}, E.geth.prepare E.config parent h = .ok h' → h' = h
  /-- assembling a block fills in the state root and the access list -/
  assembled_header : ∀ h s txs ws rs a, ∃ root bal,
    (E.geth.assembleBlock E.config h s txs ws rs a).header = { h with root := root, blockAccessListHash := bal }
  assembled_transactions : ∀ h s txs ws rs a, (E.geth.assembleBlock E.config h s txs ws rs a).transactions = txs
  /-- `SetCanonical` on a stored block whose ancestors are stored -/
  setCanonical_get : ∀ {db : Db} {target : Block}, E.Linked db target →
    ∀ k, (E.geth.setCanonical db.entries target)[k]? =
      if k.canonical then E.canonicalEntry (db.line target) k else db.get k
  /-- a fresh store holds the genesis block and its receipts -/
  genesis_block : ∀ h, E.genesis.entries[Key.block h]? =
    if h = E.genesisHash then some (.block E.genesis.block) else none
  genesis_receipts : ∀ h, (E.genesis.entries[Key.receipts h]?).isSome ↔ h = E.genesisHash
  /-- the genesis is canonical in it -/
  genesis_canonical : ∀ k : Key, k.canonical → E.genesis.entries[k]? = E.canonicalEntry [E.genesis.block] k
  /-- and it holds none of the node's own entries -/
  genesis_own : ∀ k : Key, k.own → E.genesis.entries[k]? = none

end Env

end Ethertest
