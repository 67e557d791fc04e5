-- SUMMARY: What the node depends on, as parameters: geth's execution and chain, hashes, KZG and the Beacon library.
import Ethertest.Database

/-!
# Dependencies

Everything the node calls and whose code is not part of this repository. The model
is a function of these parameters. What they are assumed to do is stated by the
structures of hypotheses that name it, never by a definition.
-/

namespace Ethertest

/-- The part of geth's chain configuration that selects forks. -/
structure ChainConfig where
  chainID : Nat
  cancunTime : Option Nat
  pragueTime : Option Nat
  osakaTime : Option Nat
  amsterdamTime : Option Nat
  deriving DecidableEq

/-- What transaction validation against the state asks about the pool. -/
structure PoolView where
  existingExpenditure : Address → Nat
  existingCost : Address → Nat → Option Nat

structure Geth where
  /-- an open `StateDB` -/
  State : Type
  GasPool : Type
  Message : Type
  /-- a block access list under construction -/
  Construction : Type

  -- hashes
  blockHash : Block → Hash
  calcRequestsHash : List Bytes → Hash
  accessListHash : AccessList → Hash
  /-- the first ten bytes of the SHA-256 digest of the changes as JSON -/
  controlDigest : ControlChanges → Bytes

  -- fork rules
  isLondon : ChainConfig → Nat → Bool
  isShanghai : ChainConfig → Nat → Nat → Bool
  isCancun : ChainConfig → Nat → Nat → Bool
  isOsaka : ChainConfig → Nat → Nat → Bool
  isAmsterdam : ChainConfig → Nat → Nat → Bool

  -- header fields
  calcBaseFee : ChainConfig → Header → Nat
  elasticityMultiplier : ChainConfig → Nat
  calcGasLimit : Nat → Nat → Nat
  calcExcessBlobGas : ChainConfig → Header → Nat → Nat
  calcBlobFee : ChainConfig → Header → Nat
  /-- `Engine().Prepare`, on the parent's header and the new one -/
  prepare : ChainConfig → Header → Header → Except Error Header

  -- states
  /-- open the state of a root -/
  openState : Hash → Except Error State
  getNonce : State → Address → Nat
  stateError : State → Option Error
  /-- `Commit` and the trie commit: the root, the entries written and the stable state -/
  commit : ChainConfig → Nat → Nat → State → Except Error (Hash × List (Nat × Bytes) × State)
  intermediateRoot : ChainConfig → Nat → Nat → State → Hash
  setBalance : Address → Nat → State → State
  setNonce : Address → Nat → State → State
  setCode : Address → Bytes → State → State
  setStorage : Address → Store Hash Hash → State → State
  setState : Address → Hash → Hash → State → State
  /-- `Prepare` and `SetTxContext` before the overrides of a control block -/
  prepareControl : ChainConfig → Nat → Nat → State → State
  /-- `Finalise` after the overrides, with the accesses it returns -/
  finaliseControl : ChainConfig → Nat → Nat → State → State × Construction
  /-- the keys of an account's storage trie, as far as their preimages are known -/
  storageKeys : State → Hash → Address → Except Error (List (Option Hash))

  -- access lists
  newConstruction : Construction
  merge : Construction → Construction → Construction
  accountRead : Address → Construction → Construction
  storageRead : Address → Hash → Construction → Construction
  storageWrite : Nat → Address → Hash → Hash → Construction → Construction
  balanceChange : Nat → Address → Nat → Construction → Construction
  nonceChange : Address → Nat → Nat → Construction → Construction
  codeChange : Address → Nat → Bytes → Construction → Construction
  toEncodingObj : Construction → AccessList
  validateAccessList : AccessList → Nat → Nat → Except Error Unit

  -- execution
  preExecution : ChainConfig → Header → Header → State → State × Construction
  newGasPool : Nat → GasPool
  gasUsed : GasPool → Nat
  /-- the sender of a transaction under the signer of a block number and time -/
  sender : ChainConfig → Nat → Nat → Transaction → Except Error Address
  transactionToMessage : ChainConfig → Header → Transaction → Except Error Message
  /-- apply a transaction at an index; a failure leaves state and gas pool to be rolled back -/
  applyTransaction : ChainConfig → Header → Nat → Transaction → Message → State → GasPool →
    Except Error (Receipt × Construction × State × GasPool)
  postExecution : ChainConfig → Header → List Log → Nat → State →
    Except Error (Option (List Bytes) × Construction × State)
  /-- `Engine().Finalize` -/
  finalize : ChainConfig → Header → List Transaction → Option (List Withdrawal) → Nat →
    Construction → State → State × Construction
  assembleBlock : ChainConfig → Header → State → List Transaction → Option (List Withdrawal) →
    List Receipt → Construction → Block
  deriveFields : ChainConfig → Block → Option Nat → List Receipt → Except Error (List Receipt)

  -- the chain
  /-- `SetCanonical` -/
  setCanonical : Entries → Block → Entries

  -- the transaction pool
  effectiveGasTip : Transaction → Option Nat → Int
  validateTransaction : ChainConfig → Header → Transaction → Except Error Unit
  validateTransactionWithState : ChainConfig → Header → Transaction → State → PoolView → Except Error Unit
  /-- the sidecar with cell proofs instead of blob proofs -/
  sidecarToV1 : BlobTxSidecar → Except Error BlobTxSidecar

  -- KZG
  cellProofsPerBlob : Nat
  computeCellProofs : Bytes → Except Error (List Bytes)
  computeBlobProof : Bytes → Bytes → Except Error Bytes
  verifyBlobProof : Bytes → Bytes → Bytes → Except Error Unit
  verifyCellProofs : List Bytes → List Bytes → List Bytes → Except Error Unit

  -- the Beacon library
  /-- the SSZ root of the block message -/
  messageRoot : ConsensusBlock → Except Error Hash
  /-- the SHA-256 digest of an execution state root and a slot -/
  syntheticStateRoot : Hash → Nat → Hash

end Ethertest
