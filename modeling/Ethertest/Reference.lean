-- SUMMARY: A small geth that satisfies the assumed laws, and an environment over it that nodes can be run in.
import Ethertest.Base.Tokens
import Ethertest.Refinement.Start

/-!
# A reference environment

The results are about every geth that satisfies `Env.Lawful`. This module shows that there
is one. Its states are numbers, its hash packs all of a block into one number, and every
transaction succeeds. Runs in the environment can be evaluated.
-/

namespace Ethertest.Reference

open Tokens

/-! ## Hashes -/

def bytes (b : Bytes) : List Nat := Tokens.list Tokens.number (b.map UInt8.toNat)

theorem delimits_bytes : Delimits bytes :=
  (delimits_list delimits_number).comp (List.map_injective_iff.mpr fun _ _ => UInt8.toNat_inj.mp)

def header (h : Header) : List Nat :=
  pair number (pair number (pair number (pair number (pair number (pair number (pair number
    (pair bytes (pair (option number) (pair (option number) (pair (option number) (pair (option number)
      (pair (option number) (pair (option number) (option number))))))))))))))
    (h.parentHash, h.coinbase, h.root, h.number, h.gasLimit, h.gasUsed, h.time, h.extra, h.baseFee,
      h.excessBlobGas, h.blobGasUsed, h.parentBeaconRoot, h.requestsHash, h.blockAccessListHash, h.slotNumber)

theorem delimits_header : Delimits header := by
  refine Delimits.comp (f := fun h : Header => (h.parentHash, h.coinbase, h.root, h.number, h.gasLimit, h.gasUsed,
    h.time, h.extra, h.baseFee, h.excessBlobGas, h.blobGasUsed, h.parentBeaconRoot, h.requestsHash,
    h.blockAccessListHash, h.slotNumber)) ?_ ?_
  · repeat' apply delimits_pair
    all_goals first | exact delimits_number | exact delimits_bytes | exact delimits_option delimits_number
  · rintro ⟨⟩ ⟨⟩ h
    simpa using h

def sidecar (s : BlobTxSidecar) : List Nat :=
  pair number (pair (list bytes) (pair (list bytes) (list bytes))) (s.version, s.blobs, s.commitments, s.proofs)

theorem delimits_sidecar : Delimits sidecar := by
  refine Delimits.comp (f := fun s : BlobTxSidecar => (s.version, s.blobs, s.commitments, s.proofs)) ?_ ?_
  · repeat' apply delimits_pair
    all_goals first | exact delimits_number | exact delimits_list delimits_bytes
  · rintro ⟨⟩ ⟨⟩ h
    simpa using h

def transaction (t : Transaction) : List Nat :=
  pair number (pair number (pair number (pair number (pair number (pair (list number) (pair bytes
    (option sidecar)))))))
    (t.hash, t.nonce, t.gasFeeCap, t.gasTipCap, t.cost, t.blobHashes, t.payload, t.sidecar)

theorem delimits_transaction : Delimits transaction := by
  refine Delimits.comp (f := fun t : Transaction => (t.hash, t.nonce, t.gasFeeCap, t.gasTipCap, t.cost, t.blobHashes,
    t.payload, t.sidecar)) ?_ ?_
  · repeat' apply delimits_pair
    all_goals first
      | exact delimits_number | exact delimits_list delimits_number | exact delimits_bytes
      | exact delimits_option delimits_sidecar
  · rintro ⟨⟩ ⟨⟩ h
    simpa using h

def withdrawal (w : Withdrawal) : List Nat :=
  pair number (pair number (pair number number)) (w.index, w.validator, w.address, w.amount)

theorem delimits_withdrawal : Delimits withdrawal := by
  refine Delimits.comp (f := fun w : Withdrawal => (w.index, w.validator, w.address, w.amount)) ?_ ?_
  · repeat' apply delimits_pair
    all_goals exact delimits_number
  · rintro ⟨⟩ ⟨⟩ h
    simpa using h

def access (a : AccountAccess) : List Nat :=
  pair number (pair (list number) (pair (list (pair number (list (pair number number))))
    (pair (list (pair number number)) (pair (list (pair number number)) (list (pair number bytes))))))
    (a.address, a.storageReads, a.storageChanges, a.balanceChanges, a.nonceChanges, a.codeChanges)

theorem delimits_access : Delimits access := by
  have hchange : Delimits (pair number number) := delimits_pair delimits_number delimits_number
  refine Delimits.comp (f := fun a : AccountAccess => (a.address, a.storageReads, a.storageChanges, a.balanceChanges,
    a.nonceChanges, a.codeChanges)) ?_ ?_
  · refine delimits_pair delimits_number (delimits_pair (delimits_list delimits_number) (delimits_pair ?_
      (delimits_pair (delimits_list hchange) (delimits_pair (delimits_list hchange) ?_))))
    · exact delimits_list (delimits_pair delimits_number (delimits_list hchange))
    · exact delimits_list (delimits_pair delimits_number delimits_bytes)
  · rintro ⟨⟩ ⟨⟩ h
    simpa using h

def block (b : Block) : List Nat :=
  pair header (pair (list transaction) (pair (option (list withdrawal)) (option (list access))))
    (b.header, b.transactions, b.withdrawals, b.accessList)

theorem delimits_block : Delimits block := by
  refine Delimits.comp (f := fun b : Block => (b.header, b.transactions, b.withdrawals, b.accessList)) ?_ ?_
  · exact delimits_pair delimits_header (delimits_pair (delimits_list delimits_transaction)
      (delimits_pair (delimits_option (delimits_list delimits_withdrawal))
        (delimits_option (delimits_list delimits_access))))
  · rintro ⟨⟩ ⟨⟩ h
    simpa using h

def blockHash (b : Block) : Hash := pack (block b)

theorem blockHash_injective : Function.Injective blockHash :=
  pack_injective.comp delimits_block.injective

theorem blockHash_ne_zero (b : Block) : blockHash b ≠ 0 := push_ne_zero _ _

def requestsHash (requests : List Bytes) : Hash := pack (list bytes requests)

theorem requestsHash_injective : Function.Injective requestsHash :=
  pack_injective.comp (delimits_list delimits_bytes).injective

/-! ## The canonical chain -/

/-- The entries of one canonical block. -/
def canonicalPutsOf (b : Block) : List KV :=
  b.transactions.map (fun tx => (.txLookup tx.hash, .blockNumber b.number)) ++
    [(.canonicalHash b.number, .hash (blockHash b))]

/-- The entries of a canonical chain, given head first. -/
def canonicalPuts (line : List Block) : List KV :=
  line.reverse.flatMap canonicalPutsOf ++ (line.head?.map fun b => (.headBlock, .hash (blockHash b))).toList

/-- Replace the canonical entries by those of a block and its ancestors. -/
def setCanonical (entries : Entries) (target : Block) : Entries :=
  entries.writeBatch (Store.deletes ((entries.toList.map (·.1)).filter Key.canonical) ++
    Store.puts (canonicalPuts (({ entries := entries } : Db).line target)))

theorem lastWrite_canonicalPutsOf_number (b : Block) (number : Nat) :
    Store.lastWrite (Store.puts (canonicalPutsOf b)) (.canonicalHash number) =
      if b.number = number then some (some (.hash (blockHash b))) else none := by
  have hlookups : Store.lastWrite (Store.puts (b.transactions.map fun tx =>
      ((.txLookup tx.hash, .blockNumber b.number) : KV))) (.canonicalHash number) = none :=
    Store.lastWrite_puts_eq_none (by simp)
  rw [canonicalPutsOf, Store.lastWrite_puts_append, hlookups, Option.or_none]
  by_cases h : b.number = number <;> simp [h]

theorem lastWrite_canonicalPutsOf_lookup (b : Block) (hash : Hash) :
    Store.lastWrite (Store.puts (canonicalPutsOf b)) (.txLookup hash) =
      if b.transactions.any fun tx => tx.hash = hash then some (some (.blockNumber b.number)) else none := by
  rw [canonicalPutsOf, Store.lastWrite_puts_append]
  simp only [Store.lastWrite_puts_cons, Store.lastWrite_puts_nil, Option.none_or, reduceCtorEq, if_false]
  induction b.transactions with
  | nil => rfl
  | cons tx txs ih =>
    rw [List.map_cons, Store.lastWrite_puts_cons, ih, List.any_cons]
    by_cases h : tx.hash = hash <;> by_cases hany : txs.any (fun tx => tx.hash = hash) <;> simp [h, hany]

/-- The first block of a line that writes a key wins. -/
theorem lastWrite_flatMap {line : List Block} {k : Key} {p : Block → Bool} {v : Block → Value}
    (h : ∀ b, Store.lastWrite (Store.puts (canonicalPutsOf b)) k = if p b then some (some (v b)) else none) :
    Store.lastWrite (Store.puts (line.reverse.flatMap canonicalPutsOf)) k =
      ((line.find? p).map fun b => some (v b)) := by
  induction line with
  | nil => rfl
  | cons b line ih =>
    rw [List.reverse_cons, List.flatMap_append, Store.lastWrite_puts_append, ih, List.find?_cons]
    simp only [List.flatMap_cons, List.flatMap_nil, List.append_nil, h]
    cases p b <;> simp

theorem canonical_of_mem {line : List Block} {kv : KV} (h : kv ∈ canonicalPuts line) : kv.1.canonical := by
  simp only [canonicalPuts, canonicalPutsOf, List.mem_append, List.mem_flatMap, List.mem_map, List.mem_singleton,
    Option.mem_toList, Option.map_eq_some_iff] at h
  rcases h with ⟨b, -, ⟨tx, -, rfl⟩ | rfl⟩ | ⟨b, -, rfl⟩ <;> rfl

/-! ## The environment -/

/-- A state is a number; executing a transaction adds one to it. -/
def geth : Geth where
  State := Nat
  GasPool := Unit
  Message := Unit
  Construction := Unit
  blockHash := blockHash
  calcRequestsHash := requestsHash
  accessListHash _ := 0
  controlDigest changes := [UInt8.ofNat changes.size]
  isLondon _ _ := false
  isShanghai _ _ _ := false
  isCancun _ _ _ := false
  isOsaka _ _ _ := false
  isAmsterdam _ _ _ := false
  calcBaseFee _ _ := 0
  elasticityMultiplier _ := 1
  calcGasLimit limit _ := limit
  calcExcessBlobGas _ _ _ := 0
  calcBlobFee _ _ := 0
  prepare _ _ header := .ok header
  openState root := .ok root
  getNonce _ _ := 0
  stateError _ := none
  commit _ _ _ state := .ok (state, [(state, [])], state)
  intermediateRoot _ _ _ state := state
  setBalance _ balance state := state + balance
  setNonce _ nonce state := state + nonce
  setCode _ _ state := state
  setStorage _ _ state := state
  setState _ _ _ state := state
  prepareControl _ _ _ state := state
  finaliseControl _ _ _ state := (state, ())
  storageKeys _ _ _ := .ok []
  newConstruction := ()
  merge _ _ := ()
  accountRead _ _ := ()
  storageRead _ _ _ := ()
  storageWrite _ _ _ _ _ := ()
  balanceChange _ _ _ _ := ()
  nonceChange _ _ _ _ := ()
  codeChange _ _ _ _ := ()
  toEncodingObj _ := []
  validateAccessList _ _ _ := .ok ()
  preExecution _ _ _ state := (state, ())
  newGasPool _ := ()
  gasUsed _ := 0
  sender _ _ _ _ := .ok 7
  transactionToMessage _ _ _ := .ok ()
  applyTransaction _ _ _ tx _ state _ := .ok ({ txHash := tx.hash, logs := [{ address := 7 }] }, (), state + 1, ())
  postExecution _ _ _ _ state := .ok (some [], (), state)
  finalize _ _ _ _ _ _ state := (state, ())
  assembleBlock _ header state txs withdrawals _ _ :=
    { header := { header with root := state }, transactions := txs, withdrawals := withdrawals }
  deriveFields _ _ _ receipts := .ok receipts
  setCanonical := setCanonical
  effectiveGasTip tx _ := tx.gasTipCap
  validateTransaction _ _ tx := failIf (tx.blobHashes ≠ [] ∧ tx.sidecar = none) (.new "missing sidecar")
  validateTransactionWithState _ _ _ _ _ := .ok ()
  sidecarToV1 sidecar := .ok sidecar
  cellProofsPerBlob := 128
  computeCellProofs _ := .ok []
  computeBlobProof _ _ := .ok []
  verifyBlobProof _ _ _ := .ok ()
  verifyCellProofs _ _ _ := .ok ()
  messageRoot b := .ok b.executionHash
  syntheticStateRoot root slot := pack [root, slot]

/-- Manual mining from a genesis at time 1000. -/
def cfg : Config where
  chain := { genesisTime := 1000, forks := { amsterdamEpoch := -1 } }
  mining := { mode := .manual }

def genesisBlock : Block where
  header :=
    { parentHash := 0, coinbase := 0, number := 0, gasLimit := 30000000, time := 1000
      requestsHash := some (requestsHash []) }

def genesisEntries : Entries :=
  (∅ : Entries).writeBatch (Store.puts ([(.block (blockHash genesisBlock), .block genesisBlock),
    (.receipts (blockHash genesisBlock), .receipts [])] ++ canonicalPuts [genesisBlock]))

def env : Env where
  geth := geth
  cfg := cfg
  genesis :=
    { config := { chainID := 1337, cancunTime := none, pragueTime := none, osakaTime := none, amsterdamTime := none }
      block := genesisBlock
      entries := genesisEntries }
  accepted := by decide
  genesis_number := rfl
  genesis_time := by decide

theorem lastWrite_canonicalPuts (line : List Block) {k : Key} (hk : k.canonical) :
    Store.lastWrite (Store.puts (canonicalPuts line)) k = (env.canonicalEntry line k).map some := by
  have hlast : ∀ {k : Key}, k ≠ .headBlock → Store.lastWrite (Store.puts (canonicalPuts line)) k =
      Store.lastWrite (Store.puts (line.reverse.flatMap canonicalPutsOf)) k := by
    intro k hne
    have hhead : Store.lastWrite (Store.puts
        (line.head?.map fun b => ((.headBlock, .hash (blockHash b)) : KV)).toList) k = none :=
      Store.lastWrite_puts_eq_none (by cases line <;> simp [Ne.symm hne])
    rw [canonicalPuts, Store.lastWrite_puts_append, hhead, Option.none_or]
  cases k with
  | canonicalHash number =>
    rw [hlast (by simp), lastWrite_flatMap (p := fun b => b.number = number)
      (v := fun b => .hash (blockHash b)) fun b => by simp [lastWrite_canonicalPutsOf_number]]
    simp [Env.canonicalEntry, env, geth, Option.map_map, Function.comp_def]
  | txLookup hash =>
    rw [hlast (by simp), lastWrite_flatMap (p := fun b => b.transactions.any fun tx => tx.hash = hash)
      (v := fun b => .blockNumber b.number) fun b => lastWrite_canonicalPutsOf_lookup b hash]
    simp [Env.canonicalEntry, Option.map_map, Function.comp_def]
  | headBlock =>
    rw [canonicalPuts, Store.lastWrite_puts_append]
    cases line with
    | nil => rfl
    | cons b line => simp [Env.canonicalEntry, env, geth]
  | _ => cases hk

theorem lastWrite_canonicalPuts_none (line : List Block) {k : Key} (hk : k.canonical = false) :
    Store.lastWrite (Store.puts (canonicalPuts line)) k = none := by
  refine Store.lastWrite_puts_eq_none ?_
  rintro kv hkv rfl
  simp [canonical_of_mem hkv] at hk

theorem setCanonical_get (db : Db) (target : Block) (k : Key) :
    (setCanonical db.entries target)[k]? = if k.canonical then env.canonicalEntry (db.line target) k else db.get k := by
  rw [setCanonical, Store.get_writeBatch, Store.lastWrite_append]
  by_cases hk : k.canonical
  · rw [lastWrite_canonicalPuts _ hk, if_pos hk]
    change _ = env.canonicalEntry (({ entries := db.entries } : Db).line target) k
    cases env.canonicalEntry (({ entries := db.entries } : Db).line target) k with
    | some v => rfl
    | none =>
      -- no entry is put, so an old one is deleted
      cases hget : db.entries[k]? with
      | none =>
        rw [Option.map_none, Option.none_or, Store.lastWrite_deletes_eq_none]
        · rfl
        · intro hmem
          obtain ⟨⟨k', v⟩, hv, rfl⟩ := List.mem_map.mp (List.mem_of_mem_filter hmem)
          rw [Store.mem_toList, hget] at hv
          cases hv
      | some v =>
        rw [Option.map_none, Option.none_or, Store.lastWrite_deletes_of_mem]
        · rfl
        · exact List.mem_filter.mpr ⟨List.mem_map.mpr ⟨(k, v), Store.mem_toList.mpr hget, rfl⟩, hk⟩
  · rw [lastWrite_canonicalPuts_none _ (by simpa using hk), if_neg hk, Store.lastWrite_deletes_eq_none]
    · rfl
    · intro hmem
      exact hk (List.mem_filter.mp hmem).2

theorem genesisEntries_get (k : Key) : genesisEntries[k]? =
    (Store.lastWrite (Store.puts ([(.block (blockHash genesisBlock), .block genesisBlock),
      (.receipts (blockHash genesisBlock), .receipts [])] ++ canonicalPuts [genesisBlock])) k).getD none := by
  rw [genesisEntries, Store.get_writeBatch]
  simp

/-- The reference environment satisfies the assumed laws. -/
theorem lawful : env.Lawful where
  blockHash_injective := blockHash_injective
  requestsHash_injective := fun _ _ _ _ h => requestsHash_injective h
  prepare_eq := by
    intro parent h h' heq
    exact (Except.ok.inj heq).symm
  assembled_header := fun h s _ _ _ _ => ⟨s, h.blockAccessListHash, rfl⟩
  assembled_transactions := fun _ _ _ _ _ _ => rfl
  setCanonical_get := fun {db target} _ k => setCanonical_get db target k
  genesis_block := by
    intro h
    change genesisEntries[Key.block h]? = if h = blockHash genesisBlock then some (.block genesisBlock) else none
    rw [genesisEntries_get, Store.lastWrite_puts_append, lastWrite_canonicalPuts_none _ rfl]
    by_cases hh : h = blockHash genesisBlock
    · simp [hh]
    · have hne : blockHash genesisBlock ≠ h := Ne.symm hh
      simp [hh, hne]
  genesis_receipts := by
    intro h
    change (genesisEntries[Key.receipts h]?).isSome ↔ h = blockHash genesisBlock
    rw [genesisEntries_get, Store.lastWrite_puts_append, lastWrite_canonicalPuts_none _ rfl]
    by_cases hh : h = blockHash genesisBlock
    · simp [hh]
    · have hne : blockHash genesisBlock ≠ h := Ne.symm hh
      simp [hh, hne]
  genesis_canonical := by
    intro k hk
    change genesisEntries[k]? = env.canonicalEntry [genesisBlock] k
    rw [genesisEntries_get, Store.lastWrite_puts_append, lastWrite_canonicalPuts _ hk]
    have hnone : Store.lastWrite (Store.puts [((.block (blockHash genesisBlock), .block genesisBlock) : KV),
        (.receipts (blockHash genesisBlock), .receipts [])]) k = none :=
      Store.lastWrite_puts_eq_none (by cases k <;> first | (simp; done) | cases hk)
    rw [hnone, Option.or_none]
    cases env.canonicalEntry [genesisBlock] k <;> rfl
  genesis_own := by
    intro k hk
    change genesisEntries[k]? = none
    rw [genesisEntries_get, Store.lastWrite_puts_eq_none]
    · rfl
    · rintro kv hkv rfl
      simp only [List.cons_append, List.nil_append, List.mem_cons] at hkv
      rcases hkv with rfl | rfl | hkv
      · cases hk
      · cases hk
      · rw [Key.own_of_canonical (canonical_of_mem hkv)] at hk
        cases hk

/-! ## Runs -/

/-- The fresh node. -/
def start : Node Nat :=
  match env.newNode with
  | .ok n => n
  | .error _ => env.idleNode env.freshLedger

theorem newNode_eq : env.newNode = .ok start := by
  have hok : env.newNode.toBool = true := by decide +kernel
  unfold start
  cases h : env.newNode with
  | ok n => rfl
  | error err => rw [h] at hok; cases hok

/-- The node after some operations. -/
def run (commands : List Command) : Node Nat := commands.foldl env.step start

theorem reachable_run (commands : List Command) : env.Reachable (run commands) := by
  suffices h : ∀ n, env.Reachable n → env.Reachable (commands.foldl env.step n) from h _ (.start newNode_eq)
  induction commands with
  | nil => exact fun n hn => hn
  | cons c commands ih => exact fun n hn => ih _ (.step hn trivial)

/-- A withdrawal request. -/
def withdrawalRequest : Op := .addWithdrawalRequest ⟨⟨List.replicate 20 0, rfl⟩, ⟨List.replicate 48 0, rfl⟩, 0⟩

/-- Two consolidations are mined on the head, another one and a withdrawal are taken by a control
block, the head goes back to the genesis and from there to a branch, and a block is mined. -/
def reorg : List Command :=
  let consolidate : Op := .addConsolidationRequest
    ⟨⟨List.replicate 20 0, rfl⟩, ⟨List.replicate 48 0, rfl⟩, ⟨List.replicate 48 0, rfl⟩⟩
  [⟨.createBranch (text "a") 0, none⟩, ⟨consolidate, none⟩, ⟨consolidate, none⟩, ⟨.snapshot, none⟩,
    ⟨.mine 1 false, none⟩, ⟨consolidate, none⟩, ⟨withdrawalRequest, none⟩,
    ⟨.applyControl ((∅ : ControlChanges).insert 7 { balance := some 5 }), none⟩, ⟨.revert 1, none⟩,
    ⟨.mineBranch (text "a") 1, none⟩, ⟨.switchBranch (text "a"), none⟩, ⟨.mine 1 false, none⟩]

/-- A successful result, from the value it returned. -/
theorem result_of_toOption {α : Type} {r : Except Error (α × Ctx)} {value : α}
    (h : r.toOption.map (·.1) = some value) : ∃ ctx, r = .ok (value, ctx) := by
  cases r with
  | ok result =>
    obtain rfl := Option.some.inj h
    exact ⟨result.2, rfl⟩
  | error err => cases h

section Conditions

variable {P : Node env.geth.State → Command → Prop} [∀ n c, Decidable (P n c)]

/-- Every operation of a run meets a condition. -/
def allMeet (P : Node env.geth.State → Command → Prop) [∀ n c, Decidable (P n c)] :
    Node env.geth.State → List Command → Bool
  | _, [] => true
  | n, c :: commands => decide (P n c) && allMeet P (env.step n c) commands

theorem reachableBy_run {commands : List Command} (h : allMeet P start commands = true) :
    env.ReachableBy P (run commands) := by
  suffices hrun : ∀ n, env.ReachableBy P n → allMeet P n commands = true →
      env.ReachableBy P (commands.foldl env.step n) from hrun _ (.start newNode_eq) h
  clear h
  induction commands with
  | nil => exact fun n hn _ => hn
  | cons c commands ih =>
    intro n hn hmeet
    simp only [allMeet, Bool.and_eq_true, decide_eq_true_iff] at hmeet
    exact ih _ (.step hn hmeet.1) hmeet.2

end Conditions

end Ethertest.Reference
