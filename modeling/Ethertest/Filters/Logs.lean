-- SUMMARY: Log criteria, the logs of a block that match them, and the limits of a log response.
import Ethertest.Finality

/-!
# Logs

A log query names addresses, alternatives for each topic and a range of blocks. The logs of a
block are those of its receipts, with the position that geth derives for them. Results are
collected under a limit on their number and on the length of their JSON array.
-/

namespace Ethertest

namespace Filters

/-! ## Errors -/

inductive RpcError where
  /-- `invalidInputError` -/
  | invalidInput (message : String)
  /-- `resourceNotFoundError` -/
  | resourceNotFound (message : String)
  | error (err : Error)
  deriving DecidableEq

/-- `newResourceLimitError` -/
def resourceLimit (resource : String) (requested limit : Nat) : RpcError :=
  .error (.resourceLimit resource requested limit)

/-- One look at `ctx.Err()`. -/
def checkCtx (ctx : Ctx) : Except RpcError Ctx := ctx.check.mapError .error

/-! ## Logs of a block -/

/-- A log with its position on the chain. -/
structure LogEntry where
  log : Log
  blockNumber : Nat
  blockHash : Hash
  blockTimestamp : Nat
  txHash : Hash
  txIndex : Nat
  index : Nat
  removed : Bool := false
  deriving DecidableEq

/-- The logs of receipts, from a transaction and a log index on. -/
def receiptEntries (hash : Hash) (b : Block) : List Receipt → Nat → Nat → List LogEntry
  | [], _, _ => []
  | receipt :: rest, txIndex, index =>
    (receipt.logs.zipIdx index).map (fun (log, i) =>
        { log := log, blockNumber := b.number, blockHash := hash, blockTimestamp := b.time,
          txHash := receipt.txHash, txIndex := txIndex, index := i }) ++
      receiptEntries hash b rest (txIndex + 1) (index + receipt.logs.length)

/-- The logs of `GetReceiptsByHash`. -/
def entriesByHash (db : Db) (hash : Hash) (b : Block) : List LogEntry :=
  match db.get (.receipts hash) with
  | some (.receipts receipts) => receiptEntries hash b receipts 0 0
  | _ => []

/-! ## Criteria -/

/-- `ethereum.FilterQuery` -/
structure FilterQuery where
  blockHash : Option Hash := none
  fromBlock : Option Int := none
  toBlock : Option Int := none
  addresses : List Address := []
  topics : List (List Hash) := []

def matchesAddress (address : Address) (addresses : List Address) : Bool :=
  if addresses.length = 0 then true else addresses.contains address

/-- The loop of `matchesTopics`, over the topics of the query and those of the log. -/
def matchesEachTopic : List Hash → List (List Hash) → Bool
  | _, [] => true
  | [], _ :: _ => false
  | topic :: logTopics, alternatives :: rest =>
    if alternatives.length = 0 then matchesEachTopic logTopics rest
    else if alternatives.any (· == topic) then matchesEachTopic logTopics rest
    else false

def matchesTopics (logTopics : List Hash) (filterTopics : List (List Hash)) : Bool :=
  if logTopics.length < filterTopics.length then false else matchesEachTopic logTopics filterTopics

def filterBlockLogs (entries : List LogEntry) (query : FilterQuery) : List LogEntry :=
  entries.filter fun entry =>
    matchesAddress entry.log.address query.addresses && matchesTopics entry.log.topics query.topics

/-- What the criteria ask of a log: an address that is listed, if any is, and at every position
of the query a topic that is listed there, or any topic. -/
structure FilterQuery.Matches (query : FilterQuery) (log : Log) : Prop where
  address : query.addresses ≠ [] → log.address ∈ query.addresses
  topics : ∀ (i : Nat) (alternatives : List Hash), query.topics[i]? = some alternatives →
    ∃ topic, log.topics[i]? = some topic ∧ (alternatives ≠ [] → topic ∈ alternatives)

theorem matchesAddress_iff {address : Address} {addresses : List Address} :
    matchesAddress address addresses ↔ (addresses ≠ [] → address ∈ addresses) := by
  cases addresses <;> simp [matchesAddress]

private theorem matchesEachTopic_iff {logTopics : List Hash} {filterTopics : List (List Hash)} :
    matchesEachTopic logTopics filterTopics ↔
      ∀ (i : Nat) (alternatives : List Hash), filterTopics[i]? = some alternatives →
        ∃ topic, logTopics[i]? = some topic ∧ (alternatives ≠ [] → topic ∈ alternatives) := by
  fun_induction matchesEachTopic logTopics filterTopics with
  | case1 logTopics => simp
  | case2 alternatives rest =>
    simp only [Bool.false_eq_true, false_iff, not_forall]
    exact ⟨0, alternatives, rfl, by simp⟩
  | case3 topic logTopics alternatives rest hany ih =>
    have hempty : alternatives = [] := List.length_eq_zero_iff.mp hany
    rw [← Nat.and_forall_add_one]
    simp [hempty, ih]
  | case4 topic logTopics alternatives rest hsome hlisted ih =>
    have hmem : topic ∈ alternatives := by simpa using hlisted
    rw [← Nat.and_forall_add_one]
    simp [hmem, ih]
  | case5 topic logTopics alternatives rest hsome hlisted =>
    have hmem : topic ∉ alternatives := by simpa using hlisted
    simp only [Bool.false_eq_true, false_iff, not_forall]
    exact ⟨0, alternatives, rfl, by simp [hmem, List.length_eq_zero_iff.not.mp hsome]⟩

/-- The check of the lengths decides nothing else: a query with more topics than the log has
asks for a topic that is not there. -/
theorem matchesTopics_eq (logTopics : List Hash) (filterTopics : List (List Hash)) :
    matchesTopics logTopics filterTopics = matchesEachTopic logTopics filterTopics := by
  rw [matchesTopics]
  split
  next hlong =>
    have hmissing : ¬ matchesEachTopic logTopics filterTopics := by
      rw [matchesEachTopic_iff]
      intro hall
      obtain ⟨topic, htopic, -⟩ := hall logTopics.length _ (List.getElem?_eq_getElem hlong)
      simp at htopic
    exact (Bool.eq_false_iff.mpr hmissing).symm
  next => rfl

theorem FilterQuery.matches_iff {query : FilterQuery} {log : Log} :
    query.Matches log ↔
      (matchesAddress log.address query.addresses && matchesTopics log.topics query.topics) = true := by
  rw [Bool.and_eq_true, matchesAddress_iff, matchesTopics_eq, matchesEachTopic_iff]
  exact ⟨fun h => ⟨h.address, h.topics⟩, fun h => ⟨h.1, h.2⟩⟩

instance (query : FilterQuery) (log : Log) : Decidable (query.Matches log) :=
  decidable_of_iff _ FilterQuery.matches_iff.symm

theorem filterBlockLogs_eq (entries : List LogEntry) (query : FilterQuery) :
    filterBlockLogs entries query = entries.filter fun entry => query.Matches entry.log := by
  refine List.filter_congr fun entry _ => ?_
  rw [Bool.eq_iff_iff, decide_eq_true_iff, FilterQuery.matches_iff]

/-! ## Limits -/

/-- The limits that log responses are subject to. -/
structure LogLimits where
  maxLogBlocks : UInt64
  maxLogResults : Nat
  maxResponseBytes : Nat

/-- `appendLimitedLogs`: the result and its encoded size, with more logs. Marshalling a log does
not fail. -/
def appendLimitedLogs (limits : LogLimits) (marshal : LogEntry → Bytes) :
    List LogEntry → Nat → List LogEntry → Except RpcError (List LogEntry × Nat)
  | result, encodedSize, [] => .ok (result, encodedSize)
  | result, encodedSize, entry :: rest => do
    failIf (limits.maxLogResults < result.length + 1)
      (resourceLimit "log result count" (result.length + 1) limits.maxLogResults)
    let additional := (marshal entry).length + if result.length ≠ 0 then 1 else 0
    failIf (limits.maxResponseBytes < encodedSize ∨ limits.maxResponseBytes - encodedSize < additional)
      (resourceLimit "log response bytes" (encodedSize + additional) limits.maxResponseBytes)
    appendLimitedLogs limits marshal (result ++ [entry]) (encodedSize + additional) rest

/-- The JSON array of a response. -/
def encodeArray (marshal : LogEntry → Bytes) (entries : List LogEntry) : Bytes :=
  0x5b :: (List.intercalate [0x2c] (entries.map marshal) ++ [0x5d])

/-- A response within the limits. -/
structure LogLimits.Admits (limits : LogLimits) (marshal : LogEntry → Bytes) (entries : List LogEntry) :
    Prop where
  count : entries.length ≤ limits.maxLogResults
  bytes : (encodeArray marshal entries).length ≤ limits.maxResponseBytes

variable {limits : LogLimits} {marshal : LogEntry → Bytes} {result entries : List LogEntry}

/-- The encoded size of a response, entry by entry: brackets, and commas between entries. -/
theorem length_encodeArray_append (entry : LogEntry) :
    (encodeArray marshal (result ++ [entry])).length =
      (encodeArray marshal result).length + ((marshal entry).length + if result.length ≠ 0 then 1 else 0) := by
  simp only [encodeArray, List.length_cons, List.length_append, length_intercalate_singleton, List.map_append,
    List.sum_append, List.length_map, List.map_cons, List.map_nil, List.sum_cons, List.sum_nil, List.length_nil]
  split <;> omega

theorem LogLimits.Admits.of_append (h : limits.Admits marshal (result ++ entries)) : limits.Admits marshal result := by
  refine ⟨?_, ?_⟩
  · have := h.count
    rw [List.length_append] at this
    omega
  · refine le_trans ?_ h.bytes
    simp only [encodeArray, List.length_cons, List.length_append, length_intercalate_singleton, List.map_append,
      List.sum_append, List.length_map, List.length_nil]
    omega

/-- Logs are appended exactly when the response stays within the limits. -/
theorem appendLimitedLogs_ok_iff {out : List LogEntry × Nat} (hresult : limits.Admits marshal result) :
    appendLimitedLogs limits marshal result (encodeArray marshal result).length entries = .ok out ↔
      limits.Admits marshal (result ++ entries) ∧
        out = (result ++ entries, (encodeArray marshal (result ++ entries)).length) := by
  induction entries generalizing result with
  | nil => simp [appendLimitedLogs, hresult, eq_comm]
  | cons entry entries ih =>
    have hsplit : result ++ entry :: entries = result ++ [entry] ++ entries := by simp
    simp only [appendLimitedLogs, Except.do_ok_iff, exists_const, failIf_eq_ok, ← length_encodeArray_append, hsplit]
    have hstep : (¬ limits.maxLogResults < result.length + 1 ∧
        ¬ (limits.maxResponseBytes < (encodeArray marshal result).length ∨
          limits.maxResponseBytes - (encodeArray marshal result).length <
            (marshal entry).length + if result.length ≠ 0 then 1 else 0)) ↔
          limits.Admits marshal (result ++ [entry]) := by
      have hbytes := hresult.bytes
      have hlength : (encodeArray marshal (result ++ [entry])).length = _ := length_encodeArray_append entry
      constructor
      · rintro ⟨hcount, hfits⟩
        exact ⟨by simpa using hcount, by omega⟩
      · rintro ⟨hcount, hfits⟩
        refine ⟨by simpa using hcount, by omega⟩
    constructor
    · rintro ⟨hcount, hfits, happend⟩
      exact (ih (hstep.mp ⟨hcount, hfits⟩)).mp happend
    · rintro ⟨hadmits, hout⟩
      obtain ⟨hcount, hfits⟩ := hstep.mpr hadmits.of_append
      exact ⟨hcount, hfits, (ih hadmits.of_append).mpr ⟨hadmits, hout⟩⟩

/-- Appending fails with an exceeded limit only. -/
theorem appendLimitedLogs_error {encodedSize : Nat} {err : RpcError}
    (h : appendLimitedLogs limits marshal result encodedSize entries = .error err) :
    ∃ resource requested limit, err = resourceLimit resource requested limit := by
  induction entries generalizing result encodedSize with
  | nil => cases h
  | cons entry entries ih =>
    simp only [appendLimitedLogs, Except.do_error_iff, failIf_eq_error, failIf_eq_ok, exists_const] at h
    obtain ⟨-, rfl⟩ | ⟨-, ⟨-, rfl⟩ | ⟨-, h⟩⟩ := h
    · exact ⟨_, _, _, rfl⟩
    · exact ⟨_, _, _, rfl⟩
    · exact ih h

end Filters

end Ethertest
