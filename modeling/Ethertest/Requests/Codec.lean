-- SUMMARY: The byte format of execution requests: entries of five types, parsing and marshalling of request lists.
import Ethertest.Types
import Ethertest.Base.Bytes

/-!
# Execution requests as bytes

A request list has one item per request type, in increasing order of the type byte
that starts the item. The rest of the item is the concatenation of its entries, all
of the type's size. `none` stands for a nil list (a block before Prague).
-/

namespace Ethertest

/-- A byte array of a fixed length. -/
structure FixedBytes (n : Nat) where
  bytes : Bytes
  length_eq : bytes.length = n
  deriving DecidableEq

@[simp] theorem FixedBytes.length_bytes {n : Nat} (b : FixedBytes n) : b.bytes.length = n := b.length_eq

/-- A zeroed array after `copy(array[:], data)`. -/
def copyFixed (n : Nat) (data : Bytes) : FixedBytes n where
  bytes := data.take n ++ List.replicate (n - data.length) 0
  length_eq := by
    simp only [List.length_append, List.length_take, List.length_replicate]
    omega

/-- `data[i:j]` -/
def slice (data : Bytes) (i j : Nat) : Bytes :=
  (data.drop i).take (j - i)

theorem slice_append {data : Bytes} {i j k : Nat} (hij : i ≤ j) (hjk : j ≤ k) :
    slice data i j ++ slice data j k = slice data i k := by
  have hlen : k - i = (j - i) + (k - j) := by omega
  have hdrop : data.drop j = (data.drop i).drop (j - i) := by
    rw [List.drop_drop, Nat.add_sub_cancel' hij]
  rw [slice, slice, slice, hdrop, hlen, List.take_add]

theorem length_slice {data : Bytes} {i j : Nat} (hj : j ≤ data.length) : (slice data i j).length = j - i := by
  simp only [slice, List.length_take, List.length_drop]
  omega

theorem slice_zero_length (data : Bytes) : slice data 0 data.length = data := by
  simp [slice]

/-- `binary.LittleEndian.PutUint64` -/
def putUint64 (x : UInt64) : Bytes := leBytes 8 x.toNat

/-- `binary.LittleEndian.Uint64` -/
def uint64 (data : Bytes) : UInt64 := UInt64.ofNat (leNat data)

/-! ## Request types -/

def executionRequestDeposit : UInt8 := 0
def executionRequestWithdrawal : UInt8 := 1
def executionRequestConsolidation : UInt8 := 2
def executionRequestBuilderDeposit : UInt8 := 3
def executionRequestBuilderExit : UInt8 := 4

def maxDepositRequestsPerPayload : Nat := 8192
def maxWithdrawalRequestsPerPayload : Nat := 16
def maxConsolidationRequestsPerPayload : Nat := 2

def depositRequestSize : Nat := 192
def withdrawalRequestSize : Nat := 76
def consolidationRequestSize : Nat := 116
def builderDepositRequestSize : Nat := 184
def builderExitRequestSize : Nat := 68

/-- A deposit as a caller gives it. -/
structure ExecutionDepositRequest where
  pubkey : FixedBytes 48
  withdrawalCredentials : FixedBytes 32
  amount : UInt64
  signature : FixedBytes 96
  index : UInt64
  deriving DecidableEq

/-- A deposit as the Beacon library holds it: the credentials are a slice. -/
structure DepositRequest where
  pubkey : FixedBytes 48
  withdrawalCredentials : Bytes
  amount : UInt64
  signature : FixedBytes 96
  index : UInt64
  deriving DecidableEq

structure ExecutionWithdrawalRequest where
  sourceAddress : FixedBytes 20
  validatorPubkey : FixedBytes 48
  amount : UInt64
  deriving DecidableEq

structure ExecutionConsolidationRequest where
  sourceAddress : FixedBytes 20
  sourcePubkey : FixedBytes 48
  targetPubkey : FixedBytes 48
  deriving DecidableEq

structure BuilderDepositRequest where
  pubkey : FixedBytes 48
  withdrawalCredentials : FixedBytes 32
  amount : UInt64
  signature : FixedBytes 96
  deriving DecidableEq

structure BuilderExitRequest where
  sourceAddress : FixedBytes 20
  pubkey : FixedBytes 48
  deriving DecidableEq

structure ExecutionRequests where
  deposits : List DepositRequest := []
  withdrawals : List ExecutionWithdrawalRequest := []
  consolidations : List ExecutionConsolidationRequest := []
  builderDeposits : List BuilderDepositRequest := []
  builderExits : List BuilderExitRequest := []
  deriving DecidableEq

/-! ## Entries -/

def encodeExecutionDepositRequest (r : ExecutionDepositRequest) : Bytes :=
  r.pubkey.bytes ++ r.withdrawalCredentials.bytes ++ putUint64 r.amount ++ r.signature.bytes ++
    putUint64 r.index

def encodeExecutionWithdrawalRequest (r : ExecutionWithdrawalRequest) : Bytes :=
  r.sourceAddress.bytes ++ r.validatorPubkey.bytes ++ putUint64 r.amount

def encodeExecutionConsolidationRequest (r : ExecutionConsolidationRequest) : Bytes :=
  r.sourceAddress.bytes ++ r.sourcePubkey.bytes ++ r.targetPubkey.bytes

def encodeBuilderDepositRequest (r : BuilderDepositRequest) : Bytes :=
  r.pubkey.bytes ++ r.withdrawalCredentials.bytes ++ putUint64 r.amount ++ r.signature.bytes

def encodeBuilderExitRequest (r : BuilderExitRequest) : Bytes :=
  r.sourceAddress.bytes ++ r.pubkey.bytes

/-- The length check that the three decoders share. -/
def checkLength (format : String) (data : Bytes) (size : Nat) : Except Error Unit :=
  failIf (data.length ≠ size) (.errorf format [.num data.length, .num size])

def decodeDepositRequest (data : Bytes) : Except Error DepositRequest := do
  checkLength "deposit request has length %d, want %d" data depositRequestSize
  .ok { pubkey := copyFixed 48 (slice data 0 48)
        withdrawalCredentials := slice data 48 80
        amount := uint64 (slice data 80 88)
        signature := copyFixed 96 (slice data 88 184)
        index := uint64 (slice data 184 192) }

def decodeWithdrawalRequest (data : Bytes) : Except Error ExecutionWithdrawalRequest := do
  checkLength "withdrawal request has length %d, want %d" data withdrawalRequestSize
  .ok { sourceAddress := copyFixed 20 (slice data 0 20)
        validatorPubkey := copyFixed 48 (slice data 20 68)
        amount := uint64 (slice data 68 76) }

def decodeConsolidationRequest (data : Bytes) : Except Error ExecutionConsolidationRequest := do
  checkLength "consolidation request has length %d, want %d" data consolidationRequestSize
  .ok { sourceAddress := copyFixed 20 (slice data 0 20)
        sourcePubkey := copyFixed 48 (slice data 20 68)
        targetPubkey := copyFixed 48 (slice data 68 116) }

def decodeBuilderDepositRequest (data : Bytes) : BuilderDepositRequest where
  pubkey := copyFixed 48 (slice data 0 48)
  withdrawalCredentials := copyFixed 32 (slice data 48 80)
  amount := uint64 (slice data 80 88)
  signature := copyFixed 96 (slice data 88 184)

def decodeBuilderExitRequest (data : Bytes) : BuilderExitRequest where
  sourceAddress := copyFixed 20 (slice data 0 20)
  pubkey := copyFixed 48 (slice data 20 68)

/-! ## Lists -/

/-- Add the entries of one item to the requests read so far. -/
def addItem (result : ExecutionRequests) (requestType : UInt8) (payload : Bytes) :
    Except Error ExecutionRequests :=
  match requestType.toNat with
  | 0 => do
    failIf (payload.length % depositRequestSize ≠ 0)
      (.errorf "deposit request payload has length %d" [.num payload.length])
    let values ← (slices depositRequestSize payload).mapM decodeDepositRequest
    .ok { result with deposits := result.deposits ++ values }
  | 1 => do
    failIf (payload.length % withdrawalRequestSize ≠ 0)
      (.errorf "withdrawal request payload has length %d" [.num payload.length])
    let values ← (slices withdrawalRequestSize payload).mapM decodeWithdrawalRequest
    .ok { result with withdrawals := result.withdrawals ++ values }
  | 2 => do
    failIf (payload.length % consolidationRequestSize ≠ 0)
      (.errorf "consolidation request payload has length %d" [.num payload.length])
    let values ← (slices consolidationRequestSize payload).mapM decodeConsolidationRequest
    .ok { result with consolidations := result.consolidations ++ values }
  | 3 => do
    failIf (payload.length % builderDepositRequestSize ≠ 0 ∨ 64 < payload.length / builderDepositRequestSize)
      (.new "invalid builder deposit request payload")
    .ok { result with
      builderDeposits := result.builderDeposits ++
        (slices builderDepositRequestSize payload).map decodeBuilderDepositRequest }
  | 4 => do
    failIf (payload.length % builderExitRequestSize ≠ 0 ∨ 16 < payload.length / builderExitRequestSize)
      (.new "invalid builder exit request payload")
    .ok { result with
      builderExits := result.builderExits ++
        (slices builderExitRequestSize payload).map decodeBuilderExitRequest }
  | _ => .ok result

/-- The loop over the items of a request list. -/
def parseItems (index : Nat) (previousType : Int) (result : ExecutionRequests) :
    List Bytes → Except Error ExecutionRequests
  | [] => .ok result
  | [] :: _ => .error (.errorf "execution request item %d has no payload" [.num index])
  | (requestType :: payload) :: rest => do
    failIf (payload = []) (.errorf "execution request item %d has no payload" [.num index])
    failIf (executionRequestBuilderExit.toNat < requestType.toNat)
      (.errorf "unsupported execution request type 0x%02x" [.num requestType.toNat])
    failIf ((requestType.toNat : Int) ≤ previousType)
      (.new "execution request types are not strictly increasing")
    let result ← addItem result requestType payload
    parseItems (index + 1) requestType.toNat result rest

/-- The count limits of a parsed list. -/
def checkCounts (r : ExecutionRequests) : Except Error Unit := do
  failIf (maxDepositRequestsPerPayload < r.deposits.length)
    (.errorf "block has %d deposit requests, max %d"
      [.num r.deposits.length, .num maxDepositRequestsPerPayload])
  failIf (maxWithdrawalRequestsPerPayload < r.withdrawals.length)
    (.errorf "block has %d withdrawal requests, max %d"
      [.num r.withdrawals.length, .num maxWithdrawalRequestsPerPayload])
  failIf (maxConsolidationRequestsPerPayload < r.consolidations.length)
    (.errorf "block has %d consolidation requests, max %d"
      [.num r.consolidations.length, .num maxConsolidationRequestsPerPayload])

def parseExecutionRequests : Option (List Bytes) → Except Error (Option ExecutionRequests)
  | none => .ok none
  | some requests => do
    let result ← parseItems 0 (-1) {} requests
    checkCounts result
    .ok (some result)

/-- The item of one type, absent when the type has no entries. -/
def marshalItem (requestType : UInt8) (entries : List Bytes) : List Bytes :=
  if entries = [] then [] else [requestType :: entries.flatten]

/-- The encoded deposits, counted from `index`. -/
def marshalDeposits (index : Nat) : List DepositRequest → Except Error (List Bytes)
  | [] => .ok []
  | r :: rest => do
    failIf (r.withdrawalCredentials.length ≠ 32) (.errorf "deposit request %d is invalid" [.num index])
    let entry := encodeExecutionDepositRequest
      { pubkey := r.pubkey, withdrawalCredentials := copyFixed 32 r.withdrawalCredentials,
        amount := r.amount, signature := r.signature, index := r.index }
    let entries ← marshalDeposits (index + 1) rest
    .ok (entry :: entries)

def marshalExecutionRequests : Option ExecutionRequests → Except Error (Option (List Bytes))
  | none => .ok none
  | some r => do
    let deposits ← marshalDeposits 0 r.deposits
    .ok <| some <|
      marshalItem executionRequestDeposit deposits ++
      marshalItem executionRequestWithdrawal (r.withdrawals.map encodeExecutionWithdrawalRequest) ++
      marshalItem executionRequestConsolidation
        (r.consolidations.map encodeExecutionConsolidationRequest) ++
      marshalItem executionRequestBuilderDeposit (r.builderDeposits.map encodeBuilderDepositRequest) ++
      marshalItem executionRequestBuilderExit (r.builderExits.map encodeBuilderExitRequest)

end Ethertest
