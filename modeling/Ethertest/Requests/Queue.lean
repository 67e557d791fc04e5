-- SUMMARY: The queue of execution-request controls, its checks, and its reconciliation after a change of the chain.
import Ethertest.Requests.Codec
import Ethertest.Base.Store

/-!
# The queue of execution-request controls

Callers queue deposit, withdrawal and consolidation requests. Each gets the next ID.
A canonical block consumes a number of them from the front of each type's queue and
records them. When the canonical chain changes, the queue is computed anew from the
records of the abandoned and the adopted blocks.
-/

namespace Ethertest

/-- The request types that a caller can queue. -/
inductive RequestType where
  | deposit
  | withdrawal
  | consolidation
  deriving DecidableEq

namespace RequestType

/-- The types in the order in which the source ranges over them. -/
def all : List RequestType := [deposit, withdrawal, consolidation]

@[simp] theorem mem_all (t : RequestType) : t ∈ all := by
  cases t <;> decide

def ofByte (b : UInt8) : Option RequestType :=
  if b = executionRequestDeposit then some deposit
  else if b = executionRequestWithdrawal then some withdrawal
  else if b = executionRequestConsolidation then some consolidation
  else none

def byte : RequestType → UInt8
  | deposit => executionRequestDeposit
  | withdrawal => executionRequestWithdrawal
  | consolidation => executionRequestConsolidation

def name : RequestType → String
  | deposit => "deposit"
  | withdrawal => "withdrawal"
  | consolidation => "consolidation"

def size : RequestType → Nat
  | deposit => depositRequestSize
  | withdrawal => withdrawalRequestSize
  | consolidation => consolidationRequestSize

def limit : RequestType → Nat
  | deposit => maxDepositRequestsPerPayload
  | withdrawal => maxWithdrawalRequestsPerPayload
  | consolidation => maxConsolidationRequestsPerPayload

def fullError : RequestType → Error
  | deposit => .new "deposit execution request queue already has 8192 entries"
  | withdrawal => .new "withdrawal execution request queue already has 16 entries"
  | consolidation => .new "consolidation execution request queue already has 2 entries"

end RequestType

/-- The number of entries of a type. -/
def ExecutionRequests.countOf (r : ExecutionRequests) : RequestType → Nat
  | .deposit => r.deposits.length
  | .withdrawal => r.withdrawals.length
  | .consolidation => r.consolidations.length

/-- A queued request with its ID. -/
structure QueuedExecutionRequest where
  id : Nat
  data : Bytes
  deriving DecidableEq

/-- Controls of the three types. -/
structure ExecutionRequestControlSet where
  deposits : List QueuedExecutionRequest := []
  withdrawals : List QueuedExecutionRequest := []
  consolidations : List QueuedExecutionRequest := []
  deriving DecidableEq

namespace ExecutionRequestControlSet

/-- The controls of one type. -/
def get (c : ExecutionRequestControlSet) : RequestType → List QueuedExecutionRequest
  | .deposit => c.deposits
  | .withdrawal => c.withdrawals
  | .consolidation => c.consolidations

/-- The set with the given controls of each type. -/
def ofFun (f : RequestType → List QueuedExecutionRequest) : ExecutionRequestControlSet where
  deposits := f .deposit
  withdrawals := f .withdrawal
  consolidations := f .consolidation

@[simp] theorem get_ofFun (f : RequestType → List QueuedExecutionRequest) (t : RequestType) :
    (ofFun f).get t = f t := by
  cases t <;> rfl

theorem ext_get {c d : ExecutionRequestControlSet} (h : ∀ t, c.get t = d.get t) : c = d := by
  obtain ⟨x, y, z⟩ := c
  obtain ⟨x', y', z'⟩ := d
  have hx : x = x' := h .deposit
  have hy : y = y' := h .withdrawal
  have hz : z = z' := h .consolidation
  rw [hx, hy, hz]

/-- All controls with their types, in the order in which the source ranges over them. -/
def items (c : ExecutionRequestControlSet) : List (RequestType × QueuedExecutionRequest) :=
  RequestType.all.flatMap fun t => (c.get t).map fun item => (t, item)

@[simp] theorem mem_items {c : ExecutionRequestControlSet} {t : RequestType}
    {item : QueuedExecutionRequest} : (t, item) ∈ c.items ↔ item ∈ c.get t := by
  simp [items]

/-- The number of controls of all types. -/
def count (c : ExecutionRequestControlSet) : Nat :=
  c.deposits.length + c.withdrawals.length + c.consolidations.length

theorem count_eq_zero {c : ExecutionRequestControlSet} : c.count = 0 ↔ ∀ t, c.get t = [] := by
  constructor
  · intro h t
    unfold count at h
    cases t <;> exact List.eq_nil_of_length_eq_zero (by simp only [get]; omega)
  · intro h
    have h₀ : c.deposits = [] := h .deposit
    have h₁ : c.withdrawals = [] := h .withdrawal
    have h₂ : c.consolidations = [] := h .consolidation
    simp [count, h₀, h₁, h₂]

end ExecutionRequestControlSet

def executionRequestQueueFormat : Nat := 1
def executionRequestRecordFormat : Nat := 1

structure ExecutionRequestQueue extends ExecutionRequestControlSet where
  format : Nat
  nextID : Nat
  deriving DecidableEq

def newExecutionRequestQueue : ExecutionRequestQueue where
  format := executionRequestQueueFormat
  nextID := 1

namespace ExecutionRequestQueue

theorem ext_get {q q' : ExecutionRequestQueue} (h : ∀ t, q.get t = q'.get t) (hformat : q.format = q'.format)
    (hnext : q.nextID = q'.nextID) : q = q' := by
  obtain ⟨c, format, next⟩ := q
  obtain ⟨c', format', next'⟩ := q'
  obtain rfl : c = c' := ExecutionRequestControlSet.ext_get h
  obtain rfl : format = format' := hformat
  obtain rfl : next = next' := hnext
  rfl

/-- The queue with its controls replaced. -/
def withControls (q : ExecutionRequestQueue) (c : ExecutionRequestControlSet) : ExecutionRequestQueue :=
  { q with toExecutionRequestControlSet := c }

@[simp] theorem withControls_get (q : ExecutionRequestQueue) (c : ExecutionRequestControlSet)
    (t : RequestType) : (q.withControls c).get t = c.get t := rfl

def empty (q : ExecutionRequestQueue) : Bool :=
  q.deposits.isEmpty && q.withdrawals.isEmpty && q.consolidations.isEmpty

/-- Append one control to the queue of its type. -/
def push (q : ExecutionRequestQueue) (t : RequestType) (data : Bytes) : ExecutionRequestQueue :=
  { q with
    toExecutionRequestControlSet := .ofFun fun u =>
      if u = t then q.get u ++ [⟨q.nextID, data⟩] else q.get u
    nextID := q.nextID + 1 }

def enqueue (q : ExecutionRequestQueue) (requestType : UInt8) (data : Bytes) :
    Except Error ExecutionRequestQueue := do
  let t ← orFail (RequestType.ofByte requestType)
    (.errorf "unsupported execution request type 0x%02x" [.num requestType.toNat])
  failIf (data.length ≠ t.size)
    (.errorf "execution request type 0x%02x has length %d, want %d"
      [.num requestType.toNat, .num data.length, .num t.size])
  failIf (t.limit ≤ (q.get t).length) t.fullError
  failIf (q.nextID = 0 ∨ q.nextID = maxUint64) (.new "execution request ID overflow")
  .ok (q.push t data)

end ExecutionRequestQueue

/-! ## Checks -/

/-- The checks of one type's controls, from the given index on. `seen` are the IDs met
so far, of all types. -/
def checkControls (t : RequestType) (index previousID : Nat) (seen : List Nat) :
    List QueuedExecutionRequest → Except Error (List Nat)
  | [] => .ok seen
  | item :: rest => do
    failIf (item.id = 0) (.errorf "%s control %d has zero ID" [.name t.name, .num index])
    failIf (item.data.length ≠ t.size)
      (.errorf "%s control %d has length %d, want %d"
        [.name t.name, .num index, .num item.data.length, .num t.size])
    failIf (item.id ∈ seen) (.errorf "execution request control ID %d is duplicated" [.num item.id])
    failIf (item.id ≤ previousID)
      (.errorf "%s control IDs are not strictly increasing" [.name t.name])
    checkControls t (index + 1) item.id (item.id :: seen) rest

def validateExecutionRequestControlSet (c : ExecutionRequestControlSet) : Except Error Unit := do
  let seen ← checkControls .deposit 0 0 [] c.deposits
  let seen ← checkControls .withdrawal 0 0 seen c.withdrawals
  let _ ← checkControls .consolidation 0 0 seen c.consolidations

/-- The largest ID in the queue. -/
def ExecutionRequestQueue.maxID (q : ExecutionRequestQueue) : Nat :=
  (q.deposits ++ q.withdrawals ++ q.consolidations).foldl (fun m item => max m item.id) 0

def validateExecutionRequestQueue (q : ExecutionRequestQueue) : Except Error Unit := do
  failIf (q.format ≠ executionRequestQueueFormat)
    (.errorf "unsupported execution request queue format %d" [.num q.format])
  validateExecutionRequestControlSet q.toExecutionRequestControlSet
  failIf (q.nextID = 0 ∨ q.nextID ≤ q.maxID)
    (.errorf "execution request next ID %d does not exceed pending ID %d" [.num q.nextID, .num q.maxID])

/-! ## Records -/

/-- What a block's record says about its requests: the native list, the full list and
the controls consumed. -/
structure ExecutionRequestRecord where
  format : Nat
  nativeRequests : Option (List Bytes)
  requests : Option (List Bytes)
  controls : ExecutionRequestControlSet
  deriving DecidableEq

/-- The given requests followed by the controls, per type. -/
def appendExecutionRequestControls (requests : Option ExecutionRequests)
    (controls : ExecutionRequestControlSet) : Except Error (Option ExecutionRequests) :=
  match requests with
  | none => do
    failIf (controls.count ≠ 0) (.new "pre-Prague block cannot contain execution request controls")
    .ok none
  | some r => do
    let deposits ← controls.deposits.mapM fun item => decodeDepositRequest item.data
    let withdrawals ← controls.withdrawals.mapM fun item => decodeWithdrawalRequest item.data
    let consolidations ← controls.consolidations.mapM fun item => decodeConsolidationRequest item.data
    .ok <| some { r with
      deposits := r.deposits ++ deposits
      withdrawals := r.withdrawals ++ withdrawals
      consolidations := r.consolidations ++ consolidations }

def validateExecutionRequestRecord (record : ExecutionRequestRecord) : Except Error Unit := do
  failIf (record.requests ≠ none ∧ record.nativeRequests = none)
    (.new "prague execution request record has no native request list")
  let native ← parseExecutionRequests record.nativeRequests
  let _ ← parseExecutionRequests record.requests
  validateExecutionRequestControlSet record.controls
  let combined ← appendExecutionRequestControls native record.controls
  let combinedBytes ← marshalExecutionRequests combined
  failIf (combinedBytes ≠ record.requests)
    (.new "native execution requests and recorded controls do not reconstruct the full request list")

/-! ## Reconciliation -/

/-- The tables of `reconcileExecutionRequestQueue`: every control met, by ID, and the
controls that are pending, by type and ID. -/
structure Reconciliation where
  known : Store Nat (RequestType × Bytes) := ∅
  byType : RequestType → Store Nat QueuedExecutionRequest := fun _ => ∅

namespace Reconciliation

/-- Note a control; the same ID must always come with the same type and data. -/
def remember (s : Reconciliation) (t : RequestType) (item : QueuedExecutionRequest) :
    Except Error Reconciliation :=
  match s.known[item.id]? with
  | some seen => do
    failIf (seen ≠ (t, item.data))
      (.errorf "execution request control ID %d has conflicting values" [.num item.id])
    .ok s
  | none => .ok { s with known := s.known.insert item.id (t, item.data) }

/-- Note a control and make it pending. -/
def add (s : Reconciliation) (typed : RequestType × QueuedExecutionRequest) :
    Except Error Reconciliation := do
  let s ← s.remember typed.1 typed.2
  .ok { s with
    byType := Function.update s.byType typed.1 ((s.byType typed.1).insert typed.2.id typed.2) }

/-- Take a control that a block of the new chain consumes out of the pending ones. -/
def consume (s : Reconciliation × Store Nat Unit) (typed : RequestType × QueuedExecutionRequest) :
    Except Error (Reconciliation × Store Nat Unit) := do
  let r ← s.1.remember typed.1 typed.2
  failIf (s.2[typed.2.id]?.isSome)
    (.errorf "new canonical path consumes execution request control ID %d more than once"
      [.num typed.2.id])
  failIf ((r.byType typed.1)[typed.2.id]?.isNone)
    (.errorf "new canonical path consumes unavailable execution request control ID %d"
      [.num typed.2.id])
  .ok ({ r with byType := Function.update r.byType typed.1 ((r.byType typed.1).erase typed.2.id) },
    s.2.insert typed.2.id ())

end Reconciliation

/-- Go through the controls that the records of some blocks hold; a block without a record
is skipped. `load` reads a block's record. -/
def foldRecords {σ : Type} (load : Hash → Except Error (Option ExecutionRequestRecord))
    (f : σ → RequestType × QueuedExecutionRequest → Except Error σ) (s : σ) (hashes : List Hash) :
    Except Error σ :=
  hashes.foldlM
    (fun s hash => do
      match ← load hash with
      | none => .ok s
      | some record => record.controls.items.foldlM f s) s

/-- The queue after the canonical chain moved from one path to another. The paths are
given as the hashes of their blocks, head first. -/
def reconcileExecutionRequestQueue (load : Hash → Except Error (Option ExecutionRequestRecord))
    (queue : ExecutionRequestQueue) (oldPath newPath : List Hash) :
    Except Error ExecutionRequestQueue := do
  let start ← queue.items.foldlM Reconciliation.add {}
  let returned ← foldRecords load Reconciliation.add start oldPath.reverse
  let (left, _) ← foldRecords load Reconciliation.consume (returned, ∅) newPath.reverse
  -- the keys are the IDs, so the values in key order are sorted by ID
  let result := queue.withControls (.ofFun fun t => (left.byType t).toList.map (·.2))
  validateExecutionRequestControlSet result.toExecutionRequestControlSet
  .ok result

end Ethertest
