-- SUMMARY: Assembling a block's execution requests from its native requests and the queued controls.
import Ethertest.Geth

/-!
# Request assembly

A block's native requests come from its execution. `prepareExecutionRequestBlock` fills
what room the payload limits leave with controls from the front of the queue and seals
the block again with the hash of the combined list.
-/

namespace Ethertest

def verifyExecutionRequestsHash (G : Geth) (block : Block) (requests : Option (List Bytes)) :
    Except Error Unit := do
  failIf (block.header.slotNumber = none ∧
      ∃ request ∈ requests.getD [], ∃ b ∈ request.head?, executionRequestBuilderDeposit ≤ b)
    (.new "builder requests require Amsterdam")
  match requests with
  | none =>
    match block.header.requestsHash with
    | none => .ok ()
    | some hash => .error (.errorf "pre-Prague block %s has requests hash %s"
        [.hash (G.blockHash block), .hash hash])
  | some list =>
    match block.header.requestsHash with
    | none => .error (.errorf "prague block %s has no requests hash" [.hash (G.blockHash block)])
    | some hash =>
      failIf (hash ≠ G.calcRequestsHash list)
        (.errorf "block %s requests hash mismatch: header %s, calculated %s"
          [.hash (G.blockHash block), .hash hash, .hash (G.calcRequestsHash list)])

/-- A block with its execution requests assembled. -/
structure PreparedBlock where
  block : Block
  requests : Option ExecutionRequests
  record : ExecutionRequestRecord
  remaining : ExecutionRequestQueue
  controlled : Bool

/-- How many controls of a type fit next to the native entries. -/
def controlCount (native : ExecutionRequests) (queue : ExecutionRequestQueue) (t : RequestType) : Nat :=
  min (t.limit - native.countOf t) (queue.get t).length

def prepareExecutionRequestBlock (G : Geth) (block : Block) (native : Option (List Bytes))
    (queue : ExecutionRequestQueue) : Except Error PreparedBlock := do
  verifyExecutionRequestsHash G block native
  let parsed ← parseExecutionRequests native
  let roundTrip ← marshalExecutionRequests parsed
  failIf (roundTrip ≠ native) (.new "native execution requests changed during decoding")
  let record : ExecutionRequestRecord :=
    { format := executionRequestRecordFormat, nativeRequests := native, requests := native, controls := {} }
  match parsed with
  | none =>
    .ok { block := block, requests := none, record := record, remaining := queue, controlled := false }
  | some requests => do
    let controls := ExecutionRequestControlSet.ofFun fun t =>
      (queue.get t).take (controlCount requests queue t)
    let remaining := queue.withControls <| .ofFun fun t =>
      (queue.get t).drop (controlCount requests queue t)
    let combined ← appendExecutionRequestControls (some requests) controls
    let combinedBytes ← marshalExecutionRequests combined
    if controls.count = 0 then
      .ok { block := block, requests := combined, record := { record with controls := controls },
            remaining := remaining, controlled := false }
    else
      .ok { block := block.withSeal { block.header with
              requestsHash := combinedBytes.map G.calcRequestsHash }
            requests := combined
            record := { record with controls := controls, requests := combinedBytes }
            remaining := remaining
            controlled := true }

end Ethertest
