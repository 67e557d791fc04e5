-- SUMMARY: What the assembly of a block's execution requests guarantees, and when it succeeds.
import Ethertest.Requests.Prepare
import Ethertest.Reference

/-!
# Assembly of execution requests

Assembly succeeds on every block whose header commits to its native list, and makes of it what
`Assembles` says.
-/

namespace Ethertest

/-- Requests are assembled on every block whose header commits to its native list, if builder
requests come only with a slot number. -/
theorem prepareExecutionRequestBlock_assembles (G : Geth) (block : Block) (native : Option (List Bytes))
    (queue : ExecutionRequestQueue) (hhash : block.header.requestsHash = native.map G.calcRequestsHash)
    (hparse : ∃ v, parseExecutionRequests native = .ok v) (hqueue : queue.WellFormed)
    (hbuilder : block.header.slotNumber = none → ∀ request ∈ native.getD [], ∀ b ∈ request.head?,
      b < executionRequestBuilderDeposit) :
    ∃ p, prepareExecutionRequestBlock G block native queue = .ok p ∧ Assembles G block native queue p ∧
      validateExecutionRequestRecord p.record = .ok () := by
  obtain ⟨v, hparse⟩ := hparse
  obtain ⟨p, hp⟩ := prepare_ok (verify_ok hhash hbuilder) hparse hqueue.size
  exact ⟨p, hp, prepare_spec hp, prepare_valid hp hqueue⟩

namespace Reference

/-- A list with one builder exit. -/
def builderExit : List Bytes := [executionRequestBuilderExit :: List.replicate 68 0]

/-- A block that commits to a builder exit. -/
def exitBlock (slotNumber : Option Nat) : Block where
  header := { genesisBlock.header with requestsHash := some (requestsHash builderExit), slotNumber := slotNumber }

/-- A queue with one withdrawal request. -/
def withdrawalQueue : ExecutionRequestQueue :=
  newExecutionRequestQueue.push .withdrawal (List.replicate 76 0)

private theorem builderExit_parses : ∃ v, parseExecutionRequests (some builderExit) = .ok v := by
  refine parse_some_ok_iff.mpr ⟨fun item hitem => ?_, List.pairwise_singleton _ _⟩
  obtain rfl := List.mem_singleton.mp hitem
  exact ⟨_, _, rfl, by decide, by simp, by decide, by decide⟩

private theorem withdrawalQueue_wellFormed : withdrawalQueue.WellFormed where
  positive t := by cases t <;> decide
  size t := by cases t <;> decide
  sorted t := by cases t <;> decide
  distinct t u := by cases t <;> cases u <;> decide

end Reference

theorem prepareExecutionRequestBlock_assembles_exit :
    ∃ p, prepareExecutionRequestBlock Reference.geth (Reference.exitBlock (some 1)) (some Reference.builderExit)
        Reference.withdrawalQueue = .ok p ∧
      Assembles Reference.geth (Reference.exitBlock (some 1)) (some Reference.builderExit)
        Reference.withdrawalQueue p ∧ validateExecutionRequestRecord p.record = .ok () :=
  prepareExecutionRequestBlock_assembles _ _ _ _ rfl Reference.builderExit_parses
    Reference.withdrawalQueue_wellFormed (fun h => nomatch h)

/-- Without a slot number the matching hash is not enough. -/
theorem exitBlock_rejected :
    (Reference.exitBlock none).header.requestsHash =
        (some Reference.builderExit).map Reference.geth.calcRequestsHash ∧
      (∃ v, parseExecutionRequests (some Reference.builderExit) = .ok v) ∧
      Reference.withdrawalQueue.WellFormed ∧
      prepareExecutionRequestBlock Reference.geth (Reference.exitBlock none) (some Reference.builderExit)
        Reference.withdrawalQueue = .error (.new "builder requests require Amsterdam") := by
  refine ⟨rfl, Reference.builderExit_parses, Reference.withdrawalQueue_wellFormed, ?_⟩
  have hbuilder : ∃ request ∈ Reference.builderExit, ∃ b ∈ request.head?, executionRequestBuilderDeposit ≤ b :=
    ⟨_, List.mem_singleton_self _, _, rfl, by decide⟩
  have hverify : verifyExecutionRequestsHash Reference.geth (Reference.exitBlock none) (some Reference.builderExit) =
      .error (.new "builder requests require Amsterdam") := by
    unfold verifyExecutionRequestsHash
    rw [failIf, if_pos ⟨rfl, hbuilder⟩]
    rfl
  simp [prepareExecutionRequestBlock, hverify, bind, Except.bind]

end Ethertest
