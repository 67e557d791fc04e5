-- SUMMARY: Inclusion proofs of blob commitments, and the body root that they climb to.
import Ethertest.Consensus.Merkle

/-!
# Blob commitment inclusion proofs

The proof of a commitment stacks three trees: the list of commitments, its length, and the
fields of the body. The first is read off a full row of 4096 leaves, while the body root is
computed from the sparse list. Roots that the SSZ library computes are part of a body here.
-/

namespace Ethertest

namespace Consensus

open HashTree

abbrev KZGCommitment := FixedBytes 48

/-! ## Bodies -/

/-- The fields of a Deneb body that enter its root; sub-roots are those of the SSZ library. -/
structure DenebBody where
  randaoReveal : FixedBytes 96
  eth1DataRoot : Except Error Chunk
  graffiti : Chunk
  syncAggregateRoot : Except Error Chunk
  executionPayloadRoot : Except Error Chunk
  blobKZGCommitments : List KZGCommitment
  /-- `body.HashTreeRoot()` -/
  hashTreeRoot : Except Error Chunk

/-- The body of Electra and Fulu. -/
structure ElectraBody extends DenebBody where
  executionRequestsRoot : Except Error Chunk

inductive ConsensusBlock where
  | deneb (body : DenebBody)
  | electra (body : ElectraBody)
  /-- A Gloas block has its commitments in the bid. -/
  | gloas (commitments : List KZGCommitment)

def ConsensusBlock.commitments : ConsensusBlock → List KZGCommitment
  | .deneb body => body.blobKZGCommitments
  | .electra body => body.blobKZGCommitments
  | .gloas commitments => commitments

/-- The root that the SSZ library computes for the body. -/
def ConsensusBlock.hashTreeRoot : ConsensusBlock → Except Error Chunk
  | .deneb body => body.hashTreeRoot
  | .electra body => body.hashTreeRoot
  | .gloas _ => .error (.panic "invalid memory address or nil pointer dereference")

variable (hashPair : Chunk → Chunk → Chunk)

/-! ## Fields -/

def randaoRoot (reveal : FixedBytes 96) : Except Error Chunk :=
  merkleizeFixed hashPair
    ((List.range 3).map (fun index => copyFixed 32 (slice reveal.bytes (index * 32) ((index + 1) * 32))) ++ [zeroChunk])

/-- The leaf of a commitment: its 48 bytes in two chunks. -/
def commitmentRoot (commitment : KZGCommitment) : Chunk :=
  hashPair (copyFixed 32 (slice commitment.bytes 0 32)) (copyFixed 32 (slice commitment.bytes 32 48))

def commitmentsRoot (commitments : List KZGCommitment) : Except Error Chunk :=
  merkleizeList hashPair (commitments.map (commitmentRoot hashPair)) 12

/-- The fields of a Deneb body, in order. -/
def DenebBody.leaves (body : DenebBody) : Except Error (List Chunk) := do
  let randao ← randaoRoot hashPair body.randaoReveal
  let eth1 ← body.eth1DataRoot
  let sync ← body.syncAggregateRoot
  let payload ← body.executionPayloadRoot
  let commitments ← commitmentsRoot hashPair body.blobKZGCommitments
  .ok [randao, eth1, body.graffiti,
    emptyListRoot hashPair 16, emptyListRoot hashPair 2, emptyListRoot hashPair 128,
    emptyListRoot hashPair 16, emptyListRoot hashPair 16, sync, payload,
    emptyListRoot hashPair 16, commitments]

/-- The fields of an Electra body, in order. -/
def ElectraBody.leaves (body : ElectraBody) : Except Error (List Chunk) := do
  let randao ← randaoRoot hashPair body.randaoReveal
  let eth1 ← body.eth1DataRoot
  let sync ← body.syncAggregateRoot
  let payload ← body.executionPayloadRoot
  let requests ← body.executionRequestsRoot
  let commitments ← commitmentsRoot hashPair body.blobKZGCommitments
  .ok [randao, eth1, body.graffiti,
    emptyListRoot hashPair 16, emptyListRoot hashPair 1, emptyListRoot hashPair 8,
    emptyListRoot hashPair 16, emptyListRoot hashPair 16, sync, payload,
    emptyListRoot hashPair 16, commitments, requests]

def ConsensusBlock.leaves : ConsensusBlock → Except Error (List Chunk)
  | .deneb body => body.leaves hashPair
  | .electra body => body.leaves hashPair
  | .gloas _ => .error (.panic "invalid memory address or nil pointer dereference")

/-- The fields copied into a row of sixteen. -/
def bodyRow (leaves : List Chunk) : List Chunk := leaves ++ List.replicate (16 - leaves.length) zeroChunk

/-- The body root that is compared with the one of the SSZ library. -/
def ConsensusBlock.bodyRoot (block : ConsensusBlock) : Except Error Chunk := do
  let leaves ← block.leaves hashPair
  merkleizeFixed hashPair (bodyRow leaves)

def ConsensusBlock.mismatch : ConsensusBlock → String
  | .deneb _ => "internal Deneb body proof tree does not match SSZ root"
  | _ => "internal body proof tree does not match SSZ root"

/-! ## Proofs -/

/-- `kzgCommitmentsInclusionProof` on a signed block, `denebKZGCommitmentsInclusionProof` included. -/
def kzgCommitmentsInclusionProof (block : ConsensusBlock) : Except Error (List Chunk) := do
  let leaves ← block.leaves hashPair
  let bodyRoot ← merkleizeFixed hashPair (bodyRow leaves)
  let want ← block.hashTreeRoot
  failIf (bodyRoot ≠ want) (.new block.mismatch)
  siblings hashPair 4 11 (bodyRow leaves)

/-- `blobCommitmentInclusionProof` on a signed block. -/
def blobCommitmentInclusionProof (block : ConsensusBlock) (commitmentIndex : Nat) : Except Error (List Chunk) := do
  let commitments := block.commitments
  failIf (commitments.length ≤ commitmentIndex)
    (.errorf "blob commitment index %d is out of range" [.num commitmentIndex])
  failIf (2 ^ 12 < commitments.length) (.panic "index out of range")
  let nodes := commitments.map (commitmentRoot hashPair) ++
    List.replicate (2 ^ 12 - (commitments.map (commitmentRoot hashPair)).length) zeroChunk
  let proof ← siblings hashPair 12 commitmentIndex nodes
  let bodyProof ← kzgCommitmentsInclusionProof hashPair block
  .ok (proof ++ lengthChunk commitments.length :: bodyProof)

/-! ## Verification -/

variable {hashPair} {block : ConsensusBlock} {leaves : List Chunk}

theorem bodyRow_eq (h : leaves.length ≤ 16) : bodyRow leaves = level hashPair (padded zeroChunk leaves) 0 (2 ^ 4) :=
  level_padded_replicate h

/-- A body has at most sixteen fields, and the twelfth is the root of its commitments. -/
theorem ConsensusBlock.leaves_eq_ok (h : block.leaves hashPair = .ok leaves) :
    leaves.length ≤ 16 ∧ commitmentsRoot hashPair block.commitments = .ok (padded zeroChunk leaves 11) := by
  cases block with
  | deneb body =>
    simp only [ConsensusBlock.leaves, DenebBody.leaves, Except.do_ok_iff, Except.ok.injEq] at h
    obtain ⟨randao, -, eth1, -, sync, -, payload, -, commitments, hroot, rfl⟩ := h
    exact ⟨by simp, hroot⟩
  | electra body =>
    simp only [ConsensusBlock.leaves, ElectraBody.leaves, Except.do_ok_iff, Except.ok.injEq] at h
    obtain ⟨randao, -, eth1, -, sync, -, payload, -, requests, -, commitments, hroot, rfl⟩ := h
    exact ⟨by simp, hroot⟩
  | gloas commitments => cases h

/-- The fields' tree: the proof of field eleven, and the root it climbs to. -/
theorem kzgCommitmentsInclusionProof_eq_ok {proof : List Chunk} :
    kzgCommitmentsInclusionProof hashPair block = .ok proof ↔
      ∃ leaves root, block.leaves hashPair = .ok leaves ∧ block.hashTreeRoot = .ok root ∧
        root = node hashPair (padded zeroChunk leaves) 4 0 ∧
        proof = branch hashPair (padded zeroChunk leaves) 4 0 11 := by
  simp only [kzgCommitmentsInclusionProof, Except.do_ok_iff, exists_const, failIf_eq_ok, ne_eq, not_not]
  constructor
  · rintro ⟨leaves, hleaves, bodyRoot, hbody, root, hroot, rfl, hproof⟩
    have hshort := (ConsensusBlock.leaves_eq_ok hleaves).1
    rw [bodyRow_eq hshort, merkleizeFixed_level, Except.ok.injEq] at hbody
    rw [bodyRow_eq hshort, siblings_level (by decide), Except.ok.injEq] at hproof
    exact ⟨leaves, bodyRoot, hleaves, hroot, hbody.symm, hproof.symm⟩
  · rintro ⟨leaves, root, hleaves, hroot, rfl, rfl⟩
    have hshort := (ConsensusBlock.leaves_eq_ok hleaves).1
    refine ⟨leaves, hleaves, _, ?_, _, hroot, rfl, ?_⟩
    · rw [bodyRow_eq hshort, merkleizeFixed_level]
    · rw [bodyRow_eq hshort, siblings_level (by decide)]

/-- The three stacked proofs of a commitment. -/
theorem blobCommitmentInclusionProof_eq_ok {i : Nat} {proof : List Chunk} :
    blobCommitmentInclusionProof hashPair block i = .ok proof ↔
      i < block.commitments.length ∧ block.commitments.length ≤ 2 ^ 12 ∧
        ∃ bodyProof, kzgCommitmentsInclusionProof hashPair block = .ok bodyProof ∧
          proof = branch hashPair (padded zeroChunk (block.commitments.map (commitmentRoot hashPair))) 12 0 i ++
            lengthChunk block.commitments.length :: bodyProof := by
  simp only [blobCommitmentInclusionProof, Except.do_ok_iff, exists_const, failIf_eq_ok, not_le, not_lt,
    Except.ok.injEq]
  refine and_congr_right fun hi => and_congr_right fun hn => ?_
  have hlist : (block.commitments.map (commitmentRoot hashPair)).length ≤ 2 ^ 12 := by simpa using hn
  rw [level_padded_replicate hlist, siblings_level (by omega)]
  simp [eq_comm]

theorem ConsensusBlock.bodyRoot_eq (h : block.leaves hashPair = .ok leaves) :
    block.bodyRoot hashPair = .ok (node hashPair (padded zeroChunk leaves) 4 0) := by
  rw [ConsensusBlock.bodyRoot, h, Except.ok_do, bodyRow_eq (ConsensusBlock.leaves_eq_ok h).1, merkleizeFixed_level,
    Nat.zero_add]

/-- The position of a commitment in a body: the bits of its index in the list, a zero for the
length, and field eleven. -/
def commitmentPosition (i : Nat) : Nat := i + 2 ^ 13 * 11

/-- A returned proof has 17 nodes and climbs from the leaf of its commitment, along the bits of
its index, past the length and up field eleven, to the body root, which is also the root that
the SSZ library computes. -/
theorem blobCommitmentInclusionProof_climbs {i : Nat} {proof : List Chunk}
    (h : blobCommitmentInclusionProof hashPair block i = .ok proof) :
    proof.length = 17 ∧
      ∃ commitment root, block.commitments[i]? = some commitment ∧
        block.bodyRoot hashPair = .ok root ∧ block.hashTreeRoot = .ok root ∧
        climb hashPair (commitmentRoot hashPair commitment) (commitmentPosition i) proof = root := by
  obtain ⟨hi, hn, bodyProof, hbody, rfl⟩ := blobCommitmentInclusionProof_eq_ok.mp h
  obtain ⟨leaves, root, hleaves, hroot, rfl, rfl⟩ := kzgCommitmentsInclusionProof_eq_ok.mp hbody
  refine ⟨by simp, block.commitments[i], _, List.getElem?_eq_getElem hi, ConsensusBlock.bodyRoot_eq hleaves,
    hroot, ?_⟩
  have hfield := (ConsensusBlock.leaves_eq_ok hleaves).2
  rw [commitmentsRoot, merkleizeList_eq (by simpa using hn), Except.ok.injEq, List.length_map] at hfield
  have hleaf : commitmentRoot hashPair block.commitments[i] =
      node hashPair (padded zeroChunk (block.commitments.map (commitmentRoot hashPair))) 0 i := by
    simp [node, padded, hi]
  -- the list: twelve levels, where only the index counts
  have hlist : climb hashPair (commitmentRoot hashPair block.commitments[i]) (commitmentPosition i)
      (branch hashPair (padded zeroChunk (block.commitments.map (commitmentRoot hashPair))) 12 0 i) =
        node hashPair (padded zeroChunk (block.commitments.map (commitmentRoot hashPair))) 12 0 := by
    rw [climb_congr (j := i) (by simp only [length_branch, commitmentPosition]; omega), hleaf, climb_branch]
    congr
    omega
  -- the length on the right, then the field
  have hlength : commitmentPosition i / 2 ^ 12 % 2 = 0 := by
    simp only [commitmentPosition]
    omega
  have hposition : commitmentPosition i / 2 ^ 12 / 2 = 11 := by
    simp only [commitmentPosition]
    omega
  have hroot : node hashPair (padded zeroChunk leaves) 0 11 = padded zeroChunk leaves 11 := rfl
  rw [climb_append, hlist, length_branch, climb, if_pos hlength, hposition, hfield, ← hroot, climb_branch]
  rfl

/-! ## A body -/

/-- The fields of a body with three commitments. -/
def sampleFields : DenebBody where
  randaoReveal := copyFixed 96 [7]
  eth1DataRoot := .ok zeroChunk
  graffiti := copyFixed 32 (text "graffiti")
  syncAggregateRoot := .ok zeroChunk
  executionPayloadRoot := .ok (copyFixed 32 [9])
  blobKZGCommitments := [copyFixed 48 [1], copyFixed 48 [2], copyFixed 48 [3]]
  hashTreeRoot := .ok zeroChunk

/-- The body for which the SSZ library computes the root of these fields. -/
def sampleBody : DenebBody :=
  { sampleFields with hashTreeRoot := (ConsensusBlock.deneb sampleFields).bodyRoot mixed }

private theorem sampleBody_leaves : ∃ leaves, (ConsensusBlock.deneb sampleBody).leaves mixed = .ok leaves := by
  rw [ConsensusBlock.leaves, DenebBody.leaves, randaoRoot, merkleizeFixed_eq (by rfl : _ = 2 ^ 2), commitmentsRoot,
    merkleizeList_eq (by decide)]
  exact ⟨_, rfl⟩

/-- The proof of the second commitment is returned and climbs to the root of the body. -/
theorem blobCommitmentInclusionProof_climbs_second :
    ∃ proof root, blobCommitmentInclusionProof mixed (.deneb sampleBody) 1 = .ok proof ∧ proof.length = 17 ∧
      sampleBody.hashTreeRoot = .ok root ∧
        climb mixed (commitmentRoot mixed (copyFixed 48 [2])) (commitmentPosition 1) proof = root := by
  obtain ⟨leaves, hleaves⟩ := sampleBody_leaves
  have hroot : (ConsensusBlock.deneb sampleBody).hashTreeRoot = .ok (node mixed (padded zeroChunk leaves) 4 0) :=
    ConsensusBlock.bodyRoot_eq hleaves
  have hbody := kzgCommitmentsInclusionProof_eq_ok.mpr ⟨leaves, _, hleaves, hroot, rfl, rfl⟩
  have hproof := blobCommitmentInclusionProof_eq_ok.mpr ⟨(by decide : 1 < _), by decide, _, hbody, rfl⟩
  obtain ⟨hlength, commitment, root, hcommitment, -, hssz, hclimb⟩ := blobCommitmentInclusionProof_climbs hproof
  cases hcommitment
  exact ⟨_, root, hproof, hlength, hssz, hclimb⟩

end Consensus

end Ethertest
