-- SUMMARY: Restarts: what is read back from the database of a reachable node is what the node had in memory.
import Ethertest.Guarantees.Timeline
import Ethertest.Refinement.Reload

/-!
# Restarts of reachable nodes

A node that stops and starts again reads its metadata from the database. The clock, the
finality state, the slots and safety records of all blocks, the session and the queue of
requests come back as they were.
-/

namespace Ethertest

/-- The fields that a restart reads back agree. The slot index is a matter of its own. -/
structure Ledger.SameMetadata (loaded l : Ledger) : Prop where
  slot : loaded.slot = l.slot
  lastProcessedSlot : loaded.lastProcessedSlot = l.lastProcessedSlot
  timelineComplete : loaded.timelineComplete = l.timelineComplete
  finalityPaused : loaded.finalityPaused = l.finalityPaused
  finalitySlot : loaded.finalitySlot = l.finalitySlot
  slotByHash : loaded.slotByHash = l.slotByHash
  blockSafety : loaded.blockSafety = l.blockSafety
  sessionTainted : loaded.sessionTainted = l.sessionTainted
  firstUnsafeBlock : loaded.firstUnsafeBlock = l.firstUnsafeBlock
  taintReasons : loaded.taintReasons = l.taintReasons

/-- The database gives the metadata back. -/
structure Ledger.Reloads (E : Env) (l : Ledger) : Prop where
  metadata : ∀ chain : Ledger, chain.db = l.db → ∃ loaded,
    loadRuntimeMetadata E chain = .ok loaded ∧ loaded.SameMetadata l
  queue : loadExecutionRequestQueue l.db = .ok l.pendingExecutionRequests
  valid : validateExecutionRequestQueue l.pendingExecutionRequests = .ok ()

namespace Ledger

variable {E : Env} {l : Ledger}

theorem loadBlockSlots_eq (M : l.Mirror E) : loadBlockSlots l.db = .ok l.slotByHash := by
  refine loadIndex_eq ?_ (fun h => M.entries (.blockSlot h) rfl) fun _ _ _ => rfl
  intro k h
  cases k <;> simp

/-- A safety record names its block. -/
theorem blockHash_of_safety (I : l.Inv E) {h : Hash} {s : BlockSafety} (hs : l.blockSafety[h]? = some s) :
    s.blockHash = h := by
  have W := I.chain.wellFormed
  obtain ⟨b, hmem, rfl⟩ := W.mem_of_isSome ((W.safety h).mp (Option.isSome_iff_exists.mpr ⟨s, hs⟩))
  by_cases hroot : b = E.genesis.block
  · have hgenesis : l.blockSafety[E.genesisHash]? = _ := I.chain.safety.genesis
    rw [hroot, hgenesis, Option.some.injEq] at hs
    rw [← hs, hroot]
  · obtain ⟨p, hp, -, -⟩ := W.tree.parent_of_ne b hmem hroot
    have hchild : l.blockSafety[E.hash b]? = _ := I.chain.safety.child hmem hroot hp
    rw [hchild, Option.some.injEq] at hs
    rw [← hs, blockSafetyForChild]
    split <;> rfl

theorem loadBlockSafety_eq (I : l.Inv E) (M : l.Mirror E) : loadBlockSafety l.db = .ok l.blockSafety := by
  refine loadIndex_eq ?_ (fun h => M.entries (.blockSafety h) rfl) fun h s hs => ?_
  · intro k h
    cases k <;> simp
  · rw [← blockHash_of_safety I hs]

theorem loadCanonicalSlots_ok (I : l.Inv E) : ∃ index, loadCanonicalSlots l.db = .ok index := by
  refine loadIndex_ok fun k v hget slot hselect => ?_
  cases k with
  | canonicalSlot _ =>
    obtain ⟨h, rfl⟩ := I.stored.typed hget
    exact ⟨h, rfl⟩
  | _ => cases hselect

/-- A set of reasons that is read from a list. -/
theorem readReasons_eq {reasons : List TaintReason} {set : Store TaintReason Unit}
    (h : ∀ r : TaintReason, r ∈ reasons ↔ set[r]?.isSome) :
    reasons.foldl (fun acc reason => acc.insert reason ()) ∅ = set := by
  refine Store.ext_get fun r => ?_
  have hread : (addTaintReasons ∅ reasons)[r]?.isSome ↔ set[r]?.isSome := by
    rw [isSome_addTaintReasons, ← h r]
    simp
  change (addTaintReasons ∅ reasons)[r]? = set[r]?
  cases hset : set[r]? with
  | none =>
    rw [hset] at hread
    simpa using hread
  | some u =>
    rw [hset] at hread
    obtain ⟨v, hv⟩ := Option.isSome_iff_exists.mp (hread.mpr rfl)
    exact hv

/-- What is loaded over a database that mirrors a ledger. -/
theorem loadRuntimeMetadata_eq (I : l.Inv E) (M : l.Mirror E) {chain : Ledger} (hdb : chain.db = l.db)
    {index : Store Nat Hash} (hindex : loadCanonicalSlots l.db = .ok index) :
    loadRuntimeMetadata E chain = .ok { chain with
      slot := l.slot
      lastProcessedSlot := l.lastProcessedSlot
      timelineComplete := l.timelineComplete
      finalityPaused := l.finalityPaused
      finalitySlot := l.finalitySlot
      canonicalBlockBySlot := index
      slotByHash := l.slotByHash
      blockSafety := l.blockSafety
      sessionTainted := l.sessionTainted
      firstUnsafeBlock := l.firstUnsafeBlock
      taintReasons := l.taintReasons } := by
  obtain ⟨session, hsession, hshows⟩ := M.session
  have htimeline : loadTimeline l.db = .ok (l.timeline E) := by
    rw [loadTimeline, M.entries .timeline rfl]
    rfl
  have hsafety : loadSessionSafety l.db = .ok session := by rw [loadSessionSafety, hsession]
  rw [← readReasons_eq hshows.reasons, ← hshows.tainted, ← hshows.firstUnsafeBlock]
  simp [loadRuntimeMetadata, hdb, htimeline, hindex, hsafety, loadBlockSlots_eq M, loadBlockSafety_eq I M, failIf,
    timeline, bind, Except.bind]

theorem metadata_reloads (I : l.Inv E) (M : l.Mirror E) {chain : Ledger} (hdb : chain.db = l.db) :
    ∃ loaded, loadRuntimeMetadata E chain = .ok loaded ∧ loaded.SameMetadata l := by
  obtain ⟨index, hindex⟩ := loadCanonicalSlots_ok I
  exact ⟨_, loadRuntimeMetadata_eq I M hdb hindex, ⟨rfl, rfl, rfl, rfl, rfl, rfl, rfl, rfl, rfl, rfl⟩⟩

theorem queue_valid (I : l.Inv E) : validateExecutionRequestQueue l.pendingExecutionRequests = .ok () := by
  have R := I.chain.requests
  obtain ⟨head, -, hhead⟩ := I.exists_head
  exact R.issuance.validate_queue R.format rfl fun t => List.IsSuffix.sublist ⟨_, R.conserved hhead t⟩

theorem queue_reloads (I : l.Inv E) (M : l.Mirror E) :
    loadExecutionRequestQueue l.db = .ok l.pendingExecutionRequests := by
  rcases M.queue with h | ⟨h, hnew⟩
  · simp only [loadExecutionRequestQueue, h, queue_valid I]
  · simp only [loadExecutionRequestQueue, h, hnew]

end Ledger

/-- Every reachable node can be restarted from its database. -/
theorem reachable_reloads {E : Env} (hE : E.Lawful) {n : Node E.geth.State} (h : E.Reachable n) :
    n.toLedger.Reloads E where
  metadata _ hdb := Ledger.metadata_reloads (h.inv hE) (h.mirror hE) hdb
  queue := Ledger.queue_reloads (h.inv hE) (h.mirror hE)
  valid := Ledger.queue_valid (h.inv hE)

/-- After a reorganization the session is tainted and the requests are back in the queue. -/
theorem reachable_reloads_reference :
    let n := Reference.run (Reference.reorg.take 11)
    n.toLedger.Reloads Reference.env ∧ n.sessionTainted = true ∧ n.taintReasons.size = 2 ∧
      (n.pendingExecutionRequests.get .consolidation).length = 3 ∧
      (n.pendingExecutionRequests.get .withdrawal).length = 1 :=
  ⟨reachable_reloads Reference.lawful (Reference.reachable_run _), by decide +kernel, by decide +kernel,
    by decide +kernel, by decide +kernel⟩

end Ethertest
