-- SUMMARY: A node that opens on the database of another has that node's ledger, without the snapshots.
import Ethertest.Guarantees.Branches
import Ethertest.Guarantees.SlotIndex
import Ethertest.Restart.Open
import Ethertest.Restart.Standing

/-!
# What opening a store gives

A store is opened by reading it and by checking what was read. If the checks pass, the node
that comes up has the ledger of the node that wrote the store. The loaders alone do not
give that: the slot index in the database may be wrong, and a branch may be stored under
another name than it has. In both cases a check fails.
-/

namespace Ethertest

/-! ## The loaders -/

section LoadIndex

variable {K V : Type} [Ord K] [Std.TransOrd K] {select : Key → Option K} {decode : K → Value → Except Error V}

variable {db : Db}

/-- A family that loads has no entry that does not decode. -/
theorem decodes_of_loadIndex {loaded : Store K V} (h : loadIndex select decode db = .ok loaded) {k : Key}
    {v : Value} (hget : db.get k = some v) {a : K} (hselect : select k = some a) : ∃ w, decode a v = .ok w := by
  obtain ⟨_, _, _, hround, -⟩ := Except.foldlM_visits (Store.mem_toList.mpr hget) h
  simp only [hselect, Except.do_ok_iff] at hround
  obtain ⟨w, hw, -⟩ := hround
  exact ⟨w, hw⟩

variable [Std.LawfulEqOrd K] [DecidableEq K] {s loaded : Store K V}

/-- A family that holds the entries of an index, and loads, loads as that index if decoding
never gives another value than the one that was stored. -/
theorem loadIndex_exact {key : K → Key} {encode : V → Value} (h : loadIndex select decode db = .ok loaded)
    (hselect : ∀ k a, select k = some a ↔ k = key a) (hdb : ∀ a, db.get (key a) = (s[a]?).map encode)
    (hdecode : ∀ a v w, s[a]? = some v → decode a (encode v) = .ok w → w = v) : loaded = s := by
  have hs : loadIndex select decode db = .ok s := by
    refine loadIndex_eq hselect hdb fun a v hv => ?_
    have hget : db.get (key a) = some (encode v) := by rw [hdb, hv, Option.map_some]
    obtain ⟨w, hw⟩ := decodes_of_loadIndex h hget ((hselect _ _).mpr rfl)
    rw [hw, hdecode a v w hv hw]
  exact Except.ok.inj (h.symm.trans hs)

end LoadIndex

namespace Env

variable {E : Env} {process : E.Process} {n n' m : Node E.geth.State}

theorem loadCheckpoints_exact (S : Standing n) {loaded : Store Bytes ChainPoint}
    (h : loadCheckpoints n.db = .ok loaded) : loaded = n.checkpoints := by
  refine loadIndex_exact h (fun k name => by cases k <;> simp)
    (fun name => S.mirror.entries (.checkpoint name) rfl) fun name point w hpoint hdecode => ?_
  simp only [Except.do_ok_iff, exists_const, failIf_eq_ok, Except.ok.injEq] at hdecode
  rw [← hdecode.2]
  obtain ⟨hash, number, slot, tainted, used⟩ := point
  obtain rfl : used = false := S.unused _ _ hpoint
  rfl

/-- A branch whose name does not survive the encoding does not load. -/
theorem loadBranches_exact (S : Standing n) {loaded : Store Bytes Branch}
    (h : loadBranches n.db = .ok loaded) : loaded = n.branches := by
  refine loadIndex_exact h (fun k name => by cases k <;> simp)
    (fun name => S.mirror.entries (.branch name) rfl) fun name item w hitem hdecode => ?_
  simp only [branchPut, Except.do_ok_iff, exists_const, failIf_eq_ok, Except.ok.injEq, not_or, not_not] at hdecode
  obtain ⟨⟨-, hname⟩, rfl⟩ := hdecode
  rw [hname, ← S.inv.named hitem]

theorem newEventLog_standing (S : Standing n) : EventLog.newEventLog E.cfg.eventCapacity n.db = .ok n.events := by
  have hpos := Config.eventCapacity_pos E.accepted
  obtain ⟨hcapacity, R, P⟩ := LogRun.invariant hpos S.logged
  rw [← hcapacity]
  exact EventLog.newEventLog_eq (hcapacity ▸ hpos) R P

variable {db : Db} {index : Store Nat Hash} {s s' : RequestAudit}
  {typed : RequestType × QueuedExecutionRequest}

/-- The schema entry decides only whether anything is loaded. -/
theorem initializeRuntimeMetadata_eq_ok {chain l : Ledger}
    (hrecover : recoverPreparedOperation chain.db = .ok db) : E.initializeRuntimeMetadata chain = .ok l ↔
      db.get .stateSchema = some (.version currentMetadataFormat) ∧
        loadRuntimeMetadata E { chain with db := db } = .ok l := by
  simp only [initializeRuntimeMetadata, hrecover, Except.ok_do]
  split
  · next h => simp [h]
  · next version h => simp [h, Except.do_ok_iff]
  · next value h _ => simp_all

/-- The ledger before its index of Beacon roots is built, with the slot index as it was read. -/
def loadedLedger (l : Ledger) (index : Store Nat Hash) : Ledger :=
  { l.reopened with canonicalBlockBySlot := index, beaconBlockByRoot := ∅ }

/-- Loading a store that recovers to a node's database, up to the checks. -/
theorem openNode_loaded (S : Standing n) (hrecover : recoverPreparedOperation db = .ok n.db)
    (h : E.openNode process db n.history = .ok n') :
    ∃ index, loadCanonicalSlots n.db = .ok index ∧
      (loadedLedger n.toLedger index).validateRuntimeMetadata E = .ok () ∧
      ∃ audited m ctx, E.validateExecutionRequestMetadata process (loadedLedger n.toLedger index) = .ok audited ∧
        E.initializeBeaconRootIndex { E.idleNode (loadedLedger n.toLedger index) with toLedger := audited } = .ok m ∧
        E.rebuildPendingView m Ctx.background = .ok (n', ctx) := by
  simp only [openNode, Except.do_ok_iff, Except.unit_ok_iff, Except.mapError_eq_ok, Except.ok.injEq] at h
  obtain ⟨-, l, hload, events, hevents, ⟨checkpoints, branches⟩, hcontrol, queue, hqueue, n₁, hgenesis, hvalid, audited,
    haudit, m, hroots, -, ⟨n₂, ctx⟩, hview, rfl⟩ := h
  obtain ⟨index, hindex⟩ := Ledger.loadCanonicalSlots_ok S.inv
  have hdb : ({ E.freshLedger with db := n.db, history := n.history } : Ledger).db = n.db := rfl
  have hledger := Ledger.loadRuntimeMetadata_eq S.inv S.mirror hdb hindex
  obtain rfl := Except.ok.inj (hledger.symm.trans ((initializeRuntimeMetadata_eq_ok hrecover).mp hload).2)
  obtain rfl := Except.ok.inj ((newEventLog_standing S).symm.trans hevents)
  obtain rfl := Except.ok.inj ((Ledger.queue_reloads S.inv S.mirror).symm.trans hqueue)
  simp only [loadControlMetadata, Except.do_ok_iff, Except.ok.injEq, Prod.mk.injEq] at hcontrol
  obtain ⟨_, hcheckpoints, _, hbranches, rfl, rfl⟩ := hcontrol
  obtain rfl := loadCheckpoints_exact S hcheckpoints
  obtain rfl := loadBranches_exact S hbranches
  -- the genesis has its projection
  have hn₁ : n₁ = E.idleNode (loadedLedger n.toLedger index) := by
    have W := S.inv.chain.wellFormed
    obtain ⟨p, hp⟩ := Option.isSome_iff_exists.mp
      ((W.projections E.genesisHash).mpr (Option.isSome_of_mem W.tree.root_mem))
    have hget := Db.projection_eq_some.mp hp
    have hstored := loadProjection_eq_some.mpr ⟨hget, S.projected _ _ hget⟩
    simp only [ensureGenesisProjection, Except.do_ok_iff] at hgenesis
    obtain ⟨found, hfound, hgenesis⟩ := hgenesis
    obtain rfl : found = some p := Except.ok.inj (hfound.symm.trans hstored)
    exact (Except.ok.inj hgenesis).symm
  subst hn₁
  exact ⟨index, hindex, hvalid, audited, m, ctx, haudit, hroots, hview⟩

/-! ## The checks -/

/-- A slot index that passes the checks is the one that the node had in memory. No hash is
zero, or the check of an entry would not tell a missing one. -/
theorem index_exact (hE : E.Lawful) (hzero : ∀ b, E.hash b ≠ 0) (S : Standing n)
    (h : (loadedLedger n.toLedger index).validateRuntimeMetadata E = .ok ()) : index = n.canonicalBlockBySlot := by
  have I := S.inv
  have T := I.timelineCoherent
  simp only [Ledger.validateRuntimeMetadata, Except.do_ok_iff, Except.unit_ok_iff, Except.forM_eq_ok, failIf_eq_ok,
    exists_const] at h
  obtain ⟨-, head, hhead, -, -, hindexed, hcanonical, -⟩ := h
  have hcurrent : n.db.currentBlock = some head := Ledger.head_eq_ok.mp hhead
  refine Store.ext_get fun slot => Option.ext fun hash => ?_
  rw [T.indexed]
  constructor
  · intro hget
    have hentry := hindexed (slot, hash) (Store.mem_toList.mpr hget)
    simp only [Ledger.validateIndexed, failIf_eq_ok, not_or, not_not] at hentry
    obtain ⟨⟨b, hb, hnumber⟩, hslot⟩ := hentry
    obtain ⟨hmem, rfl⟩ := I.chain.wellFormed.mem_of_blocks hb
    have hslots : n.slotByHash[E.hash b]? = some (E.slotAt b.time) := I.chain.timeline.slots hmem
    change n.slotByHash[E.hash b]?.getD 0 = slot at hslot
    rw [hslots, Option.getD_some] at hslot
    exact ⟨b, (I.canonicalHash_eq_iff hE (hzero b)).mp hnumber, rfl, hslots.trans (congrArg some hslot)⟩
  · rintro ⟨b, hb, rfl, hslot⟩
    have hle : b.number ≤ head.number := by
      rw [Ledger.canonicalLine_eq hcurrent] at hb
      have W := I.chain.wellFormed
      exact W.tree.le_of_mem_line W.tree.number_lt (W.mem_of_blocks hcurrent).1 hb
    have hentry := hcanonical b.number (List.mem_range.mpr (Nat.lt_succ_of_le hle))
    simp only [Ledger.validateCanonical, Except.do_ok_iff, orFail_eq_ok, failIf_eq_ok, not_not] at hentry
    obtain ⟨b', hb', slot', hslot', hget⟩ := hentry
    obtain rfl : b = b' := Option.some.inj ((I.blockByNumber_eq_some.mpr ⟨hb, rfl⟩).symm.trans hb')
    obtain rfl : slot = slot' := Option.some.inj (hslot.symm.trans hslot')
    change index[slot]?.getD 0 = E.hash b at hget
    cases hsome : index[slot]? with
    | none =>
      rw [hsome] at hget
      exact absurd hget.symm (hzero b)
    | some found =>
      rw [hsome] at hget
      exact congrArg some hget

theorem RequestAudit.remember_derived (h : s.remember typed = .ok s') : s'.derivedRecords = s.derivedRecords := by
  unfold RequestAudit.remember at h
  split at h
  · simp only [Except.do_ok_iff, Except.unit_ok_iff, Except.ok.injEq] at h
    rw [← h.2]
  · rw [← Except.ok.inj h]

theorem RequestAudit.pend_derived (h : s.pend typed = .ok s') : s'.derivedRecords = s.derivedRecords := by
  simp only [RequestAudit.pend, Except.do_ok_iff, Except.ok.injEq] at h
  obtain ⟨mid, hmid, rfl⟩ := h
  exact (remember_derived hmid :)

theorem RequestAudit.spend_derived {hash : Hash} (h : s.spend hash typed = .ok s') :
    s'.derivedRecords = s.derivedRecords := by
  simp only [RequestAudit.spend, Except.do_ok_iff, Except.unit_ok_iff] at h
  obtain ⟨-, h⟩ := h
  split at h
  · cases h
  · rw [← Except.ok.inj h]

theorem RequestAudit.foldlM_derived {α : Type} {f : RequestAudit → α → Except Error RequestAudit}
    {l : List α} (hround : ∀ {s s' a}, f s a = .ok s' → s'.derivedRecords = s.derivedRecords)
    (h : l.foldlM f s = .ok s') : s'.derivedRecords = s.derivedRecords :=
  Except.foldlM_keeps (P := fun r => r.derivedRecords = s.derivedRecords)
    (fun _ hs h => (hround h).trans hs) rfl h

/-- A block with a request record adds nothing to write. -/
theorem auditBlock_derived {l : Ledger} {hash : Hash} (hrecord : (l.db.get (.requestRecord hash)).isSome)
    (h : E.auditBlock process l s hash = .ok s') : s'.derivedRecords = s.derivedRecords := by
  simp only [auditBlock, Except.do_ok_iff] at h
  obtain ⟨block, -, stored, -, projected, -, requests, -, loaded, hloaded, h⟩ := h
  split at h
  · next record =>
    simp only [Except.do_ok_iff, Except.unit_ok_iff] at h
    obtain ⟨-, mid, hmid, h⟩ := h
    have hremembered := RequestAudit.foldlM_derived RequestAudit.remember_derived hmid
    split at h
    · rw [← Except.ok.inj h]
      exact hremembered
    · exact (RequestAudit.foldlM_derived RequestAudit.spend_derived h).trans hremembered
  · -- a record that is there is loaded or refused
    obtain ⟨value, hvalue⟩ := Option.isSome_iff_exists.mp hrecord
    simp only [loadExecutionRequestRecord, hvalue] at hloaded
    split at hloaded
    · next heq => cases heq
    · simp only [Except.do_ok_iff, Except.ok.injEq] at hloaded
      obtain ⟨-, -, -, -, heq⟩ := hloaded
      cases heq
    · cases hloaded

/-- Every known block has a request record, so the audit derives none. -/
theorem audited_eq (S : Standing n) {audited : Ledger}
    (h : E.validateExecutionRequestMetadata process (loadedLedger n.toLedger index) = .ok audited) :
    audited = loadedLedger n.toLedger index := by
  simp only [validateExecutionRequestMetadata, Except.do_ok_iff, Except.unit_ok_iff, Except.ok.injEq] at h
  obtain ⟨-, pended, hpend, s, haudit, -, rfl⟩ := h
  have W := S.inv.chain.wellFormed
  have hpended : pended.derivedRecords = [] := RequestAudit.foldlM_derived RequestAudit.pend_derived hpend
  have hderived : s.derivedRecords = [] := by
    refine Except.foldlM_keeps (P := fun r => r.derivedRecords = [])
      (fun {hash _ _} hmem hs hround => ?_) hpended haudit
    refine (auditBlock_derived ?_ hround).trans hs
    have hknown : (n.slotByHash[hash]?).isSome :=
      Std.ExtTreeMap.mem_iff_isSome_getElem?.mp (Std.ExtTreeMap.mem_keys.mp hmem)
    have hrecorded : (n.db.record hash).isSome := (W.records hash).mpr ((W.slots hash).mp hknown)
    change (n.db.get (.requestRecord hash)).isSome
    unfold Db.record at hrecorded
    split at hrecorded
    · next hget => rw [hget]; rfl
    · cases hrecorded
  rw [if_pos hderived]

/-! ## The index of Beacon roots -/

/-- The loop enters every block that it visits. -/
theorem foldlM_indexProjection {hashes : List Hash} {s s' : RootIndex} {f : Hash → Option StoredProjection}
    (h : hashes.foldlM (E.indexProjection m) s = .ok s') (hs : s.index.Inverse f StoredProjection.root)
    (hf : ∀ hash p, f hash = some p → m.db.projection hash = some p) :
    s'.index.Inverse (fun hash => if hash ∈ hashes then m.db.projection hash else f hash) StoredProjection.root := by
  induction hashes generalizing s f with
  | nil =>
    obtain rfl : s = s' := Except.ok.inj h
    simpa using hs
  | cons first hashes ih =>
    rw [List.foldlM_cons, Except.do_ok_iff] at h
    obtain ⟨mid, hround, hrest⟩ := h
    simp only [indexProjection, Except.do_ok_iff, exists_const, orFail_eq_ok, failIf_eq_ok, not_not,
      Except.ok.injEq] at hround
    obtain ⟨-, hload, p, rfl, block, -, -, -, -, -, -, hfree, rfl⟩ := hround
    have hp := Db.projection_eq_some.mpr (loadProjection_eq_some.mp hload).1
    have hmid := hs.insert (a := first) (v := p)
      (fun q hq => by rw [Option.some.inj ((hf first q hq).symm.trans hp)])
      fun hash hget => by_contra fun hne => hfree ⟨hash, hget, hne⟩
    have hvisited := ih hrest hmid fun hash q hq => by
      split at hq
      · next heq => rw [heq, hp, hq]
      · exact hf hash q hq
    convert hvisited using 2 with hash
    by_cases heq : hash = first
    · simp [heq, hp]
    · simp [heq]

/-- The index that is built again is the one that the node had in memory. -/
theorem roots_exact (S : Standing n) (h : E.initializeBeaconRootIndex m = .ok n') (hdb : m.db = n.db)
    (hslots : m.slotByHash = n.slotByHash) : n' = { m with beaconBlockByRoot := n.beaconBlockByRoot } := by
  simp only [initializeBeaconRootIndex, Except.do_ok_iff, Except.unit_ok_iff, Except.ok.injEq] at h
  obtain ⟨s, hs, -, rfl⟩ := h
  have hvisited := foldlM_indexProjection hs Store.inverse_empty nofun
  -- every block with a projection has a slot
  have hall : (fun hash => if hash ∈ m.slotByHash.keys then m.db.projection hash else none) = n.db.projection := by
    funext hash
    rw [hdb, hslots]
    refine ite_eq_left_iff.mpr fun hunknown => ?_
    rw [eq_comm, ← Option.not_isSome_iff_eq_none]
    intro hp
    have W := S.inv.chain.wellFormed
    have hknown : (n.slotByHash[hash]?).isSome := (W.slots hash).mpr ((W.projections hash).mp hp)
    exact hunknown (Std.ExtTreeMap.mem_keys.mpr (Std.ExtTreeMap.mem_iff_isSome_getElem?.mpr hknown))
  rw [hall] at hvisited
  rw [hvisited.unique S.rooted]

/-! ## The node that comes up -/

/-- A store that recovers to the database of a standing node, if it opens, opens with the
ledger of that node. Nothing is pending, and writes are enabled. -/
theorem openNode_exact (hE : E.Lawful) (hzero : ∀ b, E.hash b ≠ 0) (S : Standing n)
    (hrecover : recoverPreparedOperation db = .ok n.db) (h : E.openNode process db n.history = .ok n') :
    ∃ candidate ctx, E.pendingCandidate (E.idleNode n.toLedger.reopened) Ctx.background n.pendingExecutionRequests =
        .ok (candidate, ctx) ∧
      n' = (E.idleNode n.toLedger.reopened).setPendingView candidate := by
  obtain ⟨index, -, hvalid, audited, m, ctx, haudit, hroots, hview⟩ := openNode_loaded S hrecover h
  obtain rfl := index_exact hE hzero S hvalid
  obtain rfl := audited_eq S haudit
  obtain rfl := roots_exact S hroots rfl rfl
  obtain ⟨candidate, hcandidate, rfl⟩ := rebuildPendingView_spec hview
  exact ⟨candidate, ctx, hcandidate, rfl⟩

end Env

end Ethertest
