-- SUMMARY: A fresh node satisfies the invariant, and with it every node that a run reaches.
import Ethertest.Refinement.Operations
import Ethertest.Refinement.Projections

/-!
# Fresh nodes

A fresh node holds the genesis and what is recorded about it. Its chain is written out as
`startChain`. Together with the moves this gives the invariant of every reachable node.
-/

namespace Ethertest

theorem Key.own_of_canonical {k : Key} (h : k.canonical) : k.own = false := by
  cases k <;> first | rfl | cases h

namespace Env

variable (E : Env)

/-- The entries that a fresh node writes. -/
def startPuts (projection : StoredProjection) (record : ExecutionRequestRecord) : List KV :=
  [(.stateSchema, .version currentMetadataFormat), timelinePut (E.freshLedger.timeline E),
    sessionSafetyPut E.freshLedger.sessionSafety, canonicalSlotPut 0 E.genesisHash, blockSlotPut E.genesisHash 0,
    blockSafetyPut E.genesisHash { blockHash := E.genesisHash },
    (.projection E.genesisHash, .projection projection), (.requestRecord E.genesisHash, .record record)]

/-- The database of a fresh node. -/
def startDb (projection : StoredProjection) (record : ExecutionRequestRecord) : Db :=
  ({ entries := E.genesis.entries } : Db).write (Store.puts (E.startPuts projection record))

/-- The chain of a fresh node. -/
def startChain (projection : StoredProjection) (record : ExecutionRequestRecord) : Chain where
  blocks := fun h => if h = E.genesisHash then some E.genesis.block else none
  head := E.genesisHash
  slot := 0
  processed := 0
  slots := fun h => if h = E.genesisHash then some 0 else none
  index := fun slot => if slot = 0 then some E.genesisHash else none
  safety := fun h => if h = E.genesisHash then some { blockHash := E.genesisHash } else none
  session := { tainted := false, first := none, reasons := ∅ }
  records := fun h => if h = E.genesisHash then some record else none
  controls := ∅
  projections := fun h => if h = E.genesisHash then some projection else none
  queue := newExecutionRequestQueue
  issued := []
  points := ∅
  branches := fun _ => none
  batches := []

/-- What is recorded about the genesis. -/
structure GenesisRecords (projection : StoredProjection) (record : ExecutionRequestRecord) : Prop where
  slot : projection.slot = 0
  controls : record.controls = {}
  format : record.format = executionRequestRecordFormat
  valid : validateExecutionRequestRecord record = .ok ()
  built : E.projectionRecord (E.idleNode (E.initializeFreshRuntimeMetadata E.freshLedger)) E.genesis.block none =
    .ok projection

variable {E}

theorem slotAt_genesis : E.slotAt E.genesis.block.time = 0 := by
  rw [slotAt, E.genesis_time, Nat.sub_self, Nat.zero_div]

theorem slotOf_genesis {l : Ledger} (h : l.slotByHash[E.genesisHash]? = some 0) : l.slotOf E E.genesis.block = 0 := by
  rw [Ledger.slotOf, h]

theorem freshMetadata_eq : E.freshMetadata E.freshLedger =
    [(.stateSchema, .version currentMetadataFormat), timelinePut (E.freshLedger.timeline E),
      sessionSafetyPut E.freshLedger.sessionSafety, canonicalSlotPut 0 E.genesisHash, blockSlotPut E.genesisHash 0,
      blockSafetyPut E.genesisHash { blockHash := E.genesisHash }] := by
  unfold freshMetadata
  simp only [freshLedger, Store.toList_singleton]
  rfl

variable {n : Node E.geth.State} {P : Node E.geth.State → Command → Prop} {X : Node E.geth.State → Prop}
  {Q : Policy E.geth.State}

/-- What a fresh node is. -/
theorem newNode_spec (h : E.newNode = .ok n) :
    ∃ projection record, GenesisRecords E projection record ∧ n.writeErr = none ∧
      n.toLedger = { E.freshLedger with
        db := E.startDb projection record
        beaconBlockByRoot := (∅ : Store Hash Hash).insert projection.root E.genesisHash } := by
  simp only [newNode, publishGenesis, Except.do_ok_iff, Except.unit_ok_iff, Except.ok.injEq] at h
  obtain ⟨published, ⟨projection, hprojection, requests, -, put, hput, -, rfl⟩, -, ⟨n', ctx⟩, hview, rfl⟩ := h
  simp only [executionRequestRecordPut, Except.do_ok_iff, Except.unit_ok_iff, Except.ok.injEq] at hput
  obtain ⟨hvalid, rfl⟩ := hput
  have hslot : projection.slot = 0 := by
    simp only [projectionRecord, Except.do_ok_iff, Except.ok.injEq] at hprojection
    obtain ⟨signed, -, root, -, rfl⟩ := hprojection
    exact slotOf_genesis (Store.get_singleton _ _ _ |>.trans (if_pos rfl))
  have hwrites : n'.writeErr = none := by
    simp only [rebuildPendingView, Except.do_ok_iff, Except.ok.injEq, Prod.mk.injEq] at hview
    obtain ⟨-, -, rfl, -⟩ := hview
    rfl
  refine ⟨projection, _, ⟨hslot, rfl, rfl, hvalid, hprojection⟩, hwrites,
    (rebuildPendingView_ledger hview rfl).trans ?_⟩
  have hdb : ((E.initializeFreshRuntimeMetadata E.freshLedger).db.write
      (Store.puts [(.projection E.genesisHash, .projection projection),
        (.requestRecord E.genesisHash, .record
          { format := executionRequestRecordFormat, nativeRequests := requests, requests := requests,
            controls := {} })])) = E.startDb projection
          { format := executionRequestRecordFormat, nativeRequests := requests, requests := requests,
            controls := {} } := by
    refine Db.ext_get (fun k => ?_) rfl
    rw [initializeFreshRuntimeMetadata, freshMetadata_eq, startDb]
    simp only [Db.get, Db.write, ← Store.writeBatch_append]
    rfl
  rw [← hdb]
  rfl

/-! ## Readings of the first database -/

section StartDb

variable {projection : StoredProjection} {record : ExecutionRequestRecord}

theorem startDb_get (k : Key) : (E.startDb projection record).get k =
    (Store.lastWrite (Store.puts (E.startPuts projection record)) k).getD E.genesis.entries[k]? :=
  Db.get_write _ _ _

variable {k : Key}

theorem startDb_get_of_not_own (h : k.own = false) :
    (E.startDb projection record).get k = E.genesis.entries[k]? := by
  rw [startDb_get, Store.lastWrite_puts_eq_none]
  · rfl
  · rintro item hitem rfl
    simp only [startPuts, List.mem_cons, List.not_mem_nil, or_false] at hitem
    rcases hitem with rfl | rfl | rfl | rfl | rfl | rfl | rfl | rfl <;> cases h

theorem startDb_get_own (hE : E.Lawful) (h : k.own) : (E.startDb projection record).get k =
    (Store.lastWrite (Store.puts (E.startPuts projection record)) k).getD none := by
  rw [startDb_get, hE.genesis_own k h]

theorem startDb_blockByHash (hE : E.Lawful) (h : Hash) : (E.startDb projection record).blockByHash h =
    if h = E.genesisHash then some E.genesis.block else none := by
  rw [Db.blockByHash, startDb_get_of_not_own rfl, hE.genesis_block]
  by_cases hh : h = E.genesisHash
  · simp only [if_pos hh]
  · simp only [if_neg hh]

theorem startDb_headHash (hE : E.Lawful) : (E.startDb projection record).headHash = E.genesisHash := by
  rw [Db.headHash, startDb_get_of_not_own rfl, hE.genesis_canonical _ rfl]
  rfl

theorem startDb_record (hE : E.Lawful) (h : Hash) : (E.startDb projection record).record h =
    if h = E.genesisHash then some record else none := by
  rw [Db.record, startDb_get_own hE rfl]
  by_cases hh : h = E.genesisHash
  · simp [startPuts, timelinePut, sessionSafetyPut, canonicalSlotPut, blockSlotPut, blockSafetyPut, hh]
  · have hne : E.genesisHash ≠ h := Ne.symm hh
    simp [startPuts, timelinePut, sessionSafetyPut, canonicalSlotPut, blockSlotPut, blockSafetyPut, hh, hne]

theorem startDb_projection (hE : E.Lawful) (h : Hash) : (E.startDb projection record).projection h =
    if h = E.genesisHash then some projection else none := by
  rw [Db.projection, startDb_get_own hE rfl]
  by_cases hh : h = E.genesisHash
  · simp [startPuts, timelinePut, sessionSafetyPut, canonicalSlotPut, blockSlotPut, blockSafetyPut, hh]
  · have hne : E.genesisHash ≠ h := Ne.symm hh
    simp [startPuts, timelinePut, sessionSafetyPut, canonicalSlotPut, blockSlotPut, blockSafetyPut, hh, hne]

theorem startDb_controls (hE : E.Lawful) : (E.startDb projection record).controls = ∅ := by
  refine Set.eq_empty_of_forall_notMem fun h hh => ?_
  rw [Db.controls, Set.mem_ofPred_eq, startDb_get_own hE rfl] at hh
  simp [startPuts, timelinePut, sessionSafetyPut, canonicalSlotPut, blockSlotPut, blockSafetyPut] at hh

end StartDb

/-- The chain of a fresh node is the one written out. -/
theorem chain_newNode (hE : E.Lawful) {projection : StoredProjection} {record : ExecutionRequestRecord}
    (h : n.toLedger = { E.freshLedger with
      db := E.startDb projection record
      beaconBlockByRoot := (∅ : Store Hash Hash).insert projection.root E.genesisHash }) :
    n.chain = E.startChain projection record := by
  rw [h]
  apply Chain.ext
  case blocks => exact funext (startDb_blockByHash hE)
  case head => exact startDb_headHash hE
  case slots => exact funext fun h => Store.get_singleton _ _ _
  case index => exact funext fun slot => Store.get_singleton _ _ _
  case safety => exact funext fun h => Store.get_singleton _ _ _
  case records => exact funext (startDb_record hE)
  case projections => exact funext (startDb_projection hE)
  case controls => exact startDb_controls hE
  case session =>
      refine Session.ext rfl rfl ?_
      refine Set.eq_empty_of_forall_notMem fun r hr => ?_
      change ((∅ : Store TaintReason Unit)[r]?).isSome = true at hr
      simp at hr
  case points =>
      refine Set.eq_empty_of_forall_notMem fun p hp => ?_
      rcases hp with ⟨id, point, hget, -⟩ | ⟨name, point, hget, -⟩ <;> simp [freshLedger] at hget
  all_goals rfl

/-! ## The invariant at the start -/

section StartChain

variable {projection : StoredProjection} {record : ExecutionRequestRecord}

theorem mem_startChain {b : Block} :
    (E.startChain projection record).Mem E b ↔ b = E.genesis.block := by
  change (if E.hash b = E.genesisHash then some E.genesis.block else none) = some b ↔ _
  constructor
  · intro h
    split at h
    · exact (Option.some.inj h).symm
    · cases h
  · rintro rfl
    exact if_pos rfl

theorem line_startChain : (E.startChain projection record).line E.genesis.block = [E.genesis.block] := by
  rw [Chain.line, Ancestry.line, E.genesis_number]
  rfl

theorem recordOf_startChain : (E.startChain projection record).recordOf E.genesisHash = record := by
  change Option.getD (if E.genesisHash = E.genesisHash then some record else none) _ = record
  rw [if_pos rfl]
  rfl

/-- A function that is only defined at the genesis. -/
theorem isSome_genesis_iff {α β : Type} {a : α} {b : β} {h : Hash} :
    (if h = E.genesisHash then some a else none).isSome ↔ (if h = E.genesisHash then some b else none).isSome := by
  split <;> simp

theorem wellFormed_startChain : Chain.WellFormed E (E.startChain projection record) where
  addressed := by
    intro h b hb
    change (if h = E.genesisHash then some E.genesis.block else none) = some b at hb
    split at hb
    · next hh => rw [← Option.some.inj hb, hh]
    · cases hb
  tree :=
    { root_mem := mem_startChain.mpr rfl
      root_number := E.genesis_number
      parent_of_ne := fun b hb hne => absurd (mem_startChain.mp hb) hne }
  head := ⟨E.genesis.block, if_pos rfl⟩
  slots := fun _ => isSome_genesis_iff
  safety := fun _ => isSome_genesis_iff
  records := fun _ => isSome_genesis_iff
  projections := fun _ => isSome_genesis_iff
  controls := fun _ h => absurd h (Set.notMem_empty _)
  points := fun _ h => absurd h (Set.notMem_empty _)
  branches := fun h => nomatch h
  branched := fun hb hne => absurd (mem_startChain.mp hb) hne

theorem timeline_startChain (hslot : projection.slot = 0) :
    Chain.Timeline E (E.startChain projection record) where
  slots := by
    intro b hb
    obtain rfl := mem_startChain.mp hb
    rw [slotAt_genesis]
    exact if_pos rfl
  exact := by
    intro b hb
    obtain rfl := mem_startChain.mp hb
    rw [slotAt_genesis, Nat.zero_mul, Nat.add_zero]
    exact E.genesis_time
  projections := by
    intro b p hb hp
    obtain rfl := mem_startChain.mp hb
    change (if E.genesisHash = E.genesisHash then some projection else none) = some p at hp
    rw [if_pos rfl] at hp
    rw [slotAt_genesis, ← Option.some.inj hp, hslot]
  slotNumber := fun hb hne => absurd (mem_startChain.mp hb) hne
  increasing := fun hb hne => absurd (mem_startChain.mp hb) hne
  index := by
    intro head hhead slot h
    obtain rfl := mem_startChain.mp hhead.1
    rw [line_startChain]
    change (if slot = 0 then some E.genesisHash else none) = some h ↔ _
    constructor
    · intro hget
      split at hget
      · next hs => exact ⟨_, List.mem_singleton_self _, Option.some.inj hget, slotAt_genesis.trans hs.symm⟩
      · cases hget
    · rintro ⟨b, hb, rfl, rfl⟩
      rw [List.mem_singleton.mp hb, slotAt_genesis, if_pos rfl]
  now := by
    intro head hhead
    obtain rfl := mem_startChain.mp hhead.1
    exact slotAt_genesis.le
  processed := rfl
  points := fun _ h => absurd h (Set.notMem_empty _)

theorem consumed_startChain (hcontrols : record.controls = {}) (t : RequestType) :
    (E.startChain projection record).consumed E E.genesis.block t = [] := by
  rw [Chain.consumed, line_startChain]
  simp only [pathControls, List.map_cons, List.map_nil, List.reverse_cons, List.reverse_nil, List.nil_append,
    List.flatMap_cons, List.flatMap_nil, List.append_nil]
  rw [recordOf_startChain, hcontrols]
  rfl

theorem requests_startChain (h : GenesisRecords E projection record) :
    Chain.Requests E (E.startChain projection record) where
  issuance := Issuance.nil
  format := rfl
  conserved := by
    intro head hhead t
    obtain rfl := mem_startChain.mp hhead.1
    rw [consumed_startChain h.controls]
    cases t <;> rfl
  front := by
    intro b hb t
    obtain rfl := mem_startChain.mp hb
    rw [consumed_startChain h.controls]
    exact List.nil_prefix
  valid := by
    intro hash r hr
    change (if hash = E.genesisHash then some record else none) = some r at hr
    split at hr
    · rw [← Option.some.inj hr]
      exact ⟨h.format, h.valid⟩
    · cases hr
  assembled := fun hb hne => absurd (mem_startChain.mp hb) hne
  genesis := by
    intro r hr
    change (if E.genesisHash = E.genesisHash then some record else none) = some r at hr
    rw [if_pos rfl] at hr
    rw [← Option.some.inj hr, h.controls]
    rfl

theorem reasonsOf_startChain (hcontrols : record.controls = {}) :
    (E.startChain projection record).reasonsOf E.genesisHash = [] := by
  rw [Chain.reasonsOf, recordOf_startChain, hcontrols]
  rw [if_neg (show E.genesisHash ∉ (E.startChain projection record).controls from Set.notMem_empty _)]
  rfl

theorem safety_startChain (hcontrols : record.controls = {}) :
    Chain.Safety E (E.startChain projection record) where
  genesis := if_pos rfl
  genesis_control := Set.notMem_empty _
  child := fun hb hne => absurd (mem_startChain.mp hb) hne
  controls := fun hb hne => absurd (mem_startChain.mp hb) hne
  tainted := by
    constructor
    · intro h
      cases h
    · rintro ⟨b, hb, h⟩
      obtain rfl := mem_startChain.mp hb
      exact absurd (reasonsOf_startChain hcontrols) h
  reasons := by
    intro r
    constructor
    · intro h
      exact absurd h (Set.notMem_empty _)
    · rintro ⟨b, hb, h⟩
      obtain rfl := mem_startChain.mp hb
      rw [reasonsOf_startChain hcontrols] at h
      cases h

theorem replay_startChain : Chain.Replay E (E.startChain projection record) where
  stack := by
    intro head hhead
    obtain rfl := mem_startChain.mp hhead.1
    rw [line_startChain]
    rfl
  reorg := by
    intro before batch after h
    exact absurd h (by simp [startChain])
  names := by
    intro e he
    cases he

theorem inv_startChain (h : GenesisRecords E projection record) :
    (E.startChain projection record).Inv E where
  wellFormed := wellFormed_startChain
  timeline := timeline_startChain h.slot
  requests := requests_startChain h
  safety := safety_startChain h.controls
  replay := replay_startChain

theorem stored_startDb (hE : E.Lawful) : (E.startDb projection record).Stored E where
  journal := rfl
  typed := by
    intro k v hget
    by_cases hown : k.own
    · rw [startDb_get_own hE hown] at hget
      cases hw : Store.lastWrite (Store.puts (E.startPuts projection record)) k with
      | none => rw [hw] at hget; cases hget
      | some w =>
        rw [hw, Option.getD_some] at hget
        subst hget
        have hmem := Store.mem_of_lastWrite_puts hw
        simp only [startPuts, List.mem_cons, List.not_mem_nil, or_false] at hmem
        rcases hmem with hm | hm | hm | hm | hm | hm | hm | hm <;> cases hm <;>
          first | trivial | exact ⟨_, rfl⟩
    · rw [startDb_get_of_not_own (by simpa using hown)] at hget
      cases k with
      | block h =>
        rw [hE.genesis_block] at hget
        split at hget
        · exact ⟨_, (Option.some.inj hget).symm⟩
        · cases hget
      | _ => trivial
  canonical := by
    intro head hhead k hk
    have hgenesis : head = E.genesis.block := by
      rw [Db.currentBlock, startDb_headHash hE, startDb_blockByHash hE, if_pos rfl] at hhead
      exact (Option.some.inj hhead).symm
    have hline : (E.startDb projection record).line E.genesis.block = [E.genesis.block] := by
      rw [Db.line, Ancestry.line, E.genesis_number]
      rfl
    rw [startDb_get_of_not_own (Key.own_of_canonical hk), hE.genesis_canonical k hk, hgenesis, hline]
  receipts := by
    intro h
    rw [startDb_get_of_not_own rfl, hE.genesis_receipts, startDb_blockByHash hE]
    split <;> simp [*]

end StartChain

/-- The projection of the genesis is valid. -/
theorem projected_newNode (hE : E.Lawful) (h : E.newNode = .ok n) : E.Projected n.db := by
  obtain ⟨projection, record, hrecords, -, hledger⟩ := newNode_spec h
  have hdb : n.db = E.startDb projection record := congrArg Ledger.db hledger
  intro hash p hget
  have hprojection : n.db.projection hash = some p := by rw [Db.projection, hget]
  rw [hdb, startDb_projection hE] at hprojection
  split at hprojection
  · obtain rfl := Option.some.inj hprojection
    refine projectionRecord_valid hrecords.built fun q hq => ?_
    -- there is no projection before the genesis is published
    have hnone : (E.idleNode (E.initializeFreshRuntimeMetadata E.freshLedger)).db.get
        (.projection (E.hash E.genesis.block)) = none := by
      change (E.initializeFreshRuntimeMetadata E.freshLedger).db.get _ = none
      rw [initializeFreshRuntimeMetadata, freshMetadata_eq, Db.get_write, Store.lastWrite_puts_eq_none]
      · exact hE.genesis_own _ rfl
      · simp [timelinePut, sessionSafetyPut, canonicalSlotPut, blockSlotPut, blockSafetyPut]
    rw [hnone] at hq
    cases hq
  · cases hprojection

/-- A fresh node has nothing pending, and publishes the view of that. -/
theorem newNode_idle (h : E.newNode = .ok n) :
    ∃ l candidate ctx, E.pendingCandidate (E.idleNode l) Ctx.background l.pendingExecutionRequests =
      .ok (candidate, ctx) ∧ n = (E.idleNode l).setPendingView candidate := by
  simp only [newNode, publishGenesis, Except.do_ok_iff, Except.unit_ok_iff, Except.ok.injEq] at h
  obtain ⟨published, ⟨projection, -, requests, -, put, -, -, rfl⟩, -, ⟨n', ctx⟩, hview, rfl⟩ := h
  obtain ⟨candidate, hcandidate, rfl⟩ := rebuildPendingView_spec hview
  exact ⟨_, candidate, ctx, hcandidate, rfl⟩

/-- A fresh node satisfies the invariant. -/
theorem inv_newNode (hE : E.Lawful) (h : E.newNode = .ok n) : n.toLedger.Inv E := by
  obtain ⟨projection, record, hrecords, -, hledger⟩ := newNode_spec h
  have hchain := chain_newNode hE hledger
  refine ⟨hchain ▸ inv_startChain hrecords, ?_, ?_⟩
  · rw [hledger]
    exact stored_startDb hE
  · intro name item hget
    rw [hledger] at hget
    simp [freshLedger] at hget

/-! ## Reachable nodes -/

open Relation (ReflTransGen)

/-- A reachable node is a fresh node after moves. -/
theorem ReachableBy.moves {Q : Guard E.geth.State} (hP : ∀ {n c}, P n c → Guarded Q n c)
    (h : E.ReachableBy P n) : ∃ start, E.newNode = .ok start ∧ ReflTransGen (E.Move Q) start n := by
  induction h with
  | start h => exact ⟨_, h, .refl⟩
  | step _ hc ih =>
    obtain ⟨start, hstart, hmoves⟩ := ih
    exact ⟨start, hstart, hmoves.trans (moves_step (hP hc))⟩

theorem guarded_any {c : Command} : Guarded Guard.any n c :=
  { }

/-- Every reachable node satisfies the invariant. -/
theorem ReachableBy.inv (hE : E.Lawful) (h : E.ReachableBy P n) : n.toLedger.Inv E := by
  obtain ⟨start, hstart, hmoves⟩ := h.moves fun _ => guarded_any
  exact Move.run_inv hE (inv_newNode hE hstart) hmoves

/-- A property of a fresh node that every move keeps holds in every reachable node. -/
theorem ReachableBy.invariant {Q : Guard E.geth.State} (hE : E.Lawful) (h : E.ReachableBy P n)
    (hP : ∀ {n c}, P n c → Guarded Q n c) (hstart : ∀ {n}, E.newNode = .ok n → X n)
    (hmove : ∀ {n n'}, n.toLedger.Inv E → X n → E.Move Q n n' → X n') : X n := by
  obtain ⟨start, hnew, hmoves⟩ := h.moves hP
  clear h
  induction hmoves with
  | refl => exact hstart hnew
  | tail hrun hlast ih => exact hmove (Move.run_inv hE (inv_newNode hE hnew) hrun) ih hlast

/-- All stored projections of a reachable node are valid. -/
theorem ReachableBy.projected (hE : E.Lawful) (h : E.ReachableBy P n) : E.Projected n.db :=
  h.invariant (Q := Guard.any) (X := fun n => E.Projected n.db) hE (fun _ => guarded_any) (projected_newNode hE)
    fun I P hmove => hmove.projected hE I P

/-- A reachable node is a fresh node after acts. -/
theorem ReachableBy.acts (hP : ∀ {n c}, P n c → Obeys Q n c) (h : E.ReachableBy P n) :
    ∃ start, E.newNode = .ok start ∧ ReflTransGen (E.Act Q) start n := by
  induction h with
  | start h => exact ⟨_, h, .refl⟩
  | step _ hc ih =>
    obtain ⟨start, hstart, hacts⟩ := ih
    exact ⟨start, hstart, hacts.trans (acts_step (hP hc))⟩

/-- What every act keeps holds after any number of them. -/
theorem Act.run_invariant {n' : Node E.geth.State} (hE : E.Lawful) (I : n.toLedger.Inv E)
    (hacts : ReflTransGen (E.Act Q) n n') (hn : X n)
    (hact : ∀ {n n'}, n.toLedger.Inv E → X n → E.Act Q n n' → X n') : X n' := by
  induction hacts with
  | refl => exact hn
  | tail hrun hlast ih => exact hact (Move.run_inv hE I (hrun.lift' id fun _ _ => Act.moves)) ih hlast

/-- A property of a fresh node that every act keeps holds in every reachable node. -/
theorem ReachableBy.act_invariant (hE : E.Lawful) (h : E.ReachableBy P n)
    (hP : ∀ {n c}, P n c → Obeys Q n c) (hstart : ∀ {n}, E.newNode = .ok n → X n)
    (hact : ∀ {n n'}, n.toLedger.Inv E → X n → E.Act Q n n' → X n') : X n := by
  obtain ⟨start, hnew, hacts⟩ := h.acts hP
  exact Act.run_invariant hE (inv_newNode hE hnew) hacts (hstart hnew) hact

end Env

end Ethertest
