-- SUMMARY: The metadata in the database mirrors the ledger in memory.
import Ethertest.Refinement.Start

/-!
# The mirror of the ledger in the database

An operation changes the ledger in memory by one function and the database by a list of puts
and deletes that is put together independently. Both changes are the same on the node's
metadata. The slot index is left out here: it needs a condition on the switches.
-/

namespace Ethertest

/-! ## What the database is to hold -/

/-- The keys whose entries follow from the ledger in memory. -/
def Key.mirrored : Key → Bool
  | .timeline | .blockSlot _ | .blockSafety _ | .branch _ | .checkpoint _ => true
  | _ => false

theorem Key.metadata_of_mirrored {k : Key} (h : k.mirrored) : k.metadata := by
  cases k <;> first | rfl | cases h

/-- The entry of a key, as the ledger in memory has it. -/
def Ledger.entry (E : Env) (l : Ledger) : Key → Option Value
  | .timeline => some (.timeline (l.timeline E))
  | .blockSlot h => l.slotByHash[h]?.map .slot
  | .blockSafety h => l.blockSafety[h]?.map .safety
  | .branch name => l.branches[name]?.map fun b => (branchPut b).2
  | .checkpoint name => l.checkpoints[name]?.map fun p => (checkpointPut name p).2
  | _ => none

/-- The stored session is the one in memory. -/
structure StoredSessionSafety.Shows (s : StoredSessionSafety) (l : Ledger) : Prop where
  tainted : s.tainted = l.sessionTainted
  firstUnsafeBlock : s.firstUnsafeBlock = l.firstUnsafeBlock
  reasons : ∀ r : TaintReason, r ∈ s.reasons ↔ l.taintReasons[r]?.isSome

/-- The stored queue; before the first change there is none. -/
def Db.HoldsQueue (db : Db) (q : ExecutionRequestQueue) : Prop :=
  db.get .requestQueue = some (.queue q) ∨ db.get .requestQueue = none ∧ q = newExecutionRequestQueue

theorem Db.HoldsQueue.of_get {db db' : Db} {q q' : ExecutionRequestQueue} (written : Bool) (h : db.HoldsQueue q)
    (hget : db'.get .requestQueue = (if written then some (.queue q') else none).or (db.get .requestQueue))
    (hsame : written = false → q' = q) : db'.HoldsQueue q' := by
  cases written with
  | true => exact .inl hget
  | false =>
    rw [HoldsQueue, hget, hsame rfl]
    exact h

/-- The database mirrors the ledger. -/
structure Ledger.Mirror (E : Env) (l : Ledger) : Prop where
  entries : ∀ k : Key, k.mirrored → l.db.get k = l.entry E k
  session : ∃ s, l.db.get .sessionSafety = some (.session s) ∧ s.Shows l
  queue : l.db.HoldsQueue l.pendingExecutionRequests

namespace Env

variable {E : Env} {Q : Guard E.geth.State} {n n' : Node E.geth.State}

/-! ## Metadata commits -/

variable {put : KV} {events : List Event} {apply : Node E.geth.State → Node E.geth.State} {x : Extension}
  {l : Ledger} {w : Switch}

/-- A metadata key after a commit of one entry. -/
theorem get_commitAuxiliary (h : n.commitAuxiliary [put] [] events apply = .ok n')
    (happly : ∀ db, apply { n with db := db } = { apply n with db := db }) {k : Key} (hk : k.metadata) :
    n'.db.get k = (if put.1 = k then some put.2 else none).or (n.db.get k) := by
  obtain ⟨-, plan, hplan, applied, happlied, rfl⟩ := Node.commitAuxiliary_spec h
  rw [happly] at happlied
  have hdb : applied.db = n.db.write (Store.puts ([put] ++ plan.puts) ++ Store.deletes ([] ++ plan.deletes)) := by
    rw [happlied]
  simp only [hdb, Db.get_write, EventLog.lastWrite_plan hplan hk]
  by_cases hput : put.1 = k <;> simp [hput, Store.deletes]

/-- The memory after a commit of metadata. -/
theorem commitAuxiliary_ledger (h : n.commitAuxiliary [put] [] events apply = .ok n')
    (happly : ∀ db, apply { n with db := db } = { apply n with db := db }) :
    ∃ log batches, n'.toLedger = { (apply n).toLedger with
      db := n'.db, events := log, history := { (apply n).history with batches := batches } } := by
  obtain ⟨-, plan, hplan, applied, happlied, rfl⟩ := Node.commitAuxiliary_spec h
  rw [happly] at happlied
  rw [happlied]
  exact ⟨_, _, rfl⟩

/-- A commit of metadata keeps the mirror, if its entry is the one that memory has then. -/
theorem mirror_commitAuxiliary (M : n.toLedger.Mirror E)
    (h : n.commitAuxiliary [put] [] events apply = .ok n')
    (happly : ∀ db, apply { n with db := db } = { apply n with db := db })
    (hentries : ∀ k : Key, k.mirrored →
      (apply n).entry E k = (if put.1 = k then some put.2 else none).or (n.entry E k))
    (hsession : put.1 ≠ .sessionSafety ∧ (apply n).sessionTainted = n.sessionTainted ∧
      (apply n).firstUnsafeBlock = n.firstUnsafeBlock ∧ (apply n).taintReasons = n.taintReasons)
    (hqueue : if put.1 = .requestQueue then put.2 = .queue (apply n).pendingExecutionRequests
      else (apply n).pendingExecutionRequests = n.pendingExecutionRequests) : n'.toLedger.Mirror E := by
  obtain ⟨log, batches, hledger⟩ := commitAuxiliary_ledger h happly
  have hget {k : Key} (hk : k.metadata) := get_commitAuxiliary h happly hk
  have hentry (k : Key) : n'.entry E k = (apply n).entry E k := by
    rw [hledger]
    cases k <;> rfl
  obtain ⟨stored, hstored, hshows⟩ := M.session
  refine ⟨fun k hk => ?_, ⟨stored, ?_, ?_⟩, ?_⟩
  · rw [hget (Key.metadata_of_mirrored hk), hentry, hentries k hk, M.entries k hk]
  · rw [hget rfl, if_neg hsession.1, Option.none_or, hstored]
  · obtain ⟨-, htainted, hfirst, hreasons⟩ := hsession
    rw [hledger]
    exact ⟨hshows.tainted.trans htainted.symm, hshows.firstUnsafeBlock.trans hfirst.symm, fun r => by
      rw [hshows.reasons r, ← hreasons]⟩
  · have hpending : n'.pendingExecutionRequests = (apply n).pendingExecutionRequests := by rw [hledger]
    rw [hpending]
    split at hqueue
    · next hkey => exact M.queue.of_get true (by rw [hget rfl, if_pos hkey, hqueue]; rfl) (by simp)
    · next hkey => exact M.queue.of_get false (by rw [hget rfl, if_neg hkey]; rfl) fun _ => hqueue

/-! ## Blocks -/

/-- A block that consumed no controls leaves the queue as it was. -/
theorem remaining_eq {queue : ExecutionRequestQueue} {control : Bool} (p : Planned E n x queue control)
    (h : x.prepared.controlled = false) : x.prepared.remaining = queue := by
  obtain ⟨_, _, q, hq, -, hrecord, hremaining, -⟩ := p.sound.prepared
  have hcount : x.prepared.record.controls.count = 0 := by
    by_contra hne
    rw [p.controlled.mpr hne] at h
    cases h
  have hnone (t : RequestType) : x.prepared.remaining.get t = queue.get t := by
    have hcontrols : (x.entry control).record.controls.get t = [] :=
      ExecutionRequestControlSet.count_eq_zero.mp hcount t
    rw [← hremaining, ← hq.split t, hrecord, hcontrols, List.nil_append]
  obtain ⟨hformat, hnext⟩ := hq.remaining
  rw [hremaining] at hformat hnext
  exact ExecutionRequestQueue.ext_get hnone hformat hnext

/-- The entries of a store after an insertion, under the name it was made with. -/
theorem map_get_insert {K V : Type} [Ord K] [Std.TransOrd K] [Std.LawfulEqOrd K] [DecidableEq K] (s : Store K V)
    (k k' : K) (v : V) (f : V → Value) :
    ((s.insert k v)[k']?).map f = (if k = k' then some (f v) else none).or ((s[k']?).map f) := by
  rw [Store.get_insert]
  by_cases h : k = k'
  · simp [h]
  · simp [h, Ne.symm h]

/-- The stored session after a block tainted it. -/
theorem shows_taint {l' : Ledger} {s : StoredSessionSafety} (htainted : l'.sessionTainted = s.tainted)
    (hfirst : l'.firstUnsafeBlock = s.firstUnsafeBlock)
    (hreasons : l'.taintReasons = addTaintReasons l.taintReasons s.reasons)
    (hkeep : ∀ r : TaintReason, l.taintReasons[r]?.isSome → r ∈ s.reasons) : s.Shows l' := by
  refine ⟨htainted.symm, hfirst.symm, fun r => ?_⟩
  rw [hreasons, isSome_addTaintReasons]
  exact ⟨.inl, fun h => h.elim id (hkeep r)⟩

theorem mem_taintStoredSession {safety : BlockSafety} {reasons : List TaintReason} {r : TaintReason}
    (h : l.taintReasons[r]?.isSome) : r ∈ (taintStoredSession l.sessionSafety safety reasons).reasons := by
  rw [taintStoredSession, mem_sortReasons, mem_addReasons]
  exact .inl (mem_keys_iff.mpr h)

theorem mirror_mine (hE : E.Lawful) (W : Chain.WellFormed E n.chain) (p : Planned.OnHead E n x false)
    (M : n.toLedger.Mirror E) (commit : E.commitPrepared n (E.mineOperation n x) (E.mineEvents n x)
      (.extend x.block x.receipts) (E.mineApply n x) = .ok n') : n'.toLedger.Mirror E := by
  obtain ⟨-, plan, hplan, applied, happlied, rfl⟩ := commitPrepared_spec commit
  have hdb : applied.db = (commitOf n (E.mineOperation n x) plan (.extend x.block x.receipts)).after E.geth := by
    rw [happlied, mineApply]
    split <;> rfl
  have hget {k : Key} (hk : k.metadata) : applied.db.get k = (E.mineWrites n x k).or (n.db.get k) := by
    rw [hdb]
    exact get_mine hE W p hplan hk
  obtain ⟨stored, hstored, hshows⟩ := M.session
  refine ⟨fun k hk => ?_, ?_, ?_⟩
  · change applied.db.get k = _
    rw [hget (Key.metadata_of_mirrored hk), M.entries k hk]
    rw [happlied, mineApply]
    split <;> cases k with
    | timeline => rfl
    | blockSlot h => exact (map_get_insert _ _ _ _ _).symm
    | blockSafety h => exact (map_get_insert _ _ _ _ _).symm
    | branch name => rfl
    | checkpoint name => rfl
    | _ => cases hk
  · change ∃ s, applied.db.get .sessionSafety = _ ∧ _
    rw [hget rfl]
    cases hc : x.prepared.controlled with
    | true =>
      refine ⟨x.mineSession E n.toLedger, by simp [mineWrites, hc], ?_⟩
      rw [happlied, mineApply, if_pos hc]
      refine shows_taint (l := n.toLedger) rfl rfl rfl fun r hr => ?_
      rw [Extension.mineSession, if_pos hc]
      exact mem_taintStoredSession hr
    | false =>
      refine ⟨stored, by simp [mineWrites, hc, hstored], ?_⟩
      rw [happlied, mineApply, if_neg (by simp [hc])]
      exact ⟨hshows.1, hshows.2, hshows.3⟩
  · have hpending : applied.pendingExecutionRequests = x.prepared.remaining := by
      rw [happlied, mineApply]
      split <;> rfl
    change Db.HoldsQueue _ applied.pendingExecutionRequests
    rw [hpending]
    exact M.queue.of_get _ (hget rfl) (remaining_eq p.toPlanned)

theorem mirror_control {changes : ControlChanges} (hE : E.Lawful) (W : Chain.WellFormed E n.chain)
    (p : Planned.OnHead E n x true) (M : n.toLedger.Mirror E)
    (commit : E.commitPrepared n (E.controlOperation n x changes) (E.controlEvents n x)
      (.extend x.block x.receipts) (E.controlApply n x) = .ok n') : n'.toLedger.Mirror E := by
  obtain ⟨-, plan, hplan, applied, rfl, rfl⟩ := commitPrepared_spec commit
  have hget {k : Key} (hk : k.metadata) :
      ((commitOf n (E.controlOperation n x changes) plan (.extend x.block x.receipts)).after E.geth).get k =
        (E.controlWrites n x changes k).or (n.db.get k) := get_control hE W p hplan hk
  refine ⟨fun k hk => ?_, ⟨E.controlSession n.toLedger x, ?_, ?_⟩, ?_⟩
  · refine (hget (Key.metadata_of_mirrored hk)).trans ?_
    rw [M.entries k hk]
    cases k with
    | timeline => rfl
    | blockSlot h => exact (map_get_insert _ _ _ _ _).symm
    | blockSafety h => exact (map_get_insert _ _ _ _ _).symm
    | branch name => rfl
    | checkpoint name => rfl
    | _ => cases hk
  · exact hget rfl
  · exact shows_taint (l := n.toLedger) rfl rfl rfl fun r hr => mem_taintStoredSession hr
  · exact M.queue.of_get _ (hget rfl) (remaining_eq p.toPlanned)

theorem mirror_branch {item : Branch} (hE : E.Lawful) (p : Planned.OnBranch E n x item)
    (M : n.toLedger.Mirror E) (commit : E.commitPrepared n (E.branchOperation n item x) []
      (.store x.block x.receipts) (E.branchApply n item x) = .ok n') : n'.toLedger.Mirror E := by
  obtain ⟨-, plan, hplan, applied, rfl, rfl⟩ := commitPrepared_spec commit
  have hget {k : Key} (hk : k.metadata) := get_branch hE p hplan hk
  obtain ⟨stored, hstored, hshows⟩ := M.session
  refine ⟨fun k hk => ?_, ⟨stored, (hget rfl).trans hstored, ⟨hshows.1, hshows.2, hshows.3⟩⟩, ?_⟩
  · refine (hget (Key.metadata_of_mirrored hk)).trans ?_
    rw [M.entries k hk]
    cases k with
    | timeline => rfl
    | blockSlot h => exact (map_get_insert _ _ _ _ _).symm
    | blockSafety h => exact (map_get_insert _ _ _ _ _).symm
    | branch name => exact (map_get_insert _ _ _ _ fun b => (branchPut b).2).symm
    | checkpoint name => rfl
    | _ => cases hk
  · exact M.queue.of_get false (hget rfl) fun _ => rfl

/-- The timeline that a switch stores differs from the one before in the slots and in the
frozen finality slot. -/
theorem Switch.timeline_eq : w.timeline E l =
    { l.timeline E with
      currentSlot := w.targetSlot
      lastProcessedSlot := w.targetSlot
      finalityPaused := (w.timeline E l).finalityPaused
      finalitySlot := (w.timeline E l).finalitySlot } := by
  unfold Switch.timeline
  simp only
  split <;> rfl

theorem mirror_switch {target : Block} (hE : E.Lawful) (W : Chain.WellFormed E n.chain)
    (hmem : n.chain.Mem E target) (M : n.toLedger.Mirror E)
    (commit : E.commitPrepared n (w.operation E n.toLedger) (w.events E n.toLedger) (.setHead target)
      (E.switchApply n w) = .ok n') : n'.toLedger.Mirror E := by
  obtain ⟨-, plan, hplan, applied, rfl, rfl⟩ := commitPrepared_spec commit
  have hget {k : Key} (hk : k.metadata) (hslot : ∀ slot, k ≠ .canonicalSlot slot) :=
    get_switch hE W hmem hplan hk hslot
  obtain ⟨stored, hstored, hshows⟩ := M.session
  refine ⟨fun k hk => ?_, ⟨stored, (hget rfl (by simp)).trans hstored, ⟨hshows.1, hshows.2, hshows.3⟩⟩,
    .inl (hget rfl (by simp))⟩
  refine (hget (Key.metadata_of_mirrored hk) ?_).trans ?_
  · rintro slot rfl
    cases hk
  · rw [M.entries k hk]
    cases k with
    | timeline => exact congrArg (fun t => some (Value.timeline t)) Switch.timeline_eq
    | blockSlot h => rfl
    | blockSafety h => rfl
    | branch name => rfl
    | checkpoint name => rfl
    | _ => cases hk

/-! ## Runs -/

/-- Snapshots are kept in memory only. -/
theorem mirror_snapshots {next : Nat} {snapshots : Store Nat ChainPoint} (M : l.Mirror E) :
    ({ l with nextSnapshot := next, snapshots := snapshots } : Ledger).Mirror E := by
  obtain ⟨stored, hstored, hshows⟩ := M.session
  refine ⟨fun k hk => (M.entries k hk).trans ?_, ⟨stored, hstored, ⟨hshows.1, hshows.2, hshows.3⟩⟩, M.queue⟩
  cases k <;> rfl

/-- A move keeps the mirror. -/
theorem Move.mirror (hE : E.Lawful) (I : n.toLedger.Inv E) (M : n.toLedger.Mirror E) (h : E.Move Q n n') :
    n'.toLedger.Mirror E := by
  have W := I.chain.wellFormed
  cases h with
  | mine plan commit => exact mirror_mine hE W (planMine_spec hE W plan) M commit
  | control plan commit => exact mirror_control hE W (planControl_spec hE W plan) M commit
  | branch named plan commit => exact mirror_branch hE (planBranch_spec hE W plan) M commit
  | switch known allowed plan commit => exact mirror_switch hE W (switch_target W known).1 M commit
  | note note =>
    cases note with
    | wait pos bound pending commit =>
      refine mirror_commitAuxiliary M commit (fun _ => rfl) (fun k hk => ?_) ⟨Key.noConfusion, rfl, rfl, rfl⟩ ?_
      · cases k <;> rfl
      · rfl
    | issue enqueued pending valid commit =>
      refine mirror_commitAuxiliary M commit (fun _ => rfl) (fun k hk => ?_) ⟨Key.noConfusion, rfl, rfl, rfl⟩ ?_
      · cases k <;> first | rfl | cases hk
      · rfl
    | fork name_ne allowed fresh found taint commit =>
      refine mirror_commitAuxiliary M commit (fun _ => rfl) (fun k hk => ?_) ⟨Key.noConfusion, rfl, rfl, rfl⟩ ?_
      · cases k with
        | branch name => exact (map_get_insert _ _ _ _ _).trans (by simp [branchPut, Ledger.entry])
        | _ => rfl
      · rfl
    | checkpoint name_ne allowed current here commit =>
      refine mirror_commitAuxiliary M commit (fun _ => rfl) (fun k hk => ?_) ⟨Key.noConfusion, rfl, rfl, rfl⟩ ?_
      · cases k with
        | checkpoint name => exact (map_get_insert _ _ _ _ _).trans (by simp [checkpointPut, Ledger.entry])
        | _ => rfl
      · rfl
    | snapshot next current here => exact mirror_snapshots M
    | used known => exact mirror_snapshots M
    | pause allowed running commit =>
      refine mirror_commitAuxiliary M commit (fun _ => rfl) (fun k hk => ?_) ⟨Key.noConfusion, rfl, rfl, rfl⟩ ?_
      · cases k <;> rfl
      · rfl
    | resume allowed paused commit =>
      refine mirror_commitAuxiliary M commit (fun _ => rfl) (fun k hk => ?_) ⟨Key.noConfusion, rfl, rfl, rfl⟩ ?_
      · cases k <;> rfl
      · rfl
  | other same =>
    rw [same]
    exact M

theorem mirror_newNode (hE : E.Lawful) (h : E.newNode = .ok n) : n.toLedger.Mirror E := by
  obtain ⟨projection, record, -, -, hledger⟩ := newNode_spec h
  rw [hledger]
  have hget {k : Key} (hk : k.own) : (E.startDb projection record).get k =
      (Store.lastWrite (Store.puts (E.startPuts projection record)) k).getD none := startDb_get_own hE hk
  simp only [startPuts, timelinePut, sessionSafetyPut, canonicalSlotPut, blockSlotPut, blockSafetyPut] at hget
  refine ⟨fun k hk => ?_, ⟨E.freshLedger.sessionSafety, ?_, ⟨rfl, rfl, fun r => ?_⟩⟩, .inr ⟨?_, rfl⟩⟩
  · refine (hget (Key.own_of_metadata (Key.metadata_of_mirrored hk))).trans ?_
    cases k with
    | timeline => simp [Ledger.entry]; rfl
    | blockSlot h =>
      by_cases hh : h = E.genesisHash
      · simp [Ledger.entry, freshLedger, hh]
      · simp [Ledger.entry, freshLedger, Ne.symm hh]
    | blockSafety h =>
      by_cases hh : h = E.genesisHash
      · simp [Ledger.entry, freshLedger, hh]
      · simp [Ledger.entry, freshLedger, Ne.symm hh]
    | branch name => simp [Ledger.entry, freshLedger]
    | checkpoint name => simp [Ledger.entry, freshLedger]
    | _ => cases hk
  · exact (hget rfl).trans (by simp)
  · exact (mem_keys_iff : r ∈ E.freshLedger.taintReasons.keys ↔ _)
  · exact (hget rfl).trans (by simp)

/-- In every reachable node the database mirrors the ledger. -/
theorem ReachableBy.mirror {P : Node E.geth.State → Command → Prop} (hE : E.Lawful) (h : E.ReachableBy P n) :
    n.toLedger.Mirror E :=
  h.invariant hE (fun _ => guarded_any) (mirror_newNode hE) fun I M hmove => hmove.mirror hE I M

end Env

end Ethertest
