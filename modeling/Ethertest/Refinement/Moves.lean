-- SUMMARY: The committed changes that the commands are made of.
import Ethertest.Refinement.Plans

/-!
# Moves

A command changes a node by a few kinds of commits, and otherwise only in parts that are
not in the ledger. `Move` lists these kinds as the commands make them. What every command
preserves is proved for the moves.
-/

namespace Ethertest

/-! ## What a commit leaves -/

/-- A commit as it is recorded: the operation with the writes of the event log added. -/
def commitOf {σ : Type} (n : Node σ) (operation : PreparedOperation) (plan : EventPlan) (mutation : Mutation) :
    Commit where
  before := n.db
  operation := { operation with
    puts := operation.puts ++ plan.puts, deletes := operation.deletes ++ plan.deletes }
  mutation := mutation

variable {σ : Type} {n n' : Node σ} {E : Env} {operation : PreparedOperation} {events : List Event}
  {mutation : Mutation} {apply : Node σ → Node σ}

theorem Node.checkWrites_eq_ok {u : Unit} : n.checkWrites = .ok u ↔ n.writeErr = none := by
  unfold checkWrites
  split
  · next h => simp [h]
  · next h => simp [h]

theorem Env.commitPrepared_spec (h : E.commitPrepared n operation events mutation apply = .ok n') :
    n.writeErr = none ∧ ∃ plan, n.events.plan events = .ok plan ∧
      ∃ applied, applied = apply { n with db := (commitOf n operation plan mutation).after E.geth } ∧
        n' = { applied with
          events := applied.events.apply plan
          history := { applied.history with
            commits := applied.history.commits ++ [commitOf n operation plan mutation]
            batches := applied.history.batches ++ [plan.events] } } := by
  simp only [commitPrepared, Except.do_ok_iff, exists_const, Node.checkWrites_eq_ok, failIf_eq_ok,
    Except.ok.injEq] at h
  obtain ⟨hwrites, -, plan, hplan, rfl⟩ := h
  exact ⟨hwrites, plan, hplan, _, rfl, rfl⟩

/-- The database and the history after a commit whose change in memory touches neither. -/
theorem Env.commitPrepared_db (happly : ∀ m, (apply m).db = m.db ∧ (apply m).history = m.history)
    (h : E.commitPrepared n operation events mutation apply = .ok n') :
    ∃ plan, n.events.plan events = .ok plan ∧ n'.db = (commitOf n operation plan mutation).after E.geth ∧
      n'.history.commits = n.history.commits ++ [commitOf n operation plan mutation] := by
  obtain ⟨-, plan, hplan, applied, rfl, rfl⟩ := commitPrepared_spec h
  refine ⟨plan, hplan, (happly _).1, ?_⟩
  change (apply _).history.commits ++ _ = _
  rw [(happly _).2]

theorem Node.commitAuxiliary_spec {puts : List KV} {deletes : List Key}
    (h : n.commitAuxiliary puts deletes events apply = .ok n') :
    n.writeErr = none ∧ ∃ plan, n.events.plan events = .ok plan ∧
      ∃ applied, applied = apply { n with
          db := n.db.write (Store.puts (puts ++ plan.puts) ++ Store.deletes (deletes ++ plan.deletes)) } ∧
        n' = { applied with
          events := applied.events.apply plan
          history := { applied.history with batches := applied.history.batches ++ [plan.events] } } := by
  simp only [commitAuxiliary, Except.do_ok_iff, exists_const, checkWrites_eq_ok, Except.ok.injEq] at h
  obtain ⟨hwrites, plan, hplan, rfl⟩ := h
  exact ⟨hwrites, plan, hplan, _, rfl, rfl⟩

namespace Env

variable {E : Env} {n m : Node E.geth.State}

variable {x : Extension}

theorem mineApply_db : (E.mineApply n x m).db = m.db ∧ (E.mineApply n x m).history = m.history := by
  unfold mineApply
  constructor <;> (simp only; split <;> rfl)

theorem controlApply_db :
    (E.controlApply n x m).db = m.db ∧ (E.controlApply n x m).history = m.history := ⟨rfl, rfl⟩

theorem branchApply_db {item : Branch} :
    (E.branchApply n item x m).db = m.db ∧ (E.branchApply n item x m).history = m.history := ⟨rfl, rfl⟩

theorem switchApply_db {w : Switch} :
    (E.switchApply n w m).db = m.db ∧ (E.switchApply n w m).history = m.history := ⟨rfl, rfl⟩

end Env

/-- The metadata keys that the event log and the blob store do not write. -/
def Key.metadata (k : Key) : Bool :=
  match k with
  | .event _ | .eventNext | .blob _ => false
  | _ => k.own

theorem Key.own_of_metadata {k : Key} (h : k.metadata) : k.own := by
  cases k <;> first | rfl | cases h

section Plans

variable {l : EventLog} {events : List Event} {plan : EventPlan} (hplan : l.plan events = .ok plan)
include hplan

theorem EventLog.own_of_mem_puts {kv : KV} (h : kv ∈ plan.puts) : kv.1.own ∧ kv.1.Holds kv.2 := by
  rcases (plan_keys hplan).1 kv h with hk | ⟨r, hk⟩ <;> rw [hk] <;> exact ⟨rfl, trivial⟩

variable {k : Key}

theorem EventLog.own_of_mem_deletes (h : k ∈ plan.deletes) : k.own := by
  obtain ⟨r, rfl⟩ := (plan_keys hplan).2 k h
  rfl

/-- The event log's writes do not touch metadata. -/
theorem EventLog.lastWrite_plan (hk : k.metadata) (puts : List KV) (deletes : List Key) :
    Store.lastWrite (Store.puts (puts ++ plan.puts) ++ Store.deletes (deletes ++ plan.deletes)) k =
      (Store.lastWrite (Store.deletes deletes) k).or (Store.lastWrite (Store.puts puts) k) := by
  have hputs : Store.lastWrite (Store.puts plan.puts) k = none := by
    refine Store.lastWrite_puts_eq_none fun kv hkv heq => ?_
    rcases (plan_keys hplan).1 kv hkv with h | ⟨r, h⟩ <;> rw [← heq, h] at hk <;> cases hk
  have hdeletes : Store.lastWrite (Store.deletes plan.deletes : List (Store.Write Key Value)) k = none := by
    refine Store.lastWrite_deletes_eq_none fun hmem => ?_
    obtain ⟨r, rfl⟩ := (plan_keys hplan).2 k hmem
    cases hk
  have happend : Store.deletes (deletes ++ plan.deletes) =
      (Store.deletes deletes ++ Store.deletes plan.deletes : List (Store.Write Key Value)) := by
    simp [Store.deletes]
  rw [Store.lastWrite_append, happend, Store.lastWrite_append, Store.lastWrite_puts_append, hputs, hdeletes,
    Option.none_or, Option.none_or]

end Plans

/-! ## Metadata that is not about blocks -/

/-- The keys of the commits that record no block. -/
def Key.auxiliary : Key → Bool
  | .timeline | .requestQueue | .branch _ | .checkpoint _ | .event _ | .eventNext => true
  | _ => false

section Auxiliary

variable {l : EventLog} {db : Db} {puts : List KV} {events : List Event} {plan : EventPlan}
  (hputs : ∀ kv ∈ puts, kv.1.auxiliary) (hplan : l.plan events = .ok plan)
include hputs hplan

theorem auxiliary_of_mem {kv : KV} (h : kv ∈ puts ++ plan.puts) : kv.1.auxiliary := by
  rcases List.mem_append.mp h with h | h
  · exact hputs kv h
  · rcases (EventLog.plan_keys hplan).1 kv h with hk | ⟨r, hk⟩ <;> rw [hk] <;> rfl

theorem Db.get_auxiliary {k : Key} (hk : k.auxiliary = false) :
    (db.write (Store.puts (puts ++ plan.puts) ++ Store.deletes ([] ++ plan.deletes))).get k = db.get k := by
  rw [Db.get_write, Store.lastWrite_append, Store.lastWrite_puts_eq_none, Store.lastWrite_deletes_eq_none]
  · rfl
  · intro hmem
    obtain ⟨r, rfl⟩ := (EventLog.plan_keys hplan).2 k hmem
    cases hk
  · rintro kv hkv rfl
    simp [auxiliary_of_mem hputs hplan hkv] at hk

end Auxiliary

/-! ## The moves -/

/-- Conditions on the inputs of a run: on the switches, with the node before and the target,
on the names of new branches and of checkpoints, on pausing (`true`) and resuming (`false`)
finality, on the overrides of control blocks, and on issuing controls. -/
structure Guard (σ : Type) where
  switch : Node σ → Block → Prop := fun _ _ => True
  fork : Bytes → Prop := fun _ => True
  checkpoint : Bytes → Prop := fun _ => True
  pausing : Bool → Prop := fun _ => True
  control : ControlChanges → Prop := fun _ => True
  issue : Prop := True

/-- No condition on the inputs. -/
def Guard.any {σ : Type} : Guard σ := {}

namespace Env

variable (E : Env)

/-- A change of the metadata that is not about blocks, with inputs that meet `Q`: slots that are
missed, a control, a branch or a point, and the state of finality. -/
inductive Note (Q : Guard E.geth.State) (n : Node E.geth.State) : Node E.geth.State → Prop
  | wait {n' : Node E.geth.State} {ctx ctx' : Ctx} {count : Nat} {candidate : Candidate E.geth.State}
      (pos : 0 < count) (bound : n.slot + count ≤ maxUint64)
      (pending : E.pendingCandidateAtSlot n ctx n.pendingExecutionRequests ((n.slot + count + 1) % 2 ^ 64) =
        .ok (candidate, ctx'))
      (commit : n.commitAuxiliary
        [timelinePut { n.timeline E with currentSlot := n.slot + count, lastProcessedSlot := n.slot + count }] []
        (E.missEvents n count)
        (fun m => ({ m with slot := n.slot + count, lastProcessedSlot := n.slot + count }).setPendingView candidate) =
          .ok n') : Note Q n n'
  | issue {n' : Node E.geth.State} {ctx ctx' : Ctx} {requestType : UInt8} {data : Bytes}
      {proposed : ExecutionRequestQueue} {candidate : Candidate E.geth.State}
      (enqueued : n.pendingExecutionRequests.enqueue requestType data = .ok proposed)
      (pending : E.pendingCandidate n ctx proposed = .ok (candidate, ctx'))
      (valid : validateExecutionRequestQueue proposed = .ok ())
      (commit : n.commitAuxiliary [(.requestQueue, .queue proposed)] [] []
        (fun m => { m with
          pendingExecutionRequests := proposed
          history := E.recordIssued n requestType data }.setPendingView candidate) = .ok n') (allowed : Q.issue) :
      Note Q n n'
  | fork {n' : Node E.geth.State} {name : Bytes} {blockNumber : Nat} {base : Block} {tainted : Bool}
      (name_ne : name ≠ []) (allowed : Q.fork name) (fresh : n.branches[name]? = none)
      (found : n.db.blockByNumber blockNumber = some base) (taint : tainted = (n.safetyOf (E.hash base)).tainted)
      (commit : n.commitAuxiliary [branchPut ⟨name, E.hash base, E.hash base, tainted⟩] [] []
        (fun n => { n with
          branches := n.branches.insert name ⟨name, E.hash base, E.hash base, tainted⟩ }) = .ok n') : Note Q n n'
  | checkpoint {n' : Node E.geth.State} {name : Bytes} {point : ChainPoint} {head : Block}
      (name_ne : name ≠ []) (allowed : Q.checkpoint name) (current : n.head = .ok head)
      (here : point = E.pointHere n head)
      (commit : n.commitAuxiliary [checkpointPut name point] [] []
        (fun n => { n with checkpoints := n.checkpoints.insert name point }) = .ok n') : Note Q n n'
  | snapshot {id : Nat} {point : ChainPoint} {head : Block}
      (next : id = n.nextSnapshot + 1) (current : n.head = .ok head) (here : point = E.pointHere n head) :
      Note Q n { n with nextSnapshot := id, snapshots := n.snapshots.insert id point }
  | used {id : Nat} {point : ChainPoint} (known : n.snapshots[id]? = some point) :
      Note Q n { n with snapshots := n.snapshots.insert id { point with used := true } }
  | pause {n' : Node E.geth.State} (allowed : Q.pausing true) (running : n.finalityPaused = false)
      (commit : n.commitAuxiliary [timelinePut { n.timeline E with finalityPaused := true, finalitySlot := n.slot }]
        [] [] (fun n => { n with finalityPaused := true, finalitySlot := n.slot }) = .ok n') : Note Q n n'
  | resume {n' : Node E.geth.State} (allowed : Q.pausing false) (paused : n.finalityPaused = true)
      (commit : n.commitAuxiliary [timelinePut { n.timeline E with finalityPaused := false, finalitySlot := 0 }] []
        (Ledger.finalizedEventForTransition E (n.resolveSyntheticFinalityAt E (min n.slot n.finalitySlot))
          (n.resolveSyntheticFinalityAt E n.slot))
        (fun n => { n with finalityPaused := false, finalitySlot := 0 }) = .ok n') : Note Q n n'

/-- One change of the ledger, as the commands make them, with inputs that meet `Q`. -/
inductive Move (Q : Guard E.geth.State) (n n' : Node E.geth.State) : Prop
  | mine {ctx ctx' : Ctx} {empty : Bool} {x : Extension}
      (plan : E.planMine n ctx empty = .ok (x, ctx'))
      (commit : E.commitPrepared n (E.mineOperation n x) (E.mineEvents n x) (.extend x.block x.receipts)
        (E.mineApply n x) = .ok n')
  | control {ctx ctx' : Ctx} {changes : ControlChanges} {x : Extension}
      (plan : E.planControl n ctx changes = .ok (x, ctx'))
      (commit : E.commitPrepared n (E.controlOperation n x changes) (E.controlEvents n x)
        (.extend x.block x.receipts) (E.controlApply n x) = .ok n') (allowed : Q.control changes)
  | branch {ctx ctx' : Ctx} {name : Bytes} {item : Branch} {x : Extension}
      (named : n.branches[name]? = some item) (plan : E.planBranch n ctx item = .ok (x, ctx'))
      (commit : E.commitPrepared n (E.branchOperation n item x) [] (.store x.block x.receipts)
        (E.branchApply n item x) = .ok n')
  | switch {target : Block} {slot : Nat} {w : Switch}
      (known : (∃ h, n.db.blockByHash h = some target) ∧ slot = n.slotOf E target ∨
        ∃ p : ChainPoint, n.db.readBlock p.hash p.number = some target ∧ slot = p.slot ∧ p.place ∈ n.chain.points)
      (allowed : Q.switch n target) (plan : E.planSwitch n target slot = .ok w)
      (commit : E.commitPrepared n (w.operation E n.toLedger) (w.events E n.toLedger) (.setHead target)
        (E.switchApply n w) = .ok n')
  | note (note : E.Note Q n n')
  | other (same : n'.toLedger = n.toLedger)

/-! ## What a note leaves -/

/-- What a change of metadata leaves alone in memory. -/
structure Spared {σ : Type} (Q : Guard σ) (n n' : Node σ) : Prop where
  commits : n'.history.commits = n.history.commits
  issued : ¬ Q.issue → n'.history.issued = n.history.issued
  roots : n'.beaconBlockByRoot = n.beaconBlockByRoot
  slots : n'.canonicalBlockBySlot = n.canonicalBlockBySlot
  pool : n'.pool = n.pool
  feeRecipient : n'.feeRecipient = n.feeRecipient
  pendingWithdrawals : n'.pendingWithdrawals = n.pendingWithdrawals
  writeErr : n'.writeErr = n.writeErr

/-- A change that writes one entry of metadata with the events of the log, or only the snapshots,
which are in memory. -/
structure Aside {σ : Type} (Q : Guard σ) (n n' : Node σ) : Prop extends Spared Q n n' where
  writes : (∃ next snapshots, n'.toLedger = { n.toLedger with nextSnapshot := next, snapshots := snapshots }) ∨
    n.writeErr = none ∧ ∃ put events plan, put.1.auxiliary ∧ put.1.metadata ∧ n.events.plan events = .ok plan ∧
      n'.db = n.db.write (Store.puts ([put] ++ plan.puts) ++ Store.deletes ([] ++ plan.deletes)) ∧
      n'.events = n.events.apply plan ∧ n'.history.batches = n.history.batches ++ [plan.events]

variable {E} {Q : Guard E.geth.State} {n n' : Node E.geth.State}

theorem Aside.get (h : Aside Q n n') {k : Key} (hk : k.auxiliary = false) : n'.db.get k = n.db.get k := by
  obtain ⟨_, _, hdb⟩ | ⟨-, put, events, plan, hput, -, hplan, hdb, -⟩ := h.writes <;> rw [hdb]
  exact Db.get_auxiliary (by simpa using hput) hplan hk

theorem Aside.commit {put : KV} {events : List Event} {apply : Node E.geth.State → Node E.geth.State}
    (h : n.commitAuxiliary [put] [] events apply = .ok n') (hput : put.1.auxiliary ∧ put.1.metadata)
    (happly : ∀ db, (apply { n with db := db }).db = db ∧ (apply { n with db := db }).events = n.events ∧
      (apply { n with db := db }).history.batches = n.history.batches ∧ Spared Q n (apply { n with db := db })) :
    Aside Q n n' := by
  obtain ⟨hwrites, plan, hplan, applied, rfl, rfl⟩ := Node.commitAuxiliary_spec h
  obtain ⟨hdb, hevents, hbatches, K⟩ := happly
    (n.db.write (Store.puts ([put] ++ plan.puts) ++ Store.deletes ([] ++ plan.deletes)))
  refine { K with writes := .inr ⟨hwrites, put, events, plan, hput.1, hput.2, hplan, hdb, ?_, ?_⟩ }
  · exact congrArg (·.apply plan) hevents
  · exact congrArg (· ++ [plan.events]) hbatches

/-- Every note is such a change. -/
theorem Note.aside (h : E.Note Q n n') : Aside Q n n' := by
  cases h with
  | wait pos bound pending commit =>
    exact .commit commit ⟨rfl, rfl⟩ fun _ => ⟨rfl, rfl, rfl, rfl, fun _ => rfl, rfl, rfl, rfl, rfl, rfl, rfl⟩
  | issue enqueued pending valid commit allowed =>
    exact .commit commit ⟨rfl, rfl⟩ fun _ => ⟨rfl, rfl, rfl, rfl, absurd allowed, rfl, rfl, rfl, rfl, rfl, rfl⟩
  | fork name_ne allowed fresh found taint commit =>
    exact .commit commit ⟨rfl, rfl⟩ fun _ => ⟨rfl, rfl, rfl, rfl, fun _ => rfl, rfl, rfl, rfl, rfl, rfl, rfl⟩
  | checkpoint name_ne allowed current here commit =>
    exact .commit commit ⟨rfl, rfl⟩ fun _ => ⟨rfl, rfl, rfl, rfl, fun _ => rfl, rfl, rfl, rfl, rfl, rfl, rfl⟩
  | snapshot next current here => exact ⟨⟨rfl, fun _ => rfl, rfl, rfl, rfl, rfl, rfl, rfl⟩, .inl ⟨_, _, rfl⟩⟩
  | used known => exact ⟨⟨rfl, fun _ => rfl, rfl, rfl, rfl, rfl, rfl, rfl⟩, .inl ⟨_, _, rfl⟩⟩
  | pause allowed running commit =>
    exact .commit commit ⟨rfl, rfl⟩ fun _ => ⟨rfl, rfl, rfl, rfl, fun _ => rfl, rfl, rfl, rfl, rfl, rfl, rfl⟩
  | resume allowed paused commit =>
    exact .commit commit ⟨rfl, rfl⟩ fun _ => ⟨rfl, rfl, rfl, rfl, fun _ => rfl, rfl, rfl, rfl, rfl, rfl, rfl⟩

end Env

end Ethertest
