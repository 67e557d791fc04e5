-- SUMMARY: The event log of a reachable node: every commit of the node is a commit of the log.
import Ethertest.Log.Window
import Ethertest.Refinement.Start

/-!
# The log of a node

The events that a node has emitted are the events of its log, and the database holds the
retained ones. Every move of the node plans its events, commits the plan and applies it.
-/

namespace Ethertest

/-- All events that a node has emitted. -/
def Ledger.emitted (l : Ledger) : List Event := l.history.batches.flatten

/-- The node's log is a run of commits of what the node has emitted. -/
def Ledger.Logged (E : Env) (l : Ledger) : Prop := LogRun E.cfg.eventCapacity l.events l.db l.emitted

namespace Env

variable {E : Env} {Q : Guard E.geth.State} {n n' : Node E.geth.State}

/-! ## The keys of the commits -/

variable {x : Extension} {kv : KV} {l : Ledger} {w : Switch} {P : Node E.geth.State → Command → Prop}

theorem other_of_mem_mineOperation (h : kv ∈ (E.mineOperation n x).puts) : EventLog.Other kv.1 := by
  intro r hr
  change kv ∈ _ ++ n.blobPuts x.block ++ _ at h
  simp only [List.mem_append, List.mem_cons, List.not_mem_nil, or_false] at h
  rcases h with ((rfl | rfl | rfl | rfl | rfl | rfl) | h) | h
  case inl.inr =>
      obtain ⟨tx, -, hkv⟩ := List.mem_filterMap.mp h
      obtain ⟨bundle, -, rfl⟩ := Option.map_eq_some_iff.mp hkv
      cases hr
  case inr =>
      split at h
      · simp only [List.mem_cons, List.not_mem_nil, or_false] at h
        rcases h with rfl | rfl <;> cases hr
      · cases h
  all_goals cases hr

theorem other_of_mem_controlOperation {changes : ControlChanges}
    (h : kv ∈ (E.controlOperation n x changes).puts) : EventLog.Other kv.1 := by
  intro r hr
  change kv ∈ _ ++ _ at h
  simp only [List.mem_append, List.mem_cons, List.not_mem_nil, or_false] at h
  rcases h with (rfl | rfl | rfl | rfl | rfl | rfl | rfl | rfl) | h
  case inr =>
      split at h
      · rw [List.mem_singleton.mp h] at hr
        cases hr
      · cases h
  all_goals cases hr

theorem other_of_mem_branchOperation {item : Branch} (h : kv ∈ (E.branchOperation n item x).puts) :
    EventLog.Other kv.1 := by
  intro r hr
  change kv ∈ [_, _, _, _, _] at h
  simp only [List.mem_cons, List.not_mem_nil, or_false] at h
  rcases h with rfl | rfl | rfl | rfl | rfl <;> cases hr

theorem Switch.other_of_mem_operation (h : kv ∈ (w.operation E l).puts) : EventLog.Other kv.1 := by
  intro r hr
  change kv ∈ [_, _] ++ _ at h
  simp only [List.mem_append, List.mem_cons, List.not_mem_nil, or_false, List.mem_map] at h
  rcases h with (rfl | rfl) | ⟨b, -, rfl⟩ <;> cases hr

theorem Switch.other_of_mem_deletes {k : Key} (h : k ∈ (w.operation E l).deletes) : EventLog.Other k := by
  intro r hr
  obtain ⟨slot, -, rfl⟩ := List.mem_map.mp h
  cases hr

/-! ## Commits -/

/-- The change in memory leaves the log to the commit. -/
def KeepsLog (n : Node E.geth.State) (apply : Node E.geth.State → Node E.geth.State) : Prop :=
  ∀ db, (apply { n with db := db }).db = db ∧
    (apply { n with db := db }).history.batches = n.history.batches ∧ (apply { n with db := db }).events = n.events

/-- A commit of a prepared operation is a commit of the log. -/
theorem logged_commitPrepared (hE : E.Lawful) (L : n.toLedger.Logged E) {operation : PreparedOperation}
    {events : List Event} {mutation : Mutation} {apply : Node E.geth.State → Node E.geth.State}
    (h : E.commitPrepared n operation events mutation apply = .ok n')
    (hputs : ∀ kv ∈ operation.puts, EventLog.Other kv.1) (hdeletes : ∀ k ∈ operation.deletes, EventLog.Other k)
    (hproper : ∀ {plan}, n.events.plan events = .ok plan → (commitOf n operation plan mutation).Proper E)
    (happly : KeepsLog n apply) : n'.toLedger.Logged E := by
  obtain ⟨-, plan, hplan, applied, happlied, rfl⟩ := commitPrepared_spec h
  obtain ⟨hdb, hhistory, hevents⟩ := happly ((commitOf n operation plan mutation).after E.geth)
  rw [← happlied] at hdb hhistory hevents
  unfold Ledger.Logged Ledger.emitted
  simp only [hdb, hhistory, hevents, List.flatten_append, List.flatten_singleton]
  exact .commit L hplan hputs hdeletes fun r => by
    rw [(hproper hplan).after_get_own hE rfl, Db.get_write]
    rfl

/-- A note is one too, if it commits anything. -/
theorem Aside.logged (h : Aside Q n n') (L : n.toLedger.Logged E) : n'.toLedger.Logged E := by
  unfold Ledger.Logged Ledger.emitted
  obtain ⟨_, _, hledger⟩ | ⟨-, put, events, plan, -, hput, hplan, hdb, hevents, hbatches⟩ := h.writes
  · rw [hledger]
    exact L
  · simp only [hdb, hevents, hbatches, List.flatten_append, List.flatten_singleton]
    refine .commit L hplan (fun kv hkv r hr => ?_) (fun k hk => by cases hk) fun r => rfl
    obtain rfl := List.mem_singleton.mp hkv
    rw [hr] at hput
    cases hput

/-- Every move keeps the log and the emitted events together. -/
theorem Move.logged (hE : E.Lawful) (I : n.toLedger.Inv E) (L : n.toLedger.Logged E) (h : E.Move Q n n') :
    n'.toLedger.Logged E := by
  have W := I.chain.wellFormed
  cases h with
  | mine plan commit =>
    have p := planMine_spec hE W plan
    refine logged_commitPrepared hE L commit (fun _ => other_of_mem_mineOperation) (fun k hk => by cases hk)
      (fun hplan => proper_mine hE W p hplan) fun db => ?_
    unfold mineApply
    refine ⟨?_, ?_, ?_⟩ <;> (simp only; split <;> rfl)
  | control plan commit =>
    have p := planControl_spec hE W plan
    exact logged_commitPrepared hE L commit (fun _ => other_of_mem_controlOperation) (fun k hk => by cases hk)
      (fun hplan => proper_control hE W p hplan) fun db => ⟨rfl, rfl, rfl⟩
  | branch named plan commit =>
    have p := planBranch_spec hE W plan
    exact logged_commitPrepared hE L commit (fun _ => other_of_mem_branchOperation) (fun k hk => by cases hk)
      (fun hplan => proper_branch p hplan) fun db => ⟨rfl, rfl, rfl⟩
  | switch known allowed plan commit =>
    obtain ⟨hmem, -⟩ := switch_target W known
    exact logged_commitPrepared hE L commit (fun _ => Switch.other_of_mem_operation)
      (fun _ => Switch.other_of_mem_deletes) (fun hplan => proper_switch W hmem hplan) fun db => ⟨rfl, rfl, rfl⟩
  | note note => exact note.aside.logged L
  | other same =>
    rw [same]
    exact L

/-! ## Reachable nodes -/

theorem logged_newNode (hE : E.Lawful) (h : E.newNode = .ok n) : n.toLedger.Logged E := by
  obtain ⟨projection, record, -, -, hledger⟩ := newNode_spec h
  rw [hledger]
  refine .fresh fun r => ?_
  change (E.startDb projection record).get (.event r) = none
  rw [startDb_get_own hE rfl]
  simp [startPuts, timelinePut, sessionSafetyPut, canonicalSlotPut, blockSlotPut, blockSafetyPut]

/-- The log of every reachable node is a run of its commits. -/
theorem ReachableBy.logged (hE : E.Lawful) (h : E.ReachableBy P n) : n.toLedger.Logged E :=
  h.invariant (X := fun n => n.toLedger.Logged E) hE (fun _ => guarded_any) (logged_newNode hE) fun I L hmove =>
    hmove.logged hE I L

theorem ReachableBy.retains (hE : E.Lawful) (h : E.ReachableBy P n) :
    n.events.capacity = E.cfg.eventCapacity ∧ n.events.Retains n.toLedger.emitted := by
  obtain ⟨hcapacity, R, -⟩ := LogRun.invariant (Config.eventCapacity_pos E.accepted) (h.logged hE)
  exact ⟨hcapacity, R⟩

end Env

end Ethertest
