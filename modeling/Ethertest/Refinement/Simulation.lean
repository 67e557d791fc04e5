-- SUMMARY: Every move of a node is a run of chain moves, and keeps the ledger's invariant.
import Ethertest.Refinement.Switches

/-!
# The chain simulates the node

The chain of a node follows the abstract moves: mining and controlling extend it, a branch
block is recorded, a switch moves the head, and the metadata commits are the smaller moves.
-/

namespace Ethertest

/-! ## Metadata that is not about blocks -/

/-- The databases store the same chain. -/
structure Db.SameChain (db db' : Db) : Prop where
  blocks : db'.blockByHash = db.blockByHash
  head : db'.headHash = db.headHash
  records : db'.record = db.record
  projections : db'.projection = db.projection
  controls : db'.controls = db.controls

theorem Ledger.chain_congr {l l' : Ledger} (h : Db.SameChain l.db l'.db) :
    l'.chain = ({ l' with db := l.db } : Ledger).chain := by
  apply Chain.ext
  case blocks => exact h.blocks
  case head => exact h.head
  case records => exact h.records
  case projections => exact h.projections
  case controls => exact h.controls
  all_goals rfl

theorem Db.sameChain_of_get {db db' : Db} (h : ∀ {k : Key}, k.auxiliary = false → db'.get k = db.get k) :
    Db.SameChain db db' where
  blocks := funext fun hash => by
    rw [blockByHash, h rfl]
    rfl
  head := by
    rw [headHash, h rfl]
    rfl
  records := record_congr fun _ => h rfl
  projections := projection_congr fun _ => h rfl
  controls := controls_congr fun _ => h rfl

theorem Key.own_of_auxiliary {k : Key} {v : Value} (h : k.auxiliary) : k.own ∧ k.Holds v := by
  cases k <;> first | exact ⟨rfl, trivial⟩ | cases h

section Aside

variable {E : Env} {Q : Guard E.geth.State} {n n' : Node E.geth.State} (h : Env.Aside Q n n')
include h

theorem Env.Aside.sameChain : Db.SameChain n.db n'.db := Db.sameChain_of_get h.get

theorem Env.Aside.stored (S : n.db.Stored E) : n'.db.Stored E := by
  obtain ⟨_, _, hdb⟩ | ⟨-, put, events, plan, hput, -, hplan, hdb, -⟩ := h.writes <;> rw [hdb]
  · exact S
  · exact S.write (fun _ hkv => Key.own_of_auxiliary (auxiliary_of_mem (by simpa using hput) hplan hkv))
      fun _ hk => EventLog.own_of_mem_deletes hplan hk

end Aside

variable {events : List Event}

/-- Planning keeps a batch quiet. -/
theorem EventLog.quiet_of_plan {l : EventLog} {plan : EventPlan} (hplan : l.plan events = .ok plan)
    (h : ∀ e ∈ events, e.quiet) : ∀ e ∈ plan.events, e.quiet := by
  intro e he
  have hmem : unnumbered e ∈ events.map unnumbered := plan_events hplan ▸ List.mem_map_of_mem he
  obtain ⟨e', he', heq⟩ := List.mem_map.mp hmem
  have htype : (unnumbered e').type = (unnumbered e).type := congrArg Event.type heq
  change e'.type = e.type at htype
  have := h e' he'
  rwa [Event.quiet, htype] at this

theorem ExecutionRequestQueue.enqueue_spec {q proposed : ExecutionRequestQueue} {requestType : UInt8} {data : Bytes}
    (h : q.enqueue requestType data = .ok proposed) :
    ∃ t, RequestType.ofByte requestType = some t ∧ data.length = t.size ∧ proposed = q.push t data := by
  simp only [enqueue, Except.do_ok_iff, orFail_eq_ok, failIf_eq_ok, exists_const, not_not, Except.ok.injEq] at h
  obtain ⟨t, ht, hsize, -, -, rfl⟩ := h
  exact ⟨t, ht, hsize, rfl⟩

/-- The chain after a commit of metadata that is not about blocks. The change in memory does not
depend on the database. -/
theorem Node.chain_auxiliary {σ : Type} {n n' : Node σ} {put : KV} {apply : Node σ → Node σ}
    (h : n.commitAuxiliary [put] [] events apply = .ok n') (hput : put.1.auxiliary)
    (hcomm : ∀ d, apply { n with db := d } = { apply n with db := d }) :
    ∃ plan, n.events.plan events = .ok plan ∧
      n'.chain = { (apply n).chain with batches := (apply n).chain.batches ++ [plan.events] } := by
  obtain ⟨-, plan, hplan, applied, happlied, rfl⟩ := commitAuxiliary_spec h
  rw [hcomm] at happlied
  subst happlied
  have hdb : (apply n).db = n.db := (congrArg (fun m : Node σ => m.db) (hcomm n.db) :)
  have hsame : Db.SameChain (apply n).db
      (n.db.write (Store.puts ([put] ++ plan.puts) ++ Store.deletes ([] ++ plan.deletes))) :=
    hdb ▸ Db.sameChain_of_get (Db.get_auxiliary (by simpa using hput) hplan)
  exact ⟨plan, hplan, Ledger.chain_congr (l := (apply n).toLedger) hsame⟩

namespace Ledger

/-! ## Points and branches in memory -/

variable {l : Ledger}

theorem chain_insert_branch (l : Ledger) (name : Bytes) (item : Branch) :
    ({ l with branches := l.branches.insert name item } : Ledger).chain =
      { l.chain with branches := Function.update l.chain.branches name (some item.head) } := by
  apply Chain.ext
  case branches =>
      funext name'
      change ((l.branches.insert name item)[name']?).map _ = Function.update l.chain.branches name _ name'
      rw [Store.get_insert, Function.update_apply]
      split <;> rfl
  all_goals rfl

variable {point : ChainPoint} {place : Hash × Nat × Nat}

theorem mem_points_checkpoint {name : Bytes}
    (h : place ∈ ({ l with checkpoints := l.checkpoints.insert name point } : Ledger).chain.points) :
    place ∈ l.chain.points ∨ place = point.place := by
  rcases h with h | ⟨name', point', hget, rfl⟩
  · exact .inl (.inl h)
  · rw [Store.get_insert] at hget
    split at hget
    · rw [← Option.some.inj hget]
      exact .inr rfl
    · exact .inl (.inr ⟨name', point', hget, rfl⟩)

theorem mem_points_snapshot {id next : Nat} (h : place ∈ ({ l with
      nextSnapshot := next, snapshots := l.snapshots.insert id point } : Ledger).chain.points) :
    place ∈ l.chain.points ∨ place = point.place := by
  rcases h with ⟨id', point', hget, rfl⟩ | h
  · rw [Store.get_insert] at hget
    split at hget
    · rw [← Option.some.inj hget]
      exact .inr rfl
    · exact .inl (.inl ⟨id', point', hget, rfl⟩)
  · exact .inl (.inr h)

end Ledger

namespace Env

variable {E : Env} {Q : Guard E.geth.State} {n n' : Node E.geth.State}

theorem quiet_finalizedEvent (previous next : FinalityResolution) :
    ∀ e ∈ Ledger.finalizedEventForTransition E previous next, e.quiet := by
  intro e he
  simp only [Ledger.finalizedEventForTransition] at he
  split at he
  · cases he
  · rw [List.mem_singleton.mp he]
    exact .inr rfl

theorem quiet_missEvents {count : Nat} : ∀ e ∈ E.missEvents n count, e.quiet := by
  intro e he
  rcases List.mem_append.mp he with he | he
  · obtain ⟨i, -, rfl⟩ := List.mem_map.mp he
    exact .inl rfl
  · exact quiet_finalizedEvent _ _ e he

variable {x : Extension} {plan : EventPlan} {item : Branch} {name : Bytes}

/-- An extension of the ledger is a move of the chain. -/
theorem step_of_extends {control : Bool} {event : Event} {quiet : List Event}
    (p : Planned.OnHead E n x control) (hplan : n.events.plan (event :: quiet) = .ok plan)
    (htype : event.type = .block ∨ event.type = .controlBlock)
    (hblock : event.blockHash = x.hash E ∧ event.blockNumber = x.block.number ∧ event.removed = false)
    (hquiet : ∀ e ∈ quiet, e.quiet)
    (h : Ledger.Extends E (x.entry control) x.prepared.remaining plan.events n.toLedger n'.toLedger) :
    Chain.Step E n.chain n'.chain := by
  rw [h.chain_eq]
  refine .extend p.sound p.head p.slot p.time p.extra (EventLog.plan_events hplan) htype hblock ?_
  intro q hq
  obtain ⟨e, he, rfl⟩ := List.mem_map.mp hq
  exact hquiet e he

/-- The target of a switch is stored, and its slot is its own or that of a point. -/
theorem switch_target (W : Chain.WellFormed E n.chain) {target : Block} {slot : Nat}
    (h : (∃ h, n.db.blockByHash h = some target) ∧ slot = n.slotOf E target ∨
      ∃ p : ChainPoint, n.db.readBlock p.hash p.number = some target ∧ slot = p.slot ∧ p.place ∈ n.chain.points) :
    n.chain.Mem E target ∧
      (slot = n.chain.slotOf E target ∨ (E.hash target, target.number, slot) ∈ n.chain.points) := by
  rcases h with ⟨⟨h, hb⟩, rfl⟩ | ⟨p, hread, rfl, hpoint⟩
  · exact ⟨(W.mem_of_blocks hb).1, .inl (n.toLedger.slotOf_eq target)⟩
  · rw [Db.readBlock, Option.filter_eq_some_iff] at hread
    obtain ⟨hmem, hhash⟩ := W.mem_of_blocks hread.1
    have hnumber : target.number = p.number := by simpa using hread.2
    rw [hhash, hnumber]
    exact ⟨hmem, .inr hpoint⟩

open Relation (ReflTransGen)

/-- Every move of a node is a run of moves of its chain. -/
theorem Move.simulates (hE : E.Lawful) (I : n.toLedger.Inv E) (h : E.Move Q n n') :
    ReflTransGen (Chain.Step E) n.chain n'.chain := by
  have W := I.chain.wellFormed
  cases h with
  | mine plan commit =>
    have p := planMine_spec hE W plan
    obtain ⟨events, hplan, hext⟩ := extends_mine hE W p commit
    exact .single (step_of_extends p hplan (.inl rfl) ⟨rfl, rfl, rfl⟩ (quiet_finalizedEvent _ _) hext)
  | control plan commit =>
    have p := planControl_spec hE W plan
    obtain ⟨events, hplan, hext⟩ := extends_control hE W p commit
    exact .single (step_of_extends p hplan (.inr rfl) ⟨rfl, rfl, rfl⟩ (quiet_finalizedEvent _ _) hext)
  | @branch _ _ _ item x named plan commit =>
    have p := planBranch_spec hE W plan
    have hname := I.named named
    have hhead : n.chain.branches item.name = some (E.hash (x.entry false).parent) := by
      change (n.branches[item.name]?).map _ = _
      rw [hname, named, Option.map_some, p.head]
      rfl
    rw [chain_branch hE p commit]
    exact .single (.branch p.sound hhead p.time p.slot p.extra)
  | switch known allowed plan commit =>
    obtain ⟨hmem, hslot⟩ := switch_target W known
    obtain ⟨hold, rfl, rfl, hpaths, hqueue, -⟩ := planSwitch_spec plan
    obtain ⟨events, hplan, hchain⟩ := chain_switch hE W hmem rfl commit
    rw [hchain]
    refine .single (.move hold hmem hslot hpaths ?_ ?_)
    · rw [show n.chain.load = loadExecutionRequestRecord n.db from
        funext fun h => (Ledger.loadRecord_eq I.stored h).symm]
      exact hqueue
    · rw [EventLog.plan_events hplan]
      exact Switch.events_eq
  | note note =>
    cases note with
    | wait pos bound pending commit =>
      obtain ⟨plan, hplan, hchain⟩ := Node.chain_auxiliary commit rfl fun _ => rfl
      rw [hchain]
      exact .tail (.single (.wait _ (Nat.le_add_right _ _)))
        (.announce (EventLog.quiet_of_plan hplan quiet_missEvents))
    | @issue _ _ _ requestType data _ _ enqueued pending valid commit =>
      obtain ⟨t, ht, hsize, rfl⟩ := ExecutionRequestQueue.enqueue_spec enqueued
      have hissued : E.recordIssued n requestType data = { n.history with
          issued := n.history.issued ++ [(t, ⟨n.pendingExecutionRequests.nextID, data⟩)] } := by
        rw [recordIssued, ht]
        rfl
      rw [hissued] at commit
      obtain ⟨plan, hplan, hchain⟩ := Node.chain_auxiliary commit rfl fun _ => rfl
      rw [hchain]
      exact .tail (.single (.issue hsize)) (.announce (EventLog.quiet_of_plan hplan (by simp)))
    | @fork _ name blockNumber base _ name_ne allowed fresh found taint commit =>
      obtain ⟨plan, hplan, hchain⟩ := Node.chain_auxiliary commit rfl fun _ => rfl
      have hbase : n.chain.Mem E base := by
        rw [Db.blockByNumber] at found
        split at found
        · exact (W.mem_of_blocks (Option.filter_eq_some_iff.mp found).1).1
        · cases found
      have hfresh : n.chain.branches name = none := by
        change (n.branches[name]?).map _ = none
        rw [fresh]
        rfl
      rw [hchain]
      refine .tail (.single (.fork hfresh hbase)) ?_
      rw [Ledger.chain_insert_branch]
      exact .announce (EventLog.quiet_of_plan hplan (by simp))
    | checkpoint name_ne allowed current here commit =>
      obtain ⟨plan, hplan, hchain⟩ := Node.chain_auxiliary commit rfl fun _ => rfl
      rw [hchain]
      refine .tail (.single (.point (Ledger.head_eq_ok.mp current) fun p hp => ?_))
        (.announce (EventLog.quiet_of_plan hplan (by simp)))
      have hhead := (W.mem_of_blocks (Ledger.head_eq_ok.mp current)).2
      subst here
      rw [← hhead]
      exact Ledger.mem_points_checkpoint hp
    | snapshot next current here =>
      refine .single (.point (Ledger.head_eq_ok.mp current) fun p hp => ?_)
      have hhead := (W.mem_of_blocks (Ledger.head_eq_ok.mp current)).2
      subst here
      rw [← hhead]
      exact Ledger.mem_points_snapshot hp
    | used known =>
      obtain ⟨head, hhead⟩ := W.head
      refine .single (.point hhead fun p hp => .inl ?_)
      rcases Ledger.mem_points_snapshot hp with hp | rfl
      · exact hp
      · exact .inl ⟨_, _, known, rfl⟩
    | pause allowed running commit =>
      obtain ⟨plan, hplan, hchain⟩ := Node.chain_auxiliary commit rfl fun _ => rfl
      rw [hchain]
      exact .single (.announce (EventLog.quiet_of_plan hplan (by simp)))
    | resume allowed paused commit =>
      obtain ⟨plan, hplan, hchain⟩ := Node.chain_auxiliary commit rfl fun _ => rfl
      rw [hchain]
      exact .single (.announce (EventLog.quiet_of_plan hplan (quiet_finalizedEvent _ _)))
  | other same => rw [same]

/-! ## The invariant -/

/-- The writes of a commit are of the right kinds. -/
theorem holds_of_mem_commitOf {operation : PreparedOperation} {events : List Event} {mutation : Mutation}
    (hplan : n.events.plan events = .ok plan) (hputs : ∀ kv ∈ operation.puts, kv.1.own ∧ kv.1.Holds kv.2) :
    ∀ kv ∈ (commitOf n operation plan mutation).operation.puts, kv.1.Holds kv.2 := by
  intro kv hkv
  rcases List.mem_append.mp hkv with h | h
  · exact (hputs kv h).2
  · exact (EventLog.own_of_mem_puts hplan h).2

/-- A branch block leaves the line of the head alone. -/
theorem line_branch (hE : E.Lawful) (W : Chain.WellFormed E n.chain) (p : Planned.OnBranch E n x item)
    (hplan : n.events.plan [] = .ok plan) {head : Block}
    (h : ((commitOf n (E.branchOperation n item x) plan (.store x.block x.receipts)).after E.geth).currentBlock =
      some head) :
    n.db.currentBlock = some head ∧
      ((commitOf n (E.branchOperation n item x) plan (.store x.block x.receipts)).after E.geth).line head =
        n.db.line head := by
  obtain ⟨head', hhead⟩ := W.head
  obtain ⟨hmem, hhash⟩ := W.mem_of_blocks hhead
  have hblocks := (records_branch hE p hplan).blocks
  have hmem' : (n.chain.put E (x.entry false)).Mem E head' := (Chain.mem_put hE).mpr (.inl hmem)
  rw [Db.currentBlock, (proper_branch p hplan).after_headHash hE, hblocks] at h
  obtain rfl : head' = head := by
    have hsame : Function.update n.db.blockByHash (E.hash x.block) (some x.block) n.db.headHash = some head' := by
      rw [show n.db.headHash = E.hash head' from hhash.symm]
      exact hmem'
    exact Option.some.inj (hsame.symm.trans h)
  refine ⟨hhead, ?_⟩
  have hline := Chain.line_put (e := x.entry false) hE W hmem
  unfold Db.line Db.parent
  rw [hblocks]
  exact hline

theorem Move.stored (hE : E.Lawful) (I : n.toLedger.Inv E) (h : E.Move Q n n') : n'.db.Stored E := by
  have W := I.chain.wellFormed
  cases h with
  | mine plan commit =>
    have p := planMine_spec hE W plan
    obtain ⟨events, hplan, hdb, -⟩ := commitPrepared_db (fun _ => mineApply_db) commit
    rw [hdb]
    exact (proper_mine hE W p hplan).stored hE I.stored
      (holds_of_mem_commitOf hplan fun _ => own_of_mem_mineOperation) (by simp [commitOf, Mutation.head])
  | control plan commit =>
    have p := planControl_spec hE W plan
    obtain ⟨events, hplan, hdb, -⟩ := commitPrepared_db (fun _ => controlApply_db) commit
    rw [hdb]
    exact (proper_control hE W p hplan).stored hE I.stored
      (holds_of_mem_commitOf hplan fun _ => own_of_mem_controlOperation) (by simp [commitOf, Mutation.head])
  | branch named plan commit =>
    have p := planBranch_spec hE W plan
    obtain ⟨events, hplan, hdb, -⟩ := commitPrepared_db (fun _ => branchApply_db) commit
    rw [hdb]
    exact (proper_branch p hplan).stored hE I.stored
      (holds_of_mem_commitOf hplan fun _ => own_of_mem_branchOperation)
      fun _ _ h => line_branch hE W p hplan h
  | switch known allowed plan commit =>
    obtain ⟨hmem, -⟩ := switch_target W known
    obtain ⟨events, hplan, hdb, -⟩ := commitPrepared_db (fun _ => switchApply_db) commit
    rw [hdb]
    exact (proper_switch W hmem hplan).stored hE I.stored
      (holds_of_mem_commitOf hplan fun _ => Switch.own_of_mem_operation) (by simp [commitOf, Mutation.head])
  | note note => exact note.aside.stored I.stored
  | other same =>
    rw [same]
    exact I.stored

private theorem named_insert {branches : Store Bytes Branch}
    (h : ∀ {name : Bytes} {item : Branch}, branches[name]? = some item → item.name = name) (new : Branch)
    (hget : (branches.insert new.name new)[name]? = some item) : item.name = name := by
  rw [Store.get_insert] at hget
  split at hget
  · next heq =>
    rw [heq, ← Option.some.inj hget]
  · exact h hget

theorem Move.named (hE : E.Lawful) (I : n.toLedger.Inv E) (h : E.Move Q n n')
    (hget : n'.branches[name]? = some item) : item.name = name := by
  have W := I.chain.wellFormed
  cases h with
  | mine plan commit =>
    obtain ⟨_, -, hext⟩ := extends_mine hE W (planMine_spec hE W plan) commit
    exact I.named (hext.branches ▸ hget)
  | control plan commit =>
    obtain ⟨_, -, hext⟩ := extends_control hE W (planControl_spec hE W plan) commit
    exact I.named (hext.branches ▸ hget)
  | branch named plan commit =>
    obtain ⟨-, _, -, applied, rfl, rfl⟩ := commitPrepared_spec commit
    exact named_insert I.named (E.advanceBranch n.toLedger _ _) hget
  | switch known allowed plan commit =>
    obtain ⟨-, _, -, applied, rfl, rfl⟩ := commitPrepared_spec commit
    exact I.named hget
  | note note =>
    cases note with
    | fork name_ne allowed fresh found taint commit =>
      obtain ⟨-, _, -, applied, rfl, rfl⟩ := Node.commitAuxiliary_spec commit
      exact named_insert I.named ⟨_, _, _, _⟩ hget
    | wait pos bound pending commit =>
      obtain ⟨-, _, -, applied, rfl, rfl⟩ := Node.commitAuxiliary_spec commit
      exact I.named hget
    | issue enqueued pending valid commit =>
      obtain ⟨-, _, -, applied, rfl, rfl⟩ := Node.commitAuxiliary_spec commit
      exact I.named hget
    | checkpoint name_ne allowed current here commit =>
      obtain ⟨-, _, -, applied, rfl, rfl⟩ := Node.commitAuxiliary_spec commit
      exact I.named hget
    | snapshot => exact I.named hget
    | used => exact I.named hget
    | pause allowed running commit =>
      obtain ⟨-, _, -, applied, rfl, rfl⟩ := Node.commitAuxiliary_spec commit
      exact I.named hget
    | resume allowed paused commit =>
      obtain ⟨-, _, -, applied, rfl, rfl⟩ := Node.commitAuxiliary_spec commit
      exact I.named hget
  | other same => exact I.named (same ▸ hget)

/-- Every move keeps the ledger's invariant. -/
theorem Move.inv (hE : E.Lawful) (I : n.toLedger.Inv E) (h : E.Move Q n n') : n'.toLedger.Inv E where
  chain := I.chain.run hE (h.simulates hE I)
  stored := h.stored hE I
  named := h.named hE I

/-- Every run of moves keeps the ledger's invariant. -/
theorem Move.run_inv (hE : E.Lawful) (I : n.toLedger.Inv E) (h : ReflTransGen (E.Move Q) n n') :
    n'.toLedger.Inv E := by
  induction h with
  | refl => exact I
  | tail _ hmove ih => exact hmove.inv hE ih

/-- Every run of moves is a run of moves of the chain. -/
theorem Move.run_simulates (hE : E.Lawful) (I : n.toLedger.Inv E) (h : ReflTransGen (E.Move Q) n n') :
    ReflTransGen (Chain.Step E) n.chain n'.chain := by
  induction h with
  | refl => exact .refl
  | tail hrun hmove ih => exact ih.trans (hmove.simulates hE (Move.run_inv hE I hrun))

/-- What every move keeps, every run of moves keeps. -/
theorem Move.run_keeps {X : Node E.geth.State → Prop} (hX : ∀ {n n'}, E.Move Q n n' → X n → X n')
    (h : ReflTransGen (E.Move Q) n n') (hn : X n) : X n' := by
  induction h with
  | refl => exact hn
  | tail _ hmove ih => exact hX hmove ih

end Env

end Ethertest
