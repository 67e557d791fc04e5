-- SUMMARY: Reverting to a snapshot and restoring a checkpoint lead back to the chain of the point.
import Ethertest.Chain.Return
import Ethertest.Guarantees.Timeline

/-!
# Snapshots and checkpoints of reachable nodes

A snapshot or a checkpoint names a place: a block and a slot. The place stays what it is
through any operations, and a successful return leads to it. What the place determines is
then as it was when the point was taken.
-/

namespace Ethertest

open Relation (ReflTransGen)

/-- The canonical chain of a ledger is that of an earlier one, and the controls that wait are
those that waited then, followed by the ones issued since. -/
structure Ledger.Restores (l l' : Ledger) : Prop where
  head : l'.db.currentBlock = l.db.currentBlock
  chain : l'.db.canonicalLine = l.db.canonicalLine
  slot : l'.slot = l.slot
  lastProcessedSlot : l'.lastProcessedSlot = l.lastProcessedSlot
  canonicalBlockBySlot : l'.canonicalBlockBySlot = l.canonicalBlockBySlot
  queue : ∃ later, l'.history.issued = l.history.issued ++ later ∧
    ∀ t, l'.pendingExecutionRequests.get t = l.pendingExecutionRequests.get t ++ ofType later t
  /-- in the order of their IDs -/
  increasing : ∀ t, ((l'.pendingExecutionRequests.get t).map (·.id)).Pairwise (· < ·)

variable {E : Env}

/-- A run back to the head and the slot of an earlier ledger. -/
theorem Ledger.Inv.restores (hE : E.Lawful) {l l' : Ledger} (I : l.Inv E)
    (h : ReflTransGen (Chain.Step E) l.chain l'.chain) (hhead : l'.chain.head = l.chain.head)
    (hslot : l'.slot = l.slot) : l.Restores l' := by
  have R := I.chain.returned hE h hhead hslot
  have R' := (I.chain.run hE h).requests
  obtain ⟨b, hcurrent, hb⟩ := I.exists_head
  obtain ⟨hb', hline⟩ := R.line hb
  have hcurrent' : l'.db.currentBlock = some b := by
    rw [currentBlock_eq, ← hb'.2]
    exact hb'.1
  refine ⟨hcurrent'.trans hcurrent.symm, ?_, hslot, R.processed, ?_, R.queue, fun t => ?_⟩
  · rw [canonicalLine_eq hcurrent', canonicalLine_eq hcurrent, hline]
  · exact Store.ext_get fun slot => congrFun R.index slot
  · have hwaiting : (l'.pendingExecutionRequests.get t).Sublist (ofType l'.chain.issued t) :=
      List.IsSuffix.sublist ⟨_, R'.conserved hb' t⟩
    exact List.pairwise_map.mpr ((R'.issuance.ofType_pairwise t).sublist hwaiting)

/-! ## Points stay -/

/-- The snapshot was taken, at the place. -/
def Ledger.SnapshotAt (l : Ledger) (id : Nat) (place : Hash × Nat × Nat) : Prop :=
  id ≤ l.nextSnapshot ∧ ∃ point, l.snapshots[id]? = some point ∧ point.place = place

/-- The checkpoint is at the place. -/
def Ledger.CheckpointAt (l : Ledger) (name : Bytes) (place : Hash × Nat × Nat) : Prop :=
  ∃ point, l.checkpoints[name]? = some point ∧ point.place = place

/-- The ledgers have the same points. -/
structure Ledger.SamePoints (l l' : Ledger) : Prop where
  nextSnapshot : l'.nextSnapshot = l.nextSnapshot
  snapshots : l'.snapshots = l.snapshots
  checkpoints : l'.checkpoints = l.checkpoints

namespace Ledger.SamePoints

variable {l l' : Ledger} (h : l.SamePoints l') {id : Nat} {name : Bytes} {place : Hash × Nat × Nat}
include h

theorem snapshotAt (hat : l.SnapshotAt id place) : l'.SnapshotAt id place := by
  rwa [SnapshotAt, h.nextSnapshot, h.snapshots]

theorem checkpointAt (hat : l.CheckpointAt name place) : l'.CheckpointAt name place := by
  rwa [CheckpointAt, h.checkpoints]

end Ledger.SamePoints

namespace Env

variable {E : Env} {Q : Guard E.geth.State} {n n' : Node E.geth.State}

/-- A prepared commit whose change in memory leaves the points alone. -/
theorem samePoints_commitPrepared {operation : PreparedOperation} {events : List Event} {mutation : Mutation}
    {apply : Node E.geth.State → Node E.geth.State} (h : E.commitPrepared n operation events mutation apply = .ok n')
    (happly : ∀ m : Node E.geth.State, m.SamePoints (apply m).toLedger) : n.toLedger.SamePoints n'.toLedger := by
  obtain ⟨-, plan, -, applied, rfl, rfl⟩ := commitPrepared_spec h
  have hsame := happly { n with db := (commitOf n operation plan mutation).after E.geth }
  exact ⟨hsame.nextSnapshot, hsame.snapshots, hsame.checkpoints⟩

theorem samePoints_mineApply {x : Extension} {m : Node E.geth.State} :
    m.toLedger.SamePoints (E.mineApply n x m).toLedger := by
  unfold mineApply
  constructor <;> (simp only; split <;> rfl)

/-- How a move changes the points. -/
theorem Move.points (h : E.Move Q n n') : n.toLedger.SamePoints n'.toLedger ∨
    (∃ name point, Q.checkpoint name ∧ n'.nextSnapshot = n.nextSnapshot ∧ n'.snapshots = n.snapshots ∧
      n'.checkpoints = n.checkpoints.insert name point) ∨
    (∃ point, n'.nextSnapshot = n.nextSnapshot + 1 ∧
      n'.snapshots = n.snapshots.insert (n.nextSnapshot + 1) point ∧ n'.checkpoints = n.checkpoints) ∨
    ∃ id point, n.snapshots[id]? = some point ∧ n'.nextSnapshot = n.nextSnapshot ∧
      n'.snapshots = n.snapshots.insert id { point with used := true } ∧ n'.checkpoints = n.checkpoints := by
  have haux {put : KV} {events : List Event} {apply : Node E.geth.State → Node E.geth.State}
      (hcommit : n.commitAuxiliary [put] [] events apply = .ok n')
      (happly : ∀ m : Node E.geth.State, m.SamePoints (apply m).toLedger) : n.toLedger.SamePoints n'.toLedger := by
    obtain ⟨-, plan, -, applied, rfl, rfl⟩ := Node.commitAuxiliary_spec hcommit
    have hsame := happly { n with
      db := n.db.write (Store.puts ([put] ++ plan.puts) ++ Store.deletes ([] ++ plan.deletes)) }
    exact ⟨hsame.nextSnapshot, hsame.snapshots, hsame.checkpoints⟩
  cases h with
  | mine plan commit => exact .inl (samePoints_commitPrepared commit fun _ => samePoints_mineApply)
  | control plan commit => exact .inl (samePoints_commitPrepared commit fun _ => ⟨rfl, rfl, rfl⟩)
  | branch named plan commit => exact .inl (samePoints_commitPrepared commit fun _ => ⟨rfl, rfl, rfl⟩)
  | switch known allowed plan commit => exact .inl (samePoints_commitPrepared commit fun _ => ⟨rfl, rfl, rfl⟩)
  | note note =>
    cases note with
    | wait pos bound pending commit => exact .inl (haux commit fun _ => ⟨rfl, rfl, rfl⟩)
    | issue enqueued pending valid commit => exact .inl (haux commit fun _ => ⟨rfl, rfl, rfl⟩)
    | fork name_ne allowed fresh found taint commit => exact .inl (haux commit fun _ => ⟨rfl, rfl, rfl⟩)
    | checkpoint name_ne allowed current here commit =>
      obtain ⟨-, plan, -, applied, rfl, rfl⟩ := Node.commitAuxiliary_spec commit
      exact .inr (.inl ⟨_, _, allowed, rfl, rfl, rfl⟩)
    | snapshot next current here =>
      subst next
      exact .inr (.inr (.inl ⟨_, rfl, rfl, rfl⟩))
    | used known => exact .inr (.inr (.inr ⟨_, _, known, rfl, rfl, rfl⟩))
    | pause allowed running commit => exact .inl (haux commit fun _ => ⟨rfl, rfl, rfl⟩)
    | resume allowed paused commit => exact .inl (haux commit fun _ => ⟨rfl, rfl, rfl⟩)
  | other same => exact .inl (same ▸ ⟨rfl, rfl, rfl⟩)

variable {id slot number : Nat} {place : Hash × Nat × Nat} {name : Bytes} {P : Op → Prop} {ctx ctx' : Ctx}
  {target : Block}

/-- A snapshot keeps its place. -/
theorem Move.snapshotAt (h : E.Move Q n n') (hat : n.SnapshotAt id place) : n'.SnapshotAt id place := by
  obtain ⟨hid, point, hget, hplace⟩ := hat
  rcases h.points with hsame | ⟨name, _, -, hnext, hsnapshots, -⟩ | ⟨_, hnext, hsnapshots, -⟩ |
    ⟨id', point', hget', hnext, hsnapshots, -⟩
  · exact hsame.snapshotAt ⟨hid, point, hget, hplace⟩
  · exact ⟨hnext ▸ hid, point, hsnapshots ▸ hget, hplace⟩
  · refine ⟨hnext ▸ Nat.le_succ_of_le hid, point, ?_, hplace⟩
    rw [hsnapshots, Store.get_insert, if_neg (by omega), hget]
  · refine ⟨hnext ▸ hid, ?_⟩
    rw [hsnapshots, Store.get_insert]
    split
    · next heq =>
      subst heq
      obtain rfl := Option.some.inj (hget'.symm.trans hget)
      exact ⟨_, rfl, hplace⟩
    · exact ⟨point, hget, hplace⟩

/-- A checkpoint keeps its place unless it is taken anew. -/
theorem Move.checkpointAt (h : E.Move Q n n') (hname : ¬ Q.checkpoint name)
    (hat : n.CheckpointAt name place) : n'.CheckpointAt name place := by
  obtain ⟨point, hget, hplace⟩ := hat
  rcases h.points with hsame | ⟨name', _, hallowed, -, -, hcheckpoints⟩ | ⟨_, -, -, hcheckpoints⟩ |
    ⟨_, _, -, -, -, hcheckpoints⟩
  · exact hsame.checkpointAt ⟨point, hget, hplace⟩
  · refine ⟨point, ?_, hplace⟩
    rw [hcheckpoints, Store.get_insert, if_neg, hget]
    rintro rfl
    exact hname hallowed
  · exact ⟨point, hcheckpoints ▸ hget, hplace⟩
  · exact ⟨point, hcheckpoints ▸ hget, hplace⟩

/-! ## Runs -/

/-- A run of operations that each meet a condition. -/
def Runs (E : Env) (P : Op → Prop) : Node E.geth.State → Node E.geth.State → Prop :=
  ReflTransGen fun n n' => ∃ c : Command, P c.op ∧ n' = E.step n c

theorem Runs.foldl {commands : List Command} (h : ∀ c ∈ commands, P c.op) :
    E.Runs P n (commands.foldl E.step n) := by
  induction commands generalizing n with
  | nil => exact .refl
  | cons c commands ih =>
    have hfirst : E.Runs P n (E.step n c) := .single ⟨c, h c (List.mem_cons_self ..), rfl⟩
    exact hfirst.trans (ih fun c' hc' => h c' (List.mem_cons_of_mem _ hc'))

theorem Runs.moves (hP : ∀ {n : Node E.geth.State} {c : Command}, P c.op → Guarded Q n c)
    (h : E.Runs P n n') : ReflTransGen (E.Move Q) n n' := by
  induction h with
  | refl => exact .refl
  | tail _ hstep ih =>
    obtain ⟨c, hc, rfl⟩ := hstep
    exact ih.trans (moves_step (hP hc))

/-! ## Taking a point and going back -/

/-- A switch that succeeds leads to its target and slot. -/
theorem switchCanonical_ok (hE : E.Lawful) (W : Chain.WellFormed E n.chain) (hmem : n.chain.Mem E target)
    (h : (E.switchCanonical n ctx target slot).result = .ok ((), ctx')) :
    (E.switchCanonical n ctx target slot).node.chain.head = E.hash target ∧
      (E.switchCanonical n ctx target slot).node.slot = slot := by
  obtain ⟨o, ho, heq⟩ := settle_ok_of_result h
  rw [show E.switchCanonical n ctx target slot = o from heq]
  simp only [Except.do_ok_iff] at ho
  obtain ⟨oldHead, hold, ho⟩ := ho
  split at ho
  · next hsame =>
    rw [← Except.ok.inj ho]
    exact ⟨((W.mem_of_blocks (Ledger.head_eq_ok.mp hold)).2.symm.trans hsame.1), hsame.2⟩
  · simp only [Except.do_ok_iff, Except.ok.injEq] at ho
    obtain ⟨w, plan, committed, commit, rfl⟩ := ho
    obtain ⟨-, rfl, rfl, -⟩ := planSwitch_spec plan
    obtain ⟨events, -, hchain⟩ := chain_switch hE W hmem rfl commit
    rw [rebuildAfterCommit_ledger]
    refine ⟨by rw [hchain], ?_⟩
    have hslot : committed.chain.slot = w.targetSlot := by rw [hchain]
    exact hslot

/-- The target of a point is stored under the point's hash. -/
theorem mem_of_readBlock (W : Chain.WellFormed E n.chain) {hash : Hash}
    (h : n.db.readBlock hash number = some target) : n.chain.Mem E target ∧ E.hash target = hash :=
  W.mem_of_blocks (Option.filter_eq_some_iff.mp h).1

theorem snapshotAt_snapshot (h : (E.snapshot n ctx).result = .ok (id, ctx')) :
    ∃ head, n.head = .ok head ∧ (E.snapshot n ctx).node.SnapshotAt id (E.pointHere n head).place := by
  obtain ⟨ctx₁, hrun⟩ := executeWrite_ok h
  change E.snapshot n ctx = _ at hrun
  rw [hrun] at h ⊢
  obtain ⟨o, ho, heq⟩ := settle_ok_of_result h
  rw [heq] at h ⊢
  simp only [Except.do_ok_iff, exists_const, failIf_eq_ok, Except.ok.injEq] at ho
  obtain ⟨head, hhead, -, rfl⟩ := ho
  obtain rfl : n.nextSnapshot + 1 = id := congrArg Prod.fst (Except.ok.inj h)
  exact ⟨head, hhead, le_rfl, _, by rw [Outcome.done_node, Store.get_insert, if_pos rfl], rfl⟩

theorem checkpointAt_checkpoint (h : (E.checkpoint n ctx name).result = .ok ((), ctx')) :
    ∃ head, n.head = .ok head ∧ (E.checkpoint n ctx name).node.CheckpointAt name (E.pointHere n head).place := by
  obtain ⟨o, ho, heq⟩ := settle_ok_of_result h
  change E.checkpoint n ctx name = o at heq
  simp only [Except.do_ok_iff, exists_const, failIf_eq_ok, Except.ok.injEq] at ho
  obtain ⟨-, rfl⟩ := ho
  rw [heq] at h ⊢
  obtain ⟨ctx₁, hrun⟩ := executeWrite_ok h
  rw [hrun] at h ⊢
  obtain ⟨o, ho, heq'⟩ := settle_ok_of_result h
  rw [heq']
  simp only [Except.do_ok_iff, Except.ok.injEq] at ho
  obtain ⟨head, hhead, n', commit, rfl⟩ := ho
  obtain ⟨-, plan, -, applied, rfl, rfl⟩ := Node.commitAuxiliary_spec commit
  exact ⟨head, hhead, _, by rw [Outcome.done_node, Store.get_insert, if_pos rfl], rfl⟩

/-- A successful `Revert` leads to the place of its snapshot. -/
theorem revert_ok (hE : E.Lawful) (W : Chain.WellFormed E n.chain) {hash : Hash}
    (hat : n.SnapshotAt id (hash, number, slot)) (h : (E.revert n ctx id).result = .ok (true, ctx')) :
    (E.revert n ctx id).node.chain.head = hash ∧ (E.revert n ctx id).node.slot = slot := by
  obtain ⟨-, point, hget, hplace⟩ := hat
  obtain ⟨ctx₁, hrun⟩ := executeWrite_ok h
  change E.revert n ctx id = _ at hrun
  rw [hrun] at h ⊢
  simp only [hget] at h ⊢
  split at h
  · cases h
  · next hused =>
    rw [if_neg hused]
    obtain ⟨o, ho, heq⟩ := settle_ok_of_result h
    rw [heq] at h ⊢
    simp only [Except.do_ok_iff, orFail_eq_ok, Except.ok.injEq] at ho
    obtain ⟨target, htarget, rfl⟩ := ho
    obtain ⟨hmem, hhash⟩ := mem_of_readBlock W htarget
    unfold Outcome.andThen at h ⊢
    split at h
    · next value ctx₂ hswitch =>
      obtain ⟨hhead, hslot⟩ := switchCanonical_ok hE W hmem hswitch
      obtain ⟨rfl, rfl, rfl⟩ : point.hash = hash ∧ point.number = number ∧ point.slot = slot := by
        simpa [ChainPoint.place] using hplace
      exact ⟨hhead.trans hhash, hslot⟩
    · cases h

/-- A successful `Restore` leads to the place of its checkpoint. -/
theorem restore_ok (hE : E.Lawful) (W : Chain.WellFormed E n.chain) {hash : Hash}
    (hat : n.CheckpointAt name (hash, number, slot)) (h : (E.restore n ctx name).result = .ok ((), ctx')) :
    (E.restore n ctx name).node.chain.head = hash ∧ (E.restore n ctx name).node.slot = slot := by
  obtain ⟨point, hget, hplace⟩ := hat
  obtain ⟨ctx₁, hrun⟩ := executeWrite_ok h
  change E.restore n ctx name = _ at hrun
  rw [hrun] at h ⊢
  obtain ⟨o, ho, heq⟩ := settle_ok_of_result h
  rw [heq] at h ⊢
  simp only [hget, Except.do_ok_iff, orFail_eq_ok, Except.ok.injEq] at ho
  obtain ⟨point', hpoint, target, htarget, rfl⟩ := ho
  obtain rfl := Option.some.inj hpoint
  obtain ⟨hmem, hhash⟩ := mem_of_readBlock W htarget
  obtain ⟨hhead, hslot⟩ := switchCanonical_ok hE W hmem h
  obtain ⟨rfl, rfl, rfl⟩ : point.hash = hash ∧ point.number = number ∧ point.slot = slot := by
    simpa [ChainPoint.place] using hplace
  exact ⟨hhead.trans hhash, hslot⟩

/-- No condition on the inputs but that the checkpoint is not taken anew. -/
def notCheckpoint (E : Env) (name : Bytes) : Guard E.geth.State where
  checkpoint := (· ≠ name)

theorem guarded_notCheckpoint {c : Command} (h : c.op ≠ .checkpoint name) :
    Guarded (E.notCheckpoint name) n c := by
  refine { checkpoint := fun name' hop => ?_ }
  rintro rfl
  exact h hop

/-- A run that leads from a node to a place where it was is a return to that node. -/
theorem restores_of_moves (hE : E.Lawful) (I : n.toLedger.Inv E) {head : Block} (hhead : n.head = .ok head)
    (hmoves : ReflTransGen (E.Move Q) n n') (h : n'.chain.head = E.hash head ∧ n'.slot = n.slot) :
    n.toLedger.Restores n'.toLedger := by
  have hhash := (I.chain.wellFormed.mem_of_blocks (Ledger.head_eq_ok.mp hhead)).2
  exact I.restores hE (Move.run_simulates hE I hmoves) (h.1.trans hhash) h.2

end Env

/-- From every reachable node: a snapshot or a checkpoint, any operations that do not take
the checkpoint anew, and a successful return lead back to the chain of the node. -/
theorem reachable_restores (hE : E.Lawful) {n : Node E.geth.State} (h : E.Reachable n) :
    (∀ {ctx ctx₁ ctx₂ ctx₃ : Ctx} {id : Nat} {m : Node E.geth.State},
      (E.snapshot n ctx).result = .ok (id, ctx₁) → E.Runs (fun _ => True) (E.snapshot n ctx).node m →
        (E.revert m ctx₂ id).result = .ok (true, ctx₃) → n.toLedger.Restores (E.revert m ctx₂ id).node.toLedger) ∧
    ∀ {ctx ctx₁ ctx₂ ctx₃ : Ctx} {name : Bytes} {m : Node E.geth.State},
      (E.checkpoint n ctx name).result = .ok ((), ctx₁) →
        E.Runs (· ≠ .checkpoint name) (E.checkpoint n ctx name).node m →
          (E.restore m ctx₂ name).result = .ok ((), ctx₃) →
            n.toLedger.Restores (E.restore m ctx₂ name).node.toLedger := by
  have I := h.inv hE
  constructor
  · intro ctx ctx₁ ctx₂ ctx₃ id m htaken hrun hback
    obtain ⟨head, hhead, hat⟩ := Env.snapshotAt_snapshot htaken
    have hmoves := hrun.moves (Q := .any) fun _ => Env.guarded_any
    have hat' := Env.Move.run_keeps (X := fun m => m.SnapshotAt id _) (fun hmove => hmove.snapshotAt) hmoves hat
    have hreach : ReflTransGen (E.Move .any) n m := ReflTransGen.trans Env.moves_snapshot hmoves
    have W := (Env.Move.run_inv hE I hreach).chain.wellFormed
    refine Env.restores_of_moves hE I hhead (hreach.trans (Env.moves_revert fun _ _ => trivial)) ?_
    exact Env.revert_ok hE W hat' hback
  · intro ctx ctx₁ ctx₂ ctx₃ name m htaken hrun hback
    obtain ⟨head, hhead, hat⟩ := Env.checkpointAt_checkpoint htaken
    have hat' := Env.Move.run_keeps (Q := E.notCheckpoint name) (X := fun m => m.CheckpointAt name _)
      (fun hmove => hmove.checkpointAt fun hne => hne rfl)
      (hrun.moves Env.guarded_notCheckpoint) hat
    have hmoves := hrun.moves (Q := .any) fun _ => Env.guarded_any
    have hreach : ReflTransGen (E.Move .any) n m := ReflTransGen.trans (Env.moves_checkpoint trivial) hmoves
    have W := (Env.Move.run_inv hE I hreach).chain.wellFormed
    refine Env.restores_of_moves hE I hhead (hreach.trans (Env.moves_restore fun _ _ => trivial)) ?_
    exact Env.restore_ok hE W hat' hback

namespace Reference

/-- A control is issued between two blocks. -/
def detour : List Command :=
  [⟨.mine 1 false, none⟩, ⟨withdrawalRequest, none⟩, ⟨.mine 1 false, none⟩]

def reverted : Outcome env.geth.State Bool :=
  env.revert (detour.foldl env.step (env.snapshot start none).node) none 1

def restored : Outcome env.geth.State Unit :=
  env.restore (detour.foldl env.step (env.checkpoint start none [99]).node) none [99]

end Reference

set_option maxRecDepth 100000 in
theorem reachable_restores_reference :
    Reference.start.Restores Reference.reverted.node.toLedger ∧
      Reference.start.Restores Reference.restored.node.toLedger := by
  have htaken : (Reference.env.snapshot Reference.start none).result.toOption.map (·.1) = some 1 := by
    decide +kernel
  have hnamed : (Reference.env.checkpoint Reference.start none [99]).result.toOption.map (·.1) = some () := by
    decide +kernel
  have hreverted : Reference.reverted.result.toOption.map (·.1) = some true := by decide +kernel
  have hrestored : Reference.restored.result.toOption.map (·.1) = some () := by decide +kernel
  obtain ⟨_, htaken⟩ := Reference.result_of_toOption htaken
  obtain ⟨_, hnamed⟩ := Reference.result_of_toOption hnamed
  obtain ⟨_, hreverted⟩ := Reference.result_of_toOption hreverted
  obtain ⟨_, hrestored⟩ := Reference.result_of_toOption hrestored
  have hreachable : Reference.env.Reachable Reference.start := .start Reference.newNode_eq
  obtain ⟨hsnapshots, hcheckpoints⟩ := reachable_restores Reference.lawful hreachable
  exact ⟨hsnapshots htaken (.foldl fun _ _ => trivial) hreverted,
    hcheckpoints hnamed (.foldl (by simp [Reference.detour, Reference.withdrawalRequest])) hrestored⟩

end Ethertest
