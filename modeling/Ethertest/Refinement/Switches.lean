-- SUMMARY: The commit that switches the head: what it writes and what it does to the chain.
import Ethertest.Refinement.Extensions

/-!
# Switches of the head

A switch edits the slot index in memory by erasing and inserting. Its batch puts the
adopted blocks first and deletes the dropped slots last.
-/

namespace Ethertest

namespace Store

variable {K V : Type} [Ord K] [Std.TransOrd K] [Std.LawfulEqOrd K] [DecidableEq K]

theorem get_foldl_erase (keys : List K) (s : Store K V) (k : K) :
    (keys.foldl (fun acc k => acc.erase k) s)[k]? = if k ∈ keys then none else s[k]? := by
  induction keys generalizing s with
  | nil => simp
  | cons k' keys ih =>
    rw [List.foldl_cons, ih, Store.get_erase]
    by_cases h : k ∈ keys
    · simp [h]
    · by_cases h' : k = k' <;> simp [h, h']

end Store

namespace Env.Switch

variable {E : Env} {l : Ledger} {w : Switch}

theorem mem_dropped {slot : Nat} : slot ∈ w.dropped E l ↔
    ∃ h, l.canonicalBlockBySlot[slot]? = some h ∧ (w.targetSlot < slot ∨ h ∈ w.oldPath.map E.hash) := by
  simp only [dropped, List.mem_map, List.mem_filter, decide_eq_true_eq, Prod.exists, Store.mem_toList]
  constructor
  · rintro ⟨slot', h, ⟨hget, hdrop⟩, rfl⟩
    exact ⟨h, hget, hdrop⟩
  · rintro ⟨h, hget, hdrop⟩
    exact ⟨slot, h, ⟨hget, hdrop⟩, rfl⟩

/-- The index in memory after a switch. -/
theorem canonicalSlots_eq :
    (fun slot => (w.canonicalSlots E l)[slot]?) = l.chain.movedIndex E w.targetSlot w.oldPath w.newPath := by
  have hinsert (path : List Block) (s : Store Nat Hash) :
      (fun slot => (path.foldl (fun acc b => acc.insert (l.slotOf E b) (E.hash b)) s)[slot]?) =
        path.foldl (fun index b => Function.update index (l.chain.slotOf E b) (some (E.hash b)))
          fun slot => s[slot]? := by
    induction path generalizing s with
    | nil => rfl
    | cons b path ih =>
      rw [List.foldl_cons, ih, List.foldl_cons, Store.get_eq_update (s := s) rfl, l.slotOf_eq]
  have hbase : (fun slot => ((w.dropped E l).foldl (fun acc slot => acc.erase slot) l.canonicalBlockBySlot)[slot]?) =
      fun slot => (l.chain.index slot).filter fun h => ¬ (w.targetSlot < slot ∨ h ∈ w.oldPath.map E.hash) := by
    funext slot
    rw [Store.get_foldl_erase]
    change _ = (l.canonicalBlockBySlot[slot]?).filter _
    split
    · next hmem =>
      obtain ⟨h, hget, hdrop⟩ := mem_dropped.mp hmem
      rw [hget, Option.filter_some, decide_eq_false (not_not.mpr hdrop)]
      rfl
    · next hmem =>
      cases hget : l.canonicalBlockBySlot[slot]? with
      | none => rfl
      | some h =>
        have hkeep : ¬ (w.targetSlot < slot ∨ h ∈ w.oldPath.map E.hash) := fun hdrop =>
          hmem (mem_dropped.mpr ⟨h, hget, hdrop⟩)
        rw [Option.filter_some, decide_eq_true hkeep]
        rfl
  rw [canonicalSlots, hinsert, hbase, Chain.movedIndex]

/-- The events of a switch are the chain's. -/
theorem events_eq : (w.events E l).map EventLog.unnumbered =
    l.chain.moveEvents E w.targetSlot w.oldHead w.target w.oldPath w.newPath := by
  simp only [events, Chain.moveEvents, List.map_append, List.map_map, blockEvent, Event.block, Function.comp_def,
    EventLog.unnumbered, l.slotOf_eq]
  split <;> rfl

theorem own_of_mem_operation {kv : KV} (h : kv ∈ (w.operation E l).puts) : kv.1.own ∧ kv.1.Holds kv.2 := by
  change kv ∈ [_, _] ++ _ at h
  simp only [List.mem_append, List.mem_cons, List.not_mem_nil, or_false, List.mem_map] at h
  rcases h with (rfl | rfl) | ⟨b, -, rfl⟩
  · exact ⟨rfl, trivial⟩
  · exact ⟨rfl, trivial⟩
  · exact ⟨rfl, _, rfl⟩

/-- The metadata that a switch writes outside the slot index. -/
def writes (E : Env) (l : Ledger) (w : Switch) : Key → Option Value
  | .timeline => some (.timeline (w.timeline E l))
  | .requestQueue => some (.queue w.queue)
  | _ => none

theorem lastWrite_operation {k : Key} (hk : ∀ slot, k ≠ .canonicalSlot slot) :
    (Store.lastWrite (Store.deletes (w.operation E l).deletes) k).or
      (Store.lastWrite (Store.puts (w.operation E l).puts) k) = (w.writes E l k).map some := by
  have hdeletes : Store.lastWrite (Store.deletes (w.operation E l).deletes : List (Store.Write Key Value)) k =
      none := by
    refine Store.lastWrite_deletes_eq_none fun hmem => ?_
    obtain ⟨slot, -, rfl⟩ := List.mem_map.mp hmem
    exact hk slot rfl
  have hpath : Store.lastWrite (Store.puts (w.newPath.reverse.map fun b =>
      canonicalSlotPut (l.slotOf E b) (E.hash b))) k = none := by
    refine Store.lastWrite_puts_eq_none fun kv hkv heq => ?_
    obtain ⟨b, -, rfl⟩ := List.mem_map.mp hkv
    exact hk _ heq.symm
  rw [hdeletes, Option.none_or]
  change Store.lastWrite (Store.puts ([_, _] ++ _)) k = _
  rw [Store.lastWrite_puts_append, hpath, Option.none_or]
  cases k <;> simp [writes, timelinePut]

end Env.Switch

namespace Env

variable {E : Env} {n n' : Node E.geth.State} {target : Block} {slot : Nat} {w : Switch}

/-- What a prepared switch is made of. -/
theorem planSwitch_spec (h : E.planSwitch n target slot = .ok w) :
    n.chain.blocks n.chain.head = some w.oldHead ∧ w.target = target ∧ w.targetSlot = slot ∧
    Ancestry.divergentPaths n.chain.parent Block.number (fun a b => E.hash a = E.hash b) w.oldHead target =
      some (w.oldPath, w.newPath) ∧
    reconcileExecutionRequestQueue (loadExecutionRequestRecord n.db) n.pendingExecutionRequests
      (w.oldPath.map E.hash) (w.newPath.map E.hash) = .ok w.queue ∧
    validateExecutionRequestQueue w.queue = .ok () := by
  simp only [planSwitch, divergentPaths, executionRequestQueuePut, Except.do_ok_iff, Except.unit_ok_iff,
    orFail_eq_ok, Except.ok.injEq] at h
  obtain ⟨oldHead, hhead, ⟨oldPath, newPath⟩, hpaths, queue, hqueue, put, ⟨hvalid, -⟩, rfl⟩ := h
  exact ⟨Ledger.head_eq_ok.mp hhead, rfl, rfl, hpaths, hqueue, hvalid⟩

section Switch

variable (hE : E.Lawful) (W : Chain.WellFormed E n.chain) (hmem : n.chain.Mem E target) {plan : EventPlan}
  (hplan : n.events.plan (w.events E n.toLedger) = .ok plan)

include W hmem hplan in
theorem proper_switch : (commitOf n (w.operation E n.toLedger) plan (.setHead target)).Proper E := by
  refine proper_commitOf hplan (fun kv hkv => by cases hkv)
    (fun kv hkv => (Switch.own_of_mem_operation hkv).1) (fun k hk => ?_) fun b hb => ?_
  · obtain ⟨slot, -, rfl⟩ := List.mem_map.mp hk
    rfl
  · obtain rfl : target = b := Option.some.inj hb
    exact Ledger.linked_of_tree W.tree hmem

include hE W hmem hplan in
theorem get_switch {k : Key} (hk : k.metadata) (hslot : ∀ slot, k ≠ .canonicalSlot slot) :
    ((commitOf n (w.operation E n.toLedger) plan (.setHead target)).after E.geth).get k =
      (w.writes E n.toLedger k).or (n.db.get k) := by
  rw [commitOf_get hE hplan (proper_switch W hmem hplan) hk, Switch.lastWrite_operation hslot]
  cases w.writes E n.toLedger k <;> rfl

include hE W hmem in
/-- A switch moves the head of the chain. -/
theorem chain_switch (hslot : w.targetSlot = slot)
    (commit : E.commitPrepared n (w.operation E n.toLedger) (w.events E n.toLedger) (.setHead target)
      (E.switchApply n w) = .ok n') :
    ∃ plan, n.events.plan (w.events E n.toLedger) = .ok plan ∧
      n'.chain = { n.chain with
        head := E.hash target, slot := slot, processed := slot
        index := n.chain.movedIndex E slot w.oldPath w.newPath, queue := w.queue
        batches := n.chain.batches ++ [plan.events] } := by
  obtain ⟨-, plan, hplan, applied, rfl, rfl⟩ := commitPrepared_spec commit
  have P := proper_switch W hmem hplan
  have hget (k : Key) (hk : k.metadata) (hs : ∀ slot, k ≠ .canonicalSlot slot)
      (hw : w.writes E n.toLedger k = none) :
      ((commitOf n (w.operation E n.toLedger) plan (.setHead target)).after E.geth).get k = n.db.get k := by
    rw [get_switch hE W hmem hplan hk hs, hw, Option.none_or]
  subst hslot
  refine ⟨plan, hplan, ?_⟩
  apply Chain.ext
  case blocks => exact P.after_blockByHash hE
  case head => exact P.after_headHash hE
  case index => exact Switch.canonicalSlots_eq
  case records => exact Db.record_congr fun h => hget (.requestRecord h) rfl (by simp) rfl
  case projections => exact Db.projection_congr fun h => hget (.projection h) rfl (by simp) rfl
  case controls => exact Db.controls_congr fun h => hget (.control h) rfl (by simp) rfl
  all_goals rfl

end Switch

end Env

end Ethertest
