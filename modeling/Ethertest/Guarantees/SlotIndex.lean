-- SUMMARY: The stored slot index: it is the one in memory while no switch replaces a block by one in the same slot.
import Ethertest.Guarantees.Restart

/-!
# The stored slot index

A switch stores the slots of the adopted blocks and deletes those of the abandoned ones.
The deletions come last in the batch, so a slot that has a block on both sides is lost in
the database, while memory keeps it.
-/

namespace Ethertest

/-- The slot index survives a restart. -/
structure Ledger.IndexPersisted (E : Env) (l : Ledger) : Prop where
  entries : ∀ slot, l.db.get (.canonicalSlot slot) = l.canonicalBlockBySlot[slot]?.map .hash
  reloads : loadCanonicalSlots l.db = .ok l.canonicalBlockBySlot
  /-- every canonical block is found in the index that is read back -/
  validates : ∀ {chain loaded : Ledger} {head : Block}, chain.db = l.db → loadRuntimeMetadata E chain = .ok loaded →
    l.db.currentBlock = some head → ∀ number ≤ head.number, loaded.validateCanonical E number = .ok ()

/-- No block that a switch to the target abandons has the slot of a block that it adopts. -/
def Env.SlotsApart (E : Env) (n : Node E.geth.State) (target : Block) : Prop :=
  ∀ a ∈ n.db.canonicalLine, a ∉ n.db.line target → ∀ b ∈ n.db.line target, b ∉ n.db.canonicalLine →
    n.slotOf E a ≠ n.slotOf E b

instance {E : Env} (n : Node E.geth.State) (target : Block) : Decidable (E.SlotsApart n target) :=
  inferInstanceAs (Decidable (∀ a ∈ n.db.canonicalLine, a ∉ n.db.line target → ∀ b ∈ n.db.line target,
    b ∉ n.db.canonicalLine → n.slotOf E a ≠ n.slotOf E b))

/-- The switch that an operation would make keeps the slots of both sides apart. -/
def Env.KeepsSlotsApart (E : Env) (n : Node E.geth.State) (c : Command) : Prop :=
  ∀ target ∈ c.op.switchTarget n, E.SlotsApart n target

instance {E : Env} (n : Node E.geth.State) (c : Command) : Decidable (E.KeepsSlotsApart n c) :=
  inferInstanceAs (Decidable (∀ target ∈ c.op.switchTarget n, E.SlotsApart n target))

namespace Env

variable {E : Env} {Q : Guard E.geth.State} {n n' : Node E.geth.State}

/-- The stored slots are those in memory. -/
def SlotsStored (n : Node E.geth.State) : Prop :=
  ∀ slot, n.db.get (.canonicalSlot slot) = n.canonicalBlockBySlot[slot]?.map .hash

/-! ## Switches -/

section Switch

variable {target : Block} {slot : Nat} {w : Switch}

/-- Entering blocks in the index in memory and in the database. -/
theorem map_get_foldl_insert {l : Ledger} (path : List Block) (s : Store Nat Hash) (slot : Nat) :
    ((path.foldl (fun acc b => acc.insert (l.slotOf E b) (E.hash b)) s)[slot]?).map Value.hash =
      (Store.lastWrite (Store.puts (path.map fun b => canonicalSlotPut (l.slotOf E b) (E.hash b)))
        (.canonicalSlot slot)).getD ((s[slot]?).map .hash) := by
  induction path generalizing s with
  | nil => rfl
  | cons b path ih =>
    rw [List.foldl_cons, ih, map_get_insert, List.map_cons, Store.lastWrite_puts_cons]
    cases Store.lastWrite (Store.puts (path.map fun b => canonicalSlotPut (l.slotOf E b) (E.hash b)))
        (.canonicalSlot slot) with
    | some written => rfl
    | none => by_cases h : l.slotOf E b = slot <;> simp [canonicalSlotPut, h]

/-- The last write to a slot of the index. -/
theorem Switch.lastWrite_canonicalSlot {l : Ledger} (slot : Nat) :
    Store.lastWrite (Store.puts (w.operation E l).puts) (.canonicalSlot slot) =
      Store.lastWrite (Store.puts (w.newPath.reverse.map fun b => canonicalSlotPut (l.slotOf E b) (E.hash b)))
        (.canonicalSlot slot) := by
  change Store.lastWrite (Store.puts ([_, _] ++ _)) _ = _
  rw [Store.lastWrite_puts_append]
  simp [timelinePut]

/-- A slot that is dropped has no adopted block, if the slots of both sides are apart. -/
theorem not_adopted_of_dropped (hE : E.Lawful) (I : n.toLedger.Inv E) (plan : E.planSwitch n target slot = .ok w)
    (hmem : n.chain.Mem E target) (hslot : n.chain.slotOf E target ≤ slot) (apart : E.SlotsApart n target) {s : Nat}
    (hs : s ∈ w.dropped E n.toLedger) {b : Block} (hb : b ∈ w.newPath) : n.slotOf E b ≠ s := by
  have W := I.chain.wellFormed
  have T := I.chain.timeline
  obtain ⟨hold, -, rfl, hpaths, -, -⟩ := planSwitch_spec plan
  obtain ⟨holdMem, holdHash⟩ := W.mem_of_blocks hold
  have hcurrent : n.db.currentBlock = some w.oldHead := hold
  obtain ⟨d, -, hlineOld, hlineNew, hdisjointOld, hdisjointNew⟩ := W.paths hE holdMem hmem hpaths
  have hbline : b ∈ n.chain.line target := hlineNew ▸ List.mem_append_left _ hb
  have hbmem := W.tree.mem_of_mem_line hmem hbline
  rintro rfl
  obtain ⟨h, hget, hdrop⟩ := Switch.mem_dropped.mp hs
  rw [n.toLedger.slotOf_eq, T.slotOf_eq hbmem] at hget hdrop
  rcases hdrop with hlate | habandoned
  · -- the slots of the target's line are not beyond the target's
    have hle := T.slot_le_of_mem_line W hmem hbline
    rw [T.slotOf_eq hmem] at hslot
    omega
  · obtain ⟨a, ha, rfl⟩ := List.mem_map.mp habandoned
    have haline : a ∈ n.chain.line w.oldHead := hlineOld ▸ List.mem_append_left _ ha
    obtain ⟨a', ha', hhash, hsame⟩ := (T.index ⟨holdMem, holdHash⟩ _ _).mp hget
    obtain rfl := hE.blockHash_injective hhash
    refine apart a' ?_ (fun hin => hdisjointOld ha hin) b hbline ?_ ?_
    · rw [Ledger.canonicalLine_eq hcurrent]
      exact ha'
    · rw [Ledger.canonicalLine_eq hcurrent]
      exact fun hin => hdisjointNew hb hin
    · rw [n.toLedger.slotOf_eq, n.toLedger.slotOf_eq, T.slotOf_eq (W.tree.mem_of_mem_line holdMem ha'),
        T.slotOf_eq hbmem, hsame]

/-- A switch that keeps the slots of both sides apart stores the index. -/
theorem slotsStored_switch (hE : E.Lawful) (I : n.toLedger.Inv E) (S : SlotsStored n)
    (known : (∃ h, n.db.blockByHash h = some target) ∧ slot = n.slotOf E target ∨
      ∃ p : ChainPoint, n.db.readBlock p.hash p.number = some target ∧ slot = p.slot ∧ p.place ∈ n.chain.points)
    (apart : E.SlotsApart n target) (plan : E.planSwitch n target slot = .ok w)
    (commit : E.commitPrepared n (w.operation E n.toLedger) (w.events E n.toLedger) (.setHead target)
      (E.switchApply n w) = .ok n') : SlotsStored n' := by
  have W := I.chain.wellFormed
  obtain ⟨hmem, hknown⟩ := switch_target W known
  have hslot : n.chain.slotOf E target ≤ slot := by
    rcases hknown with rfl | hpoint
    · exact le_rfl
    · rw [I.chain.timeline.slotOf_eq hmem]
      exact I.chain.timeline.points hmem hpoint
  obtain ⟨-, eplan, hplan, applied, rfl, rfl⟩ := commitPrepared_spec commit
  intro s
  change ((commitOf n (w.operation E n.toLedger) eplan (.setHead target)).after E.geth).get _ =
    ((w.canonicalSlots E n.toLedger)[s]?).map Value.hash
  rw [commitOf_get hE hplan (proper_switch W hmem hplan) rfl, Switch.lastWrite_canonicalSlot, Switch.canonicalSlots,
    map_get_foldl_insert, Store.get_foldl_erase]
  by_cases hs : s ∈ w.dropped E n.toLedger
  · have hdelete : Store.lastWrite (Store.deletes (w.operation E n.toLedger).deletes : List (Store.Write Key Value))
        (.canonicalSlot s) = some none :=
      Store.lastWrite_deletes_of_mem (List.mem_map_of_mem hs)
    have hput : Store.lastWrite (Store.puts (w.newPath.reverse.map fun b =>
        canonicalSlotPut (n.slotOf E b) (E.hash b))) (.canonicalSlot s) = none := by
      refine Store.lastWrite_puts_eq_none fun kv hkv heq => ?_
      obtain ⟨b, hb, rfl⟩ := List.mem_map.mp hkv
      exact not_adopted_of_dropped hE I plan hmem hslot apart hs (List.mem_reverse.mp hb) (Key.canonicalSlot.inj heq)
    rw [hdelete, hput, if_pos hs]
    rfl
  · have hdelete : Store.lastWrite (Store.deletes (w.operation E n.toLedger).deletes : List (Store.Write Key Value))
        (.canonicalSlot s) = none := by
      refine Store.lastWrite_deletes_eq_none fun hmem' => ?_
      obtain ⟨s', hs', heq⟩ := List.mem_map.mp hmem'
      exact hs (Key.canonicalSlot.inj heq ▸ hs')
    rw [hdelete, Option.none_or, if_neg hs, S s]

end Switch

/-! ## Runs -/

/-- The guard of runs whose switches keep the slots of both sides apart. -/
def slotsApartGuard (E : Env) : Guard E.geth.State where
  switch := E.SlotsApart

theorem Move.slotsStored (hE : E.Lawful) (I : n.toLedger.Inv E) (S : SlotsStored n)
    (h : E.Move E.slotsApartGuard n n') : SlotsStored n' := by
  have W := I.chain.wellFormed
  cases h with
  | mine plan commit =>
    have p := planMine_spec hE W plan
    obtain ⟨eplan, hplan, hext⟩ := extends_mine hE W p commit
    obtain ⟨eplan', hplan', hdb, -⟩ := commitPrepared_db (fun _ => mineApply_db) commit
    intro slot
    rw [hdb, get_mine hE W p hplan' rfl, hext.index, map_get_insert, S slot]
    rfl
  | control plan commit =>
    have p := planControl_spec hE W plan
    obtain ⟨eplan, hplan, hext⟩ := extends_control hE W p commit
    obtain ⟨eplan', hplan', hdb, -⟩ := commitPrepared_db (fun _ => controlApply_db) commit
    intro slot
    rw [hdb, get_control hE W p hplan' rfl, hext.index, map_get_insert, S slot]
    rfl
  | branch named plan commit =>
    have p := planBranch_spec hE W plan
    obtain ⟨-, eplan, hplan, applied, rfl, rfl⟩ := commitPrepared_spec commit
    intro slot
    exact (get_branch hE p hplan rfl).trans (S slot)
  | switch known allowed plan commit => exact slotsStored_switch hE I S known allowed plan commit
  | note note =>
    intro slot
    rw [note.aside.get rfl, note.aside.slots, S slot]
  | other same =>
    intro slot
    rw [same]
    exact S slot

theorem slotsStored_newNode (hE : E.Lawful) (h : E.newNode = .ok n) : SlotsStored n := by
  obtain ⟨projection, record, -, -, hledger⟩ := newNode_spec h
  intro slot
  rw [hledger]
  refine (startDb_get_own hE rfl).trans ?_
  simp only [startPuts, timelinePut, sessionSafetyPut, canonicalSlotPut, blockSlotPut, blockSafetyPut]
  by_cases hs : slot = 0
  · simp [freshLedger, hs]
  · simp [freshLedger, Ne.symm hs]

end Env

/-! ## Validation of the index that is read back -/

namespace Ledger

variable {E : Env} {l : Ledger}

private theorem loadCanonicalSlots_eq
    (h : ∀ slot, l.db.get (.canonicalSlot slot) = l.canonicalBlockBySlot[slot]?.map .hash) :
    loadCanonicalSlots l.db = .ok l.canonicalBlockBySlot := by
  refine loadIndex_eq ?_ h fun _ _ _ => rfl
  intro k slot
  cases k <;> simp

/-- Every canonical block is at its slot in an index that is read back. -/
theorem validateCanonical_eq_ok (I : l.Inv E) {loaded : Ledger} (hdb : loaded.db = l.db)
    (hslots : loaded.slotByHash = l.slotByHash) (hindex : loaded.canonicalBlockBySlot = l.canonicalBlockBySlot)
    {head : Block} (hcurrent : l.db.currentBlock = some head) {number : Nat} (h : number ≤ head.number) :
    loaded.validateCanonical E number = .ok () := by
  obtain ⟨b, hb, rfl⟩ := I.exists_canonical hcurrent h
  have hslot : l.slotByHash[E.hash b]? = some (E.slotAt b.time) :=
    I.chain.timeline.slots (I.mem_of_mem_canonicalLine hb)
  have hentry : l.canonicalBlockBySlot[E.slotAt b.time]? = some (E.hash b) :=
    (I.timelineCoherent.indexed _ _).mpr ⟨b, hb, rfl, hslot⟩
  rw [validateCanonical, hdb, I.blockByNumber_eq_some.mpr ⟨hb, rfl⟩, hslots, hindex]
  simp [orFail, failIf, hslot, hentry, bind, Except.bind]

end Ledger

/-- In every run whose switches keep the slots of abandoned and adopted blocks apart, the
slot index survives a restart at any time. -/
theorem reachable_indexPersisted {E : Env} (hE : E.Lawful) {n : Node E.geth.State}
    (h : E.ReachableBy E.KeepsSlotsApart n) : n.toLedger.IndexPersisted E := by
  have I := h.inv hE
  have S : Env.SlotsStored n :=
    h.invariant (Q := E.slotsApartGuard) hE (fun hP => { switch := hP }) (Env.slotsStored_newNode hE) fun I S hmove =>
      hmove.slotsStored hE I S
  refine ⟨S, Ledger.loadCanonicalSlots_eq S, fun {chain loaded head} hdb hloaded hcurrent number hnumber => ?_⟩
  rw [Ledger.loadRuntimeMetadata_eq I (h.mirror hE) hdb (Ledger.loadCanonicalSlots_eq S), Except.ok.injEq] at hloaded
  exact Ledger.validateCanonical_eq_ok I (by rw [← hloaded]; exact hdb) (by rw [← hloaded]) (by rw [← hloaded])
    hcurrent hnumber

theorem reachable_indexPersisted_reference :
    (Reference.run [⟨.createBranch [97] 0, none⟩, ⟨.mineBranch [97] 1, none⟩, ⟨.switchBranch [97], none⟩,
      ⟨.mine 1 false, none⟩]).toLedger.IndexPersisted Reference.env :=
  reachable_indexPersisted Reference.lawful (Reference.reachableBy_run (by decide +kernel))

/-- A block is mined in slot 1, and one in the same slot on a branch from the genesis. The
switch to the branch succeeds and loses the slot in the database. -/
theorem not_indexPersisted_same_slot :
    let n := Reference.run [⟨.createBranch [97] 0, none⟩, ⟨.mine 1 false, none⟩, ⟨.mineBranch [97] 1, none⟩]
    (Reference.env.execute n ⟨.switchBranch [97], none⟩).2.toBool = true ∧
      ¬ (Reference.env.step n ⟨.switchBranch [97], none⟩).toLedger.IndexPersisted Reference.env := by
  refine ⟨by decide +kernel, fun h => ?_⟩
  exact absurd (h.entries 1) (by decide +kernel)

end Ethertest
