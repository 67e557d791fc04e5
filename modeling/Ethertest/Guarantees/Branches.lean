-- SUMMARY: Checkpoints and branches after a restart: they come back and pass their checks if branch names are UTF-8.
import Ethertest.ControlMetadata
import Ethertest.Guarantees.Restart

/-!
# Checkpoints and branches of reachable nodes

A branch's name is stored twice: as the bytes of its key, and as text in its record.
Encoding the text replaces what is not UTF-8, and the loader refuses a record whose name
is not that of its key. With names in UTF-8 everything is read back and passes the checks
against the chain.
-/

namespace Ethertest

/-! ## UTF-8 -/

/-- The bytes are a sequence of UTF-8 characters. -/
inductive Utf8 : Bytes → Prop
  | nil : Utf8 []
  | cons {b : UInt8} {rest : Bytes} {k : Nat} :
    utf8Continuation b rest = some k → Utf8 (rest.drop k) → Utf8 (b :: rest)

namespace Utf8

variable {s : Bytes}

theorem go_eq_self (h : Utf8 s) {fuel : Nat} (hfuel : s.length ≤ fuel) : jsonText.go fuel s = s := by
  induction h generalizing fuel with
  | nil => cases fuel <;> rfl
  | @cons b rest k hk _ ih =>
    cases fuel with
    | zero => simp at hfuel
    | succ fuel =>
      have hdrop : (rest.drop k).length ≤ fuel := by
        rw [List.length_cons] at hfuel
        rw [List.length_drop]
        omega
      rw [jsonText.go, hk]
      simp only [ih hdrop, List.cons_append, List.take_append_drop]

/-- Replacing makes a text longer, and nothing makes it shorter. -/
theorem length_le_go {fuel : Nat} (s : Bytes) (hfuel : s.length ≤ fuel) : s.length ≤ (jsonText.go fuel s).length := by
  induction fuel generalizing s with
  | zero =>
    obtain rfl := List.eq_nil_of_length_eq_zero (Nat.le_zero.mp hfuel)
    simp
  | succ fuel ih =>
    cases s with
    | nil => simp
    | cons b rest =>
      rw [List.length_cons] at hfuel
      rw [jsonText.go]
      split
      · next k hk =>
        have hrest := ih (rest.drop k) (by rw [List.length_drop]; omega)
        simp only [List.cons_append, List.length_cons, List.length_append, List.length_take,
          List.length_drop] at hrest ⊢
        omega
      · have hrest := ih rest (by omega)
        simp only [List.length_append, List.length_cons, List.length_nil]
        omega

private theorem of_go_eq {fuel : Nat} (hfuel : s.length ≤ fuel) (h : jsonText.go fuel s = s) : Utf8 s := by
  induction fuel generalizing s with
  | zero =>
    obtain rfl := List.eq_nil_of_length_eq_zero (Nat.le_zero.mp hfuel)
    exact .nil
  | succ fuel ih =>
    cases s with
    | nil => exact .nil
    | cons b rest =>
      rw [List.length_cons] at hfuel
      rw [jsonText.go] at h
      split at h
      · next k hk =>
        rw [List.cons_append, List.cons.injEq] at h
        have hdrop : jsonText.go fuel (rest.drop k) = rest.drop k :=
          List.append_cancel_left (h.2.trans (List.take_append_drop k rest).symm)
        exact .cons hk (ih (by rw [List.length_drop]; omega) hdrop)
      · have hlength := congrArg List.length h
        have hrest := length_le_go rest (show rest.length ≤ fuel by omega)
        simp only [List.length_append, List.length_cons, List.length_nil] at hlength
        omega

/-- Encoding leaves exactly the texts in UTF-8 as they are. -/
theorem iff_jsonText : Utf8 s ↔ jsonText s = s :=
  ⟨fun h => h.go_eq_self le_rfl, of_go_eq le_rfl⟩

instance : Decidable (Utf8 s) := decidable_of_iff _ iff_jsonText.symm

end Utf8

/-! ## Checkpoints and branches in memory -/

/-- A checkpoint refers to a stored block and its taint. -/
structure ChainPoint.Sound (E : Env) (l : Ledger) (name : Bytes) (point : ChainPoint) : Prop where
  name_ne : name ≠ []
  unused : point.used = false
  block : ∃ b, l.chain.Mem E b ∧ E.hash b = point.hash ∧ b.number = point.number
  tainted : (l.safetyOf point.hash).tainted = point.tainted

/-- A branch leads from its base to its head, and has the head's taint. -/
structure Branch.Sound (E : Env) (l : Ledger) (name : Bytes) (item : Branch) : Prop where
  name_ne : name ≠ []
  utf8 : Utf8 name
  line : ∃ base head, l.chain.Mem E base ∧ E.hash base = item.base ∧ l.chain.Mem E head ∧
    E.hash head = item.head ∧ base ∈ l.chain.line head
  tainted : (l.safetyOf item.head).tainted = item.tainted

/-- All checkpoints and branches are sound. -/
structure Ledger.ControlSound (E : Env) (l : Ledger) : Prop where
  checkpoints : ∀ {name : Bytes} {point : ChainPoint}, l.checkpoints[name]? = some point → point.Sound E l name
  branches : ∀ {name : Bytes} {item : Branch}, l.branches[name]? = some item → item.Sound E l name

section Keeps

variable {E : Env} {l l' : Ledger} (W : Chain.WellFormed E l.chain) (K : Chain.Keeps E l.chain l'.chain)
include K

theorem Ledger.safetyOf_keeps {b : Block} (hb : l.chain.Mem E b) : l'.safetyOf (E.hash b) = l.safetyOf (E.hash b) := by
  have hsame : l'.blockSafety[E.hash b]? = l.blockSafety[E.hash b]? := K.safety hb
  rw [safetyOf, hsame, safetyOf]

theorem ChainPoint.Sound.keep {name : Bytes} {point : ChainPoint} (h : point.Sound E l name) :
    point.Sound E l' name := by
  obtain ⟨b, hb, hhash, hnumber⟩ := h.block
  refine ⟨h.name_ne, h.unused, ⟨b, K.mem hb, hhash, hnumber⟩, ?_⟩
  rw [← hhash, Ledger.safetyOf_keeps K hb, hhash]
  exact h.tainted

include W in
theorem Branch.Sound.keep {name : Bytes} {item : Branch} (h : item.Sound E l name) : item.Sound E l' name := by
  obtain ⟨base, head, hbase, hbaseHash, hhead, hheadHash, hmem⟩ := h.line
  refine ⟨h.name_ne, h.utf8, ⟨base, head, K.mem hbase, hbaseHash, K.mem hhead, hheadHash, ?_⟩, ?_⟩
  · rw [K.line W hhead]
    exact hmem
  · rw [← hheadHash, Ledger.safetyOf_keeps K hhead, hheadHash]
    exact h.tainted

include W in
/-- Checkpoints and branches stay sound as long as new ones are. -/
theorem Ledger.ControlSound.keep (S : l.ControlSound E)
    (hpoints : ∀ {name : Bytes} {point : ChainPoint}, l'.checkpoints[name]? = some point →
      l.checkpoints[name]? = some point ∨ point.Sound E l' name)
    (hbranches : ∀ {name : Bytes} {item : Branch}, l'.branches[name]? = some item →
      l.branches[name]? = some item ∨ item.Sound E l' name) : l'.ControlSound E where
  checkpoints h := (hpoints h).elim (fun hold => (S.checkpoints hold).keep K) id
  branches h := (hbranches h).elim (fun hold => (S.branches hold).keep W K) id

end Keeps

namespace Env

variable {E : Env} {n n' : Node E.geth.State}

/-- The guard of runs whose branches have names in UTF-8. -/
def utf8Guard (E : Env) : Guard E.geth.State where
  fork := Utf8

theorem controlSound_branch {name : Bytes} {item : Branch} {x : Extension} (hE : E.Lawful) (I : n.toLedger.Inv E)
    (S : n.toLedger.ControlSound E) (named : n.branches[name]? = some item) (p : Planned.OnBranch E n x item)
    (K : Chain.Keeps E n.chain n'.chain) (commit : E.commitPrepared n (E.branchOperation n item x) []
      (.store x.block x.receipts) (E.branchApply n item x) = .ok n') : n'.toLedger.ControlSound E := by
  have W := I.chain.wellFormed
  have hchain := chain_branch hE p commit
  obtain ⟨-, plan, hplan, applied, rfl, rfl⟩ := commitPrepared_spec commit
  obtain rfl : item.name = name := I.named named
  obtain ⟨hname, hutf8, ⟨base, head, hbase, hbaseHash, hhead, hheadHash, hline⟩, -⟩ := S.branches named
  obtain rfl : head = x.parent := hE.blockHash_injective (hheadHash.trans p.head)
  refine S.keep W K (fun hget => .inl hget) fun {name' item'} hget => ?_
  change (n.branches.insert item.name (E.advanceBranch n.toLedger item x))[name']? = some item' at hget
  rw [Store.get_insert] at hget
  split at hget
  · next heq =>
    right
    rw [heq, ← Option.some.inj hget]
    refine ⟨hname, hutf8, ⟨base, x.block, K.mem hbase, hbaseHash, ?_, rfl, ?_⟩, ?_⟩
    · rw [hchain]
      exact (Chain.mem_put hE).mpr (.inr rfl)
    · rw [hchain]
      change base ∈ (n.chain.put E (x.entry false)).line (x.entry false).block
      rw [Chain.line_put_self hE W p.sound]
      exact List.mem_cons_of_mem _ hline
    · change ((n.blockSafety.insert (x.hash E) (x.safety E n.toLedger []))[x.hash E]?.getD {}).tainted = _
      rw [Store.get_insert, if_pos rfl]
      rfl
  · exact .inl hget

theorem controlSound_commitAuxiliary {put : KV} {events : List Event}
    {apply : Node E.geth.State → Node E.geth.State} (I : n.toLedger.Inv E) (S : n.toLedger.ControlSound E)
    (K : Chain.Keeps E n.chain n'.chain) (h : n.commitAuxiliary [put] [] events apply = .ok n')
    (happly : ∀ db, apply { n with db := db } = { apply n with db := db })
    (hpoints : ∀ {name : Bytes} {point : ChainPoint}, (apply n).checkpoints[name]? = some point →
      n.checkpoints[name]? = some point ∨ point.Sound E n.toLedger name)
    (hbranches : ∀ {name : Bytes} {item : Branch}, (apply n).branches[name]? = some item →
      n.branches[name]? = some item ∨ item.Sound E n.toLedger name) : n'.toLedger.ControlSound E := by
  have W := I.chain.wellFormed
  obtain ⟨log, batches, hledger⟩ := commitAuxiliary_ledger h happly
  refine S.keep W K (fun {name point} hget => ?_) fun {name item} hget => ?_
  · rw [hledger] at hget
    exact (hpoints hget).imp_right fun hsound => hsound.keep K
  · rw [hledger] at hget
    exact (hbranches hget).imp_right fun hsound => hsound.keep W K

/-- A move keeps checkpoints and branches sound. -/
theorem Move.controlSound (hE : E.Lawful) (I : n.toLedger.Inv E) (S : n.toLedger.ControlSound E)
    (h : E.Move E.utf8Guard n n') : n'.toLedger.ControlSound E := by
  have W := I.chain.wellFormed
  have K := I.chain.keeps_run hE (h.simulates hE I)
  cases h with
  | mine plan commit =>
    obtain ⟨eplan, -, hext⟩ := extends_mine hE W (planMine_spec hE W plan) commit
    exact S.keep W K (fun hget => .inl (hext.checkpoints ▸ hget)) fun hget => .inl (hext.branches ▸ hget)
  | control plan commit =>
    obtain ⟨eplan, -, hext⟩ := extends_control hE W (planControl_spec hE W plan) commit
    exact S.keep W K (fun hget => .inl (hext.checkpoints ▸ hget)) fun hget => .inl (hext.branches ▸ hget)
  | branch named plan commit => exact controlSound_branch hE I S named (planBranch_spec hE W plan) K commit
  | switch known allowed plan commit =>
    obtain ⟨-, eplan, hplan, applied, rfl, rfl⟩ := commitPrepared_spec commit
    exact S.keep W K .inl .inl
  | note note =>
    cases note with
    | wait pos bound pending commit => exact controlSound_commitAuxiliary I S K commit (fun _ => rfl) .inl .inl
    | issue enqueued pending valid commit => exact controlSound_commitAuxiliary I S K commit (fun _ => rfl) .inl .inl
    | @fork _ name number base tainted name_ne allowed fresh found taint commit =>
      obtain ⟨hbase, -⟩ := I.blockByNumber_eq_some.mp found
      have hmem := I.mem_of_mem_canonicalLine hbase
      refine controlSound_commitAuxiliary I S K commit (fun _ => rfl) .inl fun {name' item} hget => ?_
      change (n.branches.insert name _)[name']? = some item at hget
      rw [Store.get_insert] at hget
      split at hget
      · next heq =>
        rw [heq, ← Option.some.inj hget]
        exact .inr ⟨name_ne, allowed, ⟨base, base, hmem, rfl, hmem, rfl, Ancestry.Tree.self_mem_line base⟩,
          taint.symm⟩
      · exact .inl hget
    | @checkpoint _ name point head name_ne _ current here commit =>
      obtain ⟨hmem, -⟩ := W.mem_of_blocks (Ledger.head_eq_ok.mp current)
      refine controlSound_commitAuxiliary I S K commit (fun _ => rfl) (fun {name' point'} hget => ?_) .inl
      change (n.checkpoints.insert name point)[name']? = some point' at hget
      rw [Store.get_insert] at hget
      split at hget
      · next heq =>
        rw [heq, ← Option.some.inj hget, here]
        exact .inr ⟨name_ne, rfl, ⟨head, hmem, rfl, rfl⟩, rfl⟩
      · exact .inl hget
    | snapshot next current here => exact S.keep W K .inl .inl
    | used known => exact S.keep W K .inl .inl
    | pause allowed running commit => exact controlSound_commitAuxiliary I S K commit (fun _ => rfl) .inl .inl
    | resume allowed paused commit => exact controlSound_commitAuxiliary I S K commit (fun _ => rfl) .inl .inl
  | other same =>
    rw [same]
    exact S

theorem controlSound_newNode (h : E.newNode = .ok n) : n.toLedger.ControlSound E := by
  obtain ⟨projection, record, -, -, hledger⟩ := newNode_spec h
  rw [hledger]
  refine ⟨fun hget => ?_, fun hget => ?_⟩
  · simp [freshLedger] at hget
  · simp [freshLedger] at hget

end Env

/-! ## Loading and validation -/

/-- The checkpoints and branches survive a restart. -/
structure Ledger.ControlReloads (E : Env) (l : Ledger) : Prop where
  loads : loadControlMetadata l.db = .ok (l.checkpoints, l.branches)
  validates : ∀ {chain loaded : Ledger}, chain.db = l.db → loadRuntimeMetadata E chain = .ok loaded →
    loaded.validateControlMetadata E l.checkpoints l.branches = .ok ()

namespace Ledger

variable {E : Env} {l : Ledger}

private theorem loadCheckpoints_eq (M : l.Mirror E) (S : l.ControlSound E) :
    loadCheckpoints l.db = .ok l.checkpoints := by
  refine loadIndex_eq ?_ (fun name => M.entries (.checkpoint name) rfl) fun name point hpoint => ?_
  · intro k name
    cases k <;> simp
  · have hsound := S.checkpoints hpoint
    obtain ⟨hash, number, slot, tainted, used⟩ := point
    obtain rfl : used = false := hsound.unused
    simp [failIf, hsound.name_ne, bind, Except.bind]

private theorem loadBranches_eq (I : l.Inv E) (M : l.Mirror E) (S : l.ControlSound E) :
    loadBranches l.db = .ok l.branches := by
  refine loadIndex_eq ?_ (fun name => M.entries (.branch name) rfl) fun name item hitem => ?_
  · intro k name
    cases k <;> simp
  · have hsound := S.branches hitem
    obtain rfl : item.name = name := I.named hitem
    simp [branchPut, failIf, hsound.name_ne, Utf8.iff_jsonText.mp hsound.utf8, bind, Except.bind]

theorem loadControlMetadata_eq (I : l.Inv E) (M : l.Mirror E) (S : l.ControlSound E) :
    loadControlMetadata l.db = .ok (l.checkpoints, l.branches) := by
  rw [loadControlMetadata, loadCheckpoints_eq M S, loadBranches_eq I M S]
  rfl

section Validation

variable {loaded : Ledger} (I : l.Inv E) (hdb : loaded.db = l.db) (hslots : loaded.slotByHash = l.slotByHash)
  (hsafety : loaded.blockSafety = l.blockSafety)
include I hdb hslots

/-- The walk from a block down to one of its ancestors. -/
theorem validateLineage_eq_ok {name : Bytes} {base : Block} {rounds : Nat} {block : Block} (hb : l.chain.Mem E block)
    (hbase : base ∈ l.chain.line block) (hrounds : block.number ≤ rounds) :
    loaded.validateLineage E name base rounds block = .ok () := by
  have W := I.chain.wellFormed
  have hslot {b : Block} (hb : l.chain.Mem E b) : l.slotByHash[E.hash b]? = some (E.slotAt b.time) :=
    I.chain.timeline.slots hb
  induction rounds generalizing block with
  | zero =>
    obtain rfl := W.tree.eq_root hb (Nat.le_zero.mp hrounds)
    rw [Chain.line, W.tree.line_root, List.mem_singleton] at hbase
    simp [validateLineage, failIf, hbase]
  | succ rounds ih =>
    by_cases hsame : E.hash block = E.hash base
    · simp [validateLineage, hsame]
    · have hroot : block ≠ E.genesis.block := by
        rintro rfl
        rw [Chain.line, W.tree.line_root, List.mem_singleton] at hbase
        exact hsame (by rw [hbase])
      obtain ⟨p, hp, hpm, hnumber, hparent⟩ := W.parent_eq hb hroot
      rw [Chain.line, Ancestry.Tree.line_child hp hnumber, List.mem_cons] at hbase
      have hbelow : base ∈ l.chain.line p := hbase.resolve_left fun heq => hsame (by rw [heq])
      have hle : base.number ≤ p.number := W.tree.le_of_mem_line W.tree.number_lt hpm hbelow
      have hstored : l.db.blockByHash (E.hash p) = some p := hpm
      have hread : l.db.readBlock block.parentHash (block.number - 1) = some p := by
        simp [Db.readBlock, hparent, hstored, hnumber]
      have hlater := I.chain.timeline.increasing hb hroot hp
      have hnot : ¬ (block.number = 0 ∨ block.number ≤ base.number) := by omega
      simp only [validateLineage, if_neg hsame, hslots, hdb, hread, hslot hb, hslot hpm, Option.getD_some]
      rw [failIf, failIf, if_neg hnot, if_neg (by omega)]
      exact ih hpm hbelow (by omega)

include hsafety in
theorem validateCheckpoint_eq_ok (S : l.ControlSound E) {name : Bytes} {point : ChainPoint}
    (hpoint : l.checkpoints[name]? = some point) : loaded.validateCheckpoint name point = .ok () := by
  have W := I.chain.wellFormed
  obtain ⟨-, -, ⟨b, hb, hhash, hnumber⟩, htainted⟩ := S.checkpoints hpoint
  have hstored : l.db.blockByHash point.hash = some b := by rw [← hhash]; exact hb
  have hslot : l.slotByHash[point.hash]? = some (E.slotAt b.time) := by
    rw [← hhash]
    exact I.chain.timeline.slots hb
  have hlate : E.slotAt b.time ≤ point.slot :=
    I.chain.timeline.points hb (.inr ⟨name, point, hpoint, by rw [ChainPoint.place, hhash]⟩)
  obtain ⟨safety, hget⟩ := Option.isSome_iff_exists.mp ((W.safety point.hash).mpr (by
    rw [← hhash]
    exact Option.isSome_of_mem hb))
  have hget : l.blockSafety[point.hash]? = some safety := hget
  rw [safetyOf, hget, Option.getD_some] at htainted
  simp [validateCheckpoint, failIf, hdb, hslots, hsafety, Db.readBlock, hstored, hnumber, hslot, hlate, hget,
    htainted, bind, Except.bind]

include hsafety in
private theorem validateBranch_eq_ok (S : l.ControlSound E) {name : Bytes} {item : Branch}
    (hitem : l.branches[name]? = some item) : loaded.validateBranch E name item = .ok () := by
  have W := I.chain.wellFormed
  obtain ⟨-, -, ⟨base, head, hbase, hbaseHash, hhead, hheadHash, hline⟩, htainted⟩ := S.branches hitem
  have hbaseStored : l.db.blockByHash item.base = some base := by rw [← hbaseHash]; exact hbase
  have hheadStored : l.db.blockByHash item.head = some head := by rw [← hheadHash]; exact hhead
  obtain ⟨safety, hget⟩ := Option.isSome_iff_exists.mp ((W.safety item.head).mpr (by
    rw [← hheadHash]
    exact Option.isSome_of_mem hhead))
  have hget : l.blockSafety[item.head]? = some safety := hget
  rw [safetyOf, hget, Option.getD_some] at htainted
  have hwalk : loaded.validateLineage E name base head.number head = .ok () :=
    validateLineage_eq_ok I hdb hslots hhead hline le_rfl
  simp [validateBranch, orFail, failIf, hdb, hsafety, hbaseStored, hheadStored, hwalk, hget, htainted, bind,
    Except.bind]

include hsafety in
theorem validateControlMetadata_eq_ok (S : l.ControlSound E) :
    loaded.validateControlMetadata E l.checkpoints l.branches = .ok () := by
  have hpoints : l.checkpoints.toList.forM (fun entry => loaded.validateCheckpoint entry.1 entry.2) = .ok () :=
    Except.forM_eq_ok.mpr fun entry hentry =>
      validateCheckpoint_eq_ok I hdb hslots hsafety S (Store.mem_toList.mp hentry)
  have hbranches : l.branches.toList.forM (fun entry => loaded.validateBranch E entry.1 entry.2) = .ok () :=
    Except.forM_eq_ok.mpr fun entry hentry => validateBranch_eq_ok I hdb hslots hsafety S (Store.mem_toList.mp hentry)
  rw [validateControlMetadata, hpoints]
  exact hbranches

end Validation

end Ledger

/-- The branches that an operation creates have names in UTF-8. -/
def Env.NamesUtf8 (E : Env) (_ : Node E.geth.State) (c : Command) : Prop :=
  match c.op with
  | .createBranch name _ => Utf8 name
  | _ => True

instance {E : Env} (n : Node E.geth.State) (c : Command) : Decidable (E.NamesUtf8 n c) := by
  unfold Env.NamesUtf8
  split <;> infer_instance

/-- In every run that creates branches with names in UTF-8 only, checkpoints and branches
survive a restart at any time. -/
theorem reachable_controlReloads {E : Env} (hE : E.Lawful) {n : Node E.geth.State} (h : E.ReachableBy E.NamesUtf8 n) :
    n.toLedger.ControlReloads E := by
  have I := h.inv hE
  have M := h.mirror hE
  have hguarded {n : Node E.geth.State} {c : Command} (hc : E.NamesUtf8 n c) : Env.Guarded E.utf8Guard n c := by
    refine { fork := fun name number hop => ?_ }
    rw [Env.NamesUtf8, hop] at hc
    exact hc
  have S : n.toLedger.ControlSound E :=
    h.invariant (Q := E.utf8Guard) (X := fun n => n.toLedger.ControlSound E) hE hguarded Env.controlSound_newNode
      fun I S hmove => hmove.controlSound hE I S
  refine ⟨Ledger.loadControlMetadata_eq I M S, fun {chain loaded} hdb hloaded => ?_⟩
  obtain ⟨index, hindex⟩ := Ledger.loadCanonicalSlots_ok I
  rw [Ledger.loadRuntimeMetadata_eq I M hdb hindex, Except.ok.injEq] at hloaded
  exact Ledger.validateControlMetadata_eq_ok I (by rw [← hloaded]; exact hdb) (by rw [← hloaded]) (by rw [← hloaded]) S

theorem reachable_controlReloads_reference :
    (Reference.run [⟨.createBranch (text "a") 0, none⟩, ⟨.mineBranch (text "a") 1, none⟩,
      ⟨.checkpoint [255], none⟩]).toLedger.ControlReloads Reference.env :=
  reachable_controlReloads Reference.lawful (Reference.reachableBy_run (by decide +kernel))

/-- A branch whose name is the single byte 255 is created. Its record cannot be read back. -/
theorem not_controlReloads_invalid_name :
    let n := Reference.run []
    (Reference.env.execute n ⟨.createBranch [255] 0, none⟩).2.toBool = true ∧
      ¬ (Reference.env.step n ⟨.createBranch [255] 0, none⟩).toLedger.ControlReloads Reference.env := by
  refine ⟨by decide +kernel, fun h => ?_⟩
  have hfails : (loadControlMetadata (Reference.env.step (Reference.run [])
      ⟨.createBranch [255] 0, none⟩).db).toBool = false := by decide +kernel
  rw [h.loads] at hfails
  cases hfails

end Ethertest
