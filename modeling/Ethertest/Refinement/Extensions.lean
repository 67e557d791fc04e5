-- SUMMARY: The commits that record a block: what they write and what they do to the chain.
import Ethertest.Refinement.Moves

/-!
# Commits of blocks

A mined block and a control block extend the chain, a branch block is recorded beside it.
For each of the three, the metadata it is committed with is given key by key; the chain
after the commit follows from that and from the change in memory.
-/

namespace Ethertest

theorem Store.get_eq_update {K V : Type} [Ord K] [Std.TransOrd K] [Std.LawfulEqOrd K] [DecidableEq K]
    {s s' : Store K V} {k : K} {v : V} (h : s' = s.insert k v) :
    (fun k' => s'[k']?) = Function.update (fun k' => s[k']?) k (some v) := by
  funext k'
  rw [h, Store.get_insert, Function.update_apply]

theorem ite_or {α : Type} {c : Prop} [Decidable c] {a : α} {o : Option α} :
    (if c then some a else none).or o = if c then some a else o := by
  split <;> rfl

/-! ## The database after a block is recorded -/

/-- What recording a block does to the database. -/
structure Db.Records (E : Env) (e : Entry) (db db' : Db) : Prop where
  blocks : db'.blockByHash = Function.update db.blockByHash (e.hash E) (some e.block)
  records : ∀ h, db'.get (.requestRecord h) =
    if e.hash E = h then some (.record e.record) else db.get (.requestRecord h)
  projections : ∀ h, db'.get (.projection h) =
    if e.hash E = h then some (.projection e.projection) else db.get (.projection h)
  controls : ∀ h, (db'.get (.control h)).isSome ↔
    e.control = true ∧ h = e.hash E ∨ (db.get (.control h)).isSome

namespace Db.Records

variable {E : Env} {e : Entry} {db db' : Db} (R : Db.Records E e db db')
include R

theorem record_eq : db'.record = Function.update db.record (e.hash E) (some e.record) := by
  funext h
  rw [Db.record, R.records]
  by_cases heq : h = e.hash E
  · subst heq
    simp
  · rw [if_neg (Ne.symm heq), Function.update_of_ne heq]
    rfl

theorem projection_eq : db'.projection = Function.update db.projection (e.hash E) (some e.projection) := by
  funext h
  rw [Db.projection, R.projections]
  by_cases heq : h = e.hash E
  · subst heq
    simp
  · rw [if_neg (Ne.symm heq), Function.update_of_ne heq]
    rfl

theorem controls_eq : db'.controls = if e.control then insert (e.hash E) db.controls else db.controls := by
  ext h
  rw [Db.controls, Set.mem_ofPred_eq, R.controls]
  cases e.control <;> simp [Db.controls]

end Db.Records

/-- What committing a block on the head does to a ledger. -/
structure Ledger.Extends (E : Env) (e : Entry) (remaining : ExecutionRequestQueue) (batch : List Event)
    (l l' : Ledger) : Prop where
  records : Db.Records E e l.db l'.db
  head : l'.db.headHash = e.hash E
  slot : l'.slot = e.slot
  processed : l'.lastProcessedSlot = e.slot
  slots : l'.slotByHash = l.slotByHash.insert (e.hash E) e.slot
  index : l'.canonicalBlockBySlot = l.canonicalBlockBySlot.insert e.slot (e.hash E)
  safety : l'.blockSafety = l.blockSafety.insert (e.hash E) (e.safety E l.chain)
  session : l'.chain.session = Chain.taint l.chain.session (e.safety E l.chain) e.reasons
  queue : l'.pendingExecutionRequests = remaining
  issued : l'.history.issued = l.history.issued
  batches : l'.history.batches = l.history.batches ++ [batch]
  snapshots : l'.snapshots = l.snapshots
  checkpoints : l'.checkpoints = l.checkpoints
  branches : l'.branches = l.branches

theorem Ledger.Extends.chain_eq {E : Env} {e : Entry} {remaining : ExecutionRequestQueue} {batch : List Event}
    {l l' : Ledger} (h : Ledger.Extends E e remaining batch l l') :
    l'.chain = l.chain.extend E e remaining batch := by
  apply Chain.ext
  case blocks => exact h.records.blocks
  case head => exact h.head
  case slot => exact h.slot
  case processed => exact h.processed
  case slots => exact Store.get_eq_update h.slots
  case index => exact Store.get_eq_update h.index
  case safety => exact Store.get_eq_update h.safety
  case session => exact h.session
  case records => exact h.records.record_eq
  case controls => exact h.records.controls_eq
  case projections => exact h.records.projection_eq
  case queue => exact h.queue
  case issued => exact h.issued
  case points =>
      have hpoints : l'.chain.points = l.chain.points := by simp only [Ledger.chain, h.snapshots, h.checkpoints]
      exact hpoints
  case branches =>
      have hbranches : l'.chain.branches = l.chain.branches := by simp only [Ledger.chain, h.branches]
      exact hbranches
  case batches => exact h.batches

section Extensions

variable {E : Env} {n : Node E.geth.State} {x : Extension} {operation : PreparedOperation} {plan : EventPlan}
  {events : List Event} {mutation : Mutation}

/-- The writes of a commit are of the right kinds. -/
theorem proper_commitOf (hplan : n.events.plan events = .ok plan)
    (hexec : ∀ kv ∈ operation.executionPuts, ∃ key, kv.1 = .state key)
    (hputs : ∀ kv ∈ operation.puts, kv.1.own) (hdeletes : ∀ k ∈ operation.deletes, k.own)
    (hlinked : ∀ b, mutation.head = some b → E.Linked ((commitOf n operation plan mutation).base E.geth) b) :
    (commitOf n operation plan mutation).Proper E where
  execution := hexec
  puts kv hkv := by
    rcases List.mem_append.mp hkv with h | h
    · exact hputs kv h
    · exact (EventLog.own_of_mem_puts hplan h).1
  deletes k hk := by
    rcases List.mem_append.mp hk with h | h
    · exact hdeletes k h
    · exact EventLog.own_of_mem_deletes hplan h
  linked := hlinked

/-- A block that is stored in the commit has its ancestors stored. -/
theorem linked_base (hE : E.Lawful) (W : Chain.WellFormed E n.chain) {e : Entry}
    {queue remaining : ExecutionRequestQueue} (s : e.Sound E n.chain queue remaining)
    (hexec : ∀ kv ∈ operation.executionPuts, ∃ key, kv.1 = .state key) (hblock : mutation.block = some e.block) :
    E.Linked ((commitOf n operation plan mutation).base E.geth) e.block := by
  have hbase : ((commitOf n operation plan mutation).base E.geth).blockByHash = (n.chain.put E e).blocks :=
    Commit.base_blockByHash (c := commitOf n operation plan mutation) hexec hblock
  have htree := Chain.tree_put hE W s
  refine Ledger.linked_of_tree ?_ ?_
  · unfold Db.parent
    rw [hbase]
    exact htree
  · rw [hbase]
    exact (Chain.mem_put hE).mpr (.inr rfl)

/-- A metadata key after a commit. -/
theorem commitOf_get (hE : E.Lawful) (hplan : n.events.plan events = .ok plan)
    (P : (commitOf n operation plan mutation).Proper E) {k : Key} (hk : k.metadata) :
    ((commitOf n operation plan mutation).after E.geth).get k =
      ((Store.lastWrite (Store.deletes operation.deletes) k).or
        (Store.lastWrite (Store.puts operation.puts) k)).getD (n.db.get k) := by
  rw [P.after_get_own hE (Key.own_of_metadata hk)]
  exact congrArg (Option.getD · _) (EventLog.lastWrite_plan hplan hk _ _)

end Extensions

/-! ## The session's reasons -/

variable {set : Store TaintReason Unit} {reasons : List TaintReason} {r : TaintReason}

theorem isSome_addTaintReasons : (addTaintReasons set reasons)[r]?.isSome ↔ r ∈ reasons ∨ set[r]?.isSome := by
  unfold addTaintReasons
  induction reasons generalizing set with
  | nil => simp
  | cons a reasons ih =>
    rw [List.foldl_cons, ih, Store.get_insert, List.mem_cons]
    by_cases h : r = a <;> simp [h]

theorem mem_keys_iff : r ∈ set.keys ↔ set[r]?.isSome := by
  rw [Std.ExtTreeMap.mem_keys, Std.ExtTreeMap.mem_iff_isSome_getElem?]

/-- The session in memory after its stored form was tainted. -/
theorem session_taint {l : Ledger} {safety : BlockSafety} (h : reasons ≠ []) :
    (⟨true, (taintStoredSession l.sessionSafety safety reasons).firstUnsafeBlock,
      { r | (addTaintReasons l.taintReasons
        (taintStoredSession l.sessionSafety safety reasons).reasons)[r]?.isSome }⟩ : Session) =
      Chain.taint l.chain.session safety reasons := by
  rw [Chain.taint, if_neg h]
  refine Session.ext rfl rfl (Set.ext fun r => ?_)
  simp only [Set.mem_ofPred_eq, isSome_addTaintReasons, taintStoredSession, mem_sortReasons, mem_addReasons,
    Ledger.sessionSafety, mem_keys_iff, Set.mem_union, Ledger.chain]
  tauto

/-! ## Mining -/

namespace Env

variable {E : Env} {n n' : Node E.geth.State} {x : Extension}

/-- The metadata that a mined block is committed with. -/
def mineWrites (E : Env) (n : Node E.geth.State) (x : Extension) : Key → Option Value
  | .timeline => some (.timeline (x.timeline E n.toLedger))
  | .sessionSafety => if x.prepared.controlled then some (.session (x.mineSession E n.toLedger)) else none
  | .requestQueue => if x.prepared.controlled then some (.queue x.prepared.remaining) else none
  | .blockSlot h => if x.hash E = h then some (.slot x.slot) else none
  | .canonicalSlot s => if x.slot = s then some (.hash (x.hash E)) else none
  | .blockSafety h => if x.hash E = h then some (.safety (x.safety E n.toLedger x.requestReasons)) else none
  | .projection h => if x.hash E = h then some (.projection x.projection) else none
  | .requestRecord h => if x.hash E = h then some (.record x.prepared.record) else none
  | _ => none

theorem lastWrite_mineOperation {k : Key} (hk : k.metadata) :
    Store.lastWrite (Store.puts (E.mineOperation n x).puts) k = (E.mineWrites n x k).map some := by
  have hblobs : Store.lastWrite (Store.puts (n.blobPuts x.block)) k = none := by
    refine Store.lastWrite_puts_eq_none fun kv hkv heq => ?_
    obtain ⟨tx, -, hkv⟩ := List.mem_filterMap.mp hkv
    obtain ⟨bundle, -, rfl⟩ := Option.map_eq_some_iff.mp hkv
    rw [← heq] at hk
    cases hk
  change Store.lastWrite (Store.puts (_ ++ n.blobPuts x.block ++ _)) k = _
  rw [Store.lastWrite_puts_append, Store.lastWrite_puts_append, hblobs, Option.none_or]
  cases k <;> cases hc : x.prepared.controlled <;>
    simp [mineWrites, hc, timelinePut, blockSlotPut, canonicalSlotPut, blockSafetyPut, sessionSafetyPut,
      apply_ite (Option.map some)]

variable {kv : KV} {changes : ControlChanges} {item : Branch}

theorem own_of_mem_mineOperation (h : kv ∈ (E.mineOperation n x).puts) : kv.1.own ∧ kv.1.Holds kv.2 := by
  change kv ∈ _ ++ n.blobPuts x.block ++ _ at h
  simp only [List.mem_append, List.mem_cons, List.not_mem_nil, or_false] at h
  rcases h with ((rfl | rfl | rfl | rfl | rfl | rfl) | h) | h
  · exact ⟨rfl, trivial⟩
  · exact ⟨rfl, trivial⟩
  · exact ⟨rfl, _, rfl⟩
  · exact ⟨rfl, trivial⟩
  · exact ⟨rfl, _, rfl⟩
  · exact ⟨rfl, _, rfl⟩
  · obtain ⟨tx, -, hkv⟩ := List.mem_filterMap.mp h
    obtain ⟨bundle, -, rfl⟩ := Option.map_eq_some_iff.mp hkv
    exact ⟨rfl, trivial⟩
  · split at h
    · simp only [List.mem_cons, List.not_mem_nil, or_false] at h
      rcases h with rfl | rfl <;> exact ⟨rfl, trivial⟩
    · cases h

theorem entry_reasons_mine {queue : ExecutionRequestQueue} (p : Planned E n x queue false) :
    (x.entry false).reasons = x.requestReasons := by
  cases hc : x.prepared.controlled with
  | true =>
    have hcount := p.controlled.mp hc
    simp [Entry.reasons, Extension.entry, Extension.requestReasons, hc, hcount]
  | false =>
    have hcount : x.prepared.record.controls.count = 0 := by
      by_contra hne
      simp [p.controlled.mpr hne] at hc
    simp [Entry.reasons, Extension.entry, Extension.requestReasons, hc, hcount]

section Mine

variable (hE : E.Lawful) (W : Chain.WellFormed E n.chain) (p : Planned.OnHead E n x false) {plan : EventPlan}
  (hplan : n.events.plan (E.mineEvents n x) = .ok plan)

include hE W p hplan in
theorem proper_mine : (commitOf n (E.mineOperation n x) plan (.extend x.block x.receipts)).Proper E := by
  refine proper_commitOf hplan p.states (fun kv hkv => (own_of_mem_mineOperation hkv).1)
    (fun k hk => by cases hk) fun b hb => ?_
  obtain rfl : x.block = b := Option.some.inj hb
  exact linked_base hE W p.sound p.states rfl

include hE W p hplan in
theorem get_mine {k : Key} (hk : k.metadata) :
    ((commitOf n (E.mineOperation n x) plan (.extend x.block x.receipts)).after E.geth).get k =
      (E.mineWrites n x k).or (n.db.get k) := by
  rw [commitOf_get hE hplan (proper_mine hE W p hplan) hk, lastWrite_mineOperation hk]
  cases E.mineWrites n x k <;> rfl

include hE W p hplan in
theorem records_mine : Db.Records E (x.entry false) n.db
    ((commitOf n (E.mineOperation n x) plan (.extend x.block x.receipts)).after E.geth) where
  blocks := by
    have P := proper_mine hE W p hplan
    rw [P.after_blockByHash hE]
    exact Commit.base_blockByHash P.execution rfl
  records h := by
    rw [get_mine hE W p hplan rfl]
    exact ite_or
  projections h := by
    rw [get_mine hE W p hplan rfl]
    exact ite_or
  controls h := by
    rw [get_mine hE W p hplan rfl]
    simp [Extension.entry, show E.mineWrites n x (.control h) = none from rfl]

include hE W p in
/-- Mining extends the chain. -/
theorem extends_mine (commit : E.commitPrepared n (E.mineOperation n x) (E.mineEvents n x)
    (.extend x.block x.receipts) (E.mineApply n x) = .ok n') :
    ∃ plan, n.events.plan (E.mineEvents n x) = .ok plan ∧
      Ledger.Extends E (x.entry false) x.prepared.remaining plan.events n.toLedger n'.toLedger := by
  obtain ⟨-, plan, hplan, applied, happlied, rfl⟩ := commitPrepared_spec commit
  have hreasons := entry_reasons_mine p.toPlanned
  have hdb : applied.db = (commitOf n (E.mineOperation n x) plan (.extend x.block x.receipts)).after E.geth := by
    rw [happlied, mineApply]
    split <;> rfl
  refine ⟨plan, hplan, ?_⟩
  exact {
    records := by
      rw [hdb]
      exact records_mine hE W p hplan
    head := by
      change applied.db.headHash = _
      rw [hdb, (proper_mine hE W p hplan).after_headHash hE]
      rfl
    slot := by rw [happlied, mineApply]; split <;> rfl
    processed := by rw [happlied, mineApply]; split <;> rfl
    slots := by rw [happlied, mineApply]; split <;> rfl
    index := by rw [happlied, mineApply]; split <;> rfl
    safety := by
      rw [Entry.safety, hreasons, happlied, mineApply]
      split <;> rfl
    session := by
      rw [Entry.safety, hreasons, happlied, mineApply]
      split
      · next hc =>
        have hne : x.requestReasons ≠ [] := by simp [Extension.requestReasons, hc]
        have hsession : x.mineSession E n.toLedger = taintStoredSession n.sessionSafety
            (x.safety E n.toLedger x.requestReasons) x.requestReasons := if_pos hc
        refine Eq.trans ?_ (session_taint hne)
        simp only [Ledger.chain, hsession]
        rfl
      · next hc =>
        rw [Chain.taint, if_pos (by simp [Extension.requestReasons, hc])]
        rfl
    queue := by rw [happlied, mineApply]; split <;> rfl
    issued := by rw [happlied, mineApply]; split <;> rfl
    batches := by rw [happlied, mineApply]; split <;> rfl
    snapshots := by rw [happlied, mineApply]; split <;> rfl
    checkpoints := by rw [happlied, mineApply]; split <;> rfl
    branches := by rw [happlied, mineApply]; split <;> rfl }

end Mine

/-! ## Control blocks -/

/-- The metadata that a control block is committed with. -/
def controlWrites (E : Env) (n : Node E.geth.State) (x : Extension) (changes : ControlChanges) :
    Key → Option Value
  | .timeline => some (.timeline (x.timeline E n.toLedger))
  | .sessionSafety => some (.session (E.controlSession n.toLedger x))
  | .requestQueue => if x.prepared.controlled then some (.queue x.prepared.remaining) else none
  | .control h => if x.hash E = h then some (.control ⟨changes, E.hash x.parent⟩) else none
  | .blockSlot h => if x.hash E = h then some (.slot x.slot) else none
  | .canonicalSlot s => if x.slot = s then some (.hash (x.hash E)) else none
  | .blockSafety h => if x.hash E = h then some (.safety (x.safety E n.toLedger (controlReasons x))) else none
  | .projection h => if x.hash E = h then some (.projection x.projection) else none
  | .requestRecord h => if x.hash E = h then some (.record x.prepared.record) else none
  | _ => none

theorem lastWrite_controlOperation (k : Key) :
    Store.lastWrite (Store.puts (E.controlOperation n x changes).puts) k =
      (E.controlWrites n x changes k).map some := by
  change Store.lastWrite (Store.puts (_ ++ _)) k = _
  rw [Store.lastWrite_puts_append]
  cases k <;> cases hc : x.prepared.controlled <;>
    simp [controlWrites, hc, timelinePut, blockSlotPut, canonicalSlotPut, blockSafetyPut, sessionSafetyPut,
      apply_ite (Option.map some)]

theorem own_of_mem_controlOperation (h : kv ∈ (E.controlOperation n x changes).puts) :
    kv.1.own ∧ kv.1.Holds kv.2 := by
  change kv ∈ _ ++ _ at h
  simp only [List.mem_append, List.mem_cons, List.not_mem_nil, or_false] at h
  rcases h with (rfl | rfl | rfl | rfl | rfl | rfl | rfl | rfl) | h
  · exact ⟨rfl, trivial⟩
  · exact ⟨rfl, trivial⟩
  · exact ⟨rfl, trivial⟩
  · exact ⟨rfl, _, rfl⟩
  · exact ⟨rfl, trivial⟩
  · exact ⟨rfl, trivial⟩
  · exact ⟨rfl, _, rfl⟩
  · exact ⟨rfl, _, rfl⟩
  · split at h
    · rw [List.mem_singleton.mp h]
      exact ⟨rfl, trivial⟩
    · cases h

section Control

variable (hE : E.Lawful) (W : Chain.WellFormed E n.chain) (p : Planned.OnHead E n x true) {plan : EventPlan}
  {changes : ControlChanges} (hplan : n.events.plan (E.controlEvents n x) = .ok plan)

include hE W p hplan in
theorem proper_control :
    (commitOf n (E.controlOperation n x changes) plan (.extend x.block x.receipts)).Proper E := by
  refine proper_commitOf hplan p.states (fun kv hkv => (own_of_mem_controlOperation hkv).1)
    (fun k hk => by cases hk) fun b hb => ?_
  obtain rfl : x.block = b := Option.some.inj hb
  exact linked_base hE W p.sound p.states rfl

include hE W p hplan in
theorem get_control {k : Key} (hk : k.metadata) :
    ((commitOf n (E.controlOperation n x changes) plan (.extend x.block x.receipts)).after E.geth).get k =
      (E.controlWrites n x changes k).or (n.db.get k) := by
  rw [commitOf_get hE hplan (proper_control hE W p hplan) hk, lastWrite_controlOperation]
  cases E.controlWrites n x changes k <;> rfl

include hE W p hplan in
theorem records_control : Db.Records E (x.entry true) n.db
    ((commitOf n (E.controlOperation n x changes) plan (.extend x.block x.receipts)).after E.geth) where
  blocks := by
    have P : (commitOf n (E.controlOperation n x changes) plan (.extend x.block x.receipts)).Proper E :=
      proper_control hE W p hplan
    rw [P.after_blockByHash hE]
    exact Commit.base_blockByHash P.execution rfl
  records h := by
    rw [get_control hE W p hplan rfl]
    exact ite_or
  projections h := by
    rw [get_control hE W p hplan rfl]
    exact ite_or
  controls h := by
    rw [get_control hE W p hplan rfl, controlWrites, ite_or]
    by_cases heq : x.hash E = h
    · simp [heq, Extension.entry, Entry.hash]
    · simp [heq, Ne.symm heq, Extension.entry, Entry.hash]

private theorem entry_reasons_control {queue : ExecutionRequestQueue} (p : Planned E n x queue true) :
    (x.entry true).reasons = controlReasons x := by
  cases hc : x.prepared.controlled with
  | true =>
    have hcount := p.controlled.mp hc
    simp [Entry.reasons, Extension.entry, controlReasons, Extension.requestReasons, hc, hcount]
  | false =>
    have hcount : x.prepared.record.controls.count = 0 := by
      by_contra hne
      simp [p.controlled.mpr hne] at hc
    simp [Entry.reasons, Extension.entry, controlReasons, Extension.requestReasons, hc, hcount]

include hE W p in
/-- Controlling extends the chain. -/
theorem extends_control (commit : E.commitPrepared n (E.controlOperation n x changes) (E.controlEvents n x)
    (.extend x.block x.receipts) (E.controlApply n x) = .ok n') :
    ∃ plan, n.events.plan (E.controlEvents n x) = .ok plan ∧
      Ledger.Extends E (x.entry true) x.prepared.remaining plan.events n.toLedger n'.toLedger := by
  obtain ⟨-, plan, hplan, applied, rfl, rfl⟩ := commitPrepared_spec commit
  have hreasons := entry_reasons_control p.toPlanned
  refine ⟨plan, hplan, ?_⟩
  exact {
    records := records_control hE W p hplan
    head := (proper_control hE W p hplan).after_headHash hE
    slot := rfl
    processed := rfl
    slots := rfl
    index := rfl
    safety := by
      rw [Entry.safety, hreasons]
      rfl
    session := by
      rw [Entry.safety, hreasons]
      exact session_taint (by simp [controlReasons])
    queue := rfl
    issued := rfl
    batches := rfl
    snapshots := rfl
    checkpoints := rfl
    branches := rfl }

end Control

/-! ## Branch blocks -/

/-- The metadata that a branch block is committed with. -/
def branchWrites (E : Env) (n : Node E.geth.State) (item : Branch) (x : Extension) : Key → Option Value
  | .blockSlot h => if x.hash E = h then some (.slot x.slot) else none
  | .blockSafety h => if x.hash E = h then some (.safety (x.safety E n.toLedger [])) else none
  | .projection h => if x.hash E = h then some (.projection x.projection) else none
  | .requestRecord h => if x.hash E = h then some (.record x.prepared.record) else none
  | .branch name => if item.name = name then some (branchPut (E.advanceBranch n.toLedger item x)).2 else none
  | _ => none

theorem lastWrite_branchOperation (k : Key) :
    Store.lastWrite (Store.puts (E.branchOperation n item x).puts) k = (E.branchWrites n item x k).map some := by
  change Store.lastWrite (Store.puts [_, _, _, _, _]) k = _
  cases k <;>
    simp [branchWrites, branchPut, advanceBranch, blockSlotPut, blockSafetyPut, apply_ite (Option.map some)]

theorem own_of_mem_branchOperation (h : kv ∈ (E.branchOperation n item x).puts) :
    kv.1.own ∧ kv.1.Holds kv.2 := by
  change kv ∈ [_, _, _, _, _] at h
  simp only [List.mem_cons, List.not_mem_nil, or_false] at h
  rcases h with rfl | rfl | rfl | rfl | rfl
  · exact ⟨rfl, trivial⟩
  · exact ⟨rfl, trivial⟩
  · exact ⟨rfl, _, rfl⟩
  · exact ⟨rfl, _, rfl⟩
  · exact ⟨rfl, trivial⟩

section Branch

variable (hE : E.Lawful) {item : Branch} (p : Planned.OnBranch E n x item) {plan : EventPlan}
  (hplan : n.events.plan [] = .ok plan)

include p hplan in
theorem proper_branch : (commitOf n (E.branchOperation n item x) plan (.store x.block x.receipts)).Proper E :=
  proper_commitOf hplan p.states (fun kv hkv => (own_of_mem_branchOperation hkv).1)
    (fun k hk => by cases hk) fun b hb => by cases hb

include hE p hplan in
theorem get_branch {k : Key} (hk : k.metadata) :
    ((commitOf n (E.branchOperation n item x) plan (.store x.block x.receipts)).after E.geth).get k =
      (E.branchWrites n item x k).or (n.db.get k) := by
  rw [commitOf_get hE hplan (proper_branch p hplan) hk, lastWrite_branchOperation]
  cases E.branchWrites n item x k <;> rfl

include hE p hplan in
theorem records_branch : Db.Records E (x.entry false) n.db
    ((commitOf n (E.branchOperation n item x) plan (.store x.block x.receipts)).after E.geth) where
  blocks := by
    have P := proper_branch p hplan
    rw [P.after_blockByHash hE]
    exact Commit.base_blockByHash P.execution rfl
  records h := by
    rw [get_branch hE p hplan rfl]
    exact ite_or
  projections h := by
    rw [get_branch hE p hplan rfl]
    exact ite_or
  controls h := by
    rw [get_branch hE p hplan rfl]
    simp [Extension.entry, show E.branchWrites n item x (.control h) = none from rfl]

/-- A branch block brings no reasons of its own. -/
theorem entry_reasons_branch (p : Planned.OnBranch E n x item) : (x.entry false).reasons = [] := by
  obtain ⟨_, _, prepared, hp, -, hrec, -, -⟩ := p.sound.prepared
  have hcount : (x.entry false).record.controls.count = 0 := by
    rw [ExecutionRequestControlSet.count_eq_zero]
    intro t
    have hsplit := hp.split t
    rw [hrec] at hsplit
    cases t <;> exact (List.append_eq_nil_iff.mp hsplit).1
  rw [Entry.reasons, hcount]
  rfl

include hE p in
/-- A branch block is recorded beside the canonical chain. -/
theorem chain_branch (commit : E.commitPrepared n (E.branchOperation n item x) [] (.store x.block x.receipts)
    (E.branchApply n item x) = .ok n') :
    n'.chain = { n.chain.put E (x.entry false) with
      branches := Function.update n.chain.branches item.name (some (x.hash E))
      batches := n.chain.batches ++ [[]] } := by
  obtain ⟨-, plan, hplan, applied, rfl, rfl⟩ := commitPrepared_spec commit
  have R := records_branch hE p hplan
  have hbatch : plan.events = [] := by
    simpa using EventLog.plan_events hplan
  have hhead := (proper_branch p hplan).after_headHash hE
  apply Chain.ext
  case blocks => exact R.blocks
  case head => exact hhead
  case slot => rfl
  case processed => rfl
  case slots => exact Store.get_eq_update rfl
  case index => rfl
  case safety =>
      rw [Chain.put, Entry.safety, entry_reasons_branch p]
      exact Store.get_eq_update rfl
  case session => rfl
  case records => exact R.record_eq
  case controls => exact R.controls_eq
  case projections => exact R.projection_eq
  case queue => rfl
  case issued => rfl
  case points => rfl
  case branches =>
      funext name
      change ((n.branches.insert item.name _)[name]?).map _ =
        Function.update n.chain.branches item.name (some (x.hash E)) name
      rw [Store.get_insert, Function.update_apply]
      split <;> rfl
  case batches =>
      change _ ++ [plan.events] = _
      rw [hbatch]
      rfl

end Branch

end Env

end Ethertest
