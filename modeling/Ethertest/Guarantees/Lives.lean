-- SUMMARY: Lives of a node: commands, stops, crashes between database steps, and the nodes that open after them.
import Ethertest.Guarantees.Controller
import Ethertest.Guarantees.Controls
import Ethertest.Guarantees.Crash
import Ethertest.Restart.Exact

/-!
# Lives of a node

A process that runs a node can stop at any time, also in the middle of a commit. The next
process opens the store that the last one left. If it opens, the new node has the ledger of
the old one, before or after the change that was cut off, and only the snapshots and what
was pending are gone. So what holds in every run of one process holds over all lives of a
store.
-/

namespace Ethertest

/-! ## What an opened store is checked for -/

section LoadIndex

variable {K V : Type} [Ord K] [Std.TransOrd K] [Std.LawfulEqOrd K] [DecidableEq K] {select : Key → Option K}
  {decode : K → Value → Except Error V}

variable {a : K}

private theorem readEntry_isSome {index index' : Store K V} {entry : Key × Value} (h : index[a]?.isSome)
    (hread : readEntry select decode index entry = .ok index') : index'[a]?.isSome := by
  unfold readEntry at hread
  split at hread
  · rw [← Except.ok.inj hread]
    exact h
  · simp only [Except.do_ok_iff, Except.ok.injEq] at hread
    obtain ⟨v, -, rfl⟩ := hread
    rw [Store.get_insert]
    split
    · rfl
    · exact h

/-- An index that loads has every entry of the family. -/
theorem isSome_of_loadIndex {db : Db} {loaded : Store K V} (h : loadIndex select decode db = .ok loaded)
    {k : Key} {v : Value} (hget : db.get k = some v) (hselect : select k = some a) : loaded[a]?.isSome := by
  obtain ⟨_, mid, _, hround, hrest⟩ := Except.foldlM_visits (Store.mem_toList.mpr hget) h
  have hmid : mid[a]?.isSome := by
    simp only [hselect, Except.do_ok_iff, Except.ok.injEq] at hround
    obtain ⟨w, -, rfl⟩ := hround
    simp
  exact Except.foldlM_keeps (P := fun index => index[a]?.isSome)
    (fun _ hs hround => readEntry_isSome hs hround) hmid hrest

end LoadIndex

variable {db : Db} {E : Env} {process : E.Process}

theorem readPersistedGenesisMetadata_eq_ok {t : StoredTimeline} :
    readPersistedGenesisMetadata db = .ok t ↔ db.get .stateSchema = some (.version currentMetadataFormat) ∧
      loadTimeline db = .ok t ∧ t.genesisTime ≤ 2 ^ 63 - 1 ∧ ¬ (t.externalGenesis ∧ t.genesisHash = 0) := by
  unfold readPersistedGenesisMetadata
  split
  · next h => simp [h, bind, Except.bind]
  · next version h =>
    simp only [h, Except.do_ok_iff, exists_const, failIf_eq_ok, not_not, not_lt, Except.ok.injEq, Option.some.injEq,
      Value.version.injEq]
    constructor
    · rintro ⟨hversion, _, hload, htime, hhash, rfl⟩
      exact ⟨hversion, hload, htime, hhash⟩
    · rintro ⟨hversion, hload, htime, hhash⟩
      exact ⟨hversion, t, hload, htime, hhash, rfl⟩
  · next v h _ => simp_all [bind, Except.bind]

/-- A block that was stored before is gone from the store, which still has a slot for it. -/
def Db.Lost (before db : Db) : Prop :=
  ∃ hash, (before.blockByHash hash).isSome ∧ (db.get (.blockSlot hash)).isSome ∧ db.blockByHash hash = none

namespace Env

variable {E : Env} {process : E.Process} {n n' : Node E.geth.State}

/-- The projection of the genesis, if it was missing, is written beside the blocks. -/
theorem ensureGenesisProjection_blocks (h : E.ensureGenesisProjection n = .ok n') :
    n'.db.blockByHash = n.db.blockByHash ∧ n'.slotByHash = n.slotByHash := by
  simp only [ensureGenesisProjection, Except.do_ok_iff] at h
  obtain ⟨stored, -, h⟩ := h
  split at h
  · rw [← Except.ok.inj h]
    exact ⟨rfl, rfl⟩
  · simp only [Except.do_ok_iff, Except.ok.injEq] at h
    obtain ⟨record, -, rfl⟩ := h
    refine ⟨funext fun hash => ?_, rfl⟩
    have hget : (n.db.write (Store.puts [(.projection E.genesisHash, .projection record)])).get (.block hash) =
        n.db.get (.block hash) := by
      rw [Db.get_write]
      simp
    simp only [Db.blockByHash, hget]

/-- A store without a block that it has a slot for does not open. -/
theorem openNode_lost {before db db' : Db} {history : History} (hrecover : recoverPreparedOperation db = .ok db')
    (hlost : before.Lost db') : E.openNode process db history ≠ .ok n' := by
  obtain ⟨hash, -, hslot, hgone⟩ := hlost
  intro h
  simp only [openNode, Except.do_ok_iff, Except.unit_ok_iff, Except.mapError_eq_ok] at h
  obtain ⟨-, l, hload, events, -, loaded, -, queue, -, m, hgenesis, hvalid, -⟩ := h
  obtain ⟨hblocks, hsame⟩ := ensureGenesisProjection_blocks hgenesis
  obtain ⟨-, hload⟩ := (initializeRuntimeMetadata_eq_ok hrecover).mp hload
  simp only [loadRuntimeMetadata, Except.do_ok_iff, exists_const, failIf_eq_ok, Except.ok.injEq] at hload
  obtain ⟨timeline, -, -, -, -, index, -, slots, hslots, safety, -, session, -, rfl⟩ := hload
  simp only [Ledger.validateRuntimeMetadata, Except.do_ok_iff, Except.unit_ok_iff, Except.forM_eq_ok, failIf_eq_ok,
    exists_const] at hvalid
  obtain ⟨-, head, -, -, hknown, -⟩ := hvalid
  obtain ⟨v, hv⟩ := Option.isSome_iff_exists.mp hslot
  have hloaded : m.slotByHash[hash]?.isSome := by
    rw [hsame]
    exact isSome_of_loadIndex hslots hv rfl
  obtain ⟨slot, hget⟩ := Option.isSome_iff_exists.mp hloaded
  have hblock := hknown (hash, slot) (Store.mem_toList.mpr hget)
  simp only [Ledger.validateKnownBlock, Except.do_ok_iff, failIf_eq_ok, exists_const, hblocks] at hblock
  exact hblock.1 hgone

/-- A store that opens, opens in the same way once it is recovered. -/
theorem openNode_recovered (hzero : ∀ b, E.hash b ≠ 0) (S : Standing n) {db : Db}
    (hrecover : recoverPreparedOperation db = .ok n.db) (h : E.openNode process db n.history = .ok n') :
    E.openNode process n.db n.history = .ok n' := by
  have hagain : recoverPreparedOperation ({ E.freshLedger with db := n.db, history := n.history } : Ledger).db =
      .ok n.db := recover_of_no_journal S.inv.stored.journal
  rw [openNode, Except.do_ok_iff, Except.unit_ok_iff, Except.do_ok_iff] at h ⊢
  obtain ⟨hchecked, l, hload, hopen⟩ := h
  obtain ⟨hschema, hmetadata⟩ := (initializeRuntimeMetadata_eq_ok hrecover).mp hload
  refine ⟨?_, l, (initializeRuntimeMetadata_eq_ok hagain).mpr ⟨hschema, hmetadata⟩, hopen⟩
  have hgenesis : n.db.canonicalHash 0 = E.genesisHash := by
    have T := S.inv.chain.wellFormed.tree
    obtain ⟨head, hcurrent, hhead⟩ := S.inv.exists_head
    rw [← T.root_number]
    refine S.inv.canonicalHash_of_mem ?_
    rw [Ledger.canonicalLine_eq hcurrent]
    exact T.root_mem_line hhead.1
  have htimeline : loadTimeline n.db = .ok (n.timeline E) := by
    rw [loadTimeline, S.mirror.entries .timeline rfl]
    rfl
  have hne : E.genesisHash ≠ 0 := hzero E.genesis.block
  simp only [checkStoredGenesis, readPersistedGenesisMetadata_eq_ok, Except.do_ok_iff, exists_const, failIf_eq_ok,
    not_not] at hchecked ⊢
  obtain ⟨persisted, ⟨-, -, hbound, -⟩, -, -, htime⟩ := hchecked
  exact ⟨n.timeline E, ⟨hschema, htimeline, htime.trans_le hbound, fun h => hne h.2⟩, hgenesis ▸ hne,
    fun h => h.2 hgenesis.symm, rfl⟩

end Env

/-! ## Commits that are cut off -/

namespace Commit

variable {E : Env} {c : Commit}

variable {receipts : List Receipt}

/-- A block on the head that was stored before and is taken back is lost: its slot stays. -/
theorem lost_discarded {before db : Db} {operation : PreparedOperation} {b : Block}
    (R : Regular E ⟨before, operation, .extend b receipts⟩) {number : Nat}
    (hstored : (before.blockByHash (E.hash b)).isSome) (hslot : (db.get (.blockSlot (E.hash b))).isSome) :
    before.Lost (cancelPreparedOperation operation (discardPreparedTarget (E.hash b) number db)) := by
  have hget (k : Key) (hk : ∀ key, k ≠ .state key) :
      (cancelPreparedOperation operation (discardPreparedTarget (E.hash b) number db)).get k =
        (discardPreparedTarget (E.hash b) number db).get k :=
    (Db.get_write_deletes _ _ _).trans (if_neg (not_mem_rollback R hk))
  refine ⟨E.hash b, hstored, ?_, ?_⟩
  · rw [hget _ (by simp), discard_get, if_neg]
    · exact hslot
    · intro hmem
      rcases mem_discardKeys hmem with ⟨_, h⟩ | ⟨_, h⟩ | h | h <;> cases h
  · have hblock := discard_block (E.hash b) number db
    rw [Db.blockByHash] at hblock ⊢
    rw [hget _ (by simp)]
    exact hblock

/-- A block on the head that was stored before, cut off anywhere. -/
theorem recover_extend_stored (hE : E.Lawful) {before : Db} {operation : PreparedOperation} {b head : Block}
    (R : Regular E ⟨before, operation, .extend b receipts⟩) (kind : operation.kind = .head)
    (oldHead : operation.oldHead = before.headHash) (newHead : operation.newHead = E.hash b)
    (discard : operation.discardTargetOnCancel = true) (current : before.currentBlock = some head)
    (child : b.number = head.number + 1) (hstored : (before.blockByHash (E.hash b)).isSome)
    (hslot : (before.get (.blockSlot (E.hash b))).isSome) (k : Nat) :
    ∃ db, recoverPreparedOperation (crash E.geth ⟨before, operation, .extend b receipts⟩ k) = .ok db ∧
      (db = before ∨ db = after E.geth ⟨before, operation, .extend b receipts⟩ ∨ before.Lost db) := by
  have hne : before.headHash ≠ E.hash b := by
    obtain ⟨head', hcurrent', hhash, -⟩ := R.head
    obtain rfl : head' = head := Option.some.inj (hcurrent'.symm.trans current)
    rw [← hhash]
    intro heq
    rw [hE.blockHash_injective heq] at child
    omega
  -- until the head changes, the operation is taken back
  have hback {db : Db} (hjournal : db.journal = some { operation with version := currentMetadataFormat })
      (hsame : ∀ k, (∀ key, k ≠ .state key) → k ≠ .block (E.hash b) → k ≠ .receipts (E.hash b) →
        db.get k = before.get k) : ∃ db', recoverPreparedOperation db = .ok db' ∧
          (db' = before ∨ db' = after E.geth ⟨before, operation, .extend b receipts⟩ ∨ before.Lost db') := by
    have hhead : db.headHash = before.headHash := headHash_congr (hsame _ (by simp) (by simp) (by simp))
    have hrecover := recover_old db hjournal kind (by rw [hhead, newHead]; exact hne) (by rw [hhead, oldHead])
    rw [discard, if_pos rfl, newHead] at hrecover
    refine ⟨_, hrecover, .inr (.inr (lost_discarded R hstored ?_))⟩
    rw [hsame _ (by simp) (by simp) (by simp)]
    exact hslot
  have hexecution {k : Key} (hk : ∀ key, k ≠ .state key) : (writeJournalPuts operation.executionPuts
      (writePreparedOperation operation before)).get k = before.get k := by
    rw [writeJournalPuts, Db.get_write, lastWrite_execution R.proper.execution hk]
    rfl
  rcases k with _ | _ | _ | _ | _ | k
  · exact ⟨before, recover_of_no_journal R.stored.journal, .inl rfl⟩
  · exact hback rfl fun _ _ _ _ => rfl
  · exact hback rfl fun _ hk _ _ => hexecution hk
  · exact hback rfl fun k hk hblock hreceipts => (get_persistBuiltBlock hblock hreceipts).trans (hexecution hk)
  · refine ⟨_, recover_new _ rfl kind ?_, .inr (.inl rfl)⟩
    rw [newHead]
    exact headHash_setCanonical hE (R.proper.linked b rfl) rfl
  · exact ⟨_, recover_end (by simp [steps, Mutation.steps]), .inr (.inl rfl)⟩

/-- Wherever a commit is cut off, the database recovers to what it was before or to what it
would have been after, or it has lost a block. -/
theorem recover_crash (hE : E.Lawful) (R : c.Regular E) (S : c.Shape E) (hc : c.ContentAddressed)
    (hslots : ∀ h, (c.before.blockByHash h).isSome → (c.before.get (.blockSlot h)).isSome) (k : Nat) :
    ∃ db, recoverPreparedOperation (c.crash E.geth k) = .ok db ∧
      (db = c.before ∨ db = c.after E.geth ∨ c.before.Lost db) := by
  by_cases hatomic : Atomic E c
  · rcases hatomic k with h | h
    · exact ⟨_, h, .inl rfl⟩
    · exact ⟨_, h, .inr (.inl rfl)⟩
  · rw [atomic_iff hE R S hc, not_not] at hatomic
    obtain ⟨hdiscard, hstored⟩ := hatomic
    obtain ⟨before, operation, mutation⟩ := c
    cases S with
    | extend mutation kind oldHead newHead number discard current child =>
      obtain rfl := mutation
      rw [newHead] at hstored
      exact recover_extend_stored hE R kind oldHead newHead discard current child hstored (hslots _ hstored) k
    | store mutation kind target discard fresh => exact absurd (hdiscard.symm.trans discard) (by simp)
    | setHead mutation kind oldHead newHead discard stored => exact absurd (hdiscard.symm.trans discard) (by simp)

end Commit

/-! ## The stores that a process leaves -/

namespace Env

variable {E : Env} {process : E.Process} {n n' : Node E.geth.State}

/-- A change of a node that is committed in several database steps. The state entries that it
writes are addressed by their contents. -/
structure Changes (n n₁ : Node E.geth.State) (c : Commit) : Prop where
  move : E.Move Guard.any n n₁
  recorded : n₁.history.commits = n.history.commits ++ [c]
  content : c.ContentAddressed

/-- The stores that a process with a given node can leave, with the history that goes with
each: it stops between two changes, or in a commit after any number of its database steps.
Then a recovery may have been cut off too, any number of times, or it was completed and
the store did not open. -/
inductive Left (n : Node E.geth.State) : Db → History → Prop
  | stopped : Left n n.db n.history
  | undone {n₁ : Node E.geth.State} {c : Commit} {k : Nat} (change : Changes n n₁ c)
      (back : recoverPreparedOperation (c.crash E.geth k) = .ok n.db) : Left n (c.crash E.geth k) n.history
  | done {n₁ : Node E.geth.State} {c : Commit} {k : Nat} (change : Changes n n₁ c)
      (forth : recoverPreparedOperation (c.crash E.geth k) ≠ .ok n.db) : Left n (c.crash E.geth k) n₁.history
  | interrupted {db db' : Db} {history : History} (left : Left n db history)
      (attempts : Interrupt.Attempts recoveryPlan db db') : Left n db' history
  | recovered {db db' : Db} {history : History} (left : Left n db history)
      (recovery : recoverPreparedOperation db = .ok db') : Left n db' history

variable {db : Db} {history : History}

/-- A store that is left recovers to the database of the node before or after the change, or
has lost a block. -/
theorem Left.recovers (hE : E.Lawful) (S : Standing n) (h : Left n db history) :
    ∃ db', recoverPreparedOperation db = .ok db' ∧
      ((∃ m, (m = n ∨ E.Move Guard.any n m) ∧ history = m.history ∧ db' = m.db) ∨ n.db.Lost db') := by
  induction h with
  | stopped => exact ⟨n.db, recover_of_no_journal S.inv.stored.journal, .inl ⟨n, .inl rfl, rfl, rfl⟩⟩
  | undone change back => exact ⟨n.db, back, .inl ⟨n, .inl rfl, rfl, rfl⟩⟩
  | @done n₁ c k change forth =>
    obtain ⟨move, recorded, content⟩ := change
    obtain ⟨c', hc', hcommits, hafter⟩ := move.recorded.resolve_left fun hsame => by
      rw [hsame] at recorded
      simpa using congrArg List.length recorded
    obtain rfl : c = c' := by simpa using recorded.symm.trans hcommits
    have hslots (h : Hash) (hb : (c.before.blockByHash h).isSome) : (c.before.get (.blockSlot h)).isSome := by
      rw [hc'.before_eq] at hb ⊢
      rw [S.mirror.entries (.blockSlot h) rfl]
      change (n.slotByHash[h]?.map Value.slot).isSome
      rw [Option.isSome_map]
      exact (S.inv.chain.wellFormed.slots h).mpr hb
    obtain ⟨db', hrecover, rfl | rfl | hlost⟩ :=
      Commit.recover_crash hE (hc'.regular hE S.inv) (hc'.shape hE S.inv) content hslots k
    · exact absurd (hc'.before_eq ▸ hrecover) forth
    · exact ⟨_, hrecover, .inl ⟨n₁, .inr move, rfl, hafter.symm⟩⟩
    · exact ⟨db', hrecover, .inr (hc'.before_eq ▸ hlost)⟩
  | interrupted left attempts ih =>
    rw [recover_of_attempts attempts]
    exact ih
  | recovered left recovery ih =>
    rw [recover_of_no_journal (recover_journal recovery), ← recovery]
    exact ih

/-! ## Restarts -/

/-- What a standing node leaves recovers to the database of that node, before or after the change
that was cut off. -/
structure Survives (n : Node E.geth.State) (db : Db) (history : History) (m : Node E.geth.State) : Prop where
  before_or_after : m = n ∨ E.Move Guard.any n m
  standing : Standing m
  history_eq : history = m.history
  recovers : recoverPreparedOperation db = .ok m.db

theorem Standing.left (hE : E.Lawful) (S : Standing n) (left : Left n db history) :
    (∃ m, Survives n db history m) ∨ ∃ db', recoverPreparedOperation db = .ok db' ∧ n.db.Lost db' := by
  obtain ⟨db', hrecover, ⟨m, hm, hhistory, rfl⟩ | hlost⟩ := left.recovers hE S
  · refine .inl ⟨m, hm, ?_, hhistory, hrecover⟩
    rcases hm with rfl | hmove
    · exact S
    · exact hmove.standing hE S
  · exact .inr ⟨db', hrecover, hlost⟩

/-- No block is lost on the way. -/
theorem Survives.not_lost (hE : E.Lawful) (S : Standing n) {m : Node E.geth.State}
    (h : Survives n db history m) : ¬ n.db.Lost m.db := by
  rintro ⟨hash, hstored, -, hgone⟩
  rcases h.before_or_after with rfl | hmove
  · rw [hgone] at hstored
    cases hstored
  · obtain ⟨b, hb⟩ := Option.isSome_iff_exists.mp hstored
    obtain ⟨hmem, rfl⟩ := S.inv.chain.wellFormed.mem_of_blocks hb
    have hkept : m.db.blockByHash (E.hash b) = some b :=
      (S.inv.chain.keeps_run hE (hmove.simulates hE S.inv)).mem hmem
    rw [hgone] at hkept
    cases hkept

/-- A store that a standing node left and that opens. -/
theorem Standing.opened (hE : E.Lawful) (S : Standing n) (left : Left n db history)
    (h : E.openNode process db history = .ok n') : ∃ m, Survives n db history m := by
  rcases S.left hE left with hm | ⟨db', hrecover, hlost⟩
  · exact hm
  · exact absurd h (openNode_lost hrecover hlost)

/-- The nodes of all lives of a store: a fresh node, changes, and nodes that open on a store
that was left. -/
inductive Lives (process : E.Process) : Node E.geth.State → Prop
  | fresh {n : Node E.geth.State} (h : E.newNode = .ok n) : Lives process n
  | move {n n' : Node E.geth.State} (life : Lives process n) (h : E.Move Guard.any n n') : Lives process n'
  | restart {n n' : Node E.geth.State} {db : Db} {history : History} (life : Lives process n)
      (left : Left n db history) (h : E.openNode process db history = .ok n') : Lives process n'

/-- Commands are made of moves. -/
theorem Lives.command (h : Lives process n) (c : Command) : Lives process (E.step n c) := by
  have hmoves := moves_step (E := E) (n := n) (c := c) guarded_any
  generalize E.step n c = n' at hmoves ⊢
  induction hmoves with
  | refl => exact h
  | tail _ hlast ih => exact .move ih hlast

theorem Lives.standing (hE : E.Lawful) (hzero : ∀ b, E.hash b ≠ 0) (h : Lives process n) : Standing n := by
  induction h with
  | fresh h => exact standing_newNode hE h
  | move _ h ih => exact h.standing hE ih
  | restart _ left h ih =>
    obtain ⟨m, -, hm, rfl, hrecover⟩ := ih.opened hE left h
    obtain ⟨candidate, ctx, -, rfl⟩ := openNode_exact hE hzero hm hrecover h
    exact hm.reopened hE rfl

/-- Over all lives of a store: wherever a process is cut off, the store recovers to what it was
before or after the change, and a process that opens it has the ledger of that time, without the
snapshots; or recovery deletes a block that was stored before, and the store does not open. -/
theorem lives_restart (hE : E.Lawful) (hzero : ∀ b, E.hash b ≠ 0) (life : Lives process n)
    (left : Left n db history) :
    ∃ db', recoverPreparedOperation db = .ok db' ∧
      ((∃ m, (m = n ∨ E.Move Guard.any n m) ∧ history = m.history ∧ db' = m.db ∧ ¬ n.db.Lost db' ∧
          ∀ n', E.openNode process db history = .ok n' → ∃ candidate ctx,
            E.pendingCandidate (E.idleNode m.toLedger.reopened) Ctx.background m.pendingExecutionRequests =
              .ok (candidate, ctx) ∧ n' = (E.idleNode m.toLedger.reopened).setPendingView candidate) ∨
        n.db.Lost db' ∧ ∀ n', E.openNode process db history ≠ .ok n') := by
  have S := life.standing hE hzero
  rcases S.left hE left with ⟨m, hm⟩ | ⟨db', hrecover, hlost⟩
  · have hkept := hm.not_lost hE S
    obtain ⟨hnear, hstanding, rfl, hrecover⟩ := hm
    exact ⟨m.db, hrecover, .inl ⟨m, hnear, rfl, rfl, hkept, fun n' h => openNode_exact hE hzero hstanding hrecover h⟩⟩
  · exact ⟨db', hrecover, .inr ⟨hlost, fun n' => openNode_lost hrecover hlost⟩⟩

/-- Mine a block, without the view of the next one. -/
def mineStep (E : Env) (n : Node E.geth.State) : Except Error (Node E.geth.State) := do
  let (x, _) ← E.planMine n none false
  E.commitPrepared n (E.mineOperation n x) (E.mineEvents n x) (.extend x.block x.receipts) (E.mineApply n x)

/-- The commit that a node made last. -/
def lastCommit {σ : Type} (n : Node σ) (h : n.history.commits ≠ []) : Commit := n.history.commits.getLast h

/-- Mining that is cut off and not taken back leaves the crashed database. -/
theorem left_mineStep (h : E.mineStep n = .ok n') (hne : n'.history.commits ≠ []) {k : Nat}
    (hcontent : (lastCommit n' hne).ContentAddressed)
    (hforth : recoverPreparedOperation ((lastCommit n' hne).crash E.geth k) ≠ .ok n.db) :
    Left n ((lastCommit n' hne).crash E.geth k) n'.history := by
  simp only [mineStep, Except.do_ok_iff] at h
  obtain ⟨⟨x, ctx⟩, hplan, hcommit⟩ := h
  obtain ⟨_, -, -, hcommits⟩ := commitPrepared_db (fun _ => mineApply_db) hcommit
  refine .done ⟨.mine hplan hcommit, ?_, hcontent⟩ hforth
  simp [lastCommit, hcommits]

end Env

namespace Reference

/-- The environment with activation times that agree with the configured epochs. -/
def datedEnv : Env := { env with
  genesis := { env.genesis with
    config := { env.config with cancunTime := some 1000, pragueTime := some 1000, osakaTime := some 1000 } } }

theorem datedEnv_lawful : datedEnv.Lawful :=
  { lawful with
    prepare_eq := fun h => (Except.ok.inj h).symm
    setCanonical_get := fun {db target} _ k => setCanonical_get db target k }

/-- The value of a computation that succeeds. -/
@[irreducible]
def valueOf {α : Type} (r : Except Error α) (h : r.toBool = true) : α :=
  match r, h with
  | .ok a, _ => a

theorem eq_valueOf {α : Type} {r : Except Error α} (h : r.toBool = true) : r = .ok (valueOf r h) := by
  unfold valueOf
  split
  rfl

def datedStart : Node Nat := valueOf datedEnv.newNode (by decide +kernel)

def afterFirst : Node Nat := valueOf (datedEnv.mineStep datedStart) (by decide +kernel)

private theorem commits_afterFirst : afterFirst.history.commits ≠ [] := fun h =>
  absurd (congrArg List.length h) (by decide +kernel)

/-- The store when the new block is the head and its metadata is not written. -/
def cutStore : Db := (Env.lastCommit afterFirst commits_afterFirst).crash datedEnv.geth 4

theorem left_cut : Env.Left (E := datedEnv) datedStart cutStore afterFirst.history := by
  refine Env.left_mineStep (E := datedEnv) (eq_valueOf _) commits_afterFirst (by decide +kernel) fun h => ?_
  have hhead : (recoverPreparedOperation cutStore).toOption.map Db.headHash ≠ some datedStart.db.headHash := by
    decide +kernel
  exact hhead (congrArg (fun r => r.toOption.map Db.headHash) h)

/-- No block here has native requests. -/
def reexecute : datedEnv.Process := fun _ _ => .ok none

/-- The node of the next process. -/
def reopened : Node Nat := valueOf (datedEnv.openNode reexecute cutStore afterFirst.history) (by decide +kernel)

/-- The head goes back to the genesis after a block, -/
def returned : Node Nat :=
  [⟨.snapshot, none⟩, ⟨.mine 1 false, none⟩, ⟨.revert 1, none⟩].foldl datedEnv.step datedStart

/-- and the same block is mined again. -/
def minedAgain : Node Nat := valueOf (datedEnv.mineStep returned) (by decide +kernel)

private theorem commits_minedAgain : minedAgain.history.commits ≠ [] := fun h =>
  absurd (congrArg List.length h) (by decide +kernel)

/-- The store when only the journal of that is written. -/
def cutAgain : Db := (Env.lastCommit minedAgain commits_minedAgain).crash datedEnv.geth 1

/-- What recovery leaves of the first block: its slot. -/
theorem lost_cutAgain : ∀ db, recoverPreparedOperation cutAgain = .ok db → returned.db.Lost db := by
  intro db hdb
  have hgone : (recoverPreparedOperation cutAgain).toOption.map (fun db =>
      (db.get (.blockSlot minedAgain.db.headHash)).isSome && (db.blockByHash minedAgain.db.headHash).isNone) =
        some true := by
    decide +kernel
  rw [hdb] at hgone
  have hgone := (Bool.and_eq_true _ _).mp (Option.some.inj hgone)
  exact ⟨minedAgain.db.headHash, by decide +kernel, hgone.1, Option.isNone_iff_eq_none.mp hgone.2⟩

private theorem left_cutAgain : Env.Left (E := datedEnv) returned cutAgain minedAgain.history := by
  refine Env.left_mineStep (E := datedEnv) (eq_valueOf _) commits_minedAgain (by decide +kernel) fun h => ?_
  obtain ⟨hash, hstored, -, hgone⟩ := lost_cutAgain _ h
  rw [hgone] at hstored
  cases hstored

end Reference

open Reference

/-- A block that is cut off on its way comes back; one that was stored before is deleted, and then
the store does not open. -/
theorem lives_restart_reference :
    (∃ m, (m = datedStart ∨ datedEnv.Move Guard.any datedStart m) ∧
      ∃ candidate ctx, datedEnv.pendingCandidate (datedEnv.idleNode m.toLedger.reopened) Ctx.background
          m.pendingExecutionRequests = .ok (candidate, ctx) ∧
        reopened = (datedEnv.idleNode m.toLedger.reopened).setPendingView candidate) ∧
    ∀ n', datedEnv.openNode reexecute cutAgain minedAgain.history ≠ .ok n' := by
  have fresh : Env.Lives reexecute datedStart := .fresh (eq_valueOf _)
  have hopens : datedEnv.openNode reexecute cutStore afterFirst.history = .ok reopened := eq_valueOf _
  constructor
  · obtain ⟨db', -, ⟨m, hm, -, -, -, hopened⟩ | ⟨-, hrefused⟩⟩ :=
      Env.lives_restart datedEnv_lawful blockHash_ne_zero fresh left_cut
    · exact ⟨m, hm, hopened reopened hopens⟩
    · exact absurd hopens (hrefused reopened)
  · have life : Env.Lives reexecute returned := ((fresh.command _).command _).command _
    obtain ⟨db', hrecover, ⟨-, -, -, -, hkept, -⟩ | ⟨-, hrefused⟩⟩ :=
      Env.lives_restart datedEnv_lawful blockHash_ne_zero life left_cutAgain
    · exact absurd (lost_cutAgain db' hrecover) hkept
    · exact hrefused

/-- Over all lives of a store: one that opens after a process was cut off opens again, with the
same node. -/
theorem lives_reopen (hE : E.Lawful) (hzero : ∀ b, E.hash b ≠ 0) {n n' : Node E.geth.State}
    (life : Env.Lives process n) {history : History} (left : Env.Left n db history)
    (h : E.openNode process db history = .ok n') : E.openNode process n'.db n'.history = .ok n' := by
  obtain ⟨m, -, hstanding, rfl, hrecover⟩ := (life.standing hE hzero).opened hE left h
  obtain ⟨candidate, ctx, -, hnode⟩ := Env.openNode_exact hE hzero hstanding hrecover h
  have hagain := Env.openNode_recovered hzero hstanding hrecover h
  rw [hnode] at hagain ⊢
  exact hagain

theorem lives_reopen_reference : datedEnv.openNode reexecute reopened.db reopened.history = .ok reopened :=
  lives_reopen datedEnv_lawful blockHash_ne_zero (.fresh (eq_valueOf _)) left_cut (eq_valueOf _)

/-- In every life of a store, whatever the interleaving of callers: the slot metadata agrees with
the blocks, no control is lost or issued twice, the index of Beacon roots is the one of the
stored projections, and the log has the last events of all lives. -/
theorem lives_coherent (hE : E.Lawful) (hzero : ∀ b, E.hash b ≠ 0) {n : Node E.geth.State}
    (life : Env.Lives process n) {ρ I : Type} [DecidableEq I] {x : E.Serving ρ I}
    (h : Controller.Run (E.controller ρ) { state := n } x) :
    x.state.toLedger.TimelineCoherent E ∧ x.state.toLedger.ControlsConserved E ∧ x.state.toLedger.Reloads E ∧
      Env.Rooted x.state ∧ x.state.events.Retains x.state.toLedger.emitted := by
  have S := (Env.keeps_of_replays (fun hn => hn.command _) life h.linearizes.legal).standing hE hzero
  exact ⟨S.inv.timelineCoherent, S.inv.controlsConserved hE,
    ⟨fun _ hdb => Ledger.metadata_reloads S.inv S.mirror hdb, Ledger.queue_reloads S.inv S.mirror,
      Ledger.queue_valid S.inv⟩,
    S.rooted, (LogRun.invariant (Config.eventCapacity_pos E.accepted) S.logged).2.1⟩

/-- The node that opened after the crash serves a caller that mines a block. -/
theorem lives_coherent_reference : ∃ x : datedEnv.Serving Nat Nat,
    Controller.Run (datedEnv.controller Nat) { state := reopened } x ∧ x.log.map Controller.Entry.caller = [some 0] ∧
    x.state = datedEnv.step reopened ⟨.mine 1 false, none⟩ ∧
    x.state.toLedger.TimelineCoherent datedEnv ∧ x.state.toLedger.ControlsConserved datedEnv ∧
    x.state.toLedger.Reloads datedEnv ∧ Env.Rooted x.state ∧ x.state.events.Retains x.state.toLedger.emitted := by
  have life : Env.Lives reexecute reopened := .restart (.fresh (eq_valueOf _)) left_cut (eq_valueOf _)
  have started : Controller.Run (datedEnv.controller Nat) { state := reopened }
      ({ state := reopened, running := true, writer := .selecting } : datedEnv.Serving Nat Nat) :=
        .single (.start rfl rfl)
  have entered := started.trans (Controller.Run.enters 0 (.write (.mine 1 false)) rfl rfl)
  have h := entered.trans (Controller.Run.serves (M := datedEnv.controller Nat) 0 (.write ⟨.mine 1 false, none⟩) rfl rfl
    ⟨rfl, nofun, fun _ => rfl⟩ (by decide +kernel))
  exact ⟨_, h, rfl, rfl, lives_coherent datedEnv_lawful blockHash_ne_zero life h⟩

end Ethertest
