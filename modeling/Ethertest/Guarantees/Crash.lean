-- SUMMARY: When a crash in the middle of a commit leaves no trace, and the case in which it loses a block.
import Ethertest.Guarantees.Recovery
import Ethertest.Refinement.Canonical
import Ethertest.Refinement.History

/-!
# Crashes

A commit can be cut off between any two of its database steps. Recovery at the next start
then completes the operation or takes it back. Taking back a block on the head deletes the
block, which is right if the commit was the first to store it. If the same block was stored
before (mined, abandoned and mined again), recovery deletes what it has not written.
-/

namespace Ethertest

/-! ## Recovery by cases -/

section Cases

variable (db : Db) {operation : PreparedOperation}
  (hjournal : db.journal = some { operation with version := currentMetadataFormat })
include hjournal

theorem recover_new (hkind : operation.kind = .head) (hhead : db.headHash = operation.newHead) :
    recoverPreparedOperation db = .ok (finalizePreparedOperation operation db) := by
  simp only [recoverPreparedOperation, hjournal, hkind, failIf, ne_eq, not_true_eq_false, if_false, hhead, if_true,
    bind, Except.bind]
  rfl

theorem recover_old (hkind : operation.kind = .head) (hnew : db.headHash ≠ operation.newHead)
    (hold : db.headHash = operation.oldHead) :
    recoverPreparedOperation db = .ok (cancelPreparedOperation operation
      (if operation.discardTargetOnCancel then discardPreparedTarget operation.newHead operation.targetNumber db
      else db)) := by
  rw [hold] at hnew
  simp only [recoverPreparedOperation, hjournal, hkind, failIf, ne_eq, not_true_eq_false, if_false, hnew, hold, if_true,
    bind, Except.bind]
  rfl

theorem recover_present (hkind : operation.kind = .block)
    (hblock : (db.blockByHash operation.targetBlock).isSome) :
    recoverPreparedOperation db = .ok (finalizePreparedOperation operation db) := by
  simp only [recoverPreparedOperation, hjournal, hkind, failIf, ne_eq, not_true_eq_false, if_false, hblock, if_true,
    bind, Except.bind]
  rfl

theorem recover_absent (hkind : operation.kind = .block) (hblock : db.blockByHash operation.targetBlock = none) :
    recoverPreparedOperation db = .ok (cancelPreparedOperation operation
      (if operation.targetBlock ≠ 0 then discardPreparedTarget operation.targetBlock operation.targetNumber db
      else db)) := by
  simp only [recoverPreparedOperation, hjournal, hkind, failIf, ne_eq, not_true_eq_false, if_false, hblock,
    Option.isSome_none, Bool.false_eq_true, bind, Except.bind]
  rfl

end Cases

theorem recover_of_no_journal {db : Db} (h : db.journal = none) : recoverPreparedOperation db = .ok db := by
  rw [recoverPreparedOperation, h]

/-! ## Taking back -/

/-- Deleting what was not there before restores the database. -/
theorem cancel_eq {before db : Db} {operation : PreparedOperation} (hjournal : before.journal = none)
    (hkept : ∀ k ∉ operation.rollbackDeletes, db.get k = before.get k)
    (hnew : ∀ k ∈ operation.rollbackDeletes, before.get k = none) : cancelPreparedOperation operation db = before := by
  refine Db.ext_get (fun k => ?_) hjournal.symm
  change (db.write (Store.deletes operation.rollbackDeletes)).get k = _
  rw [Db.get_write_deletes]
  split
  · next h => exact (hnew k h).symm
  · next h => exact hkept k h

/-- Discarding a block that was not there before restores what was. `db` may hold the block, its
receipts and state entries with keys in `R` on top of `before`. -/
theorem discard_restores {before db : Db} {hash : Hash} {number : Nat} {R : List Key}
    (hR : ∀ k ∈ R, ∃ key, k = .state key)
    (hagree : ∀ k ∉ R, k ≠ .block hash → k ≠ .receipts hash → db.get k = before.get k)
    (hblock : before.get (.block hash) = none) (hreceipts : before.get (.receipts hash) = none)
    (hcanonical : before.canonicalHash number = hash → before.get (.canonicalHash number) = none)
    (hlookups : db.readBlock hash number = none ∨ ∀ tx, before.txLookup tx ≠ some number) :
    ∀ k ∉ R, (discardPreparedTarget hash number db).get k = before.get k := by
  have hsame {k : Key} (hk : k.canonical) : db.get k = before.get k := by
    refine hagree k (fun hmem => ?_) ?_ ?_
    · obtain ⟨key, rfl⟩ := hR k hmem
      cases hk
    · rintro rfl
      cases hk
    · rintro rfl
      cases hk
  have hcanonicalHash : db.canonicalHash number = before.canonicalHash number := by
    rw [Db.canonicalHash, hsame rfl]
    rfl
  intro k hk
  rw [discard_get]
  split
  · next hmem =>
    simp only [discardKeys, List.mem_append, List.mem_cons, List.not_mem_nil, or_false] at hmem
    rcases hmem with (hmem | hmem) | rfl | rfl
    · -- a lookup entry of the target has the target's number
      split at hmem
      · next block hread =>
        obtain ⟨tx, htx, rfl⟩ := List.mem_map.mp hmem
        have hlookup : db.txLookup tx.hash = some number := by simpa using (List.mem_filter.mp htx).2
        rw [Db.txLookup, hsame rfl] at hlookup
        rcases hlookups with hnone | hnone
        · rw [hread] at hnone
          cases hnone
        · exact absurd hlookup (hnone tx.hash)
      · cases hmem
    · split at hmem
      · next heq =>
        obtain rfl := List.mem_singleton.mp hmem
        exact (hcanonical (hcanonicalHash ▸ heq)).symm
      · cases hmem
    · exact hreceipts.symm
    · exact hblock.symm
  · next hmem =>
    refine hagree k hk ?_ ?_
    · rintro rfl
      exact hmem (by simp [discardKeys])
    · rintro rfl
      exact hmem (by simp [discardKeys])

/-! ## Crash points -/

namespace Commit

variable {E : Env} {c : Commit}

/-- A state entry that the commit writes and that is already there has the same value. -/
def ContentAddressed (c : Commit) : Prop :=
  ∀ kv ∈ c.operation.executionPuts, ∀ v, c.before.get kv.1 = some v → v = kv.2

private theorem contentAddressed_iff : c.ContentAddressed ↔
    ∀ kv ∈ c.operation.executionPuts, c.before.get kv.1 = none ∨ c.before.get kv.1 = some kv.2 := by
  refine forall₂_congr fun kv _ => ?_
  cases c.before.get kv.1 with
  | none => simp
  | some v => simp

instance (c : Commit) : Decidable c.ContentAddressed := decidable_of_iff _ contentAddressed_iff.symm

/-- What is common to the commits that a node makes. -/
structure Regular (E : Env) (c : Commit) : Prop where
  proper : c.Proper E
  stored : c.before.Stored E
  rollback : c.operation.rollbackDeletes = (executionPutsForJournal c.before c.operation.executionPuts).2
  head : ∃ head, c.before.currentBlock = some head ∧ E.hash head = c.before.headHash ∧
    ∀ b ∈ c.before.line head, b.number ≤ head.number ∧ c.before.blockByHash (E.hash b) = some b

/-- The three kinds of commits: a block on the head, a block beside it, and a switch. -/
inductive Shape (E : Env) (c : Commit) : Prop
  | extend {b : Block} {receipts : List Receipt} {head : Block} (mutation : c.mutation = .extend b receipts)
      (kind : c.operation.kind = .head) (oldHead : c.operation.oldHead = c.before.headHash)
      (newHead : c.operation.newHead = E.hash b) (number : c.operation.targetNumber = b.number)
      (discard : c.operation.discardTargetOnCancel = true) (current : c.before.currentBlock = some head)
      (child : b.number = head.number + 1) : Shape E c
  | store {b : Block} {receipts : List Receipt} (mutation : c.mutation = .store b receipts)
      (kind : c.operation.kind = .block) (target : c.operation.targetBlock = E.hash b)
      (discard : c.operation.discardTargetOnCancel = false)
      (fresh : c.before.blockByHash (E.hash b) = none) : Shape E c
  | setHead {target : Block} (mutation : c.mutation = .setHead target)
      (kind : c.operation.kind = .head) (oldHead : c.operation.oldHead = c.before.headHash)
      (newHead : c.operation.newHead = E.hash target) (discard : c.operation.discardTargetOnCancel = false)
      (stored : c.before.blockByHash (E.hash target) = some target) : Shape E c

section Rollback

variable (R : c.Regular E)
include R

variable {k : Key} {db : Db} {hash : Hash} {number : Nat}

theorem mem_rollback : k ∈ c.operation.rollbackDeletes ↔
    (∃ v, (k, v) ∈ c.operation.executionPuts) ∧ c.before.get k = none := by
  rw [R.rollback, executionPutsForJournal, List.mem_filter]
  simp [Db.has]

theorem rollback_state : ∀ k ∈ c.operation.rollbackDeletes, ∃ key, k = .state key := by
  intro k hk
  obtain ⟨⟨v, hv⟩, -⟩ := (mem_rollback R).mp hk
  exact R.proper.execution _ hv

/-- The state entries on top of what was there. -/
theorem get_writeJournalPuts (hc : c.ContentAddressed) (hdb : ∀ k, db.get k = c.before.get k)
    (hk : k ∉ c.operation.rollbackDeletes) :
    (writeJournalPuts c.operation.executionPuts db).get k = c.before.get k := by
  rw [writeJournalPuts, Db.get_write, hdb]
  cases hlast : Store.lastWrite (Store.puts c.operation.executionPuts) k with
  | none => rfl
  | some written =>
    cases written with
    | none => exact absurd hlast (Store.lastWrite_puts_ne_none _ _)
    | some v =>
      have hmem := Store.mem_of_lastWrite_puts hlast
      cases hget : c.before.get k with
      | none => exact absurd ((mem_rollback R).mpr ⟨⟨v, hmem⟩, hget⟩) hk
      | some v' => rw [Option.getD_some, hc _ hmem v' hget]

/-- Nothing that belongs to a block which is not stored is in the database. -/
theorem absent (h : c.before.blockByHash hash = none) :
    c.before.get (.block hash) = none ∧ c.before.get (.receipts hash) = none := by
  constructor
  · cases hget : c.before.get (.block hash) with
    | none => rfl
    | some v =>
      obtain ⟨b, rfl⟩ := R.stored.typed hget
      simp [Db.blockByHash, hget] at h
  · have := R.stored.receipts hash
    rw [h] at this
    simpa using this

/-- A canonical block is stored. -/
theorem canonicalHash_absent (h : c.before.blockByHash hash = none)
    (heq : c.before.canonicalHash number = hash) : c.before.get (.canonicalHash number) = none := by
  obtain ⟨head, hcurrent, -, hline⟩ := R.head
  have hget := R.stored.canonical hcurrent (.canonicalHash number) rfl
  rw [hget]
  cases hfind : (c.before.line head).find? fun b => b.number = number with
  | none => simp [Env.canonicalEntry, hfind]
  | some b =>
    have hhash : c.before.canonicalHash number = E.hash b := by
      rw [Db.canonicalHash, hget]
      simp [Env.canonicalEntry, hfind]
    rw [← heq, hhash, (hline b (List.mem_of_find?_eq_some hfind)).2] at h
    cases h

/-- Lookup entries have the numbers of canonical blocks. -/
theorem txLookup_ne {head : Block} (hcurrent : c.before.currentBlock = some head)
    (hlt : head.number < number) (tx : Hash) : c.before.txLookup tx ≠ some number := by
  obtain ⟨head', hcurrent', -, hline⟩ := R.head
  obtain rfl : head' = head := Option.some.inj (hcurrent'.symm.trans hcurrent)
  intro h
  rw [Db.txLookup, R.stored.canonical hcurrent (.txLookup tx) rfl] at h
  cases hfind : (c.before.line head').find? fun b => b.transactions.any fun t => t.hash = tx with
  | none => simp [Env.canonicalEntry, hfind] at h
  | some b =>
    have hnumber : b.number = number := by simpa [Env.canonicalEntry, hfind] using h
    have := (hline b (List.mem_of_find?_eq_some hfind)).1
    omega

/-- A database with only state entries on top of `before`, and perhaps the target and its
receipts, is taken back to `before`. -/
theorem cancel_discard (hfresh : c.before.blockByHash hash = none)
    (hagree : ∀ k ∉ c.operation.rollbackDeletes, k ≠ .block hash → k ≠ .receipts hash → db.get k = c.before.get k)
    (hlookups : db.readBlock hash number = none ∨ ∀ tx, c.before.txLookup tx ≠ some number) :
    cancelPreparedOperation c.operation (discardPreparedTarget hash number db) = c.before := by
  obtain ⟨hblock, hreceipts⟩ := absent R hfresh
  refine cancel_eq R.stored.journal ?_ fun k hk => ((mem_rollback R).mp hk).2
  exact discard_restores (rollback_state R) hagree hblock hreceipts (canonicalHash_absent R hfresh) hlookups

end Rollback

/-- Wherever the commit is cut off, recovery leaves the database as it was before or as the commit
would have left it. -/
def Atomic (E : Env) (c : Commit) : Prop :=
  ∀ k, recoverPreparedOperation (c.crash E.geth k) = .ok c.before ∨
    recoverPreparedOperation (c.crash E.geth k) = .ok (c.after E.geth)

variable {G : Geth} {k : Key}

/-- After the last step there is nothing to recover. -/
theorem recover_end {k : Nat} (h : (c.steps G).length ≤ k) :
    recoverPreparedOperation (c.crash G k) = .ok (c.after G) := by
  rw [crash, List.take_of_length_le h]
  exact recover_of_no_journal (after_journal _ _)

/-- A reading that agrees on the head entry has the same head. -/
theorem headHash_congr {db db' : Db} (h : db.get .headBlock = db'.get .headBlock) : db.headHash = db'.headHash := by
  rw [Db.headHash, h]
  rfl

theorem not_mem_rollback (R : c.Regular E) (hk : ∀ key, k ≠ .state key) : k ∉ c.operation.rollbackDeletes :=
  fun hmem => by
    obtain ⟨key, hkey⟩ := rollback_state R k hmem
    exact hk key hkey

theorem get_persistBuiltBlock {b : Block} {receipts : List Receipt} {db : Db}
    (hblock : k ≠ .block (G.blockHash b)) (hreceipts : k ≠ .receipts (G.blockHash b)) :
    (persistBuiltBlock G b receipts db).get k = db.get k := by
  rw [persistBuiltBlock, Db.get_write]
  simp [Store.lastWrite, Store.Write.key, hblock.symm, hreceipts.symm]

section Points

variable {before : Db} {operation : PreparedOperation}

variable {b : Block} {receipts : List Receipt}

/-- The head after `SetCanonical`. -/
theorem headHash_setCanonical (hE : E.Lawful) {db db' : Db} (hlinked : E.Linked db b)
    (hentries : db'.entries = db.entries) : (setCanonical E.geth b db').headHash = E.hash b := by
  obtain ⟨rest, hrest⟩ := Ancestry.Tree.line_eq_cons db.parent Block.number b
  have hhead : (setCanonical E.geth b db').get .headBlock = some (.hash (E.hash b)) := by
    change (E.geth.setCanonical db'.entries b)[Key.headBlock]? = _
    have hcanonical : Key.headBlock.canonical = true := rfl
    rw [hentries, hE.setCanonical_get hlinked, if_pos hcanonical]
    simp [Env.canonicalEntry, Db.line, hrest]
  rw [Db.headHash, hhead]

/-- A block on the head that was not stored before. -/
theorem atomic_extend (hE : E.Lawful) {head : Block} (R : Regular E ⟨before, operation, .extend b receipts⟩)
    (hc : ContentAddressed ⟨before, operation, .extend b receipts⟩) (kind : operation.kind = .head)
    (oldHead : operation.oldHead = before.headHash) (newHead : operation.newHead = E.hash b)
    (number : operation.targetNumber = b.number) (discard : operation.discardTargetOnCancel = true)
    (current : before.currentBlock = some head) (child : b.number = head.number + 1)
    (fresh : before.blockByHash (E.hash b) = none) : Atomic E ⟨before, operation, .extend b receipts⟩ := by
  have hne : before.headHash ≠ E.hash b := by
    intro heq
    rw [Db.currentBlock, heq, fresh] at current
    cases current
  have hlookups : ∀ tx, before.txLookup tx ≠ some b.number := txLookup_ne R current (by omega)
  -- until the head changes, the operation is taken back
  have hback {db : Db} (hjournal : db.journal = some { operation with version := currentMetadataFormat })
      (hagree : ∀ k ∉ operation.rollbackDeletes, k ≠ .block (E.hash b) → k ≠ .receipts (E.hash b) →
        db.get k = before.get k) : recoverPreparedOperation db = .ok before := by
    have hhead : db.headHash = before.headHash :=
      headHash_congr (hagree _ (not_mem_rollback R (by simp)) (by simp) (by simp))
    rw [recover_old db hjournal kind (by rw [hhead, newHead]; exact hne) (by rw [hhead, oldHead]), discard, if_pos rfl,
      newHead, number]
    exact congrArg _ (cancel_discard R fresh hagree (.inr hlookups))
  have hexecution {k : Key} (hk : k ∉ operation.rollbackDeletes) : (writeJournalPuts operation.executionPuts
      (writePreparedOperation operation before)).get k = before.get k :=
    get_writeJournalPuts R hc (fun _ => rfl) hk
  intro k
  rcases k with _ | _ | _ | _ | _ | k
  · exact .inl (recover_of_no_journal R.stored.journal)
  · exact .inl (hback rfl fun _ _ _ _ => rfl)
  · exact .inl (hback rfl fun _ hk _ _ => hexecution hk)
  · refine .inl (hback rfl fun k hk hblock hreceipts => ?_)
    exact (get_persistBuiltBlock hblock hreceipts).trans (hexecution hk)
  · refine .inr (recover_new _ rfl kind ?_)
    rw [newHead]
    exact headHash_setCanonical hE (R.proper.linked b rfl) rfl
  · exact .inr (recover_end (by simp [steps, Mutation.steps]))

/-- A block on the head that was stored before is lost when the commit is cut off after its
journal was written. -/
theorem not_atomic_extend {head : Block} (hE : E.Lawful)
    (R : Regular E ⟨before, operation, .extend b receipts⟩) (kind : operation.kind = .head)
    (oldHead : operation.oldHead = before.headHash) (newHead : operation.newHead = E.hash b)
    (discard : operation.discardTargetOnCancel = true) (current : before.currentBlock = some head)
    (child : b.number = head.number + 1) (stored : (before.blockByHash (E.hash b)).isSome) :
    ¬ Atomic E ⟨before, operation, .extend b receipts⟩ := by
  intro hatomic
  have hne : before.headHash ≠ E.hash b := by
    obtain ⟨head', hcurrent', hhash, -⟩ := R.head
    obtain rfl : head' = head := Option.some.inj (hcurrent'.symm.trans current)
    rw [← hhash]
    intro heq
    rw [hE.blockHash_injective heq] at child
    omega
  have hrecover := recover_old (writePreparedOperation operation before) rfl kind
    (by rw [newHead]; exact hne) oldHead.symm
  rw [discard, if_pos rfl, newHead] at hrecover
  have hlost : (cancelPreparedOperation operation (discardPreparedTarget (E.hash b) operation.targetNumber
      (writePreparedOperation operation before))).blockByHash (E.hash b) = none := by
    have hget : (cancelPreparedOperation operation (discardPreparedTarget (E.hash b) operation.targetNumber
        (writePreparedOperation operation before))).get (.block (E.hash b)) = none := by
      refine (Db.get_write_deletes _ _ _).trans ?_
      split
      · rfl
      · rw [discard_get, if_pos (by simp [discardKeys])]
    rw [Db.blockByHash, hget]
  rcases hatomic 1 with h | h
  · have hbefore : _ = before := Except.ok.inj (hrecover.symm.trans h)
    rw [← hbefore, hlost] at stored
    cases stored
  · have hafter : ((after E.geth ⟨before, operation, .extend b receipts⟩).blockByHash (E.hash b)).isSome := by
      rw [R.proper.after_blockByHash hE, base_blockByHash R.proper.execution rfl]
      simp
    rw [← Except.ok.inj (hrecover.symm.trans h), hlost] at hafter
    cases hafter

/-- A block beside the head. -/
theorem atomic_store (R : Regular E ⟨before, operation, .store b receipts⟩)
    (hc : ContentAddressed ⟨before, operation, .store b receipts⟩) (kind : operation.kind = .block)
    (target : operation.targetBlock = E.hash b) (fresh : before.blockByHash (E.hash b) = none) :
    Atomic E ⟨before, operation, .store b receipts⟩ := by
  -- until the block is stored, the operation is taken back
  have hback {db : Db} (hjournal : db.journal = some { operation with version := currentMetadataFormat })
      (hagree : ∀ k ∉ operation.rollbackDeletes, db.get k = before.get k) :
      recoverPreparedOperation db = .ok before := by
    have hblock : db.blockByHash (E.hash b) = none := by
      rw [Db.blockByHash, hagree _ (not_mem_rollback R (by simp))]
      exact fresh
    rw [recover_absent db hjournal kind (by rw [target]; exact hblock), target]
    split
    · refine congrArg _ (cancel_discard R fresh (fun k hk _ _ => hagree k hk) (.inl ?_))
      rw [Db.readBlock, hblock, Option.filter_none]
    · exact congrArg _ (cancel_eq R.stored.journal hagree fun k hk => ((mem_rollback R).mp hk).2)
  intro k
  rcases k with _ | _ | _ | _ | k
  · exact .inl (recover_of_no_journal R.stored.journal)
  · exact .inl (hback rfl fun _ _ => rfl)
  · have hexecution {k : Key} (hk : k ∉ operation.rollbackDeletes) : (writeJournalPuts operation.executionPuts
        (writePreparedOperation operation before)).get k = before.get k :=
        get_writeJournalPuts R hc (fun _ => rfl) hk
    exact .inl (hback rfl fun _ hk => hexecution hk)
  · refine .inr (recover_present _ rfl kind ?_)
    rw [target]
    have hget : (persistBuiltBlock E.geth b receipts (writeJournalPuts operation.executionPuts
        (writePreparedOperation operation before))).get (.block (E.hash b)) = some (.block b) := by
        rw [persistBuiltBlock, Db.get_write]
        simp [Store.lastWrite, Store.Write.key, Store.Write.result]
    change ((persistBuiltBlock E.geth b receipts (writeJournalPuts operation.executionPuts
        (writePreparedOperation operation before))).blockByHash (E.hash b)).isSome
    rw [Db.blockByHash, hget]
    rfl
  · exact .inr (recover_end (by simp [steps, Mutation.steps]))

/-- A change of the head. -/
theorem atomic_setHead (hE : E.Lawful) {target : Block} (R : Regular E ⟨before, operation, .setHead target⟩)
    (kind : operation.kind = .head) (oldHead : operation.oldHead = before.headHash)
    (newHead : operation.newHead = E.hash target) (discard : operation.discardTargetOnCancel = false)
    (stored : before.blockByHash (E.hash target) = some target) :
    Atomic E ⟨before, operation, .setHead target⟩ := by
  intro k
  match k with
  | 0 => exact .inl (recover_of_no_journal R.stored.journal)
  | 1 =>
    by_cases hsame : before.headHash = E.hash target
    · -- the head is the target already, and making it canonical changes nothing
      have hset : (setCanonical E.geth target before).entries = before.entries := by
        have hcurrent : before.currentBlock = some target := by rw [Db.currentBlock, hsame, stored]
        refine Store.ext_get fun k => ?_
        refine (hE.setCanonical_get (R.proper.linked target rfl) k).trans ?_
        split
        · next hk => exact (R.stored.canonical hcurrent k hk).symm
        · rfl
      refine .inr ((recover_new (writePreparedOperation operation before) rfl kind (hsame.trans newHead.symm)).trans ?_)
      change Except.ok (finalizePreparedOperation operation before) =
        Except.ok (finalizePreparedOperation operation (setCanonical E.geth target before))
      unfold finalizePreparedOperation Db.write
      rw [hset]
    · have hnew : before.headHash ≠ operation.newHead := by rwa [newHead]
      refine .inl ((recover_old (writePreparedOperation operation before) rfl kind hnew oldHead.symm).trans ?_)
      rw [discard]
      exact congrArg _ (cancel_eq R.stored.journal (fun _ _ => rfl) fun k hk => ((mem_rollback R).mp hk).2)
  | 2 =>
    refine .inr (recover_new _ rfl kind ?_)
    rw [newHead]
    exact headHash_setCanonical hE (R.proper.linked target rfl) rfl
  | k + 3 => exact .inr (recover_end (by simp [steps, Mutation.steps]))

end Points

/-- A commit is atomic unless it is one that discards its target and the target was stored before. -/
theorem atomic_iff (hE : E.Lawful) (R : c.Regular E) (S : c.Shape E) (hc : c.ContentAddressed) :
    Atomic E c ↔ ¬ (c.operation.discardTargetOnCancel = true ∧
      (c.before.blockByHash c.operation.newHead).isSome) := by
  obtain ⟨before, operation, mutation⟩ := c
  cases S with
  | @extend b receipts head mutation kind oldHead newHead number discard current child =>
    obtain rfl := mutation
    have hdiscard : operation.discardTargetOnCancel = true := discard
    have hnew : operation.newHead = E.hash b := newHead
    simp only [hdiscard, hnew, true_and]
    constructor
    · exact fun h hstored => not_atomic_extend hE R kind oldHead newHead discard current child hstored h
    · intro h
      refine atomic_extend hE R hc kind oldHead newHead number discard current child ?_
      simpa using h
  | store mutation kind target discard fresh =>
    obtain rfl := mutation
    have hdiscard : operation.discardTargetOnCancel = false := discard
    exact ⟨fun _ h => absurd h.1 (by simp [hdiscard]), fun _ => atomic_store R hc kind target fresh⟩
  | setHead mutation kind oldHead newHead discard stored =>
    obtain rfl := mutation
    have hdiscard : operation.discardTargetOnCancel = false := discard
    exact ⟨fun _ h => absurd h.1 (by simp [hdiscard]),
      fun _ => atomic_setHead hE R kind oldHead newHead discard stored⟩

end Commit

/-! ## The commits of a node -/

namespace Env

variable {E : Env} {n : Node E.geth.State}

variable {c : Commit}

theorem Commits.before_eq (h : Commits E n c) : c.before = n.db := by
  cases h <;> rfl

theorem Commits.regular (hE : E.Lawful) (I : n.toLedger.Inv E) (h : Commits E n c) : c.Regular E := by
  have W := I.chain.wellFormed
  obtain ⟨head, hcurrent, hmem, hhash⟩ := I.exists_head
  have hhead : ∃ head, c.before.currentBlock = some head ∧ E.hash head = c.before.headHash ∧
      ∀ b ∈ c.before.line head, b.number ≤ head.number ∧ c.before.blockByHash (E.hash b) = some b := by
    rw [h.before_eq]
    exact ⟨head, hcurrent, hhash, fun b hb =>
      ⟨W.tree.le_of_mem_line W.tree.number_lt hmem hb, W.tree.mem_of_mem_line hmem hb⟩⟩
  have hstored : c.before.Stored E := by
    rw [h.before_eq]
    exact I.stored
  cases h with
  | mine plan hplan => exact ⟨proper_mine hE W (planMine_spec hE W plan) hplan, hstored, rfl, hhead⟩
  | control plan hplan => exact ⟨proper_control hE W (planControl_spec hE W plan) hplan, hstored, rfl, hhead⟩
  | branch named plan hplan => exact ⟨proper_branch (planBranch_spec hE W plan) hplan, hstored, rfl, hhead⟩
  | switch known plan hplan => exact ⟨proper_switch W (switch_target W known).1 hplan, hstored, rfl, hhead⟩

/-- A branch block is new: the branch has already gone past every block with its extra data. -/
theorem fresh_branch (hE : E.Lawful) (I : n.toLedger.Inv E) {name : Bytes} {item : Branch} {x : Extension}
    (named : n.branches[name]? = some item) (p : Planned.OnBranch E n x item) :
    n.db.blockByHash (E.hash x.block) = none := by
  have W := I.chain.wellFormed
  cases hb : n.db.blockByHash (E.hash x.block) with
  | none => rfl
  | some b =>
    obtain ⟨hmem, hhash⟩ := W.mem_of_blocks hb
    obtain rfl : b = x.block := hE.blockHash_injective hhash
    obtain ⟨head, hbranch, hhead, hline⟩ := W.branched hmem p.sound.ne_genesis p.extra
    have hitem : n.chain.branches item.name = some item.head := by
      change (n.branches[item.name]?).map _ = _
      rw [I.named named, named, Option.map_some]
    obtain rfl : head = x.parent := by
      rw [hitem, p.head] at hbranch
      exact hE.blockHash_injective (Option.some.inj hbranch).symm
    have hle : x.block.number ≤ x.parent.number := W.tree.le_of_mem_line W.tree.number_lt hhead hline
    have hnumber : x.block.number = x.parent.number + 1 := p.sound.number
    omega

theorem Commits.shape (hE : E.Lawful) (I : n.toLedger.Inv E) (h : Commits E n c) : c.Shape E := by
  have W := I.chain.wellFormed
  have hparent {x : Extension} {control : Bool} (p : Planned.OnHead E n x control) :
      n.db.currentBlock = some x.parent ∧ E.hash x.parent = n.db.headHash := by
    refine ⟨?_, p.head.symm⟩
    change n.chain.blocks n.chain.head = some x.parent
    rw [p.head]
    exact p.sound.parent_mem
  cases h with
  | mine plan hplan =>
    have p := planMine_spec hE W plan
    exact .extend rfl rfl (hparent p).2 rfl rfl rfl (hparent p).1 p.sound.number
  | control plan hplan =>
    have p := planControl_spec hE W plan
    exact .extend rfl rfl (hparent p).2 rfl rfl rfl (hparent p).1 p.sound.number
  | branch named plan hplan =>
    exact .store rfl rfl rfl rfl (fresh_branch hE I named (planBranch_spec hE W plan))
  | switch known plan hplan =>
    obtain ⟨hold, rfl, -⟩ := planSwitch_spec plan
    exact .setHead rfl rfl (W.addressed hold) rfl rfl (switch_target W known).1

end Env

/-- In every reachable node: a commit is atomic exactly if it does not put a block on the head that
was stored before. -/
theorem reachable_atomic_iff {E : Env} (hE : E.Lawful) {n : Node E.geth.State} (h : E.Reachable n) :
    ∀ c ∈ n.history.commits, c.ContentAddressed → (Commit.Atomic E c ↔
      ¬ (c.operation.discardTargetOnCancel = true ∧ (c.before.blockByHash c.operation.newHead).isSome)) := by
  have hall : ∀ c ∈ n.history.commits, c.Regular E ∧ c.Shape E := by
    refine h.invariant (X := fun n => ∀ c ∈ n.history.commits, c.Regular E ∧ c.Shape E) hE
      (fun _ => Env.guarded_any) ?_ ?_
    · intro m hstart
      obtain ⟨projection, record, -, -, hledger⟩ := Env.newNode_spec hstart
      rw [hledger]
      exact fun c hc => absurd hc (by simp [Env.freshLedger])
    · intro m m' I ih hmove c hc
      rcases hmove.recorded with hsame | ⟨c', hc', hnew, -⟩
      · exact ih c (hsame ▸ hc)
      · rw [hnew, List.mem_append, List.mem_singleton] at hc
        rcases hc with hc | rfl
        · exact ih c hc
        · exact ⟨hc'.regular hE I, hc'.shape hE I⟩
  intro c hc hcontent
  exact Commit.atomic_iff hE (hall c hc).1 (hall c hc).2 hcontent

namespace Reference

/-- A block is mined, abandoned and mined again. -/
def minedTwice : List Command :=
  [⟨.snapshot, none⟩, ⟨.mine 1 false, none⟩, ⟨.revert 1, none⟩, ⟨.mine 1 false, none⟩]

/-- The commit that mines it first, and the one that mines it again. -/
def firstCommit : Commit := (run minedTwice).history.commits.head (by decide +kernel)

def secondCommit : Commit := (run minedTwice).history.commits.getLast (by decide +kernel)

end Reference

set_option maxRecDepth 100000 in
theorem reachable_atomic_iff_reference : Reference.firstCommit.ContentAddressed ∧
    (Commit.Atomic Reference.env Reference.firstCommit ↔
      ¬ (Reference.firstCommit.operation.discardTargetOnCancel = true ∧
        (Reference.firstCommit.before.blockByHash Reference.firstCommit.operation.newHead).isSome)) := by
  have hcontent : Reference.firstCommit.ContentAddressed := by decide +kernel
  exact ⟨hcontent, reachable_atomic_iff Reference.lawful (Reference.reachable_run Reference.minedTwice) _
    (List.head_mem _) hcontent⟩

/-- The second commit loses the block when it is cut off after its journal was written. -/
theorem not_atomic_secondCommit :
    Reference.secondCommit ∈ (Reference.run Reference.minedTwice).history.commits ∧
      Reference.secondCommit.ContentAddressed ∧ ¬ Commit.Atomic Reference.env Reference.secondCommit := by
  refine ⟨List.getLast_mem _, by decide +kernel, fun h => ?_⟩
  let holds (db : Db) : Bool := (db.blockByHash Reference.secondCommit.operation.newHead).isSome
  have hlost : (recoverPreparedOperation (Reference.secondCommit.crash Reference.geth 1)).toOption.map holds =
      some false := by decide +kernel
  rcases h 1 with h | h
  · have hbefore : holds Reference.secondCommit.before = true := by decide +kernel
    have hrecovered := congrArg (fun r => r.toOption.map holds) h
    exact absurd (hlost.symm.trans hrecovered) (by simp [Except.toOption, hbefore])
  · have hafter : holds (Reference.secondCommit.after Reference.env.geth) = true := by decide +kernel
    have hrecovered := congrArg (fun r => r.toOption.map holds) h
    exact absurd (hlost.symm.trans hrecovered) (by simp [Except.toOption, hafter])

end Ethertest
