-- SUMMARY: Recovery can be interrupted and repeated, and touches nothing when it does not know what to do.
import Ethertest.Base.Interrupt
import Ethertest.Reference

/-!
# Interrupted recovery

Recovery writes one batch to complete an operation. To take one back it writes up to two:
the first discards the target block, the second deletes the other entries together with
the journal. After the first one the target is gone, so that the next attempt decides the
same and finds nothing more to discard.
-/

namespace Ethertest

/-! ## The batches of a recovery -/

/-- The batches that take an operation back. -/
def cancelBatches (operation : PreparedOperation) (discard : Bool) (hash : Hash) : List (Db → Db) :=
  (if discard then [discardPreparedTarget hash operation.targetNumber] else []) ++ [cancelPreparedOperation operation]

/-- The batches that `recoverPreparedOperation` writes, in order. Each is atomic. -/
def recoveryBatches (db : Db) : Except Error (List (Db → Db)) :=
  match db.journal with
  | none => .ok []
  | some operation => do
    failIf (operation.version ≠ currentMetadataFormat)
      (.errorf "unsupported recovery journal version %d" [.num operation.version])
    match operation.kind with
    | .head =>
      let head := db.headHash
      if head = operation.newHead then .ok [finalizePreparedOperation operation]
      else if head = operation.oldHead then
        .ok (cancelBatches operation operation.discardTargetOnCancel operation.newHead)
      else
        .error (.errorf "recovery journal head mismatch: have %s, old %s, target %s"
          [.hash head, .hash operation.oldHead, .hash operation.newHead])
    | .block =>
      if (db.blockByHash operation.targetBlock).isSome then .ok [finalizePreparedOperation operation]
      else .ok (cancelBatches operation (operation.targetBlock ≠ 0) operation.targetBlock)
    | .other text => .error (.errorf "unsupported recovery journal kind %q" [.name text])

/-- The batches written until recovery returns; none if it returns an error. -/
def recoveryPlan (db : Db) : List (Db → Db) := (recoveryBatches db).toOption.getD []

theorem run_cancelBatches (operation : PreparedOperation) (discard : Bool) (hash : Hash) (db : Db) :
    Interrupt.run (cancelBatches operation discard hash) db = cancelPreparedOperation operation
      (if discard then discardPreparedTarget hash operation.targetNumber db else db) := by
  cases discard <;> rfl

/-- Recovery is the run of its batches. -/
theorem recoverPreparedOperation_eq (db : Db) :
    recoverPreparedOperation db = (recoveryBatches db).map fun batches => Interrupt.run batches db := by
  unfold recoverPreparedOperation recoveryBatches
  cases db.journal with
  | none => rfl
  | some operation =>
    simp only [failIf]
    split
    · rfl
    · simp only [bind, Except.bind]
      cases operation.kind with
      | head =>
        simp only []
        split
        · rfl
        · split
          · simp [Except.map, run_cancelBatches]
          · rfl
      | block =>
        simp only []
        split
        · rfl
        · simp [Except.map, run_cancelBatches]
      | other text => rfl

/-! ## Discarding a target -/

theorem Db.get_write_deletes (db : Db) (keys : List Key) (k : Key) :
    (db.write (Store.deletes keys)).get k = if k ∈ keys then none else db.get k := by
  rw [Db.get_write]
  split
  · next h => rw [Store.lastWrite_deletes_of_mem h, Option.getD_some]
  · next h => rw [Store.lastWrite_deletes_eq_none h, Option.getD_none]

/-- The keys that discarding a target deletes. -/
def discardKeys (hash : Hash) (number : Nat) (db : Db) : List Key :=
  let lookups := match db.readBlock hash number with
    | some block => (block.transactions.filter fun tx => db.txLookup tx.hash = some number).map fun tx =>
        Key.txLookup tx.hash
    | none => []
  let canonical := if db.canonicalHash number = hash then [Key.canonicalHash number] else []
  lookups ++ canonical ++ [.receipts hash, .block hash]

private theorem discardBatch_eq (hash : Hash) (number : Nat) (db : Db) :
    discardBatch hash number db = Store.deletes (discardKeys hash number db) := by
  unfold discardBatch discardKeys Store.deletes
  cases db.readBlock hash number with
  | none =>
    simp only []
    split <;> rfl
  | some block =>
    simp only [List.map_append, List.map_map]
    split <;> rfl

theorem discard_get (hash : Hash) (number : Nat) (db : Db) (k : Key) :
    (discardPreparedTarget hash number db).get k = if k ∈ discardKeys hash number db then none else db.get k := by
  rw [discardPreparedTarget, discardBatch_eq, Db.get_write_deletes]

theorem mem_discardKeys {hash : Hash} {number : Nat} {db : Db} {k : Key} (h : k ∈ discardKeys hash number db) :
    (∃ tx, k = .txLookup tx) ∨ (∃ m, k = .canonicalHash m) ∨ k = .receipts hash ∨ k = .block hash := by
  simp only [discardKeys, List.mem_append, List.mem_cons, List.not_mem_nil, or_false] at h
  rcases h with (h | h) | h | h
  · left
    split at h
    · obtain ⟨tx, -, rfl⟩ := List.mem_map.mp h
      exact ⟨_, rfl⟩
    · cases h
  · right; left
    split at h
    · exact ⟨_, List.mem_singleton.mp h⟩
    · cases h
  · exact .inr (.inr (.inl h))
  · exact .inr (.inr (.inr h))

theorem discard_block (hash : Hash) (number : Nat) (db : Db) :
    (discardPreparedTarget hash number db).blockByHash hash = none := by
  have hmem : Key.block hash ∈ discardKeys hash number db := by simp [discardKeys]
  rw [Db.blockByHash, discard_get, if_pos hmem]

theorem discard_headHash (hash : Hash) (number : Nat) (db : Db) :
    (discardPreparedTarget hash number db).headHash = db.headHash := by
  have hnot : Key.headBlock ∉ discardKeys hash number db := fun h => by
    rcases mem_discardKeys h with ⟨_, h⟩ | ⟨_, h⟩ | h | h <;> cases h
  rw [Db.headHash, discard_get, if_neg hnot]
  rfl

/-- A target is discarded once. -/
theorem discard_discard (hash : Hash) (number : Nat) (db : Db) :
    discardPreparedTarget hash number (discardPreparedTarget hash number db) =
      discardPreparedTarget hash number db := by
  refine Db.ext_get (fun k => ?_) rfl
  rw [discard_get]
  split
  · next hmem =>
    -- every key that the second batch deletes is absent after the first
    have hread : (discardPreparedTarget hash number db).readBlock hash number = none := by
      rw [Db.readBlock, discard_block, Option.filter_none]
    simp only [discardKeys, hread, List.nil_append, List.mem_append, List.mem_cons, List.not_mem_nil, or_false] at hmem
    rcases hmem with hmem | rfl | rfl
    · split at hmem
      · next hcanonical =>
        obtain rfl := List.mem_singleton.mp hmem
        rw [discard_get]
        split
        · rfl
        · next hkept =>
          -- the entry was kept, so it did not name the target
          have hread : (discardPreparedTarget hash number db).canonicalHash number = db.canonicalHash number := by
            rw [Db.canonicalHash, discard_get, if_neg hkept]
            rfl
          rw [hread] at hcanonical
          exact absurd (by simp [discardKeys, hcanonical]) hkept
      · cases hmem
    · rw [discard_get, if_pos (by simp [discardKeys])]
    · rw [discard_get, if_pos (by simp [discardKeys])]
  · rfl

/-! ## Restarts -/

/-- A recovery that succeeds has nothing to do, completes the operation or takes it back. In the
last case it decides the same after the target is discarded. -/
theorem recoveryBatches_cases {db : Db} {batches : List (Db → Db)} (h : recoveryBatches db = .ok batches) :
    (db.journal = none ∧ batches = []) ∨
      ∃ operation, db.journal = some operation ∧ (batches = [finalizePreparedOperation operation] ∨
        ∃ discard hash, batches = cancelBatches operation discard hash ∧
          recoveryBatches (discardPreparedTarget hash operation.targetNumber db) = .ok batches) := by
  have hjournal (hash : Hash) (number : Nat) : (discardPreparedTarget hash number db).journal = db.journal := rfl
  unfold recoveryBatches at h ⊢
  simp only [hjournal]
  cases hop : db.journal with
  | none =>
    rw [hop] at h
    exact .inl ⟨rfl, (Except.ok.inj h).symm⟩
  | some operation =>
    rw [hop] at h
    simp only [Except.do_ok_iff, failIf_eq_ok, exists_const] at h
    obtain ⟨hversion, h⟩ := h
    have hversion' : failIf (operation.version ≠ currentMetadataFormat)
        (Error.errorf "unsupported recovery journal version %d" [.num operation.version]) = .ok () :=
      failIf_eq_ok.mpr hversion
    refine .inr ⟨operation, rfl, ?_⟩
    simp only [hversion', bind, Except.bind]
    cases hkind : operation.kind with
    | head =>
      simp only [hkind] at h ⊢
      split at h
      · exact .inl (Except.ok.inj h).symm
      · split at h
        · next hnew hold =>
          refine .inr ⟨_, _, (Except.ok.inj h).symm, ?_⟩
          rw [discard_headHash, if_neg hnew, if_pos hold]
          exact h
        · cases h
    | block =>
      simp only [hkind] at h ⊢
      split at h
      · exact .inl (Except.ok.inj h).symm
      · refine .inr ⟨_, _, (Except.ok.inj h).symm, ?_⟩
        rw [discard_block]
        exact h
    | other text =>
      rw [hkind] at h
      cases h

/-- Recovery can be interrupted between its batches and started again. -/
theorem recoveryPlan_restartable : Interrupt.Restartable recoveryPlan := by
  have hshape (db : Db) (j : Nat) (hj : j < (recoveryPlan db).length) :
      recoveryPlan (Interrupt.after recoveryPlan db j) = recoveryPlan db ∧
        Interrupt.run ((recoveryPlan db).take j) (Interrupt.after recoveryPlan db j) =
          Interrupt.after recoveryPlan db j := by
    cases j with
    | zero => exact ⟨rfl, rfl⟩
    | succ j =>
      cases hbatches : recoveryBatches db with
      | error e => simp [recoveryPlan, hbatches, Except.toOption] at hj
      | ok batches =>
        have hplan : recoveryPlan db = batches := by simp [recoveryPlan, hbatches, Except.toOption]
        rw [hplan] at hj
        rcases recoveryBatches_cases hbatches with ⟨-, rfl⟩ | ⟨operation, -, rfl | ⟨discard, hash, rfl, hagain⟩⟩
        · simp at hj
        · simp at hj
        · cases discard with
          | false => simp [cancelBatches] at hj
          | true =>
            obtain rfl : j = 0 := by
              simp [cancelBatches] at hj
              omega
            have hafter : Interrupt.after recoveryPlan db 1 =
                discardPreparedTarget hash operation.targetNumber db := by
              rw [Interrupt.after, hplan]
              rfl
            rw [hafter, hplan]
            constructor
            · simp [recoveryPlan, hagain, Except.toOption]
            · exact discard_discard hash operation.targetNumber db
  exact ⟨fun db j hj => (hshape db j hj).1, fun db j hj => (hshape db j hj).2⟩

/-- A recovery that succeeds removes the journal. -/
theorem recover_journal {db db' : Db} (h : recoverPreparedOperation db = .ok db') : db'.journal = none := by
  rw [recoverPreparedOperation_eq] at h
  cases hbatches : recoveryBatches db with
  | error e =>
    rw [hbatches] at h
    cases h
  | ok batches =>
    rw [hbatches] at h
    obtain rfl : Interrupt.run batches db = db' := Except.ok.inj h
    rcases recoveryBatches_cases hbatches with ⟨hnone, rfl⟩ | ⟨operation, -, rfl | ⟨discard, hash, rfl, -⟩⟩
    · exact hnone
    · rfl
    · rw [run_cancelBatches]
      rfl

/-- A journal that recovery knows how to handle in the given database: one that a commit can
have written, with the head that it started from or the one it leads to. -/
def Recoverable (db : Db) (operation : PreparedOperation) : Prop :=
  operation.version = currentMetadataFormat ∧
    (operation.kind = .head ∧ (db.headHash = operation.newHead ∨ db.headHash = operation.oldHead) ∨
      operation.kind = .block)

theorem recoveryBatches_ok_iff {db : Db} {operation : PreparedOperation} (hjournal : db.journal = some operation) :
    (∃ batches, recoveryBatches db = .ok batches) ↔ Recoverable db operation := by
  unfold recoveryBatches Recoverable
  simp only [hjournal, Except.do_ok_iff, failIf_eq_ok, exists_const, not_not]
  rw [exists_and_left]
  refine and_congr_right fun _ => ?_
  cases operation.kind with
  | head =>
    by_cases hnew : db.headHash = operation.newHead
    · simp [hnew]
    · by_cases hold : db.headHash = operation.oldHead
      · rw [if_neg hnew, if_pos hold]
        simp [hold]
      · simp [hnew, hold]
  | block =>
    by_cases hstored : (db.blockByHash operation.targetBlock).isSome <;> simp [hstored]
  | other text => simp

private theorem recoveryBatches_of_plan {db : Db} (h : recoveryPlan db ≠ []) :
    recoveryBatches db = .ok (recoveryPlan db) := by
  cases hbatches : recoveryBatches db with
  | error e => simp [recoveryPlan, hbatches, Except.toOption] at h
  | ok batches => simp [recoveryPlan, hbatches, Except.toOption]

theorem recover_of_attempts {db db' : Db} (h : Interrupt.Attempts recoveryPlan db db') :
    recoverPreparedOperation db' = recoverPreparedOperation db := by
  by_cases hnil : recoveryPlan db = []
  · rw [h.eq_of_nil hnil]
  · obtain ⟨hplan, hrun⟩ := recoveryPlan_restartable.attempts h
    rw [recoverPreparedOperation_eq, recoverPreparedOperation_eq, recoveryBatches_of_plan hnil,
      recoveryBatches_of_plan (hplan ▸ hnil)]
    exact congrArg Except.ok hrun

/-- Recovery that is interrupted, any number of times, ends where an uninterrupted one ends, and
then stays there. It succeeds on every journal that it knows how to handle, and on every
other one it fails before it writes anything. -/
theorem recovery_interruptible :
    (∀ db db', Interrupt.Attempts recoveryPlan db db' → recoverPreparedOperation db' = recoverPreparedOperation db) ∧
    (∀ db db', recoverPreparedOperation db = .ok db' →
      db' = Interrupt.run (recoveryPlan db) db ∧ recoverPreparedOperation db' = .ok db') ∧
    (∀ db operation, db.journal = some operation → Recoverable db operation →
      ∃ db', recoverPreparedOperation db = .ok db') ∧
    ∀ db operation, db.journal = some operation → ¬ Recoverable db operation →
      (∃ e, recoverPreparedOperation db = .error e) ∧ recoveryPlan db = [] := by
  refine ⟨fun db db' => recover_of_attempts, fun db db' h => ⟨?_, ?_⟩, fun db operation hjournal hrec => ?_,
    fun db operation hjournal hrec => ?_⟩
  · rw [recoverPreparedOperation_eq] at h
    cases hbatches : recoveryBatches db with
    | error e =>
      rw [hbatches] at h
      cases h
    | ok batches =>
      rw [hbatches] at h
      rw [← Except.ok.inj h]
      simp [recoveryPlan, hbatches, Except.toOption]
  · simp [recoverPreparedOperation, recover_journal h]
  · obtain ⟨batches, hbatches⟩ := (recoveryBatches_ok_iff hjournal).mpr hrec
    exact ⟨_, by rw [recoverPreparedOperation_eq, hbatches]; rfl⟩
  · cases hbatches : recoveryBatches db with
    | ok batches => exact absurd ((recoveryBatches_ok_iff hjournal).mp ⟨batches, hbatches⟩) hrec
    | error e =>
      refine ⟨⟨e, by rw [recoverPreparedOperation_eq, hbatches]; rfl⟩, ?_⟩
      simp [recoveryPlan, hbatches, Except.toOption]

/-- A database whose journal names a stored block as the target, with the head still at the old
block. -/
def Reference.halfDone : Db where
  entries := (∅ : Entries).writeBatch
    (Store.puts [(.headBlock, .hash 5), (.block 7, .block Reference.genesisBlock), (.receipts 7, .receipts [])])
  journal := some
    { version := currentMetadataFormat, kind := .head, oldHead := 5, newHead := 7, discardTargetOnCancel := true }

theorem recovery_interruptible_halfDone :
    ((Interrupt.after recoveryPlan Reference.halfDone 1).blockByHash 7).isSome = false ∧
      (Reference.halfDone.blockByHash 7).isSome = true ∧
      recoverPreparedOperation (Interrupt.after recoveryPlan Reference.halfDone 1) =
        recoverPreparedOperation Reference.halfDone :=
  ⟨by decide +kernel, by decide +kernel,
    recovery_interruptible.1 _ _ (.interrupted (.start _) 1 (by decide +kernel))⟩

end Ethertest
