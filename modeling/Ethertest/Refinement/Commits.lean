-- SUMMARY: What is read from the database after a commit.
import Ethertest.Refinement.Abstraction

/-!
# Reading after a commit

A commit of a prepared operation touches three disjoint kinds of keys: the state entries,
geth's block and chain entries, and the node's own metadata. Its last batch is the only
one that writes metadata, so a metadata key reads as that batch's last write to it.
-/

namespace Ethertest

namespace Mutation

/-- The block that a mutation stores. -/
def block : Mutation → Option Block
  | extend b _ | store b _ => some b
  | setHead _ => none

/-- The block that a mutation makes the head. -/
def head : Mutation → Option Block
  | extend b _ | setHead b => some b
  | store _ _ => none

end Mutation

namespace Commit

variable {E : Env} {c : Commit}

/-- The database before the head changes. -/
def base (G : Geth) (c : Commit) : Db :=
  match c.mutation with
  | .extend b r | .store b r => persistBuiltBlock G b r (writeJournalPuts c.operation.executionPuts c.before)
  | .setHead _ => c.before

/-- The last write of the final batch to a metadata key. -/
def ownWrite (c : Commit) (k : Key) : Option (Option Value) :=
  Store.lastWrite (Store.puts c.operation.puts ++ Store.deletes c.operation.deletes) k

/-- The kinds of keys that a commit writes, and the head it sets. -/
structure Proper (E : Env) (c : Commit) : Prop where
  execution : ∀ kv ∈ c.operation.executionPuts, ∃ key, kv.1 = .state key
  puts : ∀ kv ∈ c.operation.puts, kv.1.own
  deletes : ∀ k ∈ c.operation.deletes, k.own
  linked : ∀ b, c.mutation.head = some b → E.Linked (c.base E.geth) b

@[simp] theorem after_journal (G : Geth) (c : Commit) : (c.after G).journal = none := by
  cases c with
  | mk before operation mutation => cases mutation <;> rfl

theorem after_get (c : Commit) (k : Key) :
    (c.after E.geth).get k =
      (Store.lastWrite (Store.puts c.operation.executionPuts ++ Store.puts c.operation.puts ++
        Store.deletes c.operation.deletes) k).getD
      (c.mutation.head.elim ((c.base E.geth).get k) fun b =>
        (E.geth.setCanonical (c.base E.geth).entries b)[k]?) := by
  obtain ⟨before, operation, mutation⟩ := c
  cases mutation <;> exact Store.get_writeBatch _ _ _

theorem base_get_block (G : Geth) (c : Commit) {b : Block} (hb : c.mutation.block = some b) (k : Key) :
    ∃ r, (c.base G).get k =
      if k = .receipts (G.blockHash b) then some (.receipts r)
      else if k = .block (G.blockHash b) then some (.block b)
      else (Store.lastWrite (Store.puts c.operation.executionPuts) k).getD (c.before.get k) := by
  obtain ⟨before, operation, mutation⟩ := c
  have key (b' : Block) (r : List Receipt) :
      (persistBuiltBlock G b' r (writeJournalPuts operation.executionPuts before)).get k =
        if k = .receipts (G.blockHash b') then some (.receipts r)
        else if k = .block (G.blockHash b') then some (.block b')
        else (Store.lastWrite (Store.puts operation.executionPuts) k).getD (before.get k) := by
    rw [persistBuiltBlock, Db.get_write, writeJournalPuts, Db.get_write]
    simp only [Store.lastWrite, Store.Write.key, Store.Write.result, Option.none_or, @eq_comm _ k]
    by_cases h₁ : Key.receipts (G.blockHash b') = k
    · simp [h₁]
    · by_cases h₂ : Key.block (G.blockHash b') = k <;> simp [h₁, h₂]
  cases mutation with
  | extend b' r =>
    obtain rfl : b' = b := Option.some.inj hb
    exact ⟨r, key b' r⟩
  | store b' r =>
    obtain rfl : b' = b := Option.some.inj hb
    exact ⟨r, key b' r⟩
  | setHead t => cases hb

theorem base_get_of_none (G : Geth) (c : Commit) (hb : c.mutation.block = none) : c.base G = c.before := by
  obtain ⟨before, operation, mutation⟩ := c
  cases mutation with
  | extend => cases hb
  | store => cases hb
  | setHead => rfl

theorem lastWrite_execution (hexec : ∀ kv ∈ c.operation.executionPuts, ∃ key, kv.1 = .state key) {k : Key}
    (hk : ∀ key, k ≠ .state key) : Store.lastWrite (Store.puts c.operation.executionPuts) k = none := by
  refine Store.lastWrite_puts_eq_none fun kv hkv => ?_
  obtain ⟨key, hkey⟩ := hexec kv hkv
  exact fun heq => hk key (heq.symm.trans hkey)

theorem base_blockByHash (hexec : ∀ kv ∈ c.operation.executionPuts, ∃ key, kv.1 = .state key) {b : Block}
    (hb : c.mutation.block = some b) :
    (c.base E.geth).blockByHash = Function.update c.before.blockByHash (E.hash b) (some b) := by
  funext h
  obtain ⟨r, hget⟩ := base_get_block E.geth c hb (.block h)
  rw [lastWrite_execution hexec (by simp)] at hget
  by_cases heq : h = E.hash b
  · subst heq
    simp [Db.blockByHash, hget]
  · have hne : ¬ Key.block h = Key.block (E.geth.blockHash b) := by simpa using heq
    rw [Function.update_of_ne heq, Db.blockByHash, hget]
    simp [hne, Db.blockByHash]

namespace Proper

variable (P : Proper E c)
include P

/-- The last batch touches only state entries and metadata. -/
theorem final_eq {k : Key} (hk : ∀ key, k ≠ .state key) :
    Store.lastWrite (Store.puts c.operation.executionPuts ++ Store.puts c.operation.puts ++
      Store.deletes c.operation.deletes) k = c.ownWrite k := by
  rw [ownWrite, List.append_assoc, Store.lastWrite_append, lastWrite_execution P.execution hk, Option.or_none]

theorem ownWrite_of_not_own {k : Key} (hk : k.own = false) : c.ownWrite k = none := by
  rw [ownWrite, Store.lastWrite_append, Store.lastWrite_puts_eq_none, Store.lastWrite_deletes_eq_none]
  · rfl
  · intro hmem
    simp [P.deletes k hmem] at hk
  · rintro kv hkv rfl
    simp [P.puts kv hkv] at hk

/-- Keys that are neither state, block nor receipts read before the head changes as at
the start. -/
theorem base_get {k : Key} (hstate : ∀ key, k ≠ .state key) (hblock : ∀ h, k ≠ .block h)
    (hreceipts : ∀ h, k ≠ .receipts h) : (c.base E.geth).get k = c.before.get k := by
  cases hb : c.mutation.block with
  | none => rw [base_get_of_none _ _ hb]
  | some b =>
    obtain ⟨r, hget⟩ := base_get_block E.geth c hb k
    rw [hget, if_neg (hreceipts _), if_neg (hblock _), lastWrite_execution P.execution hstate, Option.getD_none]

/-- A key that is not about the canonical chain is left alone by the change of the head. -/
theorem after_get_of_not_canonical (hE : E.Lawful) {k : Key} (hk : k.canonical = false)
    (hstate : ∀ key, k ≠ .state key) :
    (c.after E.geth).get k = (c.ownWrite k).getD ((c.base E.geth).get k) := by
  rw [after_get, P.final_eq hstate]
  cases hh : c.mutation.head with
  | none => rfl
  | some b =>
    have := hE.setCanonical_get (P.linked b hh) k
    simp only [hk, Bool.false_eq_true, if_false] at this
    exact congrArg _ this

/-- A metadata key reads as the last write of the final batch. -/
theorem after_get_own (hE : E.Lawful) {k : Key} (hk : k.own) :
    (c.after E.geth).get k = (c.ownWrite k).getD (c.before.get k) := by
  have hcanonical : k.canonical = false := by cases k <;> first | rfl | cases hk
  have hstate : ∀ key, k ≠ .state key := by
    rintro key rfl
    cases hk
  rw [P.after_get_of_not_canonical hE hcanonical hstate, P.base_get hstate]
  · rintro h rfl
    cases hk
  · rintro h rfl
    cases hk

private theorem after_get_block (hE : E.Lawful) (h : Hash) :
    (c.after E.geth).get (.block h) = (c.base E.geth).get (.block h) := by
  rw [P.after_get_of_not_canonical hE rfl (by simp), P.ownWrite_of_not_own rfl]
  rfl

theorem after_get_receipts (hE : E.Lawful) (h : Hash) :
    (c.after E.geth).get (.receipts h) = (c.base E.geth).get (.receipts h) := by
  rw [P.after_get_of_not_canonical hE rfl (by simp), P.ownWrite_of_not_own rfl]
  rfl

theorem after_blockByHash (hE : E.Lawful) : (c.after E.geth).blockByHash = (c.base E.geth).blockByHash := by
  funext h
  rw [Db.blockByHash, P.after_get_block hE]
  rfl

/-- geth's canonical entries after the commit. -/
theorem after_get_canonical (hE : E.Lawful) {k : Key} (hk : k.canonical) :
    (c.after E.geth).get k =
      c.mutation.head.elim (c.before.get k) fun b => E.canonicalEntry ((c.after E.geth).line b) k := by
  have hown : k.own = false := by cases k <;> first | rfl | cases hk
  have hstate : ∀ key, k ≠ .state key := by
    rintro key rfl
    cases hk
  have hbase : (c.base E.geth).get k = c.before.get k := by
    refine P.base_get hstate ?_ ?_ <;> · rintro h rfl; cases hk
  rw [after_get, P.final_eq hstate, P.ownWrite_of_not_own hown, Option.getD_none]
  cases hh : c.mutation.head with
  | none => exact hbase
  | some b =>
    have hline : (c.after E.geth).line b = (c.base E.geth).line b := by
      unfold Db.line Db.parent
      rw [P.after_blockByHash hE]
    have := hE.setCanonical_get (P.linked b hh) k
    rw [if_pos hk] at this
    simp only [Option.elim_some, hline]
    exact this

/-- The head after the commit. -/
theorem after_headHash (hE : E.Lawful) :
    (c.after E.geth).headHash = c.mutation.head.elim c.before.headHash E.hash := by
  rw [Db.headHash, P.after_get_canonical hE rfl]
  cases c.mutation.head with
  | none => rfl
  | some b =>
    obtain ⟨rest, hrest⟩ := Ancestry.Tree.line_eq_cons (c.after E.geth).parent Block.number b
    simp [Env.canonicalEntry, Db.line, hrest]

/-- A commit keeps the database in order. If it does not change the head, it has to leave
the line of the head alone. -/
theorem stored (hE : E.Lawful) (S : c.before.Stored E) (htyped : ∀ kv ∈ c.operation.puts, kv.1.Holds kv.2)
    (hline : c.mutation.head = none → ∀ {head}, (c.after E.geth).currentBlock = some head →
      c.before.currentBlock = some head ∧ (c.after E.geth).line head = c.before.line head) :
    (c.after E.geth).Stored E where
  journal := after_journal _ _
  typed := by
    intro k v hget
    by_cases hown : k.own
    · rw [P.after_get_own hE hown] at hget
      cases hwrite : c.ownWrite k with
      | none => exact S.typed (by simpa [hwrite] using hget)
      | some written =>
        obtain rfl : written = some v := by simpa [hwrite] using hget
        rw [ownWrite, Store.lastWrite_append, Option.or_eq_some_iff] at hwrite
        rcases hwrite with hdel | ⟨-, hput⟩
        · exact absurd hdel (Store.lastWrite_deletes_ne _ _ _)
        · exact htyped _ (Store.mem_of_lastWrite_puts hput)
    · cases k with
      | block h =>
        rw [P.after_get_block hE] at hget
        cases hb : c.mutation.block with
        | none =>
          rw [base_get_of_none _ _ hb] at hget
          exact S.typed hget
        | some b =>
          obtain ⟨r, hbase⟩ := base_get_block E.geth c hb (.block h)
          rw [hbase, lastWrite_execution P.execution (by simp)] at hget
          simp only [reduceCtorEq, if_false, Option.getD_none] at hget
          split at hget
          · exact ⟨b, (Option.some.inj hget).symm⟩
          · exact S.typed hget
      | _ => first | exact trivial | exact absurd rfl hown
  canonical := by
    intro head hhead k hk
    rw [P.after_get_canonical hE hk]
    cases hh : c.mutation.head with
    | none =>
      obtain ⟨hbefore, heq⟩ := hline hh hhead
      rw [heq]
      exact S.canonical hbefore k hk
    | some b =>
      have hb : (c.after E.geth).currentBlock = some b := by
        rw [Db.currentBlock, P.after_headHash hE, hh, P.after_blockByHash hE]
        exact (P.linked b hh).stored
      obtain rfl : b = head := Option.some.inj (hb.symm.trans hhead)
      rfl
  receipts := by
    intro h
    rw [P.after_get_receipts hE, P.after_blockByHash hE]
    cases hb : c.mutation.block with
    | none =>
      rw [base_get_of_none _ _ hb]
      exact S.receipts h
    | some b =>
      obtain ⟨r, hbase⟩ := base_get_block E.geth c hb (.receipts h)
      rw [hbase, base_blockByHash P.execution hb, lastWrite_execution P.execution (by simp)]
      by_cases heq : h = E.hash b
      · subst heq
        simp
      · have hne : ¬ Key.receipts h = Key.receipts (E.geth.blockHash b) := by simpa using heq
        simp only [hne, reduceCtorEq, if_false, Option.getD_none, Function.update_of_ne heq]
        exact S.receipts h

end Proper

end Commit

/-! ## Metadata batches -/

section Metadata

variable {E : Env} {db : Db} {puts : List KV} {deletes : List Key}

theorem Db.get_write_of_not_own {k : Key} (hputs : ∀ kv ∈ puts, kv.1.own) (hdeletes : ∀ k ∈ deletes, k.own)
    (hk : k.own = false) : (db.write (Store.puts puts ++ Store.deletes deletes)).get k = db.get k := by
  rw [Db.get_write, Store.lastWrite_append, Store.lastWrite_puts_eq_none, Store.lastWrite_deletes_eq_none]
  · rfl
  · intro hmem
    simp [hdeletes k hmem] at hk
  · rintro kv hkv rfl
    simp [hputs kv hkv] at hk

theorem Db.blockByHash_write (hputs : ∀ kv ∈ puts, kv.1.own) (hdeletes : ∀ k ∈ deletes, k.own) :
    (db.write (Store.puts puts ++ Store.deletes deletes)).blockByHash = db.blockByHash := by
  funext h
  rw [Db.blockByHash, Db.get_write_of_not_own hputs hdeletes rfl]
  rfl

theorem Db.headHash_write (hputs : ∀ kv ∈ puts, kv.1.own) (hdeletes : ∀ k ∈ deletes, k.own) :
    (db.write (Store.puts puts ++ Store.deletes deletes)).headHash = db.headHash := by
  rw [Db.headHash, Db.get_write_of_not_own hputs hdeletes rfl]
  rfl

/-- A batch of metadata keeps the database in order. -/
theorem Db.Stored.write (S : db.Stored E) (hputs : ∀ kv ∈ puts, kv.1.own ∧ kv.1.Holds kv.2)
    (hdeletes : ∀ k ∈ deletes, k.own) :
    (db.write (Store.puts puts ++ Store.deletes deletes)).Stored E := by
  have hown : ∀ kv ∈ puts, kv.1.own := fun kv hkv => (hputs kv hkv).1
  have hblocks : (db.write (Store.puts puts ++ Store.deletes deletes)).blockByHash = db.blockByHash :=
    Db.blockByHash_write hown hdeletes
  refine ⟨S.journal, fun {k v} hget => ?_, fun {head} hhead k hk => ?_, fun h => ?_⟩
  · rw [Db.get_write] at hget
    cases hwrite : Store.lastWrite (Store.puts puts ++ Store.deletes deletes) k with
    | none => exact S.typed (by simpa [hwrite] using hget)
    | some written =>
      obtain rfl : written = some v := by simpa [hwrite] using hget
      rw [Store.lastWrite_append, Option.or_eq_some_iff] at hwrite
      rcases hwrite with hdel | ⟨-, hput⟩
      · exact absurd hdel (Store.lastWrite_deletes_ne _ _ _)
      · exact (hputs _ (Store.mem_of_lastWrite_puts hput)).2
  · have hnot : k.own = false := by cases k <;> first | rfl | cases hk
    rw [Db.get_write_of_not_own hown hdeletes hnot]
    rw [Db.currentBlock, Db.headHash_write hown hdeletes, hblocks] at hhead
    have hline : (db.write (Store.puts puts ++ Store.deletes deletes)).line head = db.line head := by
      unfold Db.line Db.parent
      rw [hblocks]
    rw [hline]
    exact S.canonical hhead k hk
  · rw [Db.get_write_of_not_own hown hdeletes rfl, hblocks]
    exact S.receipts h

end Metadata

end Ethertest
