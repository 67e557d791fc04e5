-- SUMMARY: Pooled transactions stand under their sender and nonce, and mining a block takes its transactions out.
import Ethertest.Pool.Tables

/-!
# The entries of the pool

Of the agreement of the pool's tables one part holds whatever is sent: a transaction stands under
its own sender and nonce. So the transactions of a mined block are found and taken out, and the
pool has fewer entries afterwards.
-/

namespace Ethertest

namespace TransactionPool

variable {E : Env} {signer : Transaction → Address} {p q r : TransactionPool}

/-- Transactions stand under their sender and nonce. -/
def Entered (signer : Transaction → Address) (p : TransactionPool) : Prop :=
  ∀ ⦃a nonce tx⦄, p.lookup a nonce = some tx → signer tx = a ∧ tx.nonce = nonce

/-- The second pool has entries of the first only. -/
def Within (p q : TransactionPool) : Prop := ∀ ⦃a nonce tx⦄, q.lookup a nonce = some tx → p.lookup a nonce = some tx

theorem Within.refl : p.Within p := fun _ _ _ h => h

theorem Within.trans (h : p.Within q) (h' : q.Within r) : p.Within r := fun _ _ _ hr => h (h' hr)

theorem Entered.within (h : p.Entered signer) (hw : p.Within q) : q.Entered signer := fun _ _ _ hq => h (hw hq)

variable {a : Address} {nonce : Nat} {tx : Transaction} {bundle : Option BlobBundle}

theorem within_without {hash : Hash} {blobs : Store Hash BlobBundle} :
    p.Within (p.without a nonce hash blobs) := fun _ _ _ h => (lookup_of_without h).2

theorem within_foldl {α : Type} {step : TransactionPool → α → TransactionPool}
    (hstep : ∀ p item, Within p (step p item))
    (items : List α) (p : TransactionPool) : p.Within (items.foldl step p) := by
  induction items generalizing p with
  | nil => exact .refl
  | cons item items ih => exact (hstep p item).trans (ih _)

/-! ## Counting -/

theorem nodup_entries (p : TransactionPool) : p.entries.Nodup := by
  have hkeys {K V : Type} [Ord K] [Std.TransOrd K] [Std.LawfulEqOrd K] (s : Store K V) :
      (s.toList.map (·.1)).Nodup := by
    rw [Std.ExtTreeMap.map_fst_toList_eq_keys]
    exact Std.ExtTreeMap.nodup_keys
  refine List.nodup_flatMap.mpr ⟨fun byNonce _ => ?_, ?_⟩
  · have hmap : (byNonce.2.toList.map fun item => (byNonce.1, item.1)) =
        (byNonce.2.toList.map (·.1)).map fun nonce => (byNonce.1, nonce) := by rw [List.map_map]; rfl
    rw [hmap]
    exact (hkeys byNonce.2).map fun _ _ h => (Prod.mk.inj h).2
  · refine (List.pairwise_map.mp (hkeys p.pending)).imp fun {left right} hne => ?_
    rintro ⟨a, nonce⟩ hleft hright
    obtain ⟨_, -, hleft⟩ := List.mem_map.mp hleft
    obtain ⟨_, -, hright⟩ := List.mem_map.mp hright
    exact hne ((Prod.mk.inj hleft).1.trans (Prod.mk.inj hright).1.symm)

/-- A pool within another one that lacks an entry is smaller. -/
theorem Within.count_lt (h : p.Within q) (hp : p.lookup a nonce = some tx) (hq : q.lookup a nonce = none) :
    q.count < p.count := by
  rw [← length_entries, ← length_entries]
  have hnot : (a, nonce) ∉ q.entries := by
    rw [mem_entries, hq]
    exact Bool.false_ne_true
  have hsub : (a, nonce) :: q.entries ⊆ p.entries := by
    rintro ⟨b, k⟩ hmem
    rcases List.mem_cons.mp hmem with heq | hmem
    · rw [heq, mem_entries, hp]
      rfl
    · obtain ⟨y, hy⟩ := Option.isSome_iff_exists.mp ((mem_entries q).mp hmem)
      rw [mem_entries, h hy]
      rfl
  exact (List.subperm_of_subset (List.nodup_cons.mpr ⟨hnot, nodup_entries q⟩) hsub).length_le

/-! ## Mined transactions -/

/-- One round of `removeMined`. -/
def removeOne (E : Env) (block : Block) (p : TransactionPool) (tx : Transaction) : TransactionPool :=
  match E.geth.sender E.config block.number block.time tx with
  | .error _ => p
  | .ok sender => p.without sender tx.nonce tx.hash (p.blobs.erase tx.hash)

private theorem removeMined_eq (p : TransactionPool) (block : Block) :
    p.removeMined E block = block.transactions.foldl (removeOne E block) p := rfl

private theorem within_removeOne (block : Block) (p : TransactionPool) (tx : Transaction) :
    p.Within (removeOne E block p tx) := by
  unfold removeOne
  split
  · exact .refl
  · exact within_without

theorem within_removeMined (block : Block) : p.Within (p.removeMined E block) :=
  within_foldl (within_removeOne block) _ _

/-- A block that takes a transaction from the pool makes the pool smaller. -/
theorem removeMined_count_lt (hS : E.Signed signer) (N : p.Entered signer) {block : Block}
    (hpooled : ∀ tx ∈ block.transactions, ∃ y, p.Pooled y ∧ tx = y.withoutBlobTxSidecar)
    (hsender : ∀ tx ∈ block.transactions, ∃ a, E.geth.sender E.config block.number block.time tx = .ok a)
    (hne : block.transactions ≠ []) : (p.removeMined E block).count < p.count := by
  obtain ⟨tx, rest, htxs⟩ := List.exists_cons_of_ne_nil hne
  rw [htxs, List.forall_mem_cons] at hpooled hsender
  obtain ⟨y, ⟨a, nonce, hy⟩, rfl⟩ := hpooled.1
  obtain ⟨b, hb⟩ := hsender.1
  obtain ⟨hown, hnonce⟩ := N hy
  obtain rfl : b = a := (hS.sender hb).symm.trans ((hS.stripped y).trans hown)
  have hgone : (removeOne E block p y.withoutBlobTxSidecar).lookup b nonce = none := by
    simp only [removeOne, hb]
    rw [lookup_without, if_pos ⟨rfl, hnonce.symm⟩]
  refine within_removeMined block |>.count_lt hy ?_
  rw [removeMined_eq, htxs, List.foldl_cons]
  have hrest := within_foldl (within_removeOne (E := E) block) rest (removeOne E block p y.withoutBlobTxSidecar)
  cases hlookup : (rest.foldl (removeOne E block) (removeOne E block p y.withoutBlobTxSidecar)).lookup b nonce with
  | none => rfl
  | some z => exact absurd ((hrest hlookup).symm.trans hgone) (by simp)

/-! ## Other changes -/

theorem within_removeSelected {n : Node E.geth.State} (select : Address → Transaction → Bool) :
    n.pool.Within (E.removeSelected n select).1 := by
  rw [removeSelected_eq]
  refine within_foldl (fun p item => ?_) _ _
  unfold removeRound
  split
  · exact within_without
  · exact .refl

private theorem lookup_insertTransaction {sender : Address} :
    (Env.insertTransaction p sender tx bundle).lookup a nonce =
      if a = sender ∧ nonce = tx.nonce then some tx else p.lookup a nonce := by
  have hpending : (Env.insertTransaction p sender tx bundle).pending = p.pending.insert₂ sender tx.nonce tx := by
    unfold Env.insertTransaction
    simp only
    split <;> rfl
  change (Env.insertTransaction p sender tx bundle).pending.get₂ a nonce = _
  rw [hpending, Store.get₂_insert₂]
  rfl

theorem Entered.insertTransaction (N : p.Entered signer) :
    (Env.insertTransaction p (signer tx) tx bundle).Entered signer := by
  intro a nonce y hy
  rw [lookup_insertTransaction] at hy
  split at hy
  · next heq =>
    obtain rfl := Option.some.inj hy
    exact ⟨heq.1.symm, heq.2.symm⟩
  · exact N hy

end TransactionPool

end Ethertest
