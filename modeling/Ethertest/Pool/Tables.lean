-- SUMMARY: The tables of the transaction pool agree: what insertion, replacement and removal keep.
import Ethertest.Base.Nested
import Ethertest.Pool.Selection
import Ethertest.Refinement.Plans

/-!
# The tables of the pool

The pool keeps transactions by sender and nonce, arrival numbers by hash and blob bundles
by hash. `Sound` says that these agree. A transaction is taken out of all of them at once;
one that is put in gets a number of its own, or that of the one it replaces.
-/

namespace Ethertest

namespace TransactionPool

/-- The tables of the pool agree. -/
structure Sound (signer : Transaction → Address) (p : TransactionPool) : Prop where
  pruned : p.pending.Pruned
  entry : ∀ {a nonce tx}, p.lookup a nonce = some tx → signer tx = a ∧ tx.nonce = nonce
  hashes : ∀ {tx tx'}, p.Pooled tx → p.Pooled tx' → tx.hash = tx'.hash → tx = tx'
  arrived : ∀ hash, (p.arrival[hash]?).isSome ↔ ∃ tx, p.Pooled tx ∧ tx.hash = hash
  distinct : ∀ {hash hash' v : Nat}, p.arrival[hash]? = some v → p.arrival[hash']? = some v → hash = hash'
  bounded : ∀ {hash v : Nat}, p.arrival[hash]? = some v → v ≤ p.nextArrival
  bundled : ∀ {tx}, p.Pooled tx → tx.blobHashes ≠ [] → (p.blobs[tx.hash]?).isSome

theorem sound_empty {signer : Transaction → Address} : Sound signer {} where
  pruned a m h := by simp at h
  entry h := by simp [lookup] at h
  hashes h := by simp [Pooled, lookup] at h
  arrived hash := by simp [Pooled, lookup]
  distinct h := by simp at h
  bounded h := by simp at h
  bundled h := by simp [Pooled, lookup] at h

/-- The second pool is the first without some transactions. -/
def Shrinks (p q : TransactionPool) : Prop :=
  ∀ ⦃a nonce tx⦄, q.lookup a nonce = some tx →
    p.lookup a nonce = some tx ∧ q.arrival[tx.hash]? = p.arrival[tx.hash]?

theorem Shrinks.refl (p : TransactionPool) : p.Shrinks p := fun _ _ _ h => ⟨h, rfl⟩

theorem Shrinks.trans {p q r : TransactionPool} (h : p.Shrinks q) (h' : q.Shrinks r) : p.Shrinks r := by
  intro a nonce tx hlookup
  obtain ⟨hq, harrival⟩ := h' hlookup
  exact ⟨(h hq).1, harrival.trans (h hq).2⟩

/-! ## Removal -/

/-- Take the transaction of a sender and nonce out, with its arrival number; what happens to
its bundle is given. -/
def without (p : TransactionPool) (a : Address) (nonce : Nat) (hash : Hash) (blobs : Store Hash BlobBundle) :
    TransactionPool :=
  { p with pending := p.pending.erase₂ a nonce, arrival := p.arrival.erase hash, blobs := blobs }

section Removal

variable {signer : Transaction → Address} {p : TransactionPool} {a : Address} {nonce : Nat} {hash : Hash}
  {blobs : Store Hash BlobBundle}

theorem lookup_without {b : Address} {m : Nat} : (p.without a nonce hash blobs).lookup b m =
    if b = a ∧ m = nonce then none else p.lookup b m :=
  Store.get₂_erase₂

theorem lookup_of_without {b : Address} {m : Nat} {tx : Transaction}
    (h : (p.without a nonce hash blobs).lookup b m = some tx) : ¬(b = a ∧ m = nonce) ∧ p.lookup b m = some tx := by
  rw [lookup_without] at h
  split at h
  · cases h
  · next hne => exact ⟨hne, h⟩

/-- The hash is that of the transaction of the sender and nonce, if there is one, and of no other. -/
def Owned (p : TransactionPool) (a : Address) (nonce : Nat) (hash : Hash) : Prop :=
  ∀ ⦃b m tx⦄, p.lookup b m = some tx → (tx.hash = hash ↔ b = a ∧ m = nonce)

theorem shrinks_without (howned : p.Owned a nonce hash) : p.Shrinks (p.without a nonce hash blobs) := by
  intro b m tx hlookup
  obtain ⟨hne, hlookup⟩ := lookup_of_without hlookup
  refine ⟨hlookup, ?_⟩
  change (p.arrival.erase hash)[tx.hash]? = _
  rw [Store.get_erase, if_neg fun heq => hne ((howned hlookup).mp heq)]

theorem pooled_without (howned : p.Owned a nonce hash) {tx : Transaction} :
    (p.without a nonce hash blobs).Pooled tx ↔ p.Pooled tx ∧ tx.hash ≠ hash := by
  constructor
  · rintro ⟨b, m, h⟩
    obtain ⟨hne, hlookup⟩ := lookup_of_without h
    exact ⟨⟨b, m, hlookup⟩, fun heq => hne ((howned hlookup).mp heq)⟩
  · rintro ⟨⟨b, m, h⟩, hne⟩
    refine ⟨b, m, ?_⟩
    rw [lookup_without, if_neg fun heq => hne ((howned h).mpr heq), h]

theorem Sound.without (S : p.Sound signer) (howned : p.Owned a nonce hash)
    (hblobs : ∀ h ≠ hash, blobs[h]? = p.blobs[h]?) : (p.without a nonce hash blobs).Sound signer where
  pruned := S.pruned.erase₂
  entry h := S.entry (lookup_of_without h).2
  hashes h h' := S.hashes ((pooled_without howned).mp h).1 ((pooled_without howned).mp h').1
  arrived h := by
    change ((p.arrival.erase hash)[h]?).isSome ↔ _
    rw [Store.get_erase]
    split
    · next heq =>
      refine iff_of_false Bool.false_ne_true ?_
      rintro ⟨tx, htx, rfl⟩
      exact ((pooled_without howned).mp htx).2 heq
    · next hne =>
      rw [S.arrived]
      refine exists_congr fun tx => ?_
      rw [pooled_without howned]
      exact ⟨fun ⟨htx, heq⟩ => ⟨⟨htx, heq ▸ hne⟩, heq⟩, fun ⟨⟨htx, _⟩, heq⟩ => ⟨htx, heq⟩⟩
  distinct {h h' v} hv hv' := by
    change (p.arrival.erase hash)[h]? = _ at hv
    change (p.arrival.erase hash)[h']? = _ at hv'
    rw [Store.get_erase] at hv hv'
    split at hv
    · cases hv
    · split at hv'
      · cases hv'
      · exact S.distinct hv hv'
  bounded {h v} hv := by
    change (p.arrival.erase hash)[h]? = _ at hv
    rw [Store.get_erase] at hv
    split at hv
    · cases hv
    · exact S.bounded hv
  bundled {tx} htx hblob := by
    obtain ⟨hpooled, hne⟩ := (pooled_without howned).mp htx
    change (blobs[tx.hash]?).isSome
    rw [hblobs _ hne]
    exact S.bundled hpooled hblob

end Removal

/-! ## Insertion -/

section Insertion

variable {signer : Transaction → Address} {p q : TransactionPool} {a : Address} {tx : Transaction} {v : Nat}

/-- The second pool is the first with a new transaction under a new arrival number. -/
structure Puts (p q : TransactionPool) (a : Address) (tx : Transaction) (v : Nat) : Prop where
  pending : q.pending = p.pending.insert₂ a tx.nonce tx
  arrival : ∀ hash : Nat, q.arrival[hash]? = if hash = tx.hash then some v else p.arrival[hash]?
  blobs : ∀ hash ≠ tx.hash, q.blobs[hash]? = p.blobs[hash]?
  bundle : tx.blobHashes ≠ [] → (q.blobs[tx.hash]?).isSome
  next : p.nextArrival ≤ q.nextArrival ∧ v ≤ q.nextArrival

theorem Puts.lookup (h : p.Puts q a tx v) {b : Address} {m : Nat} :
    q.lookup b m = if b = a ∧ m = tx.nonce then some tx else p.lookup b m := by
  change q.pending.get₂ b m = _
  rw [h.pending]
  exact Store.get₂_insert₂

theorem Puts.pooled (h : p.Puts q a tx v) (hfree : p.lookup a tx.nonce = none) {y : Transaction} :
    q.Pooled y ↔ y = tx ∨ p.Pooled y := by
  constructor
  · rintro ⟨b, m, hy⟩
    rw [h.lookup] at hy
    split at hy
    · exact .inl (Option.some.inj hy).symm
    · exact .inr ⟨b, m, hy⟩
  · rintro (rfl | ⟨b, m, hy⟩)
    · exact ⟨a, y.nonce, by rw [h.lookup, if_pos ⟨rfl, rfl⟩]⟩
    · refine ⟨b, m, ?_⟩
      rw [h.lookup, if_neg, hy]
      rintro ⟨rfl, rfl⟩
      rw [hfree] at hy
      cases hy

theorem Sound.puts (S : p.Sound signer) (h : p.Puts q a tx v) (hsigner : signer tx = a)
    (hfree : p.lookup a tx.nonce = none) (hnew : ∀ y, p.Pooled y → y.hash ≠ tx.hash)
    (hv : ∀ hash : Nat, p.arrival[hash]? ≠ some v) : q.Sound signer where
  pruned := h.pending ▸ S.pruned.insert₂
  entry {b m y} hy := by
    rw [h.lookup] at hy
    split at hy
    · next heq =>
      obtain rfl := Option.some.inj hy
      exact ⟨hsigner.trans heq.1.symm, heq.2.symm⟩
    · exact S.entry hy
  hashes {x y} hx hy heq := by
    rcases (h.pooled hfree).mp hx with rfl | hx <;> rcases (h.pooled hfree).mp hy with rfl | hy
    · rfl
    · exact absurd heq.symm (hnew y hy)
    · exact absurd heq (hnew x hx)
    · exact S.hashes hx hy heq
  arrived hash := by
    rw [h.arrival]
    split
    · next heq => exact iff_of_true rfl ⟨tx, (h.pooled hfree).mpr (.inl rfl), heq.symm⟩
    · next hne =>
      rw [S.arrived]
      constructor
      · rintro ⟨y, hy, rfl⟩
        exact ⟨y, (h.pooled hfree).mpr (.inr hy), rfl⟩
      · rintro ⟨y, hy, rfl⟩
        rcases (h.pooled hfree).mp hy with rfl | hy
        · exact absurd rfl hne
        · exact ⟨y, hy, rfl⟩
  distinct {hash hash' w} hw hw' := by
    rw [h.arrival] at hw hw'
    split at hw <;> split at hw'
    · next heq heq' => exact heq.trans heq'.symm
    · exact absurd (hw' ▸ hw.symm ▸ rfl) (hv hash')
    · exact absurd (hw ▸ hw'.symm ▸ rfl) (hv hash)
    · exact S.distinct hw hw'
  bounded {hash w} hw := by
    rw [h.arrival] at hw
    split at hw
    · exact Option.some.inj hw ▸ h.next.2
    · exact (S.bounded hw).trans h.next.1
  bundled {y} hy hblob := by
    rcases (h.pooled hfree).mp hy with rfl | hy
    · exact h.bundle hblob
    · rw [h.blobs _ (hnew y hy)]
      exact S.bundled hy hblob

end Insertion

/-! ## The operations of the source -/

/-- In a pool that shrank from a sound one, the hash of an entry of that one belongs to its place. -/
theorem Sound.owned {signer : Transaction → Address} {p q : TransactionPool} (S : p.Sound signer) (h : p.Shrinks q)
    {a : Address} {nonce : Nat} {tx : Transaction} (htx : p.lookup a nonce = some tx) : q.Owned a nonce tx.hash := by
  intro b m y hy
  have hy := (h hy).1
  constructor
  · intro heq
    obtain rfl := S.hashes ⟨b, m, hy⟩ ⟨a, nonce, htx⟩ heq
    exact ⟨(S.entry hy).1.symm.trans (S.entry htx).1, (S.entry hy).2.symm.trans (S.entry htx).2⟩
  · rintro ⟨rfl, rfl⟩
    rw [Option.some.inj (hy.symm.trans htx)]

/-- What is kept by a loop that takes transactions of the pool out. -/
theorem foldl_keeps {α : Type} {signer : Transaction → Address} {p : TransactionPool} (S : p.Sound signer)
    {items : List α} {step : TransactionPool → α → TransactionPool}
    (hstep : ∀ item ∈ items, ∀ q, q.Sound signer → p.Shrinks q →
      step q item = q ∨ ∃ a nonce tx blobs, p.lookup a nonce = some tx ∧ step q item = q.without a nonce tx.hash blobs ∧
        ∀ h ≠ tx.hash, blobs[h]? = q.blobs[h]?) :
    (items.foldl step p).Sound signer ∧ p.Shrinks (items.foldl step p) := by
  suffices h : ∀ (items' : List α) q, items' ⊆ items → q.Sound signer → p.Shrinks q →
      (items'.foldl step q).Sound signer ∧ p.Shrinks (items'.foldl step q) from
    h items p (List.Subset.refl _) S (Shrinks.refl p)
  intro items'
  induction items' with
  | nil => exact fun q _ hq hshrinks => ⟨hq, hshrinks⟩
  | cons item rest ih =>
    intro q hsub hq hshrinks
    have hrest : rest ⊆ items := fun x hx => hsub (List.mem_cons_of_mem _ hx)
    rw [List.foldl_cons]
    rcases hstep item (hsub List.mem_cons_self) q hq hshrinks with heq | ⟨a, nonce, tx, blobs, htx, heq, hblobs⟩
    · rw [heq]
      exact ih q hrest hq hshrinks
    · have howned := S.owned hshrinks htx
      rw [heq]
      exact ih _ hrest (hq.without howned hblobs) (hshrinks.trans (shrinks_without howned))

end TransactionPool

/-- What is assumed of geth's transactions: a sender does not depend on the fork or on the
sidecar, and a validated transaction has a sender, and a sidecar if it has blobs. -/
structure Env.Signed (E : Env) (signer : Transaction → Address) : Prop where
  sender : ∀ {number time tx a}, E.geth.sender E.config number time tx = .ok a → signer tx = a
  stripped : ∀ tx, signer tx.withoutBlobTxSidecar = signer tx
  validated : ∀ {header tx tx'}, E.geth.validateTransaction E.config header tx = .ok () →
    tx'.withoutBlobTxSidecar = tx.withoutBlobTxSidecar →
    ∃ a, E.geth.sender E.config header.number header.time tx' = .ok a
  sidecar : ∀ {header tx}, E.geth.validateTransaction E.config header tx = .ok () → tx.blobHashes ≠ [] →
    tx.sidecar.isSome

namespace TransactionPool

variable {E : Env} {signer : Transaction → Address} {p : TransactionPool}

theorem removeMined_keeps (hS : E.Signed signer) (S : p.Sound signer) {block : Block}
    (hmined : ∀ tx ∈ block.transactions, ∃ y, p.Pooled y ∧ tx = y.withoutBlobTxSidecar) :
    (p.removeMined E block).Sound signer ∧ p.Shrinks (p.removeMined E block) := by
  refine foldl_keeps S fun tx htx q _ _ => ?_
  obtain ⟨y, ⟨a, nonce, hy⟩, rfl⟩ := hmined tx htx
  cases hsender : E.geth.sender E.config block.number block.time y.withoutBlobTxSidecar with
  | error err => exact .inl rfl
  | ok sender =>
    obtain ⟨hown, hnonce⟩ := S.entry hy
    obtain rfl : sender = a := (hS.sender hsender).symm.trans ((hS.stripped y).trans hown)
    obtain rfl := hnonce
    exact .inr ⟨sender, y.nonce, y, q.blobs.erase y.hash, hy, rfl, fun h hne => by rw [Store.get_erase, if_neg hne]⟩

/-- One round of the loop of `removeSelected`. -/
def removeRound (n : Node E.geth.State) (select : Address → Transaction → Bool) (p : TransactionPool)
    (item : Address × Nat × Transaction) : TransactionPool :=
  if select item.1 item.2.2 then
    p.without item.1 item.2.1 item.2.2.hash
      (if n.db.has (.blob item.2.2.hash) then p.blobs else p.blobs.erase item.2.2.hash)
  else p

theorem removeSelected_eq (n : Node E.geth.State) (select : Address → Transaction → Bool) :
    (E.removeSelected n select).1 =
      (n.pool.pending.toList.flatMap fun byNonce => byNonce.2.toList.map fun item => (byNonce.1, item)).foldl
        (removeRound n select) n.pool := by
  rw [Env.removeSelected, List.foldl_flatMap]
  simp only [List.foldl_map]
  refine (List.foldl_hom Prod.fst fun acc byNonce => ?_).symm
  refine List.foldl_hom Prod.fst fun acc item => ?_
  rw [removeRound]
  split <;> rfl

theorem removeSelected_keeps {n : Node E.geth.State} {select : Address → Transaction → Bool}
    (S : n.pool.Sound signer) :
    (E.removeSelected n select).1.Sound signer ∧ n.pool.Shrinks (E.removeSelected n select).1 := by
  rw [removeSelected_eq]
  refine foldl_keeps S fun item hitem q _ _ => ?_
  obtain ⟨⟨a, m⟩, hm, hitem⟩ := List.mem_flatMap.mp hitem
  obtain ⟨⟨nonce, tx⟩, htx, rfl⟩ := List.mem_map.mp hitem
  have hlookup : n.pool.lookup a nonce = some tx := by
    rw [lookup, Store.mem_toList.mp hm]
    exact Store.mem_toList.mp htx
  rw [removeRound]
  split
  · refine .inr ⟨a, nonce, tx, _, hlookup, rfl, fun h hne => ?_⟩
    split
    · rfl
    · rw [Store.get_erase, if_neg hne]
  · exact .inl rfl

/-- Every pooled transaction is the one that its hash stands for, its sidecar aside. -/
def Genuine (content : Hash → Transaction) (p : TransactionPool) : Prop :=
  ∀ ⦃tx⦄, p.Pooled tx → tx.withoutBlobTxSidecar = content tx.hash

theorem Genuine.shrinks {content : Hash → Transaction} {q : TransactionPool} (G : p.Genuine content)
    (h : p.Shrinks q) : q.Genuine content := by
  rintro tx ⟨a, nonce, htx⟩
  exact G ⟨a, nonce, (h htx).1⟩

/-- What a transaction has to meet for the pool to stay sound: its hash is one, it is not a
pooled transaction sent again with both caps below ten, and arrivals can still be counted. -/
structure Admits (content : Hash → Transaction) (signer : Transaction → Address) (p : TransactionPool)
    (tx : Transaction) : Prop where
  genuine : tx.withoutBlobTxSidecar = content tx.hash
  priced : ∀ previous ∈ p.lookup (signer tx) tx.nonce, previous.hash = tx.hash →
    10 ≤ tx.gasFeeCap ∨ 10 ≤ tx.gasTipCap
  counted : p.lookup (signer tx) tx.nonce = none → p.nextArrival + 1 < 2 ^ 64

section Insert

variable {content : Hash → Transaction} {tx previous : Transaction} {bundle : Option BlobBundle}

/-- A replacement that is accepted has another hash. -/
theorem Admits.hash_ne (G : p.Genuine content) (A : p.Admits content signer tx)
    (hprevious : p.lookup (signer tx) tx.nonce = some previous)
    (hprice : Env.checkReplacement tx (some previous) = .ok ()) : previous.hash ≠ tx.hash := by
  intro heq
  have hsame : previous.withoutBlobTxSidecar = tx.withoutBlobTxSidecar := by
    rw [G ⟨_, _, hprevious⟩, A.genuine, heq]
  have hfee : previous.gasFeeCap = tx.gasFeeCap := (congrArg Transaction.gasFeeCap hsame :)
  have htip : previous.gasTipCap = tx.gasTipCap := (congrArg Transaction.gasTipCap hsame :)
  simp only [Env.checkReplacement, failIf_eq_ok, hfee, htip] at hprice
  have := A.priced previous hprevious heq
  omega

/-- No pooled transaction elsewhere has the hash of an admitted one. -/
theorem Admits.hash_new (hS : E.Signed signer) (S : p.Sound signer) (G : p.Genuine content)
    (A : p.Admits content signer tx) {b : Address} {m : Nat} {y : Transaction} (hy : p.lookup b m = some y)
    (heq : y.hash = tx.hash) : b = signer tx ∧ m = tx.nonce := by
  have hsame : y.withoutBlobTxSidecar = tx.withoutBlobTxSidecar := by
    rw [G ⟨_, _, hy⟩, A.genuine, heq]
  obtain ⟨hsigner, hnonce⟩ := S.entry hy
  refine ⟨?_, hnonce.symm.trans (congrArg Transaction.nonce hsame :)⟩
  rw [← hsigner, ← hS.stripped, hsame, hS.stripped]

variable (hbundle : tx.blobHashes ≠ [] → bundle.isSome)
include hbundle

theorem puts_fresh (hfree : p.lookup (signer tx) tx.nonce = none) (hcount : p.nextArrival + 1 < 2 ^ 64) :
    p.Puts (Env.insertTransaction p (signer tx) tx bundle) (signer tx) tx (p.nextArrival + 1) := by
  have hinner : (p.pending[signer tx]?.getD ∅)[tx.nonce]? = none := by
    rw [Store.get_inner]
    exact hfree
  have hnext : (p.nextArrival + 1) % 2 ^ 64 = p.nextArrival + 1 := Nat.mod_eq_of_lt hcount
  constructor
  · simp only [Env.insertTransaction, hinner]
    rfl
  · intro hash
    simp only [Env.insertTransaction, hinner, hnext, Store.get_insert]
  · intro hash hne
    simp only [Env.insertTransaction, hinner]
    cases bundle with
    | none => rfl
    | some b => exact (Store.get_insert _ _ _ _).trans (if_neg hne)
  · intro hblob
    obtain ⟨b, rfl⟩ := Option.isSome_iff_exists.mp (hbundle hblob)
    simp only [Env.insertTransaction, hinner, Option.elim_some, Store.get_insert, if_pos, Option.isSome_some]
  · simp only [Env.insertTransaction, hinner, hnext]
    omega

theorem puts_replaced (hprevious : p.lookup (signer tx) tx.nonce = some previous) (hne : previous.hash ≠ tx.hash)
    {v : Nat} (hv : p.arrival[previous.hash]? = some v) (hle : v ≤ p.nextArrival) :
    (p.without (signer tx) tx.nonce previous.hash (p.blobs.erase previous.hash)).Puts
      (Env.insertTransaction p (signer tx) tx bundle) (signer tx) tx v := by
  have hinner : (p.pending[signer tx]?.getD ∅)[tx.nonce]? = some previous := by
    rw [Store.get_inner]
    exact hprevious
  constructor
  · simp only [Env.insertTransaction, hinner]
    exact Store.insert₂_erase₂.symm
  · intro hash
    simp only [Env.insertTransaction, hinner, without, Store.get_erase, Store.get_insert, hv, Option.getD_some]
    by_cases heq : hash = previous.hash
    · rw [if_pos heq, if_pos heq, if_neg (heq ▸ hne)]
    · rw [if_neg heq, if_neg heq]
  · intro hash hne'
    simp only [Env.insertTransaction, hinner]
    cases bundle with
    | none => rfl
    | some b => exact (Store.get_insert _ _ _ _).trans (if_neg hne')
  · intro hblob
    obtain ⟨b, rfl⟩ := Option.isSome_iff_exists.mp (hbundle hblob)
    simp only [Env.insertTransaction, hinner, Option.elim_some, Store.get_insert, if_pos, Option.isSome_some]
  · simp only [Env.insertTransaction, hinner]
    exact ⟨le_rfl, hle⟩

/-- What an insertion does to a sound pool: the transaction is pooled, under the number of the
one that it replaces if there is one; what else is pooled was so before. -/
structure Inserted (signer : Transaction → Address) (content : Hash → Transaction) (p q : TransactionPool)
    (tx : Transaction) : Prop where
  sound : q.Sound signer
  genuine : q.Genuine content
  lookup : ∀ b m, q.lookup b m = if b = signer tx ∧ m = tx.nonce then some tx else p.lookup b m
  replaced : ∀ previous ∈ p.lookup (signer tx) tx.nonce, q.arrival[tx.hash]? = p.arrival[previous.hash]?
  others : ∀ ⦃b m y⦄, p.lookup b m = some y → ¬(b = signer tx ∧ m = tx.nonce) →
    q.arrival[y.hash]? = p.arrival[y.hash]?

theorem inserted_fresh (hS : E.Signed signer) (S : p.Sound signer) (G : p.Genuine content)
    (A : p.Admits content signer tx) (hlookup : p.lookup (signer tx) tx.nonce = none) :
    Inserted signer content p (Env.insertTransaction p (signer tx) tx bundle) tx := by
  have hnew : ∀ y, p.Pooled y → y.hash ≠ tx.hash := by
    rintro y ⟨b, m, hy⟩ heq
    obtain ⟨rfl, rfl⟩ := A.hash_new hS S G hy heq
    rw [hlookup] at hy
    cases hy
  have hputs := puts_fresh hbundle hlookup (A.counted hlookup)
  refine ⟨S.puts hputs rfl hlookup hnew fun hash h => ?_, ?_, fun b m => hputs.lookup, by simp [hlookup], ?_⟩
  · exact absurd (S.bounded h) (by omega)
  · intro y hy
    rcases (hputs.pooled hlookup).mp hy with rfl | hy
    · exact A.genuine
    · exact G hy
  · intro b m y hy _
    rw [hputs.arrival, if_neg (hnew y ⟨b, m, hy⟩)]

theorem inserted_replaced (hS : E.Signed signer) (S : p.Sound signer) (G : p.Genuine content)
    (A : p.Admits content signer tx) (hlookup : p.lookup (signer tx) tx.nonce = some previous)
    (hne : previous.hash ≠ tx.hash) :
    Inserted signer content p (Env.insertTransaction p (signer tx) tx bundle) tx := by
  obtain ⟨v, hv⟩ := Option.isSome_iff_exists.mp ((S.arrived previous.hash).mpr ⟨previous, ⟨_, _, hlookup⟩, rfl⟩)
  have hputs := puts_replaced hbundle hlookup hne hv (S.bounded hv)
  have howned := S.owned (Shrinks.refl p) hlookup
  -- the pool between taking the one out and putting the other in
  obtain ⟨q, hq⟩ : ∃ q, q = p.without (signer tx) tx.nonce previous.hash (p.blobs.erase previous.hash) := ⟨_, rfl⟩
  have hout : q.Sound signer := hq ▸ S.without howned fun h hne => by rw [Store.get_erase, if_neg hne]
  have hshrinks : p.Shrinks q := hq ▸ shrinks_without howned
  have hbetween {b m} : q.lookup b m = if b = signer tx ∧ m = tx.nonce then none else p.lookup b m :=
    hq ▸ lookup_without
  have hfree : q.lookup (signer tx) tx.nonce = none := by rw [hbetween, if_pos ⟨rfl, rfl⟩]
  have hnew : ∀ y, q.Pooled y → y.hash ≠ tx.hash := by
    rintro y ⟨b, m, hy⟩ heq
    obtain ⟨rfl, rfl⟩ := A.hash_new hS S G (hshrinks hy).1 heq
    rw [hfree] at hy
    cases hy
  have hnumber : ∀ hash : Nat, q.arrival[hash]? ≠ some v := by
    intro hash h
    rw [hq, without, Store.get_erase] at h
    split at h
    · cases h
    · next hother => exact hother (S.distinct h hv)
  rw [← hq] at hputs
  refine ⟨hout.puts hputs rfl hfree hnew hnumber, fun y hy => ?_, fun b m => ?_, fun y hy => ?_,
    fun b m y hy hplace => ?_⟩
  · rcases (hputs.pooled hfree).mp hy with rfl | hy
    · exact A.genuine
    · exact G.shrinks hshrinks hy
  · rw [hputs.lookup, hbetween]
    split <;> rfl
  · obtain rfl := Option.some.inj (hlookup.symm.trans hy)
    rw [hputs.arrival, if_pos rfl, hv]
  · have hy' : q.lookup b m = some y := by rw [hbetween, if_neg hplace, hy]
    rw [hputs.arrival, if_neg (hnew y ⟨b, m, hy'⟩), (hshrinks hy').2]

theorem insertTransaction_inserted (hS : E.Signed signer) (S : p.Sound signer) (G : p.Genuine content)
    (A : p.Admits content signer tx) (hprice : Env.checkReplacement tx (p.lookup (signer tx) tx.nonce) = .ok ()) :
    Inserted signer content p (Env.insertTransaction p (signer tx) tx bundle) tx := by
  cases hlookup : p.lookup (signer tx) tx.nonce with
  | none => exact inserted_fresh hbundle hS S G A hlookup
  | some previous => exact inserted_replaced hbundle hS S G A hlookup (A.hash_ne G hlookup (hlookup ▸ hprice))

end Insert

end TransactionPool

end Ethertest
