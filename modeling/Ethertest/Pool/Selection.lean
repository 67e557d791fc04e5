-- SUMMARY: The choice of transactions for a block is a greedy merge of the senders' queues.
import Ethertest.Base.Merge
import Ethertest.Reference

/-!
# The choice of transactions

The source looks through a map of next nonces, in whatever order the map gives, for the
transaction that comes first. The senders' queues are streams, and what it collects is a
merge of them. `orders` below stands for the orders in which the rounds see the map.
-/

namespace Ethertest

namespace TransactionPool

variable (p : TransactionPool) (nonceOf : Address → Nat)

/-- The transaction is in the pool. -/
def Pooled (tx : Transaction) : Prop := ∃ a nonce, p.lookup a nonce = some tx

/-- The transaction is `k` places from the sender's nonce, without a gap up to it. -/
def Reachable (a : Address) (k : Nat) (tx : Transaction) : Prop := Merge.Reaches p.lookup nonceOf a k tx

/-- The transaction is the sender's next one after those in `front` were taken. -/
def Next (front : List Transaction) (a : Address) (tx : Transaction) : Prop :=
  ∃ k, p.Reachable nonceOf a k tx ∧ tx ∉ front ∧ ∀ j < k, ∀ y, p.Reachable nonceOf a j y → y ∈ front

/-- What a choice of transactions is for. -/
structure Selects (before : Transaction → Transaction → Bool) (txs : List Transaction) : Prop where
  /-- precisely the transactions in front of the first gap of their sender -/
  exactly : ∀ tx, tx ∈ txs ↔ ∃ a k, p.Reachable nonceOf a k tx
  once : txs.Nodup
  increasing : txs.Pairwise fun x y => ∀ a nonce nonce', p.lookup a nonce = some x → p.lookup a nonce' = some y →
    nonce < nonce'
  /-- every choice is the first of the transactions that come next -/
  least : ∀ front tx back, txs = front ++ tx :: back → (∃ a, p.Next nonceOf front a tx) ∧
    ∀ a tx', p.Next nonceOf front a tx' → tx' = tx ∨ before tx tx' = true

/-- The senders and nonces of the pooled transactions. -/
def entries : List (Address × Nat) :=
  p.pending.toList.flatMap fun byNonce => byNonce.2.toList.map fun item => (byNonce.1, item.1)

theorem length_entries : p.entries.length = p.count := by
  simp [entries, count, List.length_flatMap, Std.ExtTreeMap.length_toList]

theorem mem_entries {a : Address} {nonce : Nat} : (a, nonce) ∈ p.entries ↔ (p.lookup a nonce).isSome := by
  simp only [entries, List.mem_flatMap, List.mem_map, Prod.mk.injEq, lookup, Option.isSome_iff_exists,
    Option.bind_eq_some_iff]
  constructor
  · rintro ⟨⟨a', m⟩, hm, ⟨nonce', tx⟩, htx, rfl, rfl⟩
    exact ⟨tx, m, Store.mem_toList.mp hm, Store.mem_toList.mp htx⟩
  · rintro ⟨tx, m, hm, htx⟩
    exact ⟨(a, m), Store.mem_toList.mpr hm, (nonce, tx), Store.mem_toList.mpr htx, rfl, rfl⟩

end TransactionPool

namespace Env

variable (E : Env) {σ : Type}

/-! ## One round -/

/-- `selectTransaction` over the map's entries in a given order. -/
def selectTransactionIn (n : Node σ) (baseFee : Option Nat) (items : List (Address × Nat)) :
    Option (Address × Transaction) :=
  items.foldl
    (fun selected item =>
      match n.pool.lookup item.1 item.2, selected with
      | none, _ => selected
      | some tx, none => some (item.1, tx)
      | some tx, some best =>
        if E.transactionBefore n baseFee tx best.2 then some (item.1, tx) else selected)
    none

/-- The next transactions of the senders. -/
def candidates (n : Node σ) (items : List (Address × Nat)) : List (Address × Transaction) :=
  items.filterMap fun item => (n.pool.lookup item.1 item.2).map fun tx => (item.1, tx)

variable {E} {n : Node σ} {baseFee : Option Nat}

theorem selectTransactionIn_eq (items : List (Address × Nat)) : E.selectTransactionIn n baseFee items =
    Merge.least (fun x y => E.transactionBefore n baseFee x.2 y.2) (candidates n items) := by
  rw [Merge.least, candidates, List.foldl_filterMap, selectTransactionIn]
  congr 1
  funext selected item
  cases n.pool.lookup item.1 item.2 with
  | none => rfl
  | some tx => cases selected <;> rfl

variable {a : Address} {tx : Transaction} {pos : Address → Nat} {signer : Transaction → Address}
  {accounts : List (Address × Store Nat Transaction)}

theorem mem_candidates {items : List (Address × Nat)} :
    (a, tx) ∈ candidates n items ↔ ∃ nonce, (a, nonce) ∈ items ∧ n.pool.lookup a nonce = some tx := by
  simp only [candidates, List.mem_filterMap, Option.map_eq_some_iff, Prod.mk.injEq]
  constructor
  · rintro ⟨⟨a', nonce⟩, hitem, tx', hlookup, rfl, rfl⟩
    exact ⟨nonce, hitem, hlookup⟩
  · rintro ⟨nonce, hitem, hlookup⟩
    exact ⟨(a, nonce), hitem, tx, hlookup, rfl, rfl⟩

/-! ## The loop -/

variable (E n baseFee) in
/-- The selection loop with its rounds in given orders, as a list of senders and transactions. -/
def selectTrace (orders : Nat → Store Address Nat → List (Address × Nat)) :
    Nat → Store Address Nat → List (Address × Transaction)
  | 0, _ => []
  | fuel + 1, nextNonce =>
    match E.selectTransactionIn n baseFee (orders fuel nextNonce) with
    | none => []
    | some (address, tx) =>
      (address, tx) :: selectTrace orders fuel (nextNonce.insert address ((nextNonce[address]?.getD 0 + 1) % 2 ^ 64))

/-- The loop of the model looks through the map in the order of its keys. -/
theorem selectLoop_eq (fuel : Nat) (nextNonce : Store Address Nat) : E.selectLoop n baseFee fuel nextNonce =
    (E.selectTrace n baseFee (fun _ s => s.toList) fuel nextNonce).map (·.2) := by
  induction fuel generalizing nextNonce with
  | zero => rfl
  | succ fuel ih =>
    rw [selectLoop, selectTrace]
    change (match E.selectTransactionIn n baseFee nextNonce.toList with | none => _ | some (address, tx) => _) = _
    cases E.selectTransactionIn n baseFee nextNonce.toList with
    | none => rfl
    | some item => exact congrArg (item.2 :: ·) (ih _)

/-! ## The order -/

/-- What the choice of transactions rests on: entries under their sender and nonce, distinct
hashes, nonces that can be counted up, and distinct arrival numbers if they are compared. -/
structure Keyed (E : Env) (n : Node σ) (signer : Transaction → Address) : Prop where
  entry : ∀ {a nonce tx}, n.pool.lookup a nonce = some tx → signer tx = a ∧ tx.nonce = nonce
  hashes : ∀ {tx tx'}, n.pool.Pooled tx → n.pool.Pooled tx' → tx.hash = tx'.hash → tx = tx'
  nonces : ∀ {tx}, n.pool.Pooled tx → tx.nonce < maxUint64
  arrivals : E.cfg.mining.order = .fifo → ∀ {tx tx'}, n.pool.Pooled tx → n.pool.Pooled tx' →
    n.pool.arrival[tx.hash]?.getD 0 = n.pool.arrival[tx'.hash]?.getD 0 → tx = tx'

namespace Keyed

variable {signer : Transaction → Address} (K : Keyed E n signer)
include K

/-- `transactionBefore` is a strict total order on the pool. -/
theorem strictOn : Merge.StrictOn (E.transactionBefore n baseFee) n.pool.Pooled := by
  cases horder : E.cfg.mining.order with
  | fifo =>
    constructor
    · intro x y _ _ h
      simp only [transactionBefore, horder, decide_eq_true_eq, decide_eq_false_iff_not] at h ⊢
      omega
    · intro x y z _ _ _ h h'
      simp only [transactionBefore, horder, decide_eq_true_eq] at h h' ⊢
      omega
    · intro x y hx hy hne
      simp only [transactionBefore, horder, decide_eq_true_eq]
      exact Nat.lt_or_gt_of_ne fun heq => hne (K.arrivals horder hx hy heq)
  | fees =>
    constructor
    · intro x y _ _ h
      simp only [transactionBefore, horder] at h ⊢
      grind
    · intro x y z _ _ _ h h'
      simp only [transactionBefore, horder] at h h' ⊢
      grind
    · intro x y hx hy hne
      have hhash : x.hash ≠ y.hash := fun heq => hne (K.hashes hx hy heq)
      simp only [transactionBefore, horder]
      grind

theorem pooled_of_candidate {items : List (Address × Nat)} {c : Address × Transaction}
    (hc : c ∈ candidates n items) : n.pool.Pooled c.2 ∧ signer c.2 = c.1 := by
  obtain ⟨nonce, -, hlookup⟩ := mem_candidates.mp hc
  exact ⟨⟨_, _, hlookup⟩, (K.entry hlookup).1⟩

/-- The order of the pool, on entries with their senders. -/
theorem strictOn_entries : Merge.StrictOn (fun x y : Address × Transaction => E.transactionBefore n baseFee x.2 y.2)
    fun c => n.pool.Pooled c.2 ∧ signer c.2 = c.1 where
  asymm hx hy := K.strictOn.asymm hx.1 hy.1
  trans hx hy hz := K.strictOn.trans hx.1 hy.1 hz.1
  total := by
    rintro ⟨a, x⟩ ⟨b, y⟩ ⟨hx, hsx⟩ ⟨hy, hsy⟩ hne
    refine K.strictOn.total hx hy fun heq => hne ?_
    simp only at heq hsx hsy
    rw [← hsx, ← hsy, heq]

end Keyed

/-! ## Rounds are steps of a merge -/

/-- The map of next nonces holds the positions of the senders in the pool. -/
def Holds (n : Node σ) (s : Store Address Nat) (pos : Address → Nat) : Prop :=
  ∀ a, s[a]? = if n.pool.pending[a]?.isSome then some (pos a) else none

theorem isSome_pending {nonce : Nat} (h : n.pool.lookup a nonce = some tx) : n.pool.pending[a]?.isSome := by
  rw [TransactionPool.lookup, Option.bind_eq_some_iff] at h
  obtain ⟨m, hm, -⟩ := h
  rw [hm]
  rfl

section Rounds

variable {signer : Transaction → Address} (K : Keyed E n signer) {s : Store Address Nat} {pos : Address → Nat}
  (hs : Holds n s pos) {items : List (Address × Nat)} (hitems : items.Perm s.toList)
include hs hitems

variable {a : Address} {tx : Transaction}

theorem mem_candidates_iff : (a, tx) ∈ candidates n items ↔ n.pool.lookup a (pos a) = some tx := by
  rw [mem_candidates]
  constructor
  · rintro ⟨nonce, hmem, hlookup⟩
    have hget := Store.mem_toList.mp (hitems.mem_iff.mp hmem)
    rw [hs a, if_pos (isSome_pending hlookup)] at hget
    rwa [Option.some.inj hget]
  · intro hlookup
    refine ⟨pos a, hitems.mem_iff.mpr (Store.mem_toList.mpr ?_), hlookup⟩
    rw [hs a, if_pos (isSome_pending hlookup)]

include K

omit K in
/-- A round finds nothing when no sender has a next transaction. -/
theorem select_none (h : E.selectTransactionIn n baseFee items = none) (a : Address) :
    n.pool.lookup a (pos a) = none := by
  rw [selectTransactionIn_eq, Merge.least_eq_none] at h
  cases hlookup : n.pool.lookup a (pos a) with
  | none => rfl
  | some tx =>
    have hmem := (mem_candidates_iff hs hitems).mpr hlookup
    rw [h] at hmem
    cases hmem

/-- A round finds the first of the next transactions. -/
theorem select_some (h : E.selectTransactionIn n baseFee items = some (a, tx)) :
    n.pool.lookup a (pos a) = some tx ∧
      ∀ b y, b ≠ a → n.pool.lookup b (pos b) = some y → E.transactionBefore n baseFee tx y = true := by
  rw [selectTransactionIn_eq, Merge.least_eq_some K.strictOn_entries fun c hc => K.pooled_of_candidate hc] at h
  refine ⟨(mem_candidates_iff hs hitems).mp h.1, fun b y hne hlookup => ?_⟩
  rcases h.2 (b, y) ((mem_candidates_iff hs hitems).mpr hlookup) with heq | hlt
  · exact absurd (congrArg Prod.fst heq) hne
  · exact hlt

omit hitems in
/-- The map after a round. -/
theorem holds_advance (hlookup : n.pool.lookup a (pos a) = some tx) :
    Holds n (s.insert a ((s[a]?.getD 0 + 1) % 2 ^ 64)) (Merge.advance pos a) := by
  have hnonce : (pos a + 1) % 2 ^ 64 = pos a + 1 := by
    have hlt : pos a < maxUint64 := (K.entry hlookup).2 ▸ K.nonces ⟨_, _, hlookup⟩
    unfold maxUint64 at hlt
    omega
  intro b
  rw [Store.get_insert, hs a, if_pos (isSome_pending hlookup), Option.getD_some, hnonce, Merge.advance]
  by_cases hb : b = a
  · subst hb
    rw [if_pos rfl, Function.update_self, if_pos (isSome_pending hlookup)]
  · rw [if_neg hb, Function.update_of_ne hb, hs b]

end Rounds

/-! ## The loop is a merge -/

/-- How many pooled transactions are still ahead. -/
def remaining (p : TransactionPool) (pos : Address → Nat) : Nat := p.entries.countP fun e => pos e.1 ≤ e.2

private theorem countP_lt {α : Type} {l : List α} {P Q : α → Bool} (hle : ∀ x, Q x = true → P x = true)
    {x : α} (hx : x ∈ l)
    (hP : P x = true) (hQ : Q x = false) : l.countP Q < l.countP P := by
  induction l with
  | nil => cases hx
  | cons y l ih =>
    have hmono : l.countP Q ≤ l.countP P := List.countP_mono_left fun z _ => hle z
    rw [List.countP_cons, List.countP_cons]
    rcases List.mem_cons.mp hx with rfl | hx
    · rw [if_pos hP, hQ, if_neg Bool.false_ne_true]
      omega
    · have := ih hx
      have := hle y
      split <;> split <;> simp_all

private theorem remaining_advance (h : n.pool.lookup a (pos a) = some tx) :
    remaining n.pool (Merge.advance pos a) < remaining n.pool pos := by
  refine countP_lt (fun e he => ?_) (n.pool.mem_entries.mpr (Option.isSome_iff_exists.mpr ⟨tx, h⟩)) ?_ ?_
  · have hle : pos e.1 ≤ Merge.advance pos a e.1 := by
      rw [Merge.advance, Function.update_apply]
      split
      · next heq => exact heq ▸ Nat.le_succ _
      · exact le_rfl
    exact decide_eq_true (hle.trans (of_decide_eq_true he))
  · simp
  · simp [Merge.advance]

theorem selectTrace_merges (K : Keyed E n signer) {orders : Nat → Store Address Nat → List (Address × Nat)}
    (horders : ∀ k s, (orders k s).Perm s.toList) {fuel : Nat} {s : Store Address Nat} (hs : Holds n s pos)
    (hfuel : remaining n.pool pos ≤ fuel) :
    Merge.Merges n.pool.lookup (E.transactionBefore n baseFee) pos (E.selectTrace n baseFee orders fuel s) := by
  induction fuel generalizing s pos with
  | zero =>
    refine .done fun a => ?_
    cases hlookup : n.pool.lookup a (pos a) with
    | none => rfl
    | some tx => exact absurd (remaining_advance hlookup) (by omega)
  | succ fuel ih =>
    rw [selectTrace]
    cases hselect : E.selectTransactionIn n baseFee (orders fuel s) with
    | none => exact .done (select_none hs (horders fuel s) hselect)
    | some item =>
      obtain ⟨a, tx⟩ := item
      obtain ⟨hlookup, hleast⟩ := select_some K hs (horders fuel s) hselect
      have hlt := remaining_advance hlookup
      exact .take hlookup hleast (ih (holds_advance K hs hlookup) (by omega))

variable (E) in
/-- The nonces that the loop starts with, over the accounts in a given order. -/
def startNonces (state : E.geth.State) (accounts : List (Address × Store Nat Transaction)) : Store Address Nat :=
  accounts.foldl (fun acc item => acc.insert item.1 (E.geth.getNonce state item.1)) ∅

private theorem startNonces_get {state : E.geth.State} :
    (E.startNonces state accounts)[a]? =
      if a ∈ accounts.map (·.1) then some (E.geth.getNonce state a) else none := by
  have hfold (acc : Store Address Nat) :
      (accounts.foldl (fun acc item => acc.insert item.1 (E.geth.getNonce state item.1)) acc)[a]? =
        if a ∈ accounts.map (·.1) then some (E.geth.getNonce state a) else acc[a]? := by
    induction accounts generalizing acc with
    | nil => simp
    | cons item accounts ih =>
      rw [List.foldl_cons, ih, Store.get_insert, List.map_cons]
      by_cases hmem : a ∈ accounts.map (·.1)
      · rw [if_pos hmem, if_pos (List.mem_cons_of_mem _ hmem)]
      · by_cases heq : a = item.1 <;> simp [hmem, heq]
  rw [startNonces, hfold]
  simp

theorem holds_startNonces {state : E.geth.State} (h : accounts.Perm n.pool.pending.toList) :
    Holds n (E.startNonces state accounts) (E.geth.getNonce state) := by
  intro a
  rw [startNonces_get]
  refine if_congr ?_ rfl rfl
  rw [(h.map (·.1)).mem_iff, List.mem_map, Option.isSome_iff_exists]
  constructor
  · rintro ⟨⟨a', m⟩, hm, rfl⟩
    exact ⟨m, Store.mem_toList.mp hm⟩
  · rintro ⟨m, hm⟩
    exact ⟨(a, m), Store.mem_toList.mpr hm, rfl⟩

/-! ## What is chosen -/

section Chosen

variable {signer : Transaction → Address} (K : Keyed E n signer) {nonceOf : Address → Nat}
  {trace : List (Address × Transaction)}
  (h : Merge.Merges n.pool.lookup (E.transactionBefore n baseFee) nonceOf trace)
include K h

variable {a : Address} {tx : Transaction}

theorem signer_of_mem (hmem : (a, tx) ∈ trace) : signer tx = a := by
  obtain ⟨front, back, rfl⟩ := List.append_of_mem hmem
  exact (K.entry h.reaches_of_mem.1).1

omit K in
private theorem mem_of_lt_taken {front back : List (Address × Transaction)} (htrace : trace = front ++ back)
    {j : Nat} (hj : j < Merge.taken front a) {y : Transaction}
    (hy : n.pool.lookup a (nonceOf a + j) = some y) : (a, y) ∈ front := by
  obtain ⟨before, z, after, rfl, rfl⟩ := Merge.exists_of_lt_taken hj
  rw [htrace, List.append_assoc, List.cons_append] at h
  obtain rfl : y = z := Option.some.inj (hy.symm.trans h.reaches_of_mem.1)
  simp

/-- A sender's next transaction is the one after those that were taken from it. -/
theorem eq_taken_of_next {front back : List (Address × Transaction)} (htrace : trace = front ++ back)
    {k : Nat} (hreach : n.pool.Reachable nonceOf a k tx) (hnew : tx ∉ front.map (·.2))
    (hbelow : ∀ j < k, ∀ y, n.pool.Reachable nonceOf a j y → y ∈ front.map (·.2)) : k = Merge.taken front a := by
  refine Nat.le_antisymm (Nat.not_lt.mp fun hlt => ?_) (Nat.not_lt.mp fun hlt => ?_)
  · -- an untaken place below `k` would have been taken
    obtain ⟨y, hy⟩ := Option.isSome_iff_exists.mp (hreach.2 _ hlt)
    obtain ⟨⟨b, y'⟩, hmem, rfl⟩ := List.mem_map.mp (hbelow _ hlt y ⟨hy, fun j hj => hreach.2 j (hj.trans hlt)⟩)
    obtain rfl : a = b := by
      rw [← (K.entry hy).1, signer_of_mem K h (htrace ▸ List.mem_append_left _ hmem)]
    obtain ⟨before, after, rfl⟩ := List.append_of_mem hmem
    rw [htrace, List.append_assoc, List.cons_append] at h
    have hplace := (K.entry h.reaches_of_mem.1).2.symm.trans (K.entry hy).2
    rw [Merge.taken_append, Merge.taken_cons, if_pos rfl] at hplace
    omega
  · exact hnew (List.mem_map.mpr ⟨_, mem_of_lt_taken h htrace hlt hreach.1, rfl⟩)

private theorem nodup_of_merges : (trace.map (·.2)).Nodup := by
  refine List.pairwise_map.mpr (List.Pairwise.imp_of_mem ?_ h.pairwise)
  rintro ⟨a, x⟩ ⟨b, y⟩ hx hy horder (rfl : x = y)
  obtain rfl : a = b := (signer_of_mem K h hx).symm.trans (signer_of_mem K h hy)
  obtain ⟨i, j, hlt, hi, hj⟩ := horder rfl
  have := (K.entry hi).2.symm.trans (K.entry hj).2
  omega

/-- A merge of the senders' queues is what a choice of transactions is for. -/
theorem selects_of_merges : n.pool.Selects nonceOf (E.transactionBefore n baseFee) (trace.map (·.2)) where
  exactly tx := by
    rw [List.mem_map]
    constructor
    · rintro ⟨⟨a, tx⟩, hmem, rfl⟩
      obtain ⟨front, back, rfl⟩ := List.append_of_mem hmem
      exact ⟨a, _, h.reaches_of_mem⟩
    · rintro ⟨a, k, hreach⟩
      obtain ⟨front, back, rfl, -⟩ := h.exists_of_reaches hreach
      exact ⟨(a, tx), by simp, rfl⟩
  once := nodup_of_merges K h
  increasing := by
    refine List.pairwise_map.mpr (List.Pairwise.imp_of_mem ?_ h.pairwise)
    rintro ⟨a, x⟩ ⟨b, y⟩ hx hy horder c nonce nonce' hlookup hlookup'
    obtain rfl : c = a := (K.entry hlookup).1.symm.trans (signer_of_mem K h hx)
    obtain rfl : c = b := (K.entry hlookup').1.symm.trans (signer_of_mem K h hy)
    obtain ⟨i, j, hlt, hi, hj⟩ := horder rfl
    rw [(K.entry hlookup).2.symm.trans (K.entry hi).2, (K.entry hlookup').2.symm.trans (K.entry hj).2]
    exact hlt
  least := by
    intro front tx back hsplit
    obtain ⟨front, rest, rfl, rfl, hrest⟩ := List.map_eq_append_iff.mp hsplit
    obtain ⟨⟨a, tx⟩, back, rfl, rfl, rfl⟩ := List.map_eq_cons_iff.mp hrest
    obtain ⟨-, hleast⟩ := h.at_position
    have hnodup := nodup_of_merges K h
    rw [hsplit, List.nodup_middle, List.nodup_cons] at hnodup
    refine ⟨⟨a, _, h.reaches_of_mem, fun hmem => hnodup.1 (List.mem_append_left _ hmem), ?_⟩, ?_⟩
    · intro j hj y hy
      exact List.mem_map.mpr ⟨_, mem_of_lt_taken h rfl hj hy.1, rfl⟩
    · rintro b tx' ⟨k, hreach, hnew, hbelow⟩
      obtain rfl := eq_taken_of_next K h rfl hreach hnew hbelow
      by_cases heq : b = a
      · subst heq
        exact .inl (Option.some.inj (hreach.1.symm.trans h.reaches_of_mem.1))
      · exact .inr (hleast b tx' heq hreach.1)

end Chosen

/-! ## The result -/

variable {head : Block} {state : E.geth.State}

private theorem executableTransactions_eq (hstate : E.geth.openState head.root = .ok state) :
    E.executableTransactions n head = .ok ((E.selectTrace n head.header.baseFee (fun _ s => s.toList) n.pool.count
      (E.startNonces state n.pool.pending.toList)).map (·.2)) := by
  rw [executableTransactions, hstate]
  exact congrArg Except.ok (selectLoop_eq ..)

/-- The choice of the transactions for a block: it ends, it is what a choice is for, and neither
the orders in which the maps are seen nor further rounds change it. -/
theorem executableTransactions_selects (K : Keyed E n signer)
    (hstate : E.geth.openState head.root = .ok state) :
    ∃ txs, E.executableTransactions n head = .ok txs ∧
      n.pool.Selects (E.geth.getNonce state) (E.transactionBefore n head.header.baseFee) txs ∧
      ∀ accounts orders fuel, accounts.Perm n.pool.pending.toList → (∀ k s, (orders k s).Perm s.toList) →
        n.pool.count ≤ fuel →
        (E.selectTrace n head.header.baseFee orders fuel (E.startNonces state accounts)).map (·.2) = txs := by
  have hall : remaining n.pool (E.geth.getNonce state) ≤ n.pool.count :=
    n.pool.length_entries ▸ List.countP_le_length
  have hmerges {accounts orders fuel} (haccounts : accounts.Perm n.pool.pending.toList)
      (horders : ∀ k s, (orders k s).Perm s.toList) (hfuel : n.pool.count ≤ fuel) :
      Merge.Merges n.pool.lookup (E.transactionBefore n head.header.baseFee) (E.geth.getNonce state)
        (E.selectTrace n head.header.baseFee orders fuel (E.startNonces state accounts)) :=
    selectTrace_merges K horders (holds_startNonces haccounts) (hall.trans hfuel)
  have hown := hmerges (.refl _) (fun _ _ => .refl _) le_rfl
  refine ⟨_, executableTransactions_eq hstate, selects_of_merges K hown, ?_⟩
  intro accounts orders fuel haccounts horders hfuel
  rw [(hmerges haccounts horders hfuel).unique (fun hx hy => K.strictOn.asymm ⟨_, _, hx⟩ ⟨_, _, hy⟩) hown]

end Env

/-! ### Two senders -/

namespace Reference

def poolTx (hash nonce tip : Nat) : Transaction :=
  { hash := hash, nonce := nonce, gasFeeCap := 9, gasTipCap := tip, cost := 0 }

/-- Sender 3 has a gap after its second transaction; sender 5 pays more. -/
def twoSenders : Node env.geth.State :=
  { start with
    pool :=
      { pending := (∅ : Store Address (Store Nat Transaction))
          |>.insert 3 ((∅ : Store Nat Transaction) |>.insert 0 (poolTx 30 0 1) |>.insert 1 (poolTx 31 1 4)
            |>.insert 3 (poolTx 33 3 8))
          |>.insert 5 ((∅ : Store Nat Transaction).insert 0 (poolTx 50 0 2)) } }

/-- The pooled transactions of `twoSenders`, under their senders. -/
def twoSendersItems : List (Address × Transaction) :=
  [(3, poolTx 30 0 1), (3, poolTx 31 1 4), (3, poolTx 33 3 8), (5, poolTx 50 0 2)]

variable {tx : Transaction}

private theorem twoSenders_lookup {a : Address} {nonce : Nat} (h : twoSenders.pool.lookup a nonce = some tx) :
    (a, tx) ∈ twoSendersItems ∧ tx.nonce = nonce := by
  have hmem := twoSenders.pool.mem_entries.mpr (Option.isSome_iff_exists.mpr ⟨tx, h⟩)
  have hentries : twoSenders.pool.entries = [(3, 0), (3, 1), (3, 3), (5, 0)] := by decide +kernel
  have hitems : ∀ e ∈ [(3, 0), (3, 1), (3, 3), (5, 0)], ∀ tx ∈ twoSenders.pool.lookup e.1 e.2,
      (e.1, tx) ∈ twoSendersItems ∧ tx.nonce = e.2 := by decide +kernel
  exact hitems (a, nonce) (hentries ▸ hmem) tx h

private theorem twoSenders_pooled (h : twoSenders.pool.Pooled tx) : tx ∈ twoSendersItems.map (·.2) := by
  obtain ⟨a, nonce, hlookup⟩ := h
  exact List.mem_map.mpr ⟨_, (twoSenders_lookup hlookup).1, rfl⟩

private theorem twoSenders_keyed : env.Keyed twoSenders fun tx => tx.hash / 10 where
  entry h := by
    obtain ⟨hmem, hnonce⟩ := twoSenders_lookup h
    have hsender : ∀ item ∈ twoSendersItems, item.2.hash / 10 = item.1 := by decide
    exact ⟨hsender _ hmem, hnonce⟩
  hashes hx hy heq := by
    have hinj : ∀ x ∈ twoSendersItems.map (·.2), ∀ y ∈ twoSendersItems.map (·.2), x.hash = y.hash → x = y := by decide
    exact hinj _ (twoSenders_pooled hx) _ (twoSenders_pooled hy) heq
  nonces h := by
    have hlt : ∀ tx ∈ twoSendersItems.map (·.2), tx.nonce < maxUint64 := by decide
    exact hlt _ (twoSenders_pooled h)
  arrivals h := by cases h

theorem executableTransactions_selects_twoSenders :
    env.geth.openState genesisBlock.root = .ok genesisBlock.root ∧
    env.executableTransactions twoSenders genesisBlock = .ok [poolTx 50 0 2, poolTx 30 0 1, poolTx 31 1 4] ∧
    ∃ txs, env.executableTransactions twoSenders genesisBlock = .ok txs ∧
      twoSenders.pool.Selects (env.geth.getNonce genesisBlock.root)
        (env.transactionBefore twoSenders genesisBlock.header.baseFee) txs := by
  have hstate : env.geth.openState genesisBlock.root = .ok genesisBlock.root := rfl
  obtain ⟨txs, hok, hselects, -⟩ := Env.executableTransactions_selects twoSenders_keyed hstate
  exact ⟨hstate, by decide +kernel, txs, hok, hselects⟩

end Reference

end Ethertest
