-- SUMMARY: The reference environment with accounts in its states, and their interpretation.
import Ethertest.Control.Accounts
import Ethertest.Reference

/-!
# A reference environment with accounts

The states of `Reference.env` are numbers. Here they are finite maps of accounts, and the
root of a state packs all that is stored of them. Every block is built on the accounts of
the genesis, in which one account has code.
-/

namespace Ethertest.Reference

open Tokens

/-- An account with finitely many slots. -/
structure Holding where
  balance : Nat := 0
  nonce : Nat := 0
  code : Bytes := []
  storage : Store Hash Hash := ∅

namespace Holding

def account (h : Holding) : Account where
  balance := h.balance
  nonce := h.nonce
  code := h.code
  storage key := h.storage[key]?.getD 0

/-- What is stored of an account: nothing of an empty one, and only the slots that are not
zero. -/
def settle (h : Holding) : Option Holding :=
  if h.balance = 0 ∧ h.nonce = 0 ∧ h.code = [] then none
  else some { h with storage := h.storage.filter fun _ value => value ≠ 0 }

def tokens (h : Holding) : List Nat :=
  pair number (pair number (pair bytes (list (pair number number)))) (h.balance, h.nonce, h.code, h.storage.toList)

theorem delimits_tokens : Delimits tokens := by
  refine Delimits.comp (f := fun h : Holding => (h.balance, h.nonce, h.code, h.storage.toList)) ?_ ?_
  · exact delimits_pair delimits_number (delimits_pair delimits_number (delimits_pair delimits_bytes
      (delimits_list (delimits_pair delimits_number delimits_number))))
  · rintro ⟨b, n, c, s⟩ ⟨b', n', c', s'⟩ h
    simp only [Prod.mk.injEq, Std.ExtTreeMap.toList_inj] at h
    obtain ⟨rfl, rfl, rfl, rfl⟩ := h
    rfl

/-- Slots that are not zero determine the storage. -/
theorem filter_eq_iff (s t : Store Hash Hash) :
    (s.filter fun _ value => value ≠ 0) = (t.filter fun _ value => value ≠ 0) ↔
      ∀ key : Hash, s[key]?.getD 0 = t[key]?.getD 0 := by
  have hget (s : Store Hash Hash) (key : Hash) :
      (s.filter fun _ value => value ≠ 0)[key]? = if s[key]?.getD 0 = 0 then none else some (s[key]?.getD 0) := by
    rw [Std.ExtTreeMap.getElem?_filter']
    cases s[key]? with
    | none => rfl
    | some value => by_cases h : value = 0 <;> simp [Option.filter, h]
  constructor
  · intro h key
    have hkey := congrArg (fun s : Store Hash Hash => s[key]?) h
    simp only [hget] at hkey
    split at hkey <;> split at hkey <;> simp_all
  · intro h
    refine Store.ext_get fun key => ?_
    rw [hget, hget, h key]

theorem settle_eq_iff (h h' : Holding) : h.settle = h'.settle ↔ h.account.settled = h'.account.settled := by
  obtain ⟨b, n, c, s⟩ := h
  obtain ⟨b', n', c', s'⟩ := h'
  have hstorage : ((fun key : Hash => s[key]?.getD 0) = fun key => s'[key]?.getD 0) ↔
      ∀ key : Hash, s[key]?.getD 0 = s'[key]?.getD 0 := funext_iff
  unfold settle Account.settled account
  by_cases he : b = 0 ∧ n = 0 ∧ c = [] <;> by_cases he' : b' = 0 ∧ n' = 0 ∧ c' = []
  · simp [he, he']
  · simp only [he, he', if_true, if_false, and_self, reduceCtorEq, Account.mk.injEq, false_iff]
    rintro ⟨rfl, rfl, rfl, -⟩
    exact he' ⟨rfl, rfl, rfl⟩
  · simp only [he, he', if_true, if_false, and_self, reduceCtorEq, Account.mk.injEq, false_iff]
    rintro ⟨rfl, rfl, rfl, -⟩
    exact he ⟨rfl, rfl, rfl⟩
  · simp only [he, he', if_false, Option.some.injEq, Holding.mk.injEq, Account.mk.injEq, filter_eq_iff, hstorage]

end Holding

/-! ## States -/

abbrev Holdings := Store Address Holding

namespace Holdings

def holding (s : Holdings) (a : Address) : Holding := s[a]?.getD {}

def update (a : Address) (f : Holding → Holding) (s : Holdings) : Holdings :=
  s.insert a (f (holding s a))

def settled (s : Holdings) : Holdings := s.filterMap fun _ h => h.settle

/-- The root of a state: all that is stored of its accounts. -/
def root (s : Holdings) : Hash :=
  pack (list (pair number Holding.tokens) (settled s).toList)

def account (s : Holdings) (a : Address) : Account := (holding s a).account

theorem account_update (a : Address) (f : Holding → Holding) (s : Holdings) :
    account (update a f s) = Function.update (account s) a (f (holding s a)).account := by
  funext a'
  rw [Function.update_apply]
  unfold account update
  by_cases h : a' = a
  · rw [if_pos h, h, holding, Store.get_insert, if_pos rfl, Option.getD_some]
  · rw [if_neg h, holding, Store.get_insert, if_neg h, holding]

theorem account_setState (a : Address) (key value : Hash) (s : Holdings) :
    account (update a (fun h => { h with storage := h.storage.insert key value }) s) =
      Function.update (account s) a
        { account s a with storage := Function.update (account s a).storage key value } := by
  rw [account_update]
  refine congrArg _ (Account.ext rfl rfl rfl (funext fun key' => ?_))
  change ((s.holding a).storage.insert key value)[key']?.getD 0 = Function.update (account s a).storage key value key'
  rw [Store.get_insert, Function.update_apply]
  by_cases h : key' = key
  · rw [if_pos h, if_pos h, Option.getD_some]
  · rw [if_neg h, if_neg h]
    rfl

private theorem get_settled (s : Holdings) (a : Address) : (settled s)[a]? = (holding s a).settle := by
  unfold settled holding
  rw [Std.ExtTreeMap.getElem?_filterMap']
  cases s[a]? <;> rfl

theorem root_eq_iff (s s' : Holdings) : root s = root s' ↔ ∀ a, (account s a).settled = (account s' a).settled := by
  have hinj : root s = root s' ↔ settled s = settled s' := by
    constructor
    · intro h
      refine Std.ExtTreeMap.toList_inj.mp ?_
      exact (delimits_list (delimits_pair delimits_number Holding.delimits_tokens)).injective (pack_injective h)
    · exact fun h => by rw [root, root, h]
  rw [hinj]
  constructor
  · intro h a
    rw [account, account, ← Holding.settle_eq_iff, ← get_settled, ← get_settled, h]
  · intro h
    refine Store.ext_get fun a => ?_
    rw [get_settled, get_settled, Holding.settle_eq_iff]
    exact h a

end Holdings

/-! ## The environment -/

/-- The accounts of the genesis. -/
def genesisHoldings : Holdings := (∅ : Holdings).insert 7 { nonce := 1, code := [1] }

/-- The reference geth, with accounts in its states. -/
def accountGeth : Geth :=
  { geth with
    State := Holdings
    openState := fun _ => .ok genesisHoldings
    getNonce := fun s a => (s.holding a).nonce
    stateError := fun _ => none
    commit := fun _ _ _ s => .ok (s.root, [(s.root, [])], s)
    intermediateRoot := fun _ _ _ s => s.root
    setBalance := fun a balance => Holdings.update a fun h => { h with balance := balance }
    setNonce := fun a nonce => Holdings.update a fun h => { h with nonce := nonce }
    setCode := fun a code => Holdings.update a fun h => { h with code := code }
    setStorage := fun a storage => Holdings.update a fun h => { h with storage := storage }
    setState := fun a key value => Holdings.update a fun h => { h with storage := h.storage.insert key value }
    prepareControl := fun _ _ _ s => s
    finaliseControl := fun _ _ _ s => (s, ())
    storageKeys := fun s _ a => .ok ((s.holding a).storage.toList.map fun item => some item.1)
    preExecution := fun _ _ _ s => (s, ())
    applyTransaction := fun _ _ _ tx _ s _ => .ok ({ txHash := tx.hash }, (), s, ())
    postExecution := fun _ _ _ _ s => .ok (some [], (), s)
    finalize := fun _ _ _ _ _ _ s => (s, ())
    assembleBlock := fun _ header s txs withdrawals _ _ =>
      { header := { header with root := s.root }, transactions := txs, withdrawals := withdrawals }
    validateTransactionWithState := fun _ _ _ _ _ => .ok () }

def accountEnv : Env := { env with geth := accountGeth }

/-- The states stand for their accounts. -/
def accounts : accountEnv.Accounts where
  account := Holdings.account
  setBalance _ _ _ := Holdings.account_update _ _ _
  setNonce _ _ _ := Holdings.account_update _ _ _
  setCode _ _ _ := Holdings.account_update _ _ _
  setStorage _ _ _ := Holdings.account_update _ _ _
  setState := Holdings.account_setState
  prepareControl _ _ _ := rfl
  finaliseControl _ _ _ _ := rfl
  root _ _ s s' := Holdings.root_eq_iff s s'
  storageKeys := by
    intro root s a keys _ hkeys key hne
    rw [← Except.ok.inj hkeys]
    cases hget : (s.holding a).storage[key]? with
    | none =>
      refine absurd ?_ hne
      change ((s.holding a).storage[key]?).getD 0 = 0
      rw [hget]
      rfl
    | some value => exact List.mem_map.mpr ⟨(key, value), Store.mem_toList.mpr hget, rfl⟩
  Writes _ _ _ := False
  merge h := h.elim id id
  preExecution := by
    rintro parent header s s' access a key h hne
    exact hne (by rw [← (Prod.mk.inj h).1])
  postExecution := by
    rintro header logs index s requests access s' a key h hne
    exact hne (by rw [(Prod.mk.inj (Prod.mk.inj (Except.ok.inj h)).2).2])
  finalize := by
    rintro header txs withdrawals index access s s' access' a key h (hw | hne)
    · exact hw
    · exact hne (by rw [← (Prod.mk.inj h).1])
  assembleBlock _ _ h := h.elim

/-- The fresh node. -/
def accountStart : Node Holdings :=
  match accountEnv.newNode with
  | .ok n => n
  | .error _ => accountEnv.idleNode accountEnv.freshLedger

end Ethertest.Reference
