-- SUMMARY: What overrides do to accounts, and the account states that geth's states stand for.
import Ethertest.Commands.ControlRecord

/-!
# Accounts

An account is a balance, a nonce, code and a storage function. `AccountChanges.on` says what
overrides mean for one. `Env.Accounts` interprets geth's states as account states; under it
`applyAccountChanges` changes exactly the accounts it is given.
-/

namespace Ethertest

@[ext]
structure Account where
  balance : Nat := 0
  nonce : Nat := 0
  code : Bytes := []
  storage : Hash → Hash := fun _ => 0

namespace Account

/-- The account as it is stored: an empty one is removed, with its storage. -/
def settled (a : Account) : Account :=
  if a.balance = 0 ∧ a.nonce = 0 ∧ a.code = [] then {} else a

variable (a : Account)

/-! An optional change of one field. -/

end Account

namespace AccountChanges

/-- The balance fits into 256 bits. -/
def Payable (change : AccountChanges) : Prop :=
  ∀ balance, change.balance = some balance → 0 ≤ balance ∧ balance < 2 ^ 256

end AccountChanges

namespace Env

/-- A view of geth's states as account states: what the setters do to the accounts. -/
structure View (E : Env) where
  account : E.geth.State → Address → Account
  setBalance : ∀ a balance s, account (E.geth.setBalance a balance s) =
    Function.update (account s) a { account s a with balance := balance }
  setNonce : ∀ a nonce s, account (E.geth.setNonce a nonce s) =
    Function.update (account s) a { account s a with nonce := nonce }
  setCode : ∀ a code s, account (E.geth.setCode a code s) =
    Function.update (account s) a { account s a with code := code }
  setStorage : ∀ a (storage : Store Hash Hash) s, account (E.geth.setStorage a storage s) =
    Function.update (account s) a { account s a with storage := fun key => storage[key]?.getD 0 }
  setState : ∀ a key value s, account (E.geth.setState a key value s) =
    Function.update (account s) a { account s a with storage := Function.update (account s a).storage key value }

/-- An interpretation of geth's states as account states. The root of a state is injective
on what is stored of its accounts and storage keys have known preimages. `Writes` says which
slots an access list under construction names as written: each phase of an execution names
those it changes, later phases keep them, and from Amsterdam on they end up in the block. -/
structure Accounts (E : Env) extends View E where
  prepareControl : ∀ number time s, account (E.geth.prepareControl E.config number time s) = account s
  finaliseControl : ∀ number time s a,
    (account (E.geth.finaliseControl E.config number time s).1 a).settled = (account s a).settled
  root : ∀ number time s s', E.geth.intermediateRoot E.config number time s =
    E.geth.intermediateRoot E.config number time s' ↔ ∀ a, (account s a).settled = (account s' a).settled
  storageKeys : ∀ {root s a keys}, E.geth.openState root = .ok s → E.geth.storageKeys s root a = .ok keys →
    ∀ key, (account s a).storage key ≠ 0 → some key ∈ keys
  Writes : E.geth.Construction → Address → Hash → Prop
  merge : ∀ {access access' a key}, Writes access a key ∨ Writes access' a key →
    Writes (E.geth.merge access access') a key
  preExecution : ∀ {parent header s s' access a key}, E.geth.preExecution E.config parent header s = (s', access) →
    (account s' a).storage key ≠ (account s a).storage key → Writes access a key
  postExecution : ∀ {header logs index s requests access s' a key},
    E.geth.postExecution E.config header logs index s = .ok (requests, access, s') →
    (account s' a).storage key ≠ (account s a).storage key → Writes access a key
  finalize : ∀ {header txs withdrawals index access s s' access' a key},
    E.geth.finalize E.config header txs withdrawals index access s = (s', access') →
    Writes access a key ∨ (account s' a).storage key ≠ (account s a).storage key → Writes access' a key
  assembleBlock : ∀ {header s txs withdrawals receipts access block a key},
    E.geth.assembleBlock E.config header s txs withdrawals receipts access = block →
    E.geth.isAmsterdam E.config block.number block.time → Writes access a key →
      ∃ entry ∈ block.accessList.getD [], entry.address = a ∧ key ∈ entry.storageChanges.map (·.1)

variable {E : Env} {s s' : E.geth.State}

/-- The access list of a block without transactions covers what its execution wrote. -/
theorem Accounts.native (L : E.Accounts) {ctx ctx' : Ctx} {parent : Block} {time : Nat} {root : Hash}
    {withdrawals : Option (List Withdrawal)} {coinbase : Address} {g : Generated E.geth.State}
    (h : E.generateBlock ctx parent time root [] withdrawals false [] s coinbase = .ok (g, ctx'))
    (hA : E.geth.isAmsterdam E.config g.block.number g.block.time) {a : Address} {key : Hash}
    (hne : (L.account g.state a).storage key ≠ (L.account s a).storage key) :
    ∃ access ∈ g.block.accessList.getD [], access.address = a ∧ key ∈ access.storageChanges.map (·.1) := by
  simp only [generateBlock, applyTransactions, Except.do_ok_iff, Except.ok.injEq, Prod.mk.injEq] at h
  obtain ⟨ctx₁, -, -, -, header, -, ⟨x, ctx₂⟩, ⟨rfl, -⟩, generated, hseal, rfl, -⟩ := h
  simp only [sealExecution, Except.do_ok_iff] at hseal
  obtain ⟨⟨requests, access, state⟩, hpost, hseal⟩ := hseal
  split at hseal
  · cases hseal
  · simp only [Except.do_ok_iff, Except.ok.injEq] at hseal
    obtain ⟨-, -, receipts, -, -, -, rfl⟩ := hseal
    refine L.assembleBlock rfl hA (L.finalize rfl (or_iff_not_imp_left.mpr fun hnot hsame => hne (hsame.trans ?_)))
    -- neither phase wrote the slot, or the merged list would name it
    have hpost' := not_not.mp fun hd => hnot (L.merge (.inr (L.postExecution hpost hd)))
    exact hpost'.trans (not_not.mp fun hd => hnot (L.merge (.inl (L.merge (.inr (L.preExecution rfl hd))))))

variable (L : E.View)

/-! ## One account -/

/-- What overriding an account does to a state, if its balance is valid. -/
def override (E : Env) (a : Address) (change : AccountChanges) (s : E.geth.State) : E.geth.State :=
  let s := change.balance.elim s fun balance => E.geth.setBalance a balance.toNat s
  let s := change.nonce.elim s fun nonce => E.geth.setNonce a nonce s
  let s := change.code.elim s fun code => E.geth.setCode a (code.getD []) s
  let s := change.storage.elim s fun storage => E.geth.setStorage a storage s
  change.storageDiff.elim s fun diff => diff.toList.foldl (fun s item => E.geth.setState a item.1 item.2 s) s

theorem applyChange_eq_ok {a : Address} {change : AccountChanges} :
    E.applyChange a change s = .ok s' ↔ change.Payable ∧ s' = E.override a change s := by
  unfold applyChange override AccountChanges.Payable
  cases change.balance with
  | none =>
    constructor
    · intro h
      exact ⟨by simp, (Except.ok.inj h).symm⟩
    · rintro ⟨-, rfl⟩
      rfl
  | some balance =>
    simp only [Except.do_ok_iff, exists_const, failIf_eq_ok, Except.ok.injEq, exists_eq_left']
    constructor
    · rintro ⟨hneg, hbig, rfl⟩
      exact ⟨fun b hb => by rw [← Option.some.inj hb]; omega, rfl⟩
    · rintro ⟨hpay, rfl⟩
      obtain ⟨hneg, hbig⟩ := hpay balance rfl
      exact ⟨by omega, by omega, rfl⟩

theorem nodup_keys_toList {V : Type} (entries : Store Address V) : (entries.toList.map (·.1)).Nodup := by
  rw [Std.ExtTreeMap.map_fst_toList_eq_keys]
  exact Std.ExtTreeMap.nodup_keys

end Env

end Ethertest
