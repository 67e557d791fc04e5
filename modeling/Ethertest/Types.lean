-- SUMMARY: The values the node works on: hashes, blocks, transactions, errors and the caller's context.
import Ethertest.Base.Except

/-!
# Values

Fixed-size byte strings that are only compared (hashes, roots, addresses) are
natural numbers. 64-bit counters are natural numbers too; every bound the source
checks is written out with `maxUint64`.
-/

namespace Ethertest

abbrev Hash := Nat

abbrev Address := Nat

abbrev Bytes := List UInt8

/-- The largest value of a `uint64`. -/
def maxUint64 : Nat := 2 ^ 64 - 1

/-- The bytes of a source string. -/
def text (s : String) : Bytes :=
  s.toList.map fun c => UInt8.ofNat c.toNat

/-! ## Errors -/

/-- An argument of a formatted error text. -/
inductive Arg where
  | num (n : Nat)
  | hash (h : Hash)
  | bytes (b : Bytes)
  | name (s : String)
  | flag (b : Bool)
  deriving DecidableEq

/-- The errors of the source, with their texts. -/
inductive Error where
  /-- `errors.New` -/
  | new (message : String)
  /-- `fmt.Errorf` without a wrapped error -/
  | errorf (format : String) (args : List Arg)
  /-- `fmt.Errorf` around a cause -/
  | wrap (message : String) (cause : Error)
  /-- `newResourceLimitError` -/
  | resourceLimit (resource : String) (requested limit : Nat)
  /-- the error of a cancelled context -/
  | canceled
  /-- an error returned by a dependency -/
  | dependency (code : Nat)
  /-- a run-time panic, such as the use of a missing block -/
  | panic (what : String)
  deriving DecidableEq

/-! ## The caller's context -/

/-- A caller's context, as the number of checks that still find it live; `none` is
a context that is never cancelled. It only ever moves from live to cancelled. -/
abbrev Ctx := Option Nat

/-- The background context. -/
def Ctx.background : Ctx := none

/-- One look at `ctx.Err()`. -/
def Ctx.check : Ctx → Except Error Ctx
  | none => .ok none
  | some 0 => .error .canceled
  | some (k + 1) => .ok (some k)

/-! ## Blocks -/

structure Header where
  parentHash : Hash
  coinbase : Address
  root : Hash := 0
  number : Nat
  gasLimit : Nat
  gasUsed : Nat := 0
  time : Nat
  extra : Bytes := []
  baseFee : Option Nat := none
  excessBlobGas : Option Nat := none
  blobGasUsed : Option Nat := none
  parentBeaconRoot : Option Hash := none
  requestsHash : Option Hash := none
  blockAccessListHash : Option Hash := none
  slotNumber : Option Nat := none
  deriving DecidableEq

structure BlobTxSidecar where
  version : Nat
  blobs : List Bytes
  commitments : List Bytes
  proofs : List Bytes
  deriving DecidableEq

/-- A signed transaction. The hash does not cover the sidecar. -/
structure Transaction where
  hash : Hash
  nonce : Nat
  gasFeeCap : Nat
  gasTipCap : Nat
  cost : Nat
  blobHashes : List Hash := []
  payload : Bytes := []
  sidecar : Option BlobTxSidecar := none
  deriving DecidableEq

def Transaction.withoutBlobTxSidecar (tx : Transaction) : Transaction :=
  { tx with sidecar := none }

structure Withdrawal where
  index : Nat
  validator : Nat
  address : Address
  amount : Nat
  deriving DecidableEq

/-- What a block's access list records about one account. -/
structure AccountAccess where
  address : Address
  storageReads : List Hash := []
  storageChanges : List (Hash × List (Nat × Hash)) := []
  balanceChanges : List (Nat × Nat) := []
  nonceChanges : List (Nat × Nat) := []
  codeChanges : List (Nat × Bytes) := []
  deriving DecidableEq

abbrev AccessList := List AccountAccess

structure Block where
  header : Header
  transactions : List Transaction := []
  withdrawals : Option (List Withdrawal) := none
  accessList : Option AccessList := none
  deriving DecidableEq

namespace Block

abbrev parentHash (b : Block) : Hash := b.header.parentHash
abbrev number (b : Block) : Nat := b.header.number
abbrev time (b : Block) : Nat := b.header.time
abbrev root (b : Block) : Hash := b.header.root

/-- The block with its header replaced. -/
def withSeal (b : Block) (header : Header) : Block :=
  { b with header := header }

end Block

/-- The Beacon side's names of the forks. -/
inductive ForkName where
  | deneb
  | electra
  | fulu
  | gloas
  deriving DecidableEq

structure Log where
  address : Address
  topics : List Hash := []
  data : Bytes := []
  deriving DecidableEq

structure Receipt where
  txHash : Hash
  gasUsed : Nat := 0
  blobGasUsed : Nat := 0
  logs : List Log := []
  blockHash : Hash := 0
  blockNumber : Nat := 0
  deriving DecidableEq

/-- A withdrawal queued for the next canonical block. -/
structure WithdrawalRequest where
  validatorIndex : Nat
  address : Address
  amount : Nat
  deriving DecidableEq

/-! ## Checks of a context -/

namespace Ctx

@[simp] theorem check_background : Ctx.check none = .ok none := rfl

/-- A computation that only checks its context: it is cancelled, or its result is the one that it
has without a context. -/
def Checks {α : Type} (f : Ctx → Except Error (α × Ctx)) : Prop :=
  ∃ result : Except Error α, ∀ ctx, f ctx = .error .canceled ∧ ctx ≠ none ∨
    ∃ ctx', f ctx = result.map (·, ctx') ∧ (ctx = none → ctx' = none)

namespace Checks

variable {α β : Type} {f : Ctx → Except Error (α × Ctx)} {ctx ctx' : Ctx} {v : α}

theorem ok (v : α) : Checks fun ctx => .ok (v, ctx) :=
  ⟨.ok v, fun ctx => .inr ⟨ctx, rfl, id⟩⟩

theorem check (h : Checks f) : Checks fun ctx => ctx.check >>= f := by
  obtain ⟨result, h⟩ := h
  refine ⟨result, fun ctx => ?_⟩
  match ctx with
  | none => exact h none
  | some 0 => exact .inl ⟨rfl, nofun⟩
  | some (k + 1) => exact (h (some k)).imp (fun h => ⟨h.1, nofun⟩) fun h => h.imp fun _ h => ⟨h.1, nofun⟩

theorem lift {r : Except Error β} {next : β → Ctx → Except Error (α × Ctx)} (h : ∀ b, Checks (next b)) :
    Checks fun ctx => r >>= fun b => next b ctx := by
  cases r with
  | error err => exact ⟨.error err, fun ctx => .inr ⟨ctx, rfl, id⟩⟩
  | ok b => exact h b

theorem bind {next : α × Ctx → Except Error (β × Ctx)} (hf : Checks f) (h : ∀ a, Checks fun ctx => next (a, ctx)) :
    Checks fun ctx => f ctx >>= next := by
  obtain ⟨result, hf⟩ := hf
  cases result with
  | error err =>
    refine ⟨.error err, fun ctx => ?_⟩
    obtain ⟨hf, hne⟩ | ⟨ctx', hf, -⟩ := hf ctx
    · exact .inl ⟨congrArg (· >>= next) hf, hne⟩
    · exact .inr ⟨ctx, congrArg (· >>= next) hf, id⟩
  | ok a =>
    obtain ⟨result, h⟩ := h a
    refine ⟨result, fun ctx => ?_⟩
    obtain ⟨hf, hne⟩ | ⟨ctx₁, hf, hlive⟩ := hf ctx
    · exact .inl ⟨congrArg (· >>= next) hf, hne⟩
    · have hf : f ctx >>= next = next (a, ctx₁) := congrArg (· >>= next) hf
      exact (h ctx₁).imp (fun h => ⟨hf.trans h.1, fun hctx => h.2 (hlive hctx)⟩)
        fun h => h.imp fun _ h => ⟨hf.trans h.1, fun hctx => h.2 (hlive hctx)⟩

theorem foldlM {step : α × Ctx → β → Except Error (α × Ctx)} (h : ∀ a b, Checks fun ctx => step (a, ctx) b)
    (items : List β) (a : α) : Checks fun ctx => items.foldlM step (a, ctx) := by
  induction items generalizing a with
  | nil => exact ok a
  | cons item items ih =>
    simp only [List.foldlM_cons]
    exact (h a item).bind ih

theorem background (h : Checks f) (hf : f ctx = .ok (v, ctx')) : f none = .ok (v, none) := by
  obtain ⟨result, h⟩ := h
  obtain ⟨hc, -⟩ | ⟨ctx₁, hctx, -⟩ := h ctx
  · cases hf.symm.trans hc
  · obtain ⟨-, hne⟩ | ⟨ctx₂, hnone, hlive⟩ := h none
    · exact absurd rfl hne
    · cases result with
      | error err => cases hf.symm.trans hctx
      | ok a =>
        obtain ⟨rfl, -⟩ := Prod.mk.inj (Except.ok.inj (hf.symm.trans hctx))
        rw [hnone, hlive rfl]
        rfl

theorem live (h : Checks f) (hf : f none = .ok (v, ctx')) : ctx' = none :=
  (Prod.mk.inj (Except.ok.inj (hf.symm.trans (h.background hf)))).2

/-- What succeeds without a context only fails when it is cancelled. -/
theorem canceled (h : Checks f) {result : α × Ctx} {err : Error} (hf : f none = .ok result)
    (herr : f ctx = .error err) : err = .canceled := by
  obtain ⟨r, h⟩ := h
  obtain ⟨hc, -⟩ | ⟨ctx₁, hctx, -⟩ := h ctx
  · exact Except.error.inj (herr.symm.trans hc)
  · obtain ⟨-, hne⟩ | ⟨ctx₂, hnone, -⟩ := h none
    · exact absurd rfl hne
    · cases r with
      | error _ => cases hf.symm.trans hnone
      | ok _ => cases herr.symm.trans hctx

end Checks

end Ctx

end Ethertest
