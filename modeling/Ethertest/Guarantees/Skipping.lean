-- SUMMARY: Skipped transactions leave no trace in a generated block.
import Ethertest.Execution
import Ethertest.Reference

/-!
# Skipped transactions

A block is built from the pool with transactions that fail skipped. The block is the one
that the kept transactions give alone, when none may fail. A failure blocks its sender for
the rest of the loop, so that of each sender a front part is kept.
-/

namespace Ethertest

namespace Env

variable {E : Env}

/-! ## One round -/

section Round

variable {x x' : Execution E.geth} {tx : Transaction}

/-- The sender that a round recovers. -/
def Recovers (E : Env) (x : Execution E.geth) (tx : Transaction) (a : Address) : Prop :=
  E.geth.sender E.config x.header.number x.header.time tx.withoutBlobTxSidecar = .ok a

/-- The transactions that belong to a sender all recover to it. -/
def Owns (E : Env) (x : Execution E.geth) (txs : List Transaction) (owner : Transaction → Address) (a : Address) :
    Prop :=
  ∀ tx ∈ txs, owner tx = a → Recovers E x tx a

/-- The round skipped the transaction. A sender that it recovers is blocked from then on. -/
structure Skipped (E : Env) (x : Execution E.geth) (tx : Transaction) (x' : Execution E.geth) : Prop where
  same : unblocked x' = unblocked x
  blocks : ∀ a, Recovers E x tx a → a ∈ x'.blocked
  grows : x.blocked ⊆ x'.blocked

/-- The round kept the transaction, and would have if none may fail. -/
structure Taken (E : Env) (x : Execution E.geth) (tx : Transaction) (x' : Execution E.geth) : Prop where
  alone : E.applyOne false (unblocked x) tx = .ok (unblocked x')
  free : ∀ a ∈ x.blocked, ¬ Recovers E x tx a
  blocked : x'.blocked = x.blocked
  accepted : x'.accepted = x.accepted ++ [tx.withoutBlobTxSidecar]

/-- A round that skips failures does not fail. -/
theorem applyOne_skips (x : Execution E.geth) (tx : Transaction) :
    ∃ x', E.applyOne true x tx = .ok x' ∧ (Skipped E x tx x' ∨ Taken E x tx x') := by
  cases hsender : E.geth.sender E.config x.header.number x.header.time tx.withoutBlobTxSidecar with
  | error err =>
    refine ⟨x, by simp [applyOne, hsender], .inl ⟨rfl, fun a ha => ?_, List.Subset.refl _⟩⟩
    rw [Recovers, hsender] at ha
    cases ha
  | ok sender =>
    have hown {a : Address} (ha : Recovers E x tx a) : a = sender :=
      (Except.ok.inj (hsender.symm.trans ha)).symm
    by_cases hblocked : sender ∈ x.blocked
    · exact ⟨x, by simp [applyOne, hsender, hblocked],
        .inl ⟨rfl, fun a ha => hown ha ▸ hblocked, List.Subset.refl _⟩⟩
    · have hskip : Skipped E x tx { x with blocked := sender :: x.blocked } :=
        ⟨rfl, fun a ha => hown ha ▸ List.mem_cons_self, List.subset_cons_self _ _⟩
      cases hmessage : E.geth.transactionToMessage E.config x.header tx.withoutBlobTxSidecar with
      | error err => exact ⟨_, by simp [applyOne, hsender, hblocked, hmessage], .inl hskip⟩
      | ok message =>
        cases happly : E.geth.applyTransaction E.config x.header x.accepted.length tx.withoutBlobTxSidecar
          message x.state x.gas with
        | error err => exact ⟨_, by simp [applyOne, hsender, hblocked, hmessage, happly], .inl hskip⟩
        | ok result =>
          obtain ⟨receipt, access, state, gas⟩ := result
          refine ⟨E.accept x tx.withoutBlobTxSidecar receipt access state gas,
            by simp [applyOne, hsender, hblocked, hmessage, happly], .inr ⟨?_, ?_, rfl, rfl⟩⟩
          · simp [applyOne, unblocked, hsender, hmessage, happly, accept]
          · exact fun a ha hrec => hblocked (hown hrec ▸ ha)

end Round

/-! ## The loop -/

/-- The loop keeps some of the transactions: they alone give the same result, and of a sender
that all its transactions recover to a front part is kept, none if the sender is blocked. -/
structure Keeps (E : Env) (x : Execution E.geth) (txs kept : List Transaction) (x' : Execution E.geth) : Prop where
  sublist : kept.Sublist txs
  accepted : x'.accepted = x.accepted ++ kept.map Transaction.withoutBlobTxSidecar
  alone : E.applyTransactions false kept none (unblocked x) = .ok (unblocked x', none)
  front : ∀ owner a, Owns E x txs owner a →
    (kept.filter fun tx => owner tx = a) <+: txs.filter fun tx => owner tx = a
  blocked : ∀ owner a, Owns E x txs owner a → a ∈ x.blocked → (kept.filter fun tx => owner tx = a) = []

section Loop

variable {x x₁ x' : Execution E.geth} {tx : Transaction} {rest kept : List Transaction}

private theorem recovers_congr (h : unblocked x₁ = unblocked x) {a : Address} :
    Recovers E x₁ tx a ↔ Recovers E x tx a := by
  have hheader : x₁.header = x.header := congrArg (fun y => y.header) h
  rw [Recovers, Recovers, hheader]

private theorem recovers_applyOne {skipInvalid : Bool}
    (h : E.applyOne skipInvalid (unblocked x) tx = .ok (unblocked x₁))
    {tx' : Transaction} {a : Address} : Recovers E x₁ tx' a ↔ Recovers E x tx' a := by
  rcases applyOne_spec h with hx | ⟨_, _, _, _, _, -, -, hx⟩
  · exact recovers_congr hx
  · have hheader := congrArg (fun y : Execution E.geth => (y.header.number, y.header.time)) hx
    obtain ⟨hnumber, htime⟩ := Prod.mk.inj hheader
    have hnumber : x₁.header.number = x.header.number := hnumber
    have htime : x₁.header.time = x.header.time := htime
    rw [Recovers, Recovers, hnumber, htime]

theorem Skipped.keeps (hround : Skipped E x tx x₁) (h : Keeps E x₁ rest kept x') :
    Keeps E x (tx :: rest) kept x' := by
  have hrest {owner a} (hall : Owns E x (tx :: rest) owner a) : Owns E x₁ rest owner a :=
    fun tx htx heq => (recovers_congr hround.same).mpr (hall tx (List.mem_cons_of_mem _ htx) heq)
  have haccepted : x₁.accepted = x.accepted := congrArg (fun y => y.accepted) hround.same
  refine ⟨h.sublist.cons _, haccepted ▸ h.accepted, hround.same ▸ h.alone, fun owner a hall => ?_,
    fun owner a hall ha => ?_⟩
  · by_cases howner : owner tx = a
    · rw [h.blocked owner a (hrest hall) (hround.blocks a (hall tx List.mem_cons_self howner))]
      exact List.nil_prefix
    · rw [List.filter_cons_of_neg (by simpa using howner)]
      exact h.front owner a (hrest hall)
  · exact h.blocked owner a (hrest hall) (hround.grows ha)

theorem Taken.keeps (hround : Taken E x tx x₁) (h : Keeps E x₁ rest kept x') :
    Keeps E x (tx :: rest) (tx :: kept) x' := by
  have hrest {owner a} (hall : Owns E x (tx :: rest) owner a) : Owns E x₁ rest owner a :=
    fun tx htx heq => (recovers_applyOne hround.alone).mpr (hall tx (List.mem_cons_of_mem _ htx) heq)
  refine ⟨h.sublist.cons_cons _, ?_, ?_, fun owner a hall => ?_, fun owner a hall ha => ?_⟩
  · rw [h.accepted, hround.accepted, List.append_assoc]
    rfl
  · simp only [applyTransactions, Except.do_ok_iff]
    exact ⟨none, rfl, _, hround.alone, h.alone⟩
  · rw [List.filter_cons, List.filter_cons]
    split
    · exact List.cons_prefix_cons.mpr ⟨rfl, h.front owner a (hrest hall)⟩
    · exact h.front owner a (hrest hall)
  · have howner : owner tx ≠ a := fun heq => hround.free a ha (hall tx List.mem_cons_self heq)
    rw [List.filter_cons_of_neg (by simpa using howner)]
    exact h.blocked owner a (hrest hall) (hround.blocked ▸ ha)

theorem applyTransactions_keeps (txs : List Transaction) (x : Execution E.geth) :
    ∃ kept x', E.applyTransactions true txs none x = .ok (x', none) ∧ Keeps E x txs kept x' := by
  induction txs generalizing x with
  | nil => exact ⟨[], x, rfl, .refl _, by simp, rfl, fun _ _ _ => List.nil_prefix, fun _ _ _ _ => rfl⟩
  | cons tx rest ih =>
    obtain ⟨x₁, hone, hround⟩ := applyOne_skips x tx
    obtain ⟨kept, x', hloop, hkeeps⟩ := ih x₁
    have hrun : E.applyTransactions true (tx :: rest) none x = .ok (x', none) := by
      simp only [applyTransactions, Except.do_ok_iff]
      exact ⟨none, rfl, x₁, hone, hloop⟩
    rcases hround with hskipped | htaken
    · exact ⟨kept, x', hrun, hskipped.keeps hkeeps⟩
    · exact ⟨tx :: kept, x', hrun, htaken.keeps hkeeps⟩

end Loop

/-! ## The block -/

/-- The list of blocked senders is not sealed into the block. -/
theorem sealExecution_unblocked (x : Execution E.geth) (withdrawals : Option (List Withdrawal)) :
    E.sealExecution (unblocked x) withdrawals = E.sealExecution x withdrawals := rfl

/-- Skipping is invisible: some of the transactions are kept, the block that they give when
none may fail is the block that was built, and of every sender a front part is kept. -/
theorem generateBlock_skips (hE : E.Lawful) (parent : Block) (targetTime : Nat) (root : Hash)
    (txs : List Transaction) (withdrawals : Option (List Withdrawal)) (extra : Bytes) (state : E.geth.State)
    (coinbase : Address) :
    ∃ kept, kept.Sublist txs ∧
      E.generateBlock none parent targetTime root txs withdrawals true extra state coinbase =
        E.generateBlock none parent targetTime root kept withdrawals false extra state coinbase ∧
      (∀ ctx ctx' g, E.generateBlock ctx parent targetTime root txs withdrawals true extra state coinbase =
          .ok (g, ctx') →
        g.block.transactions = kept.map Transaction.withoutBlobTxSidecar ∧
        E.generateBlock none parent targetTime root kept withdrawals false extra state coinbase = .ok (g, none)) ∧
      ∀ (owner : Transaction → Address) (a : Address),
        (∀ tx ∈ txs, owner tx = a →
          E.geth.sender E.config (parent.number + 1) targetTime tx.withoutBlobTxSidecar = .ok a) →
        (kept.filter fun tx => owner tx = a) <+: txs.filter fun tx => owner tx = a := by
  -- the loop starts from the prepared header; if there is none, any transactions will do
  obtain ⟨kept, x', hloop, hkeeps⟩ := applyTransactions_keeps txs
    (E.startExecution parent.header (E.childHeader parent targetTime root extra coinbase) state)
  have hsame : E.generateBlock none parent targetTime root txs withdrawals true extra state coinbase =
      E.generateBlock none parent targetTime root kept withdrawals false extra state coinbase := by
    simp only [generateBlock]
    cases hprepare : E.geth.prepare E.config parent.header (E.childHeader parent targetTime root extra coinbase) with
    | error err => rfl
    | ok header =>
      obtain rfl := hE.prepare_eq hprepare
      have halone : E.applyTransactions false kept none (E.startExecution parent.header
        (E.childHeader parent targetTime root extra coinbase) state) = .ok (unblocked x', none) := hkeeps.alone
      simp only [Ctx.check_background, Except.ok_do, hloop, halone, sealExecution_unblocked]
  refine ⟨kept, hkeeps.sublist, hsame, ?_, ?_⟩
  · intro ctx ctx' g h
    have hbackground := generateBlock_checks.background h
    refine ⟨?_, hsame ▸ hbackground⟩
    simp only [generateBlock, Except.do_ok_iff, Except.ok.injEq, Prod.mk.injEq] at hbackground
    obtain ⟨ctx₁, hctx, -, -, header, hprepare, ⟨y, ctx₂⟩, hy, generated, hseal, rfl, -⟩ := hbackground
    obtain rfl := hE.prepare_eq hprepare
    obtain rfl := Except.ok.inj hctx
    obtain ⟨rfl, -⟩ := Prod.mk.inj (Except.ok.inj (hloop.symm.trans hy))
    obtain ⟨-, -, htxs, -⟩ := sealExecution_spec hE hseal
    rw [htxs, hkeeps.accepted]
    rfl
  · exact fun owner a hall => hkeeps.front owner a hall

end Env

namespace Reference

def cheapTx : Transaction := { hash := 21, nonce := 0, gasFeeCap := 9, gasTipCap := 1, cost := 0 }

def emptyState : env.geth.State := (0 : Nat)

/-- The environment with a sender for every last digit of a hash, and nonces that must be zero. -/
def nonceEnv : Env :=
  { env with geth := { geth with
      sender := fun _ _ _ tx => .ok (tx.hash % 10)
      applyTransaction := fun config header index tx message state gas =>
        if tx.nonce = 0 then geth.applyTransaction config header index tx message state gas
        else .error (.new "nonce too high") } }

private theorem nonceEnv_lawful : nonceEnv.Lawful where
  blockHash_injective := lawful.blockHash_injective
  requestsHash_injective := lawful.requestsHash_injective
  prepare_eq := by
    intro parent h h' heq
    exact (Except.ok.inj heq).symm
  assembled_header := lawful.assembled_header
  assembled_transactions := lawful.assembled_transactions
  setCanonical_get := fun {db target} _ k => setCanonical_get db target k
  genesis_block := lawful.genesis_block
  genesis_receipts := lawful.genesis_receipts
  genesis_canonical := lawful.genesis_canonical
  genesis_own := lawful.genesis_own

/-- A transaction that fails, a later one of its sender and one of another sender. -/
def offered : List Transaction := [{ cheapTx with hash := 11, nonce := 1 }, cheapTx, { cheapTx with hash := 32 }]

/-- The failing transaction and the one behind it are skipped, and the third is kept. -/
theorem generateBlock_skips_reference :
    (nonceEnv.generateBlock none genesisBlock 1012 0 offered none false [] emptyState 7).toBool = false ∧
    ∃ g kept, nonceEnv.generateBlock none genesisBlock 1012 0 offered none true [] emptyState 7 = .ok (g, none) ∧
      kept.map Transaction.withoutBlobTxSidecar = [{ cheapTx with hash := 32 }] ∧ kept.Sublist offered ∧
      nonceEnv.generateBlock none genesisBlock 1012 0 kept none false [] emptyState 7 = .ok (g, none) := by
  have htransactions : (nonceEnv.generateBlock none genesisBlock 1012 0 offered none true [] emptyState 7).toOption.map
      (·.1.block.transactions) = some [{ cheapTx with hash := 32 }] := by decide +kernel
  obtain ⟨kept, hsub, -, hkept, -⟩ :=
    Env.generateBlock_skips nonceEnv_lawful genesisBlock 1012 0 offered none [] emptyState 7
  cases h : nonceEnv.generateBlock none genesisBlock 1012 0 offered none true [] emptyState 7 with
  | error err =>
    rw [h] at htransactions
    cases htransactions
  | ok result =>
    obtain ⟨hblock, halone⟩ := hkept none result.2 result.1 h
    rw [h] at htransactions
    exact ⟨by decide +kernel, result.1, kept, h ▸ Env.generateBlock_checks.background h,
      hblock.symm.trans (Option.some.inj htransactions), hsub, halone⟩

end Reference

end Ethertest
