-- SUMMARY: Gas estimation: the block a call sees, the gas it is given, and what the estimate promises.
import Ethertest.Base.Bisect
import Ethertest.Types

/-!
# Gas estimation

`EstimateGas` bisects between zero and the gas a call may use. Executions are arbitrary here:
nothing says that more gas helps. An execution asked for zero gas is given the call's own gas
instead, which is why an estimate of zero says nothing.
-/

namespace Ethertest

namespace Calls

/-! ## The block of a call -/

inductive CallError where
  /-- `resourceLimitError` -/
  | resourceLimit (resource : String) (requested limit : Nat)
  /-- `invalidParamsError` -/
  | invalidParams (format : String) (args : List Arg)
  /-- `core.ErrIntrinsicGas` -/
  | intrinsicGas
  /-- `core.ErrFloorDataGas` -/
  | floorDataGas
  /-- `core.ErrGasLimitReached` -/
  | gasLimitReached
  /-- An execution that ran and failed: a revert, or running out of gas. -/
  | failed (reason : String)
  | other (message : String)

/-- The fields of a header that a call can override. -/
structure CallHeader where
  number : Nat
  time : Nat
  gasLimit : Nat
  coinbase : Address
  mixDigest : Nat
  baseFee : Option Int

structure CallBlockOverrides where
  number : Option Nat := none
  time : Option Nat := none
  gasLimit : Option Nat := none
  feeRecipient : Option Address := none
  prevRandao : Option Nat := none
  baseFeePerGas : Option Int := none
  blobBaseFee : Option Int := none

/-- `checkedU256` on a quantity that may be missing. -/
def checkedU256 (field : String) (value : Option Int) : Except CallError Unit := do
  failIf (value.any (· < 0)) (.invalidParams "%s must be a non-negative quantity" [.name field])
  failIf (value.any (2 ^ 256 ≤ ·)) (.invalidParams "%s exceeds 256 bits" [.name field])

/-- `callBlockOverrides.header`. The source checks the two fees in the order of a map. -/
def CallBlockOverrides.header (o : Option CallBlockOverrides) (original : CallHeader) :
    Except CallError CallHeader :=
  match o with
  | none => .ok original
  | some o => do
    checkedU256 "baseFeePerGas" o.baseFeePerGas
    checkedU256 "blobBaseFee" o.blobBaseFee
    .ok {
      number := o.number.getD original.number
      time := o.time.getD original.time
      gasLimit := o.gasLimit.getD original.gasLimit
      coinbase := o.feeRecipient.getD original.coinbase
      mixDigest := o.prevRandao.getD original.mixDigest
      baseFee := o.baseFeePerGas <|> original.baseFee }

/-! ## Executions -/

structure ExecutionResult where
  err : Option String

def ExecutionResult.Failed (result : ExecutionResult) : Prop := result.err.isSome

instance (result : ExecutionResult) : Decidable result.Failed := inferInstanceAs (Decidable (_ = true))

/-- What a call does in a block, as a function of its gas: the checks and state overrides before
the gas is selected, and the message applied with it. -/
structure Execution where
  prepared : Except CallError Unit
  applyMessage : Nat → Except CallError ExecutionResult

/-- The call executed with exactly this gas. -/
def Execution.run (e : Execution) (gas : Nat) : Except CallError ExecutionResult := do
  e.prepared
  e.applyMessage gas

/-- The call succeeds when it is executed with exactly this gas. -/
def Execution.Success (e : Execution) (gas : Nat) : Prop :=
  ∃ result, e.run gas = .ok result ∧ ¬ result.Failed

/-- The gas selection of `executeCallAtOverrides`: an override of zero is none. -/
def selectGas (gasCap : Nat) (argsGas : Option Nat) (header : CallHeader) (gasOverride : Nat) :
    Except CallError Nat := do
  failIf (argsGas.any (gasCap < ·)) (.resourceLimit "RPC gas" (argsGas.getD 0) gasCap)
  failIf (gasOverride ≠ 0 ∧ gasCap < gasOverride) (.resourceLimit "RPC gas" gasOverride gasCap)
  .ok (if gasOverride ≠ 0 then gasOverride else argsGas.getD (min header.gasLimit gasCap))

/-- `executeCallAtOverrides` -/
def executeCallAtOverrides (gasCap : Nat) (argsGas : Option Nat) (header : CallHeader) (e : Execution)
    (gasOverride : Nat) : Except CallError ExecutionResult := do
  e.prepared
  let gas ← selectGas gasCap argsGas header gasOverride
  e.applyMessage gas

/-! ## The estimate -/

/-- One round of the loop: whether the call succeeds with the gas in the middle. -/
def tryGas (execute : Nat → Except CallError ExecutionResult) (mid : Nat) : Except CallError Bool :=
  match execute mid with
  | .error .intrinsicGas | .error .floorDataGas | .error .gasLimitReached => .ok false
  | .error e => .error e
  | .ok result => .ok (decide ¬ result.Failed)

/-- The most gas an estimate tries. -/
def startHigh (gasCap : Nat) (argsGas : Option Nat) (header : CallHeader) : Nat :=
  min header.gasLimit (argsGas.getD gasCap)

/-- `EstimateGas`, from the block that the selector names on. -/
def estimateGas (gasCap : Nat) (argsGas : Option Nat) (original : CallHeader)
    (blockOverrides : Option CallBlockOverrides) (call : CallHeader → Execution) : Except CallError Nat := do
  let header ← CallBlockOverrides.header blockOverrides original
  failIf (argsGas.any (gasCap < ·)) (.resourceLimit "RPC gas" (argsGas.getD 0) gasCap)
  let execute := executeCallAtOverrides gasCap argsGas header (call header)
  let high ← bisect (tryGas execute) 0 (startHigh gasCap argsGas header)
  let result ← execute high
  match result.err with
  | some reason => .error (.failed reason)
  | none => .ok high

section

variable {gasCap : Nat} {argsGas : Option Nat} {header : CallHeader} {e : Execution}

/-- The gas of a call that asks for none. -/
def defaultGas (gasCap : Nat) (argsGas : Option Nat) (header : CallHeader) : Nat :=
  argsGas.getD (min header.gasLimit gasCap)

/-- The gas that an execution asked for some gas gets. -/
def givenGas (gasCap : Nat) (argsGas : Option Nat) (header : CallHeader) (gas : Nat) : Nat :=
  if gas ≠ 0 then gas else defaultGas gasCap argsGas header

theorem executeCallAtOverrides_eq {gas : Nat} (hargs : ¬ argsGas.any (gasCap < ·)) (hgas : gas ≤ gasCap) :
    executeCallAtOverrides gasCap argsGas header e gas = e.run (givenGas gasCap argsGas header gas) := by
  have hselect : selectGas gasCap argsGas header gas = .ok (givenGas gasCap argsGas header gas) := by
    simp only [selectGas, Except.do_ok_iff, exists_const, failIf_eq_ok]
    exact ⟨hargs, by omega, rfl⟩
  rw [executeCallAtOverrides, hselect]
  rfl

theorem startHigh_le_header : startHigh gasCap argsGas header ≤ header.gasLimit :=
  Nat.min_le_left ..

theorem startHigh_le_cap (hargs : ¬ argsGas.any (gasCap < ·)) : startHigh gasCap argsGas header ≤ gasCap := by
  refine (Nat.min_le_right ..).trans ?_
  cases argsGas with
  | none => exact le_rfl
  | some gas => simpa using hargs

theorem startHigh_le_args {gas : Nat} (h : argsGas = some gas) : startHigh gasCap argsGas header ≤ gas := by
  subst h
  exact Nat.min_le_right ..

theorem tryGas_eq_true {execute : Nat → Except CallError ExecutionResult} {mid : Nat} :
    tryGas execute mid = .ok true ↔ ∃ result, execute mid = .ok result ∧ ¬ result.Failed := by
  unfold tryGas
  split <;> simp_all

theorem not_success_of_tryGas {execute : Nat → Except CallError ExecutionResult} {mid : Nat}
    (h : tryGas execute mid = .ok false) : ¬ ∃ result, execute mid = .ok result ∧ ¬ result.Failed :=
  fun hsuccess => by
    have := h.symm.trans (tryGas_eq_true.mpr hsuccess)
    cases this

/-- A round succeeds when the call does with the gas that the round gets. -/
theorem tryGas_executeCallAtOverrides {gas : Nat} (hargs : ¬ argsGas.any (gasCap < ·)) (hgas : gas ≤ gasCap) :
    tryGas (executeCallAtOverrides gasCap argsGas header e) gas = .ok true ↔
      e.Success (givenGas gasCap argsGas header gas) := by
  rw [tryGas_eq_true, executeCallAtOverrides_eq hargs hgas, Execution.Success]

end

section

variable {gasCap : Nat} {argsGas : Option Nat} {original header : CallHeader}
  {blockOverrides : Option CallBlockOverrides} {call : CallHeader → Execution} {g : Nat}

/-- What an estimate has passed: the cap, the search, and an execution of its result. -/
theorem estimateGas_eq_ok (hheader : CallBlockOverrides.header blockOverrides original = .ok header) :
    estimateGas gasCap argsGas original blockOverrides call = .ok g ↔
      (¬ argsGas.any (gasCap < ·)) ∧
        bisect (tryGas (executeCallAtOverrides gasCap argsGas header (call header))) 0
          (startHigh gasCap argsGas header) = .ok g ∧
        (call header).Success (givenGas gasCap argsGas header g) := by
  simp only [estimateGas, hheader, Except.ok_do, Except.do_ok_iff, exists_const, failIf_eq_ok]
  refine and_congr_right fun hargs => ?_
  constructor
  · rintro ⟨high, hsearch, result, hresult, hend⟩
    cases herr : result.err with
    | some reason => simp [herr] at hend
    | none =>
      simp only [herr, Except.ok.injEq] at hend
      subst hend
      have hcap := (bisect_mem hsearch (Nat.zero_le _)).2.trans (startHigh_le_cap hargs)
      rw [executeCallAtOverrides_eq hargs hcap] at hresult
      exact ⟨hsearch, result, hresult, by simp [ExecutionResult.Failed, herr]⟩
  · rintro ⟨hsearch, result, hresult, hfailed⟩
    have hcap := (bisect_mem hsearch (Nat.zero_le _)).2.trans (startHigh_le_cap hargs)
    rw [← executeCallAtOverrides_eq hargs hcap] at hresult
    have herr : result.err = none := by simpa [ExecutionResult.Failed] using hfailed
    exact ⟨g, hsearch, result, hresult, by simp [herr]⟩

/-- What an estimate promises about its result. -/
structure Usable (gasCap : Nat) (argsGas : Option Nat) (header : CallHeader) (e : Execution) (g : Nat) :
    Prop where
  success : e.Success g
  le_header : g ≤ header.gasLimit
  le_cap : g ≤ gasCap
  le_args : ∀ gas, argsGas = some gas → g ≤ gas
  minimal : ¬ e.Success (g - 1)

/-- The search walks down to zero: the call succeeds with its own gas, and with every half of
the most gas that is tried. -/
structure FallsToZero (gasCap : Nat) (argsGas : Option Nat) (header : CallHeader) (e : Execution) : Prop where
  allowed : ¬ argsGas.any (gasCap < ·)
  own : e.Success (defaultGas gasCap argsGas header)
  halves : ∀ k, startHigh gasCap argsGas header / 2 ^ (k + 1) ≠ 0 →
    e.Success (startHigh gasCap argsGas header / 2 ^ (k + 1))

theorem estimateGas_eq_zero (hheader : CallBlockOverrides.header blockOverrides original = .ok header) :
    estimateGas gasCap argsGas original blockOverrides call = .ok 0 ↔
      FallsToZero gasCap argsGas header (call header) := by
  rw [estimateGas_eq_ok hheader, bisect_eq_zero]
  have hown : givenGas gasCap argsGas header 0 = defaultGas gasCap argsGas header := rfl
  have hle : ∀ k, ¬ argsGas.any (gasCap < ·) → startHigh gasCap argsGas header / 2 ^ (k + 1) ≤ gasCap :=
    fun k hargs => (Nat.div_le_self _ _).trans (startHigh_le_cap hargs)
  constructor
  · rintro ⟨hargs, hhalves, hsuccess⟩
    refine ⟨hargs, hsuccess, fun k hk => ?_⟩
    have hbefore : startHigh gasCap argsGas header / 2 ^ k ≠ 0 := fun h => hk <| by
      rw [pow_succ, ← Nat.div_div_eq_div_mul, h, Nat.zero_div]
    have hround := (tryGas_executeCallAtOverrides hargs (hle k hargs)).mp (hhalves k hbefore)
    rwa [givenGas, if_pos hk] at hround
  · rintro ⟨hargs, hsuccess, hhalves⟩
    refine ⟨hargs, fun k _ => (tryGas_executeCallAtOverrides hargs (hle k hargs)).mpr ?_, hsuccess⟩
    by_cases hk : startHigh gasCap argsGas header / 2 ^ (k + 1) = 0
    · rwa [hk, hown]
    · rw [givenGas, if_pos hk]
      exact hhalves k hk

/-- A result above zero was executed with exactly its own gas, and one less was refused. -/
theorem usable_of_estimateGas (hheader : CallBlockOverrides.header blockOverrides original = .ok header)
    (hzero : ¬ (call header).Success 0) (hg : g ≠ 0)
    (h : estimateGas gasCap argsGas original blockOverrides call = .ok g) :
    Usable gasCap argsGas header (call header) g := by
  obtain ⟨hargs, hsearch, hsuccess⟩ := (estimateGas_eq_ok hheader).mp h
  obtain ⟨-, hhigh⟩ := bisect_mem hsearch (Nat.zero_le _)
  have hcap := hhigh.trans (startHigh_le_cap hargs)
  refine ⟨?_, hhigh.trans startHigh_le_header, hcap, fun gas hgas => hhigh.trans (startHigh_le_args hgas), ?_⟩
  · rwa [givenGas, if_pos hg] at hsuccess
  · have hrejected := (bisect_before hsearch (Nat.zero_le _)).resolve_left hg
    by_cases hone : g - 1 = 0
    · rwa [hone]
    · intro hless
      refine not_success_of_tryGas hrejected (tryGas_eq_true.mp ?_)
      rw [tryGas_executeCallAtOverrides hargs (by omega), givenGas, if_pos hone]
      exact hless

/-- Gas estimation. The search is total. Its result is usable gas exactly unless the call
succeeds with its own gas and with every half of the most gas that is tried; then the estimate
is zero. -/
theorem estimateGas_usable (hheader : CallBlockOverrides.header blockOverrides original = .ok header)
    (hzero : ¬ (call header).Success 0) :
    (∀ g, estimateGas gasCap argsGas original blockOverrides call = .ok g →
        Usable gasCap argsGas header (call header) g) ↔
      ¬ FallsToZero gasCap argsGas header (call header) := by
  constructor
  · intro husable hfalls
    exact hzero (husable 0 ((estimateGas_eq_zero hheader).mpr hfalls)).success
  · intro hfalls g h
    refine usable_of_estimateGas hheader hzero ?_ h
    rintro rfl
    exact hfalls ((estimateGas_eq_zero hheader).mp h)

end

/-! ## A transfer -/

/-- A plain transfer: it needs 21000 gas. -/
def transfer : Execution where
  prepared := .ok ()
  applyMessage gas := if gas < 21000 then .error .intrinsicGas else .ok ⟨none⟩

theorem transfer_success {gas : Nat} : transfer.Success gas ↔ 21000 ≤ gas := by
  simp only [Execution.Success, Execution.run, transfer, Except.ok_do]
  split <;> simp_all [ExecutionResult.Failed]

def transferHeader : CallHeader where
  number := 1
  time := 12
  gasLimit := 30000000
  coinbase := 0
  mixDigest := 0
  baseFee := some 1000000000

/-- Where the block's limit stands, the estimate of a transfer is usable. -/
theorem estimateGas_usable_transfer :
    ¬ transfer.Success 0 ∧ ∀ g, estimateGas 50000000 none transferHeader none (fun _ => transfer) = .ok g →
      Usable 50000000 none transferHeader transfer g := by
  have hzero : ¬ transfer.Success 0 := by simp [transfer_success]
  refine ⟨hzero, (@estimateGas_usable 50000000 none transferHeader transferHeader none (fun _ => transfer) rfl
    hzero).mpr fun hfalls => ?_⟩
  have := hfalls.halves 23 (by decide)
  simp [transfer_success, startHigh, transferHeader] at this

/-- With the limit of the block lowered to zero, a transfer sent with 50000 gas is estimated to
need none. -/
theorem estimateGas_lowered_zero :
    estimateGas 50000000 (some 50000) transferHeader (some { gasLimit := some 0 }) (fun _ => transfer) = .ok 0 ∧
      ¬ transfer.Success 0 := by
  have hheader : CallBlockOverrides.header (some { gasLimit := some 0 }) transferHeader =
      .ok { transferHeader with gasLimit := 0 } := rfl
  refine ⟨(estimateGas_eq_zero hheader).mpr ⟨by simp, ?_, ?_⟩, ?_⟩
  · simp [transfer_success, defaultGas]
  · simp [startHigh]
  · simp [transfer_success]

end Calls

end Ethertest
