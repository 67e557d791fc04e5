-- SUMMARY: Fork activation on the execution and the Beacon side, genesis files, and that both clocks agree.
import Ethertest.Config
import Ethertest.Geth

/-!
# Fork clocks

The execution chain activates a fork at a time, the Beacon side at an epoch. The times
are generated from the configured epochs, or the epochs are derived from the times
of an imported genesis.
-/

namespace Ethertest

/-! ## The execution side -/

/-- The closure of `executionChainConfig`, with the wrap of `uint64`. -/
def Config.activationTime (c : Config) (epoch : Nat) : Nat :=
  (c.genesisTime + epoch * c.chain.slotsPerEpoch * c.slotSeconds) % 2 ^ 64

def executionChainConfig (c : Config) : ChainConfig where
  chainID := c.chain.chainID
  cancunTime := some (c.activationTime c.chain.forks.cancunEpoch)
  pragueTime := some (c.activationTime c.chain.forks.pragueEpoch)
  osakaTime := some (c.activationTime c.chain.forks.osakaEpoch)
  amsterdamTime :=
    if 0 ≤ c.chain.forks.amsterdamEpoch then some (c.activationTime c.chain.forks.amsterdamEpoch.toNat) else none

/-- The epochs of the forks that are configured. -/
def ForkConfig.epochs (forks : ForkConfig) : List Nat :=
  [forks.cancunEpoch, forks.pragueEpoch, forks.osakaEpoch] ++
    if 0 ≤ forks.amsterdamEpoch then [forks.amsterdamEpoch.toNat] else []

/-- `math.MaxInt64`, as a `uint64` -/
def maxInt64 : Nat := 2 ^ 63 - 1

def executionForkEpoch (name : String) (genesisTime activationTime : Nat) (c : Config) : Except Error Nat :=
  if activationTime ≤ genesisTime then .ok 0
  else do
    failIf (maxUint64 / c.slotSeconds < c.chain.slotsPerEpoch) (.new "slot duration and slots per epoch overflow")
    failIf ((activationTime - genesisTime) % c.epochSeconds ≠ 0)
      (.errorf "%s activation time %d is not aligned to an epoch boundary from genesis %d"
        [.name name, .num activationTime, .num genesisTime])
    .ok ((activationTime - genesisTime) / c.epochSeconds)

/-! ## Imported genesis -/

/-- The block numbers at which the forks before the merge activate. -/
structure ForkBlocks where
  homesteadBlock : Option Int
  daoForkBlock : Option Int
  eip150Block : Option Int
  eip155Block : Option Int
  eip158Block : Option Int
  byzantiumBlock : Option Int
  constantinopleBlock : Option Int
  petersburgBlock : Option Int
  istanbulBlock : Option Int
  muirGlacierBlock : Option Int
  berlinBlock : Option Int
  londonBlock : Option Int
  arrowGlacierBlock : Option Int
  grayGlacierBlock : Option Int
  mergeNetsplitBlock : Option Int

/-- `params.BlobConfig` -/
structure BlobConfig where
  target : Nat
  max : Nat
  updateFraction : Nat
  deriving DecidableEq

/-- `params.BlobScheduleConfig` -/
structure BlobSchedule where
  cancun : Option BlobConfig
  prague : Option BlobConfig
  bpo1 : Option BlobConfig := none
  bpo2 : Option BlobConfig := none
  bpo3 : Option BlobConfig := none
  bpo4 : Option BlobConfig := none
  bpo5 : Option BlobConfig := none
  deriving DecidableEq

/-- The configuration in a genesis file. -/
structure GenesisConfig where
  chainID : Option Int
  blocks : ForkBlocks
  ethash : Bool := false
  clique : Bool := false
  terminalTotalDifficulty : Option Int
  shanghaiTime : Option Nat
  cancunTime : Option Nat
  pragueTime : Option Nat
  osakaTime : Option Nat
  amsterdamTime : Option Nat := none
  enableUBTAtGenesis : Bool := false
  ubtTime : Option Nat := none
  bpo1Time : Option Nat := none
  bpo2Time : Option Nat := none
  bpo3Time : Option Nat := none
  bpo4Time : Option Nat := none
  bpo5Time : Option Nat := none
  bogotaTime : Option Nat := none
  blobSchedule : Option BlobSchedule

structure GenesisAccount where
  nonce : Nat
  balance : Option Int
  code : Bytes
  /-- the number of storage entries -/
  storage : Nat

structure ExecutionGenesis where
  config : Option GenesisConfig
  timestamp : Nat
  number : Nat
  gasLimit : Nat
  difficulty : Option Int
  slotNumber : Option Nat
  alloc : Address → Option GenesisAccount

structure SystemContract where
  name : String
  address : Address
  code : Bytes

/-- What the genesis checks use of geth's `params`. -/
structure GenesisParams where
  checkConfigForkOrder : GenesisConfig → Except Error Unit
  beaconRoots : Address × Bytes
  historyStorage : Address × Bytes
  withdrawalQueue : Address × Bytes
  consolidationQueue : Address × Bytes
  builderDeposit : Address × Bytes
  builderExit : Address × Bytes
  deterministicFactory : Address × Bytes

/-- One round of the loop of `validateGenesisBlockForks`. -/
def validateForkBlock (name : String) (block : Option Int) (required : Bool) : Except Error Unit :=
  match block with
  | none => failIf (required = true) (.errorf "%s must be active at genesis" [.name name])
  | some n => failIf (n ≠ 0) (.errorf "%s must be zero when configured" [.name name])

def validateGenesisBlockForks (blocks : ForkBlocks) : Except Error Unit := do
  validateForkBlock "homesteadBlock" blocks.homesteadBlock true
  validateForkBlock "daoForkBlock" blocks.daoForkBlock false
  validateForkBlock "eip150Block" blocks.eip150Block true
  validateForkBlock "eip155Block" blocks.eip155Block true
  validateForkBlock "eip158Block" blocks.eip158Block true
  validateForkBlock "byzantiumBlock" blocks.byzantiumBlock true
  validateForkBlock "constantinopleBlock" blocks.constantinopleBlock true
  validateForkBlock "petersburgBlock" blocks.petersburgBlock true
  validateForkBlock "istanbulBlock" blocks.istanbulBlock true
  validateForkBlock "muirGlacierBlock" blocks.muirGlacierBlock false
  validateForkBlock "berlinBlock" blocks.berlinBlock true
  validateForkBlock "londonBlock" blocks.londonBlock true
  validateForkBlock "arrowGlacierBlock" blocks.arrowGlacierBlock false
  validateForkBlock "grayGlacierBlock" blocks.grayGlacierBlock false
  validateForkBlock "mergeNetsplitBlock" blocks.mergeNetsplitBlock false

def repositoryBlobSchedule : BlobSchedule where
  cancun := some ⟨3, 6, 3338477⟩
  prague := some ⟨6, 9, 5007716⟩

def matchesRepositoryBlobSchedule (schedule : Option BlobSchedule) : Bool := schedule = some repositoryBlobSchedule

section Genesis

variable (P : GenesisParams)

def systemContracts (amsterdam : Bool) : List SystemContract :=
  [⟨"EIP-4788 beacon roots", P.beaconRoots.1, P.beaconRoots.2⟩,
    ⟨"EIP-2935 history storage", P.historyStorage.1, P.historyStorage.2⟩,
    ⟨"EIP-7002 withdrawal queue", P.withdrawalQueue.1, P.withdrawalQueue.2⟩,
    ⟨"EIP-7251 consolidation queue", P.consolidationQueue.1, P.consolidationQueue.2⟩] ++
  if amsterdam then
    [⟨"builder deposit", P.builderDeposit.1, P.builderDeposit.2⟩,
      ⟨"builder exit", P.builderExit.1, P.builderExit.2⟩,
      ⟨"deterministic factory", P.deterministicFactory.1, P.deterministicFactory.2⟩]
  else []

def validateGenesisSystemContracts (alloc : Address → Option GenesisAccount) (amsterdam : Bool) : Except Error Unit :=
  (systemContracts P amsterdam).forM fun contract => do
    let account ← orFail (alloc contract.address)
      (.errorf "missing %s system contract at %s" [.name contract.name, .num contract.address])
    failIf (account.nonce ≠ 1 ∨ account.balance ≠ some 0 ∨ account.code ≠ contract.code ∨ account.storage ≠ 0)
      (.errorf "invalid %s system contract account at %s" [.name contract.name, .num contract.address])

/-- The checks of `validateExecutionGenesis` in front of the fork epochs. -/
def validateGenesisFields (g : ExecutionGenesis) (config : GenesisConfig) : Except Error Unit := do
  failIf (¬ ∃ id ∈ config.chainID, 0 < id) (.new "config.chainId must be positive")
  failIf (¬ ∃ id ∈ config.chainID, id < 2 ^ 64) (.new "config.chainId exceeds uint64")
  failIf (maxInt64 < g.timestamp) (.new "timestamp exceeds int64")
  failIf (g.number ≠ 0) (.new "genesis block number must be zero")
  failIf (g.gasLimit = 0) (.new "gasLimit must be positive")
  failIf (g.difficulty ≠ some 0) (.new "difficulty must be zero for a proof-of-stake genesis")
  failIf (config.ethash ∨ config.clique) (.new "ethash and clique consensus configurations are unsupported")
  failIf (config.terminalTotalDifficulty ≠ some 0) (.new "terminalTotalDifficulty must be zero")
  (P.checkConfigForkOrder config).mapError (.wrap "invalid fork order: %w")
  validateGenesisBlockForks config.blocks
  failIf (¬ ∃ block ∈ config.blocks.londonBlock, block ≤ 0) (.new "london must be active at genesis")
  failIf (¬ ∃ time ∈ config.shanghaiTime, time ≤ g.timestamp) (.new "shanghai must be active at genesis")
  failIf (¬ ∃ time ∈ config.cancunTime, time ≤ g.timestamp) (.new "cancun must be active at genesis")
  failIf (config.pragueTime = none ∨ config.osakaTime = none)
    (.new "both Prague and Osaka activation times are required")
  failIf (config.enableUBTAtGenesis ∨ config.ubtTime.isSome ∨ config.bpo1Time.isSome ∨ config.bpo2Time.isSome ∨
      config.bpo3Time.isSome ∨ config.bpo4Time.isSome ∨ config.bpo5Time.isSome ∨ config.bogotaTime.isSome)
    (.new "BPO, Bogota and UBT forks are outside the v0.1 protocol surface")
  failIf (matchesRepositoryBlobSchedule config.blobSchedule = false)
    (.new "blobSchedule must match ethertest's pinned Cancun and Prague parameters")
  validateGenesisSystemContracts P g.alloc config.amsterdamTime.isSome

/-- The Amsterdam epoch of an imported genesis, `-1` without one. -/
def amsterdamForkEpoch (c : Config) (g : ExecutionGenesis) (config : GenesisConfig) (osakaEpoch : Nat) :
    Except Error Int :=
  match config.amsterdamTime with
  | some time => do
    let epoch ← executionForkEpoch "Amsterdam" g.timestamp time c
    failIf (maxInt64 < epoch ∨ epoch < osakaEpoch) (.new "invalid Amsterdam epoch")
    failIf (g.slotNumber.isSome ∧ epoch ≠ 0) (.new "slotNumber requires Amsterdam at genesis")
    failIf (g.slotNumber.isSome ∧ g.slotNumber ≠ some 0) (.new "genesis slotNumber must be zero")
    .ok epoch
  | none => do
    failIf (g.slotNumber.isSome = true) (.new "slotNumber requires Amsterdam at genesis")
    .ok (-1)

def validateExecutionGenesis (c : Config) (genesis : Option ExecutionGenesis) : Except Error ForkConfig := do
  let g ← orFail genesis (.new "genesis is nil")
  failIf (c.chain.slotDuration ≤ 0 ∨ c.chain.slotDuration % second ≠ 0 ∨ c.chain.slotsPerEpoch = 0)
    (.new "slot duration must be positive whole seconds and slots per epoch must be positive")
  let config ← orFail g.config (.new "missing config")
  validateGenesisFields P g config
  let cancunEpoch ← executionForkEpoch "Cancun" g.timestamp (config.cancunTime.getD 0) c
  let pragueEpoch ← executionForkEpoch "Prague" g.timestamp (config.pragueTime.getD 0) c
  let osakaEpoch ← executionForkEpoch "Osaka" g.timestamp (config.osakaTime.getD 0) c
  let amsterdamEpoch ← amsterdamForkEpoch c g config osakaEpoch
  failIf (cancunEpoch ≠ 0 ∨ pragueEpoch < cancunEpoch ∨ osakaEpoch < pragueEpoch)
    (.new "fork epochs must satisfy Cancun = 0 <= Prague <= Osaka")
  .ok { cancunEpoch, pragueEpoch, osakaEpoch, amsterdamEpoch }

end Genesis

/-- The execution chain's configuration with an imported genesis. -/
def GenesisConfig.chainConfig (config : GenesisConfig) : ChainConfig where
  chainID := (config.chainID.getD 0).toNat
  cancunTime := config.cancunTime
  pragueTime := config.pragueTime
  osakaTime := config.osakaTime
  amsterdamTime := config.amsterdamTime

/-! ## Agreement -/

/-- A fork with this activation time is active at a time. -/
def Active (activation : Option Nat) (time : Nat) : Prop := ∃ a ∈ activation, a ≤ time

instance (activation : Option Nat) (time : Nat) : Decidable (Active activation time) :=
  inferInstanceAs (Decidable (∃ a ∈ activation, a ≤ time))

/-- The Beacon name of the newest fork that is active on the execution side. -/
def ChainConfig.forkNameAt (config : ChainConfig) (time : Nat) : ForkName :=
  if Active config.amsterdamTime time then .gloas
  else if Active config.osakaTime time then .fulu
  else if Active config.pragueTime time then .electra
  else .deneb

/-- The execution side's times and the Beacon side's epochs say the same about a slot. -/
structure ClocksAgree (config : ChainConfig) (forks : ForkConfig) (slotsPerEpoch slot time : Nat) : Prop where
  cancun : Active config.cancunTime time
  prague : Active config.pragueTime time ↔ forks.pragueEpoch ≤ slot / slotsPerEpoch
  osaka : Active config.osakaTime time ↔ forks.osakaEpoch ≤ slot / slotsPerEpoch
  amsterdam : Active config.amsterdamTime time ↔
    0 ≤ forks.amsterdamEpoch ∧ forks.amsterdamEpoch.toNat ≤ slot / slotsPerEpoch
  pragueVersion : 0x05 ≤ forkVersion forks slotsPerEpoch slot ↔ Active config.pragueTime time
  osakaVersion : 0x06 ≤ forkVersion forks slotsPerEpoch slot ↔ Active config.osakaTime time
  amsterdamVersion : 0x07 ≤ forkVersion forks slotsPerEpoch slot ↔ Active config.amsterdamTime time
  name : forkName forks slotsPerEpoch slot = config.forkNameAt time

/-- Activation that agrees for each fork, with ordered epochs, agrees on versions and names. -/
theorem ClocksAgree.of_active {config : ChainConfig} {forks : ForkConfig} {slotsPerEpoch slot time : Nat}
    (hpragueOsaka : forks.pragueEpoch ≤ forks.osakaEpoch)
    (hosakaAmsterdam : 0 ≤ forks.amsterdamEpoch → forks.osakaEpoch ≤ forks.amsterdamEpoch.toNat)
    (hcancun : Active config.cancunTime time)
    (hprague : Active config.pragueTime time ↔ forks.pragueEpoch ≤ slot / slotsPerEpoch)
    (hosaka : Active config.osakaTime time ↔ forks.osakaEpoch ≤ slot / slotsPerEpoch)
    (hamsterdam : Active config.amsterdamTime time ↔
      0 ≤ forks.amsterdamEpoch ∧ forks.amsterdamEpoch.toNat ≤ slot / slotsPerEpoch) :
    ClocksAgree config forks slotsPerEpoch slot time := by
  have hversions : (0x05 ≤ forkVersion forks slotsPerEpoch slot ↔ Active config.pragueTime time) ∧
      (0x06 ≤ forkVersion forks slotsPerEpoch slot ↔ Active config.osakaTime time) ∧
      (0x07 ≤ forkVersion forks slotsPerEpoch slot ↔ Active config.amsterdamTime time) ∧
      forkName forks slotsPerEpoch slot = config.forkNameAt time := by
    simp only [forkName, ChainConfig.forkNameAt, hprague, hosaka, hamsterdam]
    generalize hepoch : slot / slotsPerEpoch = epoch
    -- the branches are tried from the newest fork down, and an active fork's predecessors are active
    by_cases ha : 0 ≤ forks.amsterdamEpoch ∧ forks.amsterdamEpoch.toNat ≤ epoch
    · have hversion : forkVersion forks slotsPerEpoch slot = 0x07 := by simp [-Int.toNat_le, forkVersion, hepoch, ha]
      have ho : forks.osakaEpoch ≤ epoch := (hosakaAmsterdam ha.1).trans ha.2
      simp [-Int.toNat_le, hversion, ha, ho, hpragueOsaka.trans ho]
    · by_cases ho : forks.osakaEpoch ≤ epoch
      · have hversion : forkVersion forks slotsPerEpoch slot = 0x06 := by
          simp [-Int.toNat_le, forkVersion, hepoch, ha, ho]
        simp [-Int.toNat_le, hversion, ha, ho, hpragueOsaka.trans ho]
      · by_cases hp : forks.pragueEpoch ≤ epoch
        · have hversion : forkVersion forks slotsPerEpoch slot = 0x05 := by
            simp [-Int.toNat_le, forkVersion, hepoch, ha, ho, hp]
          simp [-Int.toNat_le, hversion, ha, ho, hp]
        · have hversion : forkVersion forks slotsPerEpoch slot = 0x04 := by
            simp [-Int.toNat_le, forkVersion, hepoch, ha, ho, hp]
          simp [-Int.toNat_le, hversion, ha, ho, hp]
  exact ⟨hcancun, hprague, hosaka, hamsterdam, hversions.1, hversions.2.1, hversions.2.2.1, hversions.2.2.2⟩

/-- A whole number of epochs after genesis against a slot's time. -/
theorem activation_le_iff {genesisTime slotSeconds slotsPerEpoch epoch slot : Nat} (hseconds : 0 < slotSeconds)
    (hepoch : 0 < slotsPerEpoch) :
    genesisTime + epoch * (slotSeconds * slotsPerEpoch) ≤ genesisTime + slot * slotSeconds ↔
      epoch ≤ slot / slotsPerEpoch := by
  rw [Nat.le_div_iff_mul_le hepoch, Nat.add_le_add_iff_left, Nat.mul_comm slotSeconds, ← Nat.mul_assoc,
    Nat.mul_le_mul_right_iff hseconds]

theorem active_some {a time : Nat} : Active (some a) time ↔ a ≤ time := by simp [Active]

/-! ### Generated activation times -/

namespace Config

variable {c : Config}

/-- What `validateResolved` guarantees for the fork clocks. -/
structure ForksFit (c : Config) : Prop where
  slotSeconds : 0 < c.slotSeconds
  slotsPerEpoch : 0 < c.chain.slotsPerEpoch
  perEpoch : c.chain.slotsPerEpoch ≤ maxUint64 / c.slotSeconds
  cancun : c.chain.forks.cancunEpoch = 0
  pragueOsaka : c.chain.forks.pragueEpoch ≤ c.chain.forks.osakaEpoch
  osakaAmsterdam : 0 ≤ c.chain.forks.amsterdamEpoch → c.chain.forks.osakaEpoch ≤ c.chain.forks.amsterdamEpoch.toNat
  osaka : c.genesisTime + c.chain.forks.osakaEpoch * c.epochSeconds ≤ maxUint64
  amsterdam : 0 ≤ c.chain.forks.amsterdamEpoch →
    c.genesisTime + c.chain.forks.amsterdamEpoch.toNat * c.epochSeconds ≤ maxUint64

theorem forksFit (h : c.validateResolved = .ok ()) : c.ForksFit := by
  have hseconds := slotSeconds_pos h
  simp only [validateResolved, validateChain, Except.do_ok_iff, failIf_eq_ok, exists_const, not_or, not_and, not_lt,
    not_not] at h
  obtain ⟨⟨-, -, ⟨-, hperEpoch⟩, -, -, hfit, -, hosakaAmsterdam, hamsterdam, hosaka, hosakaTime,
    -, -, ⟨-, hpragueOsaka⟩,
    hcancun⟩, -⟩ := h
  have hepochSeconds : 0 < c.epochSeconds := Nat.mul_pos hseconds (Nat.pos_of_ne_zero hperEpoch)
  rw [Nat.le_div_iff_mul_le hepochSeconds] at hosaka
  refine ⟨hseconds, Nat.pos_of_ne_zero hperEpoch, hfit, hcancun, hpragueOsaka,
    hosakaAmsterdam, by omega, fun hconfigured => ?_⟩
  have hle := hamsterdam hconfigured
  rw [Nat.le_div_iff_mul_le hepochSeconds] at hle
  -- the genesis time alone is within range, by the check for Osaka
  omega

/-- An activation time in range does not wrap. -/
theorem activationTime_eq {epoch : Nat} (h : c.genesisTime + epoch * c.epochSeconds ≤ maxUint64) :
    c.activationTime epoch = c.genesisTime + epoch * c.epochSeconds := by
  have hcomm : epoch * c.chain.slotsPerEpoch * c.slotSeconds = epoch * c.epochSeconds := by
    rw [epochSeconds, Nat.mul_assoc, Nat.mul_comm c.slotSeconds]
  rw [activationTime, hcomm, Nat.mod_eq_of_lt (by unfold maxUint64 at h; omega)]

/-- No generated activation time wraps. -/
theorem ForksFit.activationTime_eq (F : c.ForksFit) {epoch : Nat} (h : epoch ∈ c.chain.forks.epochs) :
    c.activationTime epoch = c.genesisTime + epoch * c.epochSeconds := by
  refine Config.activationTime_eq ?_
  have hosaka := F.osaka
  have hprague := Nat.mul_le_mul_right c.epochSeconds F.pragueOsaka
  simp only [ForkConfig.epochs, List.mem_append, List.mem_cons, List.not_mem_nil, or_false] at h
  rcases h with (rfl | rfl | rfl) | h
  · rw [F.cancun]
    omega
  · omega
  · exact hosaka
  · split at h
    · next hconfigured =>
      rw [List.mem_singleton.mp h]
      exact F.amsterdam hconfigured
    · cases h

theorem ForksFit.executionChainConfig_eq (F : c.ForksFit) :
    executionChainConfig c =
      { chainID := c.chain.chainID
        cancunTime := some (c.genesisTime + c.chain.forks.cancunEpoch * c.epochSeconds)
        pragueTime := some (c.genesisTime + c.chain.forks.pragueEpoch * c.epochSeconds)
        osakaTime := some (c.genesisTime + c.chain.forks.osakaEpoch * c.epochSeconds)
        amsterdamTime :=
          if 0 ≤ c.chain.forks.amsterdamEpoch then
            some (c.genesisTime + c.chain.forks.amsterdamEpoch.toNat * c.epochSeconds)
          else none } := by
  rw [executionChainConfig, F.activationTime_eq (by simp [ForkConfig.epochs]),
    F.activationTime_eq (by simp [ForkConfig.epochs]), F.activationTime_eq (by simp [ForkConfig.epochs])]
  congr 1
  split
  · next hconfigured => rw [F.activationTime_eq (by simp [ForkConfig.epochs, hconfigured])]
  · rfl

theorem ForksFit.clocksAgree (F : c.ForksFit) (slot : Nat) :
    ClocksAgree (executionChainConfig c) c.chain.forks c.chain.slotsPerEpoch slot
      (c.genesisTime + slot * c.slotSeconds) := by
  rw [F.executionChainConfig_eq]
  refine .of_active F.pragueOsaka F.osakaAmsterdam (active_some.mpr (by rw [F.cancun]; omega))
    (active_some.trans (activation_le_iff F.slotSeconds F.slotsPerEpoch))
    (active_some.trans (activation_le_iff F.slotSeconds F.slotsPerEpoch)) ?_
  split
  · next hconfigured =>
    rw [active_some, epochSeconds, activation_le_iff F.slotSeconds F.slotsPerEpoch]
    simp [hconfigured]
  · next hnone => simp [Active, hnone]

/-- Deriving the epoch of a generated activation time gives the epoch back. -/
theorem ForksFit.executionForkEpoch_eq (F : c.ForksFit) (name : String) {epoch : Nat}
    (h : c.genesisTime + epoch * c.epochSeconds ≤ maxUint64) :
    executionForkEpoch name c.genesisTime (c.activationTime epoch) c = .ok epoch := by
  have hpos : 0 < c.epochSeconds := Nat.mul_pos F.slotSeconds F.slotsPerEpoch
  rw [Config.activationTime_eq h, executionForkEpoch]
  split
  · next hle =>
    have hzero : epoch * c.epochSeconds = 0 := by omega
    rw [(Nat.mul_eq_zero.mp hzero).resolve_right (by omega)]
  · rw [Nat.add_sub_cancel_left, Nat.mul_mod_left, Nat.mul_div_cancel _ hpos]
    have hfit := F.perEpoch
    simp [failIf, Nat.not_lt.mpr hfit, bind, Except.bind]

end Config

/-! ### Imported activation times -/

section Imported

variable {P : GenesisParams} {c : Config} {g : ExecutionGenesis} {config : GenesisConfig}

/-- A derived epoch starts by the activation time exactly when the fork is active. -/
theorem active_iff_of_executionForkEpoch {name : String} {genesisTime time epoch slot : Nat}
    (hseconds : 0 < c.slotSeconds) (hepoch : 0 < c.chain.slotsPerEpoch)
    (h : executionForkEpoch name genesisTime time c = .ok epoch) :
    Active (some time) (genesisTime + slot * c.slotSeconds) ↔ epoch ≤ slot / c.chain.slotsPerEpoch := by
  rw [active_some]
  unfold executionForkEpoch at h
  split at h
  · next hle =>
    rw [← Except.ok.inj h]
    simp only [Nat.zero_le, iff_true]
    omega
  · next hgt =>
    simp only [Except.do_ok_iff, exists_const, failIf_eq_ok, not_not, Except.ok.injEq] at h
    obtain ⟨-, haligned, rfl⟩ := h
    have htime : time = genesisTime + (time - genesisTime) / c.epochSeconds *
        (c.slotSeconds * c.chain.slotsPerEpoch) := by
      have := Nat.div_mul_cancel (Nat.dvd_of_mod_eq_zero haligned)
      rw [← Config.epochSeconds]
      omega
    conv_lhs => rw [htime]
    exact activation_le_iff hseconds hepoch

theorem amsterdamForkEpoch_spec (slot : Nat) {osakaEpoch : Nat} {epoch : Int} (hseconds : 0 < c.slotSeconds)
    (hepoch : 0 < c.chain.slotsPerEpoch) (h : amsterdamForkEpoch c g config osakaEpoch = .ok epoch) :
    (0 ≤ epoch → osakaEpoch ≤ epoch.toNat) ∧
      (Active config.amsterdamTime (g.timestamp + slot * c.slotSeconds) ↔
        0 ≤ epoch ∧ epoch.toNat ≤ slot / c.chain.slotsPerEpoch) := by
  unfold amsterdamForkEpoch at h
  split at h
  · next time htime =>
    simp only [Except.do_ok_iff, exists_const, failIf_eq_ok, not_or, not_lt, Except.ok.injEq] at h
    obtain ⟨e, he, ⟨-, hosaka⟩, -, -, rfl⟩ := h
    refine ⟨fun _ => by simpa using hosaka, ?_⟩
    rw [htime, active_iff_of_executionForkEpoch hseconds hepoch he]
    simp
  · next htime =>
    simp only [Except.do_ok_iff, exists_const, failIf_eq_ok, Except.ok.injEq] at h
    obtain ⟨-, rfl⟩ := h
    simp [htime, Active]

/-- The clocks agree with an accepted genesis file. -/
theorem validateExecutionGenesis_clocksAgree {forks : ForkConfig}
    (h : validateExecutionGenesis P c (some g) = .ok forks) (hconfig : g.config = some config) (slot : Nat) :
    ClocksAgree config.chainConfig forks c.chain.slotsPerEpoch slot (g.timestamp + slot * c.slotSeconds) := by
  simp only [validateExecutionGenesis, Except.do_ok_iff, exists_const, failIf_eq_ok, orFail_eq_ok, Option.some.injEq,
    hconfig, exists_eq_left', not_or, not_lt, not_le, not_not, Except.ok.injEq] at h
  obtain ⟨⟨hduration, hwhole, hepoch⟩, ⟨⟩, hfields, cancunEpoch, -, pragueEpoch, hprague, osakaEpoch, hosaka,
    amsterdamEpoch, hamsterdam, ⟨-, -, hpragueOsaka⟩, rfl⟩ := h
  have hepoch : 0 < c.chain.slotsPerEpoch := Nat.pos_of_ne_zero hepoch
  have hseconds : 0 < c.slotSeconds := by
    unfold Config.slotSeconds second at *
    omega
  simp only [validateGenesisFields, Except.do_ok_iff, exists_const, failIf_eq_ok, not_or, not_not] at hfields
  obtain ⟨-, -, -, -, -, -, -, -, ⟨⟩, -, ⟨⟩, -, -, -, hcancunTime, ⟨hpragueTime, hosakaTime⟩, -⟩ := hfields
  obtain ⟨hosakaAmsterdam, hamsterdamActive⟩ := amsterdamForkEpoch_spec slot hseconds hepoch hamsterdam
  obtain ⟨time, hsome, htime⟩ := hcancunTime
  obtain ⟨pragueTime, hp⟩ := Option.ne_none_iff_exists'.mp hpragueTime
  obtain ⟨osakaTime, ho⟩ := Option.ne_none_iff_exists'.mp hosakaTime
  rw [hp, Option.getD_some] at hprague
  rw [ho, Option.getD_some] at hosaka
  refine .of_active hpragueOsaka hosakaAmsterdam ⟨time, hsome, by omega⟩ ?_ ?_ hamsterdamActive
  · rw [GenesisConfig.chainConfig, hp]
    exact active_iff_of_executionForkEpoch hseconds hepoch hprague
  · rw [GenesisConfig.chainConfig, ho]
    exact active_iff_of_executionForkEpoch hseconds hepoch hosaka

end Imported

/-! ### Both clocks -/

/-- For an accepted configuration no activation time wraps, both clocks agree at every slot
with a representable time, and the epochs can be derived back from the times; and the
clocks agree for an accepted genesis file. -/
theorem fork_clocks_agree (P : GenesisParams) (c : Config) :
    (c.validateResolved = .ok () →
      (∀ epoch ∈ c.chain.forks.epochs, c.activationTime epoch = c.genesisTime + epoch * c.epochSeconds) ∧
      (∀ slot, c.genesisTime + slot * c.slotSeconds ≤ maxUint64 →
        ClocksAgree (executionChainConfig c) c.chain.forks c.chain.slotsPerEpoch slot
          (c.genesisTime + slot * c.slotSeconds)) ∧
      ∀ name epoch, c.genesisTime + epoch * c.epochSeconds ≤ maxUint64 →
        executionForkEpoch name c.genesisTime (c.activationTime epoch) c = .ok epoch) ∧
    ∀ g config forks, g.config = some config → validateExecutionGenesis P c (some g) = .ok forks →
      ∀ slot, g.timestamp + slot * c.slotSeconds ≤ maxUint64 →
        ClocksAgree config.chainConfig forks c.chain.slotsPerEpoch slot (g.timestamp + slot * c.slotSeconds) := by
  refine ⟨fun h => ?_, fun g config forks hconfig h slot _ => validateExecutionGenesis_clocksAgree h hconfig slot⟩
  have F := Config.forksFit h
  exact ⟨fun epoch hepoch => F.activationTime_eq hepoch, fun slot _ => F.clocksAgree slot,
    fun name epoch hle => F.executionForkEpoch_eq name hle⟩

/-- A chain with Prague at epoch 1, Osaka at epoch 2 and no Amsterdam. -/
def stagedConfig : Config where
  chain := { genesisTime := 1000, forks := { pragueEpoch := 1, osakaEpoch := 2, amsterdamEpoch := -1 } }

/-- Parameters with made-up system contracts. -/
def stagedParams : GenesisParams where
  checkConfigForkOrder _ := .ok ()
  beaconRoots := (1, [1])
  historyStorage := (2, [2])
  withdrawalQueue := (3, [3])
  consolidationQueue := (4, [4])
  builderDeposit := (5, [5])
  builderExit := (6, [6])
  deterministicFactory := (7, [7])

/-- A genesis file with Prague before genesis, Osaka two epochs and Amsterdam three epochs after it. -/
def stagedGenesisConfig : GenesisConfig where
  chainID := some 5
  blocks :=
    ⟨some 0, none, some 0, some 0, some 0, some 0, some 0, some 0, some 0, none, some 0, some 0, none, none, none⟩
  terminalTotalDifficulty := some 0
  shanghaiTime := some 0
  cancunTime := some 0
  pragueTime := some 900
  osakaTime := some (1000 + 2 * 48)
  amsterdamTime := some (1000 + 3 * 48)
  blobSchedule := some repositoryBlobSchedule

def stagedGenesis : ExecutionGenesis where
  config := some stagedGenesisConfig
  timestamp := 1000
  number := 0
  gasLimit := 30000000
  difficulty := some 0
  slotNumber := none
  alloc a := some ⟨1, some 0, [UInt8.ofNat a], 0⟩

theorem fork_clocks_agree_staged :
    ClocksAgree (executionChainConfig stagedConfig) stagedConfig.chain.forks 8 15 (1000 + 15 * 6) ∧
      executionForkEpoch "Osaka" 1000 (stagedConfig.activationTime 2) stagedConfig = .ok 2 ∧
      ClocksAgree stagedGenesisConfig.chainConfig ⟨0, 0, 2, 3⟩ 8 15 (1000 + 15 * 6) :=
  have h := fork_clocks_agree stagedParams stagedConfig
  have hagree := h.1 (by decide)
  ⟨hagree.2.1 15 (by decide), hagree.2.2 "Osaka" 2 (by decide), h.2 stagedGenesis _ _ rfl (by decide) 15 (by decide)⟩

end Ethertest
