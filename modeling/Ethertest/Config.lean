-- SUMMARY: The configuration of a node and the checks that a resolved configuration passes.
import Ethertest.Types

/-!
# Configuration

The parts of `Config` that the chain, the miner and the event log read. Account
derivation, listeners, storage paths and logging are not modelled, and neither are
their checks.
-/

namespace Ethertest

/-- `time.Second` as a `time.Duration`, which counts nanoseconds. -/
def second : Int := 1000000000

/-- `math.MaxInt` -/
def maxInt : Int := 2 ^ 63 - 1

structure ForkConfig where
  cancunEpoch : Nat := 0
  pragueEpoch : Nat := 0
  osakaEpoch : Nat := 0
  /-- `-1` leaves Amsterdam out. -/
  amsterdamEpoch : Int := 0
  deriving DecidableEq

/-- `forkVersion`: the first byte of the version, the other three are zero. -/
def forkVersion (forks : ForkConfig) (slotsPerEpoch slot : Nat) : Nat :=
  let epoch := slot / slotsPerEpoch
  if 0 ≤ forks.amsterdamEpoch ∧ forks.amsterdamEpoch.toNat ≤ epoch then 0x07
  else if forks.osakaEpoch ≤ epoch then 0x06
  else if forks.pragueEpoch ≤ epoch then 0x05
  else 0x04

def forkName (forks : ForkConfig) (slotsPerEpoch slot : Nat) : ForkName :=
  match forkVersion forks slotsPerEpoch slot with
  | 0x04 => .deneb
  | 0x05 => .electra
  | 0x07 => .gloas
  | _ => .fulu

structure ChainSettings where
  chainID : Nat := 1337
  genesisTime : Int := 0
  slotDuration : Int := 6 * second
  slotsPerEpoch : Nat := 8
  validators : Nat := 64
  gasLimit : Nat := 30000000
  forks : ForkConfig := {}
  deriving DecidableEq

inductive MiningMode where
  | transaction
  | interval
  | manual
  deriving DecidableEq

inductive Order where
  | fees
  | fifo
  deriving DecidableEq

structure MiningConfig where
  mode : MiningMode := .transaction
  interval : Int := 0
  order : Order := .fees
  autoMineEmpty : Bool := false
  /-- the configured recipient, or else the first account -/
  feeRecipient : Address := 0
  deriving DecidableEq

structure ResourceLimits where
  maxResponseBytes : Int := 64 * 2 ^ 20
  maxControlOperations : Nat := 256
  deriving DecidableEq

structure Config where
  chain : ChainSettings := {}
  mining : MiningConfig := {}
  /-- `Events.Capacity` -/
  eventCapacity : Nat := 4096
  limits : ResourceLimits := {}
  deriving DecidableEq

namespace Config

variable (c : Config)

/-- `uint64(cfg.Chain.GenesisTime)`; negative times are refused. -/
def genesisTime : Nat := c.chain.genesisTime.toNat

/-- `uint64(cfg.Chain.SlotDuration / time.Second)` -/
def slotSeconds : Nat := (c.chain.slotDuration / second).toNat

def epochSeconds : Nat := c.slotSeconds * c.chain.slotsPerEpoch

/-- The slot and fork arithmetic of `validateResolved`. -/
def validateChain : Except Error Unit := do
  failIf (c.chain.chainID = 0) (.new "chain ID must be non-zero")
  failIf (c.chain.genesisTime < 0) (.new "genesis time must be non-negative")
  failIf (c.chain.slotDuration ≤ 0 ∨ c.chain.slotsPerEpoch = 0)
    (.new "slot duration and slots per epoch must be positive")
  failIf (c.chain.gasLimit = 0) (.new "gas limit must be positive")
  failIf (c.chain.slotDuration % second ≠ 0) (.new "slot duration must be a whole number of seconds")
  failIf (maxUint64 / c.slotSeconds < c.chain.slotsPerEpoch)
    (.new "slot duration and slots per epoch overflow")
  failIf (c.chain.forks.amsterdamEpoch < -1) (.new "amsterdam_epoch must be -1 or non-negative")
  failIf (0 ≤ c.chain.forks.amsterdamEpoch ∧ c.chain.forks.amsterdamEpoch.toNat < c.chain.forks.osakaEpoch)
    (.new "fork epochs must satisfy Osaka <= Amsterdam")
  failIf (0 ≤ c.chain.forks.amsterdamEpoch ∧
      (maxUint64 - c.genesisTime) / c.epochSeconds < c.chain.forks.amsterdamEpoch.toNat)
    (.new "amsterdam activation time overflows uint64")
  failIf (maxUint64 / c.epochSeconds < c.chain.forks.osakaEpoch)
    (.new "fork activation time overflows uint64")
  failIf (maxUint64 - c.chain.forks.osakaEpoch * c.epochSeconds < c.genesisTime)
    (.new "osaka activation time overflows uint64")
  failIf (maxUint64 / 2 < c.chain.slotsPerEpoch) (.new "slots per epoch overflows finality lag")
  failIf (c.chain.validators ≠ 64) (.new "v0.1 supports exactly the minimal preset's 64 validators")
  failIf (c.chain.forks.pragueEpoch < c.chain.forks.cancunEpoch ∨
      c.chain.forks.osakaEpoch < c.chain.forks.pragueEpoch)
    (.new "fork epochs must satisfy Cancun <= Prague <= Osaka")
  failIf (c.chain.forks.cancunEpoch ≠ 0)
    (.new "v0.1 chains must start at Cancun/Deneb (cancun_epoch = 0)")

/-- `validateResolved`, on the fields of the model. -/
def validateResolved : Except Error Unit := do
  c.validateChain
  failIf (c.mining.mode = .interval ∧ c.mining.interval ≤ 0)
    (.new "mining.interval must be positive in interval mode")
  failIf (c.limits.maxResponseBytes ≤ 0 ∨ maxInt < c.limits.maxResponseBytes ∨
      c.limits.maxControlOperations = 0 ∨ maxInt < c.limits.maxControlOperations ∨
      c.eventCapacity = 0 ∨ maxInt < c.eventCapacity)
    (.new "resource and event limits must be positive")

variable {c}

/-- An accepted slot duration is a positive number of whole seconds. -/
theorem slotSeconds_pos (h : c.validateResolved = .ok ()) : 0 < c.slotSeconds := by
  simp only [validateResolved, validateChain, Except.do_ok_iff, failIf_eq_ok] at h
  obtain ⟨-, ⟨-, -, -, -, -, hdur, -, -, -, hwhole, -⟩, -⟩ := h
  simp only [not_or, not_le, not_not] at hdur hwhole
  unfold slotSeconds second at *
  omega

/-- An accepted epoch has a slot, and two epochs fit in a machine word. -/
theorem slotsPerEpoch_bounds (h : c.validateResolved = .ok ()) :
    0 < c.chain.slotsPerEpoch ∧ 2 * c.chain.slotsPerEpoch < 2 ^ 64 := by
  simp only [validateResolved, validateChain, Except.do_ok_iff, exists_const, failIf_eq_ok] at h
  obtain ⟨⟨-, -, hpos, -, -, -, -, -, -, -, -, hlag, -⟩, -⟩ := h
  simp only [not_or, not_lt, maxUint64] at hpos hlag
  omega

theorem eventCapacity_pos (h : c.validateResolved = .ok ()) : 0 < c.eventCapacity := by
  simp only [validateResolved, Except.do_ok_iff, failIf_eq_ok] at h
  obtain ⟨-, -, -, -, hlimits⟩ := h
  simp only [not_or] at hlimits
  exact Nat.pos_of_ne_zero hlimits.2.2.2.2.1

end Config

end Ethertest
