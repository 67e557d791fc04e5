-- SUMMARY: Completing the numbers and times of simulated blocks, and which chains are accepted.
import Ethertest.Types

/-!
# Simulated chains

A simulation names some numbers and times of its blocks. `sanitizeChain` derives the others
and fills every skipped number with an empty block. Numbers and times are 64-bit words; the
completion that they stand for is over natural numbers.
-/

namespace Ethertest

namespace Simulate

/-! ## Blocks -/

inductive SimulationError where
  /-- `simulationRPCError` -/
  | rpc (code : Int) (format : String) (args : List Arg)
  /-- `clientLimitExceededError` -/
  | clientLimitExceeded (message : String)

def simErrBlockNumber : Int := -38020

def simErrBlockTimestamp : Int := -38021

def maxSimulateBlocks : Nat := 256

structure SimulationBlockOverrides where
  number : Option UInt64 := none
  prevRandao : Option Nat := none
  time : Option UInt64 := none
  gasLimit : Option UInt64 := none
  feeRecipient : Option Address := none
  baseFeePerGas : Option Nat := none
  withdrawals : Option (List Withdrawal) := none
  blobBaseFee : Option Nat := none

/-- A simulated block. State overrides and calls are not looked at here. -/
structure SimulationBlock (State Call : Type) where
  blockOverrides : Option SimulationBlockOverrides := none
  stateOverrides : Option State := none
  calls : List Call := []

/-- The parts of a simulator that complete a chain. -/
structure Simulator where
  baseNumber : UInt64
  baseTime : UInt64
  timeIncrement : UInt64

variable {State Call : Type}

/-! ## The loop -/

/-- The loop's variables: the number and time of the block before, and the blocks so far. -/
structure Progress (State Call : Type) where
  previousNumber : UInt64
  previousTime : UInt64
  result : List (SimulationBlock State Call) := []

/-- The block that stands for a skipped number. -/
def gapBlock (number time : UInt64) : SimulationBlock State Call where
  blockOverrides := some { number := some number, time := some time, withdrawals := some [] }

/-- Append the blocks of skipped numbers; the number of rounds is known before. -/
def fillGaps (sim : Simulator) : Nat → UInt64 → UInt64 → List (SimulationBlock State Call) →
    Except SimulationError (UInt64 × List (SimulationBlock State Call))
  | 0, _, previousTime, result => .ok (previousTime, result)
  | left + 1, gapNumber, previousTime, result => do
    failIf (UInt64.ofNat maxUint64 - sim.timeIncrement < previousTime)
      (.rpc simErrBlockTimestamp "block timestamp overflow" [])
    let previousTime := previousTime + sim.timeIncrement
    let result := result ++ [gapBlock gapNumber previousTime]
    failIf (maxSimulateBlocks < result.length) (.clientLimitExceeded "too many simulated output blocks")
    fillGaps sim left (gapNumber + 1) previousTime result

/-- One round of `sanitizeChain`. -/
def sanitizeBlock (sim : Simulator) (p : Progress State Call) (block : SimulationBlock State Call) :
    Except SimulationError (Progress State Call) := do
  let overrides := block.blockOverrides.getD {}
  let overrides := { overrides with withdrawals := some (overrides.withdrawals.getD []) }
  let number := p.previousNumber + 1
  failIf (number = 0) (.rpc simErrBlockNumber "block number overflow" [])
  let number := overrides.number.getD number
  failIf (number ≤ p.previousNumber)
    (.rpc simErrBlockNumber "block numbers must increase: %d <= %d" [.num number.toNat, .num p.previousNumber.toNat])
  failIf (maxSimulateBlocks < (number - sim.baseNumber).toNat)
    (.clientLimitExceeded "too many simulated output blocks")
  let (previousTime, result) ← fillGaps sim (number.toNat - (p.previousNumber + 1).toNat) (p.previousNumber + 1)
    p.previousTime p.result
  let timestamp := previousTime + sim.timeIncrement
  failIf (timestamp < previousTime) (.rpc simErrBlockTimestamp "block timestamp overflow" [])
  let timestamp := overrides.time.getD timestamp
  failIf (timestamp ≤ previousTime)
    (.rpc simErrBlockTimestamp "block timestamps must increase: %d <= %d"
      [.num timestamp.toNat, .num previousTime.toNat])
  let block := { block with
    blockOverrides := some { overrides with number := some number, time := some timestamp } }
  let result := result ++ [block]
  failIf (maxSimulateBlocks < result.length) (.clientLimitExceeded "too many simulated output blocks")
  .ok { previousNumber := number, previousTime := timestamp, result := result }

/-- `sanitizeChain` -/
def sanitizeChain (sim : Simulator) (blocks : List (SimulationBlock State Call)) :
    Except SimulationError (List (SimulationBlock State Call)) := do
  let p ← blocks.foldlM (sanitizeBlock sim) { previousNumber := sim.baseNumber, previousTime := sim.baseTime }
  .ok p.result

/-! ## The completion -/

/-- A number and a time. -/
abbrev Place := Nat × Nat

/-- The places of blocks that fill a gap, one increment after another. -/
def fillers (increment : Nat) : Nat → Place → List Place
  | 0, _ => []
  | left + 1, (number, time) => (number + 1, time + increment) :: fillers increment left (number + 1, time + increment)

/-- The explicit number and time of a block. -/
abbrev Explicit := Option Nat × Option Nat

/-- The number of a block after a place, its own or the next one. -/
def numberAfter (p : Place) (x : Explicit) : Nat := x.1.getD (p.1 + 1)

/-- How many numbers are skipped. -/
def gap (p : Place) (x : Explicit) : Nat := numberAfter p x - (p.1 + 1)

/-- The time of the last block before, fillers included. -/
def filledTime (increment : Nat) (p : Place) (x : Explicit) : Nat := p.2 + increment * gap p x

/-- The place of a block: its own number and time, or the ones derived. -/
def placeAfter (increment : Nat) (p : Place) (x : Explicit) : Place :=
  (numberAfter p x, x.2.getD (filledTime increment p x + increment))

/-- The places of all blocks and fillers after a place. -/
def complete (increment : Nat) : Place → List Explicit → List Place
  | _, [] => []
  | p, x :: xs =>
    fillers increment (gap p x) p ++ placeAfter increment p x :: complete increment (placeAfter increment p x) xs

/-- Both number and time are larger. -/
def Place.Before (p q : Place) : Prop := p.1 < q.1 ∧ p.2 < q.2

/-- Numbers and times increase strictly from the base on and fit into 64 bits, and the last
number is at most 256 after the base. -/
structure Valid (base : Place) (places : List Place) : Prop where
  increasing : List.IsChain Place.Before (base :: places)
  fits : ∀ p ∈ places, p.1 ≤ maxUint64 ∧ p.2 ≤ maxUint64
  bounded : ∀ p, places.getLast? = some p → p.1 ≤ base.1 + maxSimulateBlocks

/-- The time that every block would have without an explicit one fits into 64 bits. -/
def Derivable (increment : Nat) : Place → List Explicit → Prop
  | _, [] => True
  | p, x :: xs => filledTime increment p x + increment ≤ maxUint64 ∧ Derivable increment (placeAfter increment p x) xs

namespace SimulationBlock

def overrides (b : SimulationBlock State Call) : SimulationBlockOverrides := b.blockOverrides.getD {}

def explicit (b : SimulationBlock State Call) : Explicit :=
  (b.overrides.number.map UInt64.toNat, b.overrides.time.map UInt64.toNat)

/-- The place that a completed block states. -/
def place (b : SimulationBlock State Call) : Place :=
  (((b.overrides.number.map UInt64.toNat)).getD 0, ((b.overrides.time.map UInt64.toNat)).getD 0)

/-- An empty block. -/
structure Filler (b : SimulationBlock State Call) : Prop where
  calls : b.calls = []
  stateOverrides : b.stateOverrides = none
  overrides : ∃ number time, b.blockOverrides =
    some { number := some number, time := some time, withdrawals := some [] }

/-- Calls, state overrides and explicit values of a block are kept; a missing number, time or
list of withdrawals is filled in. -/
structure Keeps (b b' : SimulationBlock State Call) : Prop where
  calls : b'.calls = b.calls
  stateOverrides : b'.stateOverrides = b.stateOverrides
  overrides : ∃ number time, b'.blockOverrides = some { b.overrides with
    number := some (b.overrides.number.getD number)
    time := some (b.overrides.time.getD time)
    withdrawals := some (b.overrides.withdrawals.getD []) }

end SimulationBlock

/-- Without its fillers a list is another one, with what was missing filled in. -/
inductive Completes : List (SimulationBlock State Call) → List (SimulationBlock State Call) → Prop
  | nil : Completes [] []
  | filler {b blocks blocks'} : b.Filler → Completes blocks blocks' → Completes blocks (b :: blocks')
  | block {b b' blocks blocks'} : b.Keeps b' → Completes blocks blocks' → Completes (b :: blocks) (b' :: blocks')

/-! ## One round -/

theorem eq_ofNat {x : UInt64} {n : Nat} (h : x.toNat = n) : x = UInt64.ofNat n := by
  rw [← h, UInt64.ofNat_toNat]

theorem toNat_le (x : UInt64) : x.toNat ≤ maxUint64 := Nat.le_pred_of_lt x.toNat_lt

theorem toNat_ofNat {n : Nat} (h : n ≤ maxUint64) : (UInt64.ofNat n).toNat = n :=
  UInt64.toNat_ofNat_of_lt' (Nat.lt_of_le_pred (by decide) h)

/-- A sum that does not wrap around. -/
theorem toNat_add_of_le {x y : UInt64} (h : x.toNat + y.toNat ≤ maxUint64) : (x + y).toNat = x.toNat + y.toNat := by
  have hmax : maxUint64 = 2 ^ 64 - 1 := rfl
  rw [UInt64.toNat_add, Nat.mod_eq_of_lt (by omega)]

/-- A sum is smaller than its first part exactly if it wraps around. -/
theorem add_lt_iff {x y : UInt64} : x + y < x ↔ maxUint64 < x.toNat + y.toNat := by
  have hmax : maxUint64 = 2 ^ 64 - 1 := rfl
  have hx := toNat_le x
  have hy := toNat_le y
  rw [UInt64.lt_iff_toNat_lt, UInt64.toNat_add]
  omega

/-- The blocks of the places in a gap. -/
def gapBlocks (places : List Place) : List (SimulationBlock State Call) :=
  places.map fun p => gapBlock (UInt64.ofNat p.1) (UInt64.ofNat p.2)

theorem length_fillers (increment left : Nat) (p : Place) : (fillers increment left p).length = left := by
  induction left generalizing p with
  | zero => rfl
  | succ left ih => rw [fillers, List.length_cons, ih]

variable {sim : Simulator}

theorem fillGaps_eq_ok {left n : Nat} {gapNumber time time' : UInt64}
    {result result' : List (SimulationBlock State Call)}
    (hnumber : gapNumber.toNat = n + 1 ∨ left = 0) (hfits : n + left ≤ maxUint64)
    (hcount : result.length + left ≤ maxSimulateBlocks) :
    fillGaps sim left gapNumber time result = .ok (time', result') ↔
      time.toNat + sim.timeIncrement.toNat * left ≤ maxUint64 ∧
      time'.toNat = time.toNat + sim.timeIncrement.toNat * left ∧
      result' = result ++ gapBlocks (fillers sim.timeIncrement.toNat left (n, time.toNat)) := by
  have hmax : maxUint64 = 2 ^ 64 - 1 := rfl
  induction left generalizing n gapNumber time result with
  | zero =>
    have htime := toNat_le time
    simp only [fillGaps, Except.ok.injEq, Prod.mk.injEq, Nat.mul_zero, Nat.add_zero, fillers, gapBlocks, List.map_nil,
      List.append_nil, htime, true_and]
    constructor
    · rintro ⟨rfl, rfl⟩
      exact ⟨rfl, rfl⟩
    · rintro ⟨heq, rfl⟩
      exact ⟨(UInt64.toNat_inj.mp heq).symm, rfl⟩
  | succ left ih =>
    have hguard : ¬ UInt64.ofNat maxUint64 - sim.timeIncrement < time ↔
        time.toNat + sim.timeIncrement.toNat ≤ maxUint64 := by
      have hinc := toNat_le sim.timeIncrement
      have hbig : (UInt64.ofNat maxUint64).toNat = maxUint64 := rfl
      rw [UInt64.lt_iff_toNat_lt, UInt64.toNat_sub_of_le _ _ (UInt64.le_iff_toNat_le.mpr (by omega)), hbig]
      omega
    have hnumber : gapNumber.toNat = n + 1 := hnumber.resolve_right (Nat.succ_ne_zero left)
    have hnext : (gapNumber + 1).toNat = n + 1 + 1 ∨ left = 0 := by
      rcases Nat.eq_zero_or_pos left with hzero | hpos
      · exact .inr hzero
      · refine .inl ?_
        have hone : (1 : UInt64).toNat = 1 := rfl
        rw [toNat_add_of_le (by omega), hnumber, hone]
    have hlength : (result ++ [gapBlock gapNumber (time + sim.timeIncrement)]).length = result.length + 1 := by simp
    have hrest := @ih (n + 1) (gapNumber + 1) (time + sim.timeIncrement)
      (result ++ [gapBlock gapNumber (time + sim.timeIncrement)]) hnext (by omega) (by omega)
    simp only [fillGaps, Except.do_ok_iff, exists_const, failIf_eq_ok, hguard, hrest]
    by_cases htime : time.toNat + sim.timeIncrement.toNat ≤ maxUint64
    · have hblocks : (gapBlocks (fillers sim.timeIncrement.toNat (left + 1) (n, time.toNat)) :
          List (SimulationBlock State Call)) = gapBlock gapNumber (time + sim.timeIncrement) ::
            gapBlocks (fillers sim.timeIncrement.toNat left (n + 1, (time + sim.timeIncrement).toNat)) := by
        rw [toNat_add_of_le htime, eq_ofNat (toNat_add_of_le htime), eq_ofNat hnumber]
        rfl
      rw [hblocks, toNat_add_of_le htime, List.append_assoc, Nat.mul_succ]
      constructor
      · rintro ⟨-, -, hall, htime', rfl⟩
        exact ⟨by omega, by omega, rfl⟩
      · rintro ⟨hall, htime', rfl⟩
        exact ⟨htime, by omega, by omega, by omega, rfl⟩
    · rw [Nat.mul_succ]
      constructor
      · exact fun h => absurd h.1 htime
      · exact fun h => absurd h.1 (by omega)

/-- The block that takes a place. -/
def placed (p : Place) (b : SimulationBlock State Call) : SimulationBlock State Call :=
  { b with blockOverrides := some { b.overrides with
      number := some (UInt64.ofNat p.1)
      time := some (UInt64.ofNat p.2)
      withdrawals := some (b.overrides.withdrawals.getD []) } }

/-- What a round checks. -/
structure Admits (base increment : Nat) (p : Place) (x : Explicit) : Prop where
  larger : p.1 < numberAfter p x
  fits : numberAfter p x ≤ maxUint64
  near : numberAfter p x ≤ base + maxSimulateBlocks
  derivable : filledTime increment p x + increment ≤ maxUint64
  later : filledTime increment p x < (placeAfter increment p x).2
  timeFits : (placeAfter increment p x).2 ≤ maxUint64

/-- The place after which a round goes on. -/
def Progress.place (p : Progress State Call) : Place := (p.previousNumber.toNat, p.previousTime.toNat)

/-- The blocks so far have the numbers after the base. -/
def Progress.Counts (sim : Simulator) (p : Progress State Call) : Prop :=
  p.previousNumber.toNat = sim.baseNumber.toNat + p.result.length

/-- What a round accepts and appends. -/
theorem sanitizeBlock_eq_ok {p p' : Progress State Call} {b : SimulationBlock State Call} (hp : p.Counts sim) :
    sanitizeBlock sim p b = .ok p' ↔
      Admits sim.baseNumber.toNat sim.timeIncrement.toNat p.place b.explicit ∧
      p'.place = placeAfter sim.timeIncrement.toNat p.place b.explicit ∧
      p'.result = p.result ++ (gapBlocks (fillers sim.timeIncrement.toNat (gap p.place b.explicit) p.place) ++
        [placed (placeAfter sim.timeIncrement.toNat p.place b.explicit) b]) := by
  have hmax : maxUint64 = 2 ^ 64 - 1 := rfl
  have hone : (1 : UInt64).toNat = 1 := rfl
  unfold Progress.Counts at hp
  have hprevious := toNat_le p.previousNumber
  by_cases hzero : p.previousNumber + 1 = 0
  · -- no number is left
    have hlast : p.previousNumber.toNat = maxUint64 := by
      have hsum := congrArg UInt64.toNat hzero
      rw [UInt64.toNat_add, hone] at hsum
      change _ = 0 at hsum
      omega
    constructor
    · intro h
      simp only [sanitizeBlock, Except.do_ok_iff, exists_const, failIf_eq_ok] at h
      exact absurd hzero h.1
    · rintro ⟨hadmits, -⟩
      have hlarger : p.previousNumber.toNat < _ := hadmits.larger
      have hfits := hadmits.fits
      omega
  · have hnext : (p.previousNumber + 1).toNat = p.previousNumber.toNat + 1 := by
      refine toNat_add_of_le (Nat.succ_le_of_lt (Nat.lt_of_le_of_ne hprevious fun hlast => hzero ?_))
      refine UInt64.toNat_inj.mp ?_
      rw [UInt64.toNat_add, hone, hlast]
      rfl
    obtain ⟨number, hnumber⟩ : ∃ number, b.overrides.number.getD (p.previousNumber + 1) = number := ⟨_, rfl⟩
    have hvalue : numberAfter p.place b.explicit = number.toNat := by
      rw [← hnumber]
      cases hexplicit : b.overrides.number with
      | none => simp [numberAfter, SimulationBlock.explicit, hexplicit, Progress.place, hnext]
      | some explicit => simp [numberAfter, SimulationBlock.explicit, hexplicit]
    have hfirst : (placeAfter sim.timeIncrement.toNat p.place b.explicit).1 = number.toNat := hvalue
    have hgap : number.toNat - (p.previousNumber + 1).toNat = gap p.place b.explicit := by
      rw [gap, hvalue, hnext]
      rfl
    have hnumberFits := toNat_le number
    have htimestamp {time : UInt64} (htime : time.toNat = filledTime sim.timeIncrement.toNat p.place b.explicit)
        (hfits : time.toNat + sim.timeIncrement.toNat ≤ maxUint64) :
        (b.overrides.time.getD (time + sim.timeIncrement)).toNat =
          (placeAfter sim.timeIncrement.toNat p.place b.explicit).2 := by
      cases hexplicit : b.overrides.time with
      | none => simp [placeAfter, SimulationBlock.explicit, hexplicit, toNat_add_of_le hfits, htime]
      | some explicit => simp [placeAfter, SimulationBlock.explicit, hexplicit]
    have hraw : b.blockOverrides.getD {} = b.overrides := rfl
    simp only [sanitizeBlock, Except.do_ok_iff, exists_const, failIf_eq_ok, Except.ok.injEq, Prod.exists, hraw, hnumber,
      hgap, UInt64.le_iff_toNat_le, add_lt_iff, not_le, not_lt]
    have hfill {time : UInt64} {result : List (SimulationBlock State Call)}
      (hlarger : p.previousNumber.toNat < number.toNat)
        (hnear : number.toNat ≤ sim.baseNumber.toNat + maxSimulateBlocks) :=
      @fillGaps_eq_ok State Call sim (gap p.place b.explicit) p.previousNumber.toNat (p.previousNumber + 1)
        p.previousTime time p.result result (.inl hnext) (by omega) (by omega)
    have hsub (hlarger : p.previousNumber.toNat < number.toNat) :
        (number - sim.baseNumber).toNat = number.toNat - sim.baseNumber.toNat :=
      UInt64.toNat_sub_of_le _ _ (UInt64.le_iff_toNat_le.mpr (by omega))
    constructor
    · rintro ⟨-, hlarger, hnear, time, result, hok, hover, hlater, -, rfl⟩
      rw [hsub hlarger] at hnear
      obtain ⟨hall, htime, rfl⟩ := (hfill hlarger (by omega)).mp hok
      change time.toNat = filledTime sim.timeIncrement.toNat p.place b.explicit at htime
      have hstamp := htimestamp htime hover
      rw [hstamp, htime] at hlater
      refine ⟨⟨hvalue ▸ hlarger, hvalue ▸ hnumberFits, by omega, htime ▸ hover, hlater, hstamp ▸ toNat_le _⟩, ?_, ?_⟩
      · exact Prod.ext hvalue.symm hstamp
      · rw [List.append_assoc, placed, ← eq_ofNat hstamp, ← eq_ofNat hfirst.symm]
        rfl
    · rintro ⟨hadmits, hplace, hresult⟩
      have hlarger : p.previousNumber.toNat < number.toNat := hvalue ▸ hadmits.larger
      have hnear : number.toNat ≤ sim.baseNumber.toNat + maxSimulateBlocks := hvalue ▸ hadmits.near
      have hderivable := hadmits.derivable
      have htime : (UInt64.ofNat (filledTime sim.timeIncrement.toNat p.place b.explicit)).toNat =
          filledTime sim.timeIncrement.toNat p.place b.explicit := toNat_ofNat (by omega)
      have hover := htime.symm ▸ hderivable
      have hstamp := htimestamp htime hover
      have hlater := hadmits.later
      refine ⟨hzero, hlarger, by rw [hsub hlarger]; omega, _, _,
        (hfill hlarger hnear).mpr ⟨(Nat.le_add_right _ _).trans hderivable, htime, rfl⟩, hover, ?_, ?_, ?_⟩
      · rw [hstamp, htime]
        exact hlater
      · simp only [List.length_append, List.length_singleton, gapBlocks, List.length_map, length_fillers]
        have hcount : gap p.place b.explicit = number.toNat - (p.previousNumber.toNat + 1) := by rw [← hgap, hnext]
        omega
      · obtain ⟨previousNumber, previousTime, result⟩ := p'
        simp only [Progress.mk.injEq]
        refine ⟨?_, ?_, ?_⟩
        · exact UInt64.toNat_inj.mp (hvalue.symm.trans (congrArg Prod.fst hplace).symm)
        · exact UInt64.toNat_inj.mp (hstamp.trans (congrArg Prod.snd hplace).symm)
        · change result = _ at hresult
          rw [hresult, placed, ← eq_ofNat hstamp, ← eq_ofNat hfirst.symm, ← List.append_assoc]
          rfl

/-! ## All rounds -/

/-- What all rounds check. -/
def AdmitsAll (base increment : Nat) : Place → List Explicit → Prop
  | _, [] => True
  | p, x :: xs => Admits base increment p x ∧ AdmitsAll base increment (placeAfter increment p x) xs

/-- The blocks with their fillers. -/
def completed (increment : Nat) : Place → List (SimulationBlock State Call) → List (SimulationBlock State Call)
  | _, [] => []
  | p, b :: blocks => gapBlocks (fillers increment (gap p b.explicit) p) ++
      placed (placeAfter increment p b.explicit) b :: completed increment (placeAfter increment p b.explicit) blocks

theorem sanitizeBlocks_eq_ok {p : Progress State Call} {blocks out : List (SimulationBlock State Call)}
    (hp : p.Counts sim) :
    (do let p ← blocks.foldlM (sanitizeBlock sim) p
        .ok p.result) = Except.ok out ↔
      AdmitsAll sim.baseNumber.toNat sim.timeIncrement.toNat p.place (blocks.map (·.explicit)) ∧
      out = p.result ++ completed sim.timeIncrement.toNat p.place blocks := by
  induction blocks generalizing p with
  | nil =>
    rw [List.foldlM_nil]
    simp [AdmitsAll, completed, eq_comm]
  | cons b blocks ih =>
    rw [List.foldlM_cons, bind_assoc, Except.do_ok_iff]
    simp only [List.map_cons, AdmitsAll, completed]
    -- the round after the first one goes on from the place of the first block
    have hnext {p' : Progress State Call} (hone : sanitizeBlock sim p b = .ok p') : p'.Counts sim := by
      obtain ⟨hadmits, hplace, hresult⟩ := (sanitizeBlock_eq_ok hp).mp hone
      have hnumber : p'.previousNumber.toNat = numberAfter p.place b.explicit := congrArg Prod.fst hplace
      have hlarger : p.previousNumber.toNat < numberAfter p.place b.explicit := hadmits.larger
      have hgap : gap p.place b.explicit = numberAfter p.place b.explicit - (p.previousNumber.toNat + 1) := rfl
      unfold Progress.Counts at hp ⊢
      rw [hnumber, hresult]
      simp only [List.length_append, List.length_singleton, gapBlocks, List.length_map, length_fillers]
      omega
    constructor
    · rintro ⟨p', hone, hrest⟩
      obtain ⟨hadmits, hplace, hresult⟩ := (sanitizeBlock_eq_ok hp).mp hone
      obtain ⟨hall, rfl⟩ := (ih (hnext hone)).mp hrest
      rw [hplace] at hall
      exact ⟨⟨hadmits, hall⟩, by rw [hresult, hplace]; simp⟩
    · rintro ⟨⟨hadmits, hall⟩, rfl⟩
      obtain ⟨p', hone, hplace, hresult⟩ : ∃ p', sanitizeBlock sim p b = .ok p' ∧
          p'.place = placeAfter sim.timeIncrement.toNat p.place b.explicit ∧ p'.result = p.result ++
            (gapBlocks (fillers sim.timeIncrement.toNat (gap p.place b.explicit) p.place) ++
              [placed (placeAfter sim.timeIncrement.toNat p.place b.explicit) b]) := by
        refine ⟨⟨UInt64.ofNat (numberAfter p.place b.explicit),
          UInt64.ofNat (placeAfter sim.timeIncrement.toNat p.place b.explicit).2, _⟩,
          (sanitizeBlock_eq_ok hp).mpr ⟨hadmits, ?_, rfl⟩, ?_, rfl⟩ <;>
        exact Prod.ext (toNat_ofNat hadmits.fits) (toNat_ofNat hadmits.timeFits)
      refine ⟨p', hone, (ih (hnext hone)).mpr ⟨hplace.symm ▸ hall, ?_⟩⟩
      rw [hresult, hplace]
      simp

/-! ## Valid completions -/

theorem before_trans {p q r : Place} (hpq : Place.Before p q) (hqr : Place.Before q r) : Place.Before p r :=
  ⟨hpq.1.trans hqr.1, hpq.2.trans hqr.2⟩

/-- Fillers only move the place that a chain starts from. -/
theorem isChain_fillers {increment left : Nat} {p : Place} {rest : List Place} (hinc : 0 < increment) :
    List.IsChain Place.Before (p :: (fillers increment left p ++ rest)) ↔
      List.IsChain Place.Before ((p.1 + left, p.2 + increment * left) :: rest) := by
  induction left generalizing p with
  | zero => rfl
  | succ left ih =>
    have hbefore : Place.Before p (p.1 + 1, p.2 + increment) := ⟨Nat.lt_succ_self _, Nat.lt_add_of_pos_right hinc⟩
    rw [fillers, List.cons_append, List.isChain_cons_cons, ih]
    have hnumber : p.1 + 1 + left = p.1 + (left + 1) := by omega
    have htime : p.2 + increment + increment * left = p.2 + increment * (left + 1) := by rw [Nat.mul_succ]; omega
    simp only [hbefore, true_and, hnumber, htime]

theorem mem_fillers {increment left : Nat} {p q : Place} (h : q ∈ fillers increment left p) :
    q.1 ≤ p.1 + left ∧ q.2 ≤ p.2 + increment * left := by
  induction left generalizing p with
  | zero => cases h
  | succ left ih =>
    rw [fillers, List.mem_cons] at h
    rw [Nat.mul_succ]
    rcases h with rfl | h
    · exact ⟨by dsimp only; omega, by dsimp only; omega⟩
    · obtain ⟨hnumber, htime⟩ := ih h
      dsimp only at hnumber htime
      exact ⟨by omega, by omega⟩

private theorem numberAfter_eq {p : Place} {x : Explicit} (h : p.1 < numberAfter p x) :
    numberAfter p x = p.1 + gap p x + 1 := by
  unfold gap
  omega

/-- A completion is valid and could be derived exactly if every round's checks pass. -/
theorem admitsAll_iff {base increment : Nat} {p : Place} {xs : List Explicit} (hinc : 0 < increment) :
    AdmitsAll base increment p xs ↔ (List.IsChain Place.Before (p :: complete increment p xs) ∧
      (∀ q ∈ complete increment p xs, q.1 ≤ maxUint64 ∧ q.2 ≤ maxUint64) ∧
      ∀ q ∈ complete increment p xs, q.1 ≤ base + maxSimulateBlocks) ∧ Derivable increment p xs := by
  induction xs generalizing p with
  | nil => simp [AdmitsAll, complete, Derivable]
  | cons x xs ih =>
    simp only [AdmitsAll, complete, Derivable, isChain_fillers hinc, List.isChain_cons_cons, List.forall_mem_append,
      List.forall_mem_cons, ih]
    have hfilled : p.2 + increment * gap p x = filledTime increment p x := rfl
    rw [hfilled]
    constructor
    · rintro ⟨hadmits, ⟨hchain, hfits, hnear⟩, hderivable⟩
      have heq := numberAfter_eq hadmits.larger
      have hfirst : (placeAfter increment p x).1 = numberAfter p x := rfl
      have h₁ := hadmits.fits
      have h₂ := hadmits.near
      have h₃ := hadmits.derivable
      refine ⟨⟨⟨⟨by dsimp only; omega, hadmits.later⟩, hchain⟩, ⟨?_, ⟨hadmits.fits, hadmits.timeFits⟩, hfits⟩, ?_,
        hadmits.near, hnear⟩, hadmits.derivable, hderivable⟩
      · intro q hq
        obtain ⟨hnumber, htime⟩ := mem_fillers hq
        rw [hfilled] at htime
        omega
      · intro q hq
        obtain ⟨hnumber, -⟩ := mem_fillers hq
        omega
    · rintro ⟨⟨⟨hbefore, hchain⟩, ⟨-, hplace, hfits⟩, -, hnear, hrest⟩, hderivable, hderivables⟩
      have hlarger : p.1 < numberAfter p x := (Nat.le_add_right _ _).trans_lt hbefore.1
      exact ⟨⟨hlarger, hplace.1, hnear, hderivable, hbefore.2, hplace.2⟩, ⟨hchain, hfits, hrest⟩, hderivables⟩

/-- In a chain the last number bounds all. -/
theorem le_of_getLast {p : Place} {places : List Place} {bound : Nat} (hchain : List.IsChain Place.Before (p :: places))
    (hlast : ∀ q, places.getLast? = some q → q.1 ≤ bound) : ∀ q ∈ places, q.1 ≤ bound := by
  have : Trans Place.Before Place.Before Place.Before := ⟨before_trans⟩
  rw [List.isChain_iff_pairwise, List.pairwise_cons] at hchain
  intro q hq
  obtain ⟨front, last, rfl⟩ : ∃ front last, places = front ++ [last] :=
    ⟨_, _, (List.dropLast_append_getLast (List.ne_nil_of_mem hq)).symm⟩
  have hbound := hlast last (by simp)
  rcases List.mem_append.mp hq with hfront | hmem
  · exact ((List.pairwise_append.mp hchain.2).2.2 q hfront last (by simp)).1.le.trans hbound
  · rw [List.mem_singleton.mp hmem]
    exact hbound

theorem admitsAll_iff_valid {increment : Nat} {base : Place} {xs : List Explicit} (hinc : 0 < increment) :
    AdmitsAll base.1 increment base xs ↔ Valid base (complete increment base xs) ∧ Derivable increment base xs := by
  rw [admitsAll_iff hinc]
  refine and_congr_left fun _ => ⟨fun h => ⟨h.1, h.2.1, fun q hq => h.2.2 q (List.mem_of_getLast? hq)⟩, fun h => ?_⟩
  exact ⟨h.increasing, h.fits, le_of_getLast h.increasing h.bounded⟩

/-! ## The output -/

private theorem numbers_fillers (increment left : Nat) (p : Place) :
    (fillers increment left p).map (·.1) = List.range' (p.1 + 1) left := by
  induction left generalizing p with
  | zero => rfl
  | succ left ih => rw [fillers, List.map_cons, ih, List.range'_succ]

/-- The numbers are consecutive and stay close to the base. -/
theorem numbers_complete {base increment : Nat} {p : Place} {xs : List Explicit} (h : AdmitsAll base increment p xs)
    (hp : p.1 ≤ base + maxSimulateBlocks) :
    (complete increment p xs).map (·.1) = List.range' (p.1 + 1) (complete increment p xs).length ∧
      p.1 + (complete increment p xs).length ≤ base + maxSimulateBlocks := by
  induction xs generalizing p with
  | nil => exact ⟨rfl, hp⟩
  | cons x xs ih =>
    obtain ⟨hadmits, hrest⟩ := h
    have heq := numberAfter_eq hadmits.larger
    have hfirst : (placeAfter increment p x).1 = p.1 + gap p x + 1 := heq
    obtain ⟨hnumbers, hbound⟩ := ih hrest hadmits.near
    rw [hfirst] at hnumbers hbound
    have hlength : (complete increment p (x :: xs)).length =
        gap p x + ((complete increment (placeAfter increment p x) xs).length + 1) := by
      rw [complete, List.length_append, length_fillers, List.length_cons]
    refine ⟨?_, by omega⟩
    rw [hlength, complete, List.map_append, List.map_cons, numbers_fillers, hnumbers, hfirst, ← List.range'_append_1,
      List.range'_succ]
    congr 2
    · omega
    · congr 1
      omega

theorem filler_gapBlock (number time : UInt64) : (gapBlock number time : SimulationBlock State Call).Filler :=
  ⟨rfl, rfl, number, time, rfl⟩

private theorem keeps_placed (increment : Nat) (p : Place) (b : SimulationBlock State Call) :
    b.Keeps (placed (placeAfter increment p b.explicit) b) := by
  refine ⟨rfl, rfl, UInt64.ofNat (placeAfter increment p b.explicit).1,
    UInt64.ofNat (placeAfter increment p b.explicit).2, ?_⟩
  have hnumber : b.overrides.number.getD (UInt64.ofNat (placeAfter increment p b.explicit).1) =
      UInt64.ofNat (placeAfter increment p b.explicit).1 := by
    cases hexplicit : b.overrides.number with
    | none => rfl
    | some number => simp [placeAfter, numberAfter, SimulationBlock.explicit, hexplicit]
  have htime : b.overrides.time.getD (UInt64.ofNat (placeAfter increment p b.explicit).2) =
      UInt64.ofNat (placeAfter increment p b.explicit).2 := by
    cases hexplicit : b.overrides.time with
    | none => rfl
    | some time => simp [placeAfter, SimulationBlock.explicit, hexplicit]
  rw [hnumber, htime]
  rfl

private theorem completes_append {fill blocks blocks' : List (SimulationBlock State Call)}
    (hfill : ∀ b ∈ fill, b.Filler)
    (h : Completes blocks blocks') : Completes blocks (fill ++ blocks') := by
  induction fill with
  | nil => exact h
  | cons b fill ih =>
    rw [List.forall_mem_cons] at hfill
    exact .filler hfill.1 (ih hfill.2)

theorem completes_completed (increment : Nat) (p : Place) (blocks : List (SimulationBlock State Call)) :
    Completes blocks (completed increment p blocks) := by
  induction blocks generalizing p with
  | nil => exact .nil
  | cons b blocks ih =>
    refine completes_append (fun b' hb' => ?_) (.block (keeps_placed increment p b) (ih _))
    obtain ⟨q, -, rfl⟩ := List.mem_map.mp hb'
    exact filler_gapBlock _ _

theorem place_completed {base increment : Nat} {p : Place} {blocks : List (SimulationBlock State Call)}
    (hinc : 0 < increment) (h : AdmitsAll base increment p (blocks.map (·.explicit))) :
    (completed increment p blocks).map (·.place) = complete increment p (blocks.map (·.explicit)) := by
  induction blocks generalizing p with
  | nil => rfl
  | cons b blocks ih =>
    have hfits := ((admitsAll_iff hinc).mp h).1.2.1
    obtain ⟨hadmits, hrest⟩ := h
    simp only [List.map_cons, complete, completed, List.forall_mem_append, List.map_append] at hfits ⊢
    rw [ih hrest, gapBlocks, List.map_map]
    congr 1
    · refine (List.map_congr_left fun q hq => ?_).trans (List.map_id _)
      obtain ⟨hnumber, htime⟩ := hfits.1 q hq
      exact Prod.ext (toNat_ofNat hnumber) (toNat_ofNat htime)
    · congr 1
      exact Prod.ext (toNat_ofNat hadmits.fits) (toNat_ofNat hadmits.timeFits)

/-! ## Completed chains -/

/-- The base of a simulation. -/
def Simulator.base (sim : Simulator) : Place := (sim.baseNumber.toNat, sim.baseTime.toNat)

/-- The places that a simulation asks for. -/
def places (sim : Simulator) (blocks : List (SimulationBlock State Call)) : List Place :=
  complete sim.timeIncrement.toNat sim.base (blocks.map (·.explicit))

/-- The chains that are accepted, and what is returned. -/
theorem sanitizeChain_eq_ok {blocks out : List (SimulationBlock State Call)} (hinc : 1 ≤ sim.timeIncrement) :
    sanitizeChain sim blocks = .ok out ↔ (Valid sim.base (places sim blocks) ∧
      Derivable sim.timeIncrement.toNat sim.base (blocks.map (·.explicit))) ∧
      out = completed sim.timeIncrement.toNat sim.base blocks := by
  have hpos : 0 < sim.timeIncrement.toNat := UInt64.le_iff_toNat_le.mp hinc
  rw [places, ← admitsAll_iff_valid hpos]
  exact sanitizeBlocks_eq_ok (p := { previousNumber := sim.baseNumber, previousTime := sim.baseTime }) rfl

/-- Simulated chains. A chain is accepted exactly if its completion is valid, unless some
block's time could not have been derived although the completion is valid. On success the
numbers are consecutive, numbers and times are those of the completion and increase, there are
at most 256 blocks, and without the fillers they are the given ones. -/
theorem sanitizeChain_completes (sim : Simulator) (hinc : 1 ≤ sim.timeIncrement)
    (blocks : List (SimulationBlock State Call)) :
    (((∃ out, sanitizeChain sim blocks = .ok out) ↔ Valid sim.base (places sim blocks)) ↔
      (Valid sim.base (places sim blocks) →
        Derivable sim.timeIncrement.toNat sim.base (blocks.map (·.explicit)))) ∧
    ∀ out, sanitizeChain sim blocks = .ok out →
      out.map (·.place) = places sim blocks ∧
      out.map (·.place.1) = List.range' (sim.baseNumber.toNat + 1) out.length ∧
      List.IsChain (· < ·) (sim.baseTime.toNat :: out.map (·.place.2)) ∧
      out.length ≤ 256 ∧ Completes blocks out := by
  have hpos : 0 < sim.timeIncrement.toNat := UInt64.le_iff_toNat_le.mp hinc
  constructor
  · simp only [sanitizeChain_eq_ok hinc, exists_and_left, exists_eq, and_true]
    exact ⟨fun h hvalid => (h.mpr hvalid).2, fun h => ⟨And.left, fun hvalid => ⟨hvalid, h hvalid⟩⟩⟩
  · intro out hok
    obtain ⟨hvalid, rfl⟩ := (sanitizeChain_eq_ok hinc).mp hok
    have hadmits := (admitsAll_iff_valid hpos).mpr hvalid
    have hplaces := place_completed hpos hadmits
    have hlength : (completed sim.timeIncrement.toNat sim.base blocks).length = (places sim blocks).length := by
      rw [places, ← hplaces, List.length_map]
    obtain ⟨hnumbers, hbound⟩ := numbers_complete hadmits (Nat.le_add_right _ _)
    refine ⟨hplaces, ?_, ?_, ?_, completes_completed _ _ _⟩
    · rw [hlength]
      exact (List.map_map.symm.trans (congrArg (List.map Prod.fst) hplaces)).trans hnumbers
    · have htimes := hvalid.1.increasing.imp fun _ _ h => h.2
      have hmap : (completed sim.timeIncrement.toNat sim.base blocks).map (·.place.2) = (places sim blocks).map (·.2) :=
        List.map_map.symm.trans (congrArg (List.map Prod.snd) hplaces)
      rw [hmap]
      exact (List.isChain_map (R := (· < ·)) Prod.snd (l := sim.base :: places sim blocks)).mpr htimes
    · rw [hlength]
      exact Nat.le_of_add_le_add_left hbound

/-- A block that skips two numbers, and one after it. -/
def gappedBlocks : List (SimulationBlock Unit Unit) := [{ blockOverrides := some { number := some 8 } }, {}]

theorem sanitizeChain_completes_gapped : ∃ out, sanitizeChain ⟨5, 100, 12⟩ gappedBlocks = .ok out ∧
    out.map (·.place) = [(6, 112), (7, 124), (8, 136), (9, 148)] ∧ Completes gappedBlocks out := by
  refine ⟨_, rfl, by decide, ?_⟩
  exact ((sanitizeChain_completes ⟨5, 100, 12⟩ (by decide) gappedBlocks).2 _ rfl).2.2.2.2

/-- A simulation on a block close to the end of time. -/
def lateSimulator : Simulator where
  baseNumber := 5
  baseTime := UInt64.ofNat (maxUint64 - 10)
  timeIncrement := 12

/-- A block that is one second after the base. -/
def lateBlock : SimulationBlock Unit Unit where
  blockOverrides := some { time := some (UInt64.ofNat (maxUint64 - 9)) }

/-- The time of the block is explicit and valid, and it is refused because a derived one would
overflow. -/
theorem sanitizeChain_late_refused : Valid lateSimulator.base (places lateSimulator [lateBlock]) ∧
    ∀ out, sanitizeChain lateSimulator [lateBlock] ≠ .ok out := by
  have hplaces : places lateSimulator [lateBlock] = [(6, maxUint64 - 9)] := by decide
  constructor
  · rw [hplaces]
    refine ⟨List.isChain_pair.mpr ⟨by decide, by decide⟩, fun p hp => ?_, fun p hp => ?_⟩
    · rw [List.mem_singleton.mp hp]
      exact ⟨by decide, by decide⟩
    · rw [← Option.some.inj hp]
      decide
  · intro out hok
    have hbad : sanitizeChain lateSimulator [lateBlock] =
      .error (.rpc simErrBlockTimestamp "block timestamp overflow" []) := by rfl
    rw [hbad] at hok
    cases hok

end Simulate

end Ethertest
