-- SUMMARY: An observer of the canonical chain: which blocks it takes as safe and finalized, and when it announces.
import Ethertest.Base.Latest
import Ethertest.Chain.Basic
import Ethertest.Lawful

/-!
# The observer of finality

What finality depends on: the canonical chain, the current slot, and the slot at which the
observer was stopped, if it was. The finalized block trails the slot the observer sees by
two epochs. Whenever the finalized block or its epoch changes, it is announced.
-/

namespace Ethertest

namespace Env

variable (E : Env)

/-- The slots of an epoch. -/
abbrev slotsPerEpoch : Nat := E.cfg.chain.slotsPerEpoch

theorem slotsPerEpoch_pos : 0 < E.slotsPerEpoch := (Config.slotsPerEpoch_bounds E.accepted).1

/-- The latest block of a line at or before a slot; the genesis if there is none. -/
def latestAt (line : List Block) (slot : Nat) : Block :=
  (latest (fun b => E.slotAt b.time) line slot).getD E.genesis.block

end Env

@[ext]
structure Observer where
  /-- the canonical chain, head first -/
  line : List Block
  slot : Nat
  /-- the slot at which finality was paused -/
  frozen : Option Nat
  /-- hash, number and slot of the finalized blocks that were announced -/
  announced : List (Hash × Nat × Nat)

namespace Observer

variable (E : Env) (o : Observer)

/-- The slot from which the epochs are counted back. -/
def seen : Nat := o.frozen.getD o.slot

def safeSlot : Nat := o.seen - E.slotsPerEpoch

def finalizedSlot : Nat := o.seen - 2 * E.slotsPerEpoch

def safe : Block := E.latestAt o.line (o.safeSlot E)

def finalized : Block := E.latestAt o.line (o.finalizedSlot E)

def epoch : Nat := o.finalizedSlot E / E.slotsPerEpoch

/-- What an announcement is about: a change of it is announced. -/
def mark : Hash × Nat := (E.hash (o.finalized E), o.epoch E)

/-- The announcement of the finalized block. -/
def announcement : Hash × Nat × Nat := (E.hash (o.finalized E), (o.finalized E).number, o.finalizedSlot E)

/-- Announce the finalized block of `o'` if it is news after `o`. -/
def advance (o' : Observer) : Observer :=
  { o' with announced := o.announced ++ if o.mark E = o'.mark E then [] else [o'.announcement E] }

/-- What the observer relies on. -/
structure Sound : Prop where
  slots : Descending (fun b => E.slotAt b.time) o.line
  numbers : Descending Block.number o.line
  genesis : E.genesis.block ∈ o.line
  now : ∀ b ∈ o.line, E.slotAt b.time ≤ o.slot
  frozen : ∀ slot ∈ o.frozen, slot ≤ o.slot

/-- How an observer moves on while the head stays on its line. -/
inductive Step : Observer → Observer → Prop
  /-- a block in the next slot -/
  | extend {o : Observer} {b : Block} (slot : E.slotAt b.time = o.slot + 1)
      (number : ∀ a ∈ o.line, a.number < b.number) :
      Step o (o.advance E { o with line := b :: o.line, slot := o.slot + 1 })
  | wait {o : Observer} {slot : Nat} (later : o.slot ≤ slot) : Step o (o.advance E { o with slot := slot })
  | pause {o : Observer} (running : o.frozen = none) : Step o { o with frozen := some o.slot }
  | resume {o : Observer} (paused : o.frozen.isSome) : Step o (o.advance E { o with frozen := none })

/-- The head moved to another line: the stopped slot is not ahead of the new one. Nothing is
announced. -/
def Moved (o o' : Observer) : Prop :=
  o'.frozen = o.frozen.map (min o'.slot) ∧ o'.announced = o.announced

variable {E} {o o' : Observer}

theorem seen_le (S : o.Sound E) : o.seen ≤ o.slot := by
  unfold seen
  cases h : o.frozen with
  | none => exact le_rfl
  | some slot => exact S.frozen slot h

theorem safeSlot_le (S : o.Sound E) : o.safeSlot E ≤ o.slot := (Nat.sub_le _ _).trans (seen_le S)

theorem finalizedSlot_le (S : o.Sound E) : o.finalizedSlot E ≤ o.slot := (Nat.sub_le _ _).trans (seen_le S)

theorem slotAt_genesis : E.slotAt E.genesis.block.time = 0 := by
  rw [Env.slotAt, E.genesis_time, Nat.sub_self, Nat.zero_div]

/-! ## The latest block at a slot -/

theorem latestAt_cons_of_lt {line : List Block} {b : Block} {slot : Nat} (h : slot < E.slotAt b.time) :
    E.latestAt (b :: line) slot = E.latestAt line slot := by
  have hlatest : latest (fun b => E.slotAt b.time) (b :: line) slot = latest (fun b => E.slotAt b.time) line slot :=
    latest_cons_of_lt h
  rw [Env.latestAt, hlatest]
  rfl

namespace Sound

variable (S : o.Sound E)
include S

theorem latestAt_eq_some (slot : Nat) :
    latest (fun b => E.slotAt b.time) o.line slot = some (E.latestAt o.line slot) := by
  have hgenesis : E.slotAt E.genesis.block.time ≤ slot := by simp [slotAt_genesis]
  obtain ⟨b, hb⟩ : ∃ b, latest (fun b => E.slotAt b.time) o.line slot = some b := exists_latest S.genesis hgenesis
  rw [Env.latestAt, hb, Option.getD_some]

theorem latestAt_mem (slot : Nat) : E.latestAt o.line slot ∈ o.line :=
  (mem_of_latest (S.latestAt_eq_some slot)).1

/-- On one line, numbers are ordered as slots are. -/
theorem number_le {a b : Block} (ha : a ∈ o.line) (hb : b ∈ o.line) :
    a.number ≤ b.number ↔ E.slotAt a.time ≤ E.slotAt b.time :=
  S.numbers.le_iff S.slots ha hb

theorem latestAt_mono {slot slot' : Nat} (h : slot ≤ slot') :
    (E.latestAt o.line slot).number ≤ (E.latestAt o.line slot').number := by
  have hslots := latest_mono S.slots (S.latestAt_eq_some slot) (S.latestAt_eq_some slot') h
  exact (S.number_le (S.latestAt_mem slot) (S.latestAt_mem slot')).mpr hslots

end Sound

/-! ## One step -/

namespace Step

variable (S : o.Sound E) (h : Step E o o')
include S h

theorem sound : o'.Sound E := by
  cases h with
  | @extend b slot number =>
    have hlater : ∀ a ∈ o.line, E.slotAt a.time < E.slotAt b.time := fun a ha => by
      have := S.now a ha
      omega
    refine ⟨S.slots.cons hlater, S.numbers.cons number, List.mem_cons_of_mem _ S.genesis, fun a ha => ?_,
      fun slot hslot => Nat.le_succ_of_le (S.frozen slot hslot)⟩
    rcases List.mem_cons.mp ha with rfl | ha
    · exact slot.le
    · exact Nat.le_succ_of_le (S.now a ha)
  | wait later =>
    exact ⟨S.slots, S.numbers, S.genesis, fun b hb => (S.now b hb).trans later,
      fun slot hslot => (S.frozen slot hslot).trans later⟩
  | pause running => exact ⟨S.slots, S.numbers, S.genesis, S.now, fun slot hslot => by cases hslot; exact le_rfl⟩
  | resume paused => exact ⟨S.slots, S.numbers, S.genesis, S.now, nofun⟩

omit S in
/-- A new block is later than every slot that was seen. -/
theorem latestAt_eq {slot : Nat} (hslot : slot ≤ o.slot) : E.latestAt o'.line slot = E.latestAt o.line slot := by
  cases h with
  | extend next =>
    exact latestAt_cons_of_lt (by omega)
  | wait => rfl
  | pause => rfl
  | resume => rfl

private theorem seen_mono : o.seen ≤ o'.seen := by
  cases h with
  | extend next =>
    change o.frozen.getD o.slot ≤ o.frozen.getD (o.slot + 1)
    cases o.frozen <;> simp
  | @wait slot later =>
    change o.frozen.getD o.slot ≤ o.frozen.getD slot
    cases o.frozen <;> simp [later]
  | pause running => simp [seen, running]
  | resume paused => exact seen_le S

/-- The finalized and the safe block only move up. -/
theorem progress : (o.finalized E).number ≤ (o'.finalized E).number ∧ (o.safe E).number ≤ (o'.safe E).number ∧
    o.epoch E ≤ o'.epoch E := by
  have hseen := h.seen_mono S
  have S' := h.sound S
  refine ⟨?_, ?_, Nat.div_le_div_right (Nat.sub_le_sub_right hseen _)⟩
  · rw [finalized, ← h.latestAt_eq (finalizedSlot_le S)]
    exact S'.latestAt_mono (Nat.sub_le_sub_right hseen _)
  · rw [safe, ← h.latestAt_eq (safeSlot_le S)]
    exact S'.latestAt_mono (Nat.sub_le_sub_right hseen _)

/-- What was finalized stays on the line. -/
theorem finalized_mem : o.finalized E ∈ o'.line := by
  rw [finalized, ← h.latestAt_eq (finalizedSlot_le S)]
  exact (h.sound S).latestAt_mem _

/-- A stopped observer sees no progress. -/
theorem stopped (hstopped : o.frozen.isSome) (hstill : o'.frozen.isSome) :
    o'.finalized E = o.finalized E ∧ o'.safe E = o.safe E := by
  have hseen : o'.seen = o.seen := by
    obtain ⟨slot, hslot⟩ := Option.isSome_iff_exists.mp hstopped
    cases h with
    | extend => simp [seen, advance, hslot]
    | wait => simp [seen, advance, hslot]
    | pause running => simp [running] at hstopped
    | resume => cases hstill
  constructor
  · rw [finalized, finalizedSlot, hseen]
    exact h.latestAt_eq (finalizedSlot_le S)
  · rw [safe, safeSlot, hseen]
    exact h.latestAt_eq (safeSlot_le S)

omit S in
/-- Every change of the mark is announced, and nothing else. -/
theorem announced_eq :
    o'.announced = o.announced ++ if o.mark E = o'.mark E then [] else [o'.announcement E] := by
  cases h with
  | extend => rfl
  | wait => rfl
  | resume => rfl
  | pause running =>
    have hmark : o.mark E = ({ o with frozen := some o.slot } : Observer).mark E := by
      simp [mark, finalized, epoch, finalizedSlot, seen, running]
    rw [if_pos hmark, List.append_nil]

end Step

/-! ## Runs -/

open Relation (ReflTransGen)

/-- The last announcement is about the finalized block of now. -/
def Named (E : Env) (o : Observer) : Prop :=
  ∀ a, o.announced.getLast? = some a →
    a.1 = E.hash (o.finalized E) ∧ a.2.1 = (o.finalized E).number ∧ a.2.2 / E.slotsPerEpoch = o.epoch E

private theorem finalized_eq_of_mark (hE : E.Lawful) (h : o.mark E = o'.mark E) : o.finalized E = o'.finalized E :=
  hE.blockHash_injective (congrArg Prod.fst h)

theorem Step.named (hE : E.Lawful) (N : Named E o) (h : Step E o o') : Named E o' := by
  intro a ha
  rw [h.announced_eq] at ha
  split at ha
  · next hmark =>
    rw [List.append_nil] at ha
    have hepoch : o.epoch E = o'.epoch E := congrArg Prod.snd hmark
    rw [← finalized_eq_of_mark hE hmark, ← hepoch]
    exact N a ha
  · obtain rfl : o'.announcement E = a := by simpa using ha
    exact ⟨rfl, rfl, rfl⟩

private theorem run_sound (S : o.Sound E) (h : ReflTransGen (Step E) o o') : o'.Sound E := by
  induction h with
  | refl => exact S
  | tail _ hstep ih => exact hstep.sound ih

theorem run_progress (S : o.Sound E) (h : ReflTransGen (Step E) o o') :
    (o.finalized E).number ≤ (o'.finalized E).number ∧ (o.safe E).number ≤ (o'.safe E).number ∧
      o.epoch E ≤ o'.epoch E := by
  induction h with
  | refl => exact ⟨le_rfl, le_rfl, le_rfl⟩
  | tail hrun hstep ih =>
    have hnext := hstep.progress (run_sound S hrun)
    exact ⟨ih.1.trans hnext.1, ih.2.1.trans hnext.2.1, ih.2.2.trans hnext.2.2⟩

/-- A run announces something exactly if the mark is another one at its end. -/
theorem run_announced (hE : E.Lawful) (S : o.Sound E) (h : ReflTransGen (Step E) o o') :
    ∃ new, o'.announced = o.announced ++ new ∧ (new = [] ↔ o'.mark E = o.mark E) := by
  induction h with
  | refl => exact ⟨[], (List.append_nil _).symm, by simp⟩
  | @tail o₁ o₂ hrun hstep ih =>
    obtain ⟨new, hnew, hiff⟩ := ih
    have S₁ := run_sound S hrun
    rw [hstep.announced_eq, hnew, List.append_assoc]
    refine ⟨_, rfl, ?_⟩
    split
    · next hmark => rw [List.append_nil, hiff, hmark]
    · next hmark =>
      refine iff_of_false (by simp) fun hback => hmark ?_
      -- the number and the epoch cannot have gone up and down again
      have hbefore := run_progress S hrun
      have hafter := hstep.progress S₁
      have hnumber : (o₂.finalized E).number = (o.finalized E).number := by
        rw [finalized_eq_of_mark hE hback]
      have hepoch : o₂.epoch E = o.epoch E := congrArg Prod.snd hback
      have hsame : o₁.finalized E = o₂.finalized E :=
        (hstep.sound S₁).numbers.eq_of_key (hstep.finalized_mem S₁) ((hstep.sound S₁).latestAt_mem _) (by omega)
      rw [mark, mark, hsame, show o₁.epoch E = o₂.epoch E by omega]

end Observer

end Ethertest
