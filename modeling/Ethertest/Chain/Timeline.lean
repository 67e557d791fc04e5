-- SUMMARY: The clock of a chain: slots follow timestamps, grow along every line, and index the canonical blocks.
import Ethertest.Chain.Tree

/-!
# The timeline

The slot recorded for a block is the slot of its timestamp, which is a whole number of
slots after the genesis. Slots grow from parent to child. The slot index holds exactly
the blocks of the canonical line, and the clock is never behind the head.
-/

namespace Ethertest

namespace Chain

variable {E : Env} {c : Chain}

/-- The index holds exactly the blocks of a line, each at its slot. -/
def Indexes (E : Env) (index : Nat → Option Hash) (line : List Block) : Prop :=
  ∀ slot h, index slot = some h ↔ ∃ b ∈ line, E.hash b = h ∧ E.slotAt b.time = slot

structure Timeline (E : Env) (c : Chain) : Prop where
  slots : ∀ {b}, c.Mem E b → c.slots (E.hash b) = some (E.slotAt b.time)
  exact : ∀ {b}, c.Mem E b → b.time = E.genesisTime + E.slotAt b.time * E.slotDuration
  projections : ∀ {b p}, c.Mem E b → c.projections (E.hash b) = some p → p.slot = E.slotAt b.time
  slotNumber : ∀ {b}, c.Mem E b → b ≠ E.genesis.block → E.geth.isAmsterdam E.config b.number b.time →
    b.header.slotNumber = some (E.slotAt b.time)
  increasing : ∀ {b p}, c.Mem E b → b ≠ E.genesis.block → c.parent b = some p →
    E.slotAt p.time < E.slotAt b.time
  index : ∀ {head}, c.IsHead E head → Indexes E c.index (c.line head)
  now : ∀ {head}, c.IsHead E head → E.slotAt head.time ≤ c.slot
  processed : c.processed = c.slot
  points : ∀ {b number slot}, c.Mem E b → (E.hash b, number, slot) ∈ c.points → E.slotAt b.time ≤ slot

namespace Timeline

variable (hE : E.Lawful) (W : WellFormed E c) (T : Timeline E c)

include T in
theorem slotOf_eq {b : Block} (hb : c.Mem E b) : c.slotOf E b = E.slotAt b.time := by
  rw [slotOf, T.slots hb, Option.getD_some]

include hE W T in
/-- A block that is not stored has the slot of its timestamp too. -/
theorem slotOf_any (b : Block) : c.slotOf E b = E.slotAt b.time := by
  cases hs : c.slots (E.hash b) with
  | none => rw [slotOf, hs, Option.getD_none]
  | some slot =>
    obtain ⟨b', hb', hhash⟩ := W.mem_of_isSome ((W.slots _).mp (by rw [hs]; rfl))
    exact T.slotOf_eq (hE.blockHash_injective hhash ▸ hb')

include W T

theorem slot_le_of_mem_line {a b : Block} (hb : c.Mem E b) (ha : a ∈ c.line b) :
    E.slotAt a.time ≤ E.slotAt b.time :=
  W.tree.le_of_mem_line (f := fun b => E.slotAt b.time) T.increasing hb ha

theorem line_pairwise {b : Block} (hb : c.Mem E b) :
    (c.line b).Pairwise fun x y => E.slotAt y.time < E.slotAt x.time :=
  W.tree.line_pairwise (f := fun b => E.slotAt b.time) T.increasing hb

end Timeline

/-! ## Recording a block -/

section Put

variable (hE : E.Lawful) (W : WellFormed E c) (T : Timeline E c) {e : Entry}
  {queue remaining : ExecutionRequestQueue} (s : e.Sound E c queue remaining)

include hE W T s in
/-- Recording a block at the slot of its timestamp, after its parent's, keeps the timeline. -/
theorem timeline_put (hslot : e.slot = E.slotAt e.block.time)
    (htime : e.block.time = E.genesisTime + e.slot * E.slotDuration) (hlt : E.slotAt e.parent.time < e.slot)
    {head : Hash} {slot : Nat} {index : Nat → Option Hash}
    (hindex : ∀ {b}, (c.put E e).Mem E b → E.hash b = head → Indexes E index ((c.put E e).line b))
    (hnow : ∀ {b}, (c.put E e).Mem E b → E.hash b = head → E.slotAt b.time ≤ slot) :
    Timeline E { c.put E e with head := head, slot := slot, processed := slot, index := index } where
  slots := by
    intro b hb
    by_cases heq : E.hash b = e.hash E
    · obtain rfl := hE.blockHash_injective heq
      simp [put, hslot]
    · rcases (mem_put hE).mp hb with hb | rfl
      · simpa [put, Function.update_of_ne heq] using T.slots hb
      · exact absurd rfl heq
  exact := by
    intro b hb
    rcases (mem_put hE).mp hb with hb | rfl
    · exact T.exact hb
    · rw [← hslot]
      exact htime
  projections := by
    intro b p hb hp
    by_cases heq : E.hash b = e.hash E
    · obtain rfl := hE.blockHash_injective heq
      obtain rfl : e.projection = p := by simpa [put] using hp
      rw [s.projection, T.slotOf_any hE W]
    · rcases (mem_put hE).mp hb with hb | rfl
      · exact T.projections hb (by simpa [put, Function.update_of_ne heq] using hp)
      · exact absurd rfl heq
  slotNumber := by
    intro b hb hne
    rcases (mem_put hE).mp hb with hb | rfl
    · exact T.slotNumber hb hne
    · exact s.slotNumber
  increasing := by
    intro b p hb hne hp
    rcases (mem_put hE).mp hb with hb | rfl
    · exact T.increasing hb hne ((parent_put hE W hb hne).symm.trans hp)
    · obtain rfl : e.parent = p := Option.some.inj ((parent_put_self hE s).symm.trans hp)
      rw [← hslot]
      exact hlt
  index := fun hb => hindex hb.1 hb.2
  now := fun hb => hnow hb.1 hb.2
  processed := rfl
  points := by
    intro b number slot hb hp
    obtain ⟨b', hb', hhash⟩ := W.mem_of_isSome (W.points _ hp)
    obtain rfl := hE.blockHash_injective hhash
    exact T.points hb' hp

include hE W T s in
theorem timeline_extend (hhead : c.head = E.hash e.parent) (hslot : e.slot = c.slot + 1)
    (htime : e.block.time = E.genesisTime + e.slot * E.slotDuration) (rest : ExecutionRequestQueue)
    (batch : List Event) : Timeline E (c.extend E e rest batch) := by
  have hdate : e.slot = E.slotAt e.block.time := by rw [htime, E.slotAt_add_mul]
  have hparent : c.IsHead E e.parent := ⟨s.parent_mem, hhead.symm⟩
  have hnow := T.now hparent
  have h : Timeline E { c.put E e with
      head := e.hash E, slot := e.slot, processed := e.slot
      index := Function.update c.index e.slot (some (e.hash E)) } := by
    refine timeline_put hE W T s hdate htime (by omega) ?_ ?_
    · intro b hb hhash slot h
      obtain rfl := hE.blockHash_injective hhash
      rw [line_put_self hE W s]
      by_cases hs : slot = e.slot
      · -- the new slot: nothing older on the line has it
        subst hs
        simp only [Function.update_self, Option.some.injEq, List.exists_mem_cons_iff]
        refine ⟨fun hh => .inl ⟨hh, hdate.symm⟩, ?_⟩
        rintro (⟨hh, -⟩ | ⟨a, ha, -, hslota⟩)
        · exact hh
        · have := T.slot_le_of_mem_line W s.parent_mem ha
          omega
      · rw [Function.update_of_ne hs, T.index hparent, List.exists_mem_cons_iff]
        refine ⟨.inr, ?_⟩
        rintro (⟨-, hslotb⟩ | hold)
        · exact absurd (hslotb.symm.trans hdate.symm) hs
        · exact hold
    · intro b hb hhash
      obtain rfl := hE.blockHash_injective hhash
      exact hdate.ge
  exact ⟨h.slots, h.exact, h.projections, h.slotNumber, h.increasing, h.index, h.now, h.processed, h.points⟩

include hE W T s in
theorem timeline_branch (htime : e.block.time = e.parent.time + E.slotDuration)
    (hslot : e.slot = E.slotAt e.block.time) (branches : Bytes → Option Hash) (batches : List (List Event)) :
    Timeline E { c.put E e with branches := branches, batches := batches } := by
  have hexact : e.block.time = E.genesisTime + (E.slotAt e.parent.time + 1) * E.slotDuration := by
    rw [htime, T.exact s.parent_mem, E.slotAt_add_mul]
    ring
  have hnext : e.slot = E.slotAt e.parent.time + 1 := by rw [hslot, hexact, E.slotAt_add_mul]
  have h : Timeline E { c.put E e with
      head := c.head, slot := c.slot, processed := c.slot, index := c.index } := by
    have hold : ∀ {b}, E.hash b = c.head → c.IsHead E b := by
      intro b hb
      obtain ⟨b', hb', hhash⟩ := W.exists_head
      obtain rfl := hE.blockHash_injective (hhash.trans hb.symm)
      exact ⟨hb', hhash⟩
    refine timeline_put hE W T s hslot (by rw [hnext]; exact hexact) (by omega) ?_ fun _ hb => T.now (hold hb)
    intro b _ hb
    rw [line_put hE W (hold hb).1]
    exact T.index (hold hb)
  exact ⟨h.slots, h.exact, h.projections, h.slotNumber, h.increasing, h.index, h.now, T.processed, h.points⟩

end Put

/-! ## Moving the head -/

/-- Entering blocks of different slots into the index. -/
theorem foldl_update_eq_some {path : List Block}
    (hs : path.Pairwise fun x y => E.slotAt x.time ≠ E.slotAt y.time) (index : Nat → Option Hash) (slot : Nat)
    (h : Hash) :
    path.foldl (fun index b => Function.update index (E.slotAt b.time) (some (E.hash b))) index slot = some h ↔
      (∃ b ∈ path, E.hash b = h ∧ E.slotAt b.time = slot) ∨
        ((∀ b ∈ path, E.slotAt b.time ≠ slot) ∧ index slot = some h) := by
  induction path generalizing index with
  | nil => simp
  | cons b path ih =>
    rw [List.pairwise_cons] at hs
    rw [List.foldl_cons, ih hs.2, List.exists_mem_cons_iff, List.forall_mem_cons]
    by_cases hb : slot = E.slotAt b.time
    · subst hb
      have hother : ∀ a ∈ path, E.slotAt a.time ≠ E.slotAt b.time := fun a ha => (hs.1 a ha).symm
      have hnone : ¬ ∃ a ∈ path, E.hash a = h ∧ E.slotAt a.time = E.slotAt b.time :=
        fun ⟨a, ha, _, hslot⟩ => hother a ha hslot
      simp [hnone]
      exact fun _ => hother
    · rw [Function.update_of_ne hb]
      have hb' : E.slotAt b.time ≠ slot := fun h => hb h.symm
      simp [hb']

section Move

variable (hE : E.Lawful) (W : WellFormed E c) (T : Timeline E c)

include hE W T in
/-- After a move the index holds exactly the blocks of the target's line. -/
theorem indexes_movedIndex {oldHead target : Block} {targetSlot : Nat} {oldPath newPath : List Block}
    (hold : c.IsHead E oldHead) (hmem : c.Mem E target) (hslot : E.slotAt target.time ≤ targetSlot)
    (hpaths : Ancestry.divergentPaths c.parent Block.number (fun a b => E.hash a = E.hash b) oldHead target =
      some (oldPath, newPath)) :
    Indexes E (c.movedIndex E targetSlot oldPath newPath) (c.line target) := by
  obtain ⟨d, hd, hlineOld, hlineNew, -⟩ := W.paths hE hold.1 hmem hpaths
  intro slot h
  have hfun : c.slotOf E = fun b => E.slotAt b.time := funext (T.slotOf_any hE W)
  have hsorted := T.line_pairwise W hmem
  rw [hlineNew, List.pairwise_append] at hsorted
  have hdiff : newPath.reverse.Pairwise fun x y => E.slotAt x.time ≠ E.slotAt y.time := by
    rw [List.pairwise_reverse]
    exact hsorted.1.imp fun hlt => hlt.ne
  have hkept : (c.index slot).filter (fun h => ¬ (targetSlot < slot ∨ h ∈ oldPath.map E.hash)) = some h ↔
      ∃ b ∈ c.line d, E.hash b = h ∧ E.slotAt b.time = slot := by
    rw [Option.filter_eq_some_iff, T.index hold, hlineOld]
    constructor
    · rintro ⟨⟨b, hb, rfl, rfl⟩, hkeep⟩
      simp only [not_or, decide_eq_true_eq] at hkeep
      rcases List.mem_append.mp hb with hb | hb
      · exact absurd (List.mem_map_of_mem hb) hkeep.2
      · exact ⟨b, hb, rfl, rfl⟩
    · rintro ⟨b, hb, rfl, rfl⟩
      have hle : E.slotAt b.time ≤ E.slotAt target.time :=
        T.slot_le_of_mem_line W hmem (by rw [hlineNew]; exact List.mem_append_right _ hb)
      have hnodup := W.tree.line_nodup hold.1
      change (c.line oldHead).Nodup at hnodup
      rw [hlineOld, List.nodup_append] at hnodup
      refine ⟨⟨b, List.mem_append_right _ hb, rfl, rfl⟩, ?_⟩
      simp only [not_or, decide_eq_true_eq, List.mem_map, not_exists, not_and]
      exact ⟨by omega, fun a ha hab => hnodup.2.2 a ha b hb (hE.blockHash_injective hab)⟩
  rw [movedIndex, hfun, foldl_update_eq_some hdiff, hkept, hlineNew]
  simp only [List.mem_reverse, List.mem_append]
  constructor
  · rintro (⟨b, hb, hh⟩ | ⟨-, b, hb, hh⟩)
    · exact ⟨b, .inl hb, hh⟩
    · exact ⟨b, .inr hb, hh⟩
  · rintro ⟨b, hb | hb, hh, rfl⟩
    · exact .inl ⟨b, hb, hh, rfl⟩
    · exact .inr ⟨fun a ha hab => (hsorted.2.2 a ha b hb).ne' hab, b, hb, hh, rfl⟩

include hE W T in
theorem Timeline.step {c' : Chain} (h : Step E c c') : Timeline E c' := by
  cases h with
  | extend sound head slot time => exact timeline_extend hE W T sound head slot time _ _
  | branch sound head time slot => exact timeline_branch hE W T sound time slot _ _
  | @move oldHead target targetSlot oldPath newPath queue batch old mem slot paths =>
    have hold : c.IsHead E oldHead := W.mem_of_blocks old
    have hslot : E.slotAt target.time ≤ targetSlot := by
      rcases slot with rfl | hpoint
      · exact (T.slotOf_eq mem).ge
      · exact T.points mem hpoint
    refine ⟨T.slots, T.exact, T.projections, T.slotNumber, T.increasing, ?_, ?_, rfl, T.points⟩
    · intro head hhead
      obtain rfl := hE.blockHash_injective hhead.2
      exact indexes_movedIndex hE W T hold mem hslot paths
    · intro head hhead
      obtain rfl := hE.blockHash_injective hhead.2
      exact hslot
  | wait slot later =>
    exact ⟨T.slots, T.exact, T.projections, T.slotNumber, T.increasing, T.index,
      fun h => (T.now h).trans later, rfl, T.points⟩
  | issue size =>
    exact ⟨T.slots, T.exact, T.projections, T.slotNumber, T.increasing, T.index, T.now, T.processed, T.points⟩
  | @point head points old new =>
    refine ⟨T.slots, T.exact, T.projections, T.slotNumber, T.increasing, T.index, T.now, T.processed, ?_⟩
    intro b number slot hb hp
    rcases new _ hp with hp | heq
    · exact T.points hb hp
    · simp only [Prod.mk.injEq] at heq
      obtain ⟨hhash, -, rfl⟩ := heq
      exact T.now ⟨hb, hhash⟩
  | fork fresh mem =>
    exact ⟨T.slots, T.exact, T.projections, T.slotNumber, T.increasing, T.index, T.now, T.processed, T.points⟩
  | announce silent =>
    exact ⟨T.slots, T.exact, T.projections, T.slotNumber, T.increasing, T.index, T.now, T.processed, T.points⟩

end Move

end Chain

end Ethertest
