-- SUMMARY: The blocks of a chain form a tree, and a recorded block is a leaf of it.
import Ethertest.Chain.Basic

/-!
# The block tree

Every stored block but the genesis has its parent stored, and something is recorded about
every stored block. Recording a block adds a leaf. The same block may be recorded again;
then the tree stays as it is.
-/

namespace Ethertest

theorem Entry.Sound.ne_genesis {E : Env} {c : Chain} {e : Entry} {queue remaining : ExecutionRequestQueue}
    (s : e.Sound E c queue remaining) : e.block ≠ E.genesis.block := by
  intro h
  have := s.number
  rw [h, E.genesis_number] at this
  omega

namespace Chain

variable {E : Env} {c : Chain}

/-- The stored blocks form a tree under the genesis, and everything that names a block
names a stored one. -/
structure WellFormed (E : Env) (c : Chain) : Prop where
  addressed : ∀ {h b}, c.blocks h = some b → E.hash b = h
  tree : Ancestry.Tree c.parent Block.number (c.Mem E) E.genesis.block
  head : ∃ b, c.blocks c.head = some b
  slots : ∀ h, (c.slots h).isSome ↔ (c.blocks h).isSome
  safety : ∀ h, (c.safety h).isSome ↔ (c.blocks h).isSome
  records : ∀ h, (c.records h).isSome ↔ (c.blocks h).isSome
  projections : ∀ h, (c.projections h).isSome ↔ (c.blocks h).isSome
  controls : ∀ h ∈ c.controls, (c.blocks h).isSome
  points : ∀ p ∈ c.points, (c.blocks p.1).isSome
  branches : ∀ {name h}, c.branches name = some h → (c.blocks h).isSome
  /-- a block with a branch's extra data lies on that branch -/
  branched : ∀ {b name}, c.Mem E b → b ≠ E.genesis.block → b.header.extra = branchExtraPrefix ++ name →
    ∃ head, c.branches name = some (E.hash head) ∧ c.Mem E head ∧ b ∈ c.line head

namespace WellFormed

theorem mem_of_blocks (W : WellFormed E c) {h : Hash} {b : Block} (hb : c.blocks h = some b) :
    c.Mem E b ∧ E.hash b = h := by
  have := W.addressed hb
  exact ⟨by rw [Mem, this, hb], this⟩

theorem mem_of_isSome (W : WellFormed E c) {h : Hash} (hb : (c.blocks h).isSome) :
    ∃ b, c.Mem E b ∧ E.hash b = h := by
  obtain ⟨b, hb⟩ := Option.isSome_iff_exists.mp hb
  exact ⟨b, W.mem_of_blocks hb⟩

theorem mem_of_parent (W : WellFormed E c) {b p : Block} (hp : c.parent b = some p) : c.Mem E p :=
  (W.mem_of_blocks hp).1

/-- The head block. -/
theorem exists_head (W : WellFormed E c) : ∃ b, c.Mem E b ∧ E.hash b = c.head := by
  obtain ⟨b, hb⟩ := W.head
  exact ⟨b, W.mem_of_blocks hb⟩

theorem parent_eq (W : WellFormed E c) {b : Block} (hb : c.Mem E b) (hne : b ≠ E.genesis.block) :
    ∃ p, c.parent b = some p ∧ c.Mem E p ∧ b.number = p.number + 1 ∧ b.parentHash = E.hash p := by
  obtain ⟨p, hp, hpm, hnum⟩ := W.tree.parent_of_ne b hb hne
  exact ⟨p, hp, hpm, hnum, (W.addressed hp).symm⟩

/-- The paths of a move split the two lines at a common ancestor. -/
theorem paths (hE : E.Lawful) (W : WellFormed E c) {a b : Block} (ha : c.Mem E a) (hb : c.Mem E b)
    {oldPath newPath : List Block}
    (h : Ancestry.divergentPaths c.parent Block.number (fun a b => E.hash a = E.hash b) a b =
      some (oldPath, newPath)) :
    ∃ d, c.Mem E d ∧ c.line a = oldPath ++ c.line d ∧ c.line b = newPath ++ c.line d ∧
      oldPath.Disjoint (c.line b) ∧ newPath.Disjoint (c.line a) := by
  have hsame : ∀ a b, c.Mem E a → c.Mem E b → (decide (E.hash a = E.hash b) = true ↔ a = b) :=
    fun a b _ _ => decide_eq_true_iff.trans hE.blockHash_injective.eq_iff
  obtain ⟨old, new, d, hpaths, hd, hold, hnew, hdisjoint⟩ := W.tree.divergentPaths_spec hsame ha hb
  rw [h, Option.some.injEq, Prod.mk.injEq] at hpaths
  obtain ⟨rfl, rfl⟩ := hpaths
  exact ⟨d, hd, hold, hnew, hdisjoint⟩

end WellFormed

/-! ## Recording a block -/

section Put

variable (hE : E.Lawful) (W : WellFormed E c) {e : Entry} {queue remaining : ExecutionRequestQueue}
  (s : e.Sound E c queue remaining)

include hE in
theorem mem_put {b : Block} : (c.put E e).Mem E b ↔ c.Mem E b ∨ b = e.block := by
  unfold Mem put
  by_cases h : E.hash b = e.hash E
  · obtain rfl := hE.blockHash_injective h
    simp
  · have hne : b ≠ e.block := fun heq => h (congrArg E.hash heq)
    simp [Function.update_of_ne h, hne]

include hE W in
theorem parent_put {b : Block} (hb : c.Mem E b) (hne : b ≠ E.genesis.block) :
    (c.put E e).parent b = c.parent b := by
  obtain ⟨p, hp, hpm, -, hph⟩ := W.parent_eq hb hne
  have hput : (c.put E e).Mem E p := (mem_put hE).mpr (.inl hpm)
  rw [hp, parent, hph]
  exact hput

include hE s in
theorem parent_put_self : (c.put E e).parent e.block = some e.parent := by
  have hput : (c.put E e).Mem E e.parent := (mem_put hE).mpr (.inl s.parent_mem)
  rw [parent, s.parentHash]
  exact hput

include hE W s in
theorem tree_put : Ancestry.Tree (c.put E e).parent Block.number ((c.put E e).Mem E) E.genesis.block := by
  have hmem : (c.put E e).Mem E = fun b => c.Mem E b ∨ b = e.block := by
    funext b
    exact propext (mem_put hE)
  rw [hmem]
  exact W.tree.add_leaf s.parent_mem (fun b hb hne => parent_put hE W hb hne) (parent_put_self hE s) s.number

include hE W in
theorem line_put {b : Block} (hb : c.Mem E b) : (c.put E e).line b = c.line b :=
  W.tree.line_congr (fun _ hb' hne => parent_put hE W hb' hne) hb

include hE W s in
theorem line_put_self : (c.put E e).line e.block = e.block :: c.line e.parent := by
  rw [line, Ancestry.Tree.line_child (parent_put_self hE s) s.number]
  exact congrArg _ (line_put hE W s.parent_mem)

/-- A map that is updated at a recorded block has values at the stored blocks. -/
theorem isSome_update_iff {α : Type} {f : Hash → Option α} {blocks : Hash → Option Block} {h : Hash} {a : α}
    {b : Block} (hf : ∀ h', (f h').isSome ↔ (blocks h').isSome) (h' : Hash) :
    (Function.update f h (some a) h').isSome ↔ (Function.update blocks h (some b) h').isSome := by
  by_cases heq : h' = h
  · subst heq
    simp
  · rw [Function.update_of_ne heq, Function.update_of_ne heq]
    exact hf h'

theorem isSome_blocks_put {h : Hash} (hb : (c.blocks h).isSome) : ((c.put E e).blocks h).isSome := by
  by_cases heq : h = e.hash E
  · subst heq
    simp [put]
  · simpa [put, Function.update_of_ne heq] using hb

include hE W s in
/-- Recording a block keeps the chain well-formed, with any stored head and with branches
that account for the block. -/
theorem wellFormed_put {head : Hash} {branches : Bytes → Option Hash}
    (hhead : ((c.put E e).blocks head).isSome)
    (hbranches : ∀ {name h}, branches name = some h → ((c.put E e).blocks h).isSome)
    (hbranched : ∀ {b name}, (c.put E e).Mem E b → b ≠ E.genesis.block →
      b.header.extra = branchExtraPrefix ++ name →
      ∃ head, branches name = some (E.hash head) ∧ (c.put E e).Mem E head ∧ b ∈ (c.put E e).line head) :
    WellFormed E { c.put E e with head := head, branches := branches } where
  addressed := by
    intro h b hb
    by_cases heq : h = e.hash E
    · subst heq
      obtain rfl : e.block = b := by simpa [put] using hb
      rfl
    · exact W.addressed (by simpa [put, Function.update_of_ne heq] using hb)
  tree := tree_put hE W s
  head := Option.isSome_iff_exists.mp hhead
  slots := isSome_update_iff W.slots
  safety := isSome_update_iff W.safety
  records := isSome_update_iff W.records
  projections := isSome_update_iff W.projections
  controls := by
    intro h hh
    have hh' : h = e.hash E ∨ h ∈ c.controls := by
      simp only [put] at hh
      split at hh
      · exact hh
      · exact .inr hh
    rcases hh' with rfl | hh'
    · simp [put]
    · exact isSome_blocks_put (W.controls h hh')
  points := fun p hp => isSome_blocks_put (W.points p hp)
  branches := hbranches
  branched := hbranched

end Put

/-! ## Moves -/

section Moves

variable (hE : E.Lawful) (W : WellFormed E c) {e : Entry} {queue remaining : ExecutionRequestQueue}
  (s : e.Sound E c queue remaining)

include hE W s in
theorem wellFormed_extend (hextra : ¬ branchExtraPrefix <+: e.block.header.extra) (rest : ExecutionRequestQueue)
    (batch : List Event) : WellFormed E (c.extend E e rest batch) := by
  have h : WellFormed E { c.put E e with head := e.hash E, branches := c.branches } := by
    refine wellFormed_put hE W s (by simp [put]) (fun hb => isSome_blocks_put (W.branches hb)) ?_
    intro b name hb hne hx
    rcases (mem_put hE).mp hb with hb | rfl
    · obtain ⟨head, hbr, hmem, hline⟩ := W.branched hb hne hx
      exact ⟨head, hbr, (mem_put hE).mpr (.inl hmem), by rwa [line_put hE W hmem]⟩
    · exact absurd (hx ▸ List.prefix_append _ _) hextra
  exact ⟨h.addressed, h.tree, h.head, h.slots, h.safety, h.records, h.projections, h.controls, h.points,
    h.branches, h.branched⟩

include hE W s in
theorem wellFormed_branch {name : Bytes} (hhead : c.branches name = some (E.hash e.parent))
    (hextra : e.block.header.extra = branchExtraPrefix ++ name) (batches : List (List Event)) :
    WellFormed E { c.put E e with
      branches := Function.update c.branches name (some (e.hash E)), batches := batches } := by
  have hself : (c.put E e).Mem E e.block := (mem_put hE).mpr (.inr rfl)
  have h : WellFormed E { c.put E e with
      head := c.head, branches := Function.update c.branches name (some (e.hash E)) } := by
    refine wellFormed_put hE W s (isSome_blocks_put (Option.isSome_iff_exists.mpr W.head)) ?_ ?_
    · intro name' h hb
      by_cases heq : name' = name
      · subst heq
        simp only [Function.update_self, Option.some.injEq] at hb
        simp [put, ← hb]
      · rw [Function.update_of_ne heq] at hb
        exact isSome_blocks_put (W.branches hb)
    · intro b name' hb hne hx
      by_cases heq : name' = name
      · -- the branch's head moved to the new block, whose line holds the branch so far
        subst heq
        refine ⟨e.block, Function.update_self .., hself, ?_⟩
        rw [line_put_self hE W s]
        rcases (mem_put hE).mp hb with hb | rfl
        · obtain ⟨head, hbr, hmem, hline⟩ := W.branched hb hne hx
          rw [hhead, Option.some.injEq] at hbr
          rw [hE.blockHash_injective hbr]
          exact List.mem_cons_of_mem _ hline
        · exact List.mem_cons_self
      · rcases (mem_put hE).mp hb with hb | rfl
        · obtain ⟨head, hbr, hmem, hline⟩ := W.branched hb hne hx
          exact ⟨head, by rw [Function.update_of_ne heq, hbr], (mem_put hE).mpr (.inl hmem),
            by rwa [line_put hE W hmem]⟩
        · rw [hextra] at hx
          exact absurd (List.append_cancel_left hx).symm heq
  exact ⟨h.addressed, h.tree, h.head, h.slots, h.safety, h.records, h.projections, h.controls, h.points,
    h.branches, h.branched⟩

include W in
theorem wellFormed_fork {name : Bytes} {base : Block} (fresh : c.branches name = none) (mem : c.Mem E base) :
    WellFormed E { c with branches := Function.update c.branches name (some (E.hash base)) } where
  addressed := W.addressed
  tree := W.tree
  head := W.head
  slots := W.slots
  safety := W.safety
  records := W.records
  projections := W.projections
  controls := W.controls
  points := W.points
  branches := by
    intro name' h hb
    by_cases heq : name' = name
    · subst heq
      simp only [Function.update_self, Option.some.injEq] at hb
      rw [← hb, mem]
      rfl
    · exact W.branches (by simpa [Function.update_of_ne heq] using hb)
  branched := by
    intro b name' hb hne hx
    obtain ⟨head, hbr, hmem, hline⟩ := W.branched hb hne hx
    refine ⟨head, ?_, hmem, hline⟩
    have hname : name' ≠ name := by
      rintro rfl
      rw [fresh] at hbr
      cases hbr
    exact (Function.update_of_ne hname ..).trans hbr

include hE W in
/-- Every move keeps the chain well-formed. -/
theorem WellFormed.step {c' : Chain} (h : Step E c c') : WellFormed E c' := by
  cases h with
  | extend sound head slot time extra => exact wellFormed_extend hE W sound extra _ _
  | branch sound head time slot extra => exact wellFormed_branch hE W sound head extra _
  | move old mem =>
    exact ⟨W.addressed, W.tree, ⟨_, mem⟩, W.slots, W.safety, W.records, W.projections, W.controls,
      W.points, W.branches, W.branched⟩
  | wait slot later =>
    exact ⟨W.addressed, W.tree, W.head, W.slots, W.safety, W.records, W.projections, W.controls,
      W.points, W.branches, W.branched⟩
  | issue size =>
    exact ⟨W.addressed, W.tree, W.head, W.slots, W.safety, W.records, W.projections, W.controls,
      W.points, W.branches, W.branched⟩
  | point old new =>
    refine ⟨W.addressed, W.tree, W.head, W.slots, W.safety, W.records, W.projections, W.controls,
      fun p hp => ?_, W.branches, W.branched⟩
    rcases new p hp with hp | rfl
    · exact W.points p hp
    · exact Option.isSome_iff_exists.mpr W.head
  | fork fresh mem => exact wellFormed_fork W fresh mem
  | announce silent =>
    exact ⟨W.addressed, W.tree, W.head, W.slots, W.safety, W.records, W.projections, W.controls,
      W.points, W.branches, W.branched⟩

end Moves

end Chain

end Ethertest
