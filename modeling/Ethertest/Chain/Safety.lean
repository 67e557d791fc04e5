-- SUMMARY: Taint: a block's safety record is exactly what its line calls for, and the session remembers all of it.
import Ethertest.Chain.Requests

/-!
# Taint

A block has reasons of its own when it overrides state or holds controls. Its record is
computed from its parent's alone. By induction along the line it says what the whole line
calls for: whether some block on it has reasons, the earliest one that does, and the
reasons of all of them in order.
-/

namespace Ethertest

/-! ## Lists of reasons -/

variable {r : TaintReason} {reasons : List TaintReason}

@[simp] theorem mem_addReasons {known added : List TaintReason} :
    r ∈ addReasons known added ↔ r ∈ known ∨ r ∈ added := by
  unfold addReasons
  induction added generalizing known with
  | nil => simp
  | cons a added ih =>
    rw [List.foldl_cons, ih, List.mem_cons, ← or_assoc]
    by_cases h : a ∈ known
    · rw [if_pos h]
      exact or_congr_left ⟨.inl, fun hr => hr.elim id fun heq => heq ▸ h⟩
    · simp [h]

theorem nodup_addReasons {known added : List TaintReason} (h : known.Nodup) : (addReasons known added).Nodup := by
  unfold addReasons
  induction added generalizing known with
  | nil => exact h
  | cons a added ih =>
    rw [List.foldl_cons]
    by_cases ha : a ∈ known
    · rw [if_pos ha]
      exact ih h
    · rw [if_neg ha]
      exact ih (List.nodup_append.mpr ⟨h, List.nodup_singleton a, fun x hx y hy heq =>
        ha (List.mem_singleton.mp hy ▸ heq ▸ hx)⟩)

/-- Strictly in the order of the reasons' texts, so without repetitions. -/
def SortedReasons (reasons : List TaintReason) : Prop :=
  reasons.Pairwise fun a b => a.rank < b.rank

@[simp] theorem mem_sortReasons : r ∈ sortReasons reasons ↔ r ∈ reasons :=
  List.mem_insertionSort _

theorem sortedReasons_sort (h : reasons.Nodup) : SortedReasons (sortReasons reasons) := by
  have : Std.Total (α := TaintReason) (· ≤ ·) := ⟨fun a b => Nat.le_total a.rank b.rank⟩
  have : IsTrans TaintReason (· ≤ ·) := ⟨fun _ _ _ => Nat.le_trans⟩
  have hle : (sortReasons reasons).Pairwise (· ≤ ·) := List.pairwise_insertionSort _ _
  have hnodup : (sortReasons reasons).Nodup := (List.perm_insertionSort _ _).nodup_iff.mpr h
  exact hle.imp₂ (fun a b hab hne => lt_of_le_of_ne hab fun heq => hne (TaintReason.rank_injective heq)) hnodup

theorem SortedReasons.nodup (h : SortedReasons reasons) : reasons.Nodup :=
  h.imp fun hlt heq => absurd (congrArg TaintReason.rank heq) hlt.ne

namespace Chain

variable {E : Env} {c : Chain}

open Classical in
/-- A block's own reasons for taint. -/
noncomputable def reasonsOf (c : Chain) (h : Hash) : List TaintReason :=
  (if h ∈ c.controls then [.controlStateOverride] else []) ++
    (if (c.recordOf h).controls.count = 0 then [] else [.executionRequestControl])

structure Safety (E : Env) (c : Chain) : Prop where
  genesis : c.safety E.genesisHash = some { blockHash := E.genesisHash }
  genesis_control : E.genesisHash ∉ c.controls
  child : ∀ {b p}, c.Mem E b → b ≠ E.genesis.block → c.parent b = some p →
    c.safety (E.hash b) = some (blockSafetyForChild (c.safetyOf (E.hash p)) (E.hash b) (c.reasonsOf (E.hash b)))
  controls : ∀ {b}, c.Mem E b → b ≠ E.genesis.block →
    (E.hash b ∈ c.controls ↔ controlExtraPrefix <+: b.header.extra)
  tainted : c.session.tainted = true ↔ ∃ b, c.Mem E b ∧ c.reasonsOf (E.hash b) ≠ []
  reasons : ∀ r, r ∈ c.session.reasons ↔ ∃ b, c.Mem E b ∧ r ∈ c.reasonsOf (E.hash b)

/-- What a line calls for. -/
structure LineSafety (E : Env) (c : Chain) (line : List Block) (s : BlockSafety) : Prop where
  tainted : s.tainted = true ↔ ∃ a ∈ line, c.reasonsOf (E.hash a) ≠ []
  first : s.firstUnsafeBlock = (line.reverse.find? fun a => c.reasonsOf (E.hash a) ≠ []).map E.hash
  reasons : ∀ r, r ∈ s.reasons ↔ ∃ a ∈ line, r ∈ c.reasonsOf (E.hash a)
  sorted : SortedReasons s.reasons

/-- The record of a child from the record of its parent. -/
theorem LineSafety.child {b : Block} {line : List Block} {s : BlockSafety} (h : LineSafety E c line s) :
    LineSafety E c (b :: line) (blockSafetyForChild s (E.hash b) (c.reasonsOf (E.hash b))) := by
  by_cases hclean : s.tainted = false ∧ c.reasonsOf (E.hash b) = []
  · -- nothing to report: neither the parent's line nor the block has reasons
    obtain ⟨hs, hb⟩ := hclean
    have hnone : ¬ ∃ a ∈ b :: line, c.reasonsOf (E.hash a) ≠ [] := by
      rintro ⟨a, ha, hne⟩
      rcases List.mem_cons.mp ha with rfl | ha
      · exact hne hb
      · exact absurd (h.tainted.mpr ⟨a, ha, hne⟩) (by simp [hs])
    have hsafety : blockSafetyForChild s (E.hash b) (c.reasonsOf (E.hash b)) = { blockHash := E.hash b } := by
      simp [blockSafetyForChild, hs, hb]
    rw [hsafety]
    refine ⟨by simpa using hnone, ?_, fun r => ?_, List.Pairwise.nil⟩
    · rw [List.find?_eq_none.mpr]
      · rfl
      · intro a ha
        simpa using fun hne => hnone ⟨a, List.mem_reverse.mp ha, hne⟩
    · simp only [List.not_mem_nil, false_iff]
      rintro ⟨a, ha, hr⟩
      exact hnone ⟨a, ha, List.ne_nil_of_mem hr⟩
  · have hsafety : blockSafetyForChild s (E.hash b) (c.reasonsOf (E.hash b)) =
        { blockHash := E.hash b, tainted := true, firstUnsafeBlock := some (s.firstUnsafeBlock.getD (E.hash b))
          reasons := sortReasons (addReasons s.reasons (c.reasonsOf (E.hash b))) } := by
      rw [blockSafetyForChild, if_neg]
      simpa using hclean
    rw [hsafety]
    have hself : s.tainted = false → c.reasonsOf (E.hash b) ≠ [] := fun hs hb => hclean ⟨hs, hb⟩
    refine ⟨?_, ?_, fun r => ?_, sortedReasons_sort (nodup_addReasons h.sorted.nodup)⟩
    · simp only [true_iff]
      cases hs : s.tainted with
      | false => exact ⟨b, List.mem_cons_self, hself hs⟩
      | true =>
        obtain ⟨a, ha, hne⟩ := h.tainted.mp hs
        exact ⟨a, List.mem_cons_of_mem _ ha, hne⟩
    · -- the earliest block is the parent line's if that has one, else the block itself
      simp only [List.reverse_cons, List.find?_append, Option.map_or, ← h.first]
      cases hfirst : s.firstUnsafeBlock with
      | some first => rfl
      | none =>
        have hs : s.tainted = false := by
          by_contra ht
          rw [Bool.not_eq_false, h.tainted] at ht
          obtain ⟨a, ha, hne⟩ := ht
          have hfind := h.first
          rw [hfirst, eq_comm, Option.map_eq_none_iff, List.find?_eq_none] at hfind
          exact hfind a (List.mem_reverse.mpr ha) (by simpa using hne)
        simp [hself hs]
    · simp only [mem_sortReasons, mem_addReasons, h.reasons, List.exists_mem_cons_iff]
      exact or_comm

namespace Safety

variable (W : WellFormed E c) (R : Requests E c) (S : Safety E c)

include R S in
private theorem reasonsOf_genesis : c.reasonsOf E.genesisHash = [] := by
  have hcount : (c.recordOf E.genesisHash).controls.count = 0 := by
    rw [recordOf]
    cases hrecord : c.records E.genesisHash with
    | none => rfl
    | some record => exact R.genesis hrecord
  simp [reasonsOf, S.genesis_control, hcount]

include W R S in
/-- The record of a stored block is what its line calls for. -/
theorem lineSafety {b : Block} (hb : c.Mem E b) : LineSafety E c (c.line b) (c.safetyOf (E.hash b)) := by
  induction b, hb using W.tree.induct with
  | hroot =>
    have hsafety : c.safetyOf (E.hash E.genesis.block) = { blockHash := E.genesisHash } := by
      rw [safetyOf, S.genesis, Option.getD_some]
    have hreasons : c.reasonsOf (E.hash E.genesis.block) = [] := S.reasonsOf_genesis R
    rw [hsafety, line, W.tree.line_root]
    exact ⟨by simp [hreasons], by simp [hreasons], by simp [hreasons], List.Pairwise.nil⟩
  | hchild b p hb hne hp hpm hnum ih =>
    have hsafety : c.safetyOf (E.hash b) =
        blockSafetyForChild (c.safetyOf (E.hash p)) (E.hash b) (c.reasonsOf (E.hash b)) := by
      rw [safetyOf, S.child hb hne hp, Option.getD_some]
    rw [hsafety, line, Ancestry.Tree.line_child hp hnum]
    exact ih.child

end Safety

/-! ## Recording a block -/

section Put

variable (hE : E.Lawful) (W : WellFormed E c) (R : Requests E c) (S : Safety E c) {e : Entry}
  {queue remaining : ExecutionRequestQueue} (s : e.Sound E c queue remaining)
  (hfront : ∀ t, c.consumed E e.parent t ++ e.record.controls.get t <+: ofType c.issued t)

include hE W S s in
theorem mem_controls_put_self : e.hash E ∈ (c.put E e).controls ↔ e.control = true := by
  cases hc : e.control with
  | true => simp [put, hc]
  | false =>
    simp only [put, hc, Bool.false_eq_true, if_false, iff_false]
    intro hmem
    obtain ⟨b, hb, hhash⟩ := W.mem_of_isSome (W.controls _ hmem)
    obtain rfl := hE.blockHash_injective hhash
    rw [S.controls hb s.ne_genesis, ← s.control, hc] at hmem
    cases hmem

variable {b : Block}

include hE W S s in
theorem mem_controls_put (hb : c.Mem E b) : E.hash b ∈ (c.put E e).controls ↔ E.hash b ∈ c.controls := by
  by_cases heq : E.hash b = e.hash E
  · obtain rfl := hE.blockHash_injective heq
    rw [mem_controls_put_self hE W S s, s.control, S.controls hb s.ne_genesis]
  · cases hc : e.control with
    | true => simp [put, hc, heq]
    | false => simp [put, hc]

include hE W S s in
theorem reasonsOf_put_self : (c.put E e).reasonsOf (e.hash E) = e.reasons := by
  have hrecord : (c.put E e).recordOf (e.hash E) = e.record := by simp [recordOf, put]
  rw [reasonsOf, hrecord, Entry.reasons]
  simp only [mem_controls_put_self hE W S s]

include hE W R S s hfront in
theorem reasonsOf_put (hb : c.Mem E b) : (c.put E e).reasonsOf (E.hash b) = c.reasonsOf (E.hash b) := by
  classical
  simp only [reasonsOf, recordOf, mem_controls_put hE W S s hb, records_put hE W R s hfront hb]
  congr

include hE W R S s hfront in
/-- A known block is recorded with the safety it has. -/
theorem safety_put (hb : c.Mem E b) : (c.put E e).safety (E.hash b) = c.safety (E.hash b) := by
  by_cases heq : E.hash b = e.hash E
  · obtain rfl := hE.blockHash_injective heq
    have hparent : c.parent e.block = some e.parent := by
      rw [parent, s.parentHash]
      exact s.parent_mem
    have hreasons := (reasonsOf_put hE W R S s hfront hb).symm.trans (reasonsOf_put_self hE W S s)
    rw [S.child hb s.ne_genesis hparent, hreasons]
    simp [put, Entry.safety]
  · simp [put, Function.update_of_ne heq]

include hE in
/-- A property of the blocks after recording one, from the blocks before and that one. -/
theorem exists_mem_put {P : Block → Prop} :
    (∃ b, (c.put E e).Mem E b ∧ P b) ↔ (∃ b, c.Mem E b ∧ P b) ∨ P e.block := by
  constructor
  · rintro ⟨b, hb, hP⟩
    rcases (mem_put hE).mp hb with hb | rfl
    · exact .inl ⟨b, hb, hP⟩
    · exact .inr hP
  · rintro (⟨b, hb, hP⟩ | hP)
    · exact ⟨b, (mem_put hE).mpr (.inl hb), hP⟩
    · exact ⟨e.block, (mem_put hE).mpr (.inr rfl), hP⟩

include hE W R S s hfront in
/-- The reasons of the stored blocks after recording one. -/
theorem exists_reasonsOf_put {P : List TaintReason → Prop} :
    (∃ b, (c.put E e).Mem E b ∧ P ((c.put E e).reasonsOf (E.hash b))) ↔
      (∃ b, c.Mem E b ∧ P (c.reasonsOf (E.hash b))) ∨ P e.reasons := by
  rw [exists_mem_put hE, reasonsOf_put_self hE W S s]
  refine or_congr_left (exists_congr fun b => and_congr_right fun hb => ?_)
  rw [reasonsOf_put hE W R S s hfront hb]

include hE W R S s hfront in
/-- Recording a block keeps the taint invariant, if the session takes up its reasons. -/
theorem safetyInvariant_put {session : Session}
    (htainted : session.tainted = true ↔ c.session.tainted = true ∨ e.reasons ≠ [])
    (hreasons : ∀ r, r ∈ session.reasons ↔ r ∈ c.session.reasons ∨ r ∈ e.reasons) :
    Safety E { c.put E e with session := session } where
  genesis := (safety_put hE W R S s hfront W.tree.root_mem).trans S.genesis
  genesis_control := fun h => S.genesis_control ((mem_controls_put hE W S s W.tree.root_mem).mp h)
  child := by
    intro b p hb hne hp
    change (c.put E e).safety (E.hash b) =
      some (blockSafetyForChild ((c.put E e).safetyOf (E.hash p)) (E.hash b) ((c.put E e).reasonsOf (E.hash b)))
    rcases (mem_put hE).mp hb with hb | rfl
    · have hp' := (parent_put hE W hb hne).symm.trans hp
      rw [safetyOf, safety_put hE W R S s hfront hb, safety_put hE W R S s hfront (W.mem_of_parent hp'),
        reasonsOf_put hE W R S s hfront hb]
      exact S.child hb hne hp'
    · obtain rfl : e.parent = p := Option.some.inj ((parent_put_self hE s).symm.trans hp)
      rw [safetyOf, safety_put hE W R S s hfront s.parent_mem, reasonsOf_put_self hE W S s]
      simp [put, Entry.safety, safetyOf]
  controls := by
    intro b hb hne
    rcases (mem_put hE).mp hb with hb | rfl
    · exact (mem_controls_put hE W S s hb).trans (S.controls hb hne)
    · exact (mem_controls_put_self hE W S s).trans s.control
  tainted := by
    rw [htainted, S.tainted]
    exact (exists_reasonsOf_put hE W R S s hfront (P := fun l => l ≠ [])).symm
  reasons := by
    intro r
    rw [hreasons, S.reasons]
    exact (exists_reasonsOf_put hE W R S s hfront (P := fun l => r ∈ l)).symm

end Put

section Moves

variable (hE : E.Lawful) (W : WellFormed E c) (R : Requests E c) (S : Safety E c) {e : Entry}
  {queue remaining : ExecutionRequestQueue}

variable {s : Session} {reasons : List TaintReason} {c' : Chain}

private theorem tainted_taint {safety : BlockSafety} :
    (taint s safety reasons).tainted = true ↔ s.tainted = true ∨ reasons ≠ [] := by
  by_cases h : reasons = [] <;> simp [taint, h]

private theorem mem_reasons_taint {safety : BlockSafety} {r : TaintReason} :
    r ∈ (taint s safety reasons).reasons ↔ r ∈ s.reasons ∨ r ∈ reasons := by
  by_cases h : reasons = [] <;> simp [taint, h]

include hE W R S in
theorem safety_extend (s : e.Sound E c c.queue remaining) (hhead : c.head = E.hash e.parent)
    (rest : ExecutionRequestQueue) (batch : List Event) : Safety E (c.extend E e rest batch) := by
  have h : Safety E { c.put E e with session := taint c.session (e.safety E c) e.reasons } :=
    safetyInvariant_put hE W R S s (front_of_extend R s hhead) tainted_taint fun _ => mem_reasons_taint
  exact ⟨h.genesis, h.genesis_control, h.child, h.controls, h.tainted, h.reasons⟩

/-- The two kinds of extra data differ at the eleventh byte. -/
theorem not_control_of_branch (name : Bytes) : ¬ controlExtraPrefix <+: branchExtraPrefix ++ name := by
  intro h
  have htake := List.take_prefix 11 controlExtraPrefix |>.trans h
  have := List.prefix_iff_eq_take.mp htake
  rw [List.take_append_of_le_length (by decide)] at this
  exact absurd this (by decide)

include hE W R S in
/-- A branch block has no reasons of its own, so the session stays. -/
theorem safety_branch {name : Bytes} (s : e.Sound E c newExecutionRequestQueue remaining)
    (hextra : e.block.header.extra = branchExtraPrefix ++ name) (branches : Bytes → Option Hash)
    (batches : List (List Event)) : Safety E { c.put E e with branches := branches, batches := batches } := by
  have hcontrol : e.control = false := by
    rw [← Bool.not_eq_true, s.control, hextra]
    exact not_control_of_branch name
  have hcount : e.record.controls.count = 0 := by
    obtain ⟨_, _, p, hp, -, hrec, -, -⟩ := s.prepared
    rw [ExecutionRequestControlSet.count_eq_zero]
    intro t
    have hsplit := hp.split t
    rw [hrec] at hsplit
    cases t <;> exact (List.append_eq_nil_iff.mp hsplit).1
  have hreasons : e.reasons = [] := by simp [Entry.reasons, hcontrol, hcount]
  have h : Safety E { c.put E e with session := c.session } :=
    safetyInvariant_put hE W R S s (front_of_branch R s) (by simp [hreasons]) (by simp [hreasons])
  exact ⟨h.genesis, h.genesis_control, h.child, h.controls, h.tainted, h.reasons⟩

include hE W R S in
theorem Safety.step (h : Step E c c') : Safety E c' := by
  cases h with
  | extend sound head => exact safety_extend hE W R S sound head _ _
  | branch sound head time slot extra => exact safety_branch hE W R S sound extra _ _
  | move => exact ⟨S.genesis, S.genesis_control, S.child, S.controls, S.tainted, S.reasons⟩
  | wait => exact ⟨S.genesis, S.genesis_control, S.child, S.controls, S.tainted, S.reasons⟩
  | issue => exact ⟨S.genesis, S.genesis_control, S.child, S.controls, S.tainted, S.reasons⟩
  | point => exact ⟨S.genesis, S.genesis_control, S.child, S.controls, S.tainted, S.reasons⟩
  | fork => exact ⟨S.genesis, S.genesis_control, S.child, S.controls, S.tainted, S.reasons⟩
  | announce => exact ⟨S.genesis, S.genesis_control, S.child, S.controls, S.tainted, S.reasons⟩

/-- A session's taint and its reasons never shrink. -/
theorem session_mono (h : Step E c c') :
    (c.session.tainted = true → c'.session.tainted = true) ∧ c.session.reasons ⊆ c'.session.reasons := by
  cases h with
  | extend => exact ⟨fun ht => tainted_taint.mpr (.inl ht), fun _ hr => mem_reasons_taint.mpr (.inl hr)⟩
  | branch => exact ⟨id, subset_rfl⟩
  | move => exact ⟨id, subset_rfl⟩
  | wait => exact ⟨id, subset_rfl⟩
  | issue => exact ⟨id, subset_rfl⟩
  | point => exact ⟨id, subset_rfl⟩
  | fork => exact ⟨id, subset_rfl⟩
  | announce => exact ⟨id, subset_rfl⟩

end Moves

end Chain

end Ethertest
