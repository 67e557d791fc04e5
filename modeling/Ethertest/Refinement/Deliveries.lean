-- SUMMARY: Entries of blocks, settled event by event: the result is the entries of the canonical line.
import Ethertest.Refinement.Observer

/-!
# Deliveries

A subscriber keeps a list of entries that blocks carry, such as logs. It appends the entries of
an added block and erases those of a removed one. If different blocks carry different entries,
its list is that of the canonical line after every batch of events.
-/

namespace Ethertest

variable {α : Type} [DecidableEq α] {entries : Hash → List α}

/-- The list after an event. -/
def Event.settle (entries : Hash → List α) (acc : List α) (e : Event) : List α :=
  if e.aboutBlock then
    if e.removed then (entries e.blockHash).foldl List.erase acc else acc ++ entries e.blockHash
  else acc

theorem foldl_erase_append {acc xs : List α} (h : acc.Disjoint xs) : xs.foldl List.erase (acc ++ xs) = acc := by
  induction xs with
  | nil => simp
  | cons x xs ih =>
    have hx : x ∉ acc := fun hmem => h hmem List.mem_cons_self
    rw [List.foldl_cons, List.erase_append_right _ hx, List.erase_cons_head]
    exact ih fun y hacc hxs => h hacc (List.mem_cons_of_mem _ hxs)

theorem Event.settle_quiet {e : Event} (h : e.quiet) (acc : List α) : e.settle entries acc = acc := by
  rw [settle, if_neg (by simp [not_aboutBlock_of_quiet h])]

theorem foldl_settle_quiet {events : List Event} (h : ∀ e ∈ events, e.quiet) (acc : List α) :
    events.foldl (Event.settle entries) acc = acc := by
  induction events generalizing acc with
  | nil => rfl
  | cons e events ih =>
    rw [List.foldl_cons, Event.settle_quiet (h e List.mem_cons_self)]
    exact ih (fun q hq => h q (List.mem_cons_of_mem _ hq)) acc

theorem foldl_settle_unnumbered (events : List Event) (acc : List α) :
    (events.map EventLog.unnumbered).foldl (Event.settle entries) acc = events.foldl (Event.settle entries) acc := by
  rw [List.foldl_map]
  rfl

/-- Different blocks carry different entries. -/
def Apart (entries : Hash → List α) : Prop := ∀ h h', h ≠ h' → (entries h).Disjoint (entries h')

namespace Chain

variable {E : Env} {c c' : Chain}

/-- The entries of a line, oldest block first. -/
def lineEntries (E : Env) (entries : Hash → List α) (line : List Block) : List α :=
  line.reverse.flatMap fun b => entries (E.hash b)

omit [DecidableEq α] in
theorem lineEntries_cons (b : Block) (line : List Block) :
    lineEntries E entries (b :: line) = lineEntries E entries line ++ entries (E.hash b) := by
  simp [lineEntries]

omit [DecidableEq α] in
private theorem disjoint_lineEntries (hE : E.Lawful) (hapart : Apart entries) {b : Block}
    {line : List Block} (hb : b ∉ line) :
    (lineEntries E entries line).Disjoint (entries (E.hash b)) := by
  intro x hline hx
  obtain ⟨a, ha, hxa⟩ := List.mem_flatMap.mp hline
  have hne : a ≠ b := fun heq => hb (heq ▸ List.mem_reverse.mp ha)
  exact hapart (E.hash a) (E.hash b) (fun heq => hne (hE.blockHash_injective heq)) hxa hx

/-- Settling the removals of a path, head first. -/
theorem foldl_settle_removed (hE : E.Lawful) (hapart : Apart entries) (slot : Block → Nat) {path rest : List Block}
    (hnodup : (path ++ rest).Nodup) :
    (path.map fun b => Event.block (slot b) (E.hash b) b.number true).foldl (Event.settle entries)
      (lineEntries E entries (path ++ rest)) = lineEntries E entries rest := by
  induction path with
  | nil => rfl
  | cons b path ih =>
    rw [List.cons_append, List.nodup_cons] at hnodup
    have hpop : (Event.block (slot b) (E.hash b) b.number true).settle entries
        (lineEntries E entries (b :: (path ++ rest))) = lineEntries E entries (path ++ rest) := by
      rw [lineEntries_cons]
      exact foldl_erase_append (disjoint_lineEntries hE hapart hnodup.1)
    rw [List.map_cons, List.foldl_cons, List.cons_append, hpop]
    exact ih hnodup.2

/-- Settling the additions of a path, oldest block first. -/
theorem foldl_settle_added (slot : Block → Nat) (path rest : List Block) :
    (path.reverse.map fun b => Event.block (slot b) (E.hash b) b.number false).foldl (Event.settle entries)
      (lineEntries E entries rest) = lineEntries E entries (path ++ rest) := by
  induction path with
  | nil => rfl
  | cons b path ih =>
    rw [List.reverse_cons, List.map_append, List.foldl_append, ih, List.cons_append, lineEntries_cons]
    rfl

theorem canonicalLine_of_isHead {head : Block} (h : c.IsHead E head) : c.canonicalLine = c.line head := by
  rw [canonicalLine, ← h.2, h.1]
  rfl

/-- The entries of the canonical line after a move, and the events that lead to them. -/
def Settles (E : Env) (entries : Hash → List α) (c c' : Chain) : Prop :=
  ∃ events, c'.batches.flatten = c.batches.flatten ++ events ∧
    events.foldl (Event.settle entries) (lineEntries E entries c.canonicalLine) = lineEntries E entries c'.canonicalLine

theorem Settles.trans {c'' : Chain} (h : Settles E entries c c') (h' : Settles E entries c' c'') :
    Settles E entries c c'' := by
  obtain ⟨events, hbatches, hfold⟩ := h
  obtain ⟨events', hbatches', hfold'⟩ := h'
  exact ⟨events ++ events', by rw [hbatches', hbatches, List.append_assoc], by rw [List.foldl_append, hfold, hfold']⟩

theorem Settles.of_batch {batch : List Event} (hbatches : c'.batches = c.batches ++ [batch])
    (h : batch.foldl (Event.settle entries) (lineEntries E entries c.canonicalLine) =
      lineEntries E entries c'.canonicalLine) :
    Settles E entries c c' :=
  ⟨batch, by rw [hbatches, List.flatten_append, List.flatten_singleton], h⟩

/-- Every move settles. -/
theorem Step.settles (hE : E.Lawful) (hapart : Apart entries) (W : WellFormed E c) (h : Step E c c') :
    Settles E entries c c' := by
  obtain ⟨oldHead, hold⟩ := W.exists_head
  cases h with
  | @extend e remaining batch event quiet sound head slot time extra events event_type event_block silent =>
    have hhead : (c.extend E e remaining batch).IsHead E e.block := ⟨(mem_put hE).mpr (.inr rfl), rfl⟩
    have hparent : c.IsHead E e.parent := ⟨sound.parent_mem, head.symm⟩
    have habout : event.aboutBlock = true := by
      rcases event_type with h | h <;> simp [Event.aboutBlock, h]
    refine .of_batch rfl ?_
    rw [← foldl_settle_unnumbered, events, List.foldl_cons, foldl_settle_quiet silent, canonicalLine_of_isHead hparent,
      canonicalLine_of_isHead hhead, Event.settle, if_pos habout, event_block.2.2,
        if_neg Bool.false_ne_true, event_block.1]
    exact ((congrArg _ (line_put_self hE W sound)).trans (lineEntries_cons ..)).symm
  | @branch e name remaining sound head time slot extra =>
    refine .of_batch rfl ?_
    rw [List.foldl_nil]
    exact congrArg _ (Env.canonicalLine_put hE W).symm
  | @move _ target targetSlot oldPath newPath queue batch old mem slot paths reconciled events =>
    have hmem := W.mem_of_blocks old
    obtain ⟨d, hd, hlineOld, hlineNew, -⟩ := W.paths hE hmem.1 mem paths
    have hnodup := W.tree.line_nodup hmem.1
    change (c.line _).Nodup at hnodup
    rw [hlineOld] at hnodup
    have htarget : (c.blocks (E.hash target)).elim [] c.line = c.line target := by
      rw [mem]
      rfl
    refine .of_batch rfl ?_
    change _ = lineEntries E entries ((c.blocks (E.hash target)).elim [] c.line)
    rw [← foldl_settle_unnumbered, events, moveEvents, List.foldl_append, List.foldl_append,
      canonicalLine_of_isHead hmem, hlineOld,
      foldl_settle_removed hE hapart _ hnodup, foldl_settle_added, ← hlineNew, htarget]
    split <;> rfl
  | wait => exact ⟨[], by simp, rfl⟩
  | issue => exact ⟨[], by simp, rfl⟩
  | point => exact ⟨[], by simp, rfl⟩
  | fork => exact ⟨[], by simp, rfl⟩
  | announce silent => exact .of_batch rfl (foldl_settle_quiet silent _)

open Relation (ReflTransGen)

/-- Every run of moves settles. -/
theorem settles_run (hE : E.Lawful) (hapart : Apart entries) (I : Inv E c) (h : ReflTransGen (Step E) c c') :
    Settles E entries c c' ∧ Inv E c' := by
  induction h with
  | refl => exact ⟨⟨[], by simp, rfl⟩, I⟩
  | tail _ hstep ih => exact ⟨ih.1.trans (hstep.settles hE hapart ih.2.wellFormed), ih.2.step hE hstep⟩

end Chain

end Ethertest
