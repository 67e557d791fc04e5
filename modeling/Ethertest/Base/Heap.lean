-- SUMMARY: A heap of cells, and the frame rule for programs that write to a few of them.
import Mathlib

/-!
# Heaps

A heap is the list of the cells allocated so far, and a reference is an index into it. `Frame`
says that a program keeps every cell that was there, except those it may write to; cells that
the program allocates itself are not mentioned.
-/

abbrev Ref := Nat

/-- Cells of one type. -/
abbrev Heap (C : Type) := List C

namespace Heap

variable {C : Type}

/-- A new cell. -/
def alloc (h : Heap C) (c : C) : Ref × Heap C := (h.length, h ++ [c])

/-- Overwrite a cell. -/
def write (h : Heap C) (r : Ref) (c : C) : Heap C := h.set r c

/-- Every cell is kept, except those that may be written to. -/
structure Frame (written : Set Ref) (h h' : Heap C) : Prop where
  length_le : h.length ≤ h'.length
  kept : ∀ r, r < h.length → r ∉ written → h'[r]? = h[r]?

variable {written : Set Ref} {h h' h'' : Heap C}

theorem Frame.refl : Frame written h h := ⟨le_rfl, fun _ _ _ => rfl⟩

theorem Frame.trans (first : Frame written h h') (second : Frame written h' h'') : Frame written h h'' :=
  ⟨first.length_le.trans second.length_le, fun r hr hnot =>
    (second.kept r (hr.trans_le first.length_le) hnot).trans (first.kept r hr hnot)⟩

theorem Frame.alloc (c : C) : Frame written h (h.alloc c).2 :=
  ⟨by simp [Heap.alloc], fun r hr _ => by simp [Heap.alloc, List.getElem?_append_left hr]⟩

theorem Frame.write (r : Ref) (c : C) : Frame {r} h (h.write r c) :=
  ⟨by simp [Heap.write], fun _ _ hnot => List.getElem?_set_ne (Ne.symm hnot)⟩

theorem Frame.mono {written' : Set Ref} (hframe : Frame written h h') (hsub : written ⊆ written') :
    Frame written' h h' :=
  ⟨hframe.length_le, fun r hr hnot => hframe.kept r hr fun hin => hnot (hsub hin)⟩

/-- Writes to cells that a program has allocated itself are not seen. -/
theorem Frame.fresh {written' : Set Ref} (first : Frame written h h') (second : Frame written' h' h'')
    (hfresh : ∀ r ∈ written', h.length ≤ r) : Frame written h h'' :=
  ⟨first.length_le.trans second.length_le, fun r hr hnot =>
    (second.kept r (hr.trans_le first.length_le) fun hin => absurd hr (not_lt.mpr (hfresh r hin))).trans
      (first.kept r hr hnot)⟩

theorem getElem?_write {r : Ref} (c : C) (hr : r < h.length) : (h.write r c)[r]? = some c := by
  simp [Heap.write, hr]

end Heap
