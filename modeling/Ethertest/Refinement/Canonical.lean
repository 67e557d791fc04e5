-- SUMMARY: Reading the canonical chain: by number, by hash, and as the line of the head.
import Ethertest.Refinement.Start

/-!
# The canonical chain

The canonical chain is the line of the head. geth's entries by number name exactly its
blocks.
-/

namespace Ethertest

/-- The blocks of the canonical chain, head first. -/
def Db.canonicalLine (db : Db) : List Block :=
  db.currentBlock.elim [] db.line

namespace Ledger

variable {E : Env} {l : Ledger}

theorem canonicalLine_eq {head : Block} (h : l.db.currentBlock = some head) :
    l.db.canonicalLine = l.chain.line head := by
  rw [Db.canonicalLine, h]
  rfl

/-- The head block of a ledger that satisfies the invariant. -/
theorem Inv.exists_head (I : l.Inv E) : ∃ head, l.db.currentBlock = some head ∧ l.chain.IsHead E head := by
  obtain ⟨head, hmem, hhash⟩ := I.chain.wellFormed.exists_head
  refine ⟨head, ?_, hmem, hhash⟩
  rw [currentBlock_eq, ← hhash]
  exact hmem

namespace Inv

variable (I : l.Inv E)
include I

theorem mem_of_mem_canonicalLine {b : Block} (hb : b ∈ l.db.canonicalLine) : l.chain.Mem E b := by
  obtain ⟨head, hcurrent, hhead⟩ := I.exists_head
  rw [canonicalLine_eq hcurrent] at hb
  exact I.chain.wellFormed.tree.mem_of_mem_line hhead.1 hb

/-- A canonical block is determined by its number. -/
theorem eq_of_number {a b : Block} (ha : a ∈ l.db.canonicalLine) (hb : b ∈ l.db.canonicalLine)
    (h : a.number = b.number) : a = b := by
  obtain ⟨head, hcurrent, hhead⟩ := I.exists_head
  rw [canonicalLine_eq hcurrent] at ha hb
  have T := I.chain.wellFormed.tree
  exact T.eq_of_mem_line T.number_lt hhead.1 ha hb h

/-- The stored canonical hash of a number. -/
theorem get_canonicalHash (number : Nat) : l.db.get (.canonicalHash number) =
    (l.db.canonicalLine.find? fun b => b.number = number).map fun b => .hash (E.hash b) := by
  obtain ⟨head, hcurrent, -⟩ := I.exists_head
  rw [Db.canonicalLine, hcurrent]
  exact I.stored.canonical hcurrent (.canonicalHash number) rfl

theorem find_number {b : Block} (hb : b ∈ l.db.canonicalLine) :
    l.db.canonicalLine.find? (fun a => a.number = b.number) = some b := by
  cases h : l.db.canonicalLine.find? (fun a => a.number = b.number) with
  | none => exact absurd (List.find?_eq_none.mp h b hb) (by simp)
  | some a =>
    have hnumber : a.number = b.number := by simpa using List.find?_some h
    rw [I.eq_of_number (List.mem_of_find?_eq_some h) hb hnumber]

theorem canonicalHash_of_mem {b : Block} (hb : b ∈ l.db.canonicalLine) :
    l.db.canonicalHash b.number = E.hash b := by
  rw [Db.canonicalHash, I.get_canonicalHash, I.find_number hb]
  rfl

/-- A block is canonical if its number has its hash. The hash of a number without a block
is zero, so no block may have that hash. -/
theorem canonicalHash_eq_iff (hE : E.Lawful) {b : Block} (hzero : E.hash b ≠ 0) :
    l.db.canonicalHash b.number = E.hash b ↔ b ∈ l.db.canonicalLine := by
  refine ⟨fun h => ?_, I.canonicalHash_of_mem⟩
  rw [Db.canonicalHash, I.get_canonicalHash] at h
  cases hfind : l.db.canonicalLine.find? (fun a => a.number = b.number) with
  | none =>
    rw [hfind] at h
    exact absurd h.symm hzero
  | some a =>
    rw [hfind] at h
    rw [← hE.blockHash_injective h]
    exact List.mem_of_find?_eq_some hfind

/-- The blocks found by number are the canonical ones. -/
theorem blockByNumber_eq_some {number : Nat} {b : Block} :
    l.db.blockByNumber number = some b ↔ b ∈ l.db.canonicalLine ∧ b.number = number := by
  constructor
  · intro h
    rw [Db.blockByNumber, I.get_canonicalHash] at h
    cases hfind : l.db.canonicalLine.find? (fun a => a.number = number) with
    | none => simp [hfind] at h
    | some a =>
      have hmem := List.mem_of_find?_eq_some hfind
      have hstored : l.db.blockByHash (E.hash a) = some a := I.mem_of_mem_canonicalLine hmem
      have hnumber : a.number = number := by simpa using List.find?_some hfind
      simp only [hfind, Option.map_some, Db.readBlock, hstored, Option.filter_some, hnumber, decide_true,
        if_true, Option.some.injEq] at h
      exact ⟨h ▸ hmem, h ▸ hnumber⟩
  · rintro ⟨hmem, rfl⟩
    have hstored : l.db.blockByHash (E.hash b) = some b := I.mem_of_mem_canonicalLine hmem
    rw [Db.blockByNumber, I.get_canonicalHash, I.find_number hmem]
    simp [Db.readBlock, hstored]

/-- There is a canonical block of every number up to the head's. -/
theorem exists_canonical {head : Block} (hcurrent : l.db.currentBlock = some head) {number : Nat}
    (h : number ≤ head.number) : ∃ b ∈ l.db.canonicalLine, b.number = number := by
  have hmem := (I.chain.wellFormed.mem_of_blocks hcurrent).1
  rw [canonicalLine_eq hcurrent]
  exact I.chain.wellFormed.tree.exists_mem_line hmem h

end Inv

end Ledger

end Ethertest
