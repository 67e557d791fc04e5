-- SUMMARY: The withdrawals on every line of the block tree are numbered from zero.
import Ethertest.Chain.Tree

/-!
# Numbered withdrawals

The index of a withdrawal is found by walking up from the parent to the last block with
withdrawals. On a tree whose lines are numbered from zero the walk returns how many
withdrawals the parent's line has, so a block that is numbered from there keeps the lines
numbered. Siblings use the same indices.
-/

namespace Ethertest

/-- The withdrawals of a block. -/
def Block.paid (b : Block) : List Withdrawal := b.withdrawals.getD []

/-- What a withdrawal was asked for as. -/
def Withdrawal.request (w : Withdrawal) : WithdrawalRequest where
  validatorIndex := w.validator
  address := w.address
  amount := w.amount

namespace Chain

variable {E : Env} {c : Chain}

/-- The indices of the withdrawals on a block's line, oldest first. -/
def indices (c : Chain) (b : Block) : List Nat :=
  (c.line b).reverse.flatMap fun a => a.paid.map (·.index)

/-- On every line the withdrawals are numbered from zero, and no block has too many. -/
structure Numbered (E : Env) (c : Chain) : Prop where
  ordered : ∀ b, c.Mem E b → c.indices b = List.range (c.indices b).length
  bounded : ∀ b, c.Mem E b → b.paid.length ≤ Env.maxWithdrawalsPerBlock

variable {c' : Chain} {e : Entry}

private theorem indices_congr (h : c'.blocks = c.blocks) (b : Block) : c'.indices b = c.indices b := by
  have hparent : c'.parent = c.parent := funext fun b => congrFun h b.parentHash
  rw [indices, indices, line, line, hparent]

theorem Numbered.congr (N : Numbered E c) (h : c'.blocks = c.blocks) : Numbered E c' where
  ordered b hb := by
    rw [indices_congr h]
    exact N.ordered b ((congrFun h (E.hash b)).symm.trans hb)
  bounded b hb := N.bounded b ((congrFun h (E.hash b)).symm.trans hb)

theorem indices_child {b p : Block} (hp : c.parent b = some p) (hnum : b.number = p.number + 1) :
    c.indices b = c.indices p ++ b.paid.map (·.index) := by
  rw [indices, line, Ancestry.Tree.line_child hp hnum]
  simp [indices, line]

theorem indices_genesis (W : WellFormed E c) (hgenesis : E.genesis.block.paid = []) :
    c.indices E.genesis.block = [] := by
  rw [indices, line, W.tree.line_root]
  simp [hgenesis]

/-- The indices of a block that is recorded again or for the first time. -/
theorem indices_put (hE : E.Lawful) (W : WellFormed E c) {queue remaining : ExecutionRequestQueue}
    (s : e.Sound E c queue remaining) :
    (c.put E e).indices e.block = c.indices e.parent ++ e.block.paid.map (·.index) := by
  rw [indices, line_put_self hE W s]
  simp [indices]

/-- A block that goes on from its parent's line keeps the lines numbered. -/
theorem Numbered.put (hE : E.Lawful) (W : WellFormed E c) (N : Numbered E c)
    {queue remaining : ExecutionRequestQueue} (s : e.Sound E c queue remaining)
    (hnext : e.block.paid.map (·.index) = (List.range e.block.paid.length).map ((c.indices e.parent).length + ·))
    (hbound : e.block.paid.length ≤ Env.maxWithdrawalsPerBlock) : Numbered E (c.put E e) where
  ordered b hb := by
    rcases (mem_put hE).mp hb with hb | rfl
    · have hline : (c.put E e).indices b = c.indices b := by rw [indices, indices, line_put hE W hb]
      rw [hline]
      exact N.ordered b hb
    · rw [indices_put hE W s, List.length_append, List.length_map, List.range_add, ← hnext,
        ← N.ordered e.parent s.parent_mem]
  bounded b hb := by
    rcases (mem_put hE).mp hb with hb | rfl
    · exact N.bounded b hb
    · exact hbound

end Chain

/-! ## The walk -/

section Walk

variable {E : Env} {c : Chain} {db : Db}

variable {b parent : Block} {requests : List WithdrawalRequest} {withdrawals : Option (List Withdrawal)}

/-- The walk finds how many withdrawals a line has, unless there is no index after them. -/
theorem nextWithdrawalIndex_eq (W : c.WellFormed E) (N : c.Numbered E)
    (hgenesis : E.genesis.block.paid = []) (hdb : ∀ h, db.blockByHash h = c.blocks h) (hb : c.Mem E b)
    {fuel : Nat} (hfuel : b.number ≤ fuel) :
    nextWithdrawalIndex db fuel b =
      if (c.indices b).length = maxUint64 + 1 then .error (.new "withdrawal index overflow")
      else .ok (c.indices b).length := by
  induction b, hb using W.tree.induct generalizing fuel with
  | hroot =>
    have hnone : (E.genesis.block.withdrawals.getD []).getLast? = none := by
      rw [List.getLast?_eq_none_iff]
      exact hgenesis
    rw [Chain.indices_genesis W hgenesis]
    unfold nextWithdrawalIndex
    simp only [hnone]
    split
    · rfl
    · rw [if_pos E.genesis_number]
      rfl
  | hchild b p hb _ hp _ hnum ih =>
    have hindices := Chain.indices_child hp hnum
    unfold nextWithdrawalIndex
    split
    · -- the block has withdrawals: the last one has the last index of its line
      next last hlast =>
        have hmem : (c.indices b).getLast? = some last.index := by
          rw [hindices, List.getLast?_append, List.getLast?_map, Block.paid, hlast]
          rfl
        rw [N.ordered b hb, List.getLast?_range] at hmem
        split at hmem
        · cases hmem
        · next hne =>
          have hlength : (c.indices b).length = last.index + 1 := by
            have := Option.some.inj hmem
            omega
          simp only [hlength, Nat.add_right_cancel_iff, failIf]
          split <;> rfl
    · next hlast =>
      have hpaid : b.paid = [] := List.getLast?_eq_none_iff.mp hlast
      obtain ⟨fuel, rfl⟩ : ∃ k, fuel = k + 1 := ⟨fuel - 1, by omega⟩
      have hread : db.readBlock b.parentHash (b.number - 1) = some p := by
        rw [Db.readBlock, hdb, Option.filter_eq_some_iff]
        exact ⟨hp, by simp [hnum]⟩
      simp only [hread, if_neg (show b.number ≠ 0 by omega)]
      rw [hindices, hpaid, List.map_nil, List.append_nil]
      exact ih (by omega)

theorem assignedWithdrawals_spec (h : assignedWithdrawals db parent requests = .ok withdrawals) :
    (withdrawals.getD []).map Withdrawal.request = requests ∧
    (requests = [] ∨ ∃ next, nextWithdrawalIndex db parent.number parent = .ok next ∧
      (withdrawals.getD []).map (·.index) = (List.range requests.length).map (next + ·)) := by
  unfold assignedWithdrawals at h
  split at h
  · next hnil =>
    rw [← Except.ok.inj h, hnil]
    exact ⟨rfl, .inl rfl⟩
  · simp only [Except.do_ok_iff, exists_const, failIf_eq_ok, Except.ok.injEq] at h
    obtain ⟨next, hnext, -, rfl⟩ := h
    refine ⟨?_, .inr ⟨next, hnext, ?_⟩⟩
    · apply List.ext_getElem <;> simp [Withdrawal.request]
    · apply List.ext_getElem <;> simp

/-- Assigned indices go on from the parent's line. -/
theorem assignedWithdrawals_indices (W : c.WellFormed E) (N : c.Numbered E)
    (hgenesis : E.genesis.block.paid = []) (hdb : ∀ h, db.blockByHash h = c.blocks h)
    (hparent : c.Mem E parent) (h : assignedWithdrawals db parent requests = .ok withdrawals) :
    (withdrawals.getD []).map (·.index) = (List.range requests.length).map ((c.indices parent).length + ·) := by
  obtain ⟨hrequests, rfl | ⟨next, hnext, hindices⟩⟩ := assignedWithdrawals_spec h
  · rw [List.map_eq_nil_iff.mp hrequests]
    rfl
  · rw [nextWithdrawalIndex_eq W N hgenesis hdb hparent le_rfl] at hnext
    split at hnext
    · cases hnext
    · rw [hindices, ← Except.ok.inj hnext]

end Walk

end Ethertest
