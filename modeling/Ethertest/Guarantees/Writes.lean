-- SUMMARY: What disables writes: a context that is cancelled after a commit, and the last slot that has a timestamp.
import Ethertest.Guarantees.Building

/-!
# Disabled writes

An operation that changes the head first commits and then rebuilds the pending view, with
what is left of its caller's context and for the slot after the new head's. A failure of the
second part disables all later writes, although what was committed is sound. If geth does its
part, there are two such failures: the context was cancelled after the commit, or the next slot
has no timestamp.
-/

namespace Ethertest

namespace Env

variable {E : Env} {Q : Policy E.geth.State} {n n' m : Node E.geth.State} {ctx ctx' : Ctx}

/-! ## The slot after the last -/

/-- An error of building the candidate for the node's database, slot and request queue. -/
structure Stopped (E : Env) (live : Prop) (n : Node E.geth.State) (err : Error) (m : Node E.geth.State) (ctx : Ctx) :
    Prop where
  db : m.db = n.db
  slot : m.slot = n.slot
  queue : m.pendingExecutionRequests = n.pendingExecutionRequests
  room : m.pendingWithdrawals.length ≤ maxWithdrawalsPerBlock
  failed : E.pendingCandidate m ctx m.pendingExecutionRequests = .error err
  live : live → ctx = none

/-- What is pending fits into a block, and if writes are disabled then by a failure to build
the candidate for the current state. -/
structure Explained (E : Env) (live : Prop) (n : Node E.geth.State) : Prop where
  room : n.pendingWithdrawals.length ≤ maxWithdrawalsPerBlock
  stopped : ∀ err, n.writeErr = some err → ∃ m ctx, Stopped E live n err m ctx

/-- Nothing needs to be explained while writes are accepted. -/
theorem Explained.enabled {live : Prop} (hwrites : n.writeErr = none)
    (room : n.pendingWithdrawals.length ≤ maxWithdrawalsPerBlock) : Explained E live n :=
  ⟨room, fun err herr => absurd (hwrites.symm.trans herr) (by simp)⟩

/-- What does not touch the database, the slot and the queue leaves the explanation. -/
theorem Explained.keep {live : Prop} (h : Explained E live n) (hdb : n'.db = n.db) (hslot : n'.slot = n.slot)
    (hqueue : n'.pendingExecutionRequests = n.pendingExecutionRequests) (hwrites : n'.writeErr = n.writeErr)
    (room : n'.pendingWithdrawals.length ≤ maxWithdrawalsPerBlock) : Explained E live n' := by
  refine ⟨room, fun err herr => ?_⟩
  obtain ⟨m, ctx, S⟩ := h.stopped err (hwrites ▸ herr)
  exact ⟨m, ctx, S.db.trans hdb.symm, S.slot.trans hslot.symm, S.queue.trans hqueue.symm, S.room, S.failed, S.live⟩

/-- A view that was rebuilt, over a node that differs from an explained one in memory. -/
theorem Explained.rebuildPendingView {live : Prop} (h : Explained E live n)
    (view : E.rebuildPendingView m ctx = .ok (n', ctx'))
    (hledger : m.toLedger = n.toLedger) (hwrites : m.writeErr = n.writeErr)
    (room : m.pendingWithdrawals.length ≤ maxWithdrawalsPerBlock) : Explained E live n' := by
  obtain ⟨candidate, -, rfl⟩ := rebuildPendingView_spec view
  have hslot : (m.setPendingView candidate).slot = n.slot := congrArg Ledger.slot hledger
  have hqueue : (m.setPendingView candidate).pendingExecutionRequests = n.pendingExecutionRequests :=
    congrArg Ledger.pendingExecutionRequests hledger
  exact h.keep (congrArg Ledger.db hledger) hslot hqueue hwrites room

/-- If the next block can be built, writes are disabled by a cancelled context. -/
theorem Explained.canceled {live : Prop} (X : Explained E live n)
    (hbuilds : ∀ m : Node E.geth.State, m.db = n.db → m.slot = n.slot →
      m.pendingExecutionRequests = n.pendingExecutionRequests → m.pendingWithdrawals.length ≤ maxWithdrawalsPerBlock →
      ∃ candidate, E.pendingCandidate m none m.pendingExecutionRequests = .ok (candidate, none))
    {err : Error} (herr : n.writeErr = some err) : err = .canceled ∧ ¬ live := by
  obtain ⟨m, ctx, S⟩ := X.stopped err herr
  obtain ⟨candidate, hcandidate⟩ := hbuilds m S.db S.slot S.queue S.room
  refine ⟨pendingCandidate_checks.canceled hcandidate S.failed, fun hlive => ?_⟩
  have hfailed := S.live hlive ▸ S.failed
  rw [hcandidate] at hfailed
  cases hfailed

end Env

namespace Reference

end Reference

end Ethertest
