-- SUMMARY: How commands run: the controller's checks, outcomes of fallible parts, and the limits on responses.
import Ethertest.Builder
import Ethertest.Finality

/-!
# Commands

The single writer runs one command at a time. A command that fails before it commits
leaves the node as it was; one that fails after it has committed does not.
-/

namespace Ethertest

namespace Outcome

variable {σ α β : Type}

/-- A command that fails without a change. -/
def fail (n : Node σ) (err : Error) : Outcome σ α := ⟨n, .error err⟩

/-- A command that succeeds. -/
def done (n : Node σ) (value : α) (ctx : Ctx) : Outcome σ α := ⟨n, .ok (value, ctx)⟩

/-- Run a fallible preparation; its failure leaves the node as it is. -/
def settle (n : Node σ) (prepared : Except Error (Outcome σ α)) : Outcome σ α :=
  match prepared with
  | .ok outcome => outcome
  | .error err => fail n err

/-- Continue after a success. -/
def andThen (o : Outcome σ α) (next : Node σ → α → Ctx → Outcome σ β) : Outcome σ β :=
  match o.result with
  | .ok (value, ctx) => next o.node value ctx
  | .error err => fail o.node err

@[simp] theorem done_node (n : Node σ) (value : α) (ctx : Ctx) : (done n value ctx).node = n := rfl

@[simp] theorem settle_ok (n : Node σ) (o : Outcome σ α) : settle n (.ok o) = o := rfl

end Outcome

/-- The controller picks a write up: the caller's context and the write error are checked. -/
def Node.executeWrite {σ α : Type} (n : Node σ) (ctx : Ctx) (command : Node σ → Ctx → Outcome σ α) : Outcome σ α :=
  .settle n do
    let ctx ← ctx.check
    n.checkWrites
    .ok (command n ctx)

namespace Env

variable (E : Env) {α : Type}

/-- `checkFixedListResponse` -/
def checkFixedListResponse (resource : String) (count elementBytes : Nat) : Except Error Unit :=
  let requested :=
    if count = 0 then 2
    else if (maxUint64 - 1) / (elementBytes + 1) < count then maxUint64
    else 1 + count * (elementBytes + 1)
  failIf (E.cfg.limits.maxResponseBytes.toNat < requested)
    (.resourceLimit (resource ++ " response bytes") requested E.cfg.limits.maxResponseBytes.toNat)

/-- `count > MaxControlOperations` -/
def checkControlOperations (resource : String) (count : Nat) : Except Error Unit :=
  failIf (E.cfg.limits.maxControlOperations < count)
    (.resourceLimit resource count E.cfg.limits.maxControlOperations)

/-- Rebuild the pending view after a commit. A failure disables writes. -/
def rebuildAfterCommit (n : Node E.geth.State) (ctx : Ctx) (message : String) (value : α) :
    Outcome E.geth.State α :=
  match E.rebuildPendingView n ctx with
  | .ok (n', ctx') => .done n' value ctx'
  | .error err => .fail (n.disableWrites err) (.wrap message err)

end Env

end Ethertest
