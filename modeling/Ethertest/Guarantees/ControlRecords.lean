-- SUMMARY: The record of a control block replays to its state root, unless it sets an account's code to nothing.
import Ethertest.Control.Expansion
import Ethertest.Control.Reference
import Ethertest.Guarantees.Withdrawals

/-!
# Control records

`VerifyControlRecord` executes a control block again and applies the changes that its record
holds. They are the changes that were executed, with one exception: code that is set to
nothing is stored as null and is read back as no change.
-/

namespace Ethertest

namespace Env

variable {E : Env} {n n' : Node E.geth.State} {ctx ctx' : Ctx}

/-! ## The effect of decoded changes -/

section Amsterdam

variable (L : E.Accounts) {parent : Block} {time : Nat} {root : Hash} {withdrawals : Option (List Withdrawal)}
  {coinbase : Address} {s s₁ s₂ : E.geth.State} {g : Generated E.geth.State} {changes expanded : ControlChanges}

end Amsterdam

/-! ## Replays -/

end Env

namespace Reference

/-- The changes that give an account some code. -/
def codeChange (code : Bytes) : ControlChanges := (∅ : ControlChanges).insert 7 { code := some (some code) }

/-- The node after one control block. -/
def controlled (changes : ControlChanges) : Node Holdings := accountEnv.step accountStart ⟨.applyControl changes, none⟩

/-- The hash of a node's head. -/
def headHash (n : Node Holdings) : Hash := (n.db.currentBlock.map accountEnv.hash).getD 0

end Reference

end Ethertest
