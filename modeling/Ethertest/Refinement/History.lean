-- SUMMARY: The prepared commits that a move records.
import Ethertest.Refinement.Moves

/-!
# Recorded commits

Four kinds of moves commit a prepared operation: mining, control blocks, branch blocks and
switches. The others write the node's own metadata in one batch, or nothing.
-/

namespace Ethertest

namespace Env

variable {E : Env} {Q : Guard E.geth.State} {n n' : Node E.geth.State}

/-- The commits of prepared operations that a node can make. -/
inductive Commits (E : Env) (n : Node E.geth.State) : Commit → Prop
  | mine {ctx ctx' : Ctx} {empty : Bool} {x : Extension} {events : EventPlan}
      (plan : E.planMine n ctx empty = .ok (x, ctx')) (hplan : n.events.plan (E.mineEvents n x) = .ok events) :
      Commits E n (commitOf n (E.mineOperation n x) events (.extend x.block x.receipts))
  | control {ctx ctx' : Ctx} {changes : ControlChanges} {x : Extension} {events : EventPlan}
      (plan : E.planControl n ctx changes = .ok (x, ctx'))
      (hplan : n.events.plan (E.controlEvents n x) = .ok events) :
      Commits E n (commitOf n (E.controlOperation n x changes) events (.extend x.block x.receipts))
  | branch {ctx ctx' : Ctx} {name : Bytes} {item : Branch} {x : Extension} {events : EventPlan}
      (named : n.branches[name]? = some item) (plan : E.planBranch n ctx item = .ok (x, ctx'))
      (hplan : n.events.plan [] = .ok events) :
      Commits E n (commitOf n (E.branchOperation n item x) events (.store x.block x.receipts))
  | switch {target : Block} {slot : Nat} {w : Switch} {events : EventPlan}
      (known : (∃ h, n.db.blockByHash h = some target) ∧ slot = n.slotOf E target ∨
        ∃ p : ChainPoint, n.db.readBlock p.hash p.number = some target ∧ slot = p.slot ∧ p.place ∈ n.chain.points)
      (plan : E.planSwitch n target slot = .ok w)
      (hplan : n.events.plan (w.events E n.toLedger) = .ok events) :
      Commits E n (commitOf n (w.operation E n.toLedger) events (.setHead target))

/-- A move records at most one commit, and the database is then what the commit leaves. -/
theorem Move.recorded (h : E.Move Q n n') :
    n'.history.commits = n.history.commits ∨
      ∃ c, Commits E n c ∧ n'.history.commits = n.history.commits ++ [c] ∧ n'.db = c.after E.geth := by
  cases h with
  | mine plan commit =>
    obtain ⟨eplan, hplan, hdb, hcommits⟩ := commitPrepared_db (fun _ => mineApply_db) commit
    exact .inr ⟨_, .mine plan hplan, hcommits, hdb⟩
  | control plan commit =>
    obtain ⟨eplan, hplan, hdb, hcommits⟩ := commitPrepared_db (fun _ => controlApply_db) commit
    exact .inr ⟨_, .control plan hplan, hcommits, hdb⟩
  | branch named plan commit =>
    obtain ⟨eplan, hplan, hdb, hcommits⟩ := commitPrepared_db (fun _ => branchApply_db) commit
    exact .inr ⟨_, .branch named plan hplan, hcommits, hdb⟩
  | switch known allowed plan commit =>
    obtain ⟨eplan, hplan, hdb, hcommits⟩ := commitPrepared_db (fun _ => switchApply_db) commit
    exact .inr ⟨_, .switch known plan hplan, hcommits, hdb⟩
  | note note => exact .inl note.aside.commits
  | other same => exact .inl (by rw [same])

theorem commitPrepared_issued {operation : PreparedOperation} {events : List Event} {mutation : Mutation}
    {apply : Node E.geth.State → Node E.geth.State} (h : E.commitPrepared n operation events mutation apply = .ok n')
    (happly : ∀ m, m.history = n.history → (apply m).history.issued = n.history.issued) :
    n'.history.issued = n.history.issued := by
  obtain ⟨-, plan, -, applied, rfl, rfl⟩ := commitPrepared_spec h
  exact happly _ rfl

/-- A move that may not issue a control does not. -/
theorem Move.issued (h : E.Move Q n n') (hQ : ¬ Q.issue) : n'.history.issued = n.history.issued := by
  cases h with
  | mine plan commit => exact commitPrepared_issued commit fun _ hm => congrArg History.issued (mineApply_db.2.trans hm)
  | control plan commit => exact commitPrepared_issued commit fun _ hm => congrArg History.issued hm
  | branch named plan commit => exact commitPrepared_issued commit fun _ hm => congrArg History.issued hm
  | switch known allowed plan commit => exact commitPrepared_issued commit fun _ hm => congrArg History.issued hm
  | note note => exact note.aside.issued hQ
  | other same => exact congrArg (fun l : Ledger => l.history.issued) same

end Env

end Ethertest
