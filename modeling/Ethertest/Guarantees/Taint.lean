-- SUMMARY: Taint of every reachable node: exact for every lineage, and for the session as a whole.
import Ethertest.Guarantees.Timeline

/-!
# Taint of reachable nodes

A block is unsafe by itself if it overrides state or contains execution-request controls.
Its safety record sums this up over its ancestors, and the session's over all blocks.
-/

namespace Ethertest

/-- The block's own reasons for taint: a control record, and recorded controls. -/
def Db.unsafeReasons (db : Db) (hash : Hash) : List TaintReason :=
  (if db.has (.control hash) then [.controlStateOverride] else []) ++
    (if (db.record hash).elim 0 (fun record => record.controls.count) = 0 then [] else [.executionRequestControl])

/-- The safety record is exact for a line of blocks, given with the newest first. -/
structure BlockSafety.Exact (E : Env) (db : Db) (line : List Block) (s : BlockSafety) : Prop where
  tainted : s.tainted = true ↔ ∃ a ∈ line, db.unsafeReasons (E.hash a) ≠ []
  first : s.firstUnsafeBlock = (line.reverse.find? fun a => db.unsafeReasons (E.hash a) ≠ []).map E.hash
  reasons : ∀ r, r ∈ s.reasons ↔ ∃ a ∈ line, r ∈ db.unsafeReasons (E.hash a)
  /-- sorted and free of duplicates -/
  sorted : s.reasons.Pairwise fun a b => a.rank < b.rank

/-- The safety records and the session's record are exact. -/
structure Ledger.TaintExact (E : Env) (l : Ledger) : Prop where
  known : ∀ h : Hash, l.blockSafety[h]?.isSome ↔ (l.db.blockByHash h).isSome
  blocks : ∀ {h : Hash} {b : Block} {s : BlockSafety}, l.db.blockByHash h = some b → l.blockSafety[h]? = some s →
    s.Exact E l.db (l.db.line b)
  session : l.sessionTainted = true ↔ ∃ (h : Hash) (s : BlockSafety), l.blockSafety[h]? = some s ∧ s.tainted = true
  reasons : ∀ r : TaintReason, l.taintReasons[r]?.isSome ↔ ∃ h b, l.db.blockByHash h = some b ∧ r ∈ l.db.unsafeReasons h

/-- The session's record has not shrunk, and no block was forgotten. -/
structure Ledger.TaintGrows (l l' : Ledger) : Prop where
  tainted : l.sessionTainted = true → l'.sessionTainted = true
  reasons : ∀ r : TaintReason, l.taintReasons[r]?.isSome → l'.taintReasons[r]?.isSome
  blocks : ∀ {h b}, l.db.blockByHash h = some b → l'.db.blockByHash h = some b

namespace Ledger

variable {E : Env} {l : Ledger}

theorem unsafeReasons_eq (h : Hash) : l.db.unsafeReasons h = l.chain.reasonsOf h := by
  classical
  unfold Db.unsafeReasons Chain.reasonsOf Chain.recordOf
  congr 1
  · exact if_congr Iff.rfl rfl rfl
  · change (if (l.db.record h).elim 0 _ = 0 then _ else _) =
      if ((l.db.record h).getD _).controls.count = 0 then _ else _
    cases l.db.record h <;> rfl

theorem Inv.taintExact (I : l.Inv E) : l.TaintExact E := by
  have W := I.chain.wellFormed
  have S := I.chain.safety
  refine
    { known := W.safety
      blocks := fun {h b s} hb hs => ?_
      session := ?_
      reasons := fun r => (S.reasons r).trans ?_ }
  · obtain ⟨hmem, rfl⟩ := W.mem_of_blocks hb
    have L := S.lineSafety W I.chain.requests hmem
    have hs : l.chain.safetyOf (E.hash b) = s := by
      change (l.blockSafety[E.hash b]?).getD {} = s
      rw [hs]
      rfl
    rw [hs] at L
    refine ⟨?_, ?_, fun r => ?_, L.sorted⟩
    · simp only [unsafeReasons_eq]
      exact L.tainted
    · simp only [unsafeReasons_eq]
      exact L.first
    · simp only [unsafeReasons_eq]
      exact L.reasons r
  · refine S.tainted.trans ⟨?_, ?_⟩
    · rintro ⟨b, hb, hreasons⟩
      obtain ⟨s, hs⟩ := Option.isSome_iff_exists.mp ((W.safety (E.hash b)).mpr (Option.isSome_of_mem hb))
      refine ⟨E.hash b, s, hs, ?_⟩
      have L := S.lineSafety W I.chain.requests hb
      rw [Chain.safetyOf, hs, Option.getD_some] at L
      exact L.tainted.mpr ⟨b, Ancestry.Tree.self_mem_line b, hreasons⟩
    · rintro ⟨h, s, hs, htainted⟩
      obtain ⟨b, hb⟩ := Option.isSome_iff_exists.mp ((W.safety h).mp (Option.isSome_of_mem hs))
      obtain ⟨hmem, rfl⟩ := W.mem_of_blocks hb
      have L := S.lineSafety W I.chain.requests hmem
      rw [Chain.safetyOf, show l.chain.safety (E.hash b) = some s from hs, Option.getD_some] at L
      obtain ⟨a, ha, hreasons⟩ := L.tainted.mp htainted
      exact ⟨a, W.tree.mem_of_mem_line hmem ha, hreasons⟩
  · constructor
    · rintro ⟨b, hb, hr⟩
      exact ⟨E.hash b, b, hb, unsafeReasons_eq (l := l) _ ▸ hr⟩
    · rintro ⟨h, b, hb, hr⟩
      obtain ⟨hmem, rfl⟩ := W.mem_of_blocks hb
      exact ⟨b, hmem, unsafeReasons_eq (l := l) _ ▸ hr⟩

/-- Taint grows along a run of the chain. -/
theorem taintGrows_of_steps (hE : E.Lawful) {l' : Ledger} (I : l.chain.Inv E)
    (h : Relation.ReflTransGen (Chain.Step E) l.chain l'.chain) : l.TaintGrows l' := by
  have hgrows : ∀ {c : Chain}, Relation.ReflTransGen (Chain.Step E) l.chain c →
      c.Inv E ∧ (l.chain.session.tainted = true → c.session.tainted = true) ∧
        l.chain.session.reasons ⊆ c.session.reasons ∧ ∀ {b}, l.chain.Mem E b → c.Mem E b := by
    intro c hc
    induction hc with
    | refl => exact ⟨I, id, subset_rfl, id⟩
    | tail _ hstep ih =>
      obtain ⟨hI, htainted, hreasons, hmem⟩ := ih
      have hmono := Chain.session_mono hstep
      exact ⟨hI.step hE hstep, fun ht => hmono.1 (htainted ht), hreasons.trans hmono.2,
        fun hb => (hI.keeps hE hstep).mem (hmem hb)⟩
  obtain ⟨-, htainted, hreasons, hmem⟩ := hgrows h
  refine ⟨htainted, fun r hr => hreasons hr, fun {hash b} hb => ?_⟩
  obtain ⟨hb, rfl⟩ := I.wellFormed.mem_of_blocks hb
  exact hmem hb

end Ledger

/-- Every move of a node lets taint only grow. -/
theorem Env.Move.taintGrows {E : Env} (hE : E.Lawful) {Q : Guard E.geth.State} {n n' : Node E.geth.State}
    (I : n.toLedger.Inv E) (h : E.Move Q n n') : n.toLedger.TaintGrows n'.toLedger :=
  Ledger.taintGrows_of_steps hE I.chain (h.simulates hE I)

/-- So does every run of moves. -/
theorem Env.Move.run_taintGrows {E : Env} (hE : E.Lawful) {Q : Guard E.geth.State} {n n' : Node E.geth.State}
    (I : n.toLedger.Inv E) (h : Relation.ReflTransGen (E.Move Q) n n') : n.toLedger.TaintGrows n'.toLedger := by
  induction h with
  | refl => exact ⟨id, fun _ => id, id⟩
  | tail hrun hmove ih =>
    have g := hmove.taintGrows hE (Move.run_inv hE I hrun)
    exact ⟨fun ht => g.tainted (ih.tainted ht), fun r hr => g.reasons r (ih.reasons r hr),
      fun hb => g.blocks (ih.blocks hb)⟩

/-- Taint is exact in every reachable node, and no operation lets it shrink. -/
theorem reachable_taintExact {E : Env} (hE : E.Lawful) {n : Node E.geth.State} (h : E.Reachable n) :
    n.toLedger.TaintExact E ∧ ∀ c, n.toLedger.TaintGrows (E.step n c).toLedger :=
  ⟨(h.inv hE).taintExact, fun _ => Env.Move.run_taintGrows hE (h.inv hE) (Env.moves_step Env.guarded_any)⟩

/-- The control block is left behind: the head's line has only the reason of its own controls,
the session has both. -/
theorem reachable_taintExact_reference :
    let n := Reference.run Reference.reorg
    (n.toLedger.TaintExact Reference.env ∧ ∀ c, n.toLedger.TaintGrows (Reference.env.step n c).toLedger) ∧
    (n.safetyOf (Reference.run (Reference.reorg.take 8)).db.headHash).reasons =
      [.controlStateOverride, .executionRequestControl] ∧
    (n.safetyOf (Reference.run (Reference.reorg.take 11)).db.headHash).tainted = false ∧
    (n.safetyOf n.db.headHash).reasons = [.executionRequestControl] ∧
    (n.safetyOf n.db.headHash).firstUnsafeBlock = some n.db.headHash ∧ n.taintReasons.size = 2 :=
  ⟨reachable_taintExact Reference.lawful (Reference.reachable_run _), by decide +kernel, by decide +kernel,
    by decide +kernel, by decide +kernel, by decide +kernel⟩

end Ethertest
