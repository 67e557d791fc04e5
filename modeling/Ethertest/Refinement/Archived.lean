-- SUMMARY: What archives rely on beyond the mirror: the schema, the stored reasons, receipts and block numbers.
import Ethertest.Refinement.Mirror
import Ethertest.Refinement.Recorded

/-!
# What archives rely on

The schema version is written once. The reasons of the stored session are free of duplicates.
Every block after the genesis has its receipts, and a number that fits into 64 bits.
-/

namespace Ethertest

structure Db.Archived (E : Env) (db : Db) : Prop where
  schema : db.get .stateSchema = some (.version currentMetadataFormat)
  session : ∀ {s}, db.get .sessionSafety = some (.session s) → s.reasons.Nodup
  receipts : ∀ {b}, db.blockByHash (E.hash b) = some b → b ≠ E.genesis.block →
    ∃ receipts, db.get (.receipts (E.hash b)) = some (.receipts receipts)
  numbers : ∀ {h b}, db.blockByHash h = some b → b.number ≤ maxUint64

private theorem nodup_sessionSafety (l : Ledger) : l.sessionSafety.reasons.Nodup :=
  (Std.ExtTreeMap.nodup_keys : l.taintReasons.keys.Nodup)

/-- The reasons of the session after a block tainted it. -/
theorem nodup_taintStoredSession {l : Ledger} {safety : BlockSafety} {reasons : List TaintReason} :
    (taintStoredSession l.sessionSafety safety reasons).reasons.Nodup :=
  (List.perm_insertionSort _ _).nodup_iff.mpr (nodup_addReasons (nodup_sessionSafety l))

namespace Env

variable {E : Env} {Q : Guard E.geth.State} {n n' : Node E.geth.State} {x : Extension} {changes : Option ControlChanges}

/-! ## Numbers -/

theorem generateBlock_number {ctx ctx' : Ctx} {parent : Block} {time : Nat} {root : Hash} {txs : List Transaction}
    {withdrawals : Option (List Withdrawal)} {skipInvalid : Bool} {extra : Bytes} {state : E.geth.State}
    {coinbase : Address} {g : Generated E.geth.State}
    (h : E.generateBlock ctx parent time root txs withdrawals skipInvalid extra state coinbase = .ok (g, ctx')) :
    parent.number < maxUint64 := by
  simp only [generateBlock, Except.do_ok_iff, exists_const, failIf_eq_ok] at h
  obtain ⟨_, -, hnumber, -⟩ := h
  omega

theorem Planning.number_lt (h : Planning E n x changes) : x.parent.number < maxUint64 := by
  cases h with
  | mine plan =>
    obtain ⟨parent, projection, built, p, receipts, stored, put, committed, hhead, -, hbuild, -, -, -, -, -, -, rfl⟩ :=
      planMine_ok plan
    simp only [buildBlock, buildBlockAtSlot, Except.do_ok_iff, exists_const, failIf_eq_ok] at hbuild
    obtain ⟨-, parent', hhead', withdrawals, -, txs, -, -, -, state, -, ⟨g, ctx₁⟩, hgen, -⟩ := hbuild
    obtain rfl : parent = parent' := Except.ok.inj (hhead.symm.trans hhead')
    exact generateBlock_number hgen
  | control plan =>
    obtain ⟨parent, projection, withdrawals, state, g, ctx₁, block, overridden, p, receipts, stored, put, committed,
      -, -, -, -, hgen, -, -, -, -, -, -, -, rfl⟩ := planControl_ok plan
    exact generateBlock_number hgen
  | branch plan =>
    simp only [planBranch, Except.do_ok_iff, Except.ok.injEq, Prod.mk.injEq] at plan
    obtain ⟨ctx₀, -, parent, -, projection, -, -, -, state, -, ⟨g, ctx₁⟩, hgen, p, -, receipts, -, committed, -, -, -,
      stored, -, put, -, rfl, -⟩ := plan
    exact generateBlock_number hgen

/-! ## Moves -/

/-- What a move does to the schema version and to the stored session. -/
theorem Move.session (hE : E.Lawful) (I : n.toLedger.Inv E) (h : E.Move Q n n') :
    n'.db.get .stateSchema = n.db.get .stateSchema ∧
      (n'.db.get .sessionSafety = n.db.get .sessionSafety ∨
        ∃ s, n'.db.get .sessionSafety = some (.session s) ∧ s.reasons.Nodup) := by
  have W := I.chain.wellFormed
  cases h with
  | @mine _ _ _ x plan commit =>
    have p := planMine_spec hE W plan
    obtain ⟨events, hplan, hdb, -⟩ := commitPrepared_db (fun _ => mineApply_db) commit
    rw [hdb]
    refine ⟨get_mine hE W p hplan rfl, ?_⟩
    rw [get_mine hE W p hplan rfl, mineWrites]
    split
    · next hcontrolled =>
      refine .inr ⟨_, rfl, ?_⟩
      rw [Extension.mineSession, if_pos hcontrolled]
      exact nodup_taintStoredSession
    · exact .inl rfl
  | @control _ _ changes x plan commit =>
    have p := planControl_spec hE W plan
    obtain ⟨events, hplan, hdb, -⟩ := commitPrepared_db (fun _ => controlApply_db) commit
    rw [hdb]
    exact ⟨get_control hE W p hplan rfl, .inr ⟨_, get_control hE W p hplan rfl, nodup_taintStoredSession⟩⟩
  | @branch _ _ _ item x named plan commit =>
    have p := planBranch_spec hE W plan
    obtain ⟨events, hplan, hdb, -⟩ := commitPrepared_db (fun _ => branchApply_db) commit
    rw [hdb]
    exact ⟨get_branch hE p hplan rfl, .inl (get_branch hE p hplan rfl)⟩
  | switch known allowed plan commit =>
    obtain ⟨hmem, -⟩ := switch_target W known
    obtain ⟨events, hplan, hdb, -⟩ := commitPrepared_db (fun _ => switchApply_db) commit
    rw [hdb]
    exact ⟨get_switch hE W hmem hplan rfl (by simp), .inl (get_switch hE W hmem hplan rfl (by simp))⟩
  | note note => exact ⟨note.aside.get rfl, .inl (note.aside.get rfl)⟩
  | other same =>
    rw [same]
    exact ⟨rfl, .inl rfl⟩

/-- A move keeps what archives rely on. -/
theorem Move.archived (hE : E.Lawful) (I : n.toLedger.Inv E) (A : n.db.Archived E) (h : E.Move Q n n') :
    n'.db.Archived E := by
  obtain ⟨hschema, hsession⟩ := h.session hE I
  have hnodup : ∀ {s}, n'.db.get .sessionSafety = some (.session s) → s.reasons.Nodup := by
    intro s hs
    rcases hsession with hsame | ⟨s', hs', hnodup⟩
    · exact A.session (hsame.symm.trans hs)
    · rw [hs', Option.some.injEq, Value.session.injEq] at hs
      exact hs ▸ hnodup
  rcases h.records hE I with ⟨x, changes, hplanning, hrecorded⟩ | hsame
  · obtain ⟨queue, p⟩ := hplanning.planned hE I.chain.wellFormed
    refine ⟨hschema.trans A.schema, hnodup, fun {b} hb hne => ?_, fun {h b} hb => ?_⟩
    · rw [hrecorded.receipts]
      split
      · exact ⟨_, rfl⟩
      · next hother =>
        rw [hrecorded.blocks, Function.update_of_ne (Ne.symm hother)] at hb
        exact A.receipts hb hne
    · rw [hrecorded.blocks, Function.update_apply] at hb
      split at hb
      · obtain rfl := Option.some.inj hb
        have hnumber : x.block.number = x.parent.number + 1 := p.sound.number
        have := hplanning.number_lt
        omega
      · exact A.numbers hb
  · refine ⟨hschema.trans A.schema, hnodup, fun hb hne => ?_, fun hb => ?_⟩
    · rw [hsame.blocks] at hb
      rw [hsame.receipts]
      exact A.receipts hb hne
    · rw [hsame.blocks] at hb
      exact A.numbers hb

private theorem archived_newNode (hE : E.Lawful) (h : E.newNode = .ok n) : n.db.Archived E := by
  obtain ⟨projection, record, -, -, hledger⟩ := newNode_spec h
  rw [hledger]
  have hget {k : Key} (hk : k.own) : (E.startDb projection record).get k =
      (Store.lastWrite (Store.puts (E.startPuts projection record)) k).getD none := startDb_get_own hE hk
  simp only [startPuts, timelinePut, sessionSafetyPut, canonicalSlotPut, blockSlotPut, blockSafetyPut] at hget
  have hblock {h : Hash} {b : Block} (hb : (E.startDb projection record).blockByHash h = some b) :
      b = E.genesis.block := by
    rw [startDb_blockByHash hE] at hb
    split at hb
    · exact (Option.some.inj hb).symm
    · cases hb
  refine ⟨(hget rfl).trans (by simp), fun {s} hs => ?_, fun hb hne => absurd (hblock hb) hne, fun hb => ?_⟩
  · have hfresh : (E.startDb projection record).get .sessionSafety = some (.session E.freshLedger.sessionSafety) :=
      (hget rfl).trans (by simp)
    rw [hfresh, Option.some.injEq, Value.session.injEq] at hs
    exact hs ▸ nodup_sessionSafety E.freshLedger
  · rw [hblock hb, E.genesis_number]
    exact Nat.zero_le _

theorem ReachableBy.archived {P : Node E.geth.State → Command → Prop} (hE : E.Lawful) (h : E.ReachableBy P n) :
    n.db.Archived E :=
  h.invariant (X := fun n => n.db.Archived E) hE (fun _ => guarded_any) (archived_newNode hE) fun I A hmove =>
    hmove.archived hE I A

end Env

end Ethertest
