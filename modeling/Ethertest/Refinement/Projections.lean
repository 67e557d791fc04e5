-- SUMMARY: Stored Beacon projections pass their own check, and the root of a block's projection never changes.
import Ethertest.Refinement.Recorded

/-!
# Stored projections

A projection is checked against the object it holds whenever it is loaded. What a node
stores passes that check. A block that is recorded again gets the projection it has.
-/

namespace Ethertest

/-- What a stored projection is checked for. -/
structure StoredProjection.Valid (G : Geth) (p : StoredProjection) : Prop where
  format : p.format = projectionFormat
  root : G.messageRoot p.signed = .ok p.root
  slot : p.signed.slot = p.slot
  parentRoot : p.signed.parentRoot = p.parentRoot

theorem loadProjection_eq_some {G : Geth} {db : Db} {hash : Hash} {p : StoredProjection} :
    loadProjection G db hash = .ok (some p) ↔ db.get (.projection hash) = some (.projection p) ∧ p.Valid G := by
  unfold loadProjection
  split
  · next h => simp [h]
  · next record h =>
    simp only [Except.do_ok_iff, exists_const, failIf_eq_ok, not_not, not_or, Except.ok.injEq, Option.some.injEq, h,
      Value.projection.injEq]
    constructor
    · rintro ⟨hformat, root, hroot, ⟨rfl, hslot, hparent⟩, rfl⟩
      exact ⟨rfl, hformat, hroot, hslot, hparent⟩
    · rintro ⟨rfl, V⟩
      exact ⟨V.format, _, V.root, ⟨rfl, V.slot, V.parentRoot⟩, rfl⟩
  · next value hne h =>
    constructor
    · intro h'
      cases h'
    · rintro ⟨h', -⟩
      rw [h] at h'
      exact absurd (Option.some.inj h') (hne p)

namespace Env

variable {E : Env} {n n' : Node E.geth.State} {block : Block} {requests : Option ExecutionRequests}

variable {p : StoredProjection} {signed : ConsensusBlock}

theorem ensureProjection_eq_ok :
    E.ensureProjection n block = .ok p ↔
      n.db.get (.projection (E.hash block)) = some (.projection p) ∧ p.Valid E.geth := by
  simp only [ensureProjection, Except.do_ok_iff, orFail_eq_ok, exists_eq_right, loadProjection_eq_some]

private theorem buildSigned_slot {parentRoot : Hash} (h : E.buildSigned n block requests parentRoot = .ok signed) :
    signed.slot = n.slotOf E block := by
  simp only [buildSigned, Except.do_ok_iff] at h
  obtain ⟨commitments, -, h⟩ := h
  split at h
  · simp only [Except.do_ok_iff, Except.ok.injEq] at h
    obtain ⟨-, -, -, -, rfl⟩ := h
    rfl
  · rw [← Except.ok.inj h]
  · rw [← Except.ok.inj h]

/-- The object of a block's projection is the stored one, or is built for the block's slot. -/
theorem signedBlock_cases (h : E.signedBlock n block requests = .ok signed) :
    (∃ p, loadProjection E.geth n.db (E.hash block) = .ok (some p) ∧ signed = p.signed) ∨
    loadProjection E.geth n.db (E.hash block) = .ok none ∧ signed.slot = n.slotOf E block := by
  simp only [signedBlock, Except.do_ok_iff] at h
  obtain ⟨stored, hload, h⟩ := h
  split at h
  · next p => exact .inl ⟨p, hload, (Except.ok.inj h).symm⟩
  · simp only [Except.do_ok_iff] at h
    obtain ⟨-, -, h⟩ := h
    refine .inr ⟨hload, ?_⟩
    split at h
    · exact buildSigned_slot h
    · simp only [Except.do_ok_iff] at h
      obtain ⟨parent, -, root, -, h⟩ := h
      exact buildSigned_slot h

private theorem projectionRecord_ok (h : E.projectionRecord n block requests = .ok p) :
    E.signedBlock n block requests = .ok p.signed ∧ E.geth.messageRoot p.signed = .ok p.root ∧
      p.format = projectionFormat ∧ p.slot = n.slotOf E block ∧ p.signed.parentRoot = p.parentRoot := by
  simp only [projectionRecord, Except.do_ok_iff, Except.ok.injEq] at h
  obtain ⟨signed, hsigned, root, hroot, rfl⟩ := h
  exact ⟨hsigned, hroot, rfl, rfl, rfl⟩

theorem projectionPut_ok (h : E.projectionPut n block requests = .ok p) :
    E.projectionRecord n block requests = .ok p := by
  simp only [projectionPut, Except.do_ok_iff] at h
  obtain ⟨record, hrecord, h⟩ := h
  split at h
  · simp only [Except.do_ok_iff, Except.ok.injEq] at h
    obtain ⟨-, -, rfl⟩ := h
    exact hrecord
  · rw [← Except.ok.inj h]
    exact hrecord

/-- A projection that is built for its block's slot, or taken from the database, is valid. -/
theorem projectionRecord_valid (h : E.projectionRecord n block requests = .ok p)
    (hstored : ∀ q, n.db.get (.projection (E.hash block)) = some (.projection q) → q.slot = n.slotOf E block) :
    p.Valid E.geth := by
  obtain ⟨hsigned, hroot, hformat, hslot, hparent⟩ := projectionRecord_ok h
  refine ⟨hformat, hroot, ?_, hparent⟩
  rcases signedBlock_cases hsigned with ⟨q, hload, heq⟩ | ⟨-, hbuilt⟩
  · obtain ⟨hget, V⟩ := loadProjection_eq_some.mp hload
    rw [heq, V.slot, hstored q hget, hslot]
  · exact hbuilt.trans hslot.symm

/-- Projecting a block again gives the same root. -/
theorem projectionRecord_root {q : StoredProjection} (h : E.projectionRecord n block requests = .ok p)
    (hq : loadProjection E.geth n.db (E.hash block) = .ok (some q)) : p.root = q.root := by
  obtain ⟨hsigned, hroot, -⟩ := projectionRecord_ok h
  rcases signedBlock_cases hsigned with ⟨q', hload, heq⟩ | ⟨hload, -⟩ <;> rw [hq] at hload
  · obtain rfl := Option.some.inj (Except.ok.inj hload)
    have hroots := (loadProjection_eq_some.mp hq).2.root
    rw [← heq, hroot] at hroots
    exact Except.ok.inj hroots
  · cases Except.ok.inj hload

/-- All stored projections are valid. -/
def Projected (E : Env) (db : Db) : Prop :=
  ∀ h p, db.get (.projection h) = some (.projection p) → p.Valid E.geth

/-- A stored projection is for the slot of its block. -/
theorem projection_slot (hE : E.Lawful) (I : n.toLedger.Inv E)
    (h : n.db.get (.projection (E.hash block)) = some (.projection p)) : p.slot = n.slotOf E block := by
  have hprojection : n.chain.projections (E.hash block) = some p := by
    change n.db.projection (E.hash block) = some p
    rw [Db.projection, h]
  have W := I.chain.wellFormed
  obtain ⟨b, hb, hhash⟩ := W.mem_of_isSome ((W.projections _).mp (Option.isSome_iff_exists.mpr ⟨p, hprojection⟩))
  obtain rfl := hE.blockHash_injective hhash
  have hslots := I.chain.timeline.slots hb
  rw [I.chain.timeline.projections hb hprojection, n.toLedger.slotOf_eq, Chain.slotOf, hslots]
  rfl

variable {Q : Guard E.geth.State}

theorem Move.projected (hE : E.Lawful) (I : n.toLedger.Inv E) (P : E.Projected n.db) (h : E.Move Q n n') :
    E.Projected n'.db := by
  intro hash p hget
  rcases h.records hE I with ⟨x, changes, planning, R⟩ | U
  · rw [R.projections] at hget
    split at hget
    · obtain rfl := Value.projection.inj (Option.some.inj hget)
      exact projectionRecord_valid (projectionPut_ok planning.projection) fun q hq => projection_slot hE I hq
    · exact P hash p hget
  · rw [U.projections] at hget
    exact P hash p hget

/-- The root of a stored block's projection stays. -/
theorem Move.projection_root (hE : E.Lawful) (I : n.toLedger.Inv E) (P : E.Projected n.db)
    (h : E.Move Q n n') {hash : Hash} (hget : n.db.get (.projection hash) = some (.projection p)) :
    ∃ p', n'.db.get (.projection hash) = some (.projection p') ∧ p'.root = p.root := by
  rcases h.records hE I with ⟨x, changes, planning, R⟩ | U
  · by_cases heq : x.hash E = hash
    · subst heq
      refine ⟨x.projection, (R.projections _).trans (if_pos rfl), ?_⟩
      exact projectionRecord_root (projectionPut_ok planning.projection)
        (loadProjection_eq_some.mpr ⟨hget, P _ _ hget⟩)
    · exact ⟨p, ((R.projections _).trans (if_neg heq)).trans hget, rfl⟩
  · exact ⟨p, (U.projections _).trans hget, rfl⟩

end Env

end Ethertest
