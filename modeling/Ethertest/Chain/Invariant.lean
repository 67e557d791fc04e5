-- SUMMARY: The invariant of a chain, kept by every move and so by every run.
import Ethertest.Chain.Safety
import Ethertest.Chain.Replay

/-!
# The invariant of a chain

The parts are proved module by module. Together they are kept by every move, and hold in
every state that moves lead to.
-/

namespace Ethertest

namespace Chain

structure Inv (E : Env) (c : Chain) : Prop where
  wellFormed : WellFormed E c
  timeline : Timeline E c
  requests : Requests E c
  safety : Safety E c
  replay : Replay E c

variable {E : Env} {c c' : Chain}

theorem Inv.step (hE : E.Lawful) (I : Inv E c) (h : Step E c c') : Inv E c' where
  wellFormed := I.wellFormed.step hE h
  timeline := I.timeline.step hE I.wellFormed h
  requests := I.requests.step hE I.wellFormed h
  safety := I.safety.step hE I.wellFormed I.requests h
  replay := I.replay.step hE I.wellFormed h

theorem Inv.run (hE : E.Lawful) (I : Inv E c) (h : Relation.ReflTransGen (Step E) c c') : Inv E c' := by
  induction h with
  | refl => exact I
  | tail _ hstep ih => exact ih.step hE hstep

/-! ## What is recorded once stays -/

/-- Everything recorded about a stored block is the same later. -/
structure Keeps (E : Env) (c c' : Chain) : Prop where
  mem : ∀ {b}, c.Mem E b → c'.Mem E b
  slots : ∀ {b}, c.Mem E b → c'.slots (E.hash b) = c.slots (E.hash b)
  safety : ∀ {b}, c.Mem E b → c'.safety (E.hash b) = c.safety (E.hash b)
  records : ∀ {b}, c.Mem E b → c'.records (E.hash b) = c.records (E.hash b)

theorem Keeps.refl : Keeps E c c := ⟨id, fun _ => rfl, fun _ => rfl, fun _ => rfl⟩

theorem Keeps.trans {c'' : Chain} (h : Keeps E c c') (h' : Keeps E c' c'') : Keeps E c c'' where
  mem hb := h'.mem (h.mem hb)
  slots hb := (h'.slots (h.mem hb)).trans (h.slots hb)
  safety hb := (h'.safety (h.mem hb)).trans (h.safety hb)
  records hb := (h'.records (h.mem hb)).trans (h.records hb)

/-- The ancestors of a stored block are the same later. -/
theorem Keeps.line (W : WellFormed E c) (k : Keeps E c c') {b : Block} (hb : c.Mem E b) : c'.line b = c.line b := by
  refine W.tree.line_congr (fun a ha hne => ?_) hb
  obtain ⟨p, hp, hpm, -, hph⟩ := W.parent_eq ha hne
  rw [hp, parent, hph]
  exact k.mem hpm

/-- Recording a block, at the slot of its timestamp and with the next controls, changes
nothing that is recorded about a stored block, that block included. -/
theorem keeps_put (hE : E.Lawful) (I : Inv E c) {e : Entry} {queue remaining : ExecutionRequestQueue}
    (s : e.Sound E c queue remaining) (hslot : e.slot = E.slotAt e.block.time)
    (hfront : ∀ t, c.consumed E e.parent t ++ e.record.controls.get t <+: ofType c.issued t) :
    Keeps E c (c.put E e) where
  mem hb := (mem_put hE).mpr (.inl hb)
  slots := by
    intro b hb
    by_cases heq : E.hash b = e.hash E
    · obtain rfl := hE.blockHash_injective heq
      rw [I.timeline.slots hb]
      simp [put, hslot]
    · simp [put, Function.update_of_ne heq]
  safety hb := safety_put hE I.wellFormed I.requests I.safety s hfront hb
  records hb := records_put hE I.wellFormed I.requests s hfront hb

theorem Inv.keeps (hE : E.Lawful) (I : Inv E c) (h : Step E c c') : Keeps E c c' := by
  cases h with
  | extend sound head slot time =>
    have hslot : _ = E.slotAt _ := (E.slotAt_add_mul _).symm.trans (congrArg E.slotAt time.symm)
    have k := keeps_put hE I sound hslot (front_of_extend I.requests sound head)
    exact ⟨k.mem, k.slots, k.safety, k.records⟩
  | branch sound head time slot =>
    have k := keeps_put hE I sound slot (front_of_branch I.requests sound)
    exact ⟨k.mem, k.slots, k.safety, k.records⟩
  | move => exact ⟨id, fun _ => rfl, fun _ => rfl, fun _ => rfl⟩
  | wait => exact ⟨id, fun _ => rfl, fun _ => rfl, fun _ => rfl⟩
  | issue => exact ⟨id, fun _ => rfl, fun _ => rfl, fun _ => rfl⟩
  | point => exact ⟨id, fun _ => rfl, fun _ => rfl, fun _ => rfl⟩
  | fork => exact ⟨id, fun _ => rfl, fun _ => rfl, fun _ => rfl⟩
  | announce => exact ⟨id, fun _ => rfl, fun _ => rfl, fun _ => rfl⟩

theorem Inv.keeps_run (hE : E.Lawful) (I : Inv E c) (h : Relation.ReflTransGen (Step E) c c') : Keeps E c c' := by
  induction h with
  | refl => exact .refl
  | tail hrun hstep ih => exact ih.trans ((I.run hE hrun).keeps hE hstep)

end Chain

end Ethertest
