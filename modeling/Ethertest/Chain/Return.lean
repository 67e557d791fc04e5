-- SUMMARY: A chain that returns to an earlier head and slot is the earlier chain, with the later requests pending.
import Ethertest.Chain.Invariant

/-!
# Returning to an earlier point

A run that leads back to an earlier head and slot passed through other lineages. What the
head and the slot determine is as it was: the line of the head, the slot index, and what
the line consumed. So the queue is the earlier one, followed by what was issued since.
-/

namespace Ethertest

namespace Chain

variable {E : Env} {c c' : Chain}

/-- What was issued stays issued. -/
theorem issued_step (h : Step E c c') : ∃ later, c'.issued = c.issued ++ later := by
  cases h with
  | issue size => exact ⟨_, rfl⟩
  | _ => exact ⟨[], (List.append_nil _).symm⟩

theorem issued_run (h : Relation.ReflTransGen (Step E) c c') : ∃ later, c'.issued = c.issued ++ later := by
  induction h with
  | refl => exact ⟨[], (List.append_nil _).symm⟩
  | tail _ hstep ih =>
    obtain ⟨earlier, hearlier⟩ := ih
    obtain ⟨later, hlater⟩ := issued_step hstep
    exact ⟨earlier ++ later, by rw [hlater, hearlier, List.append_assoc]⟩

/-- The line that indexes a chain determines the index. -/
theorem Indexes.unique {index index' : Nat → Option Hash} {line : List Block} (h : Indexes E index line)
    (h' : Indexes E index' line) : index = index' := by
  funext slot
  refine Option.ext fun hash => ?_
  rw [h slot hash, h' slot hash]

/-- What a run leads back to. -/
structure Returned (E : Env) (c c' : Chain) : Prop where
  head : c'.head = c.head
  line : ∀ {b}, c.IsHead E b → c'.IsHead E b ∧ c'.line b = c.line b
  slot : c'.slot = c.slot
  processed : c'.processed = c.processed
  index : c'.index = c.index
  queue : ∃ later, c'.issued = c.issued ++ later ∧ ∀ t, c'.queue.get t = c.queue.get t ++ ofType later t

/-- A run back to the head and the slot it started from. -/
theorem Inv.returned (hE : E.Lawful) (I : Inv E c) (h : Relation.ReflTransGen (Step E) c c')
    (hhead : c'.head = c.head) (hslot : c'.slot = c.slot) : Returned E c c' := by
  have I' := I.run hE h
  have K := I.keeps_run hE h
  have hline {b : Block} (hb : c.IsHead E b) : c'.IsHead E b ∧ c'.line b = c.line b :=
    ⟨⟨K.mem hb.1, hb.2.trans hhead.symm⟩, K.line I.wellFormed hb.1⟩
  obtain ⟨b, hb⟩ := I.wellFormed.exists_head
  obtain ⟨hb', hsame⟩ := hline hb
  refine ⟨hhead, hline, hslot, by rw [I'.timeline.processed, I.timeline.processed, hslot], ?_, ?_⟩
  · have hindex := I'.timeline.index hb'
    rw [hsame] at hindex
    exact hindex.unique (I.timeline.index hb)
  · obtain ⟨later, hlater⟩ := issued_run h
    refine ⟨later, hlater, fun t => ?_⟩
    have hconsumed : c'.consumed E b t = c.consumed E b t :=
      consumed_congr hsame (fun a ha => K.records (I.wellFormed.tree.mem_of_mem_line hb.1 ha)) t
    have hconserved := I'.requests.conserved hb' t
    rw [hconsumed, hlater, ofType_append, ← I.requests.conserved hb t, List.append_assoc] at hconserved
    exact List.append_cancel_left hconserved

end Chain

end Ethertest
