-- SUMMARY: What is recorded about a block is recorded once: every later commit under its hash writes the same.
import Ethertest.Guarantees.Timeline
import Ethertest.Refinement.History
import Ethertest.Refinement.Mirror

/-!
# Records of blocks

A block that was abandoned can be mined again, with the same hash, from a queue that has
grown in the meantime. Its slot, its safety record and its request record are then the
same as before, so nothing that was ever committed about a block is overwritten.
-/

namespace Ethertest

/-- The keys of what is recorded about one block. -/
def Key.perBlock : Key → Bool
  | .blockSlot _ | .blockSafety _ | .requestRecord _ => true
  | _ => false

theorem Key.metadata_of_perBlock {k : Key} (h : k.perBlock) : k.metadata := by
  cases k <;> first | rfl | cases h

/-- No commit has changed what an earlier one recorded about a block. -/
structure Ledger.WriteOnce (l : Ledger) : Prop where
  /-- what was ever recorded is still there -/
  kept : ∀ c ∈ l.history.commits, ∀ kv ∈ c.operation.puts, kv.1.perBlock → l.db.get kv.1 = some kv.2
  /-- two commits under one hash record the same -/
  agree : ∀ c ∈ l.history.commits, ∀ c' ∈ l.history.commits, ∀ {k : Key} {v v' : Value}, k.perBlock →
    (k, v) ∈ c.operation.puts → (k, v') ∈ c'.operation.puts → v = v'

namespace Env

variable {E : Env} {Q : Guard E.geth.State} {n n' : Node E.geth.State}

/-! ## Records stay -/

/-- A move changes nothing that is recorded about a block. -/
theorem Move.get_perBlock (hE : E.Lawful) (I : n.toLedger.Inv E) (M : n.toLedger.Mirror E) (h : E.Move Q n n')
    {k : Key} {v : Value} (hk : k.perBlock) (hget : n.db.get k = some v) : n'.db.get k = some v := by
  have W := I.chain.wellFormed
  have M' := h.mirror hE I M
  have K := I.chain.keeps_run hE (h.simulates hE I)
  cases k with
  | blockSlot hash =>
    rw [M.entries _ rfl, Ledger.entry, Option.map_eq_some_iff] at hget
    obtain ⟨slot, hslot, rfl⟩ := hget
    obtain ⟨b, hb, rfl⟩ := W.mem_of_isSome ((W.slots hash).mp (Option.isSome_iff_exists.mpr ⟨slot, hslot⟩))
    have hsame : n'.slotByHash[E.hash b]? = n.slotByHash[E.hash b]? := K.slots hb
    rw [M'.entries _ rfl, Ledger.entry, hsame, hslot, Option.map_some]
  | blockSafety hash =>
    rw [M.entries _ rfl, Ledger.entry, Option.map_eq_some_iff] at hget
    obtain ⟨safety, hsafety, rfl⟩ := hget
    obtain ⟨b, hb, rfl⟩ := W.mem_of_isSome ((W.safety hash).mp (Option.isSome_iff_exists.mpr ⟨safety, hsafety⟩))
    have hsame : n'.blockSafety[E.hash b]? = n.blockSafety[E.hash b]? := K.safety hb
    rw [M'.entries _ rfl, Ledger.entry, hsame, hsafety, Option.map_some]
  | requestRecord hash =>
    obtain ⟨record, rfl⟩ := I.stored.typed hget
    have hrecord : n.db.record hash = some record := by rw [Db.record, hget]
    obtain ⟨b, hb, rfl⟩ := W.mem_of_isSome ((W.records hash).mp (Option.isSome_iff_exists.mpr ⟨record, hrecord⟩))
    have hsame : n'.db.record (E.hash b) = n.db.record (E.hash b) := K.records hb
    rw [hrecord, Db.record] at hsame
    split at hsame
    · next hnew => rw [hnew, Option.some.inj hsame]
    · cases hsame
  | _ => cases hk

/-! ## Records of commits -/

/-- The records of a block are written as the commit's puts have them. -/
theorem mem_puts_commitOf {operation : PreparedOperation} {events : List Event} {plan : EventPlan}
    {mutation : Mutation} (hplan : n.events.plan events = .ok plan) {kv : KV} (hk : kv.1.perBlock)
    (h : kv ∈ (commitOf n operation plan mutation).operation.puts) : kv ∈ operation.puts := by
  rcases List.mem_append.mp h with h | h
  · exact h
  · rcases (EventLog.plan_keys hplan).1 kv h with hkey | ⟨r, hkey⟩ <;> rw [hkey] at hk <;> cases hk

theorem mineWrites_of_mem {x : Extension} {kv : KV} (hk : kv.1.perBlock) (h : kv ∈ (E.mineOperation n x).puts) :
    E.mineWrites n x kv.1 = some kv.2 := by
  change kv ∈ _ ++ n.blobPuts x.block ++ _ at h
  simp only [List.mem_append, List.mem_cons, List.not_mem_nil, or_false] at h
  rcases h with ((rfl | rfl | rfl | rfl | rfl | rfl) | h) | h
  all_goals first | exact if_pos rfl | cases hk | skip
  · obtain ⟨tx, -, hkv⟩ := List.mem_filterMap.mp h
    obtain ⟨bundle, -, rfl⟩ := Option.map_eq_some_iff.mp hkv
    cases hk
  · split at h
    · simp only [List.mem_cons, List.not_mem_nil, or_false] at h
      rcases h with rfl | rfl <;> cases hk
    · cases h

private theorem controlWrites_of_mem {x : Extension} {changes : ControlChanges} {kv : KV} (hk : kv.1.perBlock)
    (h : kv ∈ (E.controlOperation n x changes).puts) : E.controlWrites n x changes kv.1 = some kv.2 := by
  change kv ∈ _ ++ _ at h
  simp only [List.mem_append, List.mem_cons, List.not_mem_nil, or_false] at h
  rcases h with (rfl | rfl | rfl | rfl | rfl | rfl | rfl | rfl) | h
  all_goals first | exact if_pos rfl | cases hk | skip
  split at h
  · rw [List.mem_singleton.mp h] at hk
    cases hk
  · cases h

private theorem branchWrites_of_mem {x : Extension} {item : Branch} {kv : KV}
    (h : kv ∈ (E.branchOperation n item x).puts) : E.branchWrites n item x kv.1 = some kv.2 := by
  change kv ∈ [_, _, _, _, _] at h
  simp only [List.mem_cons, List.not_mem_nil, or_false] at h
  rcases h with rfl | rfl | rfl | rfl | rfl <;> exact if_pos rfl

/-- The records of a block that a commit makes are in the database after it. -/
theorem Commits.records (hE : E.Lawful) (I : n.toLedger.Inv E) {c : Commit} (h : Commits E n c) :
    ∀ kv ∈ c.operation.puts, kv.1.perBlock → (c.after E.geth).get kv.1 = some kv.2 := by
  have W := I.chain.wellFormed
  intro kv hkv hk
  cases h with
  | mine plan hplan =>
    rw [get_mine hE W (planMine_spec hE W plan) hplan (Key.metadata_of_perBlock hk),
      mineWrites_of_mem hk (mem_puts_commitOf hplan hk hkv), Option.some_or]
  | control plan hplan =>
    rw [get_control hE W (planControl_spec hE W plan) hplan (Key.metadata_of_perBlock hk),
      controlWrites_of_mem hk (mem_puts_commitOf hplan hk hkv), Option.some_or]
  | branch named plan hplan =>
    rw [get_branch hE (planBranch_spec hE W plan) hplan (Key.metadata_of_perBlock hk),
      branchWrites_of_mem (mem_puts_commitOf hplan hk hkv), Option.some_or]
  | switch known plan hplan =>
    have hmem := mem_puts_commitOf hplan hk hkv
    change kv ∈ [_, _] ++ _ at hmem
    simp only [List.mem_append, List.mem_cons, List.not_mem_nil, or_false, List.mem_map] at hmem
    rcases hmem with (rfl | rfl) | ⟨b, -, rfl⟩ <;> cases hk

/-- What any commit recorded about a block is in the database. -/
def Kept (n : Node E.geth.State) : Prop :=
  ∀ c ∈ n.history.commits, ∀ kv ∈ c.operation.puts, kv.1.perBlock → n.db.get kv.1 = some kv.2

theorem ReachableBy.kept {P : Node E.geth.State → Command → Prop} (hE : E.Lawful) (h : E.ReachableBy P n) :
    Kept n := by
  refine (h.invariant (X := fun n => n.toLedger.Mirror E ∧ Kept n) hE (fun _ => guarded_any)
    (fun hstart => ⟨mirror_newNode hE hstart, ?_⟩) ?_).2
  · obtain ⟨projection, record, -, -, hledger⟩ := newNode_spec hstart
    rw [Kept, hledger]
    exact fun c hc => absurd hc (by simp [freshLedger])
  · rintro m m' I ⟨M, hkept⟩ hmove
    refine ⟨hmove.mirror hE I M, fun c hc kv hkv hk => ?_⟩
    rcases hmove.recorded with hsame | ⟨c', hc', hnew, hdb⟩
    · rw [hsame] at hc
      exact hmove.get_perBlock hE I M hk (hkept c hc kv hkv hk)
    · rw [hnew, List.mem_append, List.mem_singleton] at hc
      rcases hc with hc | rfl
      · exact hmove.get_perBlock hE I M hk (hkept c hc kv hkv hk)
      · rw [hdb]
        exact hc'.records hE I kv hkv hk

end Env

/-- In every reachable node what was recorded about blocks was written once. -/
theorem reachable_writeOnce {E : Env} (hE : E.Lawful) {n : Node E.geth.State} (h : E.Reachable n) :
    n.toLedger.WriteOnce where
  kept := h.kept hE
  agree := by
    intro c hc c' hc' k v v' hk hv hv'
    have hkept := h.kept hE
    exact Option.some.inj ((hkept c hc _ hv hk).symm.trans (hkept c' hc' _ hv' hk))

theorem reachable_writeOnce_reference :
    (Reference.run [⟨.snapshot, none⟩, ⟨.mine 1 false, none⟩, ⟨.revert 1, none⟩,
      ⟨.mine 1 false, none⟩]).toLedger.WriteOnce :=
  reachable_writeOnce Reference.lawful (Reference.reachable_run _)

end Ethertest
