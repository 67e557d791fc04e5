-- SUMMARY: Controls are consumed in order along every line, and a block determines its request record.
import Ethertest.Chain.Timeline

/-!
# Consumed controls

Along the line of any block the consumed controls of a type are a front of the issued
ones, and along the canonical line the queue holds the rest. A block, recorded twice,
comes with the same record both times: its native requests follow from the block, its
request hash fixes the whole list, and so the number of controls, and these are the
next ones in issue order.
-/

namespace Ethertest

namespace Chain

variable {E : Env} {c : Chain}

/-- How the record of a block came about. -/
def Assembled (E : Env) (parent block : Block) (record : ExecutionRequestRecord) : Prop :=
  ∃ generated native queue p, Assembles E.geth generated native queue p ∧ p.block = block ∧
    p.record = record ∧ E.nativeOf parent block = some native

structure Requests (E : Env) (c : Chain) : Prop where
  issuance : Issuance c.issued c.queue.nextID
  format : c.queue.format = executionRequestQueueFormat
  conserved : ∀ {head}, c.IsHead E head → ∀ t, c.consumed E head t ++ c.queue.get t = ofType c.issued t
  front : ∀ {b}, c.Mem E b → ∀ t, c.consumed E b t <+: ofType c.issued t
  valid : ∀ {h record}, c.records h = some record →
    record.format = executionRequestRecordFormat ∧ validateExecutionRequestRecord record = .ok ()
  assembled : ∀ {b p record}, c.Mem E b → b ≠ E.genesis.block → c.parent b = some p →
    c.records (E.hash b) = some record → Assembled E p b record
  genesis : ∀ {record}, c.records E.genesisHash = some record → record.controls.count = 0

theorem Assembled.of_sound {e : Entry} {queue remaining : ExecutionRequestQueue}
    (s : e.Sound E c queue remaining) : Assembled E e.parent e.block e.record := by
  obtain ⟨generated, native, p, hp, hblock, hrecord, -, hnative⟩ := s.prepared
  exact ⟨generated, native, queue, p, hp, hblock, hrecord, hnative⟩

/-- Two records of one block are equal if their controls continue one another. -/
theorem Assembled.unique (hE : E.Lawful) {parent block : Block} {r r' : ExecutionRequestRecord}
    (h : Assembled E parent block r) (h' : Assembled E parent block r')
    (hfifo : ∀ t, r.controls.get t <+: r'.controls.get t ∨ r'.controls.get t <+: r.controls.get t) : r = r' := by
  obtain ⟨generated, native, queue, p, hp, hblock, rfl, hnative⟩ := h
  obtain ⟨generated', native', queue', p', hp', hblock', rfl, hnative'⟩ := h'
  obtain rfl : native = native' := Option.some.inj (hnative.symm.trans hnative')
  exact hp.record_eq hE.requestsHash_injective hp' (hblock.trans hblock'.symm) hfifo

/-! ## Consumption along lines -/

theorem consumed_cons {b p : Block} (hline : c.line b = b :: c.line p) (t : RequestType) :
    c.consumed E b t = c.consumed E p t ++ (c.recordOf (E.hash b)).controls.get t := by
  simp [consumed, hline]

theorem consumed_of_line {b d : Block} {path : List Block} (hline : c.line b = path ++ c.line d)
    (t : RequestType) :
    c.consumed E b t = c.consumed E d t ++ ofType (pathControls c.recordOf (path.map E.hash)) t := by
  simp [consumed, hline]

/-- The consumed controls of a line depend on the records of its blocks. -/
theorem consumed_congr {c' : Chain} {b : Block} (hline : c'.line b = c.line b)
    (hrecords : ∀ a ∈ c.line b, c'.records (E.hash a) = c.records (E.hash a)) (t : RequestType) :
    c'.consumed E b t = c.consumed E b t := by
  simp only [consumed, hline, ofType_pathControls]
  refine List.flatMap_congr fun h hh => ?_
  obtain ⟨a, ha, rfl⟩ := List.mem_map.mp (List.mem_reverse.mp hh)
  rw [recordOf, recordOf, hrecords a ha]

namespace Requests

variable (W : WellFormed E c) (R : Requests E c)

include W R in
private theorem load_eq {b : Block} (hb : c.Mem E b) : c.load (E.hash b) = .ok (some (c.recordOf (E.hash b))) := by
  have hsome : (c.records (E.hash b)).isSome := (W.records _).mpr (by rw [hb]; rfl)
  obtain ⟨record, hrecord⟩ := Option.isSome_iff_exists.mp hsome
  obtain ⟨hformat, hvalid⟩ := R.valid hrecord
  simp [load, recordOf, hrecord, hformat, hvalid, failIf, bind, Except.bind]

/-- What is left of the issued controls after the line of a stored block. -/
theorem exists_left (R : Requests E c) {b : Block} (hb : c.Mem E b) :
    ∃ left : RequestType → List QueuedExecutionRequest, ∀ t, c.consumed E b t ++ left t = ofType c.issued t := by
  choose left hleft using R.front hb
  exact ⟨left, hleft⟩

include W R in
/-- Reconciliation for a move to any stored block succeeds, and leaves what the block's
line has not consumed. -/
theorem reconcile_move (hE : E.Lawful) {oldHead target : Block} {oldPath newPath : List Block}
    (hold : c.IsHead E oldHead) (hmem : c.Mem E target)
    (hpaths : Ancestry.divergentPaths c.parent Block.number (fun a b => E.hash a = E.hash b) oldHead target =
      some (oldPath, newPath)) {left : RequestType → List QueuedExecutionRequest}
    (hleft : ∀ t, c.consumed E target t ++ left t = ofType c.issued t) :
    reconcileExecutionRequestQueue c.load c.queue (oldPath.map E.hash) (newPath.map E.hash) =
      .ok (c.queue.withControls (.ofFun left)) := by
  obtain ⟨d, hd, hlineOld, hlineNew, -⟩ := W.paths hE hold.1 hmem hpaths
  have hload {b : Block} {path : List Block} (hb : c.Mem E b) (hline : c.line b = path ++ c.line d) :
      ∀ h ∈ path.map E.hash, c.load h = .ok (some (c.recordOf h)) := by
    intro h hh
    obtain ⟨a, ha, rfl⟩ := List.mem_map.mp hh
    refine R.load_eq W (W.tree.mem_of_mem_line hb ?_)
    change a ∈ c.line b
    rw [hline]
    exact List.mem_append_left _ ha
  refine reconcile_ok R.issuance (hload hold.1 hlineOld) (hload hmem hlineNew)
    (fun t => show c.consumed E d t ++ (_ ++ _) = _ from ?_) fun t => ?_
  · rw [← List.append_assoc, ← consumed_of_line hlineOld]
    exact R.conserved hold t
  · rw [← List.append_assoc, ← consumed_of_line hlineNew]
    exact hleft t

end Requests

/-! ## Recording a block -/

section Put

variable (hE : E.Lawful) (W : WellFormed E c) (R : Requests E c) {e : Entry}
  {queue remaining : ExecutionRequestQueue} (s : e.Sound E c queue remaining)
  (hfront : ∀ t, c.consumed E e.parent t ++ e.record.controls.get t <+: ofType c.issued t)

include hE W R s hfront in
/-- A known block is recorded with the record it has. -/
theorem records_known (hmem : c.Mem E e.block) : c.records (e.hash E) = some e.record := by
  have hsome : (c.records (e.hash E)).isSome := (W.records _).mpr (by rw [hmem]; rfl)
  obtain ⟨record, hrecord⟩ := Option.isSome_iff_exists.mp hsome
  have hparent : c.parent e.block = some e.parent := by
    rw [parent, s.parentHash]
    exact s.parent_mem
  have hassembled := R.assembled hmem s.ne_genesis hparent hrecord
  have hknown := R.front hmem
  have hrec : c.recordOf (e.hash E) = record := by rw [recordOf, hrecord, Option.getD_some]
  rw [hrecord, hassembled.unique hE (.of_sound s) fun t => ?_]
  have hline : c.line e.block = e.block :: c.line e.parent := Ancestry.Tree.line_child hparent s.number
  have hold := hknown t
  rw [consumed_cons hline, hrec] at hold
  exact (List.prefix_or_prefix_of_prefix hold (hfront t)).imp
    (List.prefix_append_right_inj _).mp (List.prefix_append_right_inj _).mp

include hE W R s hfront in
theorem records_put {b : Block} (hb : c.Mem E b) : (c.put E e).records (E.hash b) = c.records (E.hash b) := by
  by_cases heq : E.hash b = e.hash E
  · obtain rfl := hE.blockHash_injective heq
    rw [records_known hE W R s hfront hb]
    simp [put]
  · simp [put, Function.update_of_ne heq]

include hE W R s hfront in
theorem consumed_put {b : Block} (hb : c.Mem E b) (t : RequestType) :
    (c.put E e).consumed E b t = c.consumed E b t :=
  consumed_congr (line_put hE W hb)
    (fun _ ha => records_put hE W R s hfront (W.tree.mem_of_mem_line hb ha)) t

include hE W R s hfront in
private theorem consumed_put_self (t : RequestType) :
    (c.put E e).consumed E e.block t = c.consumed E e.parent t ++ e.record.controls.get t := by
  have hline : (c.put E e).line e.block = e.block :: (c.put E e).line e.parent := by
    rw [line_put_self hE W s, line_put hE W s.parent_mem]
  rw [consumed_cons hline, consumed_put hE W R s hfront s.parent_mem]
  simp [recordOf, put]

include hE W R s hfront in
/-- Recording a block keeps the request invariant, with any head and queue that account
for the issued controls. -/
theorem requests_put {head : Hash} {q : ExecutionRequestQueue} (hnext : q.nextID = c.queue.nextID)
    (hformat : q.format = c.queue.format)
    (hconserved : ∀ {b}, (c.put E e).Mem E b → E.hash b = head →
      ∀ t, (c.put E e).consumed E b t ++ q.get t = ofType c.issued t) :
    Requests E { c.put E e with head := head, queue := q } where
  issuance := by
    rw [hnext]
    exact R.issuance
  format := hformat.trans R.format
  conserved := fun hb => hconserved hb.1 hb.2
  front := by
    intro b hb t
    rcases (mem_put hE).mp hb with hb | rfl
    · exact (consumed_put hE W R s hfront hb t).symm ▸ R.front hb t
    · exact (consumed_put_self hE W R s hfront t).symm ▸ hfront t
  valid := by
    intro h record hrecord
    by_cases heq : h = e.hash E
    · obtain rfl : e.record = record := by simpa [put, heq] using hrecord
      obtain ⟨_, _, p, hp, -, hrec, -, -⟩ := s.prepared
      exact ⟨hrec ▸ hp.format, s.valid⟩
    · exact R.valid (by simpa [put, Function.update_of_ne heq] using hrecord)
  assembled := by
    intro b p record hb hne hp hrecord
    by_cases heq : E.hash b = e.hash E
    · obtain rfl := hE.blockHash_injective heq
      obtain rfl : e.parent = p := Option.some.inj ((parent_put_self hE s).symm.trans hp)
      obtain rfl : e.record = record := by simpa [put] using hrecord
      exact .of_sound s
    · rcases (mem_put hE).mp hb with hb | rfl
      · exact R.assembled hb hne ((parent_put hE W hb hne).symm.trans hp)
          ((records_put hE W R s hfront hb).symm.trans hrecord)
      · exact absurd rfl heq
  genesis := by
    intro record hrecord
    have hroot : c.Mem E E.genesis.block := W.tree.root_mem
    exact R.genesis ((records_put hE W R s hfront hroot).symm.trans hrecord)

end Put

section Moves

variable (hE : E.Lawful) (W : WellFormed E c) (R : Requests E c) {e : Entry}
  {queue remaining : ExecutionRequestQueue}

/-- A block on the head takes its controls from the front of the queue. -/
theorem front_of_extend (R : Requests E c) (s : e.Sound E c c.queue remaining)
    (hhead : c.head = E.hash e.parent) (t : RequestType) :
    c.consumed E e.parent t ++ e.record.controls.get t <+: ofType c.issued t := by
  obtain ⟨_, _, p, hp, -, hrec, -, -⟩ := s.prepared
  rw [← R.conserved ⟨s.parent_mem, hhead.symm⟩ t, ← hp.split t, hrec, ← List.append_assoc]
  exact List.prefix_append _ _

/-- A branch block has no controls. -/
theorem front_of_branch (R : Requests E c) (s : e.Sound E c newExecutionRequestQueue remaining)
    (t : RequestType) : c.consumed E e.parent t ++ e.record.controls.get t <+: ofType c.issued t := by
  obtain ⟨_, _, p, hp, -, hrec, -, -⟩ := s.prepared
  have hempty : e.record.controls.get t = [] := by
    have hsplit := hp.split t
    rw [hrec] at hsplit
    cases t <;> exact (List.append_eq_nil_iff.mp hsplit).1
  rw [hempty, List.append_nil]
  exact R.front s.parent_mem t

include hE W R in
theorem requests_extend (s : e.Sound E c c.queue remaining) (hhead : c.head = E.hash e.parent)
    (batch : List Event) : Requests E (c.extend E e remaining batch) := by
  have hfront := front_of_extend R s hhead
  obtain ⟨_, _, p, hp, -, hrec, rfl, -⟩ := s.prepared
  have h : Requests E { c.put E e with head := e.hash E, queue := p.remaining } := by
    refine requests_put hE W R s hfront hp.remaining.2 hp.remaining.1 ?_
    intro b _ hhash t
    obtain rfl := hE.blockHash_injective hhash
    rw [consumed_put_self hE W R s hfront, List.append_assoc, ← hrec, hp.split]
    exact R.conserved ⟨s.parent_mem, hhead.symm⟩ t
  exact ⟨h.issuance, h.format, h.conserved, h.front, h.valid, h.assembled, h.genesis⟩

include hE W R in
theorem requests_branch (s : e.Sound E c newExecutionRequestQueue remaining)
    (branches : Bytes → Option Hash) (batches : List (List Event)) :
    Requests E { c.put E e with branches := branches, batches := batches } := by
  have hfront := front_of_branch R s
  have h : Requests E { c.put E e with head := c.head, queue := c.queue } := by
    refine requests_put hE W R s hfront rfl rfl ?_
    intro b _ hhash t
    obtain ⟨b', hb', hhead⟩ := W.exists_head
    obtain rfl := hE.blockHash_injective (hhead.trans hhash.symm)
    rw [consumed_put hE W R s hfront hb']
    exact R.conserved ⟨hb', hhead⟩ t
  exact ⟨h.issuance, h.format, h.conserved, h.front, h.valid, h.assembled, h.genesis⟩

/-- Issuing a control appends it to its queue. -/
theorem requests_issue (R : Requests E c) {t : RequestType} {data : Bytes} (hsize : data.length = t.size) :
    Requests E { c with
      queue := c.queue.push t data, issued := c.issued ++ [(t, ⟨c.queue.nextID, data⟩)] } where
  issuance := R.issuance.push hsize
  format := R.format
  conserved := by
    intro head hhead u
    change c.consumed E head u ++ (c.queue.push t data).get u = _
    rw [ofType_append, ← R.conserved hhead u, List.append_assoc]
    congr 1
    by_cases h : u = t
    · subst h
      simp [ExecutionRequestQueue.push, ofType]
    · have h' : t ≠ u := fun heq => h heq.symm
      simp [ExecutionRequestQueue.push, ofType, h, h']
  front := by
    intro b hb u
    exact (R.front hb u).trans (by rw [ofType_append]; exact List.prefix_append _ _)
  valid := R.valid
  assembled := R.assembled
  genesis := R.genesis

include hE W R in
theorem Requests.step {c' : Chain} (h : Step E c c') : Requests E c' := by
  cases h with
  | extend sound head => exact requests_extend hE W R sound head _
  | branch sound => exact requests_branch hE W R sound _ _
  | move old mem slot paths reconciled =>
    obtain ⟨left, hleft⟩ := R.exists_left mem
    rw [R.reconcile_move W hE (W.mem_of_blocks old) mem paths hleft, Except.ok.injEq] at reconciled
    subst reconciled
    refine ⟨R.issuance, R.format, ?_, R.front, R.valid, R.assembled, R.genesis⟩
    intro head hhead t
    obtain rfl := hE.blockHash_injective hhead.2
    exact (congrArg _ (ExecutionRequestControlSet.get_ofFun ..)).trans (hleft t)
  | wait slot later => exact ⟨R.issuance, R.format, R.conserved, R.front, R.valid, R.assembled, R.genesis⟩
  | issue size => exact requests_issue R size
  | point old new => exact ⟨R.issuance, R.format, R.conserved, R.front, R.valid, R.assembled, R.genesis⟩
  | fork fresh mem => exact ⟨R.issuance, R.format, R.conserved, R.front, R.valid, R.assembled, R.genesis⟩
  | announce silent => exact ⟨R.issuance, R.format, R.conserved, R.front, R.valid, R.assembled, R.genesis⟩

end Moves

end Chain

end Ethertest
