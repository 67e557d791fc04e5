-- SUMMARY: The event stream: folded over a stack that starts with the genesis it gives the canonical line.
import Ethertest.Chain.Tree

/-!
# Replaying the events

A subscriber keeps a stack of block hashes. An added block is pushed on its parent, a
removed block is popped. The events of a move first pop what is abandoned, then push
what is adopted, oldest first, so the stack is the canonical line after every batch.
-/

namespace Ethertest

namespace Event

/-- The event adds or removes a block. -/
def aboutBlock (e : Event) : Bool :=
  e.type = .block || e.type = .controlBlock

/-- What a subscriber does with an event, given the parents of the blocks. A push on
anything but the parent and a pop of another block are errors. -/
def apply (parent : Hash → Option Hash) (stack : List Hash) (e : Event) : Option (List Hash) :=
  if e.aboutBlock then
    match stack with
    | [] => none
    | top :: rest =>
      if e.removed then (if top = e.blockHash then some rest else none)
      else if parent e.blockHash = some top then some (e.blockHash :: top :: rest) else none
  else some stack

variable {parent parent' : Hash → Option Hash}

theorem not_aboutBlock_of_quiet {e : Event} (h : e.quiet) : e.aboutBlock = false := by
  rcases h with h | h <;> simp [aboutBlock, h]

theorem apply_quiet {e : Event} (h : e.quiet) (stack : List Hash) : e.apply parent stack = some stack := by
  simp [apply, not_aboutBlock_of_quiet h]

/-- Known parents stay known. -/
theorem apply_mono (hparent : ∀ {h p}, parent h = some p → parent' h = some p) {stack stack' : List Hash}
    {e : Event} (h : e.apply parent stack = some stack') : e.apply parent' stack = some stack' := by
  unfold apply at h ⊢
  split at h
  · next hblock =>
    rw [if_pos hblock]
    cases stack with
    | nil => cases h
    | cons top rest =>
      simp only at h ⊢
      split at h
      · next hremoved => rwa [if_pos hremoved]
      · next hremoved =>
        rw [if_neg hremoved]
        split at h
        · next hp => rwa [if_pos (hparent hp)]
        · cases h
  · next hblock => rwa [if_neg hblock]

end Event

/-- A subscriber's stack after a list of events. -/
def replayFrom (parent : Hash → Option Hash) (stack : List Hash) (events : List Event) : Option (List Hash) :=
  events.foldlM (fun stack e => e.apply parent stack) stack

section ReplayFrom

variable {parent parent' : Hash → Option Hash}

@[simp] theorem replayFrom_nil (stack : List Hash) : replayFrom parent stack [] = some stack := rfl

theorem replayFrom_cons (stack : List Hash) (e : Event) (events : List Event) :
    replayFrom parent stack (e :: events) = (e.apply parent stack).bind (replayFrom parent · events) := rfl

theorem replayFrom_append (stack : List Hash) (events events' : List Event) :
    replayFrom parent stack (events ++ events') =
      (replayFrom parent stack events).bind (replayFrom parent · events') :=
  List.foldlM_append ..

theorem replayFrom_unnumbered (stack : List Hash) (events : List Event) :
    replayFrom parent stack (events.map EventLog.unnumbered) = replayFrom parent stack events := by
  rw [replayFrom, List.foldlM_map]
  rfl

theorem replayFrom_quiet {events : List Event} (h : ∀ e ∈ events, e.quiet) (stack : List Hash) :
    replayFrom parent stack events = some stack := by
  induction events with
  | nil => rfl
  | cons e events ih =>
    rw [replayFrom_cons, Event.apply_quiet (h e List.mem_cons_self), Option.bind_some]
    exact ih fun q hq => h q (List.mem_cons_of_mem _ hq)

theorem replayFrom_mono (hparent : ∀ {h p}, parent h = some p → parent' h = some p) {stack stack' : List Hash}
    {events : List Event} (h : replayFrom parent stack events = some stack') :
    replayFrom parent' stack events = some stack' := by
  induction events generalizing stack with
  | nil => exact h
  | cons e events ih =>
    rw [replayFrom_cons, Option.bind_eq_some_iff] at h
    obtain ⟨mid, hmid, hrest⟩ := h
    rw [replayFrom_cons, Event.apply_mono hparent hmid, Option.bind_some]
    exact ih hrest

/-- Popping the hashes of a path off the stack. -/
theorem replayFrom_removed {α : Type} (slot : α → Nat) (hash : α → Hash) (number : α → Nat) (path : List α)
    (rest : List Hash) :
    replayFrom parent (path.map hash ++ rest)
      (path.map fun b => Event.block (slot b) (hash b) (number b) true) = some rest := by
  induction path with
  | nil => rfl
  | cons b path ih =>
    rw [List.map_cons, List.map_cons, replayFrom_cons]
    simpa [Event.apply, Event.aboutBlock, Event.block] using ih

end ReplayFrom

namespace Chain

variable {E : Env} {c : Chain}

/-- The parent of a stored block, by hash. -/
def parentOf (c : Chain) (h : Hash) : Option Hash := (c.blocks h).map Block.parentHash

theorem parentOf_put (hE : E.Lawful) (W : WellFormed E c) {e : Entry} {h p : Hash} (hp : c.parentOf h = some p) :
    (c.put E e).parentOf h = some p := by
  obtain ⟨b, hb, rfl⟩ := Option.map_eq_some_iff.mp hp
  obtain ⟨hmem, rfl⟩ := W.mem_of_blocks hb
  have hput : (c.put E e).blocks (E.hash b) = some b := (mem_put hE).mpr (.inl hmem)
  rw [parentOf, hput, Option.map_some]

/-- The event names a stored block and its number. -/
def Names (E : Env) (c : Chain) (e : Event) : Prop :=
  ∃ b, c.Mem E b ∧ E.hash b = e.blockHash ∧ b.number = e.blockNumber

/-- What a subscriber sees: the canonical line, reorganisations that name the heads
before and after and count the removed blocks, and stored blocks only. -/
structure Replay (E : Env) (c : Chain) : Prop where
  stack : ∀ {head}, c.IsHead E head →
    replayFrom c.parentOf [E.genesisHash] c.batches.flatten = some ((c.line head).map E.hash)
  reorg : ∀ {before batch after}, c.batches = before ++ batch :: after →
    ∀ e ∈ batch, e.type = .chainReorg → ∃ stack stack',
      replayFrom c.parentOf [E.genesisHash] before.flatten = some stack ∧
      replayFrom c.parentOf stack batch = some stack' ∧
      stack.head? = some e.oldHead ∧ stack'.head? = some e.newHead ∧ e.depth = (batch.filter (·.removed)).length
  names : ∀ e ∈ c.batches.flatten, e.aboutBlock → c.Names E e

/-- One more batch. -/
theorem Replay.snoc {c' : Chain} (P : Replay E c) (batch : List Event) (stack' : List Hash) {oldHead : Block}
    (hold : c.IsHead E oldHead) (hparent : ∀ {h p}, c.parentOf h = some p → c'.parentOf h = some p)
    (hmem : ∀ {b}, c.Mem E b → c'.Mem E b) (hbatches : c'.batches = c.batches ++ [batch])
    (hreplay : replayFrom c'.parentOf ((c.line oldHead).map E.hash) batch = some stack')
    (hstack : ∀ {head}, c'.IsHead E head → stack' = (c'.line head).map E.hash)
    (hreorg : ∀ e ∈ batch, e.type = .chainReorg →
      E.hash oldHead = e.oldHead ∧ stack'.head? = some e.newHead ∧ e.depth = (batch.filter (·.removed)).length)
    (hnames : ∀ e ∈ batch, e.aboutBlock → c'.Names E e) : Replay E c' := by
  have hbefore := replayFrom_mono hparent (P.stack hold)
  refine ⟨fun hhead => ?_, fun {before last after} heq e he htype => ?_, fun e he habout => ?_⟩
  · rw [hbatches, List.flatten_append, replayFrom_append, hbefore, Option.bind_some, List.flatten_singleton,
      hreplay, hstack hhead]
  · rw [hbatches] at heq
    rcases List.eq_nil_or_concat after with rfl | ⟨after, batch', rfl⟩
    · -- the new batch
      obtain ⟨rfl, hlast⟩ := List.append_inj' heq rfl
      obtain rfl : batch = last := by simpa using hlast
      obtain ⟨hoh, hnh, hdepth⟩ := hreorg e he htype
      refine ⟨_, stack', hbefore, hreplay, ?_, hnh, hdepth⟩
      obtain ⟨rest, hrest⟩ := Ancestry.Tree.line_eq_cons c.parent Block.number oldHead
      rw [line, hrest, List.map_cons, List.head?_cons, hoh]
    · -- an earlier one
      have hsplit : c.batches ++ [batch] = (before ++ last :: after) ++ [batch'] := by
        rw [heq]
        simp
      obtain ⟨stack, next, hs, hn, hrest⟩ := P.reorg (List.append_inj' hsplit rfl).1 e he htype
      exact ⟨stack, next, replayFrom_mono hparent hs, replayFrom_mono hparent hn, hrest⟩
  · rw [hbatches, List.flatten_append, List.mem_append, List.flatten_singleton] at he
    rcases he with he | he
    · obtain ⟨b, hb, hrest⟩ := P.names e he habout
      exact ⟨b, hmem hb, hrest⟩
    · exact hnames e he habout

theorem not_reorg_of_quiet {e : Event} (h : e.quiet) : e.type ≠ .chainReorg := by
  rcases h with h | h <;> simp [h]

section Moves

variable (hE : E.Lawful) (W : WellFormed E c) (P : Replay E c) {e : Entry}
  {queue remaining : ExecutionRequestQueue}

include hE W P in
theorem replay_extend (s : e.Sound E c queue remaining) (hhead : c.head = E.hash e.parent)
    {batch quiet : List Event} {event : Event} (hevents : batch.map EventLog.unnumbered = event :: quiet)
    (htype : event.type = .block ∨ event.type = .controlBlock)
    (hblock : event.blockHash = e.hash E ∧ event.blockNumber = e.block.number ∧ event.removed = false)
    (hquiet : ∀ q ∈ quiet, q.quiet) (rest : ExecutionRequestQueue) : Replay E (c.extend E e rest batch) := by
  have hparent : (c.put E e).parentOf (e.hash E) = some (E.hash e.parent) := by
    simp [parentOf, put, s.parentHash]
  obtain ⟨tail, htail⟩ := Ancestry.Tree.line_eq_cons c.parent Block.number e.parent
  have habout : event.aboutBlock = true := by
    rcases htype with h | h <;> simp [Event.aboutBlock, h]
  refine P.snoc _ ((e.block :: c.line e.parent).map E.hash) ⟨s.parent_mem, hhead.symm⟩
    (parentOf_put hE W) (fun hb => (mem_put hE).mpr (.inl hb)) rfl ?_ ?_ ?_ ?_
  · have happly : event.apply (c.put E e).parentOf ((c.line e.parent).map E.hash) =
        some ((e.block :: c.line e.parent).map E.hash) := by
      simp [Event.apply, habout, hblock, line, htail, hparent]
    change replayFrom (c.put E e).parentOf _ _ = _
    rw [← replayFrom_unnumbered, hevents, replayFrom_cons, happly, Option.bind_some, replayFrom_quiet hquiet]
  · intro head hb
    obtain rfl := hE.blockHash_injective hb.2
    exact (congrArg _ (line_put_self hE W s)).symm
  · intro ev hev hreorg
    have hmem : EventLog.unnumbered ev ∈ event :: quiet := hevents ▸ List.mem_map_of_mem hev
    rcases List.mem_cons.mp hmem with heq | hq
    · have : event.type = .chainReorg := heq ▸ hreorg
      rcases htype with h | h <;> simp [h] at this
    · exact absurd (show (EventLog.unnumbered ev).type = .chainReorg from hreorg)
        (not_reorg_of_quiet (hquiet _ hq))
  · intro ev hev hev'
    have hmem : EventLog.unnumbered ev ∈ event :: quiet := hevents ▸ List.mem_map_of_mem hev
    rcases List.mem_cons.mp hmem with heq | hq
    · refine ⟨e.block, (mem_put hE).mpr (.inr rfl), ?_, ?_⟩
      · exact hblock.1.symm.trans (congrArg Event.blockHash heq).symm
      · exact hblock.2.1.symm.trans (congrArg Event.blockNumber heq).symm
    · have hnot : (EventLog.unnumbered ev).aboutBlock = false := Event.not_aboutBlock_of_quiet (hquiet _ hq)
      cases hnot.symm.trans hev'

include W in
/-- Pushing a path on the stack, oldest block first. -/
theorem replayFrom_added (slot : Block → Nat) {b d : Block} {path : List Block} (hb : c.Mem E b)
    (hline : c.line b = path ++ c.line d) :
    replayFrom c.parentOf ((c.line d).map E.hash)
      (path.reverse.map fun a => Event.block (slot a) (E.hash a) a.number false) =
      some ((c.line b).map E.hash) := by
  induction path generalizing b with
  | nil =>
    rw [hline]
    rfl
  | cons a path ih =>
    obtain ⟨rest, hrest⟩ := Ancestry.Tree.line_eq_cons c.parent Block.number d
    have hne : b ≠ E.genesis.block := by
      rintro rfl
      rw [line, W.tree.line_root, line, hrest] at hline
      simp at hline
    obtain ⟨p, hp, hpm, hnum, hph⟩ := W.parent_eq hb hne
    have hchild : c.line b = b :: c.line p := Ancestry.Tree.line_child hp hnum
    rw [hchild, List.cons_append, List.cons.injEq] at hline
    obtain ⟨rfl, hlinep⟩ := hline
    obtain ⟨tail, htail⟩ := Ancestry.Tree.line_eq_cons c.parent Block.number p
    have hparent : c.parentOf (E.hash b) = some (E.hash p) := by
      rw [parentOf, hb, Option.map_some, hph]
    rw [List.reverse_cons, List.map_append, replayFrom_append, ih hpm hlinep, Option.bind_some, hchild]
    simp [replayFrom_cons, Event.apply, Event.aboutBlock, Event.block, line, htail, hparent]

include hE W P in
theorem replay_move {oldHead target : Block} {targetSlot slot processed : Nat} {oldPath newPath : List Block}
    {batch : List Event} (old : c.blocks c.head = some oldHead) (mem : c.Mem E target)
    (paths : Ancestry.divergentPaths c.parent Block.number (fun a b => E.hash a = E.hash b) oldHead target =
      some (oldPath, newPath))
    (events : batch.map EventLog.unnumbered = c.moveEvents E targetSlot oldHead target oldPath newPath)
    (index : Nat → Option Hash) (rest : ExecutionRequestQueue) :
    Replay E { c with
      head := E.hash target, slot := slot, processed := processed, index := index, queue := rest
      batches := c.batches ++ [batch] } := by
  have hold := W.mem_of_blocks old
  obtain ⟨d, hd, hlineOld, hlineNew, -⟩ := W.paths hE hold.1 mem paths
  obtain ⟨tail, htail⟩ := Ancestry.Tree.line_eq_cons c.parent Block.number target
  refine P.snoc _ ((c.line target).map E.hash) hold id id rfl ?_ ?_ ?_ ?_
  · change replayFrom c.parentOf _ _ = _
    rw [← replayFrom_unnumbered, events, moveEvents, replayFrom_append, replayFrom_append, hlineOld,
      List.map_append, replayFrom_removed, Option.bind_some, replayFrom_added W _ mem hlineNew, Option.bind_some]
    split
    · rfl
    · rfl
  · intro head hb
    obtain rfl := hE.blockHash_injective hb.2
    rfl
  · intro ev hev hreorg
    have hmem : EventLog.unnumbered ev ∈ c.moveEvents E targetSlot oldHead target oldPath newPath :=
      events ▸ List.mem_map_of_mem hev
    have htype : (EventLog.unnumbered ev).type = .chainReorg := hreorg
    have hremoved : (batch.filter (·.removed)).length = oldPath.length := by
      have hcount : (batch.filter (·.removed)).length =
          ((batch.map EventLog.unnumbered).filter (·.removed)).length := by
        rw [List.filter_map, List.length_map]
        rfl
      rw [hcount, events, moveEvents]
      split <;> simp [List.filter_append, List.filter_map, Function.comp_def, Event.block]
    rw [moveEvents, List.mem_append, List.mem_append] at hmem
    rcases hmem with (hpop | hpush) | hlast
    · obtain ⟨a, -, ha⟩ := List.mem_map.mp hpop
      rw [← ha] at htype
      cases htype
    · obtain ⟨a, -, ha⟩ := List.mem_map.mp hpush
      rw [← ha] at htype
      cases htype
    · split at hlast
      · cases hlast
      · have heq := List.mem_singleton.mp hlast
        refine ⟨(congrArg Event.oldHead heq).symm, ?_, (congrArg Event.depth heq).trans hremoved.symm⟩
        rw [line, htail, List.map_cons, List.head?_cons]
        exact congrArg some (congrArg Event.newHead heq).symm
  · intro ev hev habout
    have hmem : EventLog.unnumbered ev ∈ c.moveEvents E targetSlot oldHead target oldPath newPath :=
      events ▸ List.mem_map_of_mem hev
    have hnames {a b : Block} {path : List Block} {removed : Bool} (hb : c.Mem E b)
        (hline : c.line b = path ++ c.line d) (ha : a ∈ path)
        (heq : Event.block (c.slotOf E a) (E.hash a) a.number removed = EventLog.unnumbered ev) : c.Names E ev :=
      ⟨a, W.tree.mem_of_mem_line hb (show a ∈ c.line b from hline ▸ List.mem_append_left _ ha),
        congrArg Event.blockHash heq, congrArg Event.blockNumber heq⟩
    rw [moveEvents, List.mem_append, List.mem_append] at hmem
    rcases hmem with (hpop | hpush) | hlast
    · obtain ⟨a, ha, heq⟩ := List.mem_map.mp hpop
      exact hnames hold.1 hlineOld ha heq
    · obtain ⟨a, ha, heq⟩ := List.mem_map.mp hpush
      exact hnames mem hlineNew (List.mem_reverse.mp ha) heq
    · split at hlast
      · cases hlast
      · have hnot : (EventLog.unnumbered ev).aboutBlock = false := by rw [List.mem_singleton.mp hlast]; rfl
        cases hnot.symm.trans habout

include hE W P in
theorem Replay.step {c' : Chain} (h : Step E c c') : Replay E c' := by
  obtain ⟨oldHead, hold⟩ := W.exists_head
  cases h with
  | extend sound head slot time extra events event_type event_block silent =>
    exact replay_extend hE W P sound head events event_type event_block silent _
  | branch sound =>
    refine P.snoc [] _ hold (parentOf_put hE W) (fun hb => (mem_put hE).mpr (.inl hb)) rfl rfl ?_ (by simp) (by simp)
    intro head hhead
    obtain rfl := hE.blockHash_injective (hold.2.trans hhead.2.symm)
    exact (congrArg _ (line_put hE W hold.1)).symm
  | move old mem slot paths reconciled events => exact replay_move hE W P old mem paths events _ _
  | wait => exact ⟨P.stack, P.reorg, P.names⟩
  | issue => exact ⟨P.stack, P.reorg, P.names⟩
  | point => exact ⟨P.stack, P.reorg, P.names⟩
  | fork => exact ⟨P.stack, P.reorg, P.names⟩
  | announce silent =>
    refine P.snoc _ _ hold id id rfl (replayFrom_quiet silent _) ?_ ?_ ?_
    · intro head hhead
      obtain rfl := hE.blockHash_injective (hold.2.trans hhead.2.symm)
      rfl
    · exact fun e he hreorg => absurd hreorg (not_reorg_of_quiet (silent e he))
    · intro e he habout
      cases (Event.not_aboutBlock_of_quiet (silent e he)).symm.trans habout

end Moves

end Chain

end Ethertest
