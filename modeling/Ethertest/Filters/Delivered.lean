-- SUMMARY: The logs that a log filter delivers: those of the announced blocks, settled to those of the canonical chain.
import Ethertest.Filters.Installed
import Ethertest.Log.Node
import Ethertest.Log.Readers
import Ethertest.Refinement.Deliveries
import Ethertest.Refinement.Recorded

/-!
# Delivered logs

As long as receipts stay readable, the logs of a block are the same whenever they are read. A log
filter with numbers for bounds includes a block by its number or hash alone. So a poll delivers
for every event exactly the entries of its block.
-/

namespace Ethertest

namespace Filters

variable {E : Env} {n n' m : Node E.geth.State}

open Relation (ReflTransGen)

/-! ## Receipts that stay readable -/

/-- A move after which the receipts of abandoned blocks are still there. -/
structure Onward (E : Env) (n n' : Node E.geth.State) : Prop where
  move : E.Move Guard.any n n'
  abandoned : ∀ {b}, n.chain.Mem E b → b ∉ n.db.canonicalLine →
    n'.db.get (.receipts (E.hash b)) = n.db.get (.receipts (E.hash b))

/-- The node is reached from the other one by such moves. -/
def Follows (E : Env) : Node E.geth.State → Node E.geth.State → Prop := ReflTransGen (Onward E)

theorem Follows.trans (h : Follows E n m) (h' : Follows E m n') : Follows E n n' := ReflTransGen.trans h h'

/-- What the filters rely on in a node. -/
structure Sound (E : Env) (n : Node E.geth.State) : Prop where
  inv : n.toLedger.Inv E
  logged : n.toLedger.Logged E

/-- Stored blocks and their receipts are still there. -/
structure Keeps (E : Env) (n n' : Node E.geth.State) : Prop where
  blocks : ∀ {b}, n.chain.Mem E b → n'.chain.Mem E b
  receipts : ∀ {b}, n.chain.Mem E b → n'.db.get (.receipts (E.hash b)) = n.db.get (.receipts (E.hash b))

variable {b : Block} {hash : Hash} {entry : LogEntry} {head : UInt64} {reads : EventReads E.geth.State}
  {event : Event} {entries : List LogEntry}

/-- The receipts of canonical blocks stay in any case: a canonical block is not stored again. -/
theorem receipts_canonical (hE : E.Lawful) (I : n.toLedger.Inv E) {Q : Guard E.geth.State}
    (h : E.Move Q n n') (hb : b ∈ n.db.canonicalLine) :
    n'.db.get (.receipts (E.hash b)) = n.db.get (.receipts (E.hash b)) := by
  have W := I.chain.wellFormed
  obtain ⟨head, hcurrent, hhead⟩ := I.exists_head
  rw [Ledger.canonicalLine_eq hcurrent] at hb
  rcases h.records_placed hE I with ⟨x, changes, hplanning, hplaced, -, hrecorded⟩ | hsame
  · obtain ⟨queue, p⟩ := hplanning.planned hE W
    rw [hrecorded.receipts, if_neg]
    intro heq
    obtain rfl : x.block = b := hE.blockHash_injective heq
    exact hplaced.not_mem_line hE W p hhead hb
  · exact hsame.receipts _

theorem Onward.keeps (hE : E.Lawful) (I : n.toLedger.Inv E) (h : Onward E n n') : Keeps E n n' where
  blocks := by
    intro b hb
    change n'.db.blockByHash (E.hash b) = some b
    rcases h.move.records hE I with ⟨x, changes, -, hrecorded⟩ | hsame
    · rw [hrecorded.blocks, Function.update_apply]
      split
      · next heq => rw [hE.blockHash_injective heq]
      · exact hb
    · rw [hsame.blocks]
      exact hb
  receipts := by
    intro b hb
    by_cases hline : b ∈ n.db.canonicalLine
    · exact receipts_canonical hE I h.move hline
    · exact h.abandoned hb hline

theorem Keeps.trans (h : Keeps E n m) (h' : Keeps E m n') : Keeps E n n' where
  blocks hb := h'.blocks (h.blocks hb)
  receipts hb := (h'.receipts (h.blocks hb)).trans (h.receipts hb)

/-- What a run of moves keeps, and the chain moves it is made of. -/
theorem Follows.spec (hE : E.Lawful) (S : Sound E n) (h : Follows E n n') :
    Sound E n' ∧ Keeps E n n' ∧ ReflTransGen (Chain.Step E) n.chain n'.chain := by
  induction h with
  | refl => exact ⟨S, ⟨id, fun _ => rfl⟩, .refl⟩
  | tail _ hmove ih =>
    obtain ⟨S', hkeeps, hsteps⟩ := ih
    exact ⟨⟨hmove.move.inv hE S'.inv, hmove.move.logged hE S'.inv S'.logged⟩, hkeeps.trans (hmove.keeps hE S'.inv),
      hsteps.trans (hmove.move.simulates hE S'.inv)⟩

theorem Sound.retains (S : Sound E n) : 0 < n.events.capacity ∧ n.events.Retains n.toLedger.emitted := by
  obtain ⟨hcapacity, R, -⟩ := LogRun.invariant (Config.eventCapacity_pos E.accepted) S.logged
  exact ⟨hcapacity ▸ Config.eventCapacity_pos E.accepted, R⟩

theorem Sound.current (S : Sound E n) : n.events.current = n.toLedger.emitted.length := by
  rw [EventLog.current, S.retains.2.next, Nat.add_sub_cancel]

/-! ## The logs of the canonical chain -/

/-- The blocks that a query is about: the one it names, or those between its bounds. -/
def FilterQuery.Includes (query : FilterQuery) (number : Nat) (hash : Hash) : Prop :=
  match query.blockHash with
  | some wanted => wanted = hash
  | none => (∀ first ∈ query.fromBlock, first ≤ number) ∧ ∀ last ∈ query.toBlock, (number : Int) ≤ last

instance (query : FilterQuery) (number : Nat) (hash : Hash) : Decidable (query.Includes number hash) := by
  unfold FilterQuery.Includes
  split <;> infer_instance

/-- The bounds of a query are absent or non-negative numbers. -/
structure FilterQuery.Bounded (query : FilterQuery) : Prop where
  first : ∀ value ∈ query.fromBlock, 0 ≤ value
  last : ∀ value ∈ query.toBlock, 0 ≤ value

/-- The matching logs of the canonical chain, oldest block first. -/
def chainLogs (E : Env) (l : Ledger) (query : FilterQuery) : List LogEntry :=
  l.db.canonicalLine.reverse.flatMap fun b =>
    if query.Includes b.number (E.hash b) then
      (entriesByHash l.db (E.hash b) b).filter fun entry => query.Matches entry.log
    else []

/-- The matching logs of a stored block. -/
def blockEntries (E : Env) (l : Ledger) (query : FilterQuery) (hash : Hash) : List LogEntry :=
  (l.db.blockByHash hash).elim [] fun b =>
    if query.Includes b.number (E.hash b) then filterBlockLogs (entriesByHash l.db (E.hash b) b) query else []

private theorem mem_receiptEntries {receipts : List Receipt} {txIndex index : Nat}
    (h : entry ∈ receiptEntries hash b receipts txIndex index) : entry.blockHash = hash ∧ entry.removed = false := by
  induction receipts generalizing txIndex index with
  | nil => cases h
  | cons receipt rest ih =>
    rw [receiptEntries, List.mem_append] at h
    rcases h with h | h
    · obtain ⟨item, -, rfl⟩ := List.mem_map.mp h
      exact ⟨rfl, rfl⟩
    · exact ih h

private theorem mem_entriesByHash {db : Db} (h : entry ∈ entriesByHash db hash b) :
    entry.blockHash = hash ∧ entry.removed = false := by
  unfold entriesByHash at h
  split at h
  · exact mem_receiptEntries h
  · cases h

theorem entriesByHash_congr {db db' : Db} (h : db'.get (.receipts hash) = db.get (.receipts hash))
    (b : Block) : entriesByHash db' hash b = entriesByHash db hash b := by
  rw [entriesByHash, entriesByHash, h]

variable {query : FilterQuery}

private theorem mem_blockEntries (I : n.toLedger.Inv E) (h : entry ∈ blockEntries E n.toLedger query hash) :
    entry.blockHash = hash ∧ entry.removed = false := by
  unfold blockEntries at h
  cases hblock : n.db.blockByHash hash with
  | none =>
    rw [hblock] at h
    cases h
  | some b =>
    rw [hblock, Option.elim_some] at h
    split at h
    · rw [filterBlockLogs, List.mem_filter] at h
      obtain ⟨-, hhash⟩ := I.chain.wellFormed.mem_of_blocks hblock
      rw [← hhash]
      exact mem_entriesByHash h.1
    · cases h

/-- Blocks have logs of their own. -/
theorem apart_blockEntries (I : n.toLedger.Inv E) : Apart (blockEntries E n.toLedger query) := fun _ _ hne _ h h' =>
  hne ((mem_blockEntries I h).1.symm.trans (mem_blockEntries I h').1)

theorem blockEntries_of_mem (hb : n.chain.Mem E b) : blockEntries E n.toLedger query (E.hash b) =
    if query.Includes b.number (E.hash b) then filterBlockLogs (entriesByHash n.db (E.hash b) b) query else [] := by
  have hstored : n.db.blockByHash (E.hash b) = some b := hb
  rw [blockEntries, hstored]
  rfl

theorem Keeps.blockEntries (K : Keeps E n n') (hb : n.chain.Mem E b) :
    blockEntries E n'.toLedger query (E.hash b) = Filters.blockEntries E n.toLedger query (E.hash b) := by
  rw [blockEntries_of_mem hb, blockEntries_of_mem (K.blocks hb), entriesByHash_congr (K.receipts hb)]

/-- The logs of the canonical chain, read in the node or later. -/
theorem Keeps.chainLogs (K : Keeps E n n') (I : n.toLedger.Inv E) :
    Chain.lineEntries E (Filters.blockEntries E n'.toLedger query) n.db.canonicalLine =
      chainLogs E n.toLedger query := by
  refine List.flatMap_congr fun b hb => ?_
  have hmem := I.mem_of_mem_canonicalLine (List.mem_reverse.mp hb)
  rw [K.blockEntries hmem, blockEntries_of_mem hmem, filterBlockLogs_eq]

/-! ## What a poll reads of an event -/

theorem resolveBound_ok {l : Ledger} {value : Option Int} {bound : Option UInt64}
    (hvalue : ∀ v ∈ value, 0 ≤ v) (h : resolveBound E l value head = .ok bound) :
    value = bound.map fun u => (u.toNat : Int) := by
  cases value with
  | none =>
    rw [resolveBound, Except.ok.injEq] at h
    rw [← h]
    rfl
  | some v =>
    have hpos : 0 ≤ v := hvalue v rfl
    rw [resolveBound, resolveLogBlockNumber] at h
    simp only [hpos, if_true] at h
    split at h
    · cases h
    · next hlt =>
      have hsmall : v.toNat < 2 ^ 64 := by omega
      rw [← Except.ok.inj h, Option.map_some, UInt64.toNat_ofNat_of_lt' hsmall, Int.toNat_of_nonneg hpos]

/-- With numbers for bounds, inclusion is decided by the block alone. -/
theorem filterIncludesBlock_ok (hquery : query.Bounded) {included : Bool}
    (h : filterIncludesBlock E reads query event head = .ok included) :
    included = true ↔ query.Includes event.blockNumber event.blockHash := by
  unfold filterIncludesBlock at h
  unfold FilterQuery.Includes
  cases hblock : query.blockHash with
  | some wanted =>
    simp only [hblock, Except.ok.injEq] at h
    rw [← h, decide_eq_true_iff]
  | none =>
    simp only [hblock, Except.do_ok_iff] at h
    obtain ⟨first, hfirst, h⟩ := h
    rw [resolveBound_ok hquery.first hfirst]
    split at h
    · next hbelow =>
      obtain ⟨a, rfl, hlt⟩ := hbelow
      obtain rfl : false = included := Except.ok.inj h
      have hnot : ¬ (a.toNat : Int) ≤ event.blockNumber := by omega
      simp [hnot]
    · next hbelow =>
      simp only [Except.do_ok_iff, Except.ok.injEq] at h
      obtain ⟨last, hlast, rfl⟩ := h
      rw [resolveBound_ok hquery.last hlast, decide_eq_true_iff]
      have hfirst' : ∀ value ∈ first.map fun u => (u.toNat : Int), value ≤ (event.blockNumber : Int) := by
        intro value hvalue
        obtain ⟨a, ha, rfl⟩ := Option.map_eq_some_iff.mp hvalue
        have : ¬ event.blockNumber < a.toNat := fun hlt => hbelow ⟨a, ha, hlt⟩
        omega
      constructor
      · intro habove
        refine ⟨hfirst', fun value hvalue => ?_⟩
        obtain ⟨b, hb, rfl⟩ := Option.map_eq_some_iff.mp hvalue
        have : ¬ b.toNat < event.blockNumber := fun hlt => habove ⟨b, hb, hlt⟩
        omega
      · rintro ⟨-, hle⟩ ⟨b, hb, hlt⟩
        have := hle b.toNat (Option.map_eq_some_iff.mpr ⟨b, hb, rfl⟩)
        omega

/-- The entries that a poll delivers for an event. -/
def announced (E : Env) (l : Ledger) (query : FilterQuery) (event : Event) : List LogEntry :=
  if event.aboutBlock then blockEntries E l query event.blockHash else []

/-- What is read for an event is what any later node has for it. -/
theorem eventLogs_ok (hquery : query.Bounded) (I : m.toLedger.Inv E) (hevent : event ∈ m.toLedger.emitted)
    (hblock : Keeps E m reads.block) (hreceipts : Keeps E m reads.receipts) (hlater : Keeps E m n')
    (h : eventLogs E reads query event head = .ok entries) : entries = announced E n'.toLedger query event := by
  unfold eventLogs at h
  unfold announced
  change (if event.aboutBlock then _ else _) = _ at h
  by_cases habout : event.aboutBlock
  · rw [if_pos habout, Except.do_ok_iff] at h
    rw [if_pos habout]
    obtain ⟨included, hincluded, h⟩ := h
    obtain ⟨b, hb, hhash, hnumber⟩ := I.chain.replay.names event hevent habout
    have hfound : reads.block.db.blockByHash event.blockHash = some b := hhash ▸ hblock.blocks hb
    have hiff := filterIncludesBlock_ok hquery hincluded
    rw [← hhash, ← hnumber] at hiff
    rw [← hhash, hlater.blockEntries hb, blockEntries_of_mem hb]
    split at h
    · next hin =>
      rw [if_pos (hiff.mp hin), ← Except.ok.inj h, hfound, Option.elim_some,
        entriesByHash_congr (hreceipts.receipts hb)]
    · next hout =>
      rw [if_neg fun hin => hout (hiff.mpr hin), ← Except.ok.inj h]
  · rw [if_neg habout] at h ⊢
    exact (Except.ok.inj h).symm

/-! ## Folding deliveries -/

/-- What a subscriber does with a delivered entry: a removed log is deleted, another one added. -/
def deliver (held : List LogEntry) (entry : LogEntry) : List LogEntry :=
  if entry.removed then held.erase { entry with removed := false } else held ++ [entry]

private theorem foldl_deliver (h : ∀ entry ∈ entries, entry.removed = false) (removed : Bool) (held : List LogEntry) :
    (entries.map fun entry => { entry with removed := removed }).foldl deliver held =
      if removed then entries.foldl List.erase held else held ++ entries := by
  induction entries generalizing held with
  | nil => cases removed <;> simp
  | cons entry rest ih =>
    have hentry : { entry with removed := false } = entry := by
      rw [← h entry List.mem_cons_self]
    rw [List.map_cons, List.foldl_cons, ih fun e he => h e (List.mem_cons_of_mem _ he)]
    cases removed with
    | false => simp [deliver, hentry]
    | true => simp [deliver, hentry]

/-- Delivering what the events announce settles them. -/
theorem foldl_deliver_announced (I : n.toLedger.Inv E) (events : List Event) (held : List LogEntry) :
    (events.flatMap fun event => (announced E n.toLedger query event).map fun entry =>
        { entry with removed := event.removed }).foldl deliver held =
      events.foldl (Event.settle (blockEntries E n.toLedger query)) held := by
  induction events generalizing held with
  | nil => rfl
  | cons event rest ih =>
    rw [List.flatMap_cons, List.foldl_append, ih, List.foldl_cons]
    congr 1
    unfold announced Event.settle
    split
    · exact foldl_deliver (fun entry hentry => (mem_blockEntries I hentry).2) _ _
    · rfl

end Filters

end Ethertest
