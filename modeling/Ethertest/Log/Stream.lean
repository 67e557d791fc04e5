-- SUMMARY: The Beacon event stream: the messages of an event, and that a stream can be cut and resumed at any message.
import Ethertest.Forks
import Ethertest.Log.Readers

/-!
# The Beacon event stream

An event gives up to four messages, and a message's wire identifier combines the event's
revision with the message's ordinal. A stream that is resumed after a wire identifier reads
the event of that identifier again and skips the messages that were sent.
-/

namespace Ethertest

open Window (Numbered numbered_cons numbered_append)

/-! ## Messages -/

/-- The topics that have messages. -/
inductive Topic where
  | block
  | head
  | executionPayloadAvailable
  | headV2
  | chainReorg
  | finalizedCheckpoint
  deriving DecidableEq

inductive MessageData where
  | block (slot : Nat) (block : Hash) (executionOptimistic : Bool)
  | head (slot : Nat) (block state : Hash) (epochTransition : Bool)
      (previousDutyDependentRoot currentDutyDependentRoot : Hash) (executionOptimistic : Bool)
  | executionPayloadAvailable (slot : Nat) (blockRoot : Hash)
  | headV2 (version : ForkName) (slot : Nat) (block state : Hash) (epochTransition executionOptimistic : Bool)
      (currentEpochDependentRoot nextEpochDependentRoot : Hash)
  | chainReorg (slot depth : Nat) (oldHeadBlock newHeadBlock oldHeadState newHeadState : Hash) (epoch : Nat)
      (executionOptimistic : Bool)
  | finalizedCheckpoint (block state : Hash) (epoch : Nat) (executionOptimistic : Bool)
  deriving DecidableEq

/-- `beaconEventMessage` -/
structure Message where
  topic : Topic
  ordinal : Nat
  data : MessageData
  deriving DecidableEq

/-- What the messages read of the node. -/
structure BeaconView where
  getBlockByHash : Hash → Option Block
  getBlock : Hash → Nat → Option Block
  slotOf : Block → Nat
  beaconRoot : Block → Option Hash
  /-- the state root of `signedHeader` -/
  headerState : Block → Option Hash
  beaconLineageTainted : Block → Bool
  forkName : Nat → ForkName
  slotsPerEpoch : Nat

namespace BeaconView

variable (V : BeaconView)

/-- The loop of `beaconAncestorRootAtSlot`, at a block with a number. -/
def ancestorRoot (slot : Nat) : Nat → Block → Option Hash
  | 0, block => if V.slotOf block ≤ slot then V.beaconRoot block else none
  | number + 1, block =>
    if V.slotOf block ≤ slot then V.beaconRoot block
    else (V.getBlock block.header.parentHash number).bind (ancestorRoot slot number)

def beaconAncestorRootAtSlot (block : Block) (slot : Nat) : Option Hash :=
  V.ancestorRoot slot block.header.number block

def epochTransition (event : Event) : Bool := event.slot % V.slotsPerEpoch = 0

section Block

variable (event : Event) (block : Block) (root : Hash) (topics : Topic → Bool)

def blockMessage : Option Message :=
  if topics .block then some ⟨.block, 0, .block event.slot root (V.beaconLineageTainted block)⟩ else none

def headMessage (state : Hash) : Message :=
  ⟨.head, 1, .head event.slot root state (V.epochTransition event) root root (V.beaconLineageTainted block)⟩

def payloadMessage : Option Message :=
  if V.forkName event.slot = .gloas ∧ topics .executionPayloadAvailable then
    some ⟨.executionPayloadAvailable, 4, .executionPayloadAvailable event.slot root⟩
  else none

def headV2Message : Option Message := do
  guard (topics .headV2)
  let state ← V.headerState block
  let epoch := event.slot / V.slotsPerEpoch
  let currentSlot := if 1 < epoch then (epoch - 1) * V.slotsPerEpoch - 1 else 0
  let nextSlot := if 0 < epoch then epoch * V.slotsPerEpoch - 1 else 0
  let current ← V.beaconAncestorRootAtSlot block currentSlot
  let next ← V.beaconAncestorRootAtSlot block nextSlot
  some ⟨.headV2, 5, .headV2 (V.forkName event.slot) event.slot root state (V.epochTransition event)
    (V.beaconLineageTainted block) current next⟩

/-- The messages of a block that has become canonical. -/
def blockMessages : List Message :=
  let messages := (V.blockMessage event block root topics).toList
  let rest := (V.payloadMessage event root topics).toList ++ (V.headV2Message event block root topics).toList
  if topics .head then
    match V.headerState block with
    -- the function returns what it has so far
    | none => messages
    | some state => messages ++ V.headMessage event block root state :: rest
  else messages ++ rest

end Block

def beaconEventMessages (topics : Topic → Bool) (event : Event) : List Message :=
  match event.type with
  | .block | .controlBlock =>
    if event.removed then []
    else
      match V.getBlockByHash event.blockHash with
      | none => []
      | some block =>
        match V.beaconRoot block with
        | none => []
        | some root => V.blockMessages event block root topics
  | .chainReorg =>
    if topics .chainReorg then
      match V.getBlockByHash event.oldHead, V.getBlockByHash event.newHead with
      | some oldBlock, some newBlock =>
        match V.beaconRoot oldBlock, V.beaconRoot newBlock, V.headerState oldBlock, V.headerState newBlock with
        | some oldRoot, some newRoot, some oldState, some newState =>
          [⟨.chainReorg, 2, .chainReorg event.slot event.depth oldRoot newRoot oldState newState
            (event.slot / V.slotsPerEpoch) (V.beaconLineageTainted newBlock)⟩]
        | _, _, _, _ => []
      | _, _ => []
    else []
  | .finalizedCheckpoint =>
    if topics .finalizedCheckpoint then
      match V.getBlockByHash event.blockHash with
      | none => []
      | some block =>
        match V.beaconRoot block, V.headerState block with
        | some root, some state =>
          [⟨.finalizedCheckpoint, 3, .finalizedCheckpoint root state (event.slot / V.slotsPerEpoch)
            (V.beaconLineageTainted block)⟩]
        | _, _ => []
    else []
  | .missedSlot => []

end BeaconView

/-- The messages of one event are in the order of their ordinals, which fit in three bits. -/
def Ordered (messages : List Message) : Prop :=
  messages.Pairwise (fun m m' => m.ordinal < m'.ordinal) ∧ ∀ m ∈ messages, m.ordinal < 8

theorem ordered_of_option {ordinal : Nat} (hlt : ordinal < 8) {message : Option Message}
    (h : ∀ m ∈ message, m.ordinal = ordinal) : Ordered message.toList := by
  cases message with
  | none => exact ⟨.nil, by simp⟩
  | some m => exact ⟨List.pairwise_singleton _ _, by simpa [h m rfl] using hlt⟩

theorem Ordered.append {l l' : List Message} (hl : Ordered l) (hl' : Ordered l')
    (h : ∀ m ∈ l, ∀ m' ∈ l', m.ordinal < m'.ordinal) : Ordered (l ++ l') :=
  ⟨List.pairwise_append.mpr ⟨hl.1, hl'.1, h⟩, fun m hm => (List.mem_append.mp hm).elim (hl.2 m) (hl'.2 m)⟩

namespace BeaconView

variable (V : BeaconView) (event : Event) (block : Block) (root : Hash) (topics : Topic → Bool)

private theorem ordinal_blockMessage : ∀ m ∈ V.blockMessage event block root topics, m.ordinal = 0 := by
  intro m hm
  unfold blockMessage at hm
  split at hm <;> simp at hm
  rw [← hm]

private theorem ordinal_payloadMessage : ∀ m ∈ V.payloadMessage event root topics, m.ordinal = 4 := by
  intro m hm
  unfold payloadMessage at hm
  split at hm <;> simp at hm
  rw [← hm]

private theorem ordinal_headV2Message : ∀ m ∈ V.headV2Message event block root topics, m.ordinal = 5 := by
  intro m hm
  simp only [headV2Message, Option.mem_def, Option.bind_eq_bind, Option.bind_eq_some_iff, Option.some.injEq] at hm
  obtain ⟨-, -, state, -, current, -, next, -, rfl⟩ := hm
  rfl

/-- Also when they end early, the messages of a block are ordered. -/
theorem ordered_blockMessages : Ordered (V.blockMessages event block root topics) := by
  have h0 := V.ordinal_blockMessage event block root topics
  have h4 := V.ordinal_payloadMessage event root topics
  have h5 := V.ordinal_headV2Message event block root topics
  have hblock := ordered_of_option (by decide) h0
  have hrest :
      Ordered ((V.payloadMessage event root topics).toList ++ (V.headV2Message event block root topics).toList) := by
    refine (ordered_of_option (by decide) h4).append (ordered_of_option (by decide) h5) fun m hm m' hm' => ?_
    rw [h4 m (Option.mem_toList.mp hm), h5 m' (Option.mem_toList.mp hm')]
    decide
  have hafter : ∀ m ∈ (V.payloadMessage event root topics).toList ++ (V.headV2Message event block root topics).toList,
      1 < m.ordinal := by
    intro m hm
    rcases List.mem_append.mp hm with hm | hm
    · rw [h4 m (Option.mem_toList.mp hm)]
      decide
    · rw [h5 m (Option.mem_toList.mp hm)]
      decide
  unfold blockMessages
  split
  · split
    · exact hblock
    · next state _ =>
      have hhead : Ordered [V.headMessage event block root state] :=
        ⟨List.pairwise_singleton _ _, by simp [headMessage]⟩
      refine hblock.append (hhead.append hrest ?_) ?_
      · intro m hm m' hm'
        rw [List.mem_singleton.mp hm]
        exact hafter m' hm'
      · intro m hm m' hm'
        rw [h0 m (Option.mem_toList.mp hm)]
        rcases List.mem_cons.mp hm' with rfl | hm'
        · exact Nat.one_pos
        · exact Nat.lt_trans Nat.one_pos (hafter m' hm')
  · refine hblock.append hrest fun m hm m' hm' => ?_
    rw [h0 m (Option.mem_toList.mp hm)]
    exact Nat.lt_trans Nat.one_pos (hafter m' hm')

theorem ordered_beaconEventMessages : Ordered (V.beaconEventMessages topics event) := by
  have hnil : Ordered [] := ⟨.nil, by simp⟩
  have hsingle : ∀ {m : Message}, m.ordinal < 8 → Ordered [m] := fun h =>
    ⟨List.pairwise_singleton _ _, by simpa using h⟩
  unfold beaconEventMessages
  split
  · split
    · exact hnil
    · split
      · exact hnil
      · split
        · exact hnil
        · exact V.ordered_blockMessages _ _ _ _
  · split
    · exact hnil
    · split
      · exact hnil
      · split
        · exact hnil
        · exact V.ordered_blockMessages _ _ _ _
  · repeat' split
    all_goals first | exact hnil | exact hsingle (show 2 < 8 by decide)
  · repeat' split
    all_goals first | exact hnil | exact hsingle (show 3 < 8 by decide)
  · exact hnil

end BeaconView

/-! ## The stream -/

structure Stream where
  revision : Nat
  lastWireID : Nat
  channel : Nat := 0
  /-- the messages that were sent, with their identifiers -/
  output : List (Nat × Message) := []

/-- The identifiers and messages of an event. -/
def wireMessages (messages : Event → List Message) (event : Event) : List (Nat × Message) :=
  (messages event).map fun m => ((event.revision * 8 + m.ordinal) % 2 ^ 64, m)

namespace Stream

variable (messages : Event → List Message)

/-- One message of the closure `writeEvents`. -/
def writeMessage (s : Stream) (message : Nat × Message) : Stream :=
  if message.1 ≤ s.lastWireID then s
  else { s with lastWireID := message.1, output := s.output ++ [message] }

def writeEvent (s : Stream) (event : Event) : Stream :=
  { (wireMessages messages event).foldl writeMessage s with revision := event.revision }

/-- `writeEvents` -/
def writeEvents (s : Stream) (events : List Event) : Stream := events.foldl (writeEvent messages) s

/-- The revision and the wire identifier that a stream starts from. -/
def start (l : SharedLog) : Option Nat → Stream
  | some lastEventID =>
    { revision := if 0 < lastEventID / 8 then lastEventID / 8 - 1 else 0, lastWireID := lastEventID }
  | none => { revision := l.log.current, lastWireID := (l.log.current * 8 + 7) % 2 ^ 64 }

/-- Read the log and send what is new. -/
def poll (l : SharedLog) (s : Stream) : Except Error Stream := do
  let (events, channel) ← l.sinceAndWait s.revision
  .ok { writeEvents messages s events with channel := channel }

/-- `beaconEvents`, up to its first flush. An error is answered with `StatusGone`. -/
def connect (l : SharedLog) (lastEventID : Option Nat) : Except Error Stream :=
  (start l lastEventID).poll messages l

end Stream

/-- A stream over its life, with all events that were written to the log and those that had
been written when it last read the log. A stream that hits a gap when it wakes
has ended. -/
inductive StreamRun (messages : Event → List Message) (w : Nat) :
    SharedLog → Stream → List Event → List Event → Prop
  | connect {l : SharedLog} {s : Stream} {all : List Event} (retains : l.log.Retains all)
      (capacity : 0 < l.log.capacity)
      (connected : Stream.connect messages l (some w) = .ok s) : StreamRun messages w l s all all
  | write {l : SharedLog} {s : Stream} {all seen events : List Event} {p : EventPlan}
      (run : StreamRun messages w l s all seen) (plan : l.log.plan events = .ok p) :
      StreamRun messages w (l.apply p) s (all ++ p.events) seen
  | wake {l : SharedLog} {s s' : Stream} {all seen : List Event} (run : StreamRun messages w l s all seen)
      (closed : l.Closed s.channel) (polled : s.poll messages l = .ok s') : StreamRun messages w l s' all all

/-- The messages of some events after a wire identifier. -/
def messagesAfter (messages : Event → List Message) (w : Nat) (events : List Event) : List (Nat × Message) :=
  (events.flatMap (wireMessages messages)).filter fun m => w < m.1

/-! ## Writing -/

section Writing

variable {messages : Event → List Message}

/-- The skip test is a filter on messages in order. -/
theorem foldl_writeMessage {batch : List (Nat × Message)} (h : batch.Pairwise fun m m' => m.1 < m'.1) (s : Stream) :
    (batch.foldl Stream.writeMessage s).output = s.output ++ batch.filter (fun m => s.lastWireID < m.1) ∧
      s.lastWireID ≤ (batch.foldl Stream.writeMessage s).lastWireID ∧
      ∀ b, s.lastWireID ≤ b → (∀ m ∈ batch, m.1 ≤ b) → (batch.foldl Stream.writeMessage s).lastWireID ≤ b := by
  induction batch generalizing s with
  | nil => simp
  | cons m batch ih =>
    obtain ⟨hm, hbatch⟩ := List.pairwise_cons.mp h
    rw [List.foldl_cons]
    by_cases hskip : m.1 ≤ s.lastWireID
    · rw [Stream.writeMessage, if_pos hskip, List.filter_cons_of_neg (by simpa using hskip)]
      obtain ⟨houtput, hle, hbound⟩ := ih hbatch s
      exact ⟨houtput, hle, fun b hs hb => hbound b hs fun m' hm' => hb m' (List.mem_cons_of_mem _ hm')⟩
    · rw [Stream.writeMessage, if_neg hskip, List.filter_cons_of_pos (by simpa using hskip)]
      obtain ⟨houtput, hle, hbound⟩ := ih hbatch { s with lastWireID := m.1, output := s.output ++ [m] }
      simp only at houtput hle hbound
      refine ⟨?_, by
        omega, fun b _ hb => hbound b (hb m List.mem_cons_self) fun m' hm' => hb m' (List.mem_cons_of_mem _ hm')⟩
      rw [houtput, List.append_assoc, List.singleton_append]
      congr 2
      -- what follows a sent message is after it anyway
      refine List.filter_congr fun m' hm' => ?_
      have := hm m' hm'
      simp only [decide_eq_decide]
      omega

private theorem revision_foldl_writeMessage (batch : List (Nat × Message)) (s : Stream) (revision : Nat) :
    batch.foldl Stream.writeMessage { s with revision := revision } =
      { batch.foldl Stream.writeMessage s with revision := revision } := by
  induction batch generalizing s with
  | nil => rfl
  | cons m batch ih =>
    rw [List.foldl_cons, List.foldl_cons, ← ih]
    congr 1
    unfold Stream.writeMessage
    split <;> rfl

/-- `writeEvents` sends the messages of consecutive events in one sequence. -/
theorem writeEvents_eq {s : Stream} {events : List Event} (h : Numbered Event.revision (s.revision + 1) events) :
    s.writeEvents messages events =
      { (events.flatMap (wireMessages messages)).foldl Stream.writeMessage s with
        revision := s.revision + events.length } := by
  induction events generalizing s with
  | nil => rfl
  | cons e events ih =>
    obtain ⟨he, hevents⟩ := numbered_cons.mp h
    have hrevision : (s.writeEvent messages e).revision = s.revision + 1 := he
    rw [Stream.writeEvents, List.foldl_cons, ← Stream.writeEvents, ih (by rwa [hrevision]), hrevision,
      Stream.writeEvent, revision_foldl_writeMessage, List.flatMap_cons, List.foldl_append, List.length_cons]
    simp only [Nat.add_assoc, Nat.add_comm 1]

end Writing

/-! ## What a stream has sent -/

section Sent

variable {messages : Event → List Message}

/-- The identifiers of an event's messages. -/
theorem wireID_bounds (hordered : ∀ e, Ordered (messages e)) {e : Event} (he : e.revision < 2 ^ 61)
    {m : Nat × Message} (hm : m ∈ wireMessages messages e) :
    e.revision * 8 ≤ m.1 ∧ m.1 ≤ e.revision * 8 + 7 := by
  obtain ⟨message, hmessage, rfl⟩ := List.mem_map.mp hm
  have := (hordered e).2 message hmessage
  rw [Nat.mod_eq_of_lt (by omega)]
  omega

variable {events all seen : List Event} {w : Nat} {l : SharedLog}

/-- The messages of consecutive events are in strict order. -/
theorem pairwise_wireMessages (hordered : ∀ e, Ordered (messages e)) {first : Nat}
    (h : Numbered Event.revision first events) (hbound : ∀ e ∈ events, e.revision < 2 ^ 61) :
    (events.flatMap (wireMessages messages)).Pairwise fun m m' => m.1 < m'.1 := by
  refine List.pairwise_flatMap.mpr ⟨fun e he => ?_, ?_⟩
  · refine List.pairwise_map.mpr ((hordered e).1.imp_of_mem fun {m m'} hm hm' hlt => ?_)
    have := hbound e he
    have := (hordered e).2 m hm
    have := (hordered e).2 m' hm'
    rw [Nat.mod_eq_of_lt (by omega), Nat.mod_eq_of_lt (by omega)]
    omega
  · refine h.pairwise.imp_of_mem fun {e e'} he he' hlt m hm m' hm' => ?_
    have := wireID_bounds hordered (hbound e he) hm
    have := wireID_bounds hordered (hbound e' he') hm'
    omega

theorem messagesAfter_append (w : Nat) (events events' : List Event) :
    messagesAfter messages w (events ++ events') = messagesAfter messages w events ++
      messagesAfter messages w events' := by
  rw [messagesAfter, List.flatMap_append, List.filter_append]
  rfl

/-- Events before the one that the identifier belongs to have no message after it. -/
theorem messagesAfter_eq_nil (hordered : ∀ e, Ordered (messages e))
    (h : ∀ e ∈ events, 0 < e.revision ∧ e.revision ≤ w / 8 - 1 ∧ e.revision < 2 ^ 61) :
    messagesAfter messages w events = [] := by
  refine List.filter_eq_nil_iff.mpr fun m hm hlt => ?_
  obtain ⟨e, he, hm⟩ := List.mem_flatMap.mp hm
  obtain ⟨hpos, hle, hbound⟩ := h e he
  have := wireID_bounds hordered hbound hm
  simp only [decide_eq_true_eq] at hlt
  omega

/-- The stream has sent what follows the wire identifier in some events, and its cursor is behind
them. -/
structure Sent (messages : Event → List Message) (w : Nat) (s : Stream) (seen : List Event) : Prop where
  revision : s.revision = max (w / 8 - 1) seen.length
  low : w ≤ s.lastWireID
  high : s.lastWireID ≤ max w (s.revision * 8 + 7)
  output : s.output = messagesAfter messages w seen

theorem sent_start (messages : Event → List Message) (l : SharedLog) (w : Nat) :
    Sent messages w (Stream.start l (some w)) [] where
  revision := by
    simp only [Stream.start, List.length_nil]
    split <;> omega
  low := le_refl _
  high := Nat.le_max_left _ _
  output := rfl

/-- Reading the log brings the stream up to date. -/
theorem Sent.poll (hordered : ∀ e, Ordered (messages e)) {s s' : Stream} (S : Sent messages w s seen)
    (R : l.log.Retains all) (hcapacity : 0 < l.log.capacity) (hbound : ∀ e ∈ all, e.revision < 2 ^ 61)
    (hseen : seen <+: all) (h : s.poll messages l = .ok s') :
    Sent messages w s' all ∧ s'.channel = l.changed := by
  simp only [Stream.poll, SharedLog.sinceAndWait, Except.do_ok_iff, Except.ok.injEq] at h
  obtain ⟨_, ⟨events, hsince, rfl⟩, rfl⟩ := h
  have hnumbered := (R.since_ok hsince).1
  have hfilter := R.since_ok_all hcapacity hsince
  have hrevision := S.revision
  have hlength := hseen.length_le
  -- the events read are all but the first ones
  have hdrop : events = all.drop s.revision := by
    rw [hfilter, ← R.numbered.dropWhile_le_eq_filter, R.numbered.dropWhile_le]
    rfl
  have hmem : ∀ e ∈ events, e ∈ all := fun e he => List.mem_of_mem_drop (hdrop ▸ he)
  have hsorted := pairwise_wireMessages hordered hnumbered fun e he => hbound e (hmem e he)
  obtain ⟨houtput, hle, hupper⟩ := foldl_writeMessage hsorted s
  have hnew : ∀ m ∈ events.flatMap (wireMessages messages), s.revision * 8 + 7 < m.1 ∧
      m.1 ≤ (s.revision + events.length) * 8 + 7 := by
    intro m hm
    obtain ⟨e, he, hm⟩ := List.mem_flatMap.mp hm
    have := wireID_bounds hordered (hbound e (hmem e he)) hm
    have := hnumbered.bounds he
    omega
  have hlow := S.low
  have hhigh := S.high
  rw [writeEvents_eq hnumbered]
  refine ⟨⟨?_, ?_, ?_, ?_⟩, rfl⟩
  · simp only [hdrop, List.length_drop]
    omega
  · exact hlow.trans hle
  · refine hupper _ ?_ fun m hm => ?_
    · simp only
      omega
    · have := hnew m hm
      simp only
      omega
  · -- after what was sent, the skip test is the test against the wire identifier
    have hskip : (events.flatMap (wireMessages messages)).filter (fun m => decide (s.lastWireID < m.1)) =
        messagesAfter messages w events := by
      refine List.filter_congr fun m hm => ?_
      have := hnew m hm
      simp only [decide_eq_decide]
      omega
    have hgap : messagesAfter messages w ((all.drop seen.length).take (s.revision - seen.length)) = [] := by
      refine messagesAfter_eq_nil hordered fun e he => ?_
      have hpart := ((R.numbered.drop seen.length).take (s.revision - seen.length)).bounds he
      have hlen := List.length_take_le (s.revision - seen.length) (all.drop seen.length)
      exact ⟨by omega, by omega, hbound e (List.mem_of_mem_drop (List.mem_of_mem_take he))⟩
    have hrest : all.drop seen.length = (all.drop seen.length).take (s.revision - seen.length) ++ events := by
      conv_lhs => rw [← List.take_append_drop (s.revision - seen.length) (all.drop seen.length)]
      rw [List.drop_drop, Nat.add_sub_cancel' (by omega), ← hdrop]
    have hall : all = seen ++ all.drop seen.length := by
      conv_lhs => rw [← List.take_append_drop seen.length all, ← List.prefix_iff_eq_take.mp hseen]
    change (List.foldl Stream.writeMessage s _).output = _
    rw [houtput, hskip, S.output]
    conv_rhs => rw [hall, hrest, messagesAfter_append, messagesAfter_append, hgap, List.nil_append]

theorem StreamRun.invariant (hordered : ∀ e, Ordered (messages e)) {s : Stream}
    (h : StreamRun messages w l s all seen) (hbound : ∀ e ∈ all, e.revision < 2 ^ 61) :
    l.log.Retains all ∧ 0 < l.log.capacity ∧ Sent messages w s seen ∧ seen <+: all ∧
      s.channel ≤ l.changed ∧ (s.channel = l.changed → seen = all) := by
  induction h with
  | connect retains capacity connected =>
    obtain ⟨S, hchannel⟩ := (sent_start _ _ w).poll hordered retains capacity hbound List.nil_prefix connected
    exact ⟨retains, capacity, S, List.prefix_rfl, hchannel.le, fun _ => rfl⟩
  | write run plan ih =>
    obtain ⟨R, hcapacity, S, hseen, hle, hopen⟩ := ih fun e he => hbound e (List.mem_append_left _ he)
    refine ⟨R.apply
      plan, by rwa [SharedLog.apply, EventLog.apply_capacity], S, hseen.trans (List.prefix_append _ _), ?_⟩
    simp only [SharedLog.apply]
    split
    · next hnil => exact ⟨hle, fun heq => by rw [hnil, List.append_nil]; exact hopen heq⟩
    · exact ⟨by omega, fun heq => by omega⟩
  | wake run closed polled ih =>
    obtain ⟨R, hcapacity, S, hseen, hle, hopen⟩ := ih hbound
    obtain ⟨S', hchannel⟩ := S.poll hordered R hcapacity hbound hseen polled
    exact ⟨R, hcapacity, S', List.prefix_rfl, hchannel.le, fun _ => rfl⟩

/-- A message after the wire identifier of a discarded event makes the stream answer that it is gone. -/
theorem connect_gone (hordered : ∀ e, Ordered (messages e)) (hw : w ≤ maxUint64) (R : l.log.Retains all)
    (hcapacity : 0 < l.log.capacity) (hbound : ∀ e ∈ all, e.revision < 2 ^ 61)
    (h : messagesAfter messages w (Window.discarded l.log.capacity all) ≠ []) :
    Stream.connect messages l (some w) = .error errEventGap := by
  obtain ⟨m, hm⟩ := List.exists_mem_of_ne_nil _ h
  obtain ⟨hm, hlt⟩ := List.mem_filter.mp hm
  obtain ⟨e, he, hm⟩ := List.mem_flatMap.mp hm
  have hid := wireID_bounds hordered (hbound e (List.mem_of_mem_take he)) hm
  have hpos := (R.numbered.bounds (List.mem_of_mem_take he)).1
  have hrevision := (sent_start messages l w).revision
  rw [List.length_nil] at hrevision
  simp only [decide_eq_true_eq] at hlt
  have hwindow : RetainedWindow Event.revision l.log.capacity ((all.length + 1) % 2 ^ 64) all l.log.events := by
    rw [R.events]
    exact .of_numbered hcapacity R.numbered rfl (by have := R.next; have := R.bound; omega)
  have hsince : l.log.since (Stream.start l (some w)).revision = .error errEventGap := by
    rw [EventLog.since, hwindow.since _ (by unfold maxUint64 at *; omega), if_pos]
    rw [discarded_min]
    exact ⟨e, he, by omega⟩
  rw [Stream.connect, Stream.poll, SharedLog.sinceAndWait, hsince]
  rfl

/-- Cutting the messages after an identifier off at one of them leaves the messages after that one. -/
theorem messagesAfter_cut (hordered : ∀ e, Ordered (messages e)) {w' : Nat} {more : List Event}
    {sent lost : List (Nat × Message)} {m : Message} (h : Numbered Event.revision 1 (seen ++ more))
    (hbound : ∀ e ∈ seen ++ more, e.revision < 2 ^ 61)
    (hcut : messagesAfter messages w seen = sent ++ (w', m) :: lost) :
    sent ++ (w', m) :: messagesAfter messages w' (seen ++ more) = messagesAfter messages w (seen ++ more) := by
  have hsorted := pairwise_wireMessages hordered h hbound
  have hwhole : messagesAfter messages w (seen ++ more) =
      sent ++ (w', m) :: (lost ++ messagesAfter messages w more) := by
    rw [messagesAfter_append, hcut, List.append_assoc, List.cons_append]
  have hlt : w < w' := by
    have hmem : (w', m) ∈ messagesAfter messages w seen := by rw [hcut]; simp
    simpa using (List.mem_filter.mp hmem).2
  -- the later test is the earlier one followed by the later one
  have htwice : messagesAfter messages w' (seen ++ more) =
      (messagesAfter messages w (seen ++ more)).filter fun m => w' < m.1 := by
    unfold messagesAfter
    rw [List.filter_filter]
    refine List.filter_congr fun m' _ => ?_
    rw [← Bool.decide_and, decide_eq_decide]
    omega
  have hpairwise : (messagesAfter messages w (seen ++ more)).Pairwise fun m m' => m.1 < m'.1 := hsorted.filter _
  rw [hwhole, List.pairwise_append, List.pairwise_cons] at hpairwise
  obtain ⟨-, ⟨hafter, -⟩, hbefore⟩ := hpairwise
  have hsent : sent.filter (fun m => decide (w' < m.1)) = [] := by
    refine List.filter_eq_nil_iff.mpr fun m' hm' => ?_
    have := hbefore m' hm' (w', m) List.mem_cons_self
    simp only [decide_eq_true_eq]
    omega
  have hrest : (lost ++ messagesAfter messages w more).filter (fun m => decide (w' < m.1)) =
      lost ++ messagesAfter messages w more :=
    List.filter_eq_self.mpr fun m' hm' => by simpa using hafter m' hm'
  rw [htwice, hwhole, List.filter_append, hsent, List.nil_append, List.filter_cons_of_neg (by simp), hrest]

end Sent

/-! ## Resuming -/

/-- A stream that was not refused has sent exactly the messages after its wire identifier, in strict
order, of the events up to its last read, and it has read everything unless it is to be
woken; it is refused if such a message is gone; and a cut stream continues where it was
cut. -/
theorem stream_resume (V : BeaconView) (topics : Topic → Bool) {w : Nat} (hw : w ≤ maxUint64) {l : SharedLog}
    {all : List Event} (hbound : ∀ e ∈ all, e.revision < 2 ^ 61) :
    (∀ s seen, StreamRun (V.beaconEventMessages topics) w l s all seen →
      s.output = messagesAfter (V.beaconEventMessages topics) w seen ∧
        s.output.Pairwise (fun m m' => m.1 < m'.1) ∧ seen <+: all ∧ (¬ l.Closed s.channel → seen = all) ∧
        -- another stream, cut after a message and resumed on this log
        ∀ w₀ l₀ s₀ all₀ seen₀ sent m lost, StreamRun (V.beaconEventMessages topics) w₀ l₀ s₀ all₀ seen₀ →
          s₀.output = sent ++ (w, m) :: lost → all₀ <+: seen →
          sent ++ (w, m) :: s.output = messagesAfter (V.beaconEventMessages topics) w₀ seen) ∧
    (l.log.Retains all → 0 < l.log.capacity →
      messagesAfter (V.beaconEventMessages topics) w (Window.discarded l.log.capacity all) ≠ [] →
      Stream.connect (V.beaconEventMessages topics) l (some w) = .error errEventGap) := by
  have hordered := fun e => V.ordered_beaconEventMessages e topics
  refine ⟨fun s seen run => ?_, fun R hcapacity => connect_gone hordered hw R hcapacity hbound⟩
  obtain ⟨R, -, S, hseen, hle, hopen⟩ := run.invariant hordered hbound
  obtain ⟨unseen, rfl⟩ := hseen
  have hnumbered := (numbered_append.mp R.numbered).1
  have hbound' : ∀ e ∈ seen, e.revision < 2 ^ 61 := fun e he => hbound e (List.mem_append_left _ he)
  refine ⟨S.output, ?_, List.prefix_append _ _, fun hclosed => hopen ?_, ?_⟩
  · rw [S.output]
    exact (pairwise_wireMessages hordered hnumbered hbound').filter _
  · exact Nat.le_antisymm hle (Nat.le_of_not_lt hclosed)
  · intro w₀ l₀ s₀ all₀ seen₀ sent m lost run₀ hcut hsame
    have hbound₀ : ∀ e ∈ all₀, e.revision < 2 ^ 61 := fun e he => hbound' e (hsame.subset he)
    obtain ⟨-, -, S₀, hseen₀, -, -⟩ := run₀.invariant hordered hbound₀
    obtain ⟨more, rfl⟩ := hseen₀.trans hsame
    rw [S.output]
    exact messagesAfter_cut hordered hnumbered hbound' (S₀.output ▸ hcut)

/-- A node on which every hash gives one block. -/
def sampleView : BeaconView where
  getBlockByHash _ := some { header := { parentHash := 0, coinbase := 0, number := 0, gasLimit := 0, time := 0 } }
  getBlock _ _ := none
  slotOf _ := 0
  beaconRoot _ := some 5
  headerState _ := some 6
  beaconLineageTainted _ := false
  forkName _ := .fulu
  slotsPerEpoch := 8

def sampleMessages : Event → List Message := sampleView.beaconEventMessages fun _ => true

/-- Two blocks in a log that keeps two events. -/
def sampleLog : SharedLog where
  log :=
    { capacity := 2
      next := 3
      events := [{ revision := 1, type := .block, slot := 1 }, { revision := 2, type := .block, slot := 2 }] }

/-- Resuming between the messages of the first block. -/
theorem stream_resume_between :
    ∃ s, Stream.connect sampleMessages sampleLog (some 8) = .ok s ∧
      s.output = messagesAfter sampleMessages 8 sampleLog.log.events ∧ s.output.map Prod.fst = [9, 13, 16, 17, 21] := by
  have hretains : sampleLog.log.Retains sampleLog.log.events := ⟨rfl, rfl, by decide, rfl⟩
  refine ⟨_, rfl, ?_, by decide⟩
  exact ((stream_resume sampleView (fun _ => true) (by decide) (by decide)).1 _ _
    (.connect hretains (by decide) rfl)).1

end Ethertest
