-- SUMMARY: What request assembly makes of a block: its controls, its list and record, and when it succeeds.
import Ethertest.Requests.Accepted
import Ethertest.Requests.Assembly

/-!
# Assembled requests

`Assembles` says what `prepareExecutionRequestBlock` returns. A block takes as many controls
of each type as the payload limits leave room for, from the front of the queue; its list has
the native entries of a type first and those controls after them. From the hash in the header
the record can be recovered: two assembled blocks that are equal, with the same native
requests and queues that agree, have the same record.
-/

namespace Ethertest

variable {G : Geth} {block : Block} {native : Option (List Bytes)} {queue : ExecutionRequestQueue}
  {p : PreparedBlock} {r r' : ExecutionRequests} {c : ExecutionRequestControlSet}

/-! ## Appending controls -/

theorem map_encode_of_controls {α : Type} {decode : Bytes → Except Error α} {encode : α → Bytes}
    (hcode : ∀ {data v}, decode data = .ok v → encode v = data) {items : List QueuedExecutionRequest}
    {values : List α} (h : items.mapM (fun item => decode item.data) = .ok values) :
    values.map encode = items.map (·.data) := by
  refine map_encode_of_mapM hcode ?_
  rw [List.mapM_map]
  exact h

/-- Appended controls follow the entries of their type; builder entries stay. -/
theorem append_entries (h : appendExecutionRequestControls (some r) c = .ok (some r')) :
    (∀ t, r'.encodedOf t = r.encodedOf t ++ (c.get t).map (·.data)) ∧
      r'.builderDeposits = r.builderDeposits ∧ r'.builderExits = r.builderExits := by
  simp only [appendExecutionRequestControls, Except.do_ok_iff, Except.ok.injEq, Option.some.injEq] at h
  obtain ⟨deposits, hd, withdrawals, hw, consolidations, hc, rfl⟩ := h
  refine ⟨fun t => ?_, rfl, rfl⟩
  cases t with
  | deposit =>
    simp [ExecutionRequests.encodedOf, ExecutionRequestControlSet.get,
      map_encode_of_controls (fun h => (encode_decodeDepositRequest h).1) hd]
  | withdrawal =>
    simp [ExecutionRequests.encodedOf, ExecutionRequestControlSet.get,
      map_encode_of_controls encode_decodeWithdrawalRequest hw]
  | consolidation =>
    simp [ExecutionRequests.encodedOf, ExecutionRequestControlSet.get,
      map_encode_of_controls encode_decodeConsolidationRequest hc]

theorem append_fits (hfits : r.Fits) (h : appendExecutionRequestControls (some r) c = .ok (some r')) : r'.Fits := by
  simp only [appendExecutionRequestControls, Except.do_ok_iff, Except.ok.injEq, Option.some.injEq] at h
  obtain ⟨deposits, hd, withdrawals, hw, consolidations, hc, rfl⟩ := h
  have hd' : (c.deposits.map (·.data)).mapM decodeDepositRequest = .ok deposits := by
    rw [List.mapM_map]
    exact hd
  intro d hmem
  rcases List.mem_append.mp hmem with hmem | hmem
  · exact hfits d hmem
  · exact fits_of_mapM hd' d hmem

theorem append_nil (h : c.count = 0) :
    appendExecutionRequestControls (some r) c = .ok (some r) := by
  have hget := ExecutionRequestControlSet.count_eq_zero.mp h
  have hdeposits : c.deposits = [] := hget .deposit
  have hwithdrawals : c.withdrawals = [] := hget .withdrawal
  have hconsolidations : c.consolidations = [] := hget .consolidation
  simp [appendExecutionRequestControls, hdeposits, hwithdrawals, hconsolidations, bind, Except.bind, pure, Except.pure]

/-- Controls whose data has the size of their type can be appended. -/
theorem append_ok (h : ∀ t, ∀ item ∈ c.get t, item.data.length = t.size) :
    ∃ r', appendExecutionRequestControls (some r) c = .ok (some r') := by
  obtain ⟨deposits, hd⟩ := Except.exists_mapM_ok fun item hi => decodeDepositRequest_ok (h .deposit item hi)
  obtain ⟨withdrawals, hw⟩ := Except.exists_mapM_ok fun item hi => decodeWithdrawalRequest_ok (h .withdrawal item hi)
  obtain ⟨consolidations, hc⟩ :=
    Except.exists_mapM_ok fun item hi => decodeConsolidationRequest_ok (h .consolidation item hi)
  simp only [ExecutionRequestControlSet.get] at hd hw hc
  exact ⟨_, by simp only [appendExecutionRequestControls, hd, hw, hc, bind, Except.bind]; rfl⟩

/-- The controls that fit next to the native entries keep the list within every limit. -/
theorem append_withinLimits (hlimits : r.WithinLimits)
    (h : appendExecutionRequestControls (some r) c = .ok (some r'))
    (hc : ∀ t, c.get t = (queue.get t).take (controlCount r queue t)) : r'.WithinLimits := by
  obtain ⟨hcounts, hdeposits, hexits⟩ := ExecutionRequests.withinLimits_iff_counts.mp hlimits
  obtain ⟨hentries, hdeposits', hexits'⟩ := append_entries h
  refine ExecutionRequests.withinLimits_iff_counts.mpr ⟨fun t => ?_, hdeposits' ▸ hdeposits, hexits' ▸ hexits⟩
  have hroom : (c.get t).length ≤ t.limit - r.countOf t := by
    rw [hc t, controlCount]
    exact (List.length_take_le _ _).trans (min_le_left _ _)
  rw [← ExecutionRequests.length_encodedOf, hentries, List.length_append, List.length_map,
    ExecutionRequests.length_encodedOf]
  have := hcounts t
  omega

/-! ## The guarantee -/

/-- The longest front of a list with at most the given number of elements. -/
def LongestFitting {α : Type} (room : Nat) (front l : List α) : Prop :=
  front <+: l ∧ front.length ≤ room ∧ ∀ other, other <+: l → other.length ≤ room → other <+: front

theorem longestFitting_take {α : Type} (room : Nat) (l : List α) :
    LongestFitting room (l.take (min room l.length)) l := by
  refine ⟨List.take_prefix _ _, (List.length_take_le _ _).trans (min_le_left _ _), fun other hother hroom => ?_⟩
  rw [List.prefix_iff_eq_take.mp hother]
  exact List.take_prefix_take_left (le_min hroom hother.length_le)

/-- What assembly makes of a block, its native requests and a queue. -/
structure Assembles (G : Geth) (block : Block) (native : Option (List Bytes)) (queue : ExecutionRequestQueue)
    (p : PreparedBlock) : Prop where
  /-- only the hash of the requests changes -/
  sealed : ∃ hash, p.block = block.withSeal { block.header with requestsHash := hash }
  /-- the header commits to the recorded list -/
  requestsHash : p.block.header.requestsHash = p.record.requests.map G.calcRequestsHash
  parsed : parseExecutionRequests p.record.requests = .ok p.requests
  format : p.record.format = executionRequestRecordFormat
  nativeRequests : p.record.nativeRequests = native
  /-- the controls are the front of the queue -/
  split : ∀ t, p.record.controls.get t ++ p.remaining.get t = queue.get t
  remaining : p.remaining.format = queue.format ∧ p.remaining.nextID = queue.nextID
  controlled : p.controlled = true ↔ ∃ t, p.record.controls.get t ≠ []
  /-- a block before Prague has no requests at all -/
  prePrague : native = none → p.record.requests = none ∧ ∀ t, p.record.controls.get t = []
  /-- the controls of a type are what the limit leaves room for, and follow the native entries -/
  consumed : ∀ l, native = some l → ∃ l', p.record.requests = some l' ∧ ListAccepted l' ∧
    (∀ t : RequestType, (itemEntries t.byte l).length ≤ t.limit ∧
      LongestFitting (t.limit - (itemEntries t.byte l).length) (p.record.controls.get t) (queue.get t) ∧
      itemEntries t.byte l' = itemEntries t.byte l ++ (p.record.controls.get t).map (·.data)) ∧
    itemEntries executionRequestBuilderDeposit l' = itemEntries executionRequestBuilderDeposit l ∧
    itemEntries executionRequestBuilderExit l' = itemEntries executionRequestBuilderExit l

theorem Assembles.controlled_iff (h : Assembles G block native queue p) :
    p.controlled = true ↔ p.record.controls.count ≠ 0 := by
  rw [h.controlled, ne_eq, ExecutionRequestControlSet.count_eq_zero, not_forall]

theorem verify_requestsHash (h : verifyExecutionRequestsHash G block native = .ok ()) :
    block.header.requestsHash = native.map G.calcRequestsHash := by
  simp only [verifyExecutionRequestsHash, Except.do_ok_iff, failIf_eq_ok, exists_const] at h
  obtain ⟨-, h⟩ := h
  cases native with
  | none =>
    cases hh : block.header.requestsHash with
    | none => rfl
    | some hash => simp [hh] at h
  | some l =>
    cases hh : block.header.requestsHash with
    | none => simp [hh] at h
    | some hash =>
      simp only [hh, failIf_eq_ok, not_not] at h
      rw [h]
      rfl

/-- Verification passes on a matching hash, unless the list has builder requests and the
block no slot number. -/
theorem verify_ok
    (hhash : block.header.requestsHash = native.map G.calcRequestsHash)
    (hbuilder : block.header.slotNumber = none → ∀ request ∈ native.getD [], ∀ b ∈ request.head?,
      b < executionRequestBuilderDeposit) :
    verifyExecutionRequestsHash G block native = .ok () := by
  have hno : ¬ (block.header.slotNumber = none ∧
      ∃ request ∈ native.getD [], ∃ b ∈ request.head?, executionRequestBuilderDeposit ≤ b) := by
    rintro ⟨hslot, request, hrequest, b, hb, hle⟩
    exact UInt8.not_le.mpr (hbuilder hslot request hrequest b hb) hle
  unfold verifyExecutionRequestsHash
  rw [failIf, if_neg hno]
  cases native with
  | none => simp [hhash, bind, Except.bind]
  | some l => simp [hhash, failIf, bind, Except.bind]

theorem prepare_none (h : prepareExecutionRequestBlock G block none queue = .ok p) :
    block.header.requestsHash = none ∧ p =
      { block := block, requests := none, remaining := queue, controlled := false,
        record :=
          { format := executionRequestRecordFormat, nativeRequests := none, requests := none, controls := {} } } := by
  simp only [prepareExecutionRequestBlock, Except.do_ok_iff, Except.unit_ok_iff, failIf_eq_ok, not_not,
    exists_const, parseExecutionRequests, Except.ok.injEq, exists_eq_left'] at h
  obtain ⟨hverify, -, -, -, rfl⟩ := h
  exact ⟨verify_requestsHash hverify, rfl⟩

/-- The values that a block after Prague is assembled from: `r` is its native list, `r'` the
list with the controls. -/
theorem prepare_some {l : List Bytes} (h : prepareExecutionRequestBlock G block (some l) queue = .ok p) :
    ∃ r r' c, parseExecutionRequests (some l) = .ok (some r) ∧
      appendExecutionRequestControls (some r) c = .ok (some r') ∧ r'.Fits ∧
      (∀ t, c.get t = (queue.get t).take (controlCount r queue t)) ∧
      p = { block := block.withSeal { block.header with requestsHash := some (G.calcRequestsHash r'.marshalled) }
            requests := some r'
            record := { format := executionRequestRecordFormat, nativeRequests := some l,
                        requests := some r'.marshalled, controls := c }
            remaining := queue.withControls (.ofFun fun t => (queue.get t).drop (controlCount r queue t))
            controlled := decide (c.count ≠ 0) } := by
  simp only [prepareExecutionRequestBlock, Except.do_ok_iff, Except.unit_ok_iff, failIf_eq_ok, not_not,
    exists_const] at h
  obtain ⟨hverify, parsed, hparse, roundTrip, hround, rfl, h⟩ := h
  have hhash : block.header.requestsHash = some (G.calcRequestsHash l) := verify_requestsHash hverify
  obtain ⟨r, rfl, -, hfits, hlist, -⟩ := parse_eq_ok hparse
  simp only [Except.do_ok_iff] at h
  obtain ⟨combined, hcombined, bytes, hbytes, h⟩ := h
  obtain ⟨r', rfl⟩ : ∃ r', combined = some r' := by
    simp only [appendExecutionRequestControls, Except.do_ok_iff, Except.ok.injEq] at hcombined
    obtain ⟨_, -, _, -, _, -, rfl⟩ := hcombined
    exact ⟨_, rfl⟩
  obtain ⟨hfits', rfl⟩ := marshal_eq_ok.mp hbytes
  refine ⟨r, r', _, hparse, hcombined, hfits', fun t => ExecutionRequestControlSet.get_ofFun .., ?_⟩
  split at h
  · next hzero =>
    -- without controls the native list is kept as it is
    obtain rfl := Except.ok.inj h
    obtain rfl : r' = r := by
      rw [append_nil hzero] at hcombined
      exact (Option.some.inj (Except.ok.inj hcombined)).symm
    rw [hlist, ← hhash]
    simp [hzero, Block.withSeal]
  · next hpos =>
    obtain rfl := Except.ok.inj h
    simp [hpos]

/-- The list of an assembled block after Prague. -/
theorem append_consumed {l : List Bytes} (hparse : parseExecutionRequests (some l) = .ok (some r))
    (happend : appendExecutionRequestControls (some r) c = .ok (some r')) (hfits' : r'.Fits)
    (hc : ∀ t, c.get t = (queue.get t).take (controlCount r queue t)) :
    r'.WithinLimits ∧
      (∀ t : RequestType, (itemEntries t.byte l).length ≤ t.limit ∧
        LongestFitting (t.limit - (itemEntries t.byte l).length) (c.get t) (queue.get t) ∧
        itemEntries t.byte r'.marshalled = itemEntries t.byte l ++ (c.get t).map (·.data)) ∧
      itemEntries executionRequestBuilderDeposit r'.marshalled = itemEntries executionRequestBuilderDeposit l ∧
      itemEntries executionRequestBuilderExit r'.marshalled = itemEntries executionRequestBuilderExit l := by
  obtain ⟨v, hv, -, hfits, rfl, hcounts⟩ := parse_eq_ok hparse
  obtain rfl := Option.some.inj hv
  have hlimits : r.WithinLimits := (r.marshalled_accepted hfits).mp (parse_some_ok_iff.mp ⟨_, hparse⟩)
  obtain ⟨hentries, hdeposits, hexits⟩ := append_entries happend
  refine ⟨append_withinLimits hlimits happend hc, fun t => ?_, ?_, ?_⟩
  · rw [ExecutionRequests.itemEntries_byte hfits, ExecutionRequests.itemEntries_byte hfits',
      ExecutionRequests.length_encodedOf, hc t]
    exact ⟨hcounts t, longestFitting_take _ _, hc t ▸ hentries t⟩
  · have hgroup {v : ExecutionRequests} (hv : v.Fits) :
        itemEntries executionRequestBuilderDeposit v.marshalled = v.builderDeposits.map encodeBuilderDepositRequest :=
      ExecutionRequests.itemEntries_marshalled hv (g := (executionRequestBuilderDeposit, _))
        (by simp [ExecutionRequests.groups])
    rw [hgroup hfits', hgroup hfits, hdeposits]
  · have hgroup {v : ExecutionRequests} (hv : v.Fits) :
        itemEntries executionRequestBuilderExit v.marshalled = v.builderExits.map encodeBuilderExitRequest :=
      ExecutionRequests.itemEntries_marshalled hv (g := (executionRequestBuilderExit, _))
        (by simp [ExecutionRequests.groups])
    rw [hgroup hfits', hgroup hfits, hexits]

theorem prepare_spec (h : prepareExecutionRequestBlock G block native queue = .ok p) :
    Assembles G block native queue p := by
  cases native with
  | none =>
    obtain ⟨hhash, rfl⟩ := prepare_none h
    have hempty (t : RequestType) : ExecutionRequestControlSet.get {} t = [] := by cases t <;> rfl
    exact {
      sealed := ⟨block.header.requestsHash, rfl⟩
      requestsHash := hhash
      parsed := rfl
      format := rfl
      nativeRequests := rfl
      split := fun t => by rw [hempty, List.nil_append]
      remaining := ⟨rfl, rfl⟩
      controlled := by simp [hempty]
      prePrague := fun _ => ⟨rfl, hempty⟩
      consumed := by simp }
  | some l =>
    obtain ⟨r, r', c, hparse, happend, hfits', hc, rfl⟩ := prepare_some h
    obtain ⟨hlimits, hconsumed⟩ := append_consumed hparse happend hfits' hc
    exact {
      sealed := ⟨_, rfl⟩
      requestsHash := rfl
      parsed := parse_marshalled hfits' hlimits
      format := rfl
      nativeRequests := rfl
      split := fun t => by simp [hc]
      remaining := ⟨rfl, rfl⟩
      controlled := by simp [ExecutionRequestControlSet.count_eq_zero]
      prePrague := by simp
      consumed := fun l' hl => Option.some.inj hl ▸
        ⟨_, rfl, (r'.marshalled_accepted hfits').mpr hlimits, hconsumed⟩ }

/-- The record of a block that was assembled with well-formed controls is valid. -/
theorem prepare_valid (h : prepareExecutionRequestBlock G block native queue = .ok p) (hqueue : queue.WellFormed) :
    validateExecutionRequestRecord p.record = .ok () := by
  have hcontrols : validateExecutionRequestControlSet p.record.controls = .ok () := by
    refine (hqueue.sublist fun t => ?_).validate
    rw [← (prepare_spec h).split t]
    exact List.sublist_append_left _ _
  have hparsed := (prepare_spec h).parsed
  cases native with
  | none =>
    obtain ⟨-, rfl⟩ := prepare_none h
    rfl
  | some l =>
    obtain ⟨r, r', c, hparse, happend, hfits', -, rfl⟩ := prepare_some h
    simp [validateExecutionRequestRecord, hparse, hparsed, hcontrols, happend, marshal_eq_ok.mpr ⟨hfits', rfl⟩,
      failIf, bind, Except.bind]

/-- Request assembly succeeds on verified native requests that parse. -/
theorem prepare_ok {parsed : Option ExecutionRequests} (hverify : verifyExecutionRequestsHash G block native = .ok ())
    (hparse : parseExecutionRequests native = .ok parsed)
    (hsize : ∀ t, ∀ item ∈ queue.get t, item.data.length = t.size) :
    ∃ p, prepareExecutionRequestBlock G block native queue = .ok p := by
  have hround := marshal_parse hparse
  cases parsed with
  | none =>
    simp only [prepareExecutionRequestBlock, hverify, hparse, hround, failIf, ne_eq, not_true_eq_false,
      if_false, bind, Except.bind]
    exact ⟨_, rfl⟩
  | some r =>
    obtain ⟨hfits, hnative⟩ := marshal_eq_ok.mp hround
    obtain ⟨r', happend⟩ := append_ok (r := r) (c := ExecutionRequestControlSet.ofFun fun t =>
        (queue.get t).take (controlCount r queue t)) fun t item hi => by
      rw [ExecutionRequestControlSet.get_ofFun] at hi
      exact hsize t item (List.mem_of_mem_take hi)
    have hmarshal := marshal_eq_ok.mpr ⟨append_fits hfits happend, rfl⟩
    simp only [prepareExecutionRequestBlock, hverify, hparse, hround, happend, hmarshal, failIf, ne_eq,
      not_true_eq_false, if_false, bind, Except.bind]
    split
    · exact ⟨_, rfl⟩
    · exact ⟨_, rfl⟩

/-! ## The record of a block -/

/-- Request hashes are injective on lists without bare type bytes, which are the ones that
the hash skips. -/
def RequestsHashInjective (G : Geth) : Prop :=
  ∀ l l' : List Bytes, (∀ item ∈ l, 1 < item.length) → (∀ item ∈ l', 1 < item.length) →
    G.calcRequestsHash l = G.calcRequestsHash l' → l = l'

theorem ListAccepted.one_lt_length {items : List Bytes} (h : ListAccepted items) : ∀ item ∈ items, 1 < item.length := by
  intro item hitem
  obtain ⟨b, payload, rfl, -, hne, -⟩ := h.1 item hitem
  simpa using List.length_pos_iff.mpr hne

/-- Two assembled blocks that are equal, with the same native requests and with controls
of which one continues the other, have the same record. -/
theorem Assembles.record_eq (hG : RequestsHashInjective G) {block' : Block} {queue' : ExecutionRequestQueue}
    {p' : PreparedBlock} (h : Assembles G block native queue p) (h' : Assembles G block' native queue' p')
    (hblock : p.block = p'.block)
    (hfifo : ∀ t, p.record.controls.get t <+: p'.record.controls.get t ∨
      p'.record.controls.get t <+: p.record.controls.get t) : p.record = p'.record := by
  have hrequests : p.record.requests = p'.record.requests ∧
      ∀ t, (p.record.controls.get t).length = (p'.record.controls.get t).length := by
    cases hnative : native with
    | none =>
      obtain ⟨hnone, hzero⟩ := h.prePrague hnative
      obtain ⟨hnone', hzero'⟩ := h'.prePrague hnative
      exact ⟨hnone.trans hnone'.symm, fun t => by rw [hzero t, hzero' t]⟩
    | some l =>
      obtain ⟨l₁, hl₁, haccepted₁, hentries₁, -⟩ := h.consumed l hnative
      obtain ⟨l₂, hl₂, haccepted₂, hentries₂, -⟩ := h'.consumed l hnative
      have hhash : G.calcRequestsHash l₁ = G.calcRequestsHash l₂ := by
        have h₁ := h.requestsHash
        have h₂ := h'.requestsHash
        rw [hl₁] at h₁
        rw [hl₂, ← hblock, h₁] at h₂
        exact Option.some.inj h₂
      obtain rfl := hG l₁ l₂ haccepted₁.one_lt_length haccepted₂.one_lt_length hhash
      refine ⟨hl₁.trans hl₂.symm, fun t => ?_⟩
      have heq := (hentries₁ t).2.2.symm.trans (hentries₂ t).2.2
      simpa using congrArg List.length (List.append_cancel_left heq)
  have hcontrols : p.record.controls = p'.record.controls := by
    refine ExecutionRequestControlSet.ext_get fun t => ?_
    rcases hfifo t with hpre | hpre
    · exact hpre.eq_of_length (hrequests.2 t)
    · exact (hpre.eq_of_length (hrequests.2 t).symm).symm
  have hformat := h.format.trans h'.format.symm
  have hnative := h.nativeRequests.trans h'.nativeRequests.symm
  cases hr : p.record
  cases hr' : p'.record
  simp_all

end Ethertest
