-- SUMMARY: Which request lists are accepted, and that marshalling and parsing are inverse to each other.
import Ethertest.Requests.RoundTrip

/-!
# Accepted request lists

An accepted list has items of increasing types, each a whole number of entries within the
limit of its type. The parser checks the builder types inside its loop and counts the
others after it; both amount to the same condition on the items.
-/

namespace Ethertest

/-- The entry size of a request type. -/
def requestSize (b : UInt8) : Nat :=
  match b.toNat with
  | 0 => depositRequestSize
  | 1 => withdrawalRequestSize
  | 2 => consolidationRequestSize
  | 3 => builderDepositRequestSize
  | _ => builderExitRequestSize

theorem requestSize_pos (b : UInt8) : 0 < requestSize b := by
  unfold requestSize
  split <;> decide

/-- The most entries of a request type in a list. -/
def requestLimit (b : UInt8) : Nat :=
  match b.toNat with
  | 0 => maxDepositRequestsPerPayload
  | 1 => maxWithdrawalRequestsPerPayload
  | 2 => maxConsolidationRequestsPerPayload
  | 3 => 64
  | _ => 16

/-- A non-empty payload of whole entries, within the limit, behind a supported type byte. -/
def ItemAccepted (item : Bytes) : Prop :=
  ∃ b payload, item = b :: payload ∧ b ≤ executionRequestBuilderExit ∧ payload ≠ [] ∧
    payload.length % requestSize b = 0 ∧ payload.length / requestSize b ≤ requestLimit b

/-- Accepted items with strictly increasing type bytes. -/
def ListAccepted (items : List Bytes) : Prop :=
  (∀ item ∈ items, ItemAccepted item) ∧ items.Pairwise fun x y => x.headD 0 < y.headD 0

/-- What the loop of the parser checks of an item: of the limits only those of the builder
types. -/
def ItemChecked (item : Bytes) : Prop :=
  ∃ b payload, item = b :: payload ∧ b.toNat ≤ 4 ∧ payload ≠ [] ∧
    payload.length % requestSize b = 0 ∧ (3 ≤ b.toNat → payload.length / requestSize b ≤ requestLimit b)

/-! ## Parsing -/

variable {data payload : Bytes} {size : Nat} {r : ExecutionRequests} {b : UInt8} {items : List Bytes}

theorem checkLength_eq_ok {format : String} : checkLength format data size = .ok () ↔ data.length = size := by
  rw [checkLength, failIf_eq_ok, not_not]

/-- The slices of a payload are decoded one by one. -/
theorem mapM_slices_ok {α : Type} {decode : Bytes → Except Error α}
    (h : ∀ data : Bytes, data.length = size → ∃ v, decode data = .ok v) :
    ∃ values, (slices size payload).mapM decode = .ok values :=
  Except.exists_mapM_ok fun entry hentry => h entry (length_of_mem_slices hentry)

theorem decodeDepositRequest_ok (h : data.length = depositRequestSize) :
    ∃ v, decodeDepositRequest data = .ok v :=
  ⟨_, by rw [decodeDepositRequest, checkLength_eq_ok.mpr h]; rfl⟩

theorem decodeWithdrawalRequest_ok (h : data.length = withdrawalRequestSize) :
    ∃ v, decodeWithdrawalRequest data = .ok v :=
  ⟨_, by rw [decodeWithdrawalRequest, checkLength_eq_ok.mpr h]; rfl⟩

theorem decodeConsolidationRequest_ok (h : data.length = consolidationRequestSize) :
    ∃ v, decodeConsolidationRequest data = .ok v :=
  ⟨_, by rw [decodeConsolidationRequest, checkLength_eq_ok.mpr h]; rfl⟩

theorem addItem_ok_iff (hb : b.toNat ≤ 4) :
    (∃ r', addItem r b payload = .ok r') ↔
      payload.length % requestSize b = 0 ∧ (3 ≤ b.toNat → payload.length / requestSize b ≤ requestLimit b) := by
  have htype : b.toNat = 0 ∨ b.toNat = 1 ∨ b.toNat = 2 ∨ b.toNat = 3 ∨ b.toNat = 4 := by omega
  unfold addItem requestSize requestLimit
  rcases htype with hn | hn | hn | hn | hn
  · obtain ⟨values, hvalues⟩ : ∃ values, (slices depositRequestSize payload).mapM decodeDepositRequest = .ok values :=
      mapM_slices_ok fun _ => decodeDepositRequest_ok
    simp [hn, Except.do_ok_iff, hvalues]
  · obtain ⟨values, hvalues⟩ :
        ∃ values, (slices withdrawalRequestSize payload).mapM decodeWithdrawalRequest = .ok values :=
      mapM_slices_ok fun _ => decodeWithdrawalRequest_ok
    simp [hn, Except.do_ok_iff, hvalues]
  · obtain ⟨values, hvalues⟩ :
        ∃ values, (slices consolidationRequestSize payload).mapM decodeConsolidationRequest = .ok values :=
      mapM_slices_ok fun _ => decodeConsolidationRequest_ok
    simp [hn, Except.do_ok_iff, hvalues]
  · simp [hn, Except.do_ok_iff]
  · simp [hn, Except.do_ok_iff]

/-- The loop accepts items that pass its checks and have increasing types. -/
theorem parseItems_ok_iff {index : Nat} {previous : Int} :
    (∃ r', parseItems index previous r items = .ok r') ↔
      (∀ item ∈ items, ItemChecked item ∧ previous < (item.headD 0).toNat) ∧
        items.Pairwise fun x y => x.headD 0 < y.headD 0 := by
  induction items generalizing index previous r with
  | nil => simp [parseItems]
  | cons item items ih =>
    cases item with
    | nil => simp [parseItems, ItemChecked]
    | cons b payload =>
      simp only [parseItems, Except.do_ok_iff, failIf_eq_ok, exists_const]
      constructor
      · rintro ⟨r', hne, hmax, hinc, r₁, hadd, hrest⟩
        have hle : b.toNat ≤ 4 := Nat.not_lt.mp hmax
        obtain ⟨hitems, hpairwise⟩ := ih.mp ⟨r', hrest⟩
        have hitem := (addItem_ok_iff hle).mp ⟨r₁, hadd⟩
        have hfirst : previous < b.toNat := not_le.mp hinc
        refine ⟨List.forall_mem_cons.mpr ⟨⟨⟨b, payload, rfl, hle, hne, hitem⟩, hfirst⟩, fun x hx => ?_⟩,
          List.pairwise_cons.mpr ⟨fun y hy => ?_, hpairwise⟩⟩
        · exact ⟨(hitems x hx).1, hfirst.trans (hitems x hx).2⟩
        · exact UInt8.lt_iff_toNat_lt.mpr (Int.ofNat_lt.mp (hitems y hy).2)
      · rintro ⟨hitems, hpairwise⟩
        obtain ⟨⟨hitem, hfirst⟩, hitems⟩ := List.forall_mem_cons.mp hitems
        obtain ⟨hbelow, hpairwise⟩ := List.pairwise_cons.mp hpairwise
        obtain ⟨b', payload', heq, hle, hne, hchecked⟩ := hitem
        obtain ⟨rfl, rfl⟩ := List.cons.inj heq
        obtain ⟨r₁, hadd⟩ := (addItem_ok_iff (r := r) hle).mpr hchecked
        have hrest : ∀ x ∈ items, ItemChecked x ∧ (b.toNat : Int) < (x.headD 0).toNat := fun x hx =>
          ⟨(hitems x hx).1, Int.ofNat_lt.mpr (UInt8.lt_iff_toNat_lt.mp (hbelow x hx))⟩
        obtain ⟨r', hparse⟩ := ih.mpr ⟨hrest, hpairwise⟩
        exact ⟨r', hne, Nat.not_lt.mpr hle, not_le.mpr hfirst, r₁, hadd, hparse⟩

/-! ## Counting -/

theorem requestSize_byte (t : RequestType) : requestSize t.byte = t.size := by cases t <;> rfl

theorem requestLimit_byte (t : RequestType) : requestLimit t.byte = t.limit := by cases t <;> rfl

theorem checkCounts_eq_ok : checkCounts r = .ok () ↔ ∀ t, r.countOf t ≤ t.limit := by
  simp only [checkCounts, Except.do_ok_iff, failIf_eq_ok, exists_const, not_lt]
  exact ⟨fun h t => by cases t <;> simp_all [ExecutionRequests.countOf, RequestType.limit],
    fun h => ⟨h .deposit, h .withdrawal, h .consolidation⟩⟩

/-! ## Entries are read back -/

private theorem uint64_putUint64 (x : UInt64) : uint64 (putUint64 x) = x := by
  have hlt : x.toNat < 256 ^ 8 := x.toNat_lt
  rw [uint64, putUint64, leNat_leBytes, Nat.mod_eq_of_lt hlt, UInt64.ofNat_toNat]

theorem putUint64_inj {x y : UInt64} : putUint64 x = putUint64 y ↔ x = y :=
  ⟨fun h => by rw [← uint64_putUint64 x, h, uint64_putUint64], fun h => by rw [h]⟩

theorem FixedBytes.bytes_inj {n : Nat} {a b : FixedBytes n} : a.bytes = b.bytes ↔ a = b :=
  ⟨fun h => by cases a; cases b; simp_all, fun h => by rw [h]⟩

/-- Strings with fronts of one length are equal part by part. -/
theorem append_inj_iff {a b c d : Bytes} (h : a.length = c.length) : a ++ b = c ++ d ↔ a = c ∧ b = d :=
  ⟨fun heq => List.append_inj heq h, fun ⟨hac, hbd⟩ => by rw [hac, hbd]⟩

theorem DepositRequest.encode_inj {d d' : DepositRequest} (hd : d.withdrawalCredentials.length = 32)
    (hd' : d'.withdrawalCredentials.length = 32) (h : d.encode = d'.encode) : d = d' := by
  simp only [DepositRequest.encode, List.append_assoc] at h
  rw [append_inj_iff (by simp), append_inj_iff (by simp [hd, hd']), append_inj_iff (by simp),
    append_inj_iff (by simp), putUint64_inj, putUint64_inj, FixedBytes.bytes_inj, FixedBytes.bytes_inj] at h
  obtain ⟨hpubkey, hcredentials, hamount, hsignature, hindex⟩ := h
  cases d
  cases d'
  simp_all

theorem encodeExecutionWithdrawalRequest_inj : Function.Injective encodeExecutionWithdrawalRequest := by
  intro w w' h
  simp only [encodeExecutionWithdrawalRequest, List.append_assoc] at h
  rw [append_inj_iff (by simp), append_inj_iff (by simp), putUint64_inj, FixedBytes.bytes_inj,
    FixedBytes.bytes_inj] at h
  cases w
  cases w'
  simp_all

theorem encodeExecutionConsolidationRequest_inj : Function.Injective encodeExecutionConsolidationRequest := by
  intro c c' h
  simp only [encodeExecutionConsolidationRequest, List.append_assoc] at h
  rw [append_inj_iff (by simp), append_inj_iff (by simp), FixedBytes.bytes_inj, FixedBytes.bytes_inj,
    FixedBytes.bytes_inj] at h
  cases c
  cases c'
  simp_all

theorem encodeBuilderDepositRequest_inj : Function.Injective encodeBuilderDepositRequest := by
  intro b b' h
  simp only [encodeBuilderDepositRequest, List.append_assoc] at h
  rw [append_inj_iff (by simp), append_inj_iff (by simp), append_inj_iff (by simp), putUint64_inj,
    FixedBytes.bytes_inj, FixedBytes.bytes_inj, FixedBytes.bytes_inj] at h
  cases b
  cases b'
  simp_all

theorem encodeBuilderExitRequest_inj : Function.Injective encodeBuilderExitRequest := by
  intro b b' h
  simp only [encodeBuilderExitRequest] at h
  rw [append_inj_iff (by simp), FixedBytes.bytes_inj, FixedBytes.bytes_inj] at h
  cases b
  cases b'
  simp_all

/-! ## The groups of a structured value -/

/-- The item of a type in a list of items. -/
def findItem (l : List Bytes) (b : UInt8) : Option Bytes :=
  l.find? fun item => item.head? = some b

/-- In a list with increasing types, an item is found by its type. -/
theorem findItem_eq_some (hpairwise : items.Pairwise fun x y => x.headD 0 < y.headD 0)
    (hmem : b :: payload ∈ items) : findItem items b = some (b :: payload) := by
  induction items with
  | nil => cases hmem
  | cons item items ih =>
    obtain ⟨hbelow, hpairwise⟩ := List.pairwise_cons.mp hpairwise
    rcases List.mem_cons.mp hmem with rfl | hmem'
    · simp [findItem]
    · have hne : item.head? ≠ some b := by
        intro hhead
        have hlt := hbelow _ hmem'
        rw [List.headD_eq_head?_getD, hhead] at hlt
        exact absurd hlt (UInt8.lt_irrefl b)
      rw [findItem, List.find?_cons_of_neg (by simpa using hne)]
      exact ih hpairwise hmem'

/-- The entries of a type in a list of items. -/
def itemEntries (b : UInt8) (items : List Bytes) : List Bytes :=
  (findItem items b).elim [] fun item => slices (requestSize b) item.tail

/-- A map that is injective on two lists tells them apart. -/
theorem map_inj_on {α β : Type} {f : α → β} {l l' : List α} (hf : ∀ x ∈ l, ∀ y ∈ l', f x = f y → x = y)
    (h : l.map f = l'.map f) : l = l' := by
  induction l generalizing l' with
  | nil => exact (List.map_eq_nil_iff.mp h.symm).symm
  | cons x l ih =>
    cases l' with
    | nil => cases h
    | cons y l' =>
      obtain ⟨hhead, htail⟩ := List.cons.inj h
      rw [hf x List.mem_cons_self y List.mem_cons_self hhead,
        ih (fun a ha b hb => hf a (List.mem_cons_of_mem _ ha) b (List.mem_cons_of_mem _ hb)) htail]

namespace ExecutionRequests

/-- The encoded entries of each type, with the type byte. -/
def groups (r : ExecutionRequests) : List (UInt8 × List Bytes) :=
  [(executionRequestDeposit, r.deposits.map DepositRequest.encode),
   (executionRequestWithdrawal, r.withdrawals.map encodeExecutionWithdrawalRequest),
   (executionRequestConsolidation, r.consolidations.map encodeExecutionConsolidationRequest),
   (executionRequestBuilderDeposit, r.builderDeposits.map encodeBuilderDepositRequest),
   (executionRequestBuilderExit, r.builderExits.map encodeBuilderExitRequest)]

/-- The encoded entries of a type that can be queued. -/
def encodedOf (r : ExecutionRequests) : RequestType → List Bytes
  | .deposit => r.deposits.map DepositRequest.encode
  | .withdrawal => r.withdrawals.map encodeExecutionWithdrawalRequest
  | .consolidation => r.consolidations.map encodeExecutionConsolidationRequest

/-- No type has more entries than a payload may hold. -/
structure WithinLimits (r : ExecutionRequests) : Prop where
  deposits : r.deposits.length ≤ maxDepositRequestsPerPayload
  withdrawals : r.withdrawals.length ≤ maxWithdrawalRequestsPerPayload
  consolidations : r.consolidations.length ≤ maxConsolidationRequestsPerPayload
  builderDeposits : r.builderDeposits.length ≤ 64
  builderExits : r.builderExits.length ≤ 16

variable {r : ExecutionRequests}

theorem encodedOf_mem_groups (t : RequestType) : (t.byte, r.encodedOf t) ∈ r.groups := by
  cases t <;> simp [groups, encodedOf, RequestType.byte]

theorem length_encodedOf (t : RequestType) : (r.encodedOf t).length = r.countOf t := by
  cases t <;> simp [encodedOf, countOf]

theorem withinLimits_iff_counts : r.WithinLimits ↔
    (∀ t, r.countOf t ≤ t.limit) ∧ r.builderDeposits.length ≤ 64 ∧ r.builderExits.length ≤ 16 :=
  ⟨fun h => ⟨fun t => by cases t; exacts [h.deposits, h.withdrawals, h.consolidations],
      h.builderDeposits, h.builderExits⟩,
    fun h => ⟨h.1 .deposit, h.1 .withdrawal, h.1 .consolidation, h.2.1, h.2.2⟩⟩

private theorem marshalled_eq_flatMap : r.marshalled = r.groups.flatMap fun g => marshalItem g.1 g.2 := by
  simp [marshalled, groups]

theorem groups_pairwise : r.groups.Pairwise fun g g' => g.1 < g'.1 := by
  simp [groups, executionRequestDeposit, executionRequestWithdrawal, executionRequestConsolidation,
    executionRequestBuilderDeposit, executionRequestBuilderExit]

theorem mem_groups_le : ∀ {g}, g ∈ r.groups → g.1 ≤ executionRequestBuilderExit := by
  simp [groups, executionRequestDeposit, executionRequestWithdrawal, executionRequestConsolidation,
    executionRequestBuilderDeposit, executionRequestBuilderExit]

theorem withinLimits_iff : r.WithinLimits ↔ ∀ g ∈ r.groups, g.2.length ≤ requestLimit g.1 := by
  simp only [groups, List.forall_mem_cons, List.length_map]
  constructor
  · intro h
    exact ⟨h.deposits, h.withdrawals, h.consolidations, h.builderDeposits, h.builderExits, by simp⟩
  · rintro ⟨hdeposits, hwithdrawals, hconsolidations, hbuilderDeposits, hbuilderExits, -⟩
    exact ⟨hdeposits, hwithdrawals, hconsolidations, hbuilderDeposits, hbuilderExits⟩

private theorem length_of_mem_groups (hfits : r.Fits) : ∀ g ∈ r.groups, ∀ e ∈ g.2, e.length = requestSize g.1 := by
  simp only [groups, List.forall_mem_cons, List.forall_mem_map]
  refine ⟨fun d hd => DepositRequest.length_encode (hfits d hd),
    fun w _ => length_encodeExecutionWithdrawalRequest w,
    fun c _ => length_encodeExecutionConsolidationRequest c, fun b _ => ?_, fun b _ => ?_, by simp⟩
  · simp [encodeBuilderDepositRequest, requestSize, executionRequestBuilderDeposit, builderDepositRequestSize]
  · simp [encodeBuilderExitRequest, requestSize, executionRequestBuilderExit, builderExitRequestSize]

theorem mem_marshalled {item : Bytes} :
    item ∈ r.marshalled ↔ ∃ g ∈ r.groups, g.2 ≠ [] ∧ item = g.1 :: g.2.flatten := by
  rw [marshalled_eq_flatMap, List.mem_flatMap]
  refine exists_congr fun g => and_congr_right fun _ => ?_
  unfold marshalItem
  split <;> simp [*]

theorem marshalled_pairwise : r.marshalled.Pairwise fun x y => x.headD 0 < y.headD 0 := by
  have hitem {g : UInt8 × List Bytes} {item : Bytes} (h : item ∈ marshalItem g.1 g.2) : item.headD 0 = g.1 := by
    unfold marshalItem at h
    split at h <;> simp_all
  rw [marshalled_eq_flatMap]
  refine List.pairwise_flatMap.mpr ⟨fun g _ => ?_, groups_pairwise.imp fun {g g'} hlt x hx y hy => ?_⟩
  · unfold marshalItem
    split <;> simp
  · rwa [hitem hx, hitem hy]

/-- The values within the limits are those that marshal to a list that parses. -/
theorem marshalled_accepted (hfits : r.Fits) : ListAccepted r.marshalled ↔ r.WithinLimits := by
  have hlength (g) (hg : g ∈ r.groups) := length_flatten_of_forall (length_of_mem_groups hfits g hg)
  rw [withinLimits_iff]
  constructor
  · rintro ⟨hitems, -⟩ g hg
    by_cases hne : g.2 = []
    · simp [hne]
    · obtain ⟨b, payload, heq, -, -, -, hlimit⟩ := hitems _ (mem_marshalled.mpr ⟨g, hg, hne, rfl⟩)
      obtain ⟨rfl, rfl⟩ := List.cons.inj heq
      rwa [hlength g hg, Nat.mul_div_cancel _ (requestSize_pos _)] at hlimit
  · intro hlimits
    refine ⟨fun item hmem => ?_, marshalled_pairwise⟩
    obtain ⟨g, hg, hne, rfl⟩ := mem_marshalled.mp hmem
    have hpos : 0 < g.2.length := List.length_pos_iff.mpr hne
    refine ⟨g.1, g.2.flatten, rfl, mem_groups_le hg, List.length_pos_iff.mp ?_, ?_, ?_⟩
    · rw [hlength g hg]
      exact Nat.mul_pos hpos (requestSize_pos _)
    · rw [hlength g hg, Nat.mul_mod_left]
    · rw [hlength g hg, Nat.mul_div_cancel _ (requestSize_pos _)]
      exact hlimits g hg

/-- The entries of a group are read off the marshalled list. -/
theorem itemEntries_marshalled (hfits : r.Fits) {g : UInt8 × List Bytes} (hg : g ∈ r.groups) :
    itemEntries g.1 r.marshalled = g.2 := by
  by_cases hne : g.2 = []
  · have hfind : findItem r.marshalled g.1 = none := by
      refine List.find?_eq_none.mpr fun item hmem hhead => ?_
      obtain ⟨g', hg', hne', rfl⟩ := mem_marshalled.mp hmem
      have hkey : g'.1 = g.1 := by simpa using hhead
      have hnodup : (r.groups.map (·.1)).Nodup :=
        List.Pairwise.imp (fun h => UInt8.ne_of_lt h) (List.pairwise_map.mpr groups_pairwise)
      exact hne' (List.inj_on_of_nodup_map hnodup hg' hg hkey ▸ hne)
    rw [itemEntries, hfind, hne]
    rfl
  · have hmem : g.1 :: g.2.flatten ∈ r.marshalled := mem_marshalled.mpr ⟨g, hg, hne, rfl⟩
    rw [itemEntries, findItem_eq_some marshalled_pairwise hmem, Option.elim_some, List.tail_cons]
    exact slices_flatten (requestSize_pos _) (length_of_mem_groups hfits g hg)

theorem itemEntries_byte (hfits : r.Fits) (t : RequestType) : itemEntries t.byte r.marshalled = r.encodedOf t :=
  itemEntries_marshalled hfits (encodedOf_mem_groups t)

/-- The number of entries of a type is the length of its item, in entries. -/
theorem div_size_of_mem_marshalled (hfits : r.Fits) {t : RequestType} {payload : Bytes}
    (h : t.byte :: payload ∈ r.marshalled) : payload.length / t.size = r.countOf t := by
  rw [← length_encodedOf, ← itemEntries_byte hfits, itemEntries, findItem_eq_some marshalled_pairwise h,
    Option.elim_some, List.tail_cons, requestSize_byte]
  simp [slices]

private theorem groups_eq (hfits : r.Fits) :
    r.groups = (r.groups.map (·.1)).map fun b => (b, itemEntries b r.marshalled) := by
  rw [List.map_map]
  refine (List.map_id r.groups).symm.trans (List.map_congr_left fun g hg => ?_)
  exact Prod.ext rfl (itemEntries_marshalled hfits hg).symm

/-- A value is determined by its marshalled list. -/
theorem marshalled_inj {r' : ExecutionRequests} (hfits : r.Fits) (hfits' : r'.Fits)
    (h : r.marshalled = r'.marshalled) : r = r' := by
  have hgroups : r.groups = r'.groups := by
    rw [groups_eq hfits, groups_eq hfits', h]
    rfl
  simp only [groups, List.cons.injEq, Prod.mk.injEq, true_and, and_true] at hgroups
  obtain ⟨hdeposits, hwithdrawals, hconsolidations, hbuilderDeposits, hbuilderExits⟩ := hgroups
  have hdeposits' := map_inj_on (fun d hd d' hd' => DepositRequest.encode_inj (hfits d hd) (hfits' d' hd')) hdeposits
  have hwithdrawals' := encodeExecutionWithdrawalRequest_inj.list_map hwithdrawals
  have hconsolidations' := encodeExecutionConsolidationRequest_inj.list_map hconsolidations
  have hbuilderDeposits' := encodeBuilderDepositRequest_inj.list_map hbuilderDeposits
  have hbuilderExits' := encodeBuilderExitRequest_inj.list_map hbuilderExits
  cases r
  cases r'
  simp_all

end ExecutionRequests

/-! ## The lists that parse -/

/-- A parsed list marshals back to itself and is within the limits of the counted types. -/
theorem parse_eq_ok {r : Option ExecutionRequests} (h : parseExecutionRequests (some items) = .ok r) :
    ∃ v, r = some v ∧ parseItems 0 (-1) {} items = .ok v ∧ v.Fits ∧ v.marshalled = items ∧
      ∀ t, v.countOf t ≤ t.limit := by
  have hmarshal := marshal_parse h
  simp only [parseExecutionRequests, Except.do_ok_iff, Except.ok.injEq] at h
  obtain ⟨v, hparse, ⟨⟩, hcounts, rfl⟩ := h
  obtain ⟨hfits, hlist⟩ := marshal_eq_ok.mp hmarshal
  exact ⟨v, rfl, hparse, hfits, (Option.some.inj hlist).symm, checkCounts_eq_ok.mp hcounts⟩

/-- The limits that the loop leaves open are those of the types that can be queued. -/
theorem itemAccepted_iff {item : Bytes} : ItemAccepted item ↔
    ItemChecked item ∧ ∀ (t : RequestType) payload, item = t.byte :: payload →
      payload.length / t.size ≤ t.limit := by
  constructor
  · rintro ⟨b, payload, rfl, hle, hne, hmod, hlimit⟩
    refine ⟨⟨b, payload, rfl, UInt8.le_iff_toNat_le.mp hle, hne, hmod, fun _ => hlimit⟩, fun t payload' heq => ?_⟩
    obtain ⟨rfl, rfl⟩ := List.cons.inj heq
    rwa [requestSize_byte, requestLimit_byte] at hlimit
  · rintro ⟨⟨b, payload, rfl, hle, hne, hmod, hbuilder⟩, hqueued⟩
    refine ⟨b, payload, rfl, UInt8.le_iff_toNat_le.mpr hle, hne, hmod, ?_⟩
    by_cases hb : 3 ≤ b.toNat
    · exact hbuilder hb
    · obtain ⟨t, rfl⟩ : ∃ t : RequestType, b = t.byte := by
        have htype : b.toNat = 0 ∨ b.toNat = 1 ∨ b.toNat = 2 := by omega
        rcases htype with hn | hn | hn
        · exact ⟨.deposit, UInt8.toNat_inj.mp hn⟩
        · exact ⟨.withdrawal, UInt8.toNat_inj.mp hn⟩
        · exact ⟨.consolidation, UInt8.toNat_inj.mp hn⟩
      rw [requestSize_byte, requestLimit_byte]
      exact hqueued t payload rfl

/-- The lists that parse. -/
theorem parse_some_ok_iff : (∃ r, parseExecutionRequests (some items) = .ok r) ↔ ListAccepted items := by
  constructor
  · rintro ⟨r, h⟩
    obtain ⟨v, -, hparse, hfits, rfl, hcounts⟩ := parse_eq_ok h
    obtain ⟨hitems, hpairwise⟩ := parseItems_ok_iff.mp ⟨v, hparse⟩
    refine ⟨fun item hitem => itemAccepted_iff.mpr ⟨(hitems item hitem).1, fun t payload heq => ?_⟩, hpairwise⟩
    subst heq
    exact (v.div_size_of_mem_marshalled hfits hitem).trans_le (hcounts t)
  · rintro ⟨hitems, hpairwise⟩
    have hchecked : ∀ item ∈ items, ItemChecked item ∧ (-1 : Int) < (item.headD 0).toNat := fun item hitem =>
      ⟨(itemAccepted_iff.mp (hitems item hitem)).1, by omega⟩
    obtain ⟨v, hparse⟩ : ∃ v, parseItems 0 (-1) {} items = .ok v :=
      parseItems_ok_iff.mpr ⟨hchecked, hpairwise⟩
    obtain ⟨hfits, hlist⟩ := marshalled_parseItems (by simp [ExecutionRequests.Fits])
      (by simp [ExecutionRequests.NoneFrom]) (by decide) hparse
    have hlimits : v.WithinLimits := (v.marshalled_accepted hfits).mp (hlist ▸ ⟨hitems, hpairwise⟩)
    have hcounts := checkCounts_eq_ok.mpr (ExecutionRequests.withinLimits_iff_counts.mp hlimits).1
    exact ⟨some v, by simp [parseExecutionRequests, hparse, hcounts, bind, Except.bind]⟩

/-- A value within the limits is what its marshalled list parses to. -/
theorem parse_marshalled (hfits : r.Fits) (hlimits : r.WithinLimits) :
    parseExecutionRequests (some r.marshalled) = .ok (some r) := by
  obtain ⟨parsed, hparse⟩ := parse_some_ok_iff.mpr ((r.marshalled_accepted hfits).mpr hlimits)
  obtain ⟨v, rfl, -, hfits', hlist, -⟩ := parse_eq_ok hparse
  rw [hparse, ExecutionRequests.marshalled_inj hfits' hfits hlist]

/-- The lists that parse are the accepted ones; marshalling undoes parsing, and parsing
undoes marshalling of well-formed values. -/
theorem executionRequests_codec :
    (∀ l, (∃ v, parseExecutionRequests l = .ok v) ↔ l = none ∨ ∃ items, l = some items ∧ ListAccepted items) ∧
    (∀ l v, parseExecutionRequests l = .ok v → marshalExecutionRequests v = .ok l) ∧
    (∀ v, (∀ r, v = some r → r.Fits ∧ r.WithinLimits) →
      ∃ l, marshalExecutionRequests v = .ok l ∧ parseExecutionRequests l = .ok v) := by
  refine ⟨fun l => ?_, fun l v => marshal_parse, fun v hv => ?_⟩
  · cases l with
    | none => simp [parseExecutionRequests]
    | some items => simp [parse_some_ok_iff]
  · cases v with
    | none => exact ⟨none, rfl, rfl⟩
    | some r =>
      obtain ⟨hfits, hlimits⟩ := hv r rfl
      exact ⟨_, marshal_eq_ok.mpr ⟨hfits, rfl⟩, parse_marshalled hfits hlimits⟩

/-- A deposit and a builder exit, all of whose bytes are zero. -/
def zeroRequests : ExecutionRequests where
  deposits := [⟨copyFixed 48 [], List.replicate 32 0, 0, copyFixed 96 [], 0⟩]
  builderExits := [⟨copyFixed 20 [], copyFixed 48 []⟩]

theorem executionRequests_codec_zero :
    zeroRequests.Fits ∧ zeroRequests.WithinLimits ∧
      ∃ l, marshalExecutionRequests (some zeroRequests) = .ok l ∧
        parseExecutionRequests l = .ok (some zeroRequests) := by
  have hfits : zeroRequests.Fits := by simp [ExecutionRequests.Fits, zeroRequests]
  have hlimits : zeroRequests.WithinLimits := by constructor <;> decide
  refine ⟨hfits, hlimits, executionRequests_codec.2.2 (some zeroRequests) fun r hr => ?_⟩
  obtain rfl := Option.some.inj hr
  exact ⟨hfits, hlimits⟩

end Ethertest
