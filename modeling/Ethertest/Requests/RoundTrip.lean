-- SUMMARY: Request entries as bytes and back, and that marshalling undoes parsing.
import Ethertest.Requests.Fifo

/-!
# Request lists as bytes and back

Entries are cut out of fixed positions, so that encoding a decoded entry gives the bytes
back. From that `marshalExecutionRequests` undoes `parseExecutionRequests`.
-/

namespace Ethertest

/-! ## Slices of an entry -/

variable {data payload : Bytes} {index : Nat} {entries : List Bytes} {r : ExecutionRequests}
  {l : Option (List Bytes)} {b : UInt8}

theorem copyFixed_bytes {n : Nat} (h : data.length = n) : (copyFixed n data).bytes = data := by
  simp [copyFixed, ← h]

private theorem putUint64_uint64 (h : data.length = 8) : putUint64 (uint64 data) = data := by
  have hlt : leNat data < 2 ^ 64 := by
    have := leNat_lt data
    rw [h] at this
    exact this
  rw [putUint64, uint64, UInt64.toNat_ofNat_of_lt' hlt, ← h, leBytes_leNat]

theorem copyFixed_slice {n i j : Nat} (hj : j ≤ data.length) (hn : j - i = n) :
    (copyFixed n (slice data i j)).bytes = slice data i j :=
  copyFixed_bytes ((length_slice hj).trans hn)

theorem putUint64_slice {i j : Nat} (hj : j ≤ data.length) (hn : j - i = 8) :
    putUint64 (uint64 (slice data i j)) = slice data i j :=
  putUint64_uint64 ((length_slice hj).trans hn)

@[simp] theorem length_putUint64 (x : UInt64) : (putUint64 x).length = 8 := length_leBytes _ _

/-- The bytes of a deposit; the credentials are written as they are. -/
def DepositRequest.encode (r : DepositRequest) : Bytes :=
  r.pubkey.bytes ++ r.withdrawalCredentials ++ putUint64 r.amount ++ r.signature.bytes ++ putUint64 r.index

theorem encode_decodeDepositRequest {r : DepositRequest} (h : decodeDepositRequest data = .ok r) :
    r.encode = data ∧ r.withdrawalCredentials.length = 32 := by
  simp only [decodeDepositRequest, checkLength, Except.do_ok_iff, failIf_eq_ok, not_not,
    exists_const, Except.ok.injEq] at h
  obtain ⟨hlen, rfl⟩ := h
  have hlen' : data.length = 192 := hlen
  refine ⟨?_, by simp only []; rw [length_slice (by omega)]⟩
  simp only [DepositRequest.encode]
  rw [copyFixed_slice (by omega) (by rfl), putUint64_slice (by omega) (by rfl),
    copyFixed_slice (by omega) (by rfl), putUint64_slice (by omega) (by rfl),
    slice_append (by decide) (by decide), slice_append (by decide) (by decide),
    slice_append (by decide) (by decide), slice_append (by decide) (by decide), ← hlen',
    slice_zero_length]

theorem encode_decodeWithdrawalRequest {r : ExecutionWithdrawalRequest}
    (h : decodeWithdrawalRequest data = .ok r) : encodeExecutionWithdrawalRequest r = data := by
  simp only [decodeWithdrawalRequest, checkLength, Except.do_ok_iff, failIf_eq_ok, not_not,
    exists_const, Except.ok.injEq] at h
  obtain ⟨hlen, rfl⟩ := h
  have hlen' : data.length = 76 := hlen
  simp only [encodeExecutionWithdrawalRequest]
  rw [copyFixed_slice (by omega) (by rfl), copyFixed_slice (by omega) (by rfl),
    putUint64_slice (by omega) (by rfl), slice_append (by decide) (by decide),
    slice_append (by decide) (by decide), ← hlen', slice_zero_length]

theorem encode_decodeConsolidationRequest {r : ExecutionConsolidationRequest}
    (h : decodeConsolidationRequest data = .ok r) : encodeExecutionConsolidationRequest r = data := by
  simp only [decodeConsolidationRequest, checkLength, Except.do_ok_iff, failIf_eq_ok, not_not,
    exists_const, Except.ok.injEq] at h
  obtain ⟨hlen, rfl⟩ := h
  have hlen' : data.length = 116 := hlen
  simp only [encodeExecutionConsolidationRequest]
  rw [copyFixed_slice (by omega) (by rfl), copyFixed_slice (by omega) (by rfl),
    copyFixed_slice (by omega) (by rfl), slice_append (by decide) (by decide),
    slice_append (by decide) (by decide), ← hlen', slice_zero_length]

theorem encode_decodeBuilderDepositRequest (hlen : data.length = builderDepositRequestSize) :
    encodeBuilderDepositRequest (decodeBuilderDepositRequest data) = data := by
  have hlen' : data.length = 184 := hlen
  simp only [encodeBuilderDepositRequest, decodeBuilderDepositRequest]
  rw [copyFixed_slice (by omega) (by rfl), copyFixed_slice (by omega) (by rfl),
    putUint64_slice (by omega) (by rfl), copyFixed_slice (by omega) (by rfl),
    slice_append (by decide) (by decide), slice_append (by decide) (by decide),
    slice_append (by decide) (by decide), ← hlen', slice_zero_length]

theorem encode_decodeBuilderExitRequest (hlen : data.length = builderExitRequestSize) :
    encodeBuilderExitRequest (decodeBuilderExitRequest data) = data := by
  have hlen' : data.length = 68 := hlen
  simp only [encodeBuilderExitRequest, decodeBuilderExitRequest]
  rw [copyFixed_slice (by omega) (by rfl), copyFixed_slice (by omega) (by rfl),
    slice_append (by decide) (by decide), ← hlen', slice_zero_length]

/-! ## Marshalled lists -/

namespace ExecutionRequests

variable (r : ExecutionRequests)

/-- The credentials of every deposit have their fixed length. -/
def Fits : Prop := ∀ d ∈ r.deposits, d.withdrawalCredentials.length = 32

/-- The item of each type. -/
def marshalled : List Bytes :=
  marshalItem executionRequestDeposit (r.deposits.map DepositRequest.encode) ++
  marshalItem executionRequestWithdrawal (r.withdrawals.map encodeExecutionWithdrawalRequest) ++
  marshalItem executionRequestConsolidation (r.consolidations.map encodeExecutionConsolidationRequest) ++
  marshalItem executionRequestBuilderDeposit (r.builderDeposits.map encodeBuilderDepositRequest) ++
  marshalItem executionRequestBuilderExit (r.builderExits.map encodeBuilderExitRequest)

end ExecutionRequests

private theorem marshalDeposits_eq_ok {deposits : List DepositRequest} :
    marshalDeposits index deposits = .ok entries ↔
      (∀ d ∈ deposits, d.withdrawalCredentials.length = 32) ∧
        entries = deposits.map DepositRequest.encode := by
  induction deposits generalizing index entries with
  | nil => simp [marshalDeposits, eq_comm]
  | cons d deposits ih =>
    simp only [marshalDeposits, Except.do_ok_iff, failIf_eq_ok, not_not, exists_const, ih,
      Except.ok.injEq, List.forall_mem_cons, List.map_cons]
    constructor
    · rintro ⟨hd, rest, ⟨hrest, rfl⟩, rfl⟩
      refine ⟨⟨hd, hrest⟩, ?_⟩
      simp [encodeExecutionDepositRequest, DepositRequest.encode, copyFixed_bytes hd]
    · rintro ⟨⟨hd, hrest⟩, rfl⟩
      refine ⟨hd, _, ⟨hrest, rfl⟩, ?_⟩
      simp [encodeExecutionDepositRequest, DepositRequest.encode, copyFixed_bytes hd]

theorem marshal_eq_ok : marshalExecutionRequests (some r) = .ok l ↔ r.Fits ∧ l = some r.marshalled := by
  simp only [marshalExecutionRequests, Except.do_ok_iff, marshalDeposits_eq_ok, Except.ok.injEq]
  constructor
  · rintro ⟨_, ⟨hfits, rfl⟩, rfl⟩
    exact ⟨hfits, rfl⟩
  · rintro ⟨hfits, rfl⟩
    exact ⟨_, ⟨hfits, rfl⟩, rfl⟩

@[simp] theorem marshalItem_nil (b : UInt8) : marshalItem b [] = [] := rfl

theorem DepositRequest.length_encode {d : DepositRequest} (h : d.withdrawalCredentials.length = 32) :
    d.encode.length = depositRequestSize := by
  simp [DepositRequest.encode, h, depositRequestSize]

theorem length_encodeExecutionWithdrawalRequest (r : ExecutionWithdrawalRequest) :
    (encodeExecutionWithdrawalRequest r).length = withdrawalRequestSize := by
  simp [encodeExecutionWithdrawalRequest, withdrawalRequestSize]

theorem length_encodeExecutionConsolidationRequest (r : ExecutionConsolidationRequest) :
    (encodeExecutionConsolidationRequest r).length = consolidationRequestSize := by
  simp [encodeExecutionConsolidationRequest, consolidationRequestSize]

/-! ## Marshalling undoes parsing -/

/-- Entries that were decoded one by one encode to the bytes they came from. -/
theorem map_encode_of_mapM {α : Type} {decode : Bytes → Except Error α} {encode : α → Bytes}
    (hcode : ∀ {data v}, decode data = .ok v → encode v = data) {values : List α}
    (h : entries.mapM decode = .ok values) : values.map encode = entries := by
  rw [Except.mapM_ok_iff] at h
  induction h with
  | nil => rfl
  | cons hv _ ih => rw [List.map_cons, hcode hv, ih]

theorem fits_of_mapM {values : List DepositRequest} (h : entries.mapM decodeDepositRequest = .ok values) :
    ∀ d ∈ values, d.withdrawalCredentials.length = 32 := by
  rw [Except.mapM_ok_iff] at h
  induction h with
  | nil => simp
  | cons hv _ ih => exact List.forall_mem_cons.mpr ⟨(encode_decodeDepositRequest hv).2, ih⟩

theorem marshalItem_slices {size : Nat} (hsize : 0 < size) (hne : payload ≠ [])
    (hmod : payload.length % size = 0) : marshalItem b (slices size payload) = [b :: payload] := by
  have hslices : slices size payload ≠ [] := by
    intro hnil
    apply hne
    rw [← flatten_slices hsize hmod, hnil]
    rfl
  rw [marshalItem, if_neg hslices, flatten_slices hsize hmod]

namespace ExecutionRequests

/-- No entries of the given type or of a later one. -/
def NoneFrom (r : ExecutionRequests) (t : Nat) : Prop :=
  (t ≤ 0 → r.deposits = []) ∧ (t ≤ 1 → r.withdrawals = []) ∧ (t ≤ 2 → r.consolidations = []) ∧
    (t ≤ 3 → r.builderDeposits = []) ∧ (t ≤ 4 → r.builderExits = [])

end ExecutionRequests

/-- Adding an item of a type beyond those read so far appends it to the marshalled list. -/
theorem marshalled_addItem {r' : ExecutionRequests} (hfits : r.Fits) (hnone : r.NoneFrom b.toNat)
    (hb : b.toNat ≤ 4) (hne : payload ≠ []) (h : addItem r b payload = .ok r') :
    r'.Fits ∧ r'.NoneFrom (b.toNat + 1) ∧ r'.marshalled = r.marshalled ++ [b :: payload] := by
  obtain ⟨h₀, h₁, h₂, h₃, h₄⟩ := hnone
  have hbyte {n : Nat} (hn : b.toNat = n) : UInt8.ofNat n = b := by rw [← hn, UInt8.ofNat_toNat]
  unfold addItem at h
  split at h
  -- one case per request type; the entries of later types are missing
  · next hn =>
    simp only [Except.do_ok_iff, failIf_eq_ok, not_not, exists_const, Except.ok.injEq] at h
    obtain ⟨hmod, values, hvalues, rfl⟩ := h
    have hitem := marshalItem_slices (b := b) (by decide) hne hmod
    rw [← map_encode_of_mapM (fun hd => (encode_decodeDepositRequest hd).1) hvalues] at hitem
    have hb : executionRequestDeposit = b := hbyte hn
    rw [hn] at h₀ h₁ h₂ h₃ h₄ ⊢
    simp only [Nat.zero_le, le_refl, true_imp_iff] at h₀ h₁ h₂ h₃ h₄
    refine ⟨by simpa [ExecutionRequests.Fits, h₀] using fits_of_mapM hvalues, ?_, ?_⟩
    · simp [ExecutionRequests.NoneFrom, h₁, h₂, h₃, h₄]
    · simp [ExecutionRequests.marshalled, h₀, h₁, h₂, h₃, h₄, hb, hitem]
  · next hn =>
    simp only [Except.do_ok_iff, failIf_eq_ok, not_not, exists_const, Except.ok.injEq] at h
    obtain ⟨hmod, values, hvalues, rfl⟩ := h
    have hitem := marshalItem_slices (b := b) (by decide) hne hmod
    rw [← map_encode_of_mapM encode_decodeWithdrawalRequest hvalues] at hitem
    have hb : executionRequestWithdrawal = b := hbyte hn
    rw [hn] at h₁ h₂ h₃ h₄ ⊢
    simp only [Nat.one_le_ofNat, le_refl, true_imp_iff] at h₁ h₂ h₃ h₄
    refine ⟨hfits, ?_, ?_⟩
    · simp [ExecutionRequests.NoneFrom, h₂, h₃, h₄]
    · simp [ExecutionRequests.marshalled, h₁, h₂, h₃, h₄, hb, hitem]
  · next hn =>
    simp only [Except.do_ok_iff, failIf_eq_ok, not_not, exists_const, Except.ok.injEq] at h
    obtain ⟨hmod, values, hvalues, rfl⟩ := h
    have hitem := marshalItem_slices (b := b) (by decide) hne hmod
    rw [← map_encode_of_mapM encode_decodeConsolidationRequest hvalues] at hitem
    have hb : executionRequestConsolidation = b := hbyte hn
    rw [hn] at h₂ h₃ h₄ ⊢
    simp only [Nat.reduceLeDiff, le_refl, true_imp_iff] at h₂ h₃ h₄
    refine ⟨hfits, ?_, ?_⟩
    · simp [ExecutionRequests.NoneFrom, h₃, h₄]
    · simp [ExecutionRequests.marshalled, h₂, h₃, h₄, hb, hitem]
  · next hn =>
    simp only [Except.do_ok_iff, failIf_eq_ok, not_or, not_not, exists_const, Except.ok.injEq] at h
    obtain ⟨⟨hmod, -⟩, rfl⟩ := h
    have hitem := marshalItem_slices (b := b) (by decide) hne hmod
    have hcode : (slices builderDepositRequestSize payload).map
        (encodeBuilderDepositRequest ∘ decodeBuilderDepositRequest) = slices builderDepositRequestSize payload :=
      (List.map_congr_left fun entry he =>
        encode_decodeBuilderDepositRequest (length_of_mem_slices he)).trans (List.map_id _)
    have hb : executionRequestBuilderDeposit = b := hbyte hn
    rw [hn] at h₃ h₄ ⊢
    simp only [Nat.reduceLeDiff, le_refl, true_imp_iff] at h₃ h₄
    refine ⟨hfits, ?_, ?_⟩
    · simp [ExecutionRequests.NoneFrom, h₄]
    · simp [ExecutionRequests.marshalled, h₃, h₄, hb, hitem, hcode]
  · next hn =>
    simp only [Except.do_ok_iff, failIf_eq_ok, not_or, not_not, exists_const, Except.ok.injEq] at h
    obtain ⟨⟨hmod, -⟩, rfl⟩ := h
    have hitem := marshalItem_slices (b := b) (by decide) hne hmod
    have hcode : (slices builderExitRequestSize payload).map
        (encodeBuilderExitRequest ∘ decodeBuilderExitRequest) = slices builderExitRequestSize payload :=
      (List.map_congr_left fun entry he =>
        encode_decodeBuilderExitRequest (length_of_mem_slices he)).trans (List.map_id _)
    have hb : executionRequestBuilderExit = b := hbyte hn
    rw [hn] at h₄ ⊢
    simp only [le_refl, true_imp_iff] at h₄
    refine ⟨hfits, ?_, ?_⟩
    · simp [ExecutionRequests.NoneFrom]
    · simp [ExecutionRequests.marshalled, h₄, hb, hitem, hcode]
  · next n₀ n₁ n₂ n₃ n₄ =>
    interval_cases hcode : b.toNat <;> contradiction

theorem ExecutionRequests.NoneFrom.mono {t u : Nat} (h : r.NoneFrom t) (htu : t ≤ u) : r.NoneFrom u := by
  obtain ⟨h₀, h₁, h₂, h₃, h₄⟩ := h
  exact ⟨fun hu => h₀ (htu.trans hu), fun hu => h₁ (htu.trans hu), fun hu => h₂ (htu.trans hu),
    fun hu => h₃ (htu.trans hu), fun hu => h₄ (htu.trans hu)⟩

theorem marshalled_parseItems {items : List Bytes} {previous : Int} {r' : ExecutionRequests}
    (hfits : r.Fits) (hnone : r.NoneFrom (previous + 1).toNat) (hprev : -1 ≤ previous)
    (h : parseItems index previous r items = .ok r') : r'.Fits ∧ r'.marshalled = r.marshalled ++ items := by
  induction items generalizing index previous r with
  | nil =>
    simp only [parseItems, Except.ok.injEq] at h
    rw [← h]
    exact ⟨hfits, (List.append_nil _).symm⟩
  | cons item items ih =>
    cases item with
    | nil => simp [parseItems] at h
    | cons b payload =>
      simp only [parseItems, Except.do_ok_iff, failIf_eq_ok, exists_const] at h
      obtain ⟨hne, hmax, hinc, r₁, hadd, hrest⟩ := h
      have hle : b.toNat ≤ 4 := Nat.not_lt.mp hmax
      obtain ⟨hfits₁, hnone₁, hlist₁⟩ :=
        marshalled_addItem hfits (hnone.mono (by omega)) hle hne hadd
      obtain ⟨hfits', hlist'⟩ := ih hfits₁ (hnone₁.mono (by omega)) (by omega) hrest
      refine ⟨hfits', ?_⟩
      rw [hlist', hlist₁, List.append_assoc, List.singleton_append]

/-- A parsed list marshals to the bytes it was parsed from. -/
theorem marshal_parse {r : Option ExecutionRequests} (h : parseExecutionRequests l = .ok r) :
    marshalExecutionRequests r = .ok l := by
  cases l with
  | none =>
    simp only [parseExecutionRequests, Except.ok.injEq] at h
    rw [← h]
    rfl
  | some items =>
    simp only [parseExecutionRequests, Except.do_ok_iff, Except.ok.injEq] at h
    obtain ⟨result, hparse, -, -, rfl⟩ := h
    have hempty : ExecutionRequests.Fits {} := by simp [ExecutionRequests.Fits]
    have hnone : ExecutionRequests.NoneFrom {} ((-1 : Int) + 1).toNat := by
      simp [ExecutionRequests.NoneFrom]
    obtain ⟨hfits, hlist⟩ := marshalled_parseItems hempty hnone (by decide) hparse
    refine marshal_eq_ok.mpr ⟨hfits, ?_⟩
    rw [hlist]
    rfl

end Ethertest
