-- SUMMARY: The packed-bytes codec of blobs: encoder, decoder, and the blobs that are accepted.
import Ethertest.Base.Keyed
import Ethertest.Requests.Codec

/-!
# Packed bytes

A blob is 4096 field elements of 32 bytes. The codec writes a header and a payload into the
last 31 bytes of each element and leaves the first byte zero, so that every element is
canonical. Indices and slices that are out of range would be a panic.
-/

namespace Ethertest

namespace PackedBytes

def headerSize : Nat := 48

def capacity : Nat := 4096 * 31 - headerSize

def packedBytesMagic : Bytes := [0x45, 0x54, 0x48, 0x54, 0x42, 0x4c, 0x42, 1]

abbrev Blob := FixedBytes (4096 * 32)

/-! ## Slices -/

/-- `data[i]` -/
def index (data : Bytes) (i : Nat) : Except Error UInt8 :=
  orFail data[i]? (.panic "index out of range")

/-- `data[low:high]` -/
def between (data : Bytes) (low high : Nat) : Except Error Bytes := do
  failIf (¬ (low ≤ high ∧ high ≤ data.length)) (.panic "slice bounds out of range")
  .ok (slice data low high)

/-- `copy(blob[low:high], source)` -/
def copyInto (blob : Blob) (low high : Nat) (source : Bytes) : Except Error Blob :=
  if h : low ≤ high ∧ high ≤ 4096 * 32 then
    let copied := source.take (high - low)
    .ok {
      bytes := blob.bytes.take low ++ copied ++ blob.bytes.drop (low + copied.length)
      length_eq := by
        have hcopied : copied.length ≤ high - low := by simp [copied]
        simp only [List.length_append, List.length_take, List.length_drop, blob.length_eq]
        omega }
  else .error (.panic "slice bounds out of range")

variable (checksum : Bytes → FixedBytes 32)

/-! ## Encoding -/

/-- What precedes the payload: magic, length and checksum. -/
def header (payload : Bytes) : Bytes :=
  packedBytesMagic ++ (beBytes 8 payload.length ++ (checksum payload).bytes)

/-- Copy what is left of a stream into the elements that are left. -/
def encodeElements (stream : Bytes) (source element : Nat) (blob : Blob) : Except Error Blob :=
  if source < stream.length then do
    let n := min 31 (stream.length - source)
    let part ← between stream source (source + n)
    let blob ← copyInto blob (element * 32 + 1) (element * 32 + 1 + n) part
    encodeElements stream (source + n) (element + 1) blob
  else .ok blob
termination_by stream.length - source

def zeroBlob : Blob := copyFixed (4096 * 32) []

/-- `EncodePackedBytesV1` -/
def encodePackedBytesV1 (payload : Bytes) : Except Error Blob := do
  failIf (capacity < payload.length)
    (.errorf "payload is %d bytes; maximum is %d" [.num payload.length, .num capacity])
  encodeElements (header checksum payload ++ payload) 0 0 zeroBlob

/-! ## Decoding -/

/-- The stream in the elements from one on. -/
def decodeElements (blob : Blob) : Nat → Nat → Bytes → Except Error Bytes
  | 0, _, stream => .ok stream
  | left + 1, element, stream => do
    let first ← index blob.bytes (element * 32)
    failIf (first ≠ 0) (.errorf "non-canonical field element %d" [.num element])
    let part ← between blob.bytes (element * 32 + 1) (element * 32 + 32)
    decodeElements blob left (element + 1) (stream ++ part)

/-- `DecodePackedBytesV1` -/
def decodePackedBytesV1 (blob : Blob) : Except Error Bytes := do
  let stream ← decodeElements blob 4096 0 []
  failIf (stream.length < headerSize) (.new "invalid packed-bytes-v1 header")
  let magic ← between stream 0 8
  failIf (magic ≠ packedBytesMagic) (.new "invalid packed-bytes-v1 header")
  let size ← between stream 8 16
  let length := beNat size
  failIf (capacity < length) (.new "packed-bytes-v1 length exceeds capacity")
  let payload ← between stream 48 (48 + length)
  let sum ← between stream 16 48
  failIf ((checksum payload).bytes ≠ sum) (.new "packed-bytes-v1 checksum mismatch")
  .ok payload

/-! ## Slices in range -/

theorem between_eq_ok {data part : Bytes} {low high : Nat} :
    between data low high = .ok part ↔ (low ≤ high ∧ high ≤ data.length) ∧ slice data low high = part := by
  simp only [between, Except.do_ok_iff, exists_const, failIf_eq_ok, not_not, Except.ok.injEq]

theorem index_eq_ok {data : Bytes} {i : Nat} {b : UInt8} : index data i = .ok b ↔ data[i]? = some b := orFail_eq_ok

theorem getD_slice (data : Bytes) (low high i : Nat) :
    (slice data low high).getD i 0 = if i < high - low then data.getD (low + i) 0 else 0 := by
  simp only [slice, List.getD_eq_getElem?_getD, List.getElem?_take, List.getElem?_drop]
  split <;> rfl

/-- The bytes after a copy. -/
theorem copyInto_ok (blob : Blob) (low high : Nat) (source : Bytes) (h : low ≤ high ∧ high ≤ 4096 * 32)
    (hsource : source.length = high - low) : ∃ blob', copyInto blob low high source = .ok blob' ∧
      ∀ i, blob'.bytes.getD i 0 = if low ≤ i ∧ i < high then source.getD (i - low) 0 else blob.bytes.getD i 0 := by
  refine ⟨_, dif_pos h, fun i => ?_⟩
  have htake : source.take (high - low) = source := List.take_of_length_le hsource.le
  have hlow : (blob.bytes.take low).length = low := by
    rw [List.length_take, blob.length_eq]
    omega
  simp only [htake, List.getD_eq_getElem?_getD, List.append_assoc]
  by_cases hbefore : i < low
  · rw [if_neg (by omega), List.getElem?_append_left (by omega), List.getElem?_take_of_lt hbefore]
  · rw [List.getElem?_append_right (by omega), hlow]
    by_cases hin : i < high
    · rw [if_pos (by omega), List.getElem?_append_left (by omega)]
    · rw [if_neg (by omega), List.getElem?_append_right (by omega), List.getElem?_drop]
      congr 2
      omega

/-! ## The layout of a blob -/

/-- The bytes of all elements after their first. -/
def Blob.stream (blob : Blob) : Bytes :=
  (List.range 4096).flatMap fun element => slice blob.bytes (element * 32 + 1) (element * 32 + 32)

/-- Every element starts with a zero byte. -/
def Blob.Canonical (blob : Blob) : Prop :=
  ∀ element < 4096, blob.bytes[element * 32]? = some 0

theorem Blob.length_stream (blob : Blob) : (Blob.stream blob).length = 4096 * 31 := by
  have hsize : ∀ part ∈ (List.range 4096).map fun element => slice blob.bytes (element * 32 + 1) (element * 32 + 32),
      part.length = 31 := by
    intro part hpart
    obtain ⟨element, helement, rfl⟩ := List.mem_map.mp hpart
    rw [List.mem_range] at helement
    rw [slice, List.length_take, List.length_drop, blob.length_eq]
    omega
  rw [Blob.stream, List.flatMap_def, length_flatten_of_forall hsize, List.length_map, List.length_range]

/-- What reading the elements from one on accepts and appends. -/
theorem decodeElements_eq_ok {blob : Blob} {left element : Nat} {stream result : Bytes} (h : element + left ≤ 4096) :
    decodeElements blob left element stream = .ok result ↔
      (∀ e, element ≤ e → e < element + left → blob.bytes[e * 32]? = some 0) ∧
      result = stream ++ (List.range' element left).flatMap fun e => slice blob.bytes (e * 32 + 1) (e * 32 + 32) := by
  induction left generalizing element stream with
  | zero =>
    simp only [decodeElements, Except.ok.injEq, List.range'_zero, List.flatMap_nil, List.append_nil]
    constructor
    · rintro rfl
      exact ⟨fun e hle hlt => by omega, rfl⟩
    · exact fun hok => hok.2.symm
  | succ left ih =>
    have hlength := blob.length_eq
    simp only [decodeElements, Except.do_ok_iff, exists_const, failIf_eq_ok, not_not, index_eq_ok, between_eq_ok]
    constructor
    · rintro ⟨first, hfirst, rfl, part, ⟨-, rfl⟩, hrest⟩
      obtain ⟨hzero, rfl⟩ := (ih (by omega)).mp hrest
      refine ⟨fun e hle hlt => ?_, by rw [List.range'_succ, List.flatMap_cons, List.append_assoc]⟩
      rcases Nat.eq_or_lt_of_le hle with rfl | hlt'
      · exact hfirst
      · exact hzero e hlt' (by omega)
    · rintro ⟨hzero, rfl⟩
      refine ⟨0, hzero element le_rfl (by omega), rfl, _, ⟨by omega, rfl⟩, (ih (by omega)).mpr ⟨?_, ?_⟩⟩
      · exact fun e hle hlt => hzero e (by omega) (by omega)
      · rw [List.range'_succ, List.flatMap_cons, List.append_assoc]

theorem decodeElements_all {blob : Blob} {result : Bytes} :
    decodeElements blob 4096 0 [] = .ok result ↔ Blob.Canonical blob ∧ result = Blob.stream blob := by
  rw [decodeElements_eq_ok (by omega), Blob.Canonical, Blob.stream, List.range_eq_range', List.nil_append]
  simp

/-! ## Encoded blobs -/

private theorem getD_take (data : Bytes) (n i : Nat) : (data.take n).getD i 0 = if i < n then data.getD i 0 else 0 := by
  simp only [List.getD_eq_getElem?_getD, List.getElem?_take]
  split <;> rfl

/-- The first bytes of a stream are in their places, and the rest of the blob is zero. -/
def Places (stream : Bytes) (source : Nat) (blob : Blob) : Prop :=
  ∀ i, blob.bytes.getD i 0 = if i % 32 = 0 then 0 else (stream.take source).getD (i / 32 * 31 + (i % 32 - 1)) 0

/-- Encoding places the whole stream. -/
theorem encodeElements_ok {stream : Bytes} {source element : Nat} {blob : Blob} (hlength : stream.length ≤ 4096 * 31)
    (hsource : source = min (element * 31) stream.length) (h : Places stream source blob) :
    ∃ blob', encodeElements stream source element blob = .ok blob' ∧ Places stream stream.length blob' := by
  induction hn : stream.length - source using Nat.strong_induction_on generalizing source element blob with
  | _ m ih =>
  subst hn
  unfold encodeElements
  by_cases hlt : source < stream.length
  · rw [if_pos hlt]
    have hstart : source = element * 31 := by omega
    generalize hn : min 31 (stream.length - source) = n
    have hpart : between stream source (source + n) = .ok (slice stream source (source + n)) :=
      between_eq_ok.mpr ⟨by omega, rfl⟩
    have hpartLength : (slice stream source (source + n)).length = n := by
      rw [length_slice (by omega)]
      omega
    obtain ⟨blob', hcopy, hbytes⟩ := copyInto_ok blob (element * 32 + 1) (element * 32 + 1 + n)
      (slice stream source (source + n)) (by omega) (by omega)
    have hplaces : Places stream (source + n) blob' := by
      intro i
      rw [hbytes, h, getD_slice, getD_take, getD_take]
      by_cases hzero : i % 32 = 0
      · rw [if_pos hzero, if_pos hzero, if_neg (by omega)]
      · rw [if_neg hzero, if_neg hzero]
        by_cases hin : element * 32 + 1 ≤ i ∧ i < element * 32 + 1 + n
        · rw [if_pos hin, if_pos (by omega), if_pos (by omega)]
          congr 1
          omega
        · rw [if_neg hin]
          by_cases hbefore : i / 32 * 31 + (i % 32 - 1) < source
          · rw [if_pos hbefore, if_pos (by omega)]
          · rw [if_neg hbefore, if_neg (by omega)]
    obtain ⟨result, hresult, hall⟩ := ih (stream.length - (source + n)) (by omega)
      (by omega : source + n = min ((element + 1) * 31) stream.length) hplaces rfl
    refine ⟨result, ?_, hall⟩
    dsimp only
    rw [hpart, Except.ok_do, hcopy, Except.ok_do, hresult]
  · rw [if_neg hlt]
    obtain rfl : source = stream.length := by omega
    exact ⟨blob, rfl, h⟩

/-- Strings of one length whose bytes agree are equal. -/
theorem ext_getD {data data' : Bytes} (hlength : data.length = data'.length)
    (h : ∀ i, data.getD i 0 = data'.getD i 0) : data = data' := by
  refine List.ext_getElem hlength fun i hi hi' => ?_
  have hbyte := h i
  rwa [List.getD_eq_getElem _ _ hi, List.getD_eq_getElem _ _ hi'] at hbyte

/-- The stream of a blob in which a whole stream is placed. -/
theorem Places.stream {stream : Bytes} {blob : Blob} (hlength : stream.length ≤ 4096 * 31)
    (h : Places stream stream.length blob) :
    Blob.Canonical blob ∧ Blob.stream blob = stream ++ List.replicate (4096 * 31 - stream.length) 0 := by
  constructor
  · intro element helement
    have hbyte := h (element * 32)
    have hi : element * 32 < blob.bytes.length := by
      rw [blob.length_eq]
      omega
    rw [if_pos (by omega), List.getD_eq_getElem _ _ hi] at hbyte
    rw [List.getElem?_eq_getElem hi, hbyte]
  · have hpadded : (stream ++ List.replicate (4096 * 31 - stream.length) 0).length = 4096 * 31 := by
      simp only [List.length_append, List.length_replicate]
      omega
    have hflatten := flatten_slices (by omega : 0 < 31) (by rw [hpadded] :
      (stream ++ List.replicate (4096 * 31 - stream.length) 0).length % 31 = 0)
    rw [← hflatten, slices, hpadded, Blob.stream, List.flatMap_def]
    refine congrArg List.flatten (List.map_congr_left fun element helement => ?_)
    rw [List.mem_range] at helement
    have hslice : ∀ data : Bytes, (data.drop (element * 31)).take 31 = slice data (element * 31) (element * 31 + 31) :=
      fun data => by rw [slice, Nat.add_sub_cancel_left]
    rw [hslice]
    refine ext_getD ?_ fun i => ?_
    · rw [length_slice (by rw [blob.length_eq]; omega), length_slice (by rw [hpadded]; omega)]
      omega
    · rw [getD_slice, getD_slice]
      by_cases hi : i < 31
      · rw [if_pos (by omega), if_pos (by omega), h, if_neg (by omega), List.take_length]
        have hindex : (element * 32 + 1 + i) / 32 * 31 + ((element * 32 + 1 + i) % 32 - 1) = element * 31 + i := by
          omega
        rw [hindex, List.getD_eq_getElem?_getD, List.getD_eq_getElem?_getD]
        by_cases hshort : element * 31 + i < stream.length
        · rw [List.getElem?_append_left hshort]
        · rw [List.getElem?_append_right (by omega), List.getElem?_replicate, List.getElem?_eq_none (by omega)]
          split <;> rfl
      · rw [if_neg (by omega), if_neg (by omega)]

/-! ## Accepted blobs -/

variable {checksum : Bytes → FixedBytes 32}

theorem length_header (payload : Bytes) : (header checksum payload).length = headerSize := by
  simp [header, packedBytesMagic, headerSize]

theorem slice_of_parts {data part : Bytes} {low high : Nat} (before after : Bytes)
    (h : data = before ++ (part ++ after))
    (hlow : before.length = low) (hhigh : low + part.length = high) : slice data low high = part := by
  rw [h, slice, List.drop_left' hlow, List.take_left' (by omega)]

/-- The parts that a decoder cuts out of a stream. -/
theorem slices_of_header {payload rest : Bytes} :
    slice (header checksum payload ++ payload ++ rest) 0 8 = packedBytesMagic ∧
    slice (header checksum payload ++ payload ++ rest) 8 16 = beBytes 8 payload.length ∧
    slice (header checksum payload ++ payload ++ rest) 16 48 = (checksum payload).bytes ∧
    slice (header checksum payload ++ payload ++ rest) 48 (48 + payload.length) = payload := by
  have hmagic : packedBytesMagic.length = 8 := rfl
  refine ⟨slice_of_parts [] (beBytes 8 payload.length ++ ((checksum payload).bytes ++ (payload ++ rest))) ?_ rfl rfl,
    slice_of_parts packedBytesMagic ((checksum payload).bytes ++ (payload ++ rest)) ?_ rfl (by simp),
    slice_of_parts (packedBytesMagic ++ beBytes 8 payload.length) (payload ++ rest) ?_ (by simp [hmagic]) (by simp),
    slice_of_parts _ rest (List.append_assoc _ _ _) (length_header payload) rfl⟩
  all_goals simp [header]

/-- A stream starts with the header of a payload and the payload exactly if the parts that are
cut out of it are those of the payload. -/
theorem header_prefix_iff {stream payload : Bytes} (hlength : 48 + payload.length ≤ stream.length) :
    header checksum payload ++ payload <+: stream ↔
      slice stream 0 8 = packedBytesMagic ∧ slice stream 8 16 = beBytes 8 payload.length ∧
      slice stream 16 48 = (checksum payload).bytes ∧ slice stream 48 (48 + payload.length) = payload := by
  constructor
  · rintro ⟨rest, rfl⟩
    exact slices_of_header
  · rintro ⟨hmagic, hsize, hsum, hpayload⟩
    have hheader : header checksum payload = slice stream 0 48 := by
      rw [header, ← hmagic, ← hsize, ← hsum, slice_append (by omega) (by omega), slice_append (by omega) (by omega)]
    have htake : slice stream 0 48 ++ slice stream 48 (48 + payload.length) = slice stream 0 (48 + payload.length) :=
      slice_append (by omega) (by omega)
    rw [hpayload, ← hheader] at htake
    rw [htake, slice, List.drop_zero, Nat.sub_zero]
    exact List.take_prefix _ _

/-- The blobs that are accepted, and the payload that is returned. -/
theorem decodePackedBytesV1_eq_ok {blob : Blob} {payload : Bytes} :
    decodePackedBytesV1 checksum blob = .ok payload ↔ Blob.Canonical blob ∧ payload.length ≤ capacity ∧
      header checksum payload ++ payload <+: Blob.stream blob := by
  have hlength := Blob.length_stream blob
  have hcapacity : capacity = 4096 * 31 - 48 := rfl
  have hbig : (256 : Nat) ^ 8 = 2 ^ 64 := by norm_num
  simp only [decodePackedBytesV1, Except.do_ok_iff, exists_const, failIf_eq_ok, not_not, not_lt, between_eq_ok,
    decodeElements_all, Except.ok.injEq]
  constructor
  · rintro ⟨stream, ⟨hcanonical, hstream⟩, -, magic, ⟨-, rfl⟩, hmagic, size, ⟨-, rfl⟩, hfits,
      data, ⟨-, rfl⟩, sum, ⟨-, rfl⟩,
      hsum, rfl⟩
    rw [hstream] at hmagic hfits hsum ⊢
    have hsize : (slice (Blob.stream blob) 8 16).length = 8 := length_slice (by omega)
    have hpayload : (slice (Blob.stream blob) 48 (48 + beNat (slice (Blob.stream blob) 8 16))).length =
        beNat (slice (Blob.stream blob) 8 16) := by
      rw [length_slice (by omega)]
      omega
    refine ⟨hcanonical, hpayload.trans_le hfits, (header_prefix_iff (by omega)).mpr ⟨hmagic, ?_, hsum.symm, ?_⟩⟩
    · have hbytes := beBytes_beNat (slice (Blob.stream blob) 8 16)
      rw [hsize] at hbytes
      rw [hpayload, hbytes]
    · rw [hpayload]
  · rintro ⟨hcanonical, hfits, hprefix⟩
    obtain ⟨hmagic, hsize, hsum, hpayload⟩ := (header_prefix_iff (by omega)).mp hprefix
    have hbytes : beNat (slice (Blob.stream blob) 8 16) = payload.length := by
      rw [hsize, beNat_beBytes, hbig, Nat.mod_eq_of_lt (by omega)]
    refine ⟨_, ⟨hcanonical, rfl⟩, by rw [headerSize]; omega, _, ⟨by omega, rfl⟩, hmagic, _, ⟨by omega, rfl⟩, ?_,
      payload, ⟨by omega, ?_⟩, _, ⟨by omega, rfl⟩, hsum.symm, rfl⟩
    · exact hbytes.trans_le hfits
    · rw [hbytes, hpayload]

/-! ## Indices in range -/

/-- The result is not a panic. -/
def InRange {α : Type} (result : Except Error α) : Prop := ∀ what, result ≠ .error (.panic what)

theorem inRange_ok {α : Type} (value : α) : InRange (.ok value) := fun _ h => nomatch h

theorem InRange.bind {α β : Type} {x : Except Error α} {f : α → Except Error β} (hx : InRange x)
    (hf : ∀ value, x = .ok value → InRange (f value)) : InRange (x >>= f) := by
  cases x with
  | ok value => exact hf value rfl
  | error err => exact fun what h => hx what (congrArg Except.error (Except.error.inj h))

theorem inRange_failIf {p : Prop} [Decidable p] {err : Error} (h : ∀ what, err ≠ .panic what) :
    InRange (failIf p err) := by
  intro what heq
  unfold failIf at heq
  split at heq
  · exact h what (Except.error.inj heq)
  · cases heq

theorem inRange_between {data : Bytes} {low high : Nat} (h : low ≤ high ∧ high ≤ data.length) :
    InRange (between data low high) := by
  rw [between_eq_ok.mpr ⟨h, rfl⟩]
  exact inRange_ok _

private theorem inRange_decodeElements {blob : Blob} {left element : Nat} {stream : Bytes} (h : element + left ≤ 4096) :
    InRange (decodeElements blob left element stream) := by
  have hlength := blob.length_eq
  induction left generalizing element stream with
  | zero => exact inRange_ok _
  | succ left ih =>
    have hindex : index blob.bytes (element * 32) = .ok _ :=
      index_eq_ok.mpr (List.getElem?_eq_getElem (by omega))
    unfold decodeElements
    rw [hindex, Except.ok_do]
    refine (inRange_failIf (by simp)).bind fun _ _ => ?_
    exact (inRange_between (by omega)).bind fun _ _ => ih (by omega)

theorem inRange_decodePackedBytesV1 (blob : Blob) : InRange (decodePackedBytesV1 checksum blob) := by
  refine (inRange_decodeElements (by omega)).bind fun stream hok => ?_
  have hlength : stream.length = 4096 * 31 := by
    rw [(decodeElements_all.mp hok).2, Blob.length_stream]
  have hcapacity : capacity = 4096 * 31 - 48 := rfl
  refine (inRange_failIf (by simp)).bind fun _ _ => (inRange_between (by omega)).bind fun magic _ => ?_
  refine (inRange_failIf (by simp)).bind fun _ _ => (inRange_between (by omega)).bind fun size _ => ?_
  refine (inRange_failIf (by simp)).bind fun _ hfits => ?_
  rw [failIf_eq_ok] at hfits
  refine (inRange_between (by omega)).bind fun payload _ => (inRange_between (by omega)).bind fun sum _ => ?_
  exact (inRange_failIf (by simp)).bind fun _ _ => inRange_ok _

/-! ## The codec -/

private theorem getD_copyFixed_nil (n i : Nat) : (copyFixed n []).bytes.getD i 0 = 0 := by
  simp only [copyFixed, List.take_nil, List.nil_append, List.length_nil, List.getD_eq_getElem?_getD,
    List.getElem?_replicate]
  split <;> rfl

private theorem places_zeroBlob (stream : Bytes) : Places stream 0 zeroBlob := by
  intro i
  rw [zeroBlob, getD_copyFixed_nil, List.take_zero]
  simp

private theorem encodePackedBytesV1_ok {payload : Bytes} (h : payload.length ≤ capacity) :
    ∃ blob, encodePackedBytesV1 checksum payload = .ok blob ∧ Blob.Canonical blob ∧
      decodePackedBytesV1 checksum blob = .ok payload := by
  have hcapacity : capacity = 4096 * 31 - 48 := rfl
  have hheader : (header checksum payload).length = 48 := length_header payload
  have hstream : (header checksum payload ++ payload).length ≤ 4096 * 31 := by
    rw [List.length_append]
    omega
  obtain ⟨blob, hencode, hplaces⟩ := encodeElements_ok hstream (by simp : 0 = min (0 * 31) _) (places_zeroBlob _)
  obtain ⟨hcanonical, hread⟩ := hplaces.stream hstream
  refine ⟨blob, ?_, hcanonical, decodePackedBytesV1_eq_ok.mpr ⟨hcanonical, h, hread ▸ List.prefix_append _ _⟩⟩
  simp only [encodePackedBytesV1, Except.do_ok_iff, exists_const, failIf_eq_ok, not_lt]
  exact ⟨h, hencode⟩

/-- The packed-bytes codec. Every payload up to the capacity is read back from its blob, whose
elements are canonical; the blobs that are accepted are the canonical ones whose stream starts
with the header of a payload and the payload, which is returned; and no index is out of range. -/
theorem packedBytes_codec (checksum : Bytes → FixedBytes 32) :
    (∀ payload, payload.length ≤ capacity → ∃ blob, encodePackedBytesV1 checksum payload = .ok blob ∧
      Blob.Canonical blob ∧ decodePackedBytesV1 checksum blob = .ok payload) ∧
    (∀ blob payload, decodePackedBytesV1 checksum blob = .ok payload ↔ Blob.Canonical blob ∧
      payload.length ≤ capacity ∧ header checksum payload ++ payload <+: Blob.stream blob) ∧
    (∀ payload, InRange (encodePackedBytesV1 checksum payload)) ∧
    ∀ blob, InRange (decodePackedBytesV1 checksum blob) := by
  refine ⟨fun payload h => encodePackedBytesV1_ok h, fun blob payload => decodePackedBytesV1_eq_ok, fun payload => ?_,
    inRange_decodePackedBytesV1⟩
  by_cases h : payload.length ≤ capacity
  · obtain ⟨blob, hok, -⟩ := @encodePackedBytesV1_ok checksum payload h
    rw [hok]
    exact inRange_ok blob
  · refine (inRange_failIf (by simp)).bind fun _ hok => ?_
    rw [failIf_eq_ok] at hok
    omega

/-- The header ends in the second element of the blob, and the payload in the third. -/
theorem packedBytes_codec_crossing :
    ∃ blob, encodePackedBytesV1 (copyFixed 32) (List.replicate 40 1) = .ok blob ∧ Blob.Canonical blob ∧
      decodePackedBytesV1 (copyFixed 32) blob = .ok (List.replicate 40 1) :=
  (packedBytes_codec (copyFixed 32)).1 _ (by decide)

end PackedBytes

end Ethertest
