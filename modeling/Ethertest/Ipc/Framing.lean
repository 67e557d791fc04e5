-- SUMMARY: Framing of JSON values on an IPC connection, for every split of the bytes into reads.
import Ethertest.Base.Json
import Ethertest.Types

/-!
# IPC framing

An IPC connection carries objects and arrays one after another, with whitespace between them.
`readJSONValue` reads bytes until the brackets of one value close, and refuses values that are
too long. `Read` hands the values on in pieces of any size.
-/

namespace Ethertest

namespace Ipc

open Json

/-! ## The reader -/

/-- A buffered reader: what is buffered, and what the reads of the connection will return. A read
returns at least one byte. -/
structure Reader where
  buffered : Bytes
  reads : List Bytes
  nonempty : ∀ chunk ∈ reads, chunk ≠ []

/-- All bytes that are still to come. -/
def Reader.bytes (r : Reader) : Bytes := r.buffered ++ r.reads.flatten

/-- `ReadByte`, with nothing at the end of the connection. -/
def Reader.readByte (r : Reader) : Option (UInt8 × Reader) :=
  match r.buffered with
  | current :: rest => some (current, { r with buffered := rest })
  | [] =>
    match r.reads, r.nonempty with
    | [], _ => none
    | chunk :: reads, h =>
      some (chunk.head (h chunk List.mem_cons_self),
        { buffered := chunk.tail, reads := reads, nonempty := fun c hc => h c (List.mem_cons_of_mem _ hc) })

/-- The next byte does not depend on how the bytes are split. -/
theorem Reader.readByte_cases (r : Reader) :
    (r.readByte = none ∧ r.bytes = []) ∨
      ∃ current r', r.readByte = some (current, r') ∧ r.bytes = current :: r'.bytes := by
  obtain ⟨buffered, reads, hnonempty⟩ := r
  match buffered, reads, hnonempty with
  | current :: rest, reads, _ => exact .inr ⟨current, _, rfl, rfl⟩
  | [], [], _ => exact .inl ⟨rfl, rfl⟩
  | [], chunk :: reads, h =>
    refine .inr ⟨_, _, rfl, ?_⟩
    have hchunk := List.cons_head_tail (h chunk List.mem_cons_self)
    simp only [Reader.bytes, List.nil_append, List.flatten_cons, ← List.cons_append, hchunk]

/-! ## Reading one value -/

/-- `io.EOF` -/
def eof : Error := .new "EOF"

def exceeds (requestMax : Nat) : Error := .errorf "IPC request exceeds %d bytes" [.num requestMax]

/-- `unicode.IsSpace` on a single byte. -/
def IsUnicodeSpace (current : UInt8) : Prop :=
  current ∈ [0x09, 0x0a, 0x0b, 0x0c, 0x0d, 0x20, 0x85, 0xa0]

instance : DecidablePred IsUnicodeSpace := fun current =>
  inferInstanceAs (Decidable (current ∈ [0x09, 0x0a, 0x0b, 0x0c, 0x0d, 0x20, 0x85, 0xa0]))

/-- The variables of the loop in `readJSONValue`. -/
structure Frame where
  value : Bytes := []
  skipped : Nat := 0
  scan : Scan := { depth := 0 }

/-- How a round of the loop ends. -/
inductive Turn where
  | more (frame : Frame)
  | done (result : Except Error Bytes)

/-- The value and the scan after one more byte. -/
def Frame.push (frame : Frame) (current : UInt8) : Frame :=
  { frame with value := frame.value ++ [current], scan := frame.scan.step current }

/-- One round of the loop, with the byte it has read. -/
def Frame.next (requestMax : Nat) (frame : Frame) (current : UInt8) : Turn :=
  if frame.scan.depth = 0 ∧ frame.value = [] then
    if IsUnicodeSpace current then
      if requestMax < frame.skipped + 1 then .done (.error (exceeds requestMax))
      else .more { frame with skipped := frame.skipped + 1 }
    else if ¬ IsOpen current then .done (.ok [current])
    else .more { frame with scan := { frame.scan with depth := 1 }, value := frame.value ++ [current] }
  else if requestMax < (frame.push current).value.length then .done (.error (exceeds requestMax))
  -- the depth was positive, so only a closing bracket makes it zero
  else if (frame.push current).scan.depth = 0 then .done (.ok (frame.push current).value)
  else .more (frame.push current)

/-- The loop of `readJSONValue`. -/
def readValue (requestMax : Nat) (r : Reader) (frame : Frame) : Except Error Bytes × Reader :=
  match _h : r.readByte with
  | none => (if frame.value ≠ [] then .ok frame.value else .error eof, r)
  | some (current, r') =>
    match frame.next requestMax current with
    | .more frame' => readValue requestMax r' frame'
    | .done result => (result, r')
termination_by r.bytes.length
decreasing_by
  obtain ⟨hnone, -⟩ | ⟨current', r'', hsome, hbytes⟩ := r.readByte_cases
  · simp [hnone] at _h
  · rw [hsome, Option.some.injEq, Prod.mk.injEq] at _h
    rw [hbytes, ← _h.2]
    exact Nat.lt_succ_self _

/-! ## The connection -/

/-- `boundedIPCConn`, for reading. The configuration allows positive request limits only. -/
structure BoundedIPCConn where
  reader : Reader
  pending : Bytes
  requestMax : Nat
  requestMax_pos : 0 < requestMax

def BoundedIPCConn.readJSONValue (c : BoundedIPCConn) : Except Error Bytes × BoundedIPCConn :=
  let (result, reader) := readValue c.requestMax c.reader {}
  (result, { c with reader := reader })

/-- `Read` into an output of this size; the result is what was copied. -/
def BoundedIPCConn.read (c : BoundedIPCConn) (size : Nat) : Except Error Bytes × BoundedIPCConn :=
  if c.pending = [] then
    match c.readJSONValue with
    | (.error err, c) => (.error err, c)
    | (.ok value, c) => (.ok (value.take size), { c with pending := value.drop size })
  else (.ok (c.pending.take size), { c with pending := c.pending.drop size })

/-- The results of successive calls of `readJSONValue`. -/
def BoundedIPCConn.readJSONValues : Nat → BoundedIPCConn → List (Except Error Bytes)
  | 0, _ => []
  | calls + 1, c => c.readJSONValue.1 :: readJSONValues calls c.readJSONValue.2

/-- What successive calls of `Read` deliver, up to the first error. -/
def BoundedIPCConn.deliver : List Nat → BoundedIPCConn → Bytes × Option Error
  | [], _ => ([], none)
  | size :: sizes, c =>
    match c.read size with
    | (.error err, _) => ([], some err)
    | (.ok output, c) => (output ++ (deliver sizes c).1, (deliver sizes c).2)

/-! ## Framing a string of bytes -/

/-- `readValue` on the bytes themselves: the result, and the bytes after it. -/
def frameBytes (requestMax : Nat) : Frame → Bytes → Except Error Bytes × Bytes
  | frame, [] => (if frame.value ≠ [] then .ok frame.value else .error eof, [])
  | frame, current :: rest =>
    match frame.next requestMax current with
    | .more frame' => frameBytes requestMax frame' rest
    | .done result => (result, rest)

/-- How the bytes are split into reads does not matter. -/
theorem readValue_eq (requestMax : Nat) (r : Reader) (frame : Frame) :
    ((readValue requestMax r frame).1, (readValue requestMax r frame).2.bytes) =
      frameBytes requestMax frame r.bytes := by
  induction hn : r.bytes.length using Nat.strong_induction_on generalizing r frame with
  | _ n ih =>
    subst hn
    rw [readValue]
    obtain ⟨hnone, hbytes⟩ | ⟨current, r', hsome, hbytes⟩ := r.readByte_cases
    · split
      next => rw [hbytes, frameBytes]
      next h => simp [hnone] at h
    · split
      next h => simp [hsome] at h
      next current' r'' h =>
        rw [hsome, Option.some.injEq, Prod.mk.injEq] at h
        obtain ⟨rfl, rfl⟩ := h
        rw [hbytes, frameBytes]
        cases frame.next requestMax current with
        | more frame' => exact ih _ (by rw [hbytes]; exact Nat.lt_succ_self _) r' frame' rfl
        | done result => rfl

variable {requestMax : Nat}

variable {frame : Frame} {current opening : UInt8} {space value : Bytes} {skipped size : Nat} {scan : Scan}

theorem frameBytes_more {frame' : Frame} {rest : Bytes} (h : frame.next requestMax current = .more frame') :
    frameBytes requestMax frame (current :: rest) = frameBytes requestMax frame' rest := by
  rw [frameBytes, h]

theorem frameBytes_done {rest : Bytes} {result : Except Error Bytes}
    (h : frame.next requestMax current = .done result) :
    frameBytes requestMax frame (current :: rest) = (result, rest) := by
  rw [frameBytes, h]

/-- Whitespace before a value is skipped. -/
theorem frameBytes_space {rest : Bytes} (hspace : Whitespace space)
    (hfits : skipped + space.length ≤ requestMax) :
    frameBytes requestMax { skipped := skipped } (space ++ rest) =
      frameBytes requestMax { skipped := skipped + space.length } rest := by
  induction space generalizing skipped with
  | nil => rfl
  | cons current space ih =>
    rw [List.length_cons] at hfits ⊢
    have hunicode : IsUnicodeSpace current := by
      obtain rfl | rfl | rfl | rfl := hspace current List.mem_cons_self <;> simp [IsUnicodeSpace]
    have hnext : Frame.next requestMax { skipped := skipped } current = .more { skipped := skipped + 1 } := by
      simp only [Frame.next, and_self, if_pos, hunicode]
      exact if_neg (by omega)
    rw [List.cons_append, frameBytes_more hnext,
      ih (fun b hb => hspace b (List.mem_cons_of_mem _ hb)) (by omega)]
    congr 2
    omega

@[simp] theorem Frame.length_push (frame : Frame) (current : UInt8) :
    (frame.push current).value.length = frame.value.length + 1 := by
  simp [Frame.push]

/-- A frame inside the brackets of its value. -/
def Frame.Inside (frame : Frame) : Prop := frame.scan.depth ≠ 0

theorem Frame.Inside.next (h : frame.Inside) (requestMax : Nat) (current : UInt8) :
    frame.next requestMax current =
      if requestMax < (frame.push current).value.length then .done (.error (exceeds requestMax))
      else if (frame.push current).scan.depth = 0 then .done (.ok (frame.push current).value)
      else .more (frame.push current) := by
  rw [Frame.next, if_neg fun hstart => h hstart.1]

/-- A scan that stays inside after a byte. -/
theorem Frame.run_push {text : Bytes} (h : frame.scan.run (current :: text) = some scan) :
    (frame.push current).Inside ∧ (frame.push current).scan.run text = some scan := by
  rw [Scan.run] at h
  split at h
  · cases h
  · next hdepth => exact ⟨hdepth, h⟩

/-- A text that stays inside the brackets is added to the value. -/
theorem frameBytes_inside {text rest : Bytes} (hinside : frame.Inside)
    (hrun : frame.scan.run text = some scan) (hfits : frame.value.length + text.length ≤ requestMax) :
    frameBytes requestMax frame (text ++ rest) =
      frameBytes requestMax { frame with value := frame.value ++ text, scan := scan } rest := by
  induction text generalizing frame with
  | nil =>
    obtain rfl : frame.scan = scan := by simpa [Scan.run] using hrun
    simp
  | cons current text ih =>
    rw [List.length_cons] at hfits
    obtain ⟨hinside', hrun'⟩ := Frame.run_push hrun
    have hnext := hinside.next requestMax current
    rw [if_neg (by rw [Frame.length_push]; omega), if_neg hinside'] at hnext
    rw [List.cons_append, frameBytes_more hnext, ih hinside' hrun' (by rw [Frame.length_push]; omega)]
    simp [Frame.push]

/-- A text that stays inside the brackets and is too long is refused. -/
theorem frameBytes_exceeds {text rest : Bytes} (hinside : frame.Inside)
    (hrun : frame.scan.run text = some scan) (hvalue : frame.value.length ≤ requestMax)
    (hlong : requestMax < frame.value.length + text.length) :
    (frameBytes requestMax frame (text ++ rest)).1 = .error (exceeds requestMax) := by
  induction text generalizing frame with
  | nil =>
    rw [List.length_nil] at hlong
    omega
  | cons current text ih =>
    rw [List.length_cons] at hlong
    obtain ⟨hinside', hrun'⟩ := Frame.run_push hrun
    have hnext := hinside.next requestMax current
    by_cases hover : requestMax < (frame.push current).value.length
    · rw [if_pos hover] at hnext
      rw [List.cons_append, frameBytes_done hnext]
    · rw [if_neg hover, if_neg hinside'] at hnext
      rw [List.cons_append, frameBytes_more hnext]
      exact ih hinside' hrun' (not_lt.mp hover) (by rw [Frame.length_push]; omega)

/-! ## One value -/

/-- The frame after whitespace, an opening bracket and what follows it. -/
def opened (skipped : Nat) (opening : UInt8) (inner : Bytes) : Frame :=
  { value := opening :: inner, skipped := skipped, scan := { depth := 1 } }

theorem opened_inside {inner : Bytes} : (opened skipped opening inner).Inside :=
  Nat.one_ne_zero

private theorem frameBytes_open {rest : Bytes} (hspace : Whitespace space) (hfits : space.length ≤ requestMax)
    (hopen : IsOpen opening) :
    frameBytes requestMax {} (space ++ opening :: rest) =
      frameBytes requestMax (opened space.length opening []) rest := by
  have hunicode : ¬ IsUnicodeSpace opening := by
    obtain rfl | rfl := hopen <;> simp [IsUnicodeSpace, beginObject, beginArray]
  have hnext : Frame.next requestMax { skipped := space.length } opening = .more (opened space.length opening []) := by
    simp only [Frame.next, and_self, if_pos, hunicode, hopen, not_true_eq_false, if_false]
    rfl
  have hskip : frameBytes requestMax {} (space ++ opening :: rest) = _ :=
    frameBytes_space hspace (by omega : 0 + space.length ≤ requestMax)
  rw [hskip, Nat.zero_add, frameBytes_more hnext]

private theorem frameBytes_opened {inner rest : Bytes} (hinner : Balanced inner)
    (hfits : inner.length + 1 ≤ requestMax) :
    frameBytes requestMax (opened skipped opening []) (inner ++ rest) =
      frameBytes requestMax (opened skipped opening inner) rest :=
  frameBytes_inside opened_inside (hinner 0) (Nat.add_comm .. ▸ hfits)

/-- An object or array that is short enough is framed exactly. -/
theorem frameBytes_container {rest : Bytes} (hspace : Whitespace space) (hfits : space.length ≤ requestMax)
    (hvalue : Container value) (hshort : value.length ≤ requestMax) :
    frameBytes requestMax {} (space ++ (value ++ rest)) = (.ok value, rest) := by
  obtain ⟨opening, inner, closing, rfl, hopen, hclose, hinner⟩ := hvalue.brackets
  simp only [List.cons_append, List.length_cons, List.length_append, List.length_nil, List.append_assoc] at hshort ⊢
  rw [frameBytes_open hspace hfits hopen, frameBytes_opened hinner (by omega)]
  refine frameBytes_done ?_
  rw [opened_inside.next, if_neg, if_pos]
  · simp [opened, Frame.push]
  · obtain rfl | rfl := hclose <;> rfl
  · simp only [Frame.length_push, opened, List.length_cons]
    omega

/-- An object or array that is too long is refused. -/
theorem frameBytes_long {rest : Bytes} (hpos : 0 < requestMax) (hspace : Whitespace space)
    (hfits : space.length ≤ requestMax) (hvalue : Container value) (hlong : requestMax < value.length) :
    (frameBytes requestMax {} (space ++ (value ++ rest))).1 = .error (exceeds requestMax) := by
  obtain ⟨opening, inner, closing, rfl, hopen, hclose, hinner⟩ := hvalue.brackets
  simp only [List.cons_append, List.length_cons, List.length_append, List.length_nil, List.append_assoc] at hlong ⊢
  rw [frameBytes_open hspace hfits hopen]
  by_cases hover : requestMax < 1 + inner.length
  · exact frameBytes_exceeds opened_inside (hinner 0) hpos hover
  · -- all but the closing bracket fits
    rw [frameBytes_opened hinner (by omega)]
    refine congrArg Prod.fst (frameBytes_done ?_)
    rw [opened_inside.next, if_pos]
    simp only [Frame.length_push, opened, List.length_cons]
    omega

theorem frameBytes_end (hspace : Whitespace space) (hfits : space.length ≤ requestMax) :
    frameBytes requestMax {} space = (.error eof, []) := by
  have hskip : frameBytes requestMax {} (space ++ []) = _ :=
    frameBytes_space hspace (by omega : 0 + space.length ≤ requestMax)
  rw [List.append_nil] at hskip
  exact hskip

/-! ## Successive values -/

/-- A value with the whitespace before it. -/
structure Item where
  space : Bytes
  value : Bytes

/-- An object or array after whitespace, both within the limit. -/
structure Item.Framed (requestMax : Nat) (item : Item) : Prop where
  space : Whitespace item.space
  space_le : item.space.length ≤ requestMax
  value : Container item.value
  value_le : item.value.length ≤ requestMax

/-- The bytes of a sequence of values. -/
def stream (items : List Item) : Bytes := items.flatMap fun item => item.space ++ item.value

/-- The bytes to come are framed values, and then the rest. -/
structure BoundedIPCConn.Carries (c : BoundedIPCConn) (items : List Item) (rest : Bytes) : Prop where
  framed : ∀ item ∈ items, item.Framed c.requestMax
  bytes : c.reader.bytes = stream items ++ rest

variable {c : BoundedIPCConn} {items : List Item} {rest : Bytes}

theorem BoundedIPCConn.readJSONValue_eq (c : BoundedIPCConn) :
    (c.readJSONValue.1, c.readJSONValue.2.reader.bytes) = frameBytes c.requestMax {} c.reader.bytes :=
  readValue_eq ..

/-- After the values, a call reads the rest. -/
theorem BoundedIPCConn.Carries.readJSONValue_nil (h : c.Carries [] rest) :
    c.readJSONValue.1 = (frameBytes c.requestMax {} rest).1 := by
  have hcall := c.readJSONValue_eq
  rw [h.bytes] at hcall
  exact congrArg Prod.fst hcall

/-- A call returns the next value and leaves the others. -/
theorem BoundedIPCConn.Carries.readJSONValue_cons {item : Item} (h : c.Carries (item :: items) rest) :
    c.readJSONValue.1 = .ok item.value ∧ c.readJSONValue.2.Carries items rest := by
  obtain ⟨hitem, hitems⟩ := List.forall_mem_cons.mp h.framed
  have hsplit : stream (item :: items) ++ rest = item.space ++ (item.value ++ (stream items ++ rest)) := by
    simp [stream]
  have hcall := c.readJSONValue_eq
  rw [h.bytes, hsplit, frameBytes_container hitem.space hitem.space_le hitem.value hitem.value_le,
    Prod.mk.injEq] at hcall
  exact ⟨hcall.1, hitems, hcall.2⟩

/-- Successive calls return the values, and then what a call returns on the rest. -/
theorem BoundedIPCConn.Carries.readJSONValues (h : c.Carries items rest) :
    BoundedIPCConn.readJSONValues (items.length + 1) c =
      items.map (fun item => .ok item.value) ++ [(frameBytes c.requestMax {} rest).1] := by
  induction items generalizing c with
  | nil =>
    rw [← h.readJSONValue_nil]
    rfl
  | cons item items ih =>
    obtain ⟨hresult, hnext⟩ := h.readJSONValue_cons
    rw [List.length_cons, BoundedIPCConn.readJSONValues, hresult, ih hnext]
    rfl

/-! ## Delivery -/

/-- What is still to be delivered. -/
def BoundedIPCConn.remaining (c : BoundedIPCConn) (items : List Item) : Bytes :=
  c.pending ++ items.flatMap Item.value

theorem BoundedIPCConn.read_error {err : Error} (hpending : c.pending = [])
    (h : c.readJSONValue.1 = .error err) : c.read size = (.error err, c.readJSONValue.2) := by
  rw [read, if_pos hpending]
  match c.readJSONValue, h with
  | (.error _, _), rfl => rfl

theorem BoundedIPCConn.read_ok (hpending : c.pending = []) (h : c.readJSONValue.1 = .ok value) :
    c.read size = (.ok (value.take size), { c.readJSONValue.2 with pending := value.drop size }) := by
  rw [read, if_pos hpending]
  match c.readJSONValue, h with
  | (.ok _, _), rfl => rfl

/-- A container is not empty. -/
theorem ne_nil_of_container (h : Container value) : value ≠ [] := by
  obtain ⟨opening, inner, closing, rfl, -⟩ := h.brackets
  simp

private theorem take_ne_nil (hvalue : value ≠ []) (hsize : 0 < size) : value.take size ≠ [] := by
  simp only [ne_eq, List.take_eq_nil_iff, hvalue, or_false]
  omega

/-- A read with something left delivers the front of it, at least one byte if the output has room. -/
theorem BoundedIPCConn.Carries.read_ok (h : c.Carries items rest) (size : Nat) (hleft : c.remaining items ≠ []) :
    ∃ output c' items', c.read size = (.ok output, c') ∧ c'.Carries items' rest ∧
      c'.requestMax = c.requestMax ∧ c.remaining items = output ++ c'.remaining items' ∧
      (0 < size → output ≠ []) := by
  by_cases hpending : c.pending = []
  · cases items with
    | nil => simp [remaining, hpending] at hleft
    | cons item items =>
      obtain ⟨hresult, hnext⟩ := h.readJSONValue_cons
      refine ⟨_, _, items, BoundedIPCConn.read_ok hpending hresult, ⟨hnext.framed, hnext.bytes⟩, rfl, ?_, ?_⟩
      · simp [remaining, hpending, ← List.append_assoc]
      · exact take_ne_nil (ne_nil_of_container (h.framed item List.mem_cons_self).value)
  · refine ⟨_, { c with pending := c.pending.drop size }, items, if_neg hpending, ⟨h.framed, h.bytes⟩, rfl, ?_,
      take_ne_nil hpending⟩
    simp [remaining, ← List.append_assoc]

/-- At the end a read fails as a call does. -/
theorem BoundedIPCConn.Carries.read_end (h : c.Carries items rest) (size : Nat) (hleft : c.remaining items = [])
    (hrest : (frameBytes c.requestMax {} rest).1 = .error eof) : (c.read size).1 = .error eof := by
  rw [remaining, List.append_eq_nil_iff] at hleft
  cases items with
  | nil => rw [read_error hleft.1 (h.readJSONValue_nil.trans hrest)]
  | cons item items =>
    rw [List.flatMap_cons, List.append_eq_nil_iff] at hleft
    exact (ne_nil_of_container (h.framed item List.mem_cons_self).value hleft.2.1).elim

/-- What reads deliver is a front of what remains, all of it before the end of the connection is
reported, and all of it after enough reads into outputs with room. -/
structure Delivered (value : Bytes) (sizes : List Nat) (delivered : Bytes × Option Error) : Prop where
  front : delivered.1 <+: value
  complete : delivered.2 = none ∨ delivered.2 = some eof ∧ delivered.1 = value
  enough : value.length < sizes.countP (0 < ·) → delivered.2 = some eof

theorem BoundedIPCConn.Carries.deliver (h : c.Carries items rest)
    (hrest : (frameBytes c.requestMax {} rest).1 = .error eof) (sizes : List Nat) :
    Delivered (c.remaining items) sizes (BoundedIPCConn.deliver sizes c) := by
  induction sizes generalizing c items with
  | nil => exact ⟨List.nil_prefix, .inl rfl, by simp⟩
  | cons size sizes ih =>
    by_cases hleft : c.remaining items = []
    · have hread := h.read_end size hleft hrest
      have hdeliver : BoundedIPCConn.deliver (size :: sizes) c = ([], some eof) := by
        rw [BoundedIPCConn.deliver]
        match c.read size, hread with
        | (.error _, _), rfl => rfl
      rw [hdeliver, hleft]
      exact ⟨List.nil_prefix, .inr ⟨rfl, rfl⟩, fun _ => rfl⟩
    · obtain ⟨output, c', items', hread, hnext, hmax, hsplit, hsome⟩ := h.read_ok size hleft
      have hih := ih hnext (hmax ▸ hrest)
      have hdeliver : BoundedIPCConn.deliver (size :: sizes) c =
          (output ++ (BoundedIPCConn.deliver sizes c').1, (BoundedIPCConn.deliver sizes c').2) := by
        rw [BoundedIPCConn.deliver, hread]
      rw [hdeliver, hsplit]
      refine ⟨(List.prefix_append_right_inj output).mpr hih.front, ?_, fun henough => hih.enough ?_⟩
      · exact hih.complete.imp_right fun ⟨heof, hall⟩ => ⟨heof, by rw [hall]⟩
      · rw [List.length_append, List.countP_cons] at henough
        by_cases hsize : 0 < size
        · have := List.length_pos_iff.mpr (hsome hsize)
          simp only [hsize, decide_true, if_true] at henough
          omega
        · simp only [hsize, decide_false, Bool.false_eq_true, if_false] at henough
          omega

/-! ## Bounded values -/

/-- The frames that rounds of the loop lead to. -/
def Reaches (requestMax : Nat) : Frame → Frame → Prop :=
  Relation.ReflTransGen fun frame frame' => ∃ current, frame.next requestMax current = .more frame'

/-- Between rounds a value is within the limit. -/
theorem Reaches.length_le (hpos : 0 < requestMax) (h : Reaches requestMax {} frame) :
    frame.value.length ≤ requestMax := by
  induction h with
  | refl => exact Nat.zero_le _
  | tail _ hnext ih =>
    obtain ⟨current, hnext⟩ := hnext
    rw [Frame.next] at hnext
    split_ifs at hnext with hstart hspace hskipped hopen hlong hdone <;> cases hnext
    · exact ih
    · rw [hstart.2]
      exact hpos
    · exact not_lt.mp hlong

/-! ## The connection -/

/-- IPC framing. For every split of the bytes into reads, successive calls return the objects and
arrays that are sent and then the end of the connection; reads with outputs of any sizes deliver
them one after another; a value that is too long is an error after the values before it; and no
value grows past the limit by more than the byte that is refused. -/
theorem ipc_framing (h : c.Carries items rest) :
    (Whitespace rest → rest.length ≤ c.requestMax →
      BoundedIPCConn.readJSONValues (items.length + 1) c =
          items.map (fun item => .ok item.value) ++ [.error eof] ∧
        (c.pending = [] → ∀ sizes, Delivered (items.flatMap Item.value) sizes (BoundedIPCConn.deliver sizes c))) ∧
    (∀ space value more, rest = space ++ (value ++ more) → Whitespace space → space.length ≤ c.requestMax →
      Container value → c.requestMax < value.length →
      BoundedIPCConn.readJSONValues (items.length + 1) c =
        items.map (fun item => .ok item.value) ++ [.error (exceeds c.requestMax)]) ∧
    (∀ frame current, Reaches c.requestMax {} frame → (frame.value ++ [current]).length ≤ c.requestMax + 1) := by
  refine ⟨fun hspace hfits => ?_, ?_, ?_⟩
  · have hrest : (frameBytes c.requestMax {} rest).1 = .error eof := by rw [frameBytes_end hspace hfits]
    refine ⟨by rw [h.readJSONValues, hrest], fun hpending sizes => ?_⟩
    have hdelivered := h.deliver hrest sizes
    rwa [BoundedIPCConn.remaining, hpending, List.nil_append] at hdelivered
  · rintro space value more rfl hspace hfits hvalue hlong
    rw [h.readJSONValues, frameBytes_long c.requestMax_pos hspace hfits hvalue hlong]
  · intro frame current hreaches
    have := hreaches.length_le c.requestMax_pos
    simp only [List.length_append, List.length_singleton]
    omega

/-- An empty object, and an array with a bracket inside a string, split in the middle of both. -/
def sampleConn : BoundedIPCConn where
  reader := {
    buffered := []
    reads := [[0x7b], [0x7d, 0x20, 0x5b, 0x22], [0x5d, 0x22, 0x5d]]
    nonempty := by simp }
  pending := []
  requestMax := 8
  requestMax_pos := by decide

def sampleItems : List Item :=
  [{ space := [], value := [0x7b, 0x7d] }, { space := [0x20], value := [0x5b, 0x22, 0x5d, 0x22, 0x5d] }]

private theorem sampleConn_carries : sampleConn.Carries sampleItems [] := by
  have hempty : Whitespace [] := by simp [Whitespace]
  have hobject : Grammar .object (beginObject :: [] ++ [endObject]) := .emptyObject hempty
  have hchars : Chars [endArray] := .unescaped (by decide) (by decide) (by decide) .nil
  have helement : Grammar .elements ([] ++ (quote :: [endArray] ++ [quote]) ++ []) :=
    .element hempty (.stringValue (.string hchars)) hempty
  refine ⟨?_, rfl⟩
  rw [sampleItems, List.forall_mem_cons, List.forall_mem_singleton]
  refine ⟨⟨hempty, by decide, .inl hobject, by decide⟩, ?_, by decide, .inr (.array helement), by decide⟩
  simp [Whitespace, IsSpace]

theorem ipc_framing_sample :
    BoundedIPCConn.readJSONValues 3 sampleConn =
      [.ok [0x7b, 0x7d], .ok [0x5b, 0x22, 0x5d, 0x22, 0x5d], .error eof] :=
  ((ipc_framing sampleConn_carries).1 (by simp [Whitespace]) (by decide)).1

end Ipc

end Ethertest
