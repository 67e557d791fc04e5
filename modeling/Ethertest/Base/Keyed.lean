-- SUMMARY: Lists of keyed records as byte strings: two big-endian lengths, a key and a value.
import Ethertest.Base.Bytes

/-!
# Keyed records

A record is the length of its key and the length of its value as 32-bit words, then the key
and the value. Records that fit can be read off the front of a string in one way only.
-/

/-! ## Big-endian words -/

/-- The `k` lowest bytes of a number, most significant first. -/
def beBytes (k n : Nat) : List UInt8 := (leBytes k n).reverse

/-- The number that a big-endian byte string spells. -/
def beNat (bs : List UInt8) : Nat := leNat bs.reverse

@[simp] theorem length_beBytes (k n : Nat) : (beBytes k n).length = k := by
  simp [beBytes]

theorem beNat_lt (bs : List UInt8) : beNat bs < 256 ^ bs.length := by
  simpa [beNat] using leNat_lt bs.reverse

theorem beNat_beBytes (k n : Nat) : beNat (beBytes k n) = n % 256 ^ k := by
  rw [beNat, beBytes, List.reverse_reverse, leNat_leBytes]

theorem beBytes_beNat (bs : List UInt8) : beBytes bs.length (beNat bs) = bs := by
  have h := leBytes_leNat bs.reverse
  rw [List.length_reverse] at h
  rw [beBytes, beNat, h, List.reverse_reverse]

namespace Keyed

/-! ## Records -/

abbrev Item := List UInt8 × List UInt8

/-- The lengths of key and value fit into their words. -/
def Fits (item : Item) : Prop := item.1.length < 2 ^ 32 ∧ item.2.length < 2 ^ 32

instance (item : Item) : Decidable (Fits item) := inferInstanceAs (Decidable (_ ∧ _))

def header (item : Item) : List UInt8 := beBytes 4 item.1.length ++ beBytes 4 item.2.length

def record (item : Item) : List UInt8 := header item ++ (item.1 ++ item.2)

/-- A list of records as one string. -/
def encode (items : List Item) : List UInt8 := items.flatMap record

@[simp] theorem encode_nil : encode [] = [] := rfl

@[simp] theorem encode_cons (item : Item) (items : List Item) :
    encode (item :: items) = record item ++ encode items := rfl

@[simp] theorem length_header (item : Item) : (header item).length = 8 := by
  simp [header]

theorem length_record (item : Item) : (record item).length = 8 + (item.1.length + item.2.length) := by
  simp [record]

theorem record_append_ne_nil (item : Item) (rest : List UInt8) : record item ++ rest ≠ [] := by
  intro hnil
  have hlength := congrArg List.length hnil
  rw [List.length_append, length_record, List.length_nil] at hlength
  omega

variable {x y : Item} {rest rest' : List UInt8}

/-- The lengths that a record starts with. -/
theorem beNat_header (h : Fits x) :
    beNat ((header x).take 4) = x.1.length ∧ beNat ((header x).drop 4) = x.2.length := by
  have hsize : (256 : Nat) ^ 4 = 2 ^ 32 := by norm_num
  constructor
  · rw [header, List.take_left' (length_beBytes _ _), beNat_beBytes, hsize, Nat.mod_eq_of_lt h.1]
  · rw [header, List.drop_left' (length_beBytes _ _), beNat_beBytes, hsize, Nat.mod_eq_of_lt h.2]

/-- Eight bytes are the header of what follows them with the lengths that they spell. -/
theorem header_of_lengths {lengths : List UInt8} (h : lengths.length = 8) (hkey : beNat (lengths.take 4) = x.1.length)
    (hvalue : beNat (lengths.drop 4) = x.2.length) : Fits x ∧ lengths = header x := by
  have htake : (lengths.take 4).length = 4 := by simp [h]
  have hdrop : (lengths.drop 4).length = 4 := by simp [h]
  have hsize : (256 : Nat) ^ 4 = 2 ^ 32 := by norm_num
  refine ⟨⟨?_, ?_⟩, ?_⟩
  · have hlt := beNat_lt (lengths.take 4)
    rwa [htake, hsize, hkey] at hlt
  · have hlt := beNat_lt (lengths.drop 4)
    rwa [hdrop, hsize, hvalue] at hlt
  · have hfirst := beBytes_beNat (lengths.take 4)
    have hsecond := beBytes_beNat (lengths.drop 4)
    rw [htake, hkey] at hfirst
    rw [hdrop, hvalue] at hsecond
    rw [header, hfirst, hsecond, List.take_append_drop]

/-- A record at the front of a string determines itself and the rest. -/
theorem record_append_inj (hx : Fits x) (hy : Fits y) (h : record x ++ rest = record y ++ rest') :
    x = y ∧ rest = rest' := by
  simp only [record, List.append_assoc] at h
  obtain ⟨hheader, h⟩ := List.append_inj h (by simp)
  have hkey : x.1.length = y.1.length := by rw [← (beNat_header hx).1, hheader, (beNat_header hy).1]
  have hvalue : x.2.length = y.2.length := by rw [← (beNat_header hx).2, hheader, (beNat_header hy).2]
  obtain ⟨hfirst, h⟩ := List.append_inj h hkey
  obtain ⟨hsecond, hrest⟩ := List.append_inj h hvalue
  exact ⟨Prod.ext hfirst hsecond, hrest⟩

theorem encode_inj {items items' : List Item} (h : ∀ item ∈ items, Fits item) (h' : ∀ item ∈ items', Fits item)
    (heq : encode items = encode items') : items = items' := by
  induction items generalizing items' with
  | nil =>
    cases items' with
    | nil => rfl
    | cons y items' => exact absurd heq.symm (record_append_ne_nil _ _)
  | cons x items ih =>
    cases items' with
    | nil => exact absurd heq (record_append_ne_nil _ _)
    | cons y items' =>
      rw [List.forall_mem_cons] at h h'
      obtain ⟨rfl, hrest⟩ := record_append_inj h.1 h'.1 heq
      rw [ih h.2 h'.2 hrest]

end Keyed
