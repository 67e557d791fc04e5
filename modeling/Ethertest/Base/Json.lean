-- SUMMARY: The grammar of JSON texts over bytes, and the bracket scanner that finds where a value ends.
import Mathlib

/-!
# JSON texts

`Grammar` derives the texts of JSON: values, objects and arrays with whitespace wherever it may
stand. Strings are over bytes, so every text in UTF-8 is covered. A `Scan` counts brackets of both
kinds in one depth and skips strings; every derived text is `Balanced` for it, so inside brackets
the scan comes back to where it was and never leaves them early.
-/

namespace Json

/-! ## Characters -/

abbrev Text := List UInt8

def quote : UInt8 := 0x22

def comma : UInt8 := 0x2c

def colon : UInt8 := 0x3a

def beginArray : UInt8 := 0x5b

def backslash : UInt8 := 0x5c

def endArray : UInt8 := 0x5d

def beginObject : UInt8 := 0x7b

def endObject : UInt8 := 0x7d

def IsOpen (b : UInt8) : Prop := b = beginObject ∨ b = beginArray

def IsClose (b : UInt8) : Prop := b = endObject ∨ b = endArray

instance : DecidablePred IsOpen := fun b => inferInstanceAs (Decidable (b = beginObject ∨ b = beginArray))

instance : DecidablePred IsClose := fun b => inferInstanceAs (Decidable (b = endObject ∨ b = endArray))

def IsSpace (b : UInt8) : Prop := b = 0x20 ∨ b = 0x09 ∨ b = 0x0a ∨ b = 0x0d

instance : DecidablePred IsSpace :=
  fun b => inferInstanceAs (Decidable (b = 0x20 ∨ b = 0x09 ∨ b = 0x0a ∨ b = 0x0d))

def IsDigit (b : UInt8) : Prop := 0x30 ≤ b ∧ b ≤ 0x39

instance : DecidablePred IsDigit := fun b => inferInstanceAs (Decidable (0x30 ≤ b ∧ b ≤ 0x39))

def IsHexDigit (b : UInt8) : Prop := IsDigit b ∨ (0x41 ≤ b ∧ b ≤ 0x46) ∨ (0x61 ≤ b ∧ b ≤ 0x66)

instance : DecidablePred IsHexDigit :=
  fun b => inferInstanceAs (Decidable (IsDigit b ∨ (0x41 ≤ b ∧ b ≤ 0x46) ∨ (0x61 ≤ b ∧ b ≤ 0x66)))

/-! ## Grammar -/

def Whitespace (text : Text) : Prop := ∀ b ∈ text, IsSpace b

def Digits (text : Text) : Prop := text ≠ [] ∧ ∀ b ∈ text, IsDigit b

/-- A sign, an integer without leading zeros, a fraction and an exponent. -/
inductive Number : Text → Prop where
  | mk {sign int frac exp : Text} (hsign : sign = [] ∨ sign = [0x2d])
      (hint : int = [0x30] ∨ Digits int ∧ int.head? ≠ some 0x30)
      (hfrac : frac = [] ∨ ∃ digits, frac = 0x2e :: digits ∧ Digits digits)
      (hexp : exp = [] ∨ ∃ e sign digits, exp = e :: sign ++ digits ∧ (e = 0x65 ∨ e = 0x45) ∧
        (sign = [] ∨ sign = [0x2b] ∨ sign = [0x2d]) ∧ Digits digits) :
      Number (sign ++ int ++ frac ++ exp)

/-- The characters of a string. -/
inductive Chars : Text → Prop where
  | nil : Chars []
  | unescaped {b : UInt8} {rest : Text} (hcontrol : 0x20 ≤ b) (hquote : b ≠ quote) (hbackslash : b ≠ backslash)
      (hrest : Chars rest) : Chars (b :: rest)
  | escaped {b : UInt8} {rest : Text} (hb : b ∈ [quote, backslash, 0x2f, 0x62, 0x66, 0x6e, 0x72, 0x74])
      (hrest : Chars rest) : Chars (backslash :: b :: rest)
  | unicode {a b c d : UInt8} {rest : Text} (ha : IsHexDigit a) (hb : IsHexDigit b) (hc : IsHexDigit c)
      (hd : IsHexDigit d) (hrest : Chars rest) : Chars (backslash :: 0x75 :: a :: b :: c :: d :: rest)

inductive Symbol where
  | string
  | value
  | object
  | array
  | members
  | elements

def true_ : Text := [0x74, 0x72, 0x75, 0x65]

def false_ : Text := [0x66, 0x61, 0x6c, 0x73, 0x65]

def null_ : Text := [0x6e, 0x75, 0x6c, 0x6c]

inductive Grammar : Symbol → Text → Prop where
  | string {chars : Text} (h : Chars chars) : Grammar .string (quote :: chars ++ [quote])
  | literal {text : Text} (h : text = true_ ∨ text = false_ ∨ text = null_) : Grammar .value text
  | number {text : Text} (h : Number text) : Grammar .value text
  | stringValue {text : Text} (h : Grammar .string text) : Grammar .value text
  | objectValue {text : Text} (h : Grammar .object text) : Grammar .value text
  | arrayValue {text : Text} (h : Grammar .array text) : Grammar .value text
  | emptyObject {ws : Text} (hws : Whitespace ws) : Grammar .object (beginObject :: ws ++ [endObject])
  | object {members : Text} (h : Grammar .members members) : Grammar .object (beginObject :: members ++ [endObject])
  | emptyArray {ws : Text} (hws : Whitespace ws) : Grammar .array (beginArray :: ws ++ [endArray])
  | array {elements : Text} (h : Grammar .elements elements) : Grammar .array (beginArray :: elements ++ [endArray])
  | member {before name between after value last : Text} (hbefore : Whitespace before) (hname : Grammar .string name)
      (hbetween : Whitespace between) (hafter : Whitespace after) (hvalue : Grammar .value value)
      (hlast : Whitespace last) :
      Grammar .members (before ++ name ++ between ++ colon :: after ++ value ++ last)
  | members {first rest : Text} (hfirst : Grammar .members first) (hrest : Grammar .members rest) :
      Grammar .members (first ++ comma :: rest)
  | element {before value after : Text} (hbefore : Whitespace before) (hvalue : Grammar .value value)
      (hafter : Whitespace after) : Grammar .elements (before ++ value ++ after)
  | elements {first rest : Text} (hfirst : Grammar .elements first) (hrest : Grammar .elements rest) :
      Grammar .elements (first ++ comma :: rest)

/-- The text of an object or an array. -/
def Container (text : Text) : Prop := Grammar .object text ∨ Grammar .array text

/-! ## Scanning -/

/-- What a scan keeps of the bytes before: open brackets, and whether it is in a string there. -/
structure Scan where
  depth : Nat
  inString : Bool := false
  escaped : Bool := false
  deriving DecidableEq

def Scan.step (s : Scan) (current : UInt8) : Scan :=
  if s.inString then
    if s.escaped then { s with escaped := false }
    else if current = backslash then { s with escaped := true }
    else if current = quote then { s with inString := false }
    else s
  else if current = quote then { s with inString := true }
  else if IsOpen current then { s with depth := s.depth + 1 }
  else if IsClose current then { s with depth := s.depth - 1 }
  else s

/-- The scan after a text, if it stays inside the brackets it started in. -/
def Scan.run (s : Scan) : Text → Option Scan
  | [] => some s
  | b :: rest => if (s.step b).depth = 0 then none else (s.step b).run rest

theorem Scan.run_append (s : Scan) (first second : Text) :
    s.run (first ++ second) = (s.run first).bind (·.run second) := by
  induction first generalizing s with
  | nil => rfl
  | cons b first ih =>
    simp only [List.cons_append, Scan.run, ih]
    split <;> rfl

variable {b : UInt8} {rest text chars : Text} {depth : Nat}

/-- A scan that stays inside, one byte further. -/
theorem Scan.run_cons {s s' : Scan} (h : s.step b = s') (hdepth : s'.depth ≠ 0) :
    s.run (b :: rest) = s'.run rest := by
  rw [Scan.run, h, if_neg hdepth]

/-- Inside brackets, the text leaves the scan as it was. -/
def Balanced (text : Text) : Prop := ∀ depth, Scan.run { depth := depth + 1 } text = some { depth := depth + 1 }

theorem Balanced.nil : Balanced [] := fun _ => rfl

theorem Balanced.append {first second : Text} (hfirst : Balanced first) (hsecond : Balanced second) :
    Balanced (first ++ second) := fun depth => by
  rw [Scan.run_append, hfirst, Option.bind_some, hsecond]

/-- A byte that is neither a quote nor a bracket. -/
def Plain (b : UInt8) : Prop := b ≠ quote ∧ ¬ IsOpen b ∧ ¬ IsClose b

theorem Balanced.cons (hb : Plain b) (hrest : Balanced rest) : Balanced (b :: rest) :=
  fun depth => by
    have hstep : Scan.step { depth := depth + 1 } b = { depth := depth + 1 } := by
      simp [Scan.step, hb.1, hb.2.1, hb.2.2]
    rw [Scan.run_cons hstep (Nat.succ_ne_zero depth), hrest]

theorem balanced_of_plain (h : ∀ b ∈ text, Plain b) : Balanced text := by
  induction text with
  | nil => exact .nil
  | cons b rest ih =>
    rw [List.forall_mem_cons] at h
    exact .cons h.1 (ih h.2)

/-- Brackets around a balanced text. -/
theorem Balanced.brackets {opening closing : UInt8} (hopen : IsOpen opening) (hclose : IsClose closing)
    (h : Balanced text) : Balanced (opening :: text ++ [closing]) := fun depth => by
  have hin : Scan.step { depth := depth + 1 } opening = { depth := depth + 1 + 1 } := by
    obtain rfl | rfl := hopen <;> rfl
  have hout : Scan.step { depth := depth + 1 + 1 } closing = { depth := depth + 1 } := by
    obtain rfl | rfl := hclose <;> rfl
  rw [List.cons_append, Scan.run_cons hin (Nat.succ_ne_zero _), Scan.run_append, h, Option.bind_some,
    Scan.run_cons hout (Nat.succ_ne_zero _), Scan.run]

/-! ## Every text is balanced -/

/-- A kind of byte without quotes and brackets is plain. -/
theorem plain_of {p : UInt8 → Prop} (h : p b)
    (hnone : ∀ c ∈ [quote, beginObject, beginArray, endObject, endArray], ¬ p c) : Plain b := by
  refine ⟨?_, ?_, ?_⟩
  · rintro rfl
    exact hnone _ (by decide) h
  · rintro (rfl | rfl) <;> exact hnone _ (by decide) h
  · rintro (rfl | rfl) <;> exact hnone _ (by decide) h

theorem Whitespace.balanced {ws : Text} (h : Whitespace ws) : Balanced ws :=
  balanced_of_plain fun b hb => plain_of (h b hb) (by decide +kernel)

/-- A byte of a number. -/
def InNumber (b : UInt8) : Prop := IsDigit b ∨ b ∈ [0x2d, 0x2b, 0x2e, 0x65, 0x45]

instance : DecidablePred InNumber :=
  fun b => inferInstanceAs (Decidable (IsDigit b ∨ b ∈ [0x2d, 0x2b, 0x2e, 0x65, 0x45]))

theorem Number.inNumber (h : Number text) : ∀ b ∈ text, InNumber b := by
  have hdigits : ∀ {digits : Text}, Digits digits → ∀ b ∈ digits, InNumber b :=
    fun h b hb => .inl (h.2 b hb)
  obtain ⟨hsign, hint, hfrac, hexp⟩ := h
  simp only [List.forall_mem_append]
  refine ⟨⟨⟨?_, ?_⟩, ?_⟩, ?_⟩
  · obtain rfl | rfl := hsign <;> simp [InNumber]
  · obtain rfl | ⟨hint, -⟩ := hint
    · simp [InNumber, IsDigit]
    · exact hdigits hint
  · obtain rfl | ⟨digits, rfl, hfrac⟩ := hfrac
    · simp [InNumber]
    · exact List.forall_mem_cons.mpr ⟨by simp [InNumber], hdigits hfrac⟩
  · obtain rfl | ⟨e, sign, digits, rfl, he, hsign, hexp⟩ := hexp
    · simp [InNumber]
    · refine List.forall_mem_cons.mpr ⟨?_, List.forall_mem_append.mpr ⟨?_, hdigits hexp⟩⟩
      · obtain rfl | rfl := he <;> simp [InNumber]
      · obtain rfl | rfl | rfl := hsign <;> simp [InNumber]

theorem Number.balanced (h : Number text) : Balanced text :=
  balanced_of_plain fun b hb => plain_of (h.inNumber b hb) (by decide +kernel)

/-- Inside a string, a byte that is neither a quote nor a backslash changes nothing. -/
theorem Scan.step_inString (hquote : b ≠ quote) (hbackslash : b ≠ backslash) :
    Scan.step { depth := depth, inString := true } b = { depth := depth, inString := true } := by
  simp [Scan.step, hquote, hbackslash]

theorem Scan.step_hexDigit (h : IsHexDigit b) :
    Scan.step { depth := depth, inString := true } b = { depth := depth, inString := true } := by
  refine Scan.step_inString ?_ ?_ <;> rintro rfl <;> revert h <;> decide

/-- The byte after a backslash does not count. -/
theorem Scan.run_escape : Scan.run { depth := depth + 1, inString := true } (backslash :: b :: rest) =
      Scan.run { depth := depth + 1, inString := true } rest := by
  have hfirst : Scan.step { depth := depth + 1, inString := true } backslash =
      { depth := depth + 1, inString := true, escaped := true } := rfl
  have hsecond : Scan.step { depth := depth + 1, inString := true, escaped := true } b =
      { depth := depth + 1, inString := true } := rfl
  rw [Scan.run_cons hfirst (Nat.succ_ne_zero depth), Scan.run_cons hsecond (Nat.succ_ne_zero depth)]

theorem Chars.run (h : Chars chars) (depth : Nat) :
    Scan.run { depth := depth + 1, inString := true } chars = some { depth := depth + 1, inString := true } := by
  induction h with
  | nil => rfl
  | unescaped hcontrol hquote hbackslash hrest ih =>
    rw [Scan.run_cons (Scan.step_inString hquote hbackslash) (Nat.succ_ne_zero depth), ih]
  | escaped hb hrest ih => rw [Scan.run_escape, ih]
  | unicode ha hb hc hd hrest ih =>
    rw [Scan.run_escape, Scan.run_cons (Scan.step_hexDigit ha) (Nat.succ_ne_zero depth),
      Scan.run_cons (Scan.step_hexDigit hb) (Nat.succ_ne_zero depth),
      Scan.run_cons (Scan.step_hexDigit hc) (Nat.succ_ne_zero depth),
      Scan.run_cons (Scan.step_hexDigit hd) (Nat.succ_ne_zero depth), ih]

/-- A string, whatever stands in it. -/
theorem Chars.balanced (h : Chars chars) : Balanced (quote :: chars ++ [quote]) := fun depth => by
  have hin : Scan.step { depth := depth + 1 } quote = { depth := depth + 1, inString := true } := rfl
  have hout : Scan.step { depth := depth + 1, inString := true } quote = { depth := depth + 1 } := rfl
  rw [List.cons_append, Scan.run_cons hin (Nat.succ_ne_zero depth), Scan.run_append, h.run, Option.bind_some,
    Scan.run_cons hout (Nat.succ_ne_zero depth), Scan.run]

theorem Grammar.balanced {symbol : Symbol} (h : Grammar symbol text) : Balanced text := by
  have hcomma : Plain comma := by unfold Plain; decide
  have hcolon : Plain colon := by unfold Plain; decide
  induction h with
  | string h => exact h.balanced
  | literal h => obtain rfl | rfl | rfl := h <;> exact balanced_of_plain (by unfold Plain; decide +kernel)
  | number h => exact h.balanced
  | stringValue _ ih => exact ih
  | objectValue _ ih => exact ih
  | arrayValue _ ih => exact ih
  | emptyObject hws => exact hws.balanced.brackets (.inl rfl) (.inl rfl)
  | object _ ih => exact ih.brackets (.inl rfl) (.inl rfl)
  | emptyArray hws => exact hws.balanced.brackets (.inr rfl) (.inr rfl)
  | array _ ih => exact ih.brackets (.inr rfl) (.inr rfl)
  | member hbefore _ hbetween hafter _ hlast ihname ihvalue =>
    exact ((((hbefore.balanced.append ihname).append hbetween.balanced).append
      (hafter.balanced.cons hcolon)).append ihvalue).append hlast.balanced
  | members _ _ ihfirst ihrest => exact ihfirst.append (ihrest.cons hcomma)
  | element hbefore _ hafter ih => exact (hbefore.balanced.append ih).append hafter.balanced
  | elements _ _ ihfirst ihrest => exact ihfirst.append (ihrest.cons hcomma)

/-- An object or array is a balanced text in brackets. -/
theorem Container.brackets (h : Container text) :
    ∃ opening inner closing, text = opening :: inner ++ [closing] ∧ IsOpen opening ∧ IsClose closing ∧
      Balanced inner := by
  obtain h | h := h
  · cases h with
    | emptyObject hws => exact ⟨_, _, _, rfl, .inl rfl, .inl rfl, hws.balanced⟩
    | object h => exact ⟨_, _, _, rfl, .inl rfl, .inl rfl, h.balanced⟩
  · cases h with
    | emptyArray hws => exact ⟨_, _, _, rfl, .inr rfl, .inr rfl, hws.balanced⟩
    | array h => exact ⟨_, _, _, rfl, .inr rfl, .inr rfl, h.balanced⟩

end Json
