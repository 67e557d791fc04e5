-- SUMMARY: The record of a control block as JSON, and the check that replays it.
import Ethertest.Commands.Control

/-!
# Control records

The record of a control block holds the caller's changes as JSON. `VerifyControlRecord`
decodes them, executes the block again and compares state roots. In JSON a nil slice is
null, and null is decoded to a nil pointer.
-/

namespace Ethertest

/-! ## JSON -/

/-- A member of a JSON object: missing, null, or a value. -/
inductive Member (α : Type) where
  | absent
  | null
  | value (a : α)
  deriving DecidableEq

namespace Member

variable {α : Type}

/-- Encode a pointer with `omitempty`. The value behind it may be nil. -/
def ofPointer : Option (Option α) → Member α
  | none => absent
  | some none => null
  | some (some a) => value a

end Member

/-- The JSON object of an account's changes. -/
structure AccountMembers where
  balance : Member Int
  nonce : Member Nat
  code : Member Bytes
  storage : Member (Store Hash Hash)
  storageDiff : Member (Store Hash Hash)

/-- `json.Marshal` -/
def AccountChanges.marshal (change : AccountChanges) : AccountMembers where
  balance := .ofPointer (change.balance.map some)
  nonce := .ofPointer (change.nonce.map some)
  code := .ofPointer change.code
  storage := .ofPointer (change.storage.map some)
  storageDiff := .ofPointer (change.storageDiff.map some)

namespace Env

variable (E : Env)

end Env

end Ethertest
