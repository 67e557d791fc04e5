-- SUMMARY: State archives: the manifest and the database that are dumped, and the checks they are read back with.
import Ethertest.Archive.Database
import Ethertest.Builder

/-!
# State archives

`dumpState` writes the entries of the database, and a manifest that is put together from memory.
Readers of an archive decode its database, and compare the manifest with what the database says.
An archive is the list of its entries: tar and zstd give back what was written.
-/

namespace Ethertest

namespace Archive

open Keyed

/-! ## Databases as bytes -/

def journalKey : Bytes := text "ethertest/meta/prepared-operation"

def eventNamespace : Bytes := text "ethertest/event/"

/-- How entries are written as bytes, by the node and by geth, and what their readers make of
the bytes. -/
structure Layout where
  key : Key → Bytes
  value : Value → Bytes
  /-- what is read under a key -/
  read : Key → Bytes → Option Value
  readEvent : Bytes → Option Event
  journal : PreparedOperation → Bytes
  /-- the key of the chain configuration, by the genesis hash -/
  configKey : Hash → Bytes
  config : ChainConfig → Bytes
  /-- the chain ID of a stored configuration -/
  readConfig : Bytes → Option Int

namespace Layout

variable (L : Layout)

/-- The records of a database. Geth has written the configuration with the genesis. -/
def items (E : Env) (db : Db) : List Item :=
  db.entries.toList.map (fun entry => (L.key entry.1, L.value entry.2)) ++
    (L.configKey E.genesisHash, L.config E.config) :: db.journal.toList.map fun operation =>
      (journalKey, L.journal operation)

/-- A database as the map of its records. -/
def database (E : Env) (db : Db) : Store Bytes Bytes := (∅ : Store Bytes Bytes).writeBatch (Store.puts (L.items E db))

variable (db : Store Bytes Bytes)

/-- The value under a key. -/
def get (k : Key) : Option Value := db[L.key k]?.bind (L.read k)

/-- The block of a hash; its number is stored with it. -/
def block (hash : Hash) : Option Block :=
  match L.get db (.block hash) with
  | some (.block b) => some b
  | _ => none

/-- `rawdb.ReadBlock` -/
def readBlock (hash : Hash) (number : Nat) : Option Block := (L.block db hash).filter fun b => b.number = number

/-- The hash under a key; the zero hash if there is none. -/
def hash (k : Key) : Hash :=
  match L.get db k with
  | some (.hash h) => h
  | _ => 0

def timeline : Option StoredTimeline :=
  match L.get db .timeline with
  | some (.timeline t) => some t
  | _ => none

def sessionSafety : Option StoredSessionSafety :=
  match L.get db .sessionSafety with
  | some (.session s) => some s
  | _ => none

def blockSafety (hash : Hash) : Option BlockSafety :=
  match L.get db (.blockSafety hash) with
  | some (.safety s) => some s
  | _ => none

end Layout

/-! ## Manifests -/

def stateArchiveFormat : Bytes := text "ethertest-state-v3"

/-- `Version` -/
def version : Bytes := text "0.1.0-alpha.1"

structure StateManifest where
  format : Bytes
  version : Bytes
  createdAt : Bytes
  chainID : Nat
  genesisHash : Bytes
  headHash : Bytes
  headNumber : Nat
  revision : Nat
  databaseSHA256 : Bytes
  secrets : Bool := false
  tainted : Bool
  headTainted : Bool
  taintReasons : List TaintReason
  timelineComplete : Bool
  consensusMode : Bytes
  deriving DecidableEq

def hexDigit (n : Nat) : UInt8 := UInt8.ofNat (if n < 10 then 0x30 + n else 0x57 + n)

/-- `hex.EncodeToString` -/
def hexEncode (bytes : Bytes) : Bytes := bytes.flatMap fun b => [hexDigit (b.toNat / 16), hexDigit (b.toNat % 16)]

/-- `Hash.Hex` -/
def hashHex (hash : Hash) : Bytes := text "0x" ++ hexEncode (beBytes 32 hash)

/-! ## Manifests as JSON -/

/-- A character of a JSON string; the texts of a manifest are ASCII. -/
def escapeByte (b : UInt8) : Bytes :=
  if b = 0x22 ∨ b = 0x5c then [0x5c, b]
  else if b = 0x08 then text "\\b"
  else if b = 0x0c then text "\\f"
  else if b = 0x0a then text "\\n"
  else if b = 0x0d then text "\\r"
  else if b = 0x09 then text "\\t"
  else if b < 0x20 ∨ b = 0x3c ∨ b = 0x3e ∨ b = 0x26 then text "\\u00" ++ hexEncode [b]
  else [b]

def jsonString (s : Bytes) : Bytes := [0x22] ++ s.flatMap escapeByte ++ [0x22]

def jsonNumber (n : Nat) : Bytes :=
  if n = 0 then [0x30] else (Nat.digits 10 n).reverse.map fun d => UInt8.ofNat (0x30 + d)

def jsonBool (b : Bool) : Bytes := text (if b then "true" else "false")

/-- The text of a reason. -/
def reasonText : TaintReason → Bytes
  | .controlStateOverride => text "control-state-override"
  | .executionRequestControl => text "execution-request-control"
  | .safetyMetadataUnavailable => text "safety-metadata-unavailable"

/-- A bracketed list of parts, each on a line of its own. -/
def jsonLines (opening closing : UInt8) (indent : Nat) (parts : List Bytes) : Bytes :=
  [opening] ++ List.intercalate [0x2c] (parts.map fun part => 0x0a :: List.replicate (indent + 2) 0x20 ++ part) ++
    0x0a :: List.replicate indent 0x20 ++ [closing]

/-- The members of the JSON object. -/
def StateManifest.members (m : StateManifest) : List (Bytes × Bytes) :=
  [(text "format", jsonString m.format), (text "version", jsonString m.version),
    (text "created_at", jsonString m.createdAt), (text "chain_id", jsonNumber m.chainID),
    (text "genesis_hash", jsonString m.genesisHash), (text "head_hash", jsonString m.headHash),
    (text "head_number", jsonNumber m.headNumber), (text "revision", jsonNumber m.revision),
    (text "database_sha256", jsonString m.databaseSHA256), (text "secrets", jsonBool m.secrets),
    (text "tainted", jsonBool m.tainted), (text "head_tainted", jsonBool m.headTainted)] ++
  -- `omitempty`
  (if m.taintReasons = [] then []
    else [(text "taint_reasons", jsonLines 0x5b 0x5d 2 (m.taintReasons.map fun r => jsonString (reasonText r)))]) ++
  [(text "timeline_complete", jsonBool m.timelineComplete), (text "consensus_mode", jsonString m.consensusMode)]

/-- `json.MarshalIndent` with two blanks -/
def StateManifest.marshalIndent (m : StateManifest) : Bytes :=
  jsonLines 0x7b 0x7d 0 (m.members.map fun member => jsonString member.1 ++ text ": " ++ member.2)

/-! ## Dumping -/

/-- A time as RFC 3339 text. -/
structure Timestamp where
  text : Bytes
  length_le : text.length ≤ 35

/-- `database.bin` and the manifest. -/
structure Dump where
  database : Bytes
  manifest : StateManifest

def stateManifest (E : Env) (sha256 : Bytes → Bytes) (now : Timestamp) (l : Ledger) (genesis head : Block)
    (database : Bytes) : StateManifest where
  format := stateArchiveFormat
  version := version
  createdAt := now.text
  chainID := E.cfg.chain.chainID
  genesisHash := hashHex (E.hash genesis)
  headHash := hashHex (E.hash head)
  headNumber := head.number
  revision := l.events.current
  databaseSHA256 := hexEncode (sha256 database)
  tainted := l.sessionTainted
  headTainted := (l.safetyOf (E.hash head)).tainted
  taintReasons := l.taintReasons.keys
  timelineComplete := l.timelineComplete
  consensusMode := text "synthetic"

def dumpState (E : Env) (L : Layout) (sha256 : Bytes → Bytes) (now : Timestamp) (n : Node E.geth.State) :
    Except Error Dump :=
  match n.writeErr with
  | some err => .error (.wrap "cannot archive after a persistence failure: %w" err)
  | none => do
    failIf n.db.journal.isSome (.new "cannot archive while a prepared operation requires recovery")
    let database ← encodeDatabase (L.database E n.db)
    let genesis ← orFail (n.db.blockByNumber 0) (.panic "genesis block is missing")
    let head ← n.head
    .ok ⟨database, stateManifest E sha256 now n.toLedger genesis head database⟩

/-- An entry of a tar file; the size in its header is that of its contents. -/
structure TarEntry where
  name : String
  contents : Bytes

/-- `writeArchiveAtomicFromSpool` -/
def Dump.archive (d : Dump) : List TarEntry :=
  [⟨"database.bin", d.database⟩, ⟨"manifest.json", d.manifest.marshalIndent⟩]

/-! ## Scanning -/

/-- What is seen of an archive so far. -/
structure Seen where
  manifest : Option StateManifest := none
  databaseSum : Option Bytes := none
  /-- `none` is the nil database -/
  db : Option (Store Bytes Bytes)

section Scan

variable (decode : Bytes → Except Error (StateManifest × Bytes)) (sha256 : Bytes → Bytes) (valueSize : List Item → Nat)

/-- A turn of the loop. The first JSON value is decoded and what follows it is left; only blanks
may follow. The decoder of a database reads all bytes it accepts, so that all are hashed. -/
def scanEntry (s : Seen) (entry : TarEntry) : Except Error Seen :=
  if entry.name = "manifest.json" then do
    failIf (s.manifest.isSome ∨ 2 ^ 20 < entry.contents.length) (.new "archive manifest is duplicated or too large")
    let (manifest, trailing) ← decode entry.contents
    failIf (¬ ∀ b ∈ trailing, b = 0x20 ∨ b = 0x09 ∨ b = 0x0a ∨ b = 0x0d) (.new "archive manifest has trailing data")
    .ok { s with manifest := some manifest }
  else if entry.name = "database.bin" then do
    failIf s.databaseSum.isSome (.new "archive database is duplicated or invalid")
    let db ← match s.db with
      | none => .ok none
      | some db => (decodeDatabaseReader valueSize entry.contents entry.contents.length db).map some
    .ok { s with databaseSum := some (sha256 entry.contents), db := db }
  else .error (.errorf "unsupported archive entry %q" [.name entry.name])

def scanArchive (archive : List TarEntry) (db : Option (Store Bytes Bytes)) :
    Except Error (StateManifest × Option (Store Bytes Bytes)) := do
  let seen ← archive.foldlM (scanEntry decode sha256 valueSize) { db := db }
  match seen.manifest, seen.databaseSum with
  | some manifest, some databaseSum =>
    failIf (manifest.format ≠ stateArchiveFormat)
      (.errorf "unsupported state format %q; recreate a %s archive" [.bytes manifest.format, .bytes stateArchiveFormat])
    failIf (manifest.consensusMode ≠ text "synthetic") (.new "archive has an incompatible consensus mode")
    failIf (hexEncode databaseSum ≠ manifest.databaseSHA256) (.new "state archive checksum mismatch")
    .ok (manifest, seen.db)
  | _, _ => .error (.new "archive manifest or database is missing")

end Scan

/-! ## Validating -/

/-- The loop over the events: the highest revision. -/
def Layout.latestRevision (L : Layout) (db : Store Bytes Bytes) : Except Error Nat :=
  (db.toList.filter fun item => eventNamespace.isPrefixOf item.1).foldlM
    (fun revision item => do
      let event ← orFail (L.readEvent item.2) (.new "archive database contains an invalid event")
      .ok (max revision event.revision)) 0

def validateArchiveDatabase (L : Layout) (db : Store Bytes Bytes) (m : StateManifest) : Except Error Unit := do
  failIf m.secrets (.new "archive manifest unexpectedly declares secrets")
  failIf db[journalKey]?.isSome (.new "archive database contains an unfinished prepared operation")
  failIf (L.get db .stateSchema ≠ some (.version currentMetadataFormat))
    (.new "archive database does not contain metadata schema v3")
  let genesisHash := L.hash db (.canonicalHash 0)
  failIf (genesisHash = 0 ∨ (L.readBlock db genesisHash 0).isNone ∨ hashHex genesisHash ≠ m.genesisHash)
    (.new "archive manifest genesis does not match database")
  failIf (¬ ∃ id ∈ db[L.configKey genesisHash]?.bind L.readConfig, id.natAbs < 2 ^ 64 ∧ id.natAbs = m.chainID)
    (.new "archive manifest chain ID does not match database")
  let headHash := L.hash db .headBlock
  failIf (headHash = 0 ∨ hashHex headHash ≠ m.headHash) (.new "archive manifest head does not match database")
  failIf ((L.block db headHash).map Block.number ≠ some m.headNumber)
    (.new "archive manifest head number does not match database")
  let head ← orFail (L.readBlock db headHash m.headNumber) (.new "archive database canonical head is incomplete")
  failIf (L.hash db (.canonicalHash m.headNumber) ≠ headHash) (.new "archive database canonical head is incomplete")
  failIf (head.transactions ≠ [] ∧ (L.get db (.receipts headHash)).isNone)
    (.new "archive database canonical head receipts are missing")
  let timeline ← orFail (L.timeline db) (.new "archive database timeline metadata is invalid")
  failIf (timeline.genesisHash ≠ genesisHash ∨ timeline.complete ≠ m.timelineComplete)
    (.new "archive manifest timeline does not match database")
  let session ← orFail (L.sessionSafety db) (.new "archive database session safety metadata is invalid")
  failIf (session.tainted ≠ m.tainted ∨ sortReasons session.reasons ≠ m.taintReasons)
    (.new "archive manifest session safety does not match database")
  failIf (¬ ∃ safety ∈ L.blockSafety db headHash, safety.blockHash = headHash ∧ safety.tainted = m.headTainted)
    (.new "archive manifest head safety does not match database")
  let revision ← L.latestRevision db
  failIf (revision ≠ m.revision) (.new "archive manifest revision does not match database")

end Archive

end Ethertest
