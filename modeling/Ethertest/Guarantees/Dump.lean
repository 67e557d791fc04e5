-- SUMMARY: Every archive that is dumped is accepted, and its database is the one that was dumped.
import Ethertest.Archive.Accepted
import Ethertest.Guarantees.Restart
import Ethertest.Log.Node
import Ethertest.Refinement.Archived
import Ethertest.Refinement.Canonical

/-!
# Archives of reachable nodes

The manifest is put together from memory, and the checks of an archive read the database. They
agree since the database mirrors the memory of every reachable node.
-/

namespace Ethertest

/-- What the creation of a chain settles: the stored configuration has the chain ID of the node's,
which is a `uint64`, and a genesis block has no transactions. -/
structure Env.Created (E : Env) : Prop where
  chainID : E.config.chainID = E.cfg.chain.chainID
  chainID_le : E.cfg.chain.chainID ≤ maxUint64
  transactions : E.genesis.block.transactions = []

namespace Archive

open Keyed

/-! ## Reasons -/

theorem nodup_keys (set : Store TaintReason Unit) : set.keys.Nodup := Std.ExtTreeMap.nodup_keys

/-- The keys of a set of reasons are its reasons in order. -/
theorem sortReasons_eq_keys {reasons : List TaintReason} {set : Store TaintReason Unit} (hnodup : reasons.Nodup)
    (h : ∀ r : TaintReason, r ∈ reasons ↔ set[r]?.isSome) : sortReasons reasons = set.keys := by
  have hperm : (sortReasons reasons).Perm set.keys := by
    refine (List.perm_insertionSort _ _).trans ((List.perm_ext_iff_of_nodup hnodup (nodup_keys set)).mpr fun r => ?_)
    rw [h, mem_keys_iff]
  have hkeys : set.keys.Pairwise fun a b => compare a b = .lt := Std.ExtTreeMap.ordered_keys
  refine hperm.eq_of_pairwise ?_ (sortedReasons_sort hnodup) (hkeys.imp fun {a b} hab => ?_)
  · intro a b _ _ hab hba
    exact absurd hab (Nat.lt_asymm hba)
  · exact Nat.compare_eq_lt.mp hab

theorem length_keys_le (set : Store TaintReason Unit) : set.keys.length ≤ 3 := by
  have hsubset : set.keys ⊆ [.controlStateOverride, .executionRequestControl, .safetyMetadataUnavailable] := by
    intro r _
    cases r <;> simp
  exact ((nodup_keys set).subperm hsubset).length_le

/-! ## The dump -/

section Dump

variable {E : Env} {L : Layout} {sha256 : Bytes → Bytes} {n : Node E.geth.State} {head : Block}

private theorem genesis_mem_canonicalLine (I : n.toLedger.Inv E) : E.genesis.block ∈ n.db.canonicalLine := by
  obtain ⟨head, hcurrent, hhead⟩ := I.exists_head
  rw [Ledger.canonicalLine_eq hcurrent]
  exact I.chain.wellFormed.tree.root_mem_line hhead.1

theorem head_mem_canonicalLine (hcurrent : n.db.currentBlock = some head) : head ∈ n.db.canonicalLine := by
  rw [Ledger.canonicalLine_eq hcurrent]
  exact Ancestry.Tree.self_mem_line head

/-- What a dump returns. -/
theorem dumpState_eq_ok (I : n.toLedger.Inv E) (hwrite : n.writeErr = none) (hcurrent : n.db.currentBlock = some head)
    {now : Timestamp} {dump : Dump} : dumpState E L sha256 now n = .ok dump ↔
      (∀ item ∈ (L.database E n.db).toList, Fits item) ∧ dump = ⟨encode (L.database E n.db).toList,
        stateManifest E sha256 now n.toLedger E.genesis.block head (encode (L.database E n.db).toList)⟩ := by
  have hgenesis : n.db.blockByNumber 0 = some E.genesis.block :=
    I.blockByNumber_eq_some.mpr ⟨genesis_mem_canonicalLine I, E.genesis_number⟩
  simp only [dumpState, hwrite, Except.do_ok_iff, exists_const, failIf_eq_ok, orFail_eq_ok, encodeDatabase_eq_ok,
    Except.ok.injEq, hgenesis, Option.some.injEq, Ledger.head, hcurrent, exists_eq_left', I.stored.journal,
    Option.isSome_none, Bool.false_eq_true, not_false_eq_true, true_and, and_assoc, exists_and_left, exists_eq_left]
  exact and_congr_right fun _ => eq_comm

/-- The texts and numbers of a manifest. -/
theorem small_stateManifest (hcreated : E.Created) (hsum : ∀ b, (sha256 b).length = 32) (A : n.db.Archived E)
    (hcurrent : n.db.currentBlock = some head) (hrevision : n.events.current ≤ maxUint64) (now : Timestamp)
    (database : Bytes) : (stateManifest E sha256 now n.toLedger E.genesis.block head database).Small where
  texts := by
    have hnow := now.length_le
    simp only [stateManifest, List.forall_mem_cons, List.not_mem_nil, false_imp_iff, implies_true, and_true,
      length_hashHex, length_hexEncode, hsum]
    refine ⟨by decide, by decide, by omega, le_rfl, le_rfl, by decide, by decide⟩
  numbers := by
    simp only [stateManifest, List.forall_mem_cons, List.not_mem_nil, false_imp_iff, implies_true, and_true]
    exact ⟨hcreated.chainID_le, A.numbers hcurrent, hrevision⟩
  reasons := length_keys_le _

/-! ## The checks -/

variable (I : n.toLedger.Inv E) (K : L.Keeps E n.db)
include K

theorem block_database {b : Block} (hb : n.chain.Mem E b) : L.block (L.database E n.db) (E.hash b) = some b := by
  have hstored : n.db.get (.block (E.hash b)) = some (.block b) := by
    have hblock : n.db.blockByHash (E.hash b) = some b := hb
    unfold Db.blockByHash at hblock
    split at hblock
    · next b' hget =>
      obtain rfl := Option.some.inj hblock
      exact hget
    · cases hblock
  rw [Layout.block, K.get hstored rfl]

include I

theorem hash_canonical {b : Block} (hb : b ∈ n.db.canonicalLine) :
    L.hash (L.database E n.db) (.canonicalHash b.number) = E.hash b := by
  have hget : n.db.get (.canonicalHash b.number) = some (.hash (E.hash b)) := by
    rw [I.get_canonicalHash, I.find_number hb]
    rfl
  rw [Layout.hash, K.get hget rfl]

theorem hash_headBlock (hcurrent : n.db.currentBlock = some head) :
    L.hash (L.database E n.db) .headBlock = E.hash head := by
  have hget : n.db.get .headBlock = some (.hash (E.hash head)) := by
    obtain ⟨rest, hline⟩ := Ancestry.Tree.line_eq_cons n.db.parent Block.number head
    rw [I.stored.canonical hcurrent .headBlock rfl, Env.canonicalEntry, Db.line, hline]
    rfl
  rw [Layout.hash, K.get hget rfl]

omit I in
/-- The last event is always retained, so its revision is the highest one that is stored. -/
theorem latestRevision_database (hlog : n.toLedger.Logged E) :
    L.latestRevision (L.database E n.db) = .ok n.events.current := by
  have hpos := Config.eventCapacity_pos E.accepted
  obtain ⟨hcapacity, R, P⟩ := LogRun.invariant hpos hlog
  have hcurrent : n.events.current = n.toLedger.emitted.length := by
    rw [EventLog.current, R.next, Nat.add_sub_cancel]
  have hwindow :
      Window.Numbered Event.revision (1 + (n.toLedger.emitted.length - n.events.capacity)) n.events.events := by
    rw [R.events]
    exact R.numbered.drop _
  have hlength : n.events.events.length = min n.events.capacity n.toLedger.emitted.length := by
    rw [R.events, Window.length_last]
  refine K.latestRevision_eq P (fun e he => ?_) ?_
  · have := (hwindow.bounds he).2
    omega
  · by_cases hnone : n.events.current = 0
    · exact .inl hnone
    · exact .inr (hwindow.exists_of_lt (by omega) (by omega))

/-- The checks of the database find what the manifest says. -/
theorem validateArchiveDatabase_ok (hhash : ∀ b, E.hash b ≠ 0) (hcreated : E.Created) (M : n.toLedger.Mirror E)
    (A : n.db.Archived E) (hlog : n.toLedger.Logged E) (hcurrent : n.db.currentBlock = some head) (now : Timestamp)
    (database : Bytes) :
    validateArchiveDatabase L (L.database E n.db)
      (stateManifest E sha256 now n.toLedger E.genesis.block head database) = .ok () := by
  have hmem : n.chain.Mem E head := (I.chain.wellFormed.mem_of_blocks hcurrent).1
  have hgenesis := hash_canonical I K (genesis_mem_canonicalLine I)
  rw [E.genesis_number] at hgenesis
  have hroot := block_database K I.chain.wellFormed.tree.root_mem
  have hblock := block_database K hmem
  have hheadHash := hash_headBlock I K hcurrent
  have hcanonical := hash_canonical I K (head_mem_canonicalLine hcurrent)
  have hversion := K.get A.schema rfl
  have htimeline : L.timeline (L.database E n.db) = some (n.timeline E) := by
    rw [Layout.timeline, K.get (M.entries .timeline rfl) rfl]
  obtain ⟨session, hsession, hshows⟩ := M.session
  have hreasons := sortReasons_eq_keys (A.session hsession) hshows.reasons
  have hstored : L.sessionSafety (L.database E n.db) = some session := by
    rw [Layout.sessionSafety, K.get hsession rfl]
  obtain ⟨safety, hsafety⟩ :=
    Option.isSome_iff_exists.mp ((I.chain.wellFormed.safety (E.hash head)).mpr (Option.isSome_of_mem hmem))
  have hrecord : L.blockSafety (L.database E n.db) (E.hash head) = some safety := by
    have hget : n.db.get (.blockSafety (E.hash head)) = some (.safety safety) := by
      rw [M.entries (.blockSafety (E.hash head)) rfl]
      exact congrArg (Option.map Value.safety) hsafety
    rw [Layout.blockSafety, K.get hget rfl]
  have hreceipts : head.transactions ≠ [] → (L.get (L.database E n.db) (.receipts (E.hash head))).isSome := by
    intro htransactions
    have hne : head ≠ E.genesis.block := fun heq => htransactions (heq ▸ hcreated.transactions)
    obtain ⟨receipts, hget⟩ := A.receipts hmem hne
    rw [K.get hget rfl]
    rfl
  have hchain : (L.database E n.db)[L.configKey E.genesisHash]?.bind L.readConfig =
      some (E.cfg.chain.chainID : Int) := by
    rw [K.get_config, Option.bind_some, K.readConfig, hcreated.chainID]
  simp only [validateArchiveDatabase, Except.do_ok_iff, exists_const, failIf_eq_ok, orFail_eq_ok, hgenesis, hheadHash,
    hversion, hchain, htimeline, hstored, hrecord, latestRevision_database K hlog,
      K.get_journal I.stored.journal, hblock,
    hroot, Layout.readBlock, Option.some.injEq, exists_eq_left', Except.ok.injEq, ne_eq,
      not_true_eq_false, not_false_eq_true,
    true_and, Option.map_some, Option.mem_def, not_or, not_not]
  have hfits : (E.cfg.chain.chainID : Int).natAbs < 2 ^ 64 := by
    rw [Int.natAbs_natCast]
    exact Nat.lt_of_le_of_lt hcreated.chainID_le (by decide)
  have htainted : safety.tainted = (n.safetyOf (E.hash head)).tainted := by
    have hmemory : n.blockSafety[E.hash head]? = some safety := hsafety
    rw [Ledger.safetyOf, hmemory]
    rfl
  refine ⟨Bool.false_ne_true, Bool.false_ne_true, ⟨hhash _, ?_, rfl⟩, ⟨hfits, rfl⟩, ⟨hhash _, rfl⟩, rfl, head, ?_,
    hcanonical, ?_, ⟨rfl, rfl⟩, ⟨hshows.tainted, hreasons⟩, ⟨Ledger.blockHash_of_safety I hsafety, htainted⟩, rfl⟩
  · simp [E.genesis_number]
  · simp [stateManifest]
  · rintro ⟨htransactions, hnone⟩
    rw [Option.isNone_iff_eq_none] at hnone
    have hsome := hreceipts htransactions
    rw [hnone] at hsome
    cases hsome

end Dump

/-- For every reachable node whose writes are enabled, and every layout that keeps its entries
apart and readable: the dump succeeds exactly if all records fit. Its archive is scanned into its
manifest and exactly the database that was dumped, once the manifest is decoded from its text, and
the database passes every check against the manifest. Every map whose records fit is written, and
read back as it was. -/
theorem dumpState_accepted {E : Env} (hE : E.Lawful) (hhash : ∀ b, E.hash b ≠ 0) (hcreated : E.Created) {L : Layout}
    {sha256 : Bytes → Bytes} (hsum : ∀ b, (sha256 b).length = 32) (valueSize : List Item → Nat) :
    (∀ (n : Node E.geth.State) (now : Timestamp), E.Reachable n → n.writeErr = none → L.Keeps E n.db →
      ((∃ dump, dumpState E L sha256 now n = .ok dump) ↔ ∀ item ∈ (L.database E n.db).toList, Fits item) ∧
      ∀ dump, dumpState E L sha256 now n = .ok dump →
        (∀ decode, decode dump.manifest.marshalIndent = .ok (dump.manifest, []) →
          scanArchive decode sha256 valueSize dump.archive (some ∅) = .ok (dump.manifest, some (L.database E n.db))) ∧
        validateArchiveDatabase L (L.database E n.db) dump.manifest = .ok ()) ∧
    ∀ db : Store Bytes Bytes, (∀ item ∈ db.toList, Fits item) →
      ∃ encoded, encodeDatabase db = .ok encoded ∧
        decodeDatabaseReader valueSize encoded encoded.length ∅ = .ok db := by
  refine ⟨fun n now h hwrite K => ?_, fun db hfits => ⟨_, encodeDatabase_eq_ok.mpr ⟨hfits, rfl⟩, decodes_of_fits hfits⟩⟩
  have I := h.inv hE
  have A := h.archived hE
  have hlog := h.logged hE
  obtain ⟨head, hcurrent, -⟩ := I.exists_head
  have hdump {dump : Dump} : dumpState E L sha256 now n = .ok dump ↔ _ := dumpState_eq_ok I hwrite hcurrent
  have hrevision : n.events.current ≤ maxUint64 := by
    have hbound := (h.retains hE).2.bound
    rw [EventLog.current]
    omega
  refine ⟨?_, fun dump hok => ?_⟩
  · constructor
    · rintro ⟨dump, hok⟩
      exact (hdump.mp hok).1
    · exact fun hfits => ⟨_, hdump.mpr ⟨hfits, rfl⟩⟩
  · obtain ⟨hfits, rfl⟩ := hdump.mp hok
    refine ⟨fun decode hdecode => ?_, validateArchiveDatabase_ok I K hhash hcreated (h.mirror hE) A hlog hcurrent now _⟩
    exact scanArchive_dump (decodes_of_fits hfits) (small_stateManifest hcreated hsum A hcurrent hrevision now _)
      rfl rfl
      rfl hdecode

end Archive

namespace Reference

open Keyed Archive

/-- The canonical head was switched to the head of a branch. -/
def switched : Node env.geth.State :=
  run [⟨.createBranch [97] 0, none⟩, ⟨.mineBranch [97] 1, none⟩, ⟨.mine 1 true, none⟩, ⟨.switchBranch [97], none⟩]

/-- Entries are written as their places in the list of all entries. -/
def placed (entries : List (Key × Value)) : Layout where
  key k := (match k with | .event _ => eventNamespace | _ => []) ++ [UInt8.ofNat (entries.findIdx fun e => e.1 = k)]
  value v := [UInt8.ofNat (entries.findIdx fun e => e.2 = v)]
  read _ b := (entries[(b.headD 0).toNat]?).map Prod.snd
  readEvent b :=
    match entries[(b.headD 0).toNat]? with
    | some (_, .event e) => some e
    | _ => none
  journal _ := []
  configKey _ := [0xff]
  config _ := []
  readConfig _ := some env.config.chainID

def layout : Layout := placed switched.db.entries.toList

set_option maxRecDepth 100000 in
theorem keeps_layout : layout.Keeps env switched.db := by
  have hentry {k v} (h : switched.db.get k = some v) : (k, v) ∈ switched.db.entries.toList := Store.mem_toList.mpr h
  have hdistinct : ∀ e ∈ switched.db.entries.toList, ∀ e' ∈ switched.db.entries.toList,
      layout.key e.1 = layout.key e'.1 → e.1 = e'.1 := by decide +kernel
  have hapart : ∀ e ∈ switched.db.entries.toList, layout.key e.1 ≠ [0xff] ∧ layout.key e.1 ≠ journalKey := by
    decide +kernel
  have hevents : ∀ e ∈ switched.db.entries.toList, eventNamespace <+: layout.key e.1 →
      ∃ r ∈ List.range 8, e.1 = .event r := by decide +kernel
  have hread : ∀ e ∈ switched.db.entries.toList, layout.read e.1 (layout.value e.2) = some e.2 := by decide +kernel
  have hreadEvent : ∀ e ∈ switched.db.entries.toList, eventNamespace <+: layout.key e.1 →
      (layout.readEvent (layout.value e.2)).map Value.event = some e.2 := by decide +kernel
  refine ⟨fun h h' => hdistinct _ (hentry h) _ (hentry h'), fun h => hapart _ (hentry h), by decide, fun h => ⟨?_, ?_⟩,
    fun h _ => hread _ (hentry h), fun h => ?_, rfl⟩
  · intro hnamed
    obtain ⟨r, -, hr⟩ := hevents _ (hentry h) hnamed
    exact ⟨r, hr⟩
  · rintro ⟨r, rfl⟩
    exact List.prefix_append _ _
  · obtain ⟨e, he, heq⟩ := Option.map_eq_some_iff.mp (hreadEvent _ (hentry h) (List.prefix_append _ _))
    rw [he, Value.event.inj heq]

private theorem fits_layout : ∀ item ∈ (layout.database env switched.db).toList, Fits item := by
  have hkey (k : Key) : (layout.key k).length ≤ 17 := by
    cases k
    all_goals exact Nat.le_of_ble_eq_true rfl
  intro item hitem
  rcases Layout.mem_items.mp (Layout.mem_items_of_mem hitem) with ⟨k, v, -, rfl⟩ | rfl | ⟨operation, -, rfl⟩
  · exact ⟨Nat.lt_of_le_of_lt (hkey k) (by decide), Nat.lt_of_le_of_lt (Nat.le_refl 1) (by decide)⟩
  · exact ⟨by decide, by decide⟩
  · have hlength : journalKey.length < 2 ^ 32 := by decide
    exact ⟨hlength, Nat.two_pow_pos 32⟩

theorem created : env.Created := ⟨rfl, by decide, rfl⟩

def noon : Timestamp := ⟨text "2026-01-01T12:00:00Z", by decide⟩

def zeros : Bytes → Bytes := fun _ => List.replicate 32 0

/-- The dump after the head was switched to a branch, with the four events that were recorded. -/
theorem dumpState_accepted_switched : ∃ dump, dumpState env layout zeros noon switched = .ok dump ∧
    (dump.manifest.revision, dump.manifest.headNumber) = (4, 1) ∧
    scanArchive (fun _ => .ok (dump.manifest, [])) zeros List.length dump.archive (some ∅) =
      .ok (dump.manifest, some (layout.database env switched.db)) ∧
    validateArchiveDatabase layout (layout.database env switched.db) dump.manifest = .ok () := by
  have hsum (b : Bytes) : (zeros b).length = 32 := rfl
  obtain ⟨hsucceeds, haccepted⟩ :=
    (dumpState_accepted lawful blockHash_ne_zero created hsum List.length).1 switched noon
    (reachable_run _) (by decide +kernel) keeps_layout
  obtain ⟨dump, hdump⟩ := hsucceeds.mpr fits_layout
  obtain ⟨hscan, hvalid⟩ := haccepted dump hdump
  have hseen : (dumpState env layout zeros noon switched).toOption.map
      (fun dump => (dump.manifest.revision, dump.manifest.headNumber)) = some (4, 1) := by decide +kernel
  rw [hdump] at hseen
  exact ⟨dump, hdump, Option.some.inj hseen, hscan _ rfl, hvalid⟩

end Reference

end Ethertest
