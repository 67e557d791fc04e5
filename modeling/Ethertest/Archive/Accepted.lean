-- SUMMARY: Archives that are accepted: the size of a manifest, and what is read from the records of a database.
import Ethertest.Archive.State
import Ethertest.Guarantees.Archive

/-!
# Accepted archives

A manifest stays far below the size that readers accept. Records that are kept apart by their
keys are read back one by one, through the map of the records.
-/

namespace Ethertest

/-- A value is of the kind that is stored under a key. -/
def Key.carries : Key → Value → Bool
  | .stateSchema, .version _ | .timeline, .timeline _ | .sessionSafety, .session _ | .eventNext, .revision _
  | .requestQueue, .queue _ | .canonicalSlot _, .hash _ | .blockSlot _, .slot _ | .blockSafety _, .safety _
  | .projection _, .projection _ | .requestRecord _, .record _ | .control _, .control _ | .blob _, .bundle _
  | .event _, .event _ | .checkpoint _, .point _ | .branch _, .branch _ | .block _, .block _
  | .receipts _, .receipts _ | .canonicalHash _, .hash _ | .headBlock, .hash _ | .txLookup _, .blockNumber _
  | .state _, .node _ => true
  | _, _ => false

namespace Archive

open Keyed

/-! ## The size of a manifest -/

theorem length_hexEncode (bytes : Bytes) : (hexEncode bytes).length = 2 * bytes.length := by
  induction bytes with
  | nil => rfl
  | cons b bytes ih =>
    rw [hexEncode, List.flatMap_cons, List.length_append, List.length_cons]
    rw [hexEncode] at ih
    rw [ih]
    simp only [List.length_cons, List.length_nil]
    omega

theorem length_hashHex (hash : Hash) : (hashHex hash).length = 66 := by
  rw [hashHex, List.length_append, length_hexEncode, length_beBytes]
  rfl

private theorem length_escapeByte_le (b : UInt8) : (escapeByte b).length ≤ 6 := by
  unfold escapeByte
  split_ifs
  all_goals simp [text, length_hexEncode]

theorem length_jsonString_le (s : Bytes) : (jsonString s).length ≤ 6 * s.length + 2 := by
  have hescaped : (s.flatMap escapeByte).length ≤ 6 * s.length := by
    induction s with
    | nil => exact Nat.zero_le _
    | cons b s ih =>
      rw [List.flatMap_cons, List.length_append, List.length_cons]
      have := length_escapeByte_le b
      omega
  simp only [jsonString, List.length_append, List.length_cons, List.length_nil]
  omega

theorem length_jsonNumber_le {n : Nat} (h : n ≤ maxUint64) : (jsonNumber n).length ≤ 20 := by
  unfold jsonNumber
  split
  · simp
  · rw [List.length_map, List.length_reverse]
    have hlt : n < 10 ^ 20 := lt_of_le_of_lt h (by decide)
    exact (Nat.digits_length_le_iff (by decide) n).mpr hlt

theorem length_jsonBool_le (b : Bool) : (jsonBool b).length ≤ 5 := by
  cases b <;> decide

theorem length_reasonText_le (r : TaintReason) : (reasonText r).length ≤ 27 := by
  cases r <;> decide

/-- A bracketed list of few short parts is short. -/
theorem length_jsonLines_le {opening closing : UInt8} {indent : Nat} (bound count : Nat) {parts : List Bytes}
    (hcount : parts.length ≤ count) (hparts : ∀ part ∈ parts, part.length ≤ bound) :
    (jsonLines opening closing indent parts).length ≤ count * (bound + indent + 4) + indent + 3 := by
  let line (part : Bytes) : Bytes := 0x0a :: List.replicate (indent + 2) 0x20 ++ part
  have hsum : ((parts.map line).map List.length).sum ≤ parts.length * (bound + indent + 3) := by
    have hlines : ∀ length ∈ (parts.map line).map List.length, length ≤ bound + indent + 3 := by
      intro length hlength
      simp only [line, List.map_map, List.mem_map, Function.comp_apply, List.length_cons, List.length_append,
        List.length_replicate] at hlength
      obtain ⟨part, hpart, rfl⟩ := hlength
      have := hparts part hpart
      omega
    have := List.sum_le_card_nsmul _ _ hlines
    rwa [List.length_map, List.length_map, smul_eq_mul] at this
  have hmul : parts.length * (bound + indent + 4) ≤ count * (bound + indent + 4) := Nat.mul_le_mul_right _ hcount
  have hsplit : parts.length * (bound + indent + 4) = parts.length * (bound + indent + 3) + parts.length := by ring
  have hlength : (jsonLines opening closing indent parts).length =
      ((parts.map line).map List.length).sum + (parts.length - 1) + indent + 3 := by
    simp only [jsonLines, List.length_append, List.length_cons, List.length_nil, List.length_replicate,
      length_intercalate_singleton, List.length_map, line]
    omega
  omega

/-- The texts of a manifest are short and its numbers fit into 64 bits. -/
structure StateManifest.Small (m : StateManifest) : Prop where
  texts : ∀ s ∈ [m.format, m.version, m.createdAt, m.genesisHash, m.headHash, m.databaseSHA256, m.consensusMode],
    s.length ≤ 66
  numbers : ∀ n ∈ [m.chainID, m.headNumber, m.revision], n ≤ maxUint64
  reasons : m.taintReasons.length ≤ 3

theorem StateManifest.Small.length_marshalIndent {m : StateManifest} (h : m.Small) :
    m.marshalIndent.length ≤ 2 ^ 20 := by
  have hreasons : (jsonLines 0x5b 0x5d 2 (m.taintReasons.map fun r => jsonString (reasonText r))).length ≤ 800 := by
    refine le_trans (length_jsonLines_le 164 3 ?_ ?_) (by decide)
    · rw [List.length_map]
      exact h.reasons
    · intro part hpart
      obtain ⟨r, -, rfl⟩ := List.mem_map.mp hpart
      have := length_jsonString_le (reasonText r)
      have := length_reasonText_le r
      omega
  have hstring {s : Bytes} (hs : s.length ≤ 66) : (jsonString s).length ≤ 800 := by
    have := length_jsonString_le s
    omega
  have hnumber {n : Nat} (hn : n ≤ maxUint64) : (jsonNumber n).length ≤ 800 := by
    have := length_jsonNumber_le hn
    omega
  have hbool (b : Bool) : (jsonBool b).length ≤ 800 := by
    have := length_jsonBool_le b
    omega
  obtain ⟨htexts, hnumbers, -⟩ := h
  simp only [List.forall_mem_cons, List.not_mem_nil, false_imp_iff, implies_true, and_true] at htexts hnumbers
  obtain ⟨hformat, hversion, hcreated, hgenesis, hhead, hsum, hmode⟩ := htexts
  obtain ⟨hchain, hheight, hrevision⟩ := hnumbers
  have hmembers : ∀ member ∈ m.members, member.1.length ≤ 17 ∧ member.2.length ≤ 800 := by
    unfold StateManifest.members
    split
    all_goals
      simp only [List.cons_append, List.nil_append, List.forall_mem_cons, List.not_mem_nil, false_imp_iff, implies_true,
        and_true, hstring hformat, hstring hversion, hstring hcreated, hstring hgenesis, hstring hhead, hstring hsum,
        hstring hmode, hnumber hchain, hnumber hheight, hnumber hrevision, hbool, hreasons]
      decide
  have hcount : m.members.length ≤ 15 := by
    unfold StateManifest.members
    split <;> simp
  refine le_trans (length_jsonLines_le 910 15 ?_ ?_) (by decide)
  · rw [List.length_map]
    exact hcount
  · intro part hpart
    obtain ⟨member, hmember, rfl⟩ := List.mem_map.mp hpart
    obtain ⟨hname, hvalue⟩ := hmembers member hmember
    have := length_jsonString_le member.1
    have hcolon : (text ": ").length = 2 := rfl
    simp only [List.length_append]
    omega

/-! ## Scanning what was dumped -/

/-- Reading back what was written gives the map back. -/
theorem decodes_of_fits {valueSize : List Item → Nat} {db : Store Bytes Bytes} (h : ∀ item ∈ db.toList, Fits item) :
    Decodes valueSize (encode db.toList) db := by
  have hlists : Lists (encode db.toList) db.toList := ⟨h, rfl, Std.ExtTreeMap.ordered_keys_toList⟩
  have hsame : (∅ : Store Bytes Bytes).writeBatch (Store.puts db.toList) = db := by
    refine Store.ext_get fun k => ?_
    rw [Store.get_writeBatch, Store.lastWrite_puts_toList]
    cases db[k]? <;> simp
  have hdecodes : Decodes valueSize (encode db.toList) _ := hlists.decodes
  rwa [hsame] at hdecodes

/-- The archive of a dump is scanned into its manifest and its database. -/
theorem scanArchive_dump {decode : Bytes → Except Error (StateManifest × Bytes)} {sha256 : Bytes → Bytes}
    {valueSize : List Item → Nat} {d : Dump} {db : Store Bytes Bytes} (hdb : Decodes valueSize d.database db)
    (hsmall : d.manifest.Small) (hformat : d.manifest.format = stateArchiveFormat)
    (hmode : d.manifest.consensusMode = text "synthetic")
    (hsum : d.manifest.databaseSHA256 = hexEncode (sha256 d.database))
    (hdecode : decode d.manifest.marshalIndent = .ok (d.manifest, [])) :
    scanArchive decode sha256 valueSize d.archive (some ∅) = .ok (d.manifest, some db) := by
  have hdatabase : scanEntry decode sha256 valueSize { db := some ∅ } ⟨"database.bin", d.database⟩ =
      .ok { databaseSum := some (sha256 d.database), db := some db } := by
    unfold Decodes at hdb
    simp [scanEntry, hdb, failIf, Except.map, bind, Except.bind]
  have hmanifest (s : Seen) (hs : s.manifest = none) :
      scanEntry decode sha256 valueSize s ⟨"manifest.json", d.manifest.marshalIndent⟩ =
        .ok { s with manifest := some d.manifest } := by
    have hsize : ¬ 2 ^ 20 < d.manifest.marshalIndent.length := Nat.not_lt.mpr hsmall.length_marshalIndent
    simp only [scanEntry, if_true, hs, Option.isSome_none, Bool.false_eq_true, false_or, failIf, if_neg hsize, hdecode,
      Except.ok_do, List.not_mem_nil, false_imp_iff, implies_true, not_true_eq_false, if_false]
  rw [scanArchive, Dump.archive, List.foldlM_cons, hdatabase, Except.ok_do, List.foldlM_cons, hmanifest _ rfl]
  simp only [Except.ok_do, List.foldlM_nil, pure, Except.pure, failIf, hformat, hmode, hsum, ne_eq, not_true_eq_false,
    if_false]

/-! ## Reading records -/

theorem not_event_journalKey : ¬ eventNamespace <+: journalKey := by decide

/-- What is assumed of the encodings, on the entries of a database: they keep the keys apart, only
the keys of events are in their namespace, and a value is read back under its key. -/
structure Layout.Keeps (L : Layout) (E : Env) (db : Db) : Prop where
  distinct : ∀ {k k' v v'}, db.get k = some v → db.get k' = some v' → L.key k = L.key k' → k = k'
  apart : ∀ {k v}, db.get k = some v → L.key k ≠ L.configKey E.genesisHash ∧ L.key k ≠ journalKey
  config_apart : L.configKey E.genesisHash ≠ journalKey ∧ ¬ eventNamespace <+: L.configKey E.genesisHash
  events : ∀ {k v}, db.get k = some v → (eventNamespace <+: L.key k ↔ ∃ r, k = .event r)
  read : ∀ {k v}, db.get k = some v → k.carries v → L.read k (L.value v) = some v
  readEvent : ∀ {r e}, db.get (.event r) = some (.event e) → L.readEvent (L.value (.event e)) = some e
  readConfig : L.readConfig (L.config E.config) = some (E.config.chainID : Int)

namespace Layout

variable {L : Layout} {E : Env} {db : Db}

theorem mem_items {item : Item} : item ∈ L.items E db ↔
    (∃ k v, db.get k = some v ∧ item = (L.key k, L.value v)) ∨
      item = (L.configKey E.genesisHash, L.config E.config) ∨
        ∃ operation ∈ db.journal, item = (journalKey, L.journal operation) := by
  rw [items, List.mem_append, List.mem_cons]
  refine or_congr ?_ (or_congr Iff.rfl ?_)
  · simp only [List.mem_map, Prod.exists, Store.mem_toList]
    exact exists_congr fun k => exists_congr fun v => and_congr_right fun _ => eq_comm
  · simp only [List.mem_map, Option.mem_toList]
    exact exists_congr fun operation => and_congr_right fun _ => eq_comm

theorem get_database (k : Bytes) :
    (L.database E db)[k]? = (Store.lastWrite (Store.puts (L.items E db)) k).getD none := by
  rw [database, Store.get_writeBatch]
  simp

/-- The records of the map are the records of the database. -/
theorem mem_items_of_mem {item : Item} (h : item ∈ (L.database E db).toList) : item ∈ L.items E db := by
  obtain ⟨k, v⟩ := item
  rw [Store.mem_toList, get_database] at h
  cases hwrite : Store.lastWrite (Store.puts (L.items E db)) k with
  | none =>
    rw [hwrite] at h
    cases h
  | some w =>
    rw [hwrite, Option.getD_some] at h
    subst h
    exact Store.mem_of_lastWrite_puts hwrite

/-- A record whose key no other one has is found. -/
theorem get_of_mem {k v : Bytes} (h : (k, v) ∈ L.items E db) (hunique : ∀ v', (k, v') ∈ L.items E db → v' = v) :
    (L.database E db)[k]? = some v := by
  rw [get_database, Store.lastWrite_puts_of_mem h hunique]
  rfl

namespace Keeps

variable (K : L.Keeps E db)
include K

private theorem get_record {k : Key} {v : Value} (h : db.get k = some v) :
    (L.database E db)[L.key k]? = some (L.value v) := by
  refine get_of_mem (mem_items.mpr (.inl ⟨k, v, h, rfl⟩)) fun v' hv' => ?_
  rcases mem_items.mp hv' with ⟨k', w, hw, heq⟩ | heq | ⟨operation, -, heq⟩
  · obtain ⟨hkey, rfl⟩ := Prod.mk.inj heq
    obtain rfl := K.distinct h hw hkey
    rw [Option.some.inj (hw.symm.trans h)]
  · exact absurd (Prod.mk.inj heq).1 (K.apart h).1
  · exact absurd (Prod.mk.inj heq).1 (K.apart h).2

/-- A value is read under its key. -/
theorem get {k : Key} {v : Value} (h : db.get k = some v) (hv : k.carries v) : L.get (L.database E db) k = some v := by
  rw [Layout.get, K.get_record h]
  exact K.read h hv

theorem get_config : (L.database E db)[L.configKey E.genesisHash]? = some (L.config E.config) := by
  refine get_of_mem (mem_items.mpr (.inr (.inl rfl))) fun v' hv' => ?_
  rcases mem_items.mp hv' with ⟨k, w, hw, heq⟩ | heq | ⟨operation, -, heq⟩
  · exact absurd (Prod.mk.inj heq).1.symm (K.apart hw).1
  · exact (Prod.mk.inj heq).2
  · exact absurd (Prod.mk.inj heq).1 K.config_apart.1

theorem get_journal (h : db.journal = none) : (L.database E db)[journalKey]? = none := by
  rw [get_database, Store.lastWrite_puts_eq_none]
  · rfl
  · intro item hitem heq
    rcases mem_items.mp hitem with ⟨k, v, hget, rfl⟩ | rfl | ⟨operation, hoperation, -⟩
    · exact (K.apart hget).2 heq
    · exact K.config_apart.1 heq
    · rw [h] at hoperation
      cases hoperation

/-- The highest revision that is stored. -/
theorem latestRevision_eq {events : List Event} {latest : Nat}
    (hevents : ∀ r v, db.get (.event r) = some v ↔ ∃ e ∈ events, e.revision = r ∧ v = .event e)
    (hle : ∀ e ∈ events, e.revision ≤ latest) (hlast : latest = 0 ∨ ∃ e ∈ events, e.revision = latest) :
    L.latestRevision (L.database E db) = .ok latest := by
  -- the records under the namespace are those of the events
  have hrecord : ∀ item ∈ (L.database E db).toList.filter (fun item => eventNamespace.isPrefixOf item.1),
      ∃ e ∈ events, L.readEvent item.2 = some e := by
    intro item hitem
    rw [List.mem_filter, List.isPrefixOf_iff_prefix] at hitem
    obtain ⟨hitem, hnamed⟩ := hitem
    rcases mem_items.mp (mem_items_of_mem hitem) with ⟨k, v, hget, rfl⟩ | rfl | ⟨operation, -, rfl⟩
    · obtain ⟨r, rfl⟩ := (K.events hget).mp hnamed
      obtain ⟨e, he, -, rfl⟩ := (hevents r v).mp hget
      exact ⟨e, he, K.readEvent hget⟩
    · exact absurd hnamed K.config_apart.2
    · exact absurd hnamed not_event_journalKey
  have hfound : latest = 0 ∨ ∃ item ∈ (L.database E db).toList.filter (fun item => eventNamespace.isPrefixOf item.1),
      ∃ e, L.readEvent item.2 = some e ∧ e.revision = latest := by
    refine hlast.imp_right ?_
    rintro ⟨e, he, rfl⟩
    have hget := (hevents e.revision (.event e)).mpr ⟨e, he, rfl, rfl⟩
    refine ⟨(L.key (.event e.revision), L.value (.event e)), ?_, e, K.readEvent hget, rfl⟩
    rw [List.mem_filter, List.isPrefixOf_iff_prefix, Store.mem_toList]
    exact ⟨K.get_record hget, (K.events hget).mpr ⟨_, rfl⟩⟩
  suffices hfold : ∀ (items : List Item) (revision : Nat), (∀ item ∈ items, ∃ e ∈ events, L.readEvent item.2 = some e) →
      revision ≤ latest → (latest = revision ∨ ∃ item ∈ items, ∃ e, L.readEvent item.2 = some e ∧ e.revision = latest) →
      items.foldlM (fun revision item => do
        let event ← orFail (L.readEvent item.2) (Error.new "archive database contains an invalid event")
        .ok (max revision event.revision)) revision = .ok latest from hfold _ 0 hrecord (Nat.zero_le _) hfound
  clear hrecord hfound hlast
  intro items
  induction items with
  | nil =>
    intro revision _ _ hlatest
    simp only [List.not_mem_nil, false_and, exists_false, or_false] at hlatest
    rw [hlatest]
    rfl
  | cons item items ih =>
    intro revision hrecord hrevision hlatest
    rw [List.forall_mem_cons] at hrecord
    obtain ⟨⟨e, he, hread⟩, hrest⟩ := hrecord
    have hmax : max revision e.revision ≤ latest := max_le hrevision (hle e he)
    rw [List.foldlM_cons, hread, orFail, Option.elim_some, Except.ok_do, Except.ok_do]
    refine ih (max revision e.revision) hrest hmax ?_
    rcases hlatest with rfl | ⟨item', hitem', e', hread', rfl⟩
    · exact .inl (le_antisymm (le_max_left _ _) hmax)
    · rcases List.mem_cons.mp hitem' with rfl | hitem'
      · obtain rfl := Option.some.inj (hread.symm.trans hread')
        exact .inl (le_antisymm (le_max_right _ _) hmax)
      · exact .inr ⟨item', hitem', e', hread', rfl⟩

end Keeps

end Layout

end Archive

end Ethertest
