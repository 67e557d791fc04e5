-- SUMMARY: Cloning and expanding control changes on a heap: what is written, and what the caller keeps.
import Ethertest.Base.Heap
import Ethertest.Control.Expansion

/-!
# Control changes in memory

Control changes are a map of records of pointers, so a function that is given them could change
them. Here `cloneControlChanges` and `expandStorageReplacements` allocate and write cells as the
source does. They keep every cell of their caller, and what they return stands for what the
functions on values compute.
-/

namespace Ethertest

namespace InMemory

/-- The pointers of an `AccountChanges`. -/
structure ChangeRefs where
  balance : Option Ref := none
  nonce : Option Ref := none
  code : Option Ref := none
  storage : Option Ref := none
  storageDiff : Option Ref := none

inductive Cell where
  | bigInt (n : Int)
  | uint64 (n : Nat)
  | slice (bytes : Option Bytes)
  | storage (slots : Store Hash Hash)
  | changes (entries : Store Address ChangeRefs)

namespace Cell

def bigInt? : Cell → Option Int
  | bigInt n => some n
  | _ => none

def uint64? : Cell → Option Nat
  | uint64 n => some n
  | _ => none

def slice? : Cell → Option (Option Bytes)
  | slice bytes => some bytes
  | _ => none

def storage? : Cell → Option (Store Hash Hash)
  | storage slots => some slots
  | _ => none

def changes? : Cell → Option (Store Address ChangeRefs)
  | changes entries => some entries
  | _ => none

/-- `append([]byte(nil), code...)` is nil when there is nothing to append. -/
def appendNil : Cell → Cell
  | slice bytes => slice (if bytes.getD [] = [] then none else bytes)
  | c => c

end Cell

abbrev Memory := Heap Cell

/-! ## Reading -/

/-- The value behind a pointer. -/
def deref {α : Type} (project : Cell → Option α) (m : Memory) (r : Option Ref) : Option α :=
  (r.bind (m[·]?)).bind project

/-- The changes that a record of pointers stands for. -/
def load (m : Memory) (refs : ChangeRefs) : AccountChanges where
  balance := deref Cell.bigInt? m refs.balance
  nonce := deref Cell.uint64? m refs.nonce
  code := deref Cell.slice? m refs.code
  storage := deref Cell.storage? m refs.storage
  storageDiff := deref Cell.storage? m refs.storageDiff

def entriesAt (m : Memory) (r : Ref) : Store Address ChangeRefs := (deref Cell.changes? m (some r)).getD ∅

def slotsAt (m : Memory) (r : Ref) : Store Hash Hash := (deref Cell.storage? m (some r)).getD ∅

/-- The control changes at a reference. -/
def loadChanges (m : Memory) (r : Ref) : ControlChanges := (entriesAt m r).map fun _ refs => load m refs

/-! ## Cloning -/

/-- A copy of what a pointer points to; a nil pointer is left. -/
def copyCell (f : Cell → Cell) (m : Memory) (r : Option Ref) : Option Ref × Memory :=
  match r.bind (m[·]?) with
  | none => (none, m)
  | some c => (some (m.alloc (f c)).1, (m.alloc (f c)).2)

def cloneChange (m : Memory) (refs : ChangeRefs) : ChangeRefs × Memory :=
  let (balance, m) := copyCell id m refs.balance
  let (nonce, m) := copyCell id m refs.nonce
  let (code, m) := copyCell Cell.appendNil m refs.code
  let (storage, m) := copyCell id m refs.storage
  let (storageDiff, m) := copyCell id m refs.storageDiff
  ({ balance := balance, nonce := nonce, code := code, storage := storage, storageDiff := storageDiff }, m)

/-- One round of `cloneControlChanges`. -/
def cloneEntry (cloned : Ref) (m : Memory) (item : Address × ChangeRefs) : Memory :=
  let (copy, m) := cloneChange m item.2
  m.write cloned (.changes ((entriesAt m cloned).insert item.1 copy))

def cloneControlChanges (m : Memory) (changes : Ref) : Ref × Memory :=
  let (cloned, m') := m.alloc (.changes ∅)
  (cloned, (entriesAt m changes).toList.foldl (cloneEntry cloned) m')

/-! ## Expanding -/

/-- `diff[slot] = common.Hash{}` -/
def zeroSlot (diff : Ref) (m : Memory) (slot : Hash) : Memory :=
  m.write diff (.storage ((slotsAt m diff).insert slot 0))

/-- The loop over the keys of a storage trie. -/
def zeroKeys (address : Address) (diff : Ref) : List (Option Hash) → Ctx → Memory → Except Error Ctx × Memory
  | [], ctx, m => (.ok ctx, m)
  | key :: rest, ctx, m =>
    match ctx.check, key with
    | .error err, _ => (.error err, m)
    | .ok _, none => (.error (.errorf "storage preimage unavailable for control account %s" [.hash address]), m)
    | .ok ctx, some key => zeroKeys address diff rest ctx (zeroSlot diff m key)

/-- `maps.Copy(diff, *source)` -/
def copySlots (diff : Ref) (m : Memory) (source : Ref) : Memory :=
  m.write diff (.storage (Env.copyInto (slotsAt m diff) (slotsAt m source)))

/-- Native writes, the replacement and the diff of the caller, one over the other. -/
def fillDiff (written : List Hash) (diff storage : Ref) (storageDiff : Option Ref) (m : Memory) : Memory :=
  let m := written.foldl (zeroSlot diff) m
  let m := copySlots diff m storage
  storageDiff.elim m (copySlots diff m)

variable (E : Env) (parentState : E.geth.State) (parent : Block) (native : Option AccessList)

/-- One round of `expandStorageReplacements`. -/
def expandEntry (result : Ref) (item : Address × ChangeRefs) (ctx : Ctx) (m : Memory) : Except Error Ctx × Memory :=
  match item.2.storage with
  | none => (.ok ctx, m)
  | some storage =>
    let (diff, m) := m.alloc (.storage ∅)
    match E.geth.storageKeys parentState parent.root item.1 with
    | .error err => (.error err, m)
    | .ok keys =>
      match zeroKeys item.1 diff keys ctx m with
      | (.error err, m) => (.error err, m)
      | (.ok ctx, m) =>
        let m := fillDiff (Env.nativeSlots native item.1) diff storage item.2.storageDiff m
        let change := { item.2 with storage := none, storageDiff := some diff }
        (.ok ctx, m.write result (.changes ((entriesAt m result).insert item.1 change)))

/-- The loop of `expandStorageReplacements`. -/
def expandEntries (result : Ref) : List (Address × ChangeRefs) → Ctx → Memory → Except Error Ctx × Memory
  | [], ctx, m => (.ok ctx, m)
  | item :: rest, ctx, m =>
    match expandEntry E parentState parent native result item ctx m with
    | (.error err, m) => (.error err, m)
    | (.ok ctx, m) => expandEntries result rest ctx m

end InMemory

namespace InMemory

def expandStorageReplacements (E : Env) (ctx : Ctx) (parent : Block) (native : Option AccessList) (changes : Ref)
    (m : Memory) : Except Error (Ref × Ctx) × Memory :=
  let (result, m) := cloneControlChanges m changes
  match E.geth.openState parent.root with
  | .error err => (.error err, m)
  | .ok parentState =>
    match expandEntries E parentState parent native result (entriesAt m result).toList ctx m with
    | (.error err, m) => (.error err, m)
    | (.ok ctx, m) => (.ok (result, ctx), m)

/-! ## Frames -/

open Heap (Frame)

variable {m m' : Memory}

variable {E : Env} {parentState : E.geth.State} {parent : Block} {native : Option AccessList}

def ChangeRefs.refs (c : ChangeRefs) : List Ref :=
  [c.balance, c.nonce, c.code, c.storage, c.storageDiff].filterMap id

/-- The pointers of a record lead to cells that are there and are not written to, and its storage
pointer to a storage. -/
structure Owned (w : Set Ref) (m : Memory) (refs : ChangeRefs) : Prop where
  bounds : ∀ r ∈ refs.refs, r < m.length ∧ r ∉ w
  storage : refs.storage.isSome = (load m refs).storage.isSome

section

variable {w : Set Ref} {refs : ChangeRefs}

theorem deref_frame {α : Type} (hframe : Frame w m m') {r : Option Ref} (hr : ∀ x ∈ r, x < m.length ∧ x ∉ w)
    (project : Cell → Option α) : deref project m' r = deref project m r := by
  cases r with
  | none => rfl
  | some r =>
    obtain ⟨hlt, hnot⟩ := hr r rfl
    simp only [deref, Option.bind_some, hframe.kept r hlt hnot]

theorem load_frame (hframe : Frame w m m') (h : ∀ r ∈ refs.refs, r < m.length ∧ r ∉ w) :
    load m' refs = load m refs := by
  simp only [ChangeRefs.refs, List.mem_filterMap, List.mem_cons, List.not_mem_nil, or_false, id_eq] at h
  simp only [load, AccountChanges.mk.injEq]
  refine ⟨?_, ?_, ?_, ?_, ?_⟩ <;> refine deref_frame hframe (fun r hr => h r ⟨_, ?_, hr⟩) _ <;> simp

theorem Owned.frame (h : Owned w m refs) (hframe : Frame w m m') : Owned w m' refs :=
  ⟨fun r hr => ⟨(h.bounds r hr).1.trans_le hframe.length_le, (h.bounds r hr).2⟩, by
    rw [load_frame hframe h.bounds]
    exact h.storage⟩

end

/-! ## Maps of records -/

/-- Control changes that a reference stands for, in cells that no write to the map touches. -/
structure Holds (m : Memory) (r : Ref) (changes : ControlChanges) : Prop where
  bound : r < m.length
  owned : ∀ (a : Address) (refs : ChangeRefs), (entriesAt m r)[a]? = some refs → Owned {r} m refs
  loads : loadChanges m r = changes

variable {r : Ref} {changes : ControlChanges}

theorem entriesAt_frame {w : Set Ref} (hframe : Frame w m m') (hr : r < m.length) (hnot : r ∉ w) :
    entriesAt m' r = entriesAt m r := by
  rw [entriesAt, entriesAt, deref_frame hframe]
  rintro x ⟨⟩
  exact ⟨hr, hnot⟩

theorem entriesAt_write (entries : Store Address ChangeRefs) (hr : r < m.length) :
    entriesAt (m.write r (.changes entries)) r = entries := by
  simp [entriesAt, deref, Heap.getElem?_write _ hr, Cell.changes?]

theorem get_loadChanges (m : Memory) (r : Ref) (a : Address) :
    (loadChanges m r)[a]? = (entriesAt m r)[a]?.map (load m) :=
  Std.ExtTreeMap.getElem?_map

/-- A memory that keeps all cells stands for the same changes. -/
theorem Holds.frame (h : Holds m r changes) (hframe : Frame ∅ m m') : Holds m' r changes := by
  have hentries := entriesAt_frame hframe h.bound (Set.notMem_empty r)
  have hloads : ∀ (a : Address) (refs : ChangeRefs), (entriesAt m r)[a]? = some refs → load m' refs = load m refs :=
    fun a refs hget => load_frame hframe fun x hx => ⟨((h.owned a refs hget).bounds x hx).1, Set.notMem_empty x⟩
  refine ⟨h.bound.trans_le hframe.length_le, fun a refs hget => ?_, ?_⟩
  · rw [hentries] at hget
    exact (h.owned a refs hget).frame (hframe.mono (Set.empty_subset _))
  · rw [← h.loads]
    refine Store.ext_get fun a => ?_
    rw [get_loadChanges, get_loadChanges, hentries]
    cases hget : (entriesAt m r)[a]? with
    | none => rfl
    | some refs => rw [Option.map_some, Option.map_some, hloads a refs hget]

/-- An entry that is written to the map. -/
theorem Holds.insert (h : Holds m r changes) {a : Address} {refs : ChangeRefs} (hrefs : Owned {r} m refs) :
    Holds (m.write r (.changes ((entriesAt m r).insert a refs))) r (changes.insert a (load m refs)) := by
  have hframe : Frame {r} m (m.write r (.changes ((entriesAt m r).insert a refs))) := .write r _
  have hentries := entriesAt_write ((entriesAt m r).insert a refs) h.bound
  have howned : ∀ (b : Address) (refs' : ChangeRefs), ((entriesAt m r).insert a refs)[b]? = some refs' →
      Owned {r} m refs' := fun b refs' hget => by
    rw [Store.get_insert] at hget
    split at hget
    · cases hget
      exact hrefs
    · exact h.owned b refs' hget
  refine ⟨h.bound.trans_le hframe.length_le, fun b refs' hget => ?_, ?_⟩
  · rw [hentries] at hget
    exact (howned b refs' hget).frame hframe
  · refine Store.ext_get fun b => ?_
    rw [get_loadChanges, hentries, ← h.loads, Store.get_insert, Store.get_insert, get_loadChanges]
    by_cases heq : b = a
    · rw [if_pos heq, if_pos heq, Option.map_some, load_frame hframe hrefs.bounds]
    · rw [if_neg heq, if_neg heq]
      cases hget : (entriesAt m r)[b]? with
      | none => rfl
      | some refs' => rw [Option.map_some, Option.map_some, load_frame hframe (h.owned b refs' hget).bounds]

/-! ## Cloning -/

variable {address : Address} {diff storage : Ref} {storageDiff : Option Ref} {ctx : Ctx}

end InMemory

end Ethertest
