-- SUMMARY: Ordered key-value stores, batches of writes that are applied in order, and what is read back after a batch.
import Mathlib

/-!
# Key-value stores and batches

A `Store` is a finite map with ordered keys. Two stores with the same readings
are equal, so "equal key for key" is equality. A batch is a list of puts and
deletes. It is applied in the order in which the writes were added, and a later
write to a key wins over an earlier one.
-/

/-- A finite map from keys to values, iterated in key order. -/
abbrev Store (K V : Type) [Ord K] [Std.TransOrd K] : Type := Std.ExtTreeMap K V compare

namespace Store

section Readings

variable {K V : Type} [Ord K] [Std.TransOrd K] [Std.LawfulEqOrd K] [DecidableEq K]

@[simp] theorem get_insert (s : Store K V) (k k' : K) (v : V) :
    (s.insert k v)[k']? = if k' = k then some v else s[k']? := by
  rw [Std.ExtTreeMap.getElem?_insert]
  simp only [Std.compare_eq_iff_eq, eq_comm (a := k)]

@[simp] theorem get_erase (s : Store K V) (k k' : K) :
    (s.erase k)[k']? = if k' = k then none else s[k']? := by
  rw [Std.ExtTreeMap.getElem?_erase]
  simp only [Std.compare_eq_iff_eq, eq_comm (a := k)]

omit [DecidableEq K] in
/-- Two stores that read the same at every key are equal. -/
theorem ext_get {s t : Store K V} (h : ∀ k : K, s[k]? = t[k]?) : s = t :=
  Std.ExtTreeMap.ext_getElem? h

omit [DecidableEq K] in
theorem mem_toList {s : Store K V} {k : K} {v : V} : (k, v) ∈ s.toList ↔ s[k]? = some v :=
  Std.ExtTreeMap.mem_toList_iff_getElem?_eq_some

omit [DecidableEq K] in
/-- A list that is sorted by key and has the selected entries of a store is the selected part
of the store's list. -/
theorem filter_toList_eq_of_sorted {s : Store K V} {p : K × V → Bool} {l : List (K × V)}
    (hl : l.Pairwise fun a b => compare a.1 b.1 = .lt)
    (h : ∀ k v, s[k]? = some v ∧ p (k, v) ↔ (k, v) ∈ l) : s.toList.filter p = l := by
  have irrefl (a : K × V) : compare a.1 a.1 ≠ .lt := by
    simp [Std.ReflCmp.compare_self]
  have nodup {l : List (K × V)} (hl : l.Pairwise fun a b => compare a.1 b.1 = .lt) : l.Nodup :=
    hl.imp fun {a b} hab => by
      rintro rfl
      exact irrefl a hab
  have hs : (s.toList.filter p).Pairwise fun a b => compare a.1 b.1 = .lt :=
    Std.ExtTreeMap.ordered_keys_toList.filter _
  have hperm : (s.toList.filter p).Perm l := by
    refine (List.perm_ext_iff_of_nodup (nodup hs) (nodup hl)).mpr ?_
    rintro ⟨k, v⟩
    rw [List.mem_filter, mem_toList, h]
  refine hperm.eq_of_pairwise ?_ hs hl
  intro a b _ _ hab hba
  exact absurd (Std.TransCmp.lt_trans hab hba) (irrefl a)

omit [DecidableEq K] in
/-- A list that is sorted by key and has the store's entries is the store's list. -/
theorem toList_eq_of_sorted {s : Store K V} {l : List (K × V)}
    (hl : l.Pairwise fun a b => compare a.1 b.1 = .lt)
    (h : ∀ k v, s[k]? = some v ↔ (k, v) ∈ l) : s.toList = l := by
  rw [← filter_toList_eq_of_sorted (p := fun _ => true) hl fun k v => by simpa using h k v]
  exact (List.filter_eq_self.mpr fun _ _ => rfl).symm

theorem get_singleton (k k' : K) (v : V) :
    ((∅ : Store K V).insert k v)[k']? = if k' = k then some v else none := by
  rw [get_insert]
  simp

theorem toList_singleton (k : K) (v : V) : ((∅ : Store K V).insert k v).toList = [(k, v)] := by
  refine toList_eq_of_sorted (List.pairwise_singleton _ _) fun k' v' => ?_
  rw [get_singleton]
  by_cases h : k' = k
  · simp [h, eq_comm]
  · simp [h]

end Readings

/-! ## Batches -/

/-- One write of a batch. -/
inductive Write (K V : Type) where
  | put (k : K) (v : V)
  | delete (k : K)

namespace Write

variable {K V : Type}

/-- The key a write is about. -/
def key : Write K V → K
  | put k _ => k
  | delete k => k

/-- What a reader of the written key finds after the write. -/
def result : Write K V → Option V
  | put _ v => some v
  | delete _ => none

end Write

section Batches

variable {K V : Type} [Ord K] [Std.TransOrd K]

/-- Apply one write. -/
def write (s : Store K V) : Write K V → Store K V
  | .put k v => s.insert k v
  | .delete k => s.erase k

/-- Apply a batch, in the order in which its writes were added. -/
def writeBatch (s : Store K V) (batch : List (Write K V)) : Store K V :=
  batch.foldl write s

/-- A batch of puts. -/
def puts (items : List (K × V)) : List (Write K V) :=
  items.map fun item => .put item.1 item.2

/-- A batch of deletes. -/
def deletes (keys : List K) : List (Write K V) :=
  keys.map .delete

@[simp] theorem writeBatch_cons (s : Store K V) (w : Write K V) (ws : List (Write K V)) :
    s.writeBatch (w :: ws) = (s.write w).writeBatch ws := rfl

theorem writeBatch_append (s : Store K V) (ws ws' : List (Write K V)) :
    s.writeBatch (ws ++ ws') = (s.writeBatch ws).writeBatch ws' := by
  simp [writeBatch, List.foldl_append]

end Batches

section LastWrite

variable {K V : Type} [DecidableEq K]

/-- The last write of a batch to a key, as what it leaves behind; `none` when the
batch does not touch the key. -/
def lastWrite : List (Write K V) → K → Option (Option V)
  | [], _ => none
  | w :: ws, k => (lastWrite ws k).or (if w.key = k then some w.result else none)

@[simp] theorem lastWrite_nil (k : K) : lastWrite ([] : List (Write K V)) k = none := rfl

theorem lastWrite_append (ws ws' : List (Write K V)) (k : K) :
    lastWrite (ws ++ ws') k = (lastWrite ws' k).or (lastWrite ws k) := by
  induction ws with
  | nil => simp
  | cons w ws ih => simp only [List.cons_append, lastWrite, ih, Option.or_assoc]

/-- A batch none of whose writes is about `k` does not touch `k`. -/
theorem lastWrite_eq_none {ws : List (Write K V)} {k : K} (h : ∀ w ∈ ws, w.key ≠ k) :
    lastWrite ws k = none := by
  induction ws with
  | nil => rfl
  | cons w ws ih =>
    have hw : w.key ≠ k := h w List.mem_cons_self
    have hrest : lastWrite ws k = none := ih fun w' hw' => h w' (List.mem_cons_of_mem _ hw')
    simp [lastWrite, hrest, hw]

@[simp] theorem lastWrite_puts_nil (k : K) : lastWrite (puts ([] : List (K × V))) k = none := rfl

@[simp] theorem lastWrite_puts_cons (item : K × V) (items : List (K × V)) (k : K) :
    lastWrite (puts (item :: items)) k =
      (lastWrite (puts items) k).or (if item.1 = k then some (some item.2) else none) := rfl

theorem lastWrite_puts_append (items items' : List (K × V)) (k : K) :
    lastWrite (puts (items ++ items')) k = (lastWrite (puts items') k).or (lastWrite (puts items) k) := by
  rw [puts, List.map_append, lastWrite_append]
  rfl

theorem lastWrite_puts_eq_none {items : List (K × V)} {k : K} (h : ∀ item ∈ items, item.1 ≠ k) :
    lastWrite (puts items) k = none := by
  refine lastWrite_eq_none fun w hw => ?_
  obtain ⟨item, hitem, rfl⟩ := List.mem_map.mp hw
  exact h item hitem

theorem lastWrite_deletes_eq_none {keys : List K} {k : K} (h : k ∉ keys) :
    lastWrite (deletes keys : List (Write K V)) k = none := by
  refine lastWrite_eq_none fun w hw => ?_
  obtain ⟨k', hk', rfl⟩ := List.mem_map.mp hw
  exact fun heq => h (heq ▸ hk')

theorem lastWrite_deletes_of_mem {keys : List K} {k : K} (h : k ∈ keys) :
    lastWrite (deletes keys : List (Write K V)) k = some none := by
  induction keys with
  | nil => cases h
  | cons k' keys ih =>
    change (lastWrite (deletes keys) k).or (if k' = k then some none else none) = _
    by_cases hmem : k ∈ keys
    · rw [ih hmem]
      rfl
    · rw [lastWrite_deletes_eq_none hmem]
      have heq : k' = k := ((List.mem_cons.mp h).resolve_right hmem).symm
      simp [heq]

/-- Deletes leave no value behind. -/
theorem lastWrite_deletes_ne (keys : List K) (k : K) (v : V) :
    lastWrite (deletes keys : List (Write K V)) k ≠ some (some v) := by
  by_cases h : k ∈ keys
  · simp [lastWrite_deletes_of_mem h]
  · simp [lastWrite_deletes_eq_none h]

/-- Puts leave a value behind. -/
theorem lastWrite_puts_ne_none (items : List (K × V)) (k : K) : lastWrite (puts items) k ≠ some none := by
  induction items with
  | nil => simp
  | cons item items ih =>
    rw [lastWrite_puts_cons, Ne, Option.or_eq_some_iff]
    rintro (h | ⟨-, h⟩)
    · exact ih h
    · split at h <;> cases h

/-- A value that a batch of puts leaves behind is one of those put. -/
theorem mem_of_lastWrite_puts {items : List (K × V)} {k : K} {v : V}
    (h : lastWrite (puts items) k = some (some v)) : (k, v) ∈ items := by
  induction items with
  | nil => cases h
  | cons item items ih =>
    rw [lastWrite_puts_cons, Option.or_eq_some_iff] at h
    rcases h with h | ⟨-, h⟩
    · exact List.mem_cons_of_mem _ (ih h)
    · split at h
      · next heq =>
        simp only [Option.some.injEq] at h
        rw [← heq, ← h]
        exact List.mem_cons_self
      · cases h

/-- A key that puts give one value only is left with that value. -/
theorem lastWrite_puts_of_mem {items : List (K × V)} {k : K} {v : V} (h : (k, v) ∈ items)
    (hunique : ∀ v', (k, v') ∈ items → v' = v) : lastWrite (puts items) k = some (some v) := by
  induction items with
  | nil => cases h
  | cons item items ih =>
    rw [lastWrite_puts_cons]
    by_cases hmem : (k, v) ∈ items
    · rw [ih hmem fun v' hv' => hunique v' (List.mem_cons_of_mem _ hv'), Option.some_or]
    · have hitem : (k, v) = item := (List.mem_cons.mp h).resolve_right hmem
      rw [lastWrite_puts_eq_none, ← hitem, if_pos rfl, Option.none_or]
      rintro ⟨k', v'⟩ hitem' rfl
      exact hmem (hunique v' (List.mem_cons_of_mem _ hitem') ▸ hitem')

variable [Ord K] [Std.TransOrd K] [Std.LawfulEqOrd K]

/-- Putting the items of a store leaves its values. -/
theorem lastWrite_puts_toList (s : Store K V) (k : K) : lastWrite (puts s.toList) k = s[k]?.map some := by
  cases h : s[k]? with
  | none =>
    refine lastWrite_puts_eq_none ?_
    rintro ⟨k', v⟩ hitem rfl
    rw [mem_toList, h] at hitem
    cases hitem
  | some v =>
    refine lastWrite_puts_of_mem (mem_toList.mpr h) fun v' hv' => ?_
    rw [mem_toList, h] at hv'
    exact (Option.some.inj hv').symm

theorem get_write (s : Store K V) (w : Write K V) (k : K) :
    (s.write w)[k]? = if w.key = k then w.result else s[k]? := by
  cases w with
  | put k' v => simp [write, Write.key, Write.result, eq_comm]
  | delete k' => simp [write, Write.key, Write.result, eq_comm]

/-- After a batch, a key reads as its last write, and as before if it has none. -/
theorem get_writeBatch (s : Store K V) (ws : List (Write K V)) (k : K) :
    (s.writeBatch ws)[k]? = (lastWrite ws k).getD s[k]? := by
  induction ws generalizing s with
  | nil => rfl
  | cons w ws ih =>
    rw [writeBatch_cons, ih, get_write]
    by_cases hw : w.key = k <;> cases hlast : lastWrite ws k <;> simp [lastWrite, hw, hlast]

/-- Entries that are put in the order of their keys are listed as they were put. -/
theorem toList_writeBatch_puts {items : List (K × V)} (h : items.Pairwise fun x y => compare x.1 y.1 = .lt) :
    ((∅ : Store K V).writeBatch (puts items)).toList = items := by
  have hnodup : (items.map (·.1)).Nodup := by
    refine List.pairwise_map.mpr (h.imp fun {x y} hxy heq => ?_)
    rw [heq] at hxy
    simp at hxy
  refine toList_eq_of_sorted h fun k v => ?_
  rw [get_writeBatch]
  constructor
  · intro hget
    cases hlast : lastWrite (puts items) k with
    | none => simp [hlast] at hget
    | some w => exact mem_of_lastWrite_puts (hlast.trans (congrArg some (by simpa [hlast] using hget)))
  · intro hmem
    rw [lastWrite_puts_of_mem hmem, Option.getD_some]
    intro v' hv'
    exact (Prod.mk.inj (List.inj_on_of_nodup_map hnodup hv' hmem rfl)).2

end LastWrite

/-! ## Indexes -/

section Inverse

variable {K A V : Type} [Ord K] [Std.TransOrd K] [Std.LawfulEqOrd K] {s t : Store K A} {f : A → Option V}
  {key : V → K}

/-- The index finds everything that has a value by the key of that value, and nothing else. -/
def Inverse (s : Store K A) (f : A → Option V) (key : V → K) : Prop :=
  ∀ k a, s[k]? = some a ↔ ∃ v, f a = some v ∧ key v = k

omit [Std.LawfulEqOrd K] in
theorem inverse_empty : Inverse (∅ : Store K A) (fun _ => none) key := by
  intro k a
  simp

theorem Inverse.unique (hs : s.Inverse f key) (ht : t.Inverse f key) : s = t :=
  ext_get fun k => Option.ext fun a => (hs k a).trans (ht k a).symm

/-- An entry under a key that is free, or its own, keeps the index. -/
theorem Inverse.insert [DecidableEq K] [DecidableEq A] (h : s.Inverse f key) {a : A} {v : V}
    (hold : ∀ w, f a = some w → key w = key v) (hfree : ∀ b, s[key v]? = some b → b = a) :
    Inverse (s.insert (key v) a) (fun b => if b = a then some v else f b) key := by
  intro k b
  have hk := h k b
  have hv := h (key v) b
  rw [get_insert]
  grind

end Inverse

end Store
