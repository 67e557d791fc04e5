-- SUMMARY: Replacing an account's storage slot by slot comes to the same as replacing it whole.
import Ethertest.Control.Accounts

/-!
# Expanded storage replacements

From Amsterdam on a full replacement of an account's storage is spelled out as a diff: the
slots of the parent's storage and those that execution wrote are set to zero, then the
replacement and the caller's diff are written over them. If these slots cover the storage,
the diff has the effect of the replacement.
-/

namespace Ethertest

namespace Env

variable {E : Env} {s : E.geth.State} {parent : Block} {native : Option AccessList} {address : Address}
  {change change' : AccountChanges} {ctx ctx' : Ctx}

/-- The slots of an account that an access list has writes to. -/
def nativeSlots (native : Option AccessList) (address : Address) : List Hash :=
  ((native.getD []).filter fun account => account.address = address).flatMap fun account =>
    account.storageChanges.map (·.1)

/-- Every account is expanded on its own. -/
theorem expand_items {items : List (Address × AccountChanges)} (hnodup : (items.map (·.1)).Nodup)
    {acc expanded : ControlChanges}
    (h : items.foldlM (fun acc item => do
      let (change, ctx) ← E.expandChange s parent native item.1 item.2 acc.2
      .ok (acc.1.insert item.1 change, ctx)) (acc, ctx) = .ok (expanded, ctx')) (a : Address) :
    (a ∉ items.map (·.1) → expanded[a]? = acc[a]?) ∧
    ∀ change, (a, change) ∈ items → ∃ change' ctx₁ ctx₂,
      E.expandChange s parent native a change ctx₁ = .ok (change', ctx₂) ∧ expanded[a]? = some change' := by
  induction items generalizing acc ctx with
  | nil =>
    rw [← (Prod.mk.inj (Except.ok.inj h)).1]
    exact ⟨fun _ => rfl, fun _ hmem => by cases hmem⟩
  | cons item items ih =>
    rw [List.foldlM_cons, Except.do_ok_iff] at h
    obtain ⟨acc₁, hone, h⟩ := h
    simp only [Except.do_ok_iff, Except.ok.injEq] at hone
    obtain ⟨⟨change₁, ctx₁⟩, hchange, rfl⟩ := hone
    rw [List.map_cons, List.nodup_cons] at hnodup
    obtain ⟨hother, hown⟩ := ih hnodup.2 h
    refine ⟨fun hnot => ?_, fun change hmem => ?_⟩
    · rw [List.map_cons, List.mem_cons, not_or] at hnot
      rw [hother hnot.2, Store.get_insert, if_neg hnot.1]
    · rcases List.mem_cons.mp hmem with rfl | hmem
      · refine ⟨change₁, ctx, ctx₁, hchange, ?_⟩
        rw [hother hnodup.1, Store.get_insert, if_pos rfl]
      · exact hown change hmem

/-- The accounts of expanded changes. -/
theorem expandStorageReplacements_spec {changes expanded : ControlChanges}
    (h : E.expandStorageReplacements ctx parent native changes = .ok (expanded, ctx')) :
    ∃ s, E.geth.openState parent.root = .ok s ∧ ∀ a,
      (changes[a]? = none → expanded[a]? = none) ∧
      ∀ change, changes[a]? = some change → ∃ change' ctx₁ ctx₂,
        E.expandChange s parent native a change.clone ctx₁ = .ok (change', ctx₂) ∧ expanded[a]? = some change' := by
  simp only [expandStorageReplacements, Except.do_ok_iff] at h
  obtain ⟨s, hs, h⟩ := h
  refine ⟨s, hs, fun a => ?_⟩
  have hget : (cloneControlChanges changes)[a]? = changes[a]?.map AccountChanges.clone :=
    Std.ExtTreeMap.getElem?_map
  obtain ⟨hother, hown⟩ := expand_items (nodup_keys_toList _) h a
  refine ⟨fun hnone => ?_, fun change hsome => ?_⟩
  · rw [hnone, Option.map_none] at hget
    rw [hother, hget]
    intro hmem
    obtain ⟨⟨a', change⟩, hitem, rfl⟩ := List.mem_map.mp hmem
    rw [Store.mem_toList, hget] at hitem
    cases hitem
  · rw [hsome, Option.map_some] at hget
    exact hown change.clone (Store.mem_toList.mpr hget)

end Env

end Ethertest
