-- SUMMARY: Lists of issued controls: validity of the queues taken from them, and what reconciliation computes.
import Ethertest.Requests.Queue

/-!
# Issued controls

Every control ever issued is an entry of one list, in the order of the IDs. What a queue
or a record holds of a type is a part of that list. This is what makes the checks of
`validateExecutionRequestQueue` pass, and it is the invariant under which
`reconcileExecutionRequestQueue` has none of its errors.
-/

namespace Ethertest

/-- A control with its type. -/
abbrev TypedControl := RequestType × QueuedExecutionRequest

/-- The controls of one type, in order. -/
def ofType (l : List TypedControl) (t : RequestType) : List QueuedExecutionRequest :=
  (l.filter fun p => p.1 = t).map (·.2)

@[simp] theorem ofType_nil (t : RequestType) : ofType [] t = [] := rfl

theorem ofType_append (l l' : List TypedControl) (t : RequestType) :
    ofType (l ++ l') t = ofType l t ++ ofType l' t := by
  simp [ofType]

theorem ofType_cons (p : TypedControl) (l : List TypedControl) (t : RequestType) :
    ofType (p :: l) t = (if p.1 = t then [p.2] else []) ++ ofType l t := by
  by_cases h : p.1 = t <;> simp [ofType, h]

variable {l : List TypedControl} {t : RequestType}

@[simp] theorem mem_ofType {item : QueuedExecutionRequest} : item ∈ ofType l t ↔ (t, item) ∈ l := by
  simp only [ofType, List.mem_map, List.mem_filter, decide_eq_true_eq]
  constructor
  · rintro ⟨⟨u, i⟩, ⟨h, rfl⟩, rfl⟩
    exact h
  · intro h
    exact ⟨(t, item), ⟨h, rfl⟩, rfl⟩

private theorem ofType_map_mk (l : List QueuedExecutionRequest) (u t : RequestType) :
    ofType (l.map fun item => (u, item)) t = if u = t then l else [] := by
  by_cases h : u = t <;> simp [ofType, List.filter_map, Function.comp_def, h]

@[simp] theorem ofType_items (c : ExecutionRequestControlSet) (t : RequestType) :
    ofType c.items t = c.get t := by
  simp only [ExecutionRequestControlSet.items, RequestType.all, List.flatMap_cons, List.flatMap_nil,
    List.append_nil, ofType_append, ofType_map_mk]
  cases t <;> simp

/-- A list is free of duplicates if each of its types is. -/
theorem nodup_of_ofType (h : ∀ t, (ofType l t).Nodup) : l.Nodup := by
  induction l with
  | nil => exact List.nodup_nil
  | cons p l ih =>
    have hrest : l.Nodup := by
      refine ih fun t => ?_
      have ht := h t
      rw [ofType_cons] at ht
      exact (List.nodup_append.mp ht).2.1
    refine List.nodup_cons.mpr ⟨fun hmem => ?_, hrest⟩
    have hp := h p.1
    rw [ofType_cons, if_pos rfl, List.singleton_append, List.nodup_cons] at hp
    exact hp.1 (mem_ofType.mpr hmem)

/-- The controls issued so far: their IDs count up from one, the next ID is free, and their
data has the size of their type. -/
structure Issuance (issued : List TypedControl) (nextID : Nat) : Prop where
  ids : issued.map (·.2.id) = List.range' 1 issued.length
  next : nextID = issued.length + 1
  size : ∀ p ∈ issued, p.2.data.length = p.1.size

namespace Issuance

variable {issued : List TypedControl} {nextID : Nat}

theorem nil : Issuance [] 1 := ⟨rfl, rfl, by simp⟩

/-- Issuing one more control. -/
theorem push (h : Issuance issued nextID) {t : RequestType} {data : Bytes}
    (hdata : data.length = t.size) : Issuance (issued ++ [(t, ⟨nextID, data⟩)]) (nextID + 1) where
  ids := by
    simp only [List.map_append, h.ids, List.map_cons, List.map_nil, List.length_append,
      List.length_singleton, List.range'_concat, h.next]
    simp [Nat.add_comm]
  next := by simp [h.next]
  size p hp := by
    rcases List.mem_append.mp hp with hp | hp
    · exact h.size p hp
    · rw [List.mem_singleton] at hp
      rw [hp]
      exact hdata

theorem pairwise (h : Issuance issued nextID) : issued.Pairwise fun p q => p.2.id < q.2.id := by
  have hids : (issued.map (·.2.id)).Pairwise (· < ·) := by
    rw [h.ids]
    exact List.pairwise_lt_range'
  exact List.pairwise_map.mp hids

theorem ofType_pairwise (h : Issuance issued nextID) (t : RequestType) :
    (ofType issued t).Pairwise fun a b => a.id < b.id :=
  List.pairwise_map.mpr (h.pairwise.filter _)

theorem ofType_nodup (h : Issuance issued nextID) (t : RequestType) : (ofType issued t).Nodup :=
  (h.ofType_pairwise t).imp fun hlt heq => absurd (congrArg QueuedExecutionRequest.id heq) hlt.ne

theorem id_bounds (h : Issuance issued nextID) {p : TypedControl} (hp : p ∈ issued) :
    0 < p.2.id ∧ p.2.id < nextID := by
  have hmem : p.2.id ∈ issued.map (·.2.id) := List.mem_map_of_mem hp
  rw [h.ids, List.mem_range'_1] at hmem
  rw [h.next]
  omega

/-- An ID names one control. -/
theorem eq_of_id (h : Issuance issued nextID) {p q : TypedControl} (hp : p ∈ issued) (hq : q ∈ issued)
    (hid : p.2.id = q.2.id) : p = q := by
  have hinj := List.inj_on_of_nodup_map (f := fun p : TypedControl => p.2.id) (l := issued) <| by
    rw [h.ids]
    exact List.nodup_range'
  exact hinj hp hq hid

end Issuance

/-! ## Validity -/

theorem checkControls_ok {items : List QueuedExecutionRequest} (index previous : Nat) (seen : List Nat)
    (hpos : ∀ item ∈ items, 0 < item.id) (hsize : ∀ item ∈ items, item.data.length = t.size)
    (hseen : ∀ item ∈ items, item.id ∉ seen) (hprev : ∀ item ∈ items, previous < item.id)
    (hsorted : items.Pairwise fun a b => a.id < b.id) :
    checkControls t index previous seen items = .ok ((items.map (·.id)).reverse ++ seen) := by
  induction items generalizing index previous seen with
  | nil => rfl
  | cons item rest ih =>
    have hlt : ∀ b ∈ rest, item.id < b.id := (List.pairwise_cons.mp hsorted).1
    have htail := ih (index + 1) item.id (item.id :: seen)
      (fun b hb => hpos b (List.mem_cons_of_mem _ hb)) (fun b hb => hsize b (List.mem_cons_of_mem _ hb))
      (fun b hb hmem => by
        rcases List.mem_cons.mp hmem with heq | hmem
        · exact absurd heq (hlt b hb).ne'
        · exact hseen b (List.mem_cons_of_mem _ hb) hmem)
      hlt (List.pairwise_cons.mp hsorted).2
    have h₁ := (hpos item List.mem_cons_self).ne'
    have h₂ := hsize item List.mem_cons_self
    have h₃ := hseen item List.mem_cons_self
    have h₄ := hprev item List.mem_cons_self
    simp [checkControls, failIf, h₁, h₂, h₃, Nat.not_le.mpr h₄, htail, bind, Except.bind]

namespace ExecutionRequestControlSet

/-- Controls with data of the size of their type and IDs that are not zero, that increase
in each type and that no two controls share. -/
structure WellFormed (c : ExecutionRequestControlSet) : Prop where
  positive : ∀ t, ∀ item ∈ c.get t, 0 < item.id
  size : ∀ t, ∀ item ∈ c.get t, item.data.length = t.size
  sorted : ∀ t, (c.get t).Pairwise fun a b => a.id < b.id
  distinct : ∀ t u, t ≠ u → ∀ item ∈ c.get t, item.id ∉ (c.get u).map (·.id)

/-- Parts of well-formed controls are well-formed. -/
theorem WellFormed.sublist {c d : ExecutionRequestControlSet} (h : c.WellFormed)
    (hd : ∀ t, (d.get t).Sublist (c.get t)) : d.WellFormed where
  positive t item hi := h.positive t item ((hd t).subset hi)
  size t item hi := h.size t item ((hd t).subset hi)
  sorted t := (h.sorted t).sublist (hd t)
  distinct t u htu item hi hid := h.distinct t u htu item ((hd t).subset hi) (((hd u).map _).subset hid)

/-- Well-formed controls are valid. -/
theorem WellFormed.validate {c : ExecutionRequestControlSet} (h : c.WellFormed) :
    validateExecutionRequestControlSet c = .ok () := by
  -- the IDs of earlier types are the ones seen when a type is checked
  have hdeposits := checkControls_ok 0 0 [] (h.positive .deposit) (h.size .deposit) (by simp)
    (h.positive .deposit) (h.sorted .deposit)
  have hwithdrawals := checkControls_ok 0 0 ((c.get .deposit).map (·.id)).reverse
    (h.positive .withdrawal) (h.size .withdrawal)
    (by simpa using h.distinct .withdrawal .deposit (by decide)) (h.positive .withdrawal) (h.sorted .withdrawal)
  have hconsolidations := checkControls_ok 0 0
    (((c.get .withdrawal).map (·.id)).reverse ++ ((c.get .deposit).map (·.id)).reverse)
    (h.positive .consolidation) (h.size .consolidation)
    (by
      intro item hi
      have h₁ := h.distinct .consolidation .deposit (by decide) item hi
      have h₂ := h.distinct .consolidation .withdrawal (by decide) item hi
      simpa using ⟨by simpa using h₂, by simpa using h₁⟩)
    (h.positive .consolidation) (h.sorted .consolidation)
  simp only [get, List.append_nil] at hdeposits hwithdrawals hconsolidations
  simp [validateExecutionRequestControlSet, hdeposits, hwithdrawals, hconsolidations, bind, Except.bind,
    pure, Except.pure]

end ExecutionRequestControlSet

theorem foldl_max_lt {l : List QueuedExecutionRequest} {m bound : Nat} (hm : m < bound)
    (hl : ∀ item ∈ l, item.id < bound) : l.foldl (fun m item => max m item.id) m < bound := by
  induction l generalizing m with
  | nil => exact hm
  | cons item l ih =>
    exact ih (max_lt hm (hl item List.mem_cons_self)) fun b hb => hl b (List.mem_cons_of_mem _ hb)

namespace Issuance

variable {issued : List TypedControl} {nextID : Nat}

variable {c : ExecutionRequestControlSet}

theorem wellFormed (h : Issuance issued nextID) (hc : ∀ t, (c.get t).Sublist (ofType issued t)) : c.WellFormed := by
  have hmem {t : RequestType} {item : QueuedExecutionRequest} (hi : item ∈ c.get t) :
      (t, item) ∈ issued := mem_ofType.mp ((hc t).subset hi)
  constructor
  · exact fun t item hi => (h.id_bounds (hmem hi)).1
  · exact fun t item hi => h.size _ (hmem hi)
  · exact fun t => (h.ofType_pairwise t).sublist (hc t)
  · intro t u htu item hi hid
    obtain ⟨other, ho, heq⟩ := List.mem_map.mp hid
    have := h.eq_of_id (hmem hi) (hmem ho) heq.symm
    exact htu (congrArg Prod.fst this)

/-- A control set whose types are parts of what was issued is valid. -/
theorem validate_controls (h : Issuance issued nextID) (hc : ∀ t, (c.get t).Sublist (ofType issued t)) :
    validateExecutionRequestControlSet c = .ok () :=
  (h.wellFormed hc).validate

/-- A queue whose types are parts of what was issued, with the next ID, is valid. -/
theorem validate_queue (h : Issuance issued nextID) {q : ExecutionRequestQueue}
    (hformat : q.format = executionRequestQueueFormat) (hnext : q.nextID = nextID)
    (hq : ∀ t, (q.get t).Sublist (ofType issued t)) : validateExecutionRequestQueue q = .ok () := by
  have hmax : q.maxID < q.nextID := by
    have hall : ∀ item ∈ q.deposits ++ q.withdrawals ++ q.consolidations, item.id < nextID := by
      intro item hi
      simp only [List.mem_append] at hi
      rcases hi with (hi | hi) | hi
      · exact (h.id_bounds (mem_ofType.mp ((hq .deposit).subset hi))).2
      · exact (h.id_bounds (mem_ofType.mp ((hq .withdrawal).subset hi))).2
      · exact (h.id_bounds (mem_ofType.mp ((hq .consolidation).subset hi))).2
    rw [hnext]
    exact foldl_max_lt (by rw [h.next]; omega) hall
  have hpos : q.nextID ≠ 0 := by rw [hnext, h.next]; omega
  simp [validateExecutionRequestQueue, hformat, failIf, h.validate_controls hq, hpos,
    Nat.not_le.mpr hmax, bind, Except.bind]

end Issuance

/-! ## Reconciliation -/

namespace Reconciliation

variable {issued : List TypedControl} {nextID : Nat}

/-- The tables know only issued controls, and `pending` lists what they hold as pending. -/
structure Holds (issued : List TypedControl) (s : Reconciliation)
    (pending : RequestType → List QueuedExecutionRequest) : Prop where
  known : ∀ id t data, s.known[id]? = some (t, data) → (t, ⟨id, data⟩) ∈ issued
  pending : ∀ t id item, (s.byType t)[id]? = some item ↔ item.id = id ∧ item ∈ pending t

theorem holds_empty : Holds issued {} fun _ => [] where
  known id t data h := by simp at h
  pending t id item := by simp

variable {s : Reconciliation} {pending : RequestType → List QueuedExecutionRequest} {p : TypedControl}
  {items : List TypedControl} {used : Store Nat Unit}

/-- Remembering an issued control does not fail and changes nothing that is pending. -/
theorem remember_ok (h : Issuance issued nextID) (hs : s.Holds issued pending) {t : RequestType}
    {item : QueuedExecutionRequest} (hi : (t, item) ∈ issued) :
    ∃ s', s.remember t item = .ok s' ∧ s'.Holds issued pending ∧ s'.byType = s.byType := by
  unfold remember
  cases hk : s.known[item.id]? with
  | some seen =>
    have hseen : seen = (t, item.data) := by
      have := h.eq_of_id (hs.known _ _ _ hk) hi rfl
      simp only [Prod.mk.injEq] at this
      rw [Prod.ext_iff]
      exact ⟨this.1, congrArg QueuedExecutionRequest.data this.2⟩
    exact ⟨s, by simp [failIf, hseen, bind, Except.bind], hs, rfl⟩
  | none =>
    refine ⟨_, rfl, ⟨fun id u data hid => ?_, hs.pending⟩, rfl⟩
    rw [Store.get_insert] at hid
    split at hid
    · next heq =>
      simp only [Option.some.injEq, Prod.mk.injEq] at hid
      rw [heq, ← hid.1, ← hid.2]
      exact hi
    · exact hs.known id u data hid

/-- Adding one issued control. -/
theorem add_ok (h : Issuance issued nextID) (hs : s.Holds issued pending)
    (hp : ∀ t, ∀ item ∈ pending t, (t, item) ∈ issued) (hi : p ∈ issued) :
    ∃ s', s.add p = .ok s' ∧ s'.Holds issued fun t => pending t ++ ofType [p] t := by
  obtain ⟨s', hrem, hs', -⟩ := remember_ok h hs (show (p.1, p.2) ∈ issued from hi)
  have hadd : s.add p = .ok { s' with
      byType := Function.update s'.byType p.1 ((s'.byType p.1).insert p.2.id p.2) } := by
    rw [add, hrem]
    rfl
  refine ⟨_, hadd, hs'.known, fun t id item => ?_⟩
  by_cases ht : t = p.1
  · subst ht
    simp only [Function.update_self, Store.get_insert, ofType_cons, ofType_nil, if_pos, List.append_nil,
      List.mem_append, List.mem_singleton]
    split
    · next hid =>
      -- an entry of that ID is this very control
      constructor
      · intro heq
        simp only [Option.some.injEq] at heq
        exact ⟨by rw [← heq, hid], .inr heq.symm⟩
      · rintro ⟨hid', hmem | rfl⟩
        · have := h.eq_of_id (hp _ _ hmem) hi (by rw [hid', hid])
          rw [← this]
        · rfl
    · next hid =>
      rw [hs'.pending]
      constructor
      · exact fun hmem => ⟨hmem.1, .inl hmem.2⟩
      · rintro ⟨hid', hmem | rfl⟩
        · exact ⟨hid', hmem⟩
        · exact absurd hid'.symm hid
  · simp only [Function.update_of_ne ht, ofType_cons, ofType_nil, if_neg (Ne.symm ht), List.append_nil]
    exact hs'.pending t id item

/-- Adding issued controls does not fail. -/
theorem foldlM_add_ok (h : Issuance issued nextID) (hs : s.Holds issued pending)
    (hp : ∀ t, ∀ item ∈ pending t, (t, item) ∈ issued) (hi : ∀ p ∈ items, p ∈ issued) :
    ∃ s', items.foldlM add s = .ok s' ∧ s'.Holds issued fun t => pending t ++ ofType items t := by
  induction items generalizing s pending with
  | nil => exact ⟨s, rfl, by simpa using hs⟩
  | cons p items ih =>
    obtain ⟨s₁, hadd, hs₁⟩ := add_ok h hs hp (hi p List.mem_cons_self)
    obtain ⟨s₂, hrest, hs₂⟩ := ih hs₁
      (fun t item hmem => by
        rcases List.mem_append.mp hmem with hmem | hmem
        · exact hp t item hmem
        · rw [mem_ofType, List.mem_singleton] at hmem
          rw [hmem]
          exact hi p List.mem_cons_self)
      fun q hq => hi q (List.mem_cons_of_mem _ hq)
    refine ⟨s₂, by rw [List.foldlM_cons, hadd]; exact hrest, ?_⟩
    have heq : (fun t => pending t ++ ofType (p :: items) t) =
        fun t => pending t ++ ofType [p] t ++ ofType items t := by
      funext t
      rw [List.append_assoc, ← ofType_append, List.singleton_append]
    rw [heq]
    exact hs₂

/-- Consuming one pending control. `used` holds only IDs that are not pending. -/
theorem consume_ok (h : Issuance issued nextID) (hs : s.Holds issued pending)
    (hp : ∀ t, ∀ item ∈ pending t, (t, item) ∈ issued)
    (hused : ∀ t, ∀ item ∈ pending t, used[item.id]? = none) (hi : p.2 ∈ pending p.1) :
    ∃ s', consume (s, used) p = .ok (s', used.insert p.2.id ()) ∧
      s'.Holds issued (fun t => (pending t).filter fun item => (t, item) ≠ p) ∧
      ∀ t, ∀ item ∈ (pending t).filter (fun item => (t, item) ≠ p), (used.insert p.2.id ())[item.id]? = none := by
  have hissued : p ∈ issued := hp _ _ hi
  obtain ⟨s', hrem, hs', hby⟩ := remember_ok h hs (show (p.1, p.2) ∈ issued from hissued)
  have hpend : (s'.byType p.1)[p.2.id]? = some p.2 := (hs'.pending _ _ _).mpr ⟨rfl, hi⟩
  have hcons : consume (s, used) p =
      .ok ({ s' with byType := Function.update s'.byType p.1 ((s'.byType p.1).erase p.2.id) },
        used.insert p.2.id ()) := by
    simp [consume, hrem, failIf, hused _ _ hi, hpend, bind, Except.bind]
  refine ⟨_, hcons, ⟨hs'.known, fun t id item => ?_⟩, fun t item hmem => ?_⟩
  · simp only [List.mem_filter, decide_eq_true_eq]
    by_cases ht : t = p.1
    · subst ht
      simp only [Function.update_self, Store.get_erase]
      split
      · next hid =>
        constructor
        · intro hnone
          simp at hnone
        · rintro ⟨hid', hmem, hne⟩
          exact absurd (h.eq_of_id (hp _ _ hmem) hissued (by rw [hid', hid])) hne
      · next hid =>
        rw [hs'.pending]
        constructor
        · rintro ⟨hid', hmem⟩
          refine ⟨hid', hmem, fun heq => hid ?_⟩
          rw [← hid', ← congrArg Prod.snd heq]
        · rintro ⟨hid', hmem, -⟩
          exact ⟨hid', hmem⟩
    · simp only [Function.update_of_ne ht, hs'.pending]
      constructor
      · rintro ⟨hid, hmem⟩
        exact ⟨hid, hmem, fun heq => ht (congrArg Prod.fst heq)⟩
      · rintro ⟨hid, hmem, -⟩
        exact ⟨hid, hmem⟩
  · simp only [List.mem_filter, decide_eq_true_eq] at hmem
    rw [Store.get_insert, if_neg]
    · exact hused t item hmem.1
    · intro hid
      exact hmem.2 (h.eq_of_id (hp _ _ hmem.1) hissued hid)

/-- Consuming distinct pending controls does not fail and leaves the others pending. -/
theorem foldlM_consume_ok (h : Issuance issued nextID) (hs : s.Holds issued pending)
    (hp : ∀ t, ∀ item ∈ pending t, (t, item) ∈ issued)
    (hused : ∀ t, ∀ item ∈ pending t, used[item.id]? = none) (hnodup : items.Nodup)
    (hi : ∀ p ∈ items, p.2 ∈ pending p.1) :
    ∃ s' used', items.foldlM consume (s, used) = .ok (s', used') ∧
      s'.Holds issued fun t => (pending t).filter fun item => (t, item) ∉ items := by
  induction items generalizing s used pending with
  | nil => exact ⟨s, used, rfl, by simpa using hs⟩
  | cons p items ih =>
    obtain ⟨hnotin, hnodup'⟩ := List.nodup_cons.mp hnodup
    obtain ⟨s₁, hcons, hs₁, hused₁⟩ := consume_ok h hs hp hused (hi p List.mem_cons_self)
    obtain ⟨s₂, used₂, hrest, hs₂⟩ := ih hs₁
      (fun t item hmem => hp t item (List.mem_filter.mp hmem).1) hused₁ hnodup'
      (fun q hq => List.mem_filter.mpr
        ⟨hi q (List.mem_cons_of_mem _ hq), by
          simp only [decide_eq_true_eq]
          rintro rfl
          exact hnotin hq⟩)
    refine ⟨s₂, used₂, by rw [List.foldlM_cons, hcons]; exact hrest, ?_⟩
    have heq : (fun t => (pending t).filter fun item => (t, item) ∉ p :: items) =
        fun t => ((pending t).filter fun item => (t, item) ≠ p).filter fun item => (t, item) ∉ items := by
      funext t
      rw [List.filter_filter]
      congr 1
      funext item
      simp [Bool.and_comm]
    rw [heq]
    exact hs₂

end Reconciliation

/-- The controls that a path's blocks consumed, oldest block first; the path is given head
first. -/
def pathControls (record : Hash → ExecutionRequestRecord) (path : List Hash) : List TypedControl :=
  path.reverse.flatMap fun hash => (record hash).controls.items

theorem ofType_flatMap {α : Type} (l : List α) (f : α → List TypedControl) (t : RequestType) :
    ofType (l.flatMap f) t = l.flatMap fun a => ofType (f a) t := by
  induction l with
  | nil => rfl
  | cons a l ih => rw [List.flatMap_cons, ofType_append, ih, List.flatMap_cons]

@[simp] theorem ofType_pathControls (record : Hash → ExecutionRequestRecord) (path : List Hash)
    (t : RequestType) :
    ofType (pathControls record path) t = path.reverse.flatMap fun hash => (record hash).controls.get t := by
  simp [pathControls, ofType_flatMap]

/-- A fold over the records of a path is a fold over the controls they hold. -/
theorem foldRecords_eq {σ : Type} {load : Hash → Except Error (Option ExecutionRequestRecord)}
    {record : Hash → ExecutionRequestRecord} {f : σ → TypedControl → Except Error σ} {path : List Hash}
    (hload : ∀ hash ∈ path, load hash = .ok (some (record hash))) (s : σ) :
    foldRecords load f s path.reverse = (pathControls record path).foldlM f s := by
  unfold foldRecords pathControls
  have hload' : ∀ hash ∈ path.reverse, load hash = .ok (some (record hash)) := by simpa using hload
  generalize path.reverse = hashes at hload'
  induction hashes generalizing s with
  | nil => rfl
  | cons hash hashes ih =>
    have htail (s : σ) := ih s fun hash' h => hload' hash' (List.mem_cons_of_mem _ h)
    rw [List.foldlM_cons, List.flatMap_cons, List.foldlM_append, hload' hash List.mem_cons_self]
    simp only [bind, Except.bind] at htail ⊢
    cases (record hash).controls.items.foldlM f s with
    | error err => rfl
    | ok s' => exact htail s'

/-- What is pending after some controls were consumed from a list that starts with them. -/
theorem filter_not_mem_of_append {a b : List QueuedExecutionRequest} (h : (a ++ b).Nodup) :
    (a ++ b).filter (fun item => item ∉ a) = b := by
  have hdisjoint := (List.nodup_append.mp h).2.2
  rw [List.filter_append, List.filter_eq_nil_iff.mpr (by simp), List.nil_append, List.filter_eq_self]
  intro item hb
  simpa using fun ha => hdisjoint item ha item hb rfl

/-- The pending controls of a type, read in the order of their IDs. -/
theorem Reconciliation.Holds.values {issued : List TypedControl} {s : Reconciliation}
    {pending : RequestType → List QueuedExecutionRequest} (hs : s.Holds issued pending)
    (hsorted : (pending t).Pairwise fun a b => a.id < b.id) : (s.byType t).toList.map (·.2) = pending t := by
  have hlist : (s.byType t).toList = (pending t).map fun item => (item.id, item) := by
    refine Store.toList_eq_of_sorted ?_ fun id item => ?_
    · exact List.pairwise_map.mpr (hsorted.imp fun hlt => Nat.compare_eq_lt.mpr hlt)
    · rw [hs.pending, List.mem_map]
      constructor
      · rintro ⟨rfl, hmem⟩
        exact ⟨item, hmem, rfl⟩
      · rintro ⟨item', hmem, heq⟩
        obtain ⟨rfl, rfl⟩ := Prod.mk.inj heq
        exact ⟨rfl, hmem⟩
  rw [hlist, List.map_map]
  exact List.map_id _

section Reconcile

variable {issued : List TypedControl} {nextID : Nat}
  {load : Hash → Except Error (Option ExecutionRequestRecord)} {record : Hash → ExecutionRequestRecord}
  {queue : ExecutionRequestQueue} {oldPath newPath : List Hash}
  {base left : RequestType → List QueuedExecutionRequest}

/-- The first two loops of the reconciliation: after them, what either chain leaves over
beyond `base` is pending. -/
theorem returned_ok (h : Issuance issued nextID)
    (hold : ∀ hash ∈ oldPath, load hash = .ok (some (record hash)))
    (hqueue : ∀ t, base t ++ (ofType (pathControls record oldPath) t ++ queue.get t) = ofType issued t)
    (hleft : ∀ t, base t ++ (ofType (pathControls record newPath) t ++ left t) = ofType issued t) :
    ∃ start returned, queue.items.foldlM Reconciliation.add {} = .ok start ∧
      foldRecords load Reconciliation.add start oldPath.reverse = .ok returned ∧
      returned.Holds issued fun t => ofType (pathControls record newPath) t ++ left t := by
  have hmem (t : RequestType) (item : QueuedExecutionRequest)
      (hi : item ∈ ofType (pathControls record oldPath) t ++ queue.get t) : (t, item) ∈ issued := by
    rw [← mem_ofType, ← hqueue t]
    exact List.mem_append_right _ hi
  have hqueued : ∀ p ∈ queue.items, p ∈ issued := fun p hp =>
    hmem p.1 p.2 (List.mem_append_right _ (ExecutionRequestControlSet.mem_items.mp hp))
  have hreturned : ∀ p ∈ pathControls record oldPath, p ∈ issued := fun p hp =>
    hmem p.1 p.2 (List.mem_append_left _ (mem_ofType.mpr hp))
  obtain ⟨start, hstart, hs⟩ :=
    Reconciliation.foldlM_add_ok h Reconciliation.holds_empty (by simp) hqueued
  obtain ⟨returned, hret, hr⟩ := Reconciliation.foldlM_add_ok h hs
    (by simpa using fun t item hi => hqueued (t, item) (by simpa using hi)) hreturned
  refine ⟨start, returned, hstart, by rw [foldRecords_eq hold, hret], hr.known, fun t id item => ?_⟩
  have heq := List.append_cancel_left ((hqueue t).trans (hleft t).symm)
  rw [hr.pending, ← heq]
  simp [or_comm]

/-- If the queue holds what the old chain left over of the issued controls, and the new
chain consumed them in the order of issue as well, then reconciliation succeeds and the
queue holds what the new chain leaves over. `base` are the controls that both consumed. -/
theorem reconcile_ok (h : Issuance issued nextID)
    (hold : ∀ hash ∈ oldPath, load hash = .ok (some (record hash)))
    (hnew : ∀ hash ∈ newPath, load hash = .ok (some (record hash)))
    (hqueue : ∀ t, base t ++ (ofType (pathControls record oldPath) t ++ queue.get t) = ofType issued t)
    (hleft : ∀ t, base t ++ (ofType (pathControls record newPath) t ++ left t) = ofType issued t) :
    reconcileExecutionRequestQueue load queue oldPath newPath = .ok (queue.withControls (.ofFun left)) := by
  obtain ⟨start, returned, hstart, hreturned, hpending⟩ := returned_ok h hold hqueue hleft
  have hmem (t : RequestType) (item : QueuedExecutionRequest)
      (hi : item ∈ ofType (pathControls record newPath) t ++ left t) : (t, item) ∈ issued := by
    rw [← mem_ofType, ← hleft t]
    exact List.mem_append_right _ hi
  have hsorted (t : RequestType) :
      (ofType (pathControls record newPath) t ++ left t).Pairwise fun a b => a.id < b.id := by
    have := h.ofType_pairwise t
    rw [← hleft t] at this
    exact (List.pairwise_append.mp this).2.1
  have hnodup (t : RequestType) : (ofType (pathControls record newPath) t ++ left t).Nodup := by
    have := h.ofType_nodup t
    rw [← hleft t] at this
    exact (List.nodup_append.mp this).2.1
  obtain ⟨rest, used, hconsumed, hrest⟩ := Reconciliation.foldlM_consume_ok h hpending hmem
    (fun _ _ _ => Std.ExtTreeMap.getElem?_empty) (nodup_of_ofType fun t => (List.nodup_append.mp (hnodup t)).1)
    (fun p hp => List.mem_append_left _ (mem_ofType.mpr hp))
  have hfilter : (fun t => (ofType (pathControls record newPath) t ++ left t).filter
      fun item => (t, item) ∉ pathControls record newPath) = left := by
    funext t
    simpa only [mem_ofType] using filter_not_mem_of_append (hnodup t)
  rw [hfilter] at hrest
  have hvalues : (fun t => (rest.byType t).toList.map (·.2)) = left := by
    funext t
    exact hrest.values (List.pairwise_append.mp (hsorted t)).2.1
  have hvalid : validateExecutionRequestControlSet (.ofFun left) = .ok () := by
    refine h.validate_controls fun t => ?_
    rw [ExecutionRequestControlSet.get_ofFun, ← hleft t, ← List.append_assoc]
    exact List.sublist_append_right _ _
  unfold reconcileExecutionRequestQueue
  simp only [hstart, hreturned, foldRecords_eq hnew, hconsumed, hvalues, bind, Except.bind,
    ExecutionRequestQueue.withControls, hvalid]

end Reconcile

end Ethertest
