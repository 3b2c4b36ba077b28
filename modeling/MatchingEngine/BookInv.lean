import MatchingEngine.Sweep

/-!
# The shape every reachable book keeps

`Levels.WF s ls` is what one side of a book looks like after any sequence of operations:
the map is sorted by the side's comparator, no level is empty, every resting order sits
on its own side in the level keyed by its price, is indexed by its level, is active, and
no id rests twice. `OrderBook.Valid` adds the other side and `orderMap_`: its keys are
exactly the ids that rest.

Each mutation of a side gets one lemma (`WF.update_addOrder`, `WF.removeOrder`,
`WF.executeMatches`) that keeps `WF` and says how the ids move; the book-level lemmas
(`Valid.addOrder`, `Valid.cancelOrder`, `Valid.modifyOrder`, `Valid.matchOrder`) only
combine them with the bookkeeping of `orderMap_`.
-/

namespace MatchingEngine

namespace PriceLevel

/-- Unlinking an id keeps every remaining order indexed, ids being unique in the level. -/
theorem removeOrder_indexed {l : PriceLevel} {i : OrderId}
    (hidx : ∀ o ∈ l.orders, o.orderId ∈ l.orderMap) (hn : (l.orders.map (·.orderId)).Nodup) :
    ∀ o ∈ (l.removeOrder i).orders, o.orderId ∈ (l.removeOrder i).orderMap := by
  intro o ho
  by_cases hi : i ∈ l.orderMap
  · cases hfind : l.orders.find? (·.orderId == i) with
    | some a =>
      simp only [removeOrder, hi, if_true, hfind] at ho ⊢
      obtain ⟨a, l₁, l₂, -, ha, hsplit, herase⟩ :=
        List.exists_of_eraseP (List.mem_of_find?_eq_some hfind) (List.find?_some hfind)
      rw [herase] at ho
      rw [hsplit] at hn hidx
      simp only [List.map_append, List.map_cons] at hn
      have hne : o.orderId ≠ i := by
        rintro rfl
        have hn' := (List.nodup_middle.mp hn)
        simp only [List.nodup_cons, List.mem_append, List.mem_map] at hn'
        simp only [beq_iff_eq] at ha
        rcases List.mem_append.mp ho with h | h
        · exact hn'.1 (.inl ⟨o, h, ha.symm⟩)
        · exact hn'.1 (.inr ⟨o, h, ha.symm⟩)
      exact (List.mem_erase_of_ne hne).mpr
        (hidx o (by rcases List.mem_append.mp ho with h | h <;> simp [h]))
    | none =>
      simp only [removeOrder, hi, if_true, hfind] at ho ⊢
      have hne : o.orderId ≠ i := by
        intro h
        exact absurd (List.find?_eq_none.mp hfind o ho) (by simp [h])
      exact (List.mem_erase_of_ne hne).mpr (hidx o ho)
  · simp only [removeOrder, hi, if_false] at ho ⊢
    exact hidx o ho

end PriceLevel

namespace Levels

/-- The ids resting on a side, in iteration order. -/
def ids (ls : Levels) : List OrderId := (entries ls).map (·.2.orderId)

theorem level_ids_sublist {p : Price} {l : PriceLevel} :
    ∀ {ls : Levels}, (p, l) ∈ ls → List.Sublist (l.orders.map (·.orderId)) (ids ls)
  | [], h => by simp at h
  | e :: ls, h => by
    simp only [ids, entries_cons, List.map_append, List.map_map]
    rcases List.mem_cons.mp h with rfl | h
    · exact List.sublist_append_left _ _
    · exact (level_ids_sublist h).trans (List.sublist_append_right _ _)

/-- One side of a well-formed book. -/
structure WF (s : Side) (ls : Levels) : Prop where
  sorted : ls.Sorted s
  nonempty : ∀ e ∈ ls, e.2.orders ≠ []
  placed : ∀ x ∈ entries ls, x.2.side = s ∧ x.2.price = x.1
  indexed : ∀ e ∈ ls, ∀ o ∈ e.2.orders, o.orderId ∈ e.2.orderMap
  active : ∀ x ∈ entries ls, x.2.isActive
  nodup : (ids ls).Nodup

theorem WF.nil (s : Side) : WF s [] :=
  ⟨List.Pairwise.nil, by simp, by simp, by simp, by simp, List.nodup_nil⟩

/-- Appending an active order of the side at its price keeps the side well formed and
adds exactly its entry. -/
theorem WF.update_addOrder {s : Side} {ls : Levels} {o : Order} (hw : WF s ls)
    (hs : o.side = s) (ha : o.isActive) (hi : o.orderId ∉ ids ls) :
    WF s (update s o.price (·.addOrder o) ls) ∧
      ∃ A B, entries ls = A ++ B ∧ entries (update s o.price (·.addOrder o) ls) =
        A ++ (o.price, o) :: B := by
  obtain ⟨A, B, h1, h2, -, -⟩ := update_addOrder_entries s o.price o hw.sorted
  have hmem : ∀ x ∈ entries (update s o.price (·.addOrder o) ls),
      x = (o.price, o) ∨ x ∈ entries ls := fun x hx => by
    rw [h1, ← List.mem_cons]
    exact List.perm_middle.subset (h2 ▸ hx)
  refine ⟨⟨hw.sorted.update, ?_, ?_, ?_, ?_, ?_⟩, A, B, h1, h2⟩
  · intro e he
    rcases mem_update he with he | ⟨-, he | ⟨l, -, he⟩⟩
    · exact hw.nonempty e he
    all_goals simp [he]
  · intro x hx
    rcases hmem x hx with rfl | hx
    · exact ⟨hs, rfl⟩
    · exact hw.placed x hx
  · intro e he o' ho'
    rcases mem_update he with he | ⟨-, he | ⟨l, hl, he⟩⟩
    · exact hw.indexed e he o' ho'
    · simp [he, PriceLevel.empty, PriceLevel.addOrder] at ho' ⊢
      simp [ho']
    · rw [he] at ho' ⊢
      rw [PriceLevel.mem_addOrder_orderMap]
      simp only [PriceLevel.addOrder_orders, List.mem_append, List.mem_singleton] at ho'
      rcases ho' with ho' | rfl
      · exact .inr (hw.indexed _ hl o' ho')
      · exact .inl rfl
  · intro x hx
    rcases hmem x hx with rfl | hx
    · exact ha
    · exact hw.active x hx
  · have hn := hw.nodup
    simp only [ids, h1, List.map_append] at hn hi
    simp only [ids, h2, List.map_append, List.map_cons]
    exact List.nodup_middle.mpr (List.nodup_cons.mpr ⟨hi, hn⟩)

/-- Unlinking a resting order keeps the side well formed and deletes exactly its entry. -/
theorem WF.removeOrder {s : Side} {ls : Levels} {p : Price} {o : Order} (hw : WF s ls)
    (hx : (p, o) ∈ entries ls) :
    WF s (Levels.removeOrder p o.orderId ls) ∧
      ∃ A B, entries ls = A ++ (p, o) :: B ∧
        entries (Levels.removeOrder p o.orderId ls) = A ++ B := by
  obtain ⟨l, hl, ho⟩ := mem_entries.mp hx
  obtain ⟨A, B, h1, h2⟩ := removeOrder_entries_of_mem hw.sorted.nodup hw.nodup hl ho
    (hw.indexed _ hl o ho)
  have hmem : ∀ x ∈ entries (Levels.removeOrder p o.orderId ls), x ∈ entries ls := fun x hx' => by
    rw [h1, List.mem_append]
    exact (List.mem_append.mp (h2 ▸ hx')).imp_right (List.mem_cons_of_mem _)
  refine ⟨⟨hw.sorted.removeOrder, ?_, fun x hx => hw.placed x (hmem x hx), ?_,
    fun x hx => hw.active x (hmem x hx), ?_⟩, A, B, h1, h2⟩
  · intro e he
    rcases mem_removeOrder he with he | ⟨-, -, -, -, he⟩
    · exact hw.nonempty e he
    · exact he
  · intro e he
    rcases mem_removeOrder he with he | ⟨-, l', hl', he, -⟩
    · exact hw.indexed e he
    · rw [he]
      exact PriceLevel.removeOrder_indexed (hw.indexed _ hl')
        ((level_ids_sublist hl').nodup hw.nodup)
  · have hn := hw.nodup
    simp only [ids, h1, List.map_append, List.map_cons] at hn
    simp only [ids, h2, List.map_append]
    exact (List.nodup_middle.mp hn).of_cons

/-- The sweep keeps a side well formed. -/
theorem WF.executeMatches {s : Side} {ls : Levels} (hw : WF s ls) (symbol : Symbol)
    (o : Order) {m : List OrderId} (hm : m.Nodup) :
    WF s (OrderBook.executeMatches s symbol o ls m).levels := by
  refine ⟨hw.sorted.sublist (OrderBook.executeMatches_keys o ls m), ?_, ?_, ?_, ?_, ?_⟩
  · intro e he hnil
    obtain ⟨l, hl, -, -, -, h⟩ := OrderBook.mem_executeMatches_levels he
    exact hw.nonempty _ hl (h hnil)
  · intro x' hx'
    obtain ⟨x, hx, h1, h2⟩ := OrderBook.mem_executeMatches_entries hm hx'
    rcases h2 with h2 | ⟨q, h2, -⟩ <;> simpa [h1, h2] using hw.placed x hx
  · intro e he o' ho'
    obtain ⟨l, hl, h1, -, h2, -⟩ := OrderBook.mem_executeMatches_levels he
    obtain ⟨o, ho, hid⟩ := List.mem_map.mp (h2.subset (List.mem_map_of_mem _ ho'))
    rw [h1, ← hid]
    exact hw.indexed _ hl o ho
  · intro x' hx'
    obtain ⟨x, hx, -, h2⟩ := OrderBook.mem_executeMatches_entries hm hx'
    rcases h2 with h2 | ⟨q, h2, h3⟩
    · exact h2 ▸ hw.active x hx
    · exact h2 ▸ Order.isActive_fill (hw.active x hx) h3
  · obtain ⟨k, -, h⟩ := @OrderBook.executeMatches_ids symbol s o ls _ hm
    rw [ids, h]
    exact (List.drop_sublist _ _).nodup hw.nodup

end Levels

namespace OrderBook

open Levels (ids)

/-- The sides of `{ x with orderMap := m }` (the form every write-back of `orderMap_` takes). -/
@[simp] theorem levels_mk (symbol : Symbol) (x : OrderBook) (m : List OrderId) (s : Side) :
    (OrderBook.mk symbol x.bids x.asks m).levels s = x.levels s := by
  cases s <;> rfl

@[simp] theorem levels_addOrder_opposite (b : OrderBook) (o : Order) :
    (b.addOrder o).levels o.side.opposite = b.levels o.side.opposite := by
  simp [OrderBook.addOrder]

theorem restingIds_eq (b : OrderBook) :
    b.restingIds = ids (b.levels .buy) ++ ids (b.levels .sell) := by
  simp [restingIds, entries, ids, levels]

/-- The resting ids are those of either side, taken in any order. -/
theorem restingIds_perm (b : OrderBook) (s : Side) :
    List.Perm b.restingIds (ids (b.levels s) ++ ids (b.levels s.opposite)) := by
  rw [restingIds_eq]
  cases s
  · exact List.Perm.refl _
  · exact List.perm_append_comm

theorem mem_entries_iff {b : OrderBook} {x : Price × Order} :
    x ∈ b.entries ↔ ∃ s, x ∈ Levels.entries (b.levels s) := by
  simp only [entries, List.mem_append]
  constructor
  · rintro (h | h)
    · exact ⟨.buy, h⟩
    · exact ⟨.sell, h⟩
  · rintro ⟨s, h⟩
    cases s
    · exact .inl h
    · exact .inr h

/-- The shape every reachable book keeps. -/
structure Valid (b : OrderBook) : Prop where
  wf : ∀ s, (b.levels s).WF s
  nodup : b.restingIds.Nodup
  orderMap_nodup : b.orderMap.Nodup
  mem_orderMap : ∀ i, i ∈ b.orderMap ↔ i ∈ b.restingIds

theorem Valid.empty (symbol : Symbol) : (empty symbol).Valid :=
  ⟨fun s => by simpa using Levels.WF.nil s, List.nodup_nil, List.nodup_nil,
    fun i => by simp [restingIds, entries, OrderBook.empty]⟩

/-- A resting order on side `s`, read off the book: it sits in the level keyed by its
price on its own side. -/
theorem Valid.mem_entries {b : OrderBook} (hv : b.Valid) {x : Price × Order}
    (hx : x ∈ b.entries) : x.1 = x.2.price ∧ x ∈ Levels.entries (b.levels x.2.side) := by
  obtain ⟨s, hs⟩ := mem_entries_iff.mp hx
  obtain ⟨h1, h2⟩ := (hv.wf s).placed x hs
  exact ⟨h2.symm, h1 ▸ hs⟩

/-- Dereferencing an indexed id finds the order that rests with it. -/
theorem Valid.findResting {b : OrderBook} (hv : b.Valid) {i : OrderId} (hi : i ∈ b.orderMap) :
    ∃ o, b.findResting i = some o ∧ o.orderId = i ∧
      (o.price, o) ∈ Levels.entries (b.levels o.side) := by
  have hr := (hv.mem_orderMap i).mp hi
  obtain ⟨x, hx, rfl⟩ := List.mem_map.mp hr
  cases hf : b.entries.find? (·.2.orderId == x.2.orderId) with
  | none => exact absurd (List.find?_eq_none.mp hf x hx) (by simp)
  | some y =>
    have hy := List.mem_of_find?_eq_some hf
    have hid : y.2.orderId = x.2.orderId := by simpa using List.find?_some hf
    obtain ⟨h1, h2⟩ := hv.mem_entries hy
    refine ⟨y.2, by simp [OrderBook.findResting, hf], hid, ?_⟩
    rw [← h1]
    exact h2

theorem not_mem_ids_of_not_mem_restingIds {b : OrderBook} {i : OrderId} (s : Side)
    (hi : i ∉ b.restingIds) : i ∉ ids (b.levels s) :=
  fun h => hi ((restingIds_perm b s).mem_iff.mpr (List.mem_append_left _ h))

/-- A book whose side `s` is replaced by a well-formed `ls` and whose index by `m` is valid
when `m` holds, once each, exactly the ids that then rest. -/
theorem Valid.write {b : OrderBook} (hv : b.Valid) {s : Side} {ls : Levels}
    {m R : List OrderId} (hw : ls.WF s) (hR : List.Perm (ids ls ++ ids (b.levels s.opposite)) R)
    (hn : R.Nodup) (hm : m.Nodup) (hmem : ∀ i, i ∈ m ↔ i ∈ R) :
    ({ b.setLevels s ls with orderMap := m } : OrderBook).Valid ∧
      List.Perm ({ b.setLevels s ls with orderMap := m } : OrderBook).restingIds R := by
  have hperm := (restingIds_perm ({ b.setLevels s ls with orderMap := m } : OrderBook) s).trans
    (by simpa using hR)
  refine ⟨⟨fun t => ?_, hperm.nodup_iff.mpr hn, hm, fun i => by rw [hperm.mem_iff, hmem]⟩, hperm⟩
  by_cases ht : t = s
  · subst ht
    simpa using hw
  · simpa [levels_setLevels_of_ne _ ht] using hv.wf t

/-- Resting a fresh active order keeps the book valid and adds exactly its id. -/
theorem Valid.addOrder {b : OrderBook} (hv : b.Valid) {o : Order}
    (hi : o.orderId ∉ b.restingIds) (ha : o.isActive) :
    (b.addOrder o).Valid ∧ List.Perm (b.addOrder o).restingIds (o.orderId :: b.restingIds) := by
  obtain ⟨hw, A, B, h1, h2⟩ :=
    (hv.wf o.side).update_addOrder rfl ha (not_mem_ids_of_not_mem_restingIds o.side hi)
  have hR : List.Perm (ids ((b.levels o.side).update o.side o.price (·.addOrder o)) ++
      ids (b.levels o.side.opposite)) (o.orderId :: b.restingIds) := by
    refine List.Perm.trans ?_ ((restingIds_perm b o.side).symm.cons _)
    simp only [ids, h1, h2, List.map_append, List.map_cons, List.append_assoc, List.cons_append]
    exact List.perm_middle
  exact hv.write hw hR (List.nodup_cons.mpr ⟨hi, hv.nodup⟩) hv.orderMap_nodup.insert
    (fun i => by simp [List.mem_insert_iff, hv.mem_orderMap])

/-- The sweep keeps the book valid; the ids of the swept side lose a prefix, and no other
id rests or leaves. -/
theorem Valid.sweep {b : OrderBook} (hv : b.Valid) (o : Order) :
    (b.sweep o).1.Valid ∧ ∃ k, ids ((b.sweep o).1.levels o.side.opposite) =
      (ids (b.levels o.side.opposite)).drop k ∧
      (b.sweep o).1.levels o.side = b.levels o.side := by
  obtain ⟨k, h1, h2⟩ := @executeMatches_ids b.symbol o.side.opposite o
    (b.levels o.side.opposite) _ hv.orderMap_nodup
  have hw := (hv.wf o.side.opposite).executeMatches b.symbol o hv.orderMap_nodup
  have hside : (b.sweep o).1.levels o.side = b.levels o.side := by
    simp [OrderBook.sweep, levels_setLevels_of_ne _ (Side.opposite_ne o.side).symm]
  refine ⟨?_, k, by simpa [OrderBook.sweep, ids] using h2, hside⟩
  have hn : (ids (b.levels o.side.opposite) ++ ids (b.levels o.side)).Nodup := by
    simpa using (restingIds_perm b o.side.opposite).nodup_iff.mp hv.nodup
  rw [← List.take_append_drop k (ids (b.levels o.side.opposite)), List.append_assoc] at hn
  have hn' := List.nodup_append.mp hn
  refine (hv.write hw (by rw [ids, h2, Side.opposite_opposite]; rfl) hn'.2.1
    (by simpa [h1] using hv.orderMap_nodup.filter _) fun i => ?_).1
  simp only [h1, List.mem_filter, decide_eq_true_eq, hv.mem_orderMap,
    (restingIds_perm b o.side.opposite).mem_iff, List.mem_append, Side.opposite_opposite]
  constructor
  · rintro ⟨h | h, hnt⟩
    · rw [← List.take_append_drop k (ids (b.levels o.side.opposite))] at h
      rcases List.mem_append.mp h with h | h
      · exact absurd h hnt
      · exact .inl h
    · exact .inr h
  · rintro (h | h)
    · exact ⟨.inl (List.mem_of_mem_drop h), fun ht => hn'.2.2 ht (List.mem_append_left _ h)⟩
    · exact ⟨.inr h, fun ht => hn'.2.2 ht (List.mem_append_right _ h)⟩

theorem cancelOrder_of_not_mem {b : OrderBook} {i : OrderId} (hi : i ∉ b.orderMap) :
    b.cancelOrder i = (b, false) := by
  simp [OrderBook.cancelOrder, hi]

theorem cancelOrder_of_findResting {b : OrderBook} {i : OrderId} {o : Order}
    (hi : i ∈ b.orderMap) (hf : b.findResting i = some o) :
    b.cancelOrder i = ({ b.setLevels o.side ((b.levels o.side).removeOrder o.price i) with
      orderMap := b.orderMap.erase i }, true) := by
  simp [OrderBook.cancelOrder, hi, hf]

theorem modifyOrder_of_not_mem {b : OrderBook} {i : OrderId} (hi : i ∉ b.orderMap)
    (p : Price) (q : Quantity) : b.modifyOrder i p q = (b, false) := by
  simp [OrderBook.modifyOrder, hi]

theorem modifyOrder_of_findResting {b : OrderBook} {i : OrderId} {o : Order}
    (hi : i ∈ b.orderMap) (hf : b.findResting i = some o) (p : Price) (q : Quantity) :
    b.modifyOrder i p q = ({ b.setLevels o.side (((b.levels o.side).removeOrder o.price i).update
      o.side p (·.addOrder (o.repost p q))) with orderMap := b.orderMap }, true) := by
  simp only [OrderBook.modifyOrder, hi, if_true, hf, Prod.mk.injEq, and_true]
  cases o.side <;> rfl

/-- `cancelOrder` answers whether the id was in `orderMap_`. -/
theorem cancelOrder_snd (b : OrderBook) (i : OrderId) : (b.cancelOrder i).2 = decide (i ∈ b.orderMap) := by
  unfold OrderBook.cancelOrder
  split
  · next hi => split <;> simp [hi]
  · next hi => simp [hi]

/-- `modifyOrder` answers whether the id was in `orderMap_`. -/
theorem modifyOrder_snd (b : OrderBook) (i : OrderId) (p : Price) (q : Quantity) :
    (b.modifyOrder i p q).2 = decide (i ∈ b.orderMap) := by
  unfold OrderBook.modifyOrder
  split
  · next hi => split <;> simp [hi]
  · next hi => simp [hi]

/-- Cancelling keeps the book valid and unlinks exactly the id. -/
theorem Valid.cancelOrder {b : OrderBook} (hv : b.Valid) (i : OrderId) :
    (b.cancelOrder i).1.Valid ∧
      List.Perm (b.cancelOrder i).1.restingIds (b.restingIds.erase i) := by
  by_cases hi : i ∈ b.orderMap
  · obtain ⟨o, hf, rfl, hx⟩ := hv.findResting hi
    obtain ⟨hw, A, B, h1, h2⟩ := (hv.wf o.side).removeOrder hx
    have hA : o.orderId ∉ A.map (·.2.orderId) := by
      have hn := hv.wf o.side |>.nodup
      simp only [ids, h1, List.map_append, List.map_cons] at hn
      exact (List.nodup_middle.mp hn |> List.nodup_cons.mp).1 ∘ List.mem_append_left _
    have hR : List.Perm (ids ((b.levels o.side).removeOrder o.price o.orderId) ++
        ids (b.levels o.side.opposite)) (b.restingIds.erase o.orderId) := by
      refine List.Perm.trans ?_ ((restingIds_perm b o.side).erase _).symm
      simp only [ids, h1, h2, List.map_append, List.map_cons, List.append_assoc, List.cons_append]
      rw [List.erase_append_right _ hA, List.erase_cons_head]
    rw [cancelOrder_of_findResting hi hf]
    exact hv.write hw hR (hv.nodup.erase _) (hv.orderMap_nodup.erase _) fun j => by
      rw [hv.orderMap_nodup.mem_erase_iff, hv.nodup.mem_erase_iff, hv.mem_orderMap]
  · have hr : i ∉ b.restingIds := fun h => hi ((hv.mem_orderMap i).mpr h)
    rw [cancelOrder_of_not_mem hi, List.erase_of_not_mem hr]
    exact ⟨hv, List.Perm.refl _⟩

/-- Once a resting order is unlinked from its side, its id is in no level of the book. -/
theorem Valid.not_mem_unlinked {b : OrderBook} (hv : b.Valid) {o : Order}
    (hi : o.orderId ∈ b.orderMap) (hf : b.findResting o.orderId = some o) :
    ∀ t, ∀ e ∈ (b.setLevels o.side ((b.levels o.side).removeOrder o.price o.orderId)).levels t,
      o.orderId ∉ e.2.orders.map (·.orderId) := by
  obtain ⟨-, hperm⟩ := hv.cancelOrder o.orderId
  rw [cancelOrder_of_findResting hi hf] at hperm
  intro t e he hmem
  have hr := (restingIds_perm _ t).mem_iff.mpr (List.mem_append_left _
    ((Levels.level_ids_sublist (Prod.mk.eta (p := e) ▸ he)).subset hmem))
  exact hv.nodup.not_mem_erase (hperm.mem_iff.mp (by simpa using hr))

/-- Modifying keeps the book valid and the same ids resting. -/
theorem Valid.modifyOrder {b : OrderBook} (hv : b.Valid) (i : OrderId) (p : Price)
    (q : Quantity) :
    (b.modifyOrder i p q).1.Valid ∧ List.Perm (b.modifyOrder i p q).1.restingIds b.restingIds := by
  by_cases hi : i ∈ b.orderMap
  · obtain ⟨o, hf, rfl, hx⟩ := hv.findResting hi
    obtain ⟨hw, A, B, h1, h2⟩ := (hv.wf o.side).removeOrder hx
    have hn : (A.map (·.2.orderId) ++ o.orderId :: B.map (·.2.orderId)).Nodup := by
      simpa only [ids, h1, List.map_append, List.map_cons] using (hv.wf o.side).nodup
    obtain ⟨hw', A', B', h3, h4⟩ := hw.update_addOrder (o := o.repost p q) rfl rfl
      (by simpa only [ids, h2, List.map_append] using
        (List.nodup_middle.mp hn |> List.nodup_cons.mp).1)
    rw [Order.repost_price] at h4
    have hR : List.Perm (ids ((((b.levels o.side).removeOrder o.price o.orderId).update o.side p
        (·.addOrder (o.repost p q)))) ++ ids (b.levels o.side.opposite)) b.restingIds := by
      refine List.Perm.trans (List.Perm.append_right _ ?_) (restingIds_perm b o.side).symm
      have h5 := congrArg (List.map (·.2.orderId)) (h3.symm.trans h2)
      simp only [ids, h1, h4, List.map_append, List.map_cons] at h5 ⊢
      refine List.perm_middle.trans (List.Perm.trans ?_ List.perm_middle.symm)
      simp only [Order.repost_orderId, h5, List.Perm.refl]
    rw [modifyOrder_of_findResting hi hf]
    exact hv.write hw' hR hv.nodup hv.orderMap_nodup hv.mem_orderMap
  · rw [modifyOrder_of_not_mem hi]
    exact ⟨hv, List.Perm.refl _⟩

/-- Any field a fill leaves alone is the same on the taker after `sweep`. -/
theorem sweep_taker {α : Type} (f : Order → α) (hf : ∀ o q, f (o.fill q) = f o)
    (b : OrderBook) (o : Order) : f (b.sweep o).2.1 = f o :=
  executeMatches_taker f hf _ _ _

/-- What `matchOrder` can do: leave the book as it is with no trades (a rejected FOK), keep
what the sweep left, or also rest the taker's residual (a `LIMIT` or stop order that is still
active and has something left). The taker handed back keeps what the sweep left of it. -/
theorem matchOrder_cases (b : OrderBook) (o : Order) :
    ((b.matchOrder o).book = b ∧ (b.matchOrder o).trades = [] ∧
      (b.matchOrder o).order.remainingQuantity = o.remainingQuantity) ∨
    ((b.matchOrder o).book = (b.sweep o).1 ∧ (b.matchOrder o).trades = (b.sweep o).2.2 ∧
      (b.matchOrder o).order.remainingQuantity = (b.sweep o).2.1.remainingQuantity) ∨
    ((b.matchOrder o).book = (b.sweep o).1.addOrder (b.sweep o).2.1 ∧
      (b.matchOrder o).trades = (b.sweep o).2.2 ∧
      0 < (b.sweep o).2.1.remainingQuantity ∧ (b.sweep o).2.1.isActive ∧
      (o.type = .limit ∨ o.type = .stopLoss ∨ o.type = .stopLimit)) := by
  unfold OrderBook.matchOrder matchMarketOrder matchIOCOrder matchFOKOrder matchLimitOrder
  generalize b.sweep o = r
  obtain ⟨b', o', ts⟩ := r
  cases ht : o.type <;> dsimp only
  case fok =>
    split_ifs
    · exact .inr (.inl ⟨rfl, rfl, rfl⟩)
    · exact .inl ⟨rfl, rfl, rfl⟩
  case market | ioc => exact .inr (.inl ⟨rfl, rfl, by split_ifs <;> rfl⟩)
  -- `LIMIT` and the stop types: the residual rests only when active and non-zero
  all_goals
    split_ifs with h
    · exact .inr (.inr ⟨rfl, rfl, h.1, h.2, by decide⟩)
    · exact .inr (.inl ⟨rfl, rfl, rfl⟩)

/-- A `LIMIT` or stop order comes back from `matchOrder` as the sweep left it, whether or not
it then rests. -/
theorem matchOrder_order_of_rests (b : OrderBook) {o : Order}
    (ht : o.type = .limit ∨ o.type = .stopLoss ∨ o.type = .stopLimit) :
    (b.matchOrder o).order = (b.sweep o).2.1 := by
  unfold OrderBook.matchOrder matchLimitOrder
  rcases ht with ht | ht | ht <;> rw [ht] <;> dsimp only <;> split <;> rfl

/-- After a sweep the resting ids are some of those before. -/
theorem Valid.mem_sweep_restingIds {b : OrderBook} (hv : b.Valid) (o : Order) {i : OrderId}
    (h : i ∈ (b.sweep o).1.restingIds) : i ∈ b.restingIds := by
  obtain ⟨-, k, h1, h2⟩ := hv.sweep o
  rw [((b.sweep o).1.restingIds_perm o.side.opposite).mem_iff, h1, List.mem_append,
    Side.opposite_opposite, h2] at h
  rw [(restingIds_perm b o.side.opposite).mem_iff, Side.opposite_opposite, List.mem_append]
  exact h.imp_left List.mem_of_mem_drop

/-- Matching a taker whose id does not rest keeps the book valid; afterwards only ids that
rested before, and the taker's, rest. -/
theorem Valid.matchOrder {b : OrderBook} (hv : b.Valid) {o : Order}
    (hi : o.orderId ∉ b.restingIds) :
    (b.matchOrder o).book.Valid ∧
      ∀ i ∈ (b.matchOrder o).book.restingIds, i ∈ b.restingIds ∨ i = o.orderId := by
  have hs := (hv.sweep o).1
  have hid := sweep_taker Order.orderId (fun _ _ => rfl) b o
  rcases matchOrder_cases b o with ⟨h, -⟩ | ⟨h, -⟩ | ⟨h, -, -, ha, -⟩ <;> rw [h]
  · exact ⟨hv, fun i h => .inl h⟩
  · exact ⟨hs, fun i h => .inl (hv.mem_sweep_restingIds o h)⟩
  · have hfresh : (b.sweep o).2.1.orderId ∉ (b.sweep o).1.restingIds :=
      fun h => hi (hid ▸ hv.mem_sweep_restingIds o h)
    obtain ⟨hv', hperm⟩ := hs.addOrder hfresh ha
    refine ⟨hv', fun i h => ?_⟩
    rcases List.mem_cons.mp (hperm.mem_iff.mp h) with rfl | h
    · exact .inr hid
    · exact .inl (hv.mem_sweep_restingIds o h)

end OrderBook

end MatchingEngine
