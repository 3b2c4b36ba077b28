import MatchingEngine.SweepSpec

/-!
# Each level's id index — the add-then-cancel round trip and the keys the sweep leaves behind

`PriceLevel::orderMap_` maps an order id to the order's node in `orders_`, so that
`removeOrder` unlinks it in constant time. `addOrder` and `removeOrder` keep the two in step,
and so resting an order and cancelling it again gives the book back exactly: the aggregate
returns by wrapping subtraction, the level's list and index lose what they gained, and a
level the order had created is erased again (`cancelOrder_addOrder`). That needs the id to be
new to `orderMap_` and to every level's index.

`IndexExact` says a level's index has as its keys exactly the ids of its list. Resting a new
order, cancelling and modifying keep it (`indexExact_kept`). `executeMatches` is the one place
that unlinks an order from a level without touching the level's index: an order the sweep
fills leaves `orders_` and the book's `orderMap_`, but its key stays in the level's
`orderMap_`, pointing at an erased node (`sweep_leaves_stale_key`). The engine never hands
that id out again, so on every book a run reaches the round trip holds for every id the book
does not hold (`run_addOrder_cancelOrder`, in `EngineInv.lean`).
-/

namespace MatchingEngine

namespace PriceLevel

/-- Appending an order whose id the level neither indexes nor holds, then removing that id,
gives the level back. -/
theorem removeOrder_addOrder {l : PriceLevel} {o : Order} (hm : o.orderId ∉ l.orderMap)
    (ho : ∀ r ∈ l.orders, r.orderId ≠ o.orderId) : (l.addOrder o).removeOrder o.orderId = l := by
  have hfind : (l.orders ++ [o]).find? (·.orderId == o.orderId) = some o := by
    rw [List.find?_append, List.find?_eq_none.mpr (by simpa using ho)]
    simp
  have herase : (l.orders ++ [o]).eraseP (·.orderId == o.orderId) = l.orders := by
    rw [List.eraseP_append_right _ (by simpa using ho)]
    simp
  simp [removeOrder, addOrder, hfind, herase, List.insert_of_not_mem hm]

end PriceLevel

namespace Levels

/-- A level created for one order is empty again once that order is removed. -/
theorem removeOrder_empty_addOrder (o : Order) :
    ((PriceLevel.empty.addOrder o).removeOrder o.orderId).orders = [] := by
  rw [PriceLevel.removeOrder_addOrder (by simp [PriceLevel.empty]) (by simp [PriceLevel.empty])]
  rfl

/-- On a side whose levels are not empty and none of which knows the id, resting the order and
removing its id again gives the side back: its level, or the level it created, is restored. -/
theorem removeOrder_update_addOrder {s : Side} {o : Order} :
    ∀ {ls : Levels}, (∀ e ∈ ls, e.2.orders ≠ [] ∧ o.orderId ∉ e.2.orderMap ∧
        ∀ r ∈ e.2.orders, r.orderId ≠ o.orderId) →
      (ls.update s o.price (·.addOrder o)).removeOrder o.price o.orderId = ls
  | [], _ => by simp [update, removeOrder, removeOrder_empty_addOrder]
  | (q, l) :: ls, h => by
    obtain ⟨hne, hm, ho⟩ := h (q, l) (List.mem_cons_self _ _)
    simp only [update]
    split_ifs with hq hb
    · subst hq
      simp [removeOrder, PriceLevel.removeOrder_addOrder hm ho, hne]
    · simp [removeOrder, removeOrder_empty_addOrder]
    · simp [removeOrder, hq,
        removeOrder_update_addOrder fun e he => h e (List.mem_cons_of_mem _ he)]

end Levels

namespace OrderBook

/-- The search of `orderMap_[id]` finds an entry that is the only one with its id. -/
theorem find?_of_unique {l : List (Price × Order)} {x : Price × Order} (hx : x ∈ l)
    (hu : ∀ y ∈ l, y.2.orderId = x.2.orderId → y = x) :
    l.find? (·.2.orderId == x.2.orderId) = some x := by
  obtain ⟨y, hy⟩ : ∃ y, l.find? (·.2.orderId == x.2.orderId) = some y := by
    cases h : l.find? (·.2.orderId == x.2.orderId) with
    | none => exact absurd (List.find?_eq_none.mp h x hx) (by simp)
    | some y => exact ⟨y, rfl⟩
  rw [hy, hu y (List.mem_of_find?_eq_some hy) (by simpa using List.find?_some hy)]

variable {b : OrderBook}

/-- The round trip on a valid book, for an id the book holds nowhere. -/
theorem cancelOrder_addOrder_of_fresh (hv : b.Valid) {o : Order} (hm : o.orderId ∉ b.orderMap)
    (hl : ∀ s, ∀ e ∈ b.levels s, o.orderId ∉ e.2.orderMap) :
    (b.addOrder o).cancelOrder o.orderId = (b, true) := by
  have hne : ∀ {s} {x : Price × Order}, x ∈ Levels.entries (b.levels s) →
      x.2.orderId ≠ o.orderId := hv.orderId_ne_of_not_mem hm
  -- the order is the only one with its id once it rests
  have hfind : (b.addOrder o).findResting o.orderId = some o := by
    have hx : (o.price, o) ∈ (b.addOrder o).entries := by
      obtain ⟨A, B, -, h2, -, -⟩ :=
        Levels.update_addOrder_entries o.side o.price o (hv.wf o.side).sorted
      refine mem_entries_iff.mpr ⟨o.side, ?_⟩
      simp [OrderBook.addOrder, h2]
    have hu : ∀ y ∈ (b.addOrder o).entries, y.2.orderId = o.orderId → y = (o.price, o) := by
      intro y hy hid
      obtain ⟨s, hs⟩ := mem_entries_iff.mp hy
      rcases hv.mem_addOrder_entries o hs with h | ⟨-, rfl⟩
      · exact absurd hid (hne h)
      · rfl
    simp [OrderBook.findResting, find?_of_unique hx hu]
  have hlev : ∀ e ∈ b.levels o.side, e.2.orders ≠ [] ∧ o.orderId ∉ e.2.orderMap ∧
      ∀ r ∈ e.2.orders, r.orderId ≠ o.orderId :=
    fun e he => ⟨(hv.wf _).nonempty e he, hl _ e he,
      fun r hr => hne (Levels.mem_entries.mpr ⟨e.2, by simpa using he, hr⟩) (x := (e.1, r))⟩
  rw [cancelOrder_of_findResting (by simp [OrderBook.addOrder, List.mem_insert_iff]) hfind]
  simp only [OrderBook.addOrder, levels_mk, levels_setLevels,
    Levels.removeOrder_update_addOrder hlev, List.insert_of_not_mem hm, List.erase_cons_head]
  cases b
  cases o.side <;> rfl

/-- Resting an order whose id is new to `orderMap_` and to every level's index, and then
cancelling that id, answers true and gives back the book: the same levels, each with the same
aggregate, list and index, and the same `orderMap_`. -/
theorem cancelOrder_addOrder (hv : b.Valid) {o : Order} (hm : o.orderId ∉ b.orderMap)
    (hl : ∀ s, ∀ e ∈ b.levels s, o.orderId ∉ e.2.orderMap) :
    (b.addOrder o).cancelOrder o.orderId = (b, true) :=
  cancelOrder_addOrder_of_fresh hv hm hl

/-- A sell of 2 at 10 joining the two sells of `twoAsks`, and cancelled again. -/
def sellTwo : Order := Order.new 3 "AAA" .sell .limit 10 2

theorem cancelOrder_addOrder_two_asks :
    twoAsks.Valid ∧ sellTwo.orderId ∉ twoAsks.orderMap ∧
      (∀ s, ∀ e ∈ twoAsks.levels s, sellTwo.orderId ∉ e.2.orderMap) ∧
      (twoAsks.addOrder sellTwo).cancelOrder sellTwo.orderId = (twoAsks, true) :=
  have hl : ∀ s, ∀ e ∈ twoAsks.levels s, sellTwo.orderId ∉ e.2.orderMap := fun s => by
    cases s <;> decide
  ⟨twoAsks_valid, by decide, hl, cancelOrder_addOrder twoAsks_valid (by decide) hl⟩

/-! ## Exact indices -/

end OrderBook

namespace PriceLevel

/-- The level's id index has as its keys exactly the ids of the orders in its list. -/
def IndexExact (l : PriceLevel) : Prop := List.Perm l.orderMap (l.orders.map (·.orderId))

instance (l : PriceLevel) : Decidable l.IndexExact := inferInstanceAs (Decidable (List.Perm _ _))

theorem IndexExact.addOrder {l : PriceLevel} (h : l.IndexExact) {o : Order}
    (hi : o.orderId ∉ l.orderMap) : (l.addOrder o).IndexExact := by
  simp only [IndexExact, PriceLevel.addOrder, List.insert_of_not_mem hi, List.map_append,
    List.map_cons, List.map_nil]
  exact (h.cons _).trans (List.perm_append_singleton _ _).symm

/-- Unlinking an order drops its key; a key with no order behind it is dropped alone. -/
theorem IndexExact.removeOrder {l : PriceLevel} (h : l.IndexExact) (i : OrderId) :
    (l.removeOrder i).IndexExact := by
  have herase : (l.orders.eraseP (·.orderId == i)).map (·.orderId) =
      (l.orders.map (·.orderId)).erase i := by
    rw [List.erase_eq_eraseP, List.eraseP_map]
    congr 2
    funext r
    simp [eq_comm]
  unfold PriceLevel.removeOrder
  split
  · split
    · show List.Perm _ _
      rw [herase]
      exact h.erase i
    · next hf =>
      have hni : i ∉ l.orders.map (·.orderId) := by
        simpa using fun r hr => List.find?_eq_none.mp hf r hr
      exact (h.erase i).trans (by rw [List.erase_of_not_mem hni])
  · exact h

end PriceLevel

namespace Levels

/-- Every level's index is exact. -/
def IndexExact (ls : Levels) : Prop := ∀ e ∈ ls, e.2.IndexExact

instance : DecidablePred IndexExact := fun ls => inferInstanceAs (Decidable (∀ e ∈ ls, _))

theorem IndexExact.update_addOrder {s : Side} {p : Price} {o : Order} {ls : Levels}
    (h : IndexExact ls) (hi : ∀ e ∈ ls, o.orderId ∉ e.2.orderMap) :
    IndexExact (ls.update s p (·.addOrder o)) := by
  intro e he
  rcases mem_update he with he | ⟨-, he | ⟨l, hl, he⟩⟩
  · exact h e he
  · rw [he]
    exact PriceLevel.IndexExact.addOrder (l := .empty) (List.Perm.refl _)
      (by simp [PriceLevel.empty])
  · rw [he]
    exact (h _ hl).addOrder (hi _ hl)

theorem IndexExact.removeOrder {ls : Levels} (h : IndexExact ls) (p : Price) (i : OrderId) :
    IndexExact (ls.removeOrder p i) := by
  intro e he
  rcases mem_removeOrder he with he | ⟨-, l, hl, he, -⟩
  · exact h e he
  · exact he ▸ (h _ hl).removeOrder i

/-- With exact indices, an id that rests nowhere on the side is no key either. -/
theorem IndexExact.not_mem_orderMap {ls : Levels} (h : IndexExact ls) {i : OrderId}
    (hi : i ∉ ids ls) : ∀ e ∈ ls, i ∉ e.2.orderMap := fun e he hm =>
  hi ((level_ids_sublist (Prod.mk.eta (p := e) ▸ he)).subset ((h e he).mem_iff.mp hm))

end Levels

namespace OrderBook

variable {b : OrderBook}

/-- Every level of the book has an exact index. -/
def IndexExact (b : OrderBook) : Prop := ∀ s, Levels.IndexExact (b.levels s)

/-- Writing back one side with exact indices keeps the book's indices exact. -/
theorem IndexExact.write (hx : b.IndexExact) {s : Side} {ls : Levels} (h : ls.IndexExact)
    (m : List OrderId) : ({ b.setLevels s ls with orderMap := m } : OrderBook).IndexExact := by
  intro t
  by_cases hs : t = s
  · subst hs
    simpa using h
  · simpa [levels_setLevels_of_ne _ hs] using hx t

/-- Resting a new order, cancelling and modifying keep every level's index exact; only the
sweep leaves keys behind (`sweep_leaves_stale_key`). -/
theorem indexExact_kept (hv : b.Valid) (hx : b.IndexExact) :
    (∀ o : Order, o.orderId ∉ b.restingIds → (b.addOrder o).IndexExact) ∧
      (∀ i, (b.cancelOrder i).1.IndexExact) ∧ (∀ i p q, (b.modifyOrder i p q).1.IndexExact) := by
  refine ⟨fun o hi => ?_, fun i => ?_, fun i p q => ?_⟩
  · exact hx.write ((hx _).update_addOrder
      ((hx _).not_mem_orderMap (not_mem_ids_of_not_mem_restingIds _ hi))) _
  · by_cases hi : i ∈ b.orderMap
    · obtain ⟨o, hf, rfl, -⟩ := hv.findResting hi
      rw [cancelOrder_of_findResting hi hf]
      exact hx.write ((hx _).removeOrder o.price o.orderId) _
    · rw [cancelOrder_of_not_mem hi]
      exact hx
  · by_cases hi : i ∈ b.orderMap
    · obtain ⟨o, hf, rfl, -⟩ := hv.findResting hi
      rw [modifyOrder_of_findResting hi hf]
      -- the reposted id is no key of the side it was unlinked from
      have hr := (hx o.side).removeOrder o.price o.orderId
      have hout := hv.not_mem_unlinked hi hf o.side
      rw [levels_setLevels] at hout
      exact hx.write (hr.update_addOrder (o := o.repost p q)
        fun e he hm => hout e he ((hr e he).mem_iff.mp hm)) _
    · rw [modifyOrder_of_not_mem hi]
      exact hx

theorem indexExact_kept_two_asks :
    twoAsks.Valid ∧ twoAsks.IndexExact ∧
      (∀ o : Order, o.orderId ∉ twoAsks.restingIds → (twoAsks.addOrder o).IndexExact) ∧
      (∀ i, (twoAsks.cancelOrder i).1.IndexExact) ∧
      (∀ i p q, (twoAsks.modifyOrder i p q).1.IndexExact) :=
  have hx : twoAsks.IndexExact := fun s => by cases s <;> decide
  ⟨twoAsks_valid, hx, indexExact_kept twoAsks_valid hx⟩

/-- A sweep leaves the key of an order it fills in the level's index: with sells of 5 at 10
(ids 1 and 2) and a buy limit for 5 at 10 taking the first, the level holds only order 2 but
still indexes 1. -/
def staleIndex : OrderBook :=
  (twoAsks.matchOrder (Order.new 3 "AAA" .buy .limit 10 5)).book

theorem sweep_leaves_stale_key :
    staleIndex.asks.map (fun e => (e.1, e.2.orders.map (·.orderId), e.2.orderMap)) =
      [(10, [2], [2, 1])] ∧ staleIndex.orderMap = [2] := by
  decide

end OrderBook

end MatchingEngine
