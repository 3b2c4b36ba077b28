import MatchingEngine.BookInv

/-!
# What each book operation leaves of the resting orders

Per operation, one lemma that says where every resting entry afterwards comes from:
`mem_sweep_entries` and `mem_matchOrder_entries` (an entry that was there, untouched or
partially filled in place, or the taker's residual), and the frames of `cancelOrder` and
`modifyOrder`: every order other than the one named keeps resting, unchanged, on its side
(`mem_cancelOrder_entries`, `mem_modifyOrder_entries`), in the same queue order
(`filter_cancelOrder_entries`, `filter_modifyOrder_entries`). Facts about single resting orders (their
routing in the engine, their remaining quantity) follow from these alone; `Positive` is the
first of them.
-/

namespace MatchingEngine

namespace OrderBook

open Levels (ids)

variable {b : OrderBook}

/-- An id rests at one place only. -/
theorem Valid.eq_of_orderId_eq (hv : b.Valid) {s t : Side} {x y : Price × Order}
    (hx : x ∈ Levels.entries (b.levels s)) (hy : y ∈ Levels.entries (b.levels t))
    (h : x.2.orderId = y.2.orderId) : s = t ∧ x = y := by
  have hxy : x = y := List.inj_on_of_nodup_map hv.nodup (mem_entries_iff.mpr ⟨s, hx⟩)
    (mem_entries_iff.mpr ⟨t, hy⟩) h
  subst hxy
  exact ⟨((hv.wf s).placed x hx).1.symm.trans ((hv.wf t).placed x hy).1, rfl⟩

/-- An id not in `orderMap_` rests nowhere. -/
theorem Valid.orderId_ne_of_not_mem (hv : b.Valid) {i : OrderId} (hi : i ∉ b.orderMap) {s : Side}
    {x : Price × Order} (hx : x ∈ Levels.entries (b.levels s)) : x.2.orderId ≠ i := by
  rintro rfl
  exact hi ((hv.mem_orderMap _).mpr (List.mem_map_of_mem _ (mem_entries_iff.mpr ⟨s, hx⟩)))

/-- Unlinking a resting order from its side is erasing its entry. -/
theorem Valid.entries_removeOrder (hv : b.Valid) {o : Order}
    (hx : (o.price, o) ∈ Levels.entries (b.levels o.side)) :
    Levels.entries ((b.levels o.side).removeOrder o.price o.orderId) =
      (Levels.entries (b.levels o.side)).erase (o.price, o) := by
  obtain ⟨-, A, B, h1, h2⟩ := (hv.wf o.side).removeOrder hx
  have hn : (A ++ (o.price, o) :: B).Nodup := h1 ▸ (hv.wf o.side).nodup.of_map _
  rw [h2, h1, List.erase_append_right _ fun h =>
    (List.nodup_cons.mp (List.nodup_middle.mp hn)).1 (List.mem_append_left _ h),
    List.erase_cons_head]

/-- The entries the sweep leaves were there before, untouched or partially filled in place. -/
theorem Valid.mem_sweep_entries (hv : b.Valid) (o : Order) {s : Side} {x : Price × Order}
    (hx : x ∈ Levels.entries ((b.sweep o).1.levels s)) :
    ∃ y ∈ Levels.entries (b.levels s), x.1 = y.1 ∧
      (x.2 = y.2 ∨ ∃ q, x.2 = y.2.fill q ∧ (y.2.fill q).remainingQuantity ≠ 0) := by
  by_cases hs : s = o.side.opposite
  · subst hs
    simp only [OrderBook.sweep, levels_mk, levels_setLevels] at hx
    exact mem_executeMatches_entries hv.orderMap_nodup hx
  · simp only [OrderBook.sweep, levels_mk, levels_setLevels_of_ne _ hs] at hx
    exact ⟨x, hx, rfl, .inl rfl⟩

theorem Valid.mem_addOrder_entries (hv : b.Valid) (o : Order) {s : Side} {x : Price × Order}
    (hx : x ∈ Levels.entries ((b.addOrder o).levels s)) :
    x ∈ Levels.entries (b.levels s) ∨ (s = o.side ∧ x = (o.price, o)) := by
  by_cases hs : s = o.side
  · subst hs
    obtain ⟨A, B, h1, h2, -, -⟩ := Levels.update_addOrder_entries o.side o.price o (hv.wf _).sorted
    simp only [OrderBook.addOrder, levels_mk, levels_setLevels, h2, List.mem_append,
      List.mem_cons] at hx
    rw [h1, List.mem_append]
    rcases hx with hx | rfl | hx
    · exact .inl (.inl hx)
    · exact .inr ⟨rfl, rfl⟩
    · exact .inl (.inr hx)
  · simp only [OrderBook.addOrder, levels_mk, levels_setLevels_of_ne _ hs] at hx
    exact .inl hx

/-- The entries `matchOrder` leaves: entries that were there, untouched or partially filled
in place, and possibly the taker's residual, at its price on its own side. -/
theorem Valid.mem_matchOrder_entries (hv : b.Valid) (o : Order) {s : Side} {x : Price × Order}
    (hx : x ∈ Levels.entries ((b.matchOrder o).book.levels s)) :
    (∃ y ∈ Levels.entries (b.levels s), x.1 = y.1 ∧
      (x.2 = y.2 ∨ ∃ q, x.2 = y.2.fill q ∧ (y.2.fill q).remainingQuantity ≠ 0)) ∨
    (s = o.side ∧ x = (o.price, (b.sweep o).2.1) ∧ 0 < (b.sweep o).2.1.remainingQuantity) := by
  rcases matchOrder_cases b o with ⟨h, -⟩ | ⟨h, -⟩ | ⟨h, -, hpos, -⟩ <;> rw [h] at hx
  · exact .inl ⟨x, hx, rfl, .inl rfl⟩
  · exact .inl (hv.mem_sweep_entries o hx)
  · rcases (hv.sweep o).1.mem_addOrder_entries _ hx with hx | ⟨hs, rfl⟩
    · exact .inl (hv.mem_sweep_entries o hx)
    · exact .inr ⟨hs.trans (sweep_taker Order.side (fun _ _ => rfl) b o),
        by rw [sweep_taker Order.price (fun _ _ => rfl) b o], hpos⟩

/-- Cancelling unlinks exactly the order with the id: every other resting order stays, as it
was, where it was. -/
theorem Valid.mem_cancelOrder_entries (hv : b.Valid) (i : OrderId) {s : Side}
    {x : Price × Order} :
    x ∈ Levels.entries ((b.cancelOrder i).1.levels s) ↔
      x ∈ Levels.entries (b.levels s) ∧ x.2.orderId ≠ i := by
  by_cases hi : i ∈ b.orderMap
  · obtain ⟨o, hf, rfl, ho⟩ := hv.findResting hi
    rw [cancelOrder_of_findResting hi hf]
    -- another entry of the book is not `o`'s, and is on `o`'s side only if it is `o`'s
    have hne : ∀ {t x}, x ∈ Levels.entries (b.levels t) →
        (x.2.orderId ≠ o.orderId ↔ t ≠ o.side ∨ x ≠ (o.price, o)) := by
      intro t x hx
      constructor
      · exact fun h => .inr fun he => h (he ▸ rfl)
      · rintro h hid
        obtain ⟨rfl, rfl⟩ := hv.eq_of_orderId_eq hx ho hid
        simp at h
    by_cases hs : s = o.side
    · subst hs
      simp only [levels_mk, levels_setLevels, hv.entries_removeOrder ho,
        ((hv.wf _).nodup.of_map _).mem_erase_iff]
      exact ⟨fun ⟨h1, h2⟩ => ⟨h2, (hne h2).mpr (.inr h1)⟩,
        fun ⟨h1, h2⟩ => ⟨((hne h1).mp h2).resolve_left (not_not.mpr rfl), h1⟩⟩
    · simp only [levels_mk, levels_setLevels_of_ne _ hs]
      exact ⟨fun h => ⟨h, (hne h).mpr (.inl hs)⟩, And.left⟩
  · rw [cancelOrder_of_not_mem hi]
    exact ⟨fun h => ⟨h, hv.orderId_ne_of_not_mem hi h⟩, And.left⟩

/-- Modifying re-posts exactly the order with the id, at the new price on its side, with the
new quantity all remaining; every other resting order stays, as it was, where it was. -/
theorem Valid.mem_modifyOrder_entries (hv : b.Valid) (i : OrderId) (p : Price) (q : Quantity)
    {s : Side} {x : Price × Order} :
    x ∈ Levels.entries ((b.modifyOrder i p q).1.levels s) ↔
      (x ∈ Levels.entries (b.levels s) ∧ x.2.orderId ≠ i) ∨
        ∃ y ∈ Levels.entries (b.levels s), y.2.orderId = i ∧ x = (p, y.2.repost p q) := by
  by_cases hi : i ∈ b.orderMap
  · obtain ⟨o, hf, rfl, ho⟩ := hv.findResting hi
    rw [modifyOrder_of_findResting hi hf]
    have hid : ∀ {t y}, y ∈ Levels.entries (b.levels t) → y.2.orderId = o.orderId →
        t = o.side ∧ y = (o.price, o) := fun hy h => hv.eq_of_orderId_eq hy ho h
    by_cases hs : s = o.side
    · subst hs
      obtain ⟨hw, -⟩ := (hv.wf _).removeOrder ho
      obtain ⟨A, B, h1, h2, -, -⟩ := Levels.update_addOrder_entries _ p (o.repost p q) hw.sorted
      have hn := (hv.wf o.side).nodup.of_map _
      simp only [levels_mk, levels_setLevels, h2, List.mem_append, List.mem_cons]
      -- the entries kept are those of the side without `o`; the new one is `o` re-posted
      have hAB : x ∈ A ∨ x ∈ B ↔
          x ∈ Levels.entries (b.levels o.side) ∧ x.2.orderId ≠ o.orderId := by
        rw [← List.mem_append, ← h1, hv.entries_removeOrder ho, hn.mem_erase_iff]
        exact ⟨fun ⟨h, h'⟩ => ⟨h', fun he => h (hid h' he).2⟩,
          fun ⟨h, h'⟩ => ⟨fun he => h' (by rw [he]), h⟩⟩
      have hnew : (∃ y ∈ Levels.entries (b.levels o.side), y.2.orderId = o.orderId ∧
          x = (p, y.2.repost p q)) ↔ x = (p, o.repost p q) :=
        ⟨fun ⟨y, hy, h, hx⟩ => by rw [hx, (hid hy h).2], fun hx => ⟨_, ho, rfl, hx⟩⟩
      rw [← hAB, hnew, or_assoc, @or_comm (x ∈ B)]
    · simp only [levels_mk, levels_setLevels_of_ne _ hs]
      refine ⟨fun h => .inl ⟨h, fun h' => hs (hid h h').1⟩, ?_⟩
      rintro (⟨h, -⟩ | ⟨y, hy, h', -⟩)
      · exact h
      · exact absurd (hid hy h').1 hs
  · rw [modifyOrder_of_not_mem hi]
    refine ⟨fun h => .inl ⟨h, hv.orderId_ne_of_not_mem hi h⟩, ?_⟩
    rintro (⟨h, -⟩ | ⟨y, hy, h', -⟩)
    · exact h
    · exact absurd h' (hv.orderId_ne_of_not_mem hi hy)

/-- The exact frame of `cancelOrder`: with the id's entry left out, every side's entries are
what they were, in queue order. -/
theorem Valid.filter_cancelOrder_entries (hv : b.Valid) (i : OrderId) (s : Side) :
    (Levels.entries ((b.cancelOrder i).1.levels s)).filter (·.2.orderId != i) =
      (Levels.entries (b.levels s)).filter (·.2.orderId != i) := by
  by_cases hi : i ∈ b.orderMap
  · obtain ⟨o, hf, rfl, ho⟩ := hv.findResting hi
    rw [cancelOrder_of_findResting hi hf]
    by_cases hs : s = o.side
    · subst hs
      simp only [levels_mk, levels_setLevels, hv.entries_removeOrder ho, ← List.erase_filter]
      exact List.erase_of_not_mem (by simp)
    · simp only [levels_mk, levels_setLevels_of_ne _ hs]
  · rw [cancelOrder_of_not_mem hi]

/-- The exact frame of `modifyOrder`: with the id's entry left out, every side's entries are
what they were, in queue order; the re-posted order is the only new entry. -/
theorem Valid.filter_modifyOrder_entries (hv : b.Valid) (i : OrderId) (p : Price) (q : Quantity)
    (s : Side) :
    (Levels.entries ((b.modifyOrder i p q).1.levels s)).filter (·.2.orderId != i) =
      (Levels.entries (b.levels s)).filter (·.2.orderId != i) := by
  by_cases hi : i ∈ b.orderMap
  · obtain ⟨o, hf, rfl, ho⟩ := hv.findResting hi
    rw [modifyOrder_of_findResting hi hf]
    by_cases hs : s = o.side
    · subst hs
      obtain ⟨hw, -⟩ := (hv.wf _).removeOrder ho
      obtain ⟨A, B, h1, h2, -, -⟩ := Levels.update_addOrder_entries _ p (o.repost p q) hw.sorted
      have hA : (A ++ (p, o.repost p q) :: B).filter (·.2.orderId != o.orderId) =
          (A ++ B).filter (·.2.orderId != o.orderId) := by
        simp [List.filter_append, List.filter_cons]
      simp only [levels_mk, levels_setLevels, h2, hA, ← h1, hv.entries_removeOrder ho,
        ← List.erase_filter]
      exact List.erase_of_not_mem (by simp)
    · simp only [levels_mk, levels_setLevels_of_ne _ hs]
  · rw [modifyOrder_of_not_mem hi]

/-- `cancelOrder` takes the id out of `orderMap_` and leaves every other key in place. -/
theorem Valid.erase_cancelOrder_orderMap (hv : b.Valid) (i : OrderId) :
    (b.cancelOrder i).1.orderMap.erase i = b.orderMap.erase i := by
  have h : (b.orderMap.erase i).erase i = b.orderMap.erase i :=
    List.erase_of_not_mem hv.orderMap_nodup.not_mem_erase
  unfold OrderBook.cancelOrder
  split
  · split <;> exact h
  · rfl

/-- `modifyOrder` leaves `orderMap_` as it was. -/
theorem modifyOrder_orderMap (b : OrderBook) (i : OrderId) (p : Price) (q : Quantity) :
    (b.modifyOrder i p q).1.orderMap = b.orderMap := by
  unfold OrderBook.modifyOrder
  split
  · split
    · exact orderMap_setLevels _ _ _
    · rfl
  · rfl

/-! ## Ids and symbols of resting orders -/

/-- Every order resting after `matchOrder` rested before, with the same id and symbol, or is
what is left of the taker. -/
theorem Valid.origin_matchOrder (hv : b.Valid) (o : Order) {x : Price × Order}
    (hx : x ∈ (b.matchOrder o).book.entries) :
    (∃ y ∈ b.entries, x.2.orderId = y.2.orderId ∧ x.2.symbol = y.2.symbol) ∨
      (x.2.orderId = o.orderId ∧ x.2.symbol = o.symbol) := by
  obtain ⟨s, hs⟩ := mem_entries_iff.mp hx
  rcases hv.mem_matchOrder_entries o hs with ⟨y, hy, -, h | ⟨q, h, -⟩⟩ | ⟨-, rfl, -⟩
  · exact .inl ⟨y, mem_entries_iff.mpr ⟨s, hy⟩, by rw [h], by rw [h]⟩
  · exact .inl ⟨y, mem_entries_iff.mpr ⟨s, hy⟩, by rw [h]; rfl, by rw [h]; rfl⟩
  · exact .inr ⟨sweep_taker Order.orderId (fun _ _ => rfl) b o,
      sweep_taker Order.symbol (fun _ _ => rfl) b o⟩

theorem Valid.origin_cancelOrder (hv : b.Valid) (i : OrderId) {x : Price × Order}
    (hx : x ∈ (b.cancelOrder i).1.entries) : x ∈ b.entries ∧ x.2.orderId ≠ i := by
  obtain ⟨s, hs⟩ := mem_entries_iff.mp hx
  obtain ⟨h, hne⟩ := (hv.mem_cancelOrder_entries i).mp hs
  exact ⟨mem_entries_iff.mpr ⟨s, h⟩, hne⟩

/-- Every order resting after `modifyOrder` rested before, with the same id and symbol. -/
theorem Valid.origin_modifyOrder (hv : b.Valid) (i : OrderId) (p : Price) (q : Quantity)
    {x : Price × Order} (hx : x ∈ (b.modifyOrder i p q).1.entries) :
    ∃ y ∈ b.entries, x.2.orderId = y.2.orderId ∧ x.2.symbol = y.2.symbol := by
  obtain ⟨s, hs⟩ := mem_entries_iff.mp hx
  rcases (hv.mem_modifyOrder_entries i p q).mp hs with ⟨h, -⟩ | ⟨y, hy, -, rfl⟩
  · exact ⟨x, mem_entries_iff.mpr ⟨s, h⟩, rfl, rfl⟩
  · exact ⟨y, mem_entries_iff.mpr ⟨s, hy⟩, rfl, rfl⟩

/-! ## Positive remaining quantities -/

/-- Every resting order has something left. -/
def Positive (b : OrderBook) : Prop :=
  ∀ s, ∀ x ∈ Levels.entries (b.levels s), 0 < x.2.remainingQuantity

theorem Positive.matchOrder (hv : b.Valid) (hp : b.Positive) (o : Order) :
    (b.matchOrder o).book.Positive := by
  intro s x hx
  rcases hv.mem_matchOrder_entries o hx with ⟨y, hy, -, h | ⟨q, h, hq⟩⟩ | ⟨-, rfl, h⟩
  · exact h ▸ hp s y hy
  · rw [h, Quantity.lt_iff]
    exact Nat.pos_of_ne_zero (mt Quantity.eq_zero_iff.mpr hq)
  · exact h

/-- Against a book with something left in every resting order, every trade is positive. -/
theorem Positive.trades_pos (hp : b.Positive) (o : Order) :
    ∀ t ∈ (b.matchOrder o).trades, 0 < t.quantity := by
  rcases matchOrder_cases b o with ⟨-, h, -⟩ | ⟨-, h, -⟩ | ⟨-, h, -⟩ <;> rw [h]
  · simp
  all_goals exact executeMatches_trades_pos (hp _)

theorem Positive.cancelOrder (hv : b.Valid) (hp : b.Positive) (i : OrderId) :
    (b.cancelOrder i).1.Positive :=
  fun s _ hx => hp s _ ((hv.mem_cancelOrder_entries i).mp hx).1

theorem Positive.modifyOrder (hv : b.Valid) (hp : b.Positive) (i : OrderId) (p : Price)
    {q : Quantity} (hq : 0 < q) : (b.modifyOrder i p q).1.Positive := by
  intro s x hx
  rcases (hv.mem_modifyOrder_entries i p q).mp hx with ⟨h, -⟩ | ⟨y, -, -, rfl⟩
  · exact hp s x h
  · exact hq

/-! ## What remains never exceeds the quantity -/

/-- Every resting order has at most its quantity left. This is `Order`'s own invariant in the
C++: the constructor sets both, `fill` only lowers what remains, and `setQuantity` sets both. -/
def Bounded (b : OrderBook) : Prop :=
  ∀ s, ∀ x ∈ Levels.entries (b.levels s), x.2.remainingQuantity ≤ x.2.quantity

theorem Bounded.addOrder (hv : b.Valid) (hq : b.Bounded) {o : Order}
    (ho : o.remainingQuantity ≤ o.quantity) : (b.addOrder o).Bounded := by
  intro s x hx
  rcases hv.mem_addOrder_entries o hx with h | ⟨-, rfl⟩
  · exact hq s x h
  · exact ho

theorem Bounded.matchOrder (hv : b.Valid) (hq : b.Bounded) {o : Order}
    (ho : o.remainingQuantity ≤ o.quantity) : (b.matchOrder o).book.Bounded := by
  intro s x hx
  rcases hv.mem_matchOrder_entries o hx with ⟨y, hy, -, h | ⟨q, h, -⟩⟩ | ⟨-, rfl, -⟩
  · exact h ▸ hq s y hy
  · exact h ▸ Order.fill_bounded (hq s y hy) q
  · exact executeMatches_taker_of (fun o => o.remainingQuantity ≤ o.quantity)
      (fun _ q h => Order.fill_bounded h q) ho

theorem Bounded.cancelOrder (hv : b.Valid) (hq : b.Bounded) (i : OrderId) :
    (b.cancelOrder i).1.Bounded :=
  fun s _ hx => hq s _ ((hv.mem_cancelOrder_entries i).mp hx).1

theorem Bounded.modifyOrder (hv : b.Valid) (hq : b.Bounded) (i : OrderId) (p : Price)
    (q : Quantity) : (b.modifyOrder i p q).1.Bounded := by
  intro s x hx
  rcases (hv.mem_modifyOrder_entries i p q).mp hx with ⟨h, -⟩ | ⟨y, -, -, rfl⟩
  · exact hq s x h
  · exact Quantity.le_iff.mpr (Nat.le_refl _)

end OrderBook

end MatchingEngine
