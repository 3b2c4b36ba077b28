import MatchingEngine.EngineInv

/-!
# The level aggregate `totalQuantity_` after a sweep

`PriceLevel::addOrder` and `PriceLevel::removeOrder` move `totalQuantity_` by exactly what the
order they add or unlink has left, while the sum fits in 64 bits (`Aggregates.lean`). The
sweep does not: `executeMatches` fills resting orders through their pointers and erases the
ones it uses up, but never touches the level's aggregate (`mem_executeMatches_levels`). After a
partial fill the aggregate overstates the level.

`canFillEntireOrder` reads exactly that aggregate, so a `FOK` order can be let through against
liquidity that is no longer there; the unpriced sweep that follows then fills it only in part,
or past its limit. The engine hands such an order back `PARTIAL_FILL` without resting it.

The check also adds the aggregates in `uint64_t`. For a `FOK` taker it answers yes only when
the levels priced within its limit hold, over the naturals, what it has left
(`canFillEntireOrder_iff`), and it answers exactly that as long as their sum fits in 64 bits.
Past that, the accumulator wraps and a fillable order is turned down (`fok_wrapped_total`).
-/

namespace MatchingEngine

namespace PriceLevel

/-- What the orders of a level have left, summed over the naturals. -/
def remainingSum (l : PriceLevel) : Nat := (l.orders.map (·.remainingQuantity.toNat)).sum

@[simp] theorem remainingSum_addOrder (l : PriceLevel) (o : Order) :
    (l.addOrder o).remainingSum = l.remainingSum + o.remainingQuantity.toNat := by
  simp [remainingSum, addOrder]

end PriceLevel

namespace OrderBook

/-- A resting sell of 100 at 10, partly filled by a buy limit for 60 at 10. -/
def partiallyFilled : OrderBook :=
  (((OrderBook.empty "AAA").addOrder (Order.new 1 "AAA" .sell .limit 10 100)).matchOrder
    (Order.new 2 "AAA" .buy .limit 10 60)).book

/-- After the partial fill the level keeps saying 100 while its order has 40 left. -/
theorem partial_fill_stale_total :
    (partiallyFilled.asks.map fun e => (e.1, e.2.totalQuantity.toNat, e.2.remainingSum)) =
      [(10, 100, 40)] := by
  decide

/-- On the partly filled book a `FOK` buy for 50 at 10 is let through (the level says 100) and
trades 40, ending `PARTIAL_FILL`; with a further sell of 100 at 12 resting, it is filled,
10 of it at 12, above its limit. -/
theorem fok_after_partial_fill :
    ((partiallyFilled.matchOrder (Order.new 3 "AAA" .buy .fok 10 50)).trades.map (·.quantity) =
        [40] ∧
      (partiallyFilled.matchOrder (Order.new 3 "AAA" .buy .fok 10 50)).order.status =
        .partialFill ∧
      (partiallyFilled.matchOrder (Order.new 3 "AAA" .buy .fok 10 50)).order.remainingQuantity =
        10) ∧
    (((partiallyFilled.addOrder (Order.new 3 "AAA" .sell .limit 12 100)).matchOrder
        (Order.new 4 "AAA" .buy .fok 10 50)).trades.map fun t => (t.price, t.quantity)) =
        [(10, 40), (12, 10)] ∧
      ((partiallyFilled.addOrder (Order.new 3 "AAA" .sell .limit 12 100)).matchOrder
        (Order.new 4 "AAA" .buy .fok 10 50)).order.status = .filled := by
  decide

/-! ## The accumulator of `canFillEntireOrder` -/

/-- The levels a taker may trade at by price: those no worse than its limit. -/
def pricedWithin (levelSide : Side) (o : Order) (ls : Levels) : Levels :=
  ls.filter fun e => ¬ levelSide.better o.price e.1

/-- The aggregates of some levels, summed over the naturals. -/
def totalSum (ls : Levels) : Nat := (ls.map (·.2.totalQuantity.toNat)).sum

section Accumulator

variable {levelSide : Side} {o : Order}

/-- For a `FOK` taker on the other side, a level counts exactly when it is priced within the
limit. -/
theorem canFillEntireOrder_cons (ht : o.type = .fok) (ho : o.side = levelSide.opposite)
    (p : Price) (l : PriceLevel) (ls : Levels) (acc : Quantity) :
    canFillEntireOrder levelSide o ((p, l) :: ls) acc =
      if levelSide.better o.price p then false
      else if o.remainingQuantity ≤ acc + l.totalQuantity then true
      else canFillEntireOrder levelSide o ls (acc + l.totalQuantity) := by
  simp [canFillEntireOrder, ht, ho]

theorem totalSum_pricedWithin_cons {p : Price} {l : PriceLevel} {ls : Levels}
    (hb : ¬ levelSide.better o.price p) :
    totalSum (pricedWithin levelSide o ((p, l) :: ls)) =
      l.totalQuantity.toNat + totalSum (pricedWithin levelSide o ls) := by
  simp [pricedWithin, totalSum, hb]

/-- A yes is never wrong: the wrapped sum is at most the exact one. -/
theorem canFillEntireOrder_sound (ht : o.type = .fok) (ho : o.side = levelSide.opposite) :
    ∀ {ls : Levels} {acc : Quantity}, canFillEntireOrder levelSide o ls acc = true →
      o.remainingQuantity.toNat ≤ acc.toNat + totalSum (pricedWithin levelSide o ls)
  | [], _, h => by simp [canFillEntireOrder] at h
  | (p, l) :: ls, acc, h => by
    have hw : (acc + l.totalQuantity).toNat ≤ acc.toNat + l.totalQuantity.toNat :=
      (Quantity.toNat_add _ _).symm ▸ Nat.mod_le _ _
    rw [canFillEntireOrder_cons ht ho] at h
    split_ifs at h with hb hle
    · rw [totalSum_pricedWithin_cons hb]
      rw [Quantity.le_iff] at hle
      omega
    · have := canFillEntireOrder_sound ht ho h
      rw [totalSum_pricedWithin_cons hb]
      omega

/-- Without a wrap the check is complete: a taker that the levels within its limit can fill,
and that the levels before have not yet filled, is let through. -/
theorem canFillEntireOrder_complete (ht : o.type = .fok) (ho : o.side = levelSide.opposite) :
    ∀ {ls : Levels} {acc : Quantity}, ls.Sorted levelSide →
      acc.toNat < o.remainingQuantity.toNat →
      acc.toNat + totalSum (pricedWithin levelSide o ls) < 2 ^ 64 →
      o.remainingQuantity.toNat ≤ acc.toNat + totalSum (pricedWithin levelSide o ls) →
      canFillEntireOrder levelSide o ls acc = true
  | [], _, _, hlt, _, hle => by simp [pricedWithin, totalSum] at hle; omega
  | (p, l) :: ls, acc, hs, hlt, hw, hle => by
    rw [canFillEntireOrder_cons ht ho]
    by_cases hb : levelSide.better o.price p
    · -- this level and every worse one are beyond the limit: nothing counts
      have h0 : pricedWithin levelSide o ((p, l) :: ls) = [] := by
        refine List.filter_eq_nil_iff.mpr fun e he => ?_
        rcases List.mem_cons.mp he with rfl | he
        · simpa using hb
        · simpa using Side.better_trans hb
            (Levels.Sorted.head_better hs (List.mem_map_of_mem _ he))
      simp only [h0, totalSum, List.map_nil, List.sum_nil] at hle
      omega
    · rw [totalSum_pricedWithin_cons hb] at hw hle
      have hadd : (acc + l.totalQuantity).toNat = acc.toNat + l.totalQuantity.toNat := by
        rw [Quantity.toNat_add, Nat.mod_eq_of_lt (by omega)]
      rw [if_neg hb]
      split_ifs with hq
      · rfl
      · rw [Quantity.le_iff, hadd] at hq
        exact canFillEntireOrder_complete ht ho (Levels.sorted_cons.mp hs).2 (by omega)
          (by omega) (by omega)

end Accumulator

/-- `canFillEntireOrder` for a `FOK` taker with something left: a yes means the levels
priced within its limit hold what it has left, over the naturals; and when their sum fits
in 64 bits, that is also enough for a yes. -/
theorem canFillEntireOrder_iff {levelSide : Side} {o : Order} {ls : Levels}
    (hs : ls.Sorted levelSide) (ht : o.type = .fok) (ho : o.side = levelSide.opposite)
    (hpos : 0 < o.remainingQuantity) :
    (canFillEntireOrder levelSide o ls 0 = true →
      o.remainingQuantity.toNat ≤ totalSum (pricedWithin levelSide o ls)) ∧
    (totalSum (pricedWithin levelSide o ls) < 2 ^ 64 →
      o.remainingQuantity.toNat ≤ totalSum (pricedWithin levelSide o ls) →
      canFillEntireOrder levelSide o ls 0 = true) := by
  refine ⟨fun h => by simpa using canFillEntireOrder_sound ht ho h, fun hw hle => ?_⟩
  exact canFillEntireOrder_complete ht ho hs (by simpa using hpos) (by simpa using hw)
    (by simpa using hle)

/-- Sells of 2^63 at 10 and at 11: each level's aggregate is exact. -/
def twoHalves : OrderBook :=
  ((empty "AAA").addOrder (Order.new 1 "AAA" .sell .limit 10 9223372036854775808)).addOrder
    (Order.new 2 "AAA" .sell .limit 11 9223372036854775808)

/-- A `FOK` buy for 2^63 + 1 at 11 on the book of `twoHalves`. -/
def fokPastHalf : Order := Order.new 3 "AAA" .buy .fok 11 9223372036854775809

/-- A `FOK` buy for 2^63 at 10 on the book of `twoHalves`: the level at 10 holds just that. -/
def fokHalf : Order := Order.new 3 "AAA" .buy .fok 10 9223372036854775808

/-- Both directions fire: the check says yes, and the levels within the limit hold, below 2^64,
what the order needs. -/
theorem canFillEntireOrder_iff_half :
    twoHalves.asks.Sorted Side.sell ∧ fokHalf.type = .fok ∧ fokHalf.side = Side.sell.opposite ∧
      0 < fokHalf.remainingQuantity ∧
      canFillEntireOrder .sell fokHalf twoHalves.asks 0 = true ∧
      totalSum (pricedWithin .sell fokHalf twoHalves.asks) < 2 ^ 64 ∧
      fokHalf.remainingQuantity.toNat ≤ totalSum (pricedWithin .sell fokHalf twoHalves.asks) ∧
      (canFillEntireOrder .sell fokHalf twoHalves.asks 0 = true →
        fokHalf.remainingQuantity.toNat ≤ totalSum (pricedWithin .sell fokHalf twoHalves.asks)) ∧
      (totalSum (pricedWithin .sell fokHalf twoHalves.asks) < 2 ^ 64 →
        fokHalf.remainingQuantity.toNat ≤ totalSum (pricedWithin .sell fokHalf twoHalves.asks) →
        canFillEntireOrder .sell fokHalf twoHalves.asks 0 = true) :=
  have hs : twoHalves.asks.Sorted Side.sell := by unfold Levels.Sorted; decide
  ⟨hs, rfl, rfl, by decide, by decide, by decide, by decide,
    canFillEntireOrder_iff hs rfl rfl (by decide)⟩

/-- The two levels hold 2^64 between them, more than the order needs, but the accumulator
wraps to 0 at the second level: the check says no and the order is cancelled with nothing
traded. -/
theorem fok_wrapped_total :
    twoHalves.asks.map (fun e => (e.2.totalQuantity.toNat, e.2.remainingSum)) =
        [(2 ^ 63, 2 ^ 63), (2 ^ 63, 2 ^ 63)] ∧
      totalSum (pricedWithin .sell fokPastHalf twoHalves.asks) = 2 ^ 64 ∧
      fokPastHalf.remainingQuantity.toNat = 2 ^ 63 + 1 ∧
      canFillEntireOrder .sell fokPastHalf twoHalves.asks 0 = false ∧
      (twoHalves.matchOrder fokPastHalf).trades = [] ∧
      (twoHalves.matchOrder fokPastHalf).order.status = .cancelled := by
  decide

end OrderBook

namespace MatchingEngineCore

/-- The engine after a sell of 100 at 10 and a buy of 60 at 10 on one symbol. -/
def partiallyFilled : MatchingEngineCore :=
  init.run [.submitOrder "AAA" .sell .limit 10 100 0, .submitOrder "AAA" .buy .limit 10 60 0]

/-- The same `FOK` through the engine: it comes back `PARTIAL_FILL` with 10 left, and it does
not rest. -/
theorem fok_partial_fill_not_resting :
    (partiallyFilled.submitOrder "AAA" .buy .fok 10 50 0).2.order.status = .partialFill ∧
      (partiallyFilled.submitOrder "AAA" .buy .fok 10 50 0).2.order.remainingQuantity = 10 ∧
      (partiallyFilled.submitOrder "AAA" .buy .fok 10 50 0).2.orderId ∉
        ((partiallyFilled.submitOrder "AAA" .buy .fok 10 50 0).1.bookFor "AAA").orderMap := by
  decide

end MatchingEngineCore

end MatchingEngine
