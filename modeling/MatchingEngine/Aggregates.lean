import MatchingEngine.Drift

/-!
# Quantity accounting of the sweep, and the level aggregates over runs

A sweep loses no quantity and makes none up: what its trades carry is exactly what the taker
loses and exactly what the resting orders of the swept side lose (`executeMatches_accounting`),
whichever orders it meets, with or without a price check.

The aggregates `totalQuantity_` only go wrong one way. `PriceLevel::addOrder` adds what an
order has left, `PriceLevel::removeOrder` takes off what it has left when it goes, and the sweep
lowers what orders have left without touching the aggregate. So every aggregate stays at least
what its level's orders have left, and the aggregates of a side add up to no more than the
quantity requested so far, as long as that sum fits in 64 bits (`Covered`, kept by every call).

Consequences over runs: the per-level quantities of the market data never report less than
what rests at that price, and a `FOK` order the resting orders within its limit can fill is
never turned down by `canFillEntireOrder`, and then fills completely.
-/

namespace MatchingEngine

/-- What some trades carry, summed over the naturals. -/
def traded (ts : List Trade) : Nat := (ts.map (·.quantity.toNat)).sum

@[simp] theorem traded_nil : traded [] = 0 := rfl

@[simp] theorem traded_cons (t : Trade) (ts : List Trade) :
    traded (t :: ts) = t.quantity.toNat + traded ts := by
  simp [traded]

@[simp] theorem traded_append (ts us : List Trade) : traded (ts ++ us) = traded ts + traded us := by
  simp [traded]

namespace PriceLevel

@[simp] theorem remainingSum_mk (q : Quantity) (os : List Order) (m : List OrderId) :
    (PriceLevel.mk q os m).remainingSum = (os.map (·.remainingQuantity.toNat)).sum := rfl

@[simp] theorem remainingSum_empty : PriceLevel.empty.remainingSum = 0 := rfl

/-- The level's aggregate is at least what its orders have left. -/
def Covers (l : PriceLevel) : Prop := l.remainingSum ≤ l.totalQuantity.toNat

theorem covers_empty : PriceLevel.empty.Covers := Nat.le_refl 0

/-- Without a wrap, `PriceLevel::addOrder` adds exactly what the order has left. -/
theorem addOrder_totalQuantity {l : PriceLevel} {o : Order}
    (hw : l.totalQuantity.toNat + o.remainingQuantity.toNat < 2 ^ 64) :
    (l.addOrder o).totalQuantity.toNat = l.totalQuantity.toNat + o.remainingQuantity.toNat := by
  show (l.totalQuantity + o.remainingQuantity).toNat = _
  rw [Quantity.toNat_add, Nat.mod_eq_of_lt hw]

theorem Covers.addOrder {l : PriceLevel} (h : l.Covers) {o : Order}
    (hw : l.totalQuantity.toNat + o.remainingQuantity.toNat < 2 ^ 64) : (l.addOrder o).Covers := by
  unfold Covers at *
  rw [remainingSum_addOrder, addOrder_totalQuantity hw]
  omega

/-- What `PriceLevel::removeOrder` takes off: nothing, or one order of the level, whose
remaining quantity leaves both the aggregate and the orders. -/
theorem removeOrder_cases (l : PriceLevel) (i : OrderId) :
    ((l.removeOrder i).totalQuantity = l.totalQuantity ∧ (l.removeOrder i).orders = l.orders) ∨
    ∃ o ∈ l.orders, (l.removeOrder i).totalQuantity = l.totalQuantity - o.remainingQuantity ∧
      (l.removeOrder i).remainingSum + o.remainingQuantity.toNat = l.remainingSum := by
  unfold removeOrder
  split
  · split
    · next o hf =>
      obtain ⟨hp, as, bs, hsplit, has⟩ := List.find?_eq_some.mp hf
      have herase : l.orders.eraseP (·.orderId == i) = as ++ bs := by
        rw [hsplit, List.eraseP_append_right _ fun b hb => by simpa using has b hb,
          List.eraseP_cons_of_pos (p := fun x : Order => x.orderId == i) hp]
      refine .inr ⟨o, hsplit ▸ List.mem_append_right _ (List.mem_cons_self _ _), rfl, ?_⟩
      simp only [remainingSum]
      rw [herase, hsplit]
      simp only [List.map_append, List.map_cons, List.sum_append, List.sum_cons]
      omega
    · exact .inl ⟨rfl, rfl⟩
  · exact .inl ⟨rfl, rfl⟩

/-- What an order of the level has left is part of what the level's orders have left. -/
theorem remaining_le_remainingSum {l : PriceLevel} {o : Order} (ho : o ∈ l.orders) :
    o.remainingQuantity.toNat ≤ l.remainingSum :=
  List.le_sum_of_mem (List.mem_map_of_mem (·.remainingQuantity.toNat) ho)

/-- `PriceLevel::removeOrder` keeps the aggregate covering, and never raises it: what it
subtracts is at most what the orders have left, so the subtraction does not wrap. -/
theorem Covers.removeOrder {l : PriceLevel} (h : l.Covers) (i : OrderId) :
    (l.removeOrder i).Covers ∧
      (l.removeOrder i).totalQuantity.toNat ≤ l.totalQuantity.toNat := by
  unfold Covers at *
  rcases removeOrder_cases l i with ⟨ht, ho⟩ | ⟨o, ho, ht, hs⟩
  · rw [ht, remainingSum, ho]
    exact ⟨h, le_rfl⟩
  · have hle := remaining_le_remainingSum ho
    rw [ht, UInt64.toNat_sub_of_le _ _ (by rw [Quantity.le_iff]; omega)]
    omega

end PriceLevel

namespace Levels

/-- What the orders of some levels have left, summed over the naturals. -/
def remainingSum (ls : Levels) : Nat := (ls.map (·.2.remainingSum)).sum

@[simp] theorem remainingSum_nil : remainingSum [] = 0 := rfl

@[simp] theorem remainingSum_cons (p : Price) (l : PriceLevel) (ls : Levels) :
    remainingSum ((p, l) :: ls) = l.remainingSum + remainingSum ls := by
  simp [remainingSum]

/-- Every level's aggregate covers what its orders have left. -/
def Covers (ls : Levels) : Prop := ∀ e ∈ ls, e.2.Covers

end Levels

/-! ## The sweep's accounting -/

namespace OrderBook

section Accounting

variable {symbol : Symbol} {levelSide : Side}

/-- One queue pass: its trades carry what the taker loses and what the queue loses. -/
theorem matchQueue_accounting :
    ∀ (o : Order) (rs : List Order) (m : List OrderId),
      (matchQueue symbol o rs m).taker.remainingQuantity.toNat +
          traded (matchQueue symbol o rs m).trades = o.remainingQuantity.toNat ∧
        ((matchQueue symbol o rs m).orders.map (·.remainingQuantity.toNat)).sum +
          traded (matchQueue symbol o rs m).trades = (rs.map (·.remainingQuantity.toNat)).sum
  | o, [], m => by simp [matchQueue]
  | o, r :: rs, m => by
    simp only [matchQueue]
    split
    · -- the fill takes the smaller remainder from both orders
      have hq := Quantity.toNat_min o.remainingQuantity r.remainingQuantity
      split
      · next hf =>
        obtain ⟨h1, h2⟩ := matchQueue_accounting (o.fill (min o.remainingQuantity
          r.remainingQuantity)) rs (m.erase r.orderId)
        rw [Order.isFilled_iff, Order.fill_remaining_toNat] at hf
        simp only [Order.fill_remaining_toNat, fillTrade, traded_cons, List.map_cons,
          List.sum_cons] at h1 h2 ⊢
        omega
      · obtain ⟨h1, h2⟩ := matchQueue_accounting (o.fill (min o.remainingQuantity
          r.remainingQuantity)) rs m
        simp only [Order.fill_remaining_toNat, fillTrade, traded_cons, List.map_cons,
          List.sum_cons] at h1 h2 ⊢
        omega
    · simp

/-- The sweep: its trades carry exactly what the taker loses and exactly what the orders of
the swept side lose, the levels it erases included. -/
theorem executeMatches_accounting :
    ∀ (o : Order) (ls : Levels) (m : List OrderId),
      (executeMatches levelSide symbol o ls m).taker.remainingQuantity.toNat +
          traded (executeMatches levelSide symbol o ls m).trades = o.remainingQuantity.toNat ∧
        Levels.remainingSum (executeMatches levelSide symbol o ls m).levels +
          traded (executeMatches levelSide symbol o ls m).trades = Levels.remainingSum ls
  | o, [], m => by simp [executeMatches]
  | o, (p, l) :: ls, m => by
    by_cases ho : 0 < o.remainingQuantity
    · by_cases hb : priceBreak levelSide o p
      · simp [executeMatches, ho, hb]
      · rw [executeMatches_cons ho hb]
        obtain ⟨q1, q2⟩ := @matchQueue_accounting symbol o l.orders m
        split
        · next hnil =>
          -- the level is drained: what it had is all in this level's trades
          obtain ⟨s1, s2⟩ := executeMatches_accounting (matchQueue symbol o l.orders m).taker ls
            (matchQueue symbol o l.orders m).orderMap
          rw [hnil, List.map_nil, List.sum_nil] at q2
          simp only [traded_append, Levels.remainingSum_cons, PriceLevel.remainingSum] at *
          omega
        · simp only [traded_append, Levels.remainingSum_cons, PriceLevel.remainingSum_mk,
            PriceLevel.remainingSum] at *
          omega
    · simp [executeMatches_of_zero ho]

end Accounting

@[simp] theorem totalSum_nil : totalSum [] = 0 := rfl

@[simp] theorem totalSum_cons (p : Price) (l : PriceLevel) (ls : Levels) :
    totalSum ((p, l) :: ls) = l.totalQuantity.toNat + totalSum ls := by
  simp [totalSum]

theorem le_totalSum {ls : Levels} {e : Price × PriceLevel} (he : e ∈ ls) :
    e.2.totalQuantity.toNat ≤ totalSum ls :=
  List.le_sum_of_mem (List.mem_map_of_mem (·.2.totalQuantity.toNat) he)

/-- The book's sweep, read on the side it sweeps. -/
theorem sweep_accounting (b : OrderBook) (o : Order) :
    (b.sweep o).2.1.remainingQuantity.toNat + traded (b.sweep o).2.2 = o.remainingQuantity.toNat ∧
      Levels.remainingSum ((b.sweep o).1.levels o.side.opposite) + traded (b.sweep o).2.2 =
        Levels.remainingSum (b.levels o.side.opposite) := by
  simpa [OrderBook.sweep] using @executeMatches_accounting b.symbol o.side.opposite o
    (b.levels o.side.opposite) b.orderMap

end OrderBook

/-! ## The aggregates cover what rests -/

namespace Levels

open OrderBook (totalSum totalSum_cons totalSum_nil matchQueue matchQueue_accounting priceBreak
  executeMatches executeMatches_cons executeMatches_of_zero)

theorem covers_cons {p : Price} {l : PriceLevel} {ls : Levels} :
    Levels.Covers ((p, l) :: ls) ↔ l.Covers ∧ Levels.Covers ls := List.forall_mem_cons

/-- Adding an order to its level (created if absent) keeps the aggregates covering, and adds
to their sum exactly what the order has left, as long as the level's aggregate does not
wrap. -/
theorem Covers.update_addOrder {s : Side} {p : Price} {o : Order} :
    ∀ {ls : Levels}, Levels.Covers ls →
      (∀ e ∈ ls, e.2.totalQuantity.toNat + o.remainingQuantity.toNat < 2 ^ 64) →
      Levels.Covers (ls.update s p (·.addOrder o)) ∧
        totalSum (ls.update s p (·.addOrder o)) = totalSum ls + o.remainingQuantity.toNat
  | [], _, _ => by
    have hw : PriceLevel.empty.totalQuantity.toNat + o.remainingQuantity.toNat < 2 ^ 64 := by
      simpa [PriceLevel.empty] using o.remainingQuantity.toNat_lt
    simp only [Levels.update, covers_cons, totalSum_cons, totalSum_nil,
      PriceLevel.addOrder_totalQuantity hw]
    exact ⟨⟨PriceLevel.covers_empty.addOrder hw, List.forall_mem_nil _⟩, by
      simp [PriceLevel.empty]⟩
  | (q, l) :: ls, h, hw => by
    rw [covers_cons] at h
    have hl := hw (q, l) (List.mem_cons_self _ _)
    simp only [Levels.update]
    split_ifs
    · -- the order joins the level at its price
      simp only [covers_cons, totalSum_cons, PriceLevel.addOrder_totalQuantity hl]
      exact ⟨⟨h.1.addOrder hl, h.2⟩, by omega⟩
    · -- a new level before this one
      have h0 : PriceLevel.empty.totalQuantity.toNat + o.remainingQuantity.toNat < 2 ^ 64 := by
        simpa [PriceLevel.empty] using o.remainingQuantity.toNat_lt
      simp only [covers_cons, totalSum_cons, PriceLevel.addOrder_totalQuantity h0]
      exact ⟨⟨PriceLevel.covers_empty.addOrder h0, h⟩, by simp [PriceLevel.empty]; omega⟩
    · obtain ⟨h1, h2⟩ := Covers.update_addOrder h.2
        fun e he => hw e (List.mem_cons_of_mem _ he)
      simp only [covers_cons, totalSum_cons]
      exact ⟨⟨h.1, h1⟩, by omega⟩

/-- Removing an order from its level (erased if that empties it) keeps the aggregates
covering, and their sum does not grow. -/
theorem Covers.removeOrder {p : Price} {i : OrderId} :
    ∀ {ls : Levels}, Levels.Covers ls →
      Levels.Covers (ls.removeOrder p i) ∧ totalSum (ls.removeOrder p i) ≤ totalSum ls
  | [], _ => ⟨List.forall_mem_nil _, le_rfl⟩
  | (q, l) :: ls, h => by
    rw [covers_cons] at h
    obtain ⟨hc, ht⟩ := h.1.removeOrder i
    simp only [Levels.removeOrder]
    split_ifs
    · simp only [totalSum_cons]
      exact ⟨h.2, by omega⟩
    · simp only [covers_cons, totalSum_cons]
      exact ⟨⟨hc, h.2⟩, by omega⟩
    · obtain ⟨h1, h2⟩ := Covers.removeOrder (p := p) (i := i) h.2
      simp only [covers_cons, totalSum_cons]
      exact ⟨⟨h.1, h1⟩, by omega⟩

/-- The sweep keeps the aggregates covering: a level it keeps has its aggregate and orders
that hold no more than before, and the sum over what it keeps does not grow. -/
theorem Covers.executeMatches {levelSide : Side} {symbol : Symbol} :
    ∀ {o : Order} {ls : Levels} {m : List OrderId}, Levels.Covers ls →
      Levels.Covers (executeMatches levelSide symbol o ls m).levels ∧
        totalSum (executeMatches levelSide symbol o ls m).levels ≤ totalSum ls
  | o, [], m, h => by simpa [OrderBook.executeMatches] using h
  | o, (p, l) :: ls, m, h => by
    rw [covers_cons] at h
    by_cases ho : 0 < o.remainingQuantity
    · by_cases hb : priceBreak levelSide o p
      · simpa [OrderBook.executeMatches, ho, hb, covers_cons] using h
      · rw [executeMatches_cons ho hb]
        obtain ⟨h1, h2⟩ := Covers.executeMatches (o := (matchQueue symbol o l.orders m).taker)
          (m := (matchQueue symbol o l.orders m).orderMap) h.2
        split
        · simp only [totalSum_cons]
          exact ⟨h1, by omega⟩
        · -- the level keeps its aggregate and what is left of its queue
          have hq := (@matchQueue_accounting symbol o l.orders m).2
          have hl : PriceLevel.Covers { l with orders := (matchQueue symbol o l.orders m).orders } := by
            have := h.1
            unfold PriceLevel.Covers PriceLevel.remainingSum at *
            dsimp only
            omega
          simp only [covers_cons, totalSum_cons]
          exact ⟨⟨hl, h.2⟩, le_rfl⟩
    · simpa [executeMatches_of_zero ho, covers_cons] using h

theorem Covers.remainingSum_le : ∀ {ls : Levels}, Covers ls → remainingSum ls ≤ totalSum ls
  | [], _ => le_rfl
  | (p, l) :: ls, h => by
    rw [covers_cons] at h
    have := Covers.remainingSum_le h.2
    simp only [remainingSum_cons, totalSum_cons]
    exact Nat.add_le_add h.1 this

theorem Covers.filter {ls : Levels} (h : Covers ls) (P : Price × PriceLevel → Bool) :
    Covers (ls.filter P) :=
  fun e he => h e (List.mem_of_mem_filter he)

theorem totalSum_filter_le (P : Price × PriceLevel → Bool) :
    ∀ ls : Levels, totalSum (ls.filter P) ≤ totalSum ls
  | [] => le_rfl
  | (p, l) :: ls => by
    have := totalSum_filter_le P ls
    rw [List.filter_cons]
    split <;> simp only [totalSum_cons] <;> omega

theorem remainingSum_filter_le (P : Price × PriceLevel → Bool) :
    ∀ ls : Levels, remainingSum (ls.filter P) ≤ remainingSum ls
  | [] => le_rfl
  | (p, l) :: ls => by
    have := remainingSum_filter_le P ls
    rw [List.filter_cons]
    split <;> simp only [remainingSum_cons] <;> omega

theorem lookup_cons_of_ne {q p : Price} (h : p ≠ q) (l : PriceLevel) (ls : Levels) :
    ((q, l) :: ls).lookup p = ls.lookup p := by
  rw [List.lookup_cons, beq_false_of_ne h]

/-- With the keys distinct, the orders of the level keyed at a price have left at most the
aggregate `levels.find(price)` reports there (0 when there is no such level). -/
theorem Covers.remainingSum_at_le : ∀ {ls : Levels}, Covers ls → (keys ls).Nodup → ∀ p : Price,
    remainingSum (ls.filter (·.1 = p)) ≤
      (((ls.lookup p).map PriceLevel.totalQuantity).getD 0).toNat
  | [], _, _, p => by simp
  | (q, l) :: ls, h, hn, p => by
    rw [covers_cons] at h
    rw [keys_cons, List.nodup_cons] at hn
    by_cases hq : q = p
    · subst hq
      -- no later level has the same key
      have hnil : ls.filter (·.1 = q) = [] :=
        List.filter_eq_nil_iff.mpr fun e he heq => hn.1 (by
          simpa [of_decide_eq_true heq] using mem_keys.mpr ⟨e.2, he⟩)
      simpa [List.filter_cons, hnil] using h.1
    · rw [List.filter_cons_of_neg (by simpa using hq), lookup_cons_of_ne (Ne.symm hq)]
      exact Covers.remainingSum_at_le h.2 hn.2 p

end Levels

namespace OrderBook

/-- Every level's aggregate covers what its orders have left, and the aggregates of each side
add up to at most `v`. -/
def Covered (v : Nat) (b : OrderBook) : Prop :=
  ∀ s, Levels.Covers (b.levels s) ∧ totalSum (b.levels s) ≤ v

section Covered

variable {b : OrderBook} {v : Nat}

theorem Covered.mono (h : b.Covered v) {w : Nat} (hvw : v ≤ w) : b.Covered w :=
  fun s => ⟨(h s).1, (h s).2.trans hvw⟩

theorem covered_empty (symbol : Symbol) : (empty symbol).Covered 0 :=
  fun s => by simp [Levels.Covers]

/-- A book that changed one side of a covered book only is covered when that side is. -/
theorem Covered.of_side {b' : OrderBook} (h : b.Covered v) {w : Nat} (hvw : v ≤ w) {s : Side}
    (hs : Levels.Covers (b'.levels s) ∧ totalSum (b'.levels s) ≤ w)
    (ho : b'.levels s.opposite = b.levels s.opposite) : b'.Covered w := by
  intro t
  by_cases ht : t = s
  · exact ht ▸ hs
  · rw [Side.eq_opposite_of_ne ht, ho]
    exact (h.mono hvw) _

/-- `OrderBook::addOrder` adds what the order has left to one side's aggregates. -/
theorem Covered.addOrder (h : b.Covered v) {o : Order}
    (hw : v + o.remainingQuantity.toNat < 2 ^ 64) :
    (b.addOrder o).Covered (v + o.remainingQuantity.toNat) := by
  obtain ⟨hc, ht⟩ := h o.side
  obtain ⟨h1, h2⟩ := hc.update_addOrder (s := o.side) (p := o.price) (o := o)
    fun e he => by have := le_totalSum he; omega
  refine h.of_side (s := o.side) (Nat.le_add_right _ _) ?_ (by simp [OrderBook.addOrder])
  simp only [OrderBook.addOrder, levels_mk, levels_setLevels]
  exact ⟨h1, by omega⟩

theorem Covered.cancelOrder (h : b.Covered v) (i : OrderId) : (b.cancelOrder i).1.Covered v := by
  unfold OrderBook.cancelOrder
  split_ifs
  · split
    · next o _ =>
      obtain ⟨h1, h2⟩ := (h o.side).1.removeOrder (p := o.price) (i := i)
      refine h.of_side (s := o.side) le_rfl ?_ (by simp)
      simp only [levels_mk, levels_setLevels]
      exact ⟨h1, h2.trans (h o.side).2⟩
    · exact fun s => by cases s with
      | buy => exact h .buy
      | sell => exact h .sell
  · exact h

/-- `OrderBook::modifyOrder` takes the order off its level and adds it back with the new
quantity. -/
theorem Covered.modifyOrder (h : b.Covered v) (i : OrderId) (p : Price) (q : Quantity)
    (hw : v + q.toNat < 2 ^ 64) : (b.modifyOrder i p q).1.Covered (v + q.toNat) := by
  unfold OrderBook.modifyOrder
  split_ifs
  · split
    · next o _ =>
      obtain ⟨h1, h2⟩ := (h o.side).1.removeOrder (p := o.price) (i := i)
      have h3 := (h o.side).2
      obtain ⟨h4, h5⟩ := h1.update_addOrder (s := o.side) (p := p) (o := o.repost p q)
        fun e he => by have := le_totalSum he; simp only [Order.repost_remaining]; omega
      refine h.of_side (s := o.side) (Nat.le_add_right _ _) ?_ (by simp)
      simp only [levels_setLevels]
      exact ⟨h4, by simp only [Order.repost_remaining] at h5; omega⟩
    · exact h.mono (Nat.le_add_right _ _)
  · exact h.mono (Nat.le_add_right _ _)

theorem Covered.sweep (h : b.Covered v) (o : Order) : (b.sweep o).1.Covered v := by
  obtain ⟨h1, h2⟩ := @Levels.Covers.executeMatches o.side.opposite b.symbol o _ b.orderMap
    (h o.side.opposite).1
  refine h.of_side (s := o.side.opposite) le_rfl ?_ (by
    simp [OrderBook.sweep, levels_setLevels_of_ne _ (Side.opposite_ne o.side).symm])
  simp only [OrderBook.sweep, levels_mk, levels_setLevels]
  exact ⟨h1, h2.trans (h _).2⟩

/-- `OrderBook::matchOrder` adds to the aggregates at most what the taker had left: the
residual it may rest. -/
theorem Covered.matchOrder (h : b.Covered v) (o : Order)
    (hw : v + o.remainingQuantity.toNat < 2 ^ 64) :
    (b.matchOrder o).book.Covered (v + o.remainingQuantity.toNat) := by
  rcases matchOrder_cases b o with ⟨hb, -, -⟩ | ⟨hb, -, -⟩ | ⟨hb, -, -, -, -⟩
  · rw [hb]
    exact h.mono (Nat.le_add_right _ _)
  · rw [hb]
    exact (h.sweep o).mono (Nat.le_add_right _ _)
  · have hle := (sweep_accounting b o).1
    rw [hb]
    exact ((h.sweep o).addOrder (by omega)).mono (by omega)

/-- `matchOrder` read on the side it sweeps: what its trades carry is what the taker it hands
back has lost, and what the orders of the other side have lost. -/
theorem matchOrder_accounting (b : OrderBook) (o : Order) :
    (b.matchOrder o).order.remainingQuantity.toNat + traded (b.matchOrder o).trades =
        o.remainingQuantity.toNat ∧
      Levels.remainingSum ((b.matchOrder o).book.levels o.side.opposite) +
          traded (b.matchOrder o).trades = Levels.remainingSum (b.levels o.side.opposite) := by
  have hs := sweep_accounting b o
  rcases matchOrder_cases b o with ⟨hb, ht, hr⟩ | ⟨hb, ht, hr⟩ | ⟨hb, ht, -, -, hty⟩
  · rw [hb, ht, hr]
    exact ⟨rfl, rfl⟩
  · rwa [hb, ht, hr]
  · -- the residual rests on the taker's own side, which the accounting does not read
    have hside : (b.sweep o).2.1.side = o.side := sweep_taker Order.side (fun _ _ => rfl) b o
    rw [hb, ht, matchOrder_order_of_rests b hty, ← hside, levels_addOrder_opposite, hside]
    exact hs

end Covered

/-- What the orders of the levels of side `s` keyed at `p` have left. -/
def restingAt (b : OrderBook) (s : Side) (p : Price) : Nat :=
  Levels.remainingSum ((b.levels s).filter (·.1 = p))

/-- What the orders of the levels of side `s` that a taker with limit `limit` may trade at
have left: the levels no worse than the limit. -/
def restingWithin (b : OrderBook) (s : Side) (limit : Price) : Nat :=
  Levels.remainingSum ((b.levels s).filter fun e => ¬ s.better limit e.1)

section Fok

variable {b : OrderBook} {v : Nat}

/-- A sweep of a taker other than `LIMIT` stops only when the taker is used up or the side is:
nothing else breaks it off. -/
theorem sweep_exhausts (hv : b.Valid) {o : Order} (ht : o.type ≠ .limit)
    (hpos : 0 < (b.sweep o).2.1.remainingQuantity) : (b.sweep o).1.levels o.side.opposite = [] := by
  simp only [OrderBook.sweep, levels_mk, levels_setLevels] at hpos ⊢
  exact List.eq_nil_iff_forall_not_mem.mpr fun e he =>
    ht (executeMatches_residual (hv.wf _).sorted hpos e he).1

/-- The sweep uses a taker up when the other side holds what it has left. -/
theorem sweep_fills (hv : b.Valid) {o : Order} (ht : o.type ≠ .limit)
    (hq : o.remainingQuantity.toNat ≤ Levels.remainingSum (b.levels o.side.opposite)) :
    (b.sweep o).2.1.remainingQuantity.toNat = 0 ∧ traded (b.sweep o).2.2 = o.remainingQuantity.toNat := by
  have hacc := sweep_accounting b o
  by_cases hpos : 0 < (b.sweep o).2.1.remainingQuantity
  · rw [sweep_exhausts hv ht hpos, Levels.remainingSum_nil] at hacc
    rw [Quantity.lt_iff, UInt64.toNat_zero] at hpos
    omega
  · rw [Quantity.lt_iff, UInt64.toNat_zero] at hpos
    omega

/-- A taker that the levels within its limit can use up trades only within its limit: the
levels come best first, so it is used up before the sweep reaches any other. -/
theorem executeMatches_within {levelSide : Side} {symbol : Symbol} :
    ∀ {o : Order} {ls : Levels} {m : List OrderId}, ls.Sorted levelSide →
      (∀ x ∈ Levels.entries ls, x.2.price = x.1) →
      o.remainingQuantity.toNat ≤
        Levels.remainingSum (ls.filter fun e => ¬ levelSide.better o.price e.1) →
      ∀ t ∈ (executeMatches levelSide symbol o ls m).trades, ¬ levelSide.better o.price t.price
  | o, [], m, _, _, _, t, ht => by simp [executeMatches] at ht
  | o, (p, l) :: ls, m, hs, hx, hq, t, ht => by
    by_cases ho : 0 < o.remainingQuantity
    · by_cases hb : priceBreak levelSide o p
      · simp [executeMatches, ho, hb] at ht
      · by_cases hp : levelSide.better o.price p
        · -- no level is within the limit, so nothing could use the taker up
          have hnil : (((p, l) :: ls).filter fun e => ¬ levelSide.better o.price e.1) = [] :=
            List.filter_eq_nil_iff.mpr fun e he => by
              rcases List.mem_cons.mp he with rfl | he
              · simpa using hp
              · simpa using Side.better_trans hp
                  (Levels.Sorted.head_better hs (List.mem_map_of_mem _ he))
          rw [hnil, Levels.remainingSum_nil] at hq
          simp only [Quantity.lt_iff, UInt64.toNat_zero] at ho
          omega
        · rw [executeMatches_cons ho hb] at ht
          have hlev : ∀ t ∈ (matchQueue symbol o l.orders m).trades, t.price = p := fun t ht => by
            obtain ⟨r, hr, h⟩ := matchQueue_trade_price ht
            exact h.trans (hx (p, r) (by simp [hr]))
          split at ht
          · next hnil =>
            rcases List.mem_append.mp ht with h | h
            · exact hlev t h ▸ hp
            · -- the level is drained, and the later levels within the limit hold the rest
              have hacc := (@matchQueue_accounting symbol o l.orders m).1
              have hdrain := (@matchQueue_accounting symbol o l.orders m).2
              have hprice := @matchQueue_taker symbol Price Order.price (fun _ _ => rfl) o l.orders m
              rw [hnil, List.map_nil, List.sum_nil, Nat.zero_add] at hdrain
              rw [List.filter_cons_of_pos (by simpa using hp), Levels.remainingSum_cons] at hq
              have h' := executeMatches_within (Levels.sorted_cons.mp hs).2
                (fun x h => hx x (by simp [h])) (by rw [hprice]; unfold PriceLevel.remainingSum at hq; omega) t h
              rwa [hprice] at h'
          · exact hlev t ht ▸ hp
    · simp [executeMatches_of_zero ho] at ht

/-- Against a valid covered book whose aggregates fit in 64 bits, a `FOK` taker that the levels
within its limit can fill passes `canFillEntireOrder`, and the sweep then fills it completely. -/
theorem Covered.matchOrder_fok (hv : b.Valid) (hc : b.Covered v) (hw : v < 2 ^ 64) {o : Order}
    (ht : o.type = .fok) (hpos : 0 < o.remainingQuantity)
    (hliq : o.remainingQuantity.toNat ≤ b.restingWithin o.side.opposite o.price) :
    (b.matchOrder o).order.status = .filled ∧
      traded (b.matchOrder o).trades = o.remainingQuantity.toNat ∧
      ∀ t ∈ (b.matchOrder o).trades, ¬ o.side.opposite.better o.price t.price := by
  obtain ⟨hcov, htot⟩ := hc o.side.opposite
  -- the aggregates within the limit hold at least what rests there, and do not wrap
  have hwithin : o.remainingQuantity.toNat ≤
      totalSum (pricedWithin o.side.opposite o (b.levels o.side.opposite)) :=
    hliq.trans (hcov.filter _).remainingSum_le
  have hsum := Levels.totalSum_filter_le (fun e => ¬ o.side.opposite.better o.price e.1)
    (b.levels o.side.opposite)
  have hfill : canFillEntireOrder o.side.opposite o (b.levels o.side.opposite) 0 = true :=
    canFillEntireOrder_complete ht (by simp) (hv.wf _).sorted (by simpa using hpos)
      (by simp only [UInt64.toNat_zero, Nat.zero_add, pricedWithin]; omega)
      (by simpa using hwithin)
  have hm : b.matchOrder o = ⟨(b.sweep o).1, (b.sweep o).2.1, (b.sweep o).2.2⟩ := by
    simp [OrderBook.matchOrder, ht, matchFOKOrder, hfill]
  obtain ⟨h0, htr⟩ := sweep_fills hv (by rw [ht]; decide)
    (hliq.trans (Levels.remainingSum_filter_le _ _))
  -- a fill that leaves nothing marks the taker filled
  have hst := @executeMatches_taker_of b.symbol o.side.opposite
    (fun o' => o'.remainingQuantity.toNat = 0 → o'.status = .filled)
    (fun _ _ _ h => Order.fill_status_of_zero (Quantity.eq_zero_iff.mpr h)) o
    (b.levels o.side.opposite) b.orderMap
    (fun h => absurd h (Nat.pos_iff_ne_zero.mp (by simpa using hpos)))
  rw [hm]
  exact ⟨hst h0, htr, executeMatches_within (hv.wf _).sorted
    (fun x hx => ((hv.wf _).placed x hx).2) hliq⟩

end Fok

end OrderBook

namespace MatchingEngineCore

open OrderBook (Covered)

/-- What a call can add to the levels: a new order's quantity, or a modified order's new
quantity. -/
def Request.volume : Request → Nat
  | .submitOrder _ _ _ _ quantity _ => quantity.toNat
  | .cancelOrder _ => 0
  | .modifyOrder _ _ newQuantity => newQuantity.toNat

section CoveredBooks

variable {e : MatchingEngineCore} {v : Nat}

/-- Every registered book is covered within `v`. -/
def CoveredBooks (v : Nat) (e : MatchingEngineCore) : Prop :=
  ∀ s b, e.orderBooks s = some b → b.Covered v

theorem coveredBooks_init : init.CoveredBooks 0 := fun _ _ h => by simp [init] at h

theorem CoveredBooks.bookFor (h : e.CoveredBooks v) (s : Symbol) : (e.bookFor s).Covered v := by
  unfold MatchingEngineCore.bookFor
  cases hb : e.orderBooks s with
  | none => exact (OrderBook.covered_empty s).mono (Nat.zero_le _)
  | some b => exact h s b hb

/-- One call adds at most its volume to the bound. -/
theorem CoveredBooks.step (h : e.CoveredBooks v) :
    ∀ r, v + r.volume < 2 ^ 64 → (e.step r).CoveredBooks (v + r.volume)
  | .submitOrder .., hw => fun s b' hb' => by
    rcases submitOrder_orderBooks hb' with ⟨-, rfl⟩ | ⟨-, hb⟩
    · exact (h.bookFor _).matchOrder _ hw
    · exact (h s b' hb).mono (Nat.le_add_right _ _)
  | .cancelOrder i, _ => fun s b' hb' => by
    rcases cancelOrder_orderBooks hb' with hb | ⟨b, hb, rfl⟩
    · exact h s b' hb
    · exact (h s b hb).cancelOrder i
  | .modifyOrder i p q, hw => fun s b' hb' => by
    rcases modifyOrder_orderBooks hb' with hb | ⟨b, hb, rfl⟩
    · exact (h s b' hb).mono (Nat.le_add_right _ _)
    · exact (h s b hb).modifyOrder i p q hw

/-- Over a run whose volume fits in 64 bits with the bound, every book stays covered within
the bound plus the volume. -/
theorem CoveredBooks.run : ∀ {e : MatchingEngineCore} {v : Nat}, e.CoveredBooks v →
    ∀ rs : List Request, v + (rs.map Request.volume).sum < 2 ^ 64 →
      (e.run rs).CoveredBooks (v + (rs.map Request.volume).sum)
  | _, _, h, [], _ => h
  | _, v, h, r :: rs, hw => by
    simp only [List.map_cons, List.sum_cons] at hw ⊢
    rw [← Nat.add_assoc]
    exact CoveredBooks.run (h.step r (by omega)) rs (by omega)

end CoveredBooks

theorem bookFor_submitOrder (e : MatchingEngineCore) (symbol : Symbol) (side : Side)
    (type : OrderType) (price : Price) (quantity : Quantity) (stopPrice : Price) :
    (e.submitOrder symbol side type price quantity stopPrice).1.bookFor symbol =
      ((e.bookFor symbol).matchOrder
        (Order.new e.nextOrderId symbol side type price quantity stopPrice)).book := by
  simp [submitOrder_eq, bookFor]

/-- Every submission, from any engine state: what its trades carry is what the order it hands
back has lost of its quantity, and what the orders resting on the other side of its book have
lost. -/
theorem submitOrder_accounting (e : MatchingEngineCore) (symbol : Symbol) (side : Side)
    (type : OrderType) (price : Price) (quantity : Quantity) (stopPrice : Price) :
    (e.submitOrder symbol side type price quantity stopPrice).2.order.remainingQuantity.toNat +
        traded (e.submitOrder symbol side type price quantity stopPrice).2.trades =
        quantity.toNat ∧
      Levels.remainingSum
          (((e.submitOrder symbol side type price quantity stopPrice).1.bookFor symbol).levels
            side.opposite) +
        traded (e.submitOrder symbol side type price quantity stopPrice).2.trades =
        Levels.remainingSum ((e.bookFor symbol).levels side.opposite) := by
  rw [bookFor_submitOrder, submitOrder_eq]
  exact OrderBook.matchOrder_accounting _ _

/-- After any run whose requested volume fits in 64 bits, the quantity
`getBidQuantityAtLevel` and `getAskQuantityAtLevel` report at a price is never less than what
the orders resting there have left, and each side's aggregates add up to at most the volume
requested. -/
theorem run_levels_cover (rs : List Request) (hw : (rs.map Request.volume).sum < 2 ^ 64)
    (symbol : Symbol) (p : Price) :
    ((init.run rs).bookFor symbol).restingAt .buy p ≤
        (((init.run rs).bookFor symbol).getBidQuantityAtLevel p).toNat ∧
      ((init.run rs).bookFor symbol).restingAt .sell p ≤
        (((init.run rs).bookFor symbol).getAskQuantityAtLevel p).toNat ∧
      ∀ s, OrderBook.totalSum (((init.run rs).bookFor symbol).levels s) ≤
        (rs.map Request.volume).sum := by
  have hc := (coveredBooks_init.run rs (by simpa using hw)).bookFor symbol
  have hv := ((inv_init.run rs).bookFor symbol).valid
  rw [Nat.zero_add] at hc
  exact ⟨(hc .buy).1.remainingSum_at_le (hv.wf .buy).sorted.nodup p,
    (hc .sell).1.remainingSum_at_le (hv.wf .sell).sorted.nodup p, fun s => (hc s).2⟩

/-- A sell of 100 at 10, then a buy of 60 at 10: the level keeps saying 100 where 40 rests. -/
def sellThenBuy : List Request :=
  [.submitOrder "AAA" .sell .limit 10 100 0, .submitOrder "AAA" .buy .limit 10 60 0]

theorem run_levels_cover_sell_then_buy :
    (sellThenBuy.map Request.volume).sum < 2 ^ 64 ∧
      ((init.run sellThenBuy).bookFor "AAA").restingAt .buy 10 ≤
        (((init.run sellThenBuy).bookFor "AAA").getBidQuantityAtLevel 10).toNat ∧
      ((init.run sellThenBuy).bookFor "AAA").restingAt .sell 10 ≤
        (((init.run sellThenBuy).bookFor "AAA").getAskQuantityAtLevel 10).toNat ∧
      ∀ s, OrderBook.totalSum (((init.run sellThenBuy).bookFor "AAA").levels s) ≤
        (sellThenBuy.map Request.volume).sum :=
  ⟨by decide, run_levels_cover sellThenBuy (by decide) "AAA" 10⟩

/-- After any run whose requested volume fits in 64 bits, a `FOK` order with a positive
quantity that the orders resting within its limit on the other side can fill passes
`canFillEntireOrder` whatever the aggregates say, and is filled completely. -/
theorem run_fok_fills (rs : List Request) (hw : (rs.map Request.volume).sum < 2 ^ 64)
    (symbol : Symbol) (side : Side) (price : Price) (quantity : Quantity) (stopPrice : Price)
    (hq : 0 < quantity)
    (hliq : quantity.toNat ≤ ((init.run rs).bookFor symbol).restingWithin side.opposite price) :
    ((init.run rs).submitOrder symbol side .fok price quantity stopPrice).2.order.status =
        .filled ∧
      traded ((init.run rs).submitOrder symbol side .fok price quantity stopPrice).2.trades =
        quantity.toNat ∧
      ∀ t ∈ ((init.run rs).submitOrder symbol side .fok price quantity stopPrice).2.trades,
        (side = .buy → t.price ≤ price) ∧ (side = .sell → price ≤ t.price) := by
  have hc := (coveredBooks_init.run rs (by simpa using hw)).bookFor symbol
  have hv := ((inv_init.run rs).bookFor symbol).valid
  rw [submitOrder_eq]
  obtain ⟨h1, h2, h3⟩ := hc.matchOrder_fok hv (by simpa using hw)
    (o := Order.new (init.run rs).nextOrderId symbol side .fok price quantity stopPrice) rfl hq hliq
  refine ⟨h1, h2, fun t ht => ?_⟩
  have hb := h3 t ht
  cases side
  · exact ⟨fun _ => not_lt.mp hb, nofun⟩
  · exact ⟨nofun, fun _ => not_lt.mp hb⟩

/-- On the book `sellThenBuy` leaves (40 resting at 10 under an aggregate of 100), a `FOK`
buy for 30 at 10 is filled. -/
theorem run_fok_fills_thirty :
    (sellThenBuy.map Request.volume).sum < 2 ^ 64 ∧ (0 : Quantity) < 30 ∧
      (30 : Quantity).toNat ≤
        ((init.run sellThenBuy).bookFor "AAA").restingWithin Side.buy.opposite 10 ∧
      ((init.run sellThenBuy).submitOrder "AAA" .buy .fok 10 30 0).2.order.status = .filled ∧
      traded ((init.run sellThenBuy).submitOrder "AAA" .buy .fok 10 30 0).2.trades =
        (30 : Quantity).toNat ∧
      ∀ t ∈ ((init.run sellThenBuy).submitOrder "AAA" .buy .fok 10 30 0).2.trades,
        (Side.buy = .buy → t.price ≤ 10) ∧ (Side.buy = .sell → 10 ≤ t.price) :=
  have hliq : (30 : Quantity).toNat ≤
      ((init.run sellThenBuy).bookFor "AAA").restingWithin Side.buy.opposite 10 := by decide
  ⟨by decide, by decide, hliq,
    run_fok_fills sellThenBuy (by decide) "AAA" .buy 10 30 0 (by decide) hliq⟩

end MatchingEngineCore

end MatchingEngine
