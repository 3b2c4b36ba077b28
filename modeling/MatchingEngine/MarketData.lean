import MatchingEngine.EngineInv

/-!
# The engine's queries — `getOrder`, `getBestBid`/`getBestAsk`, `getBidDepth`/`getAskDepth`,
`getTotalOrders`/`getTotalTrades`

`MatchingEngineCore::getOrder` goes through `orderToSymbol_`, which is never cleaned up when a
sweep fills an order, and then through the book's `orderMap_`. On every reachable state it
still answers exactly for the orders that rest: it returns an order for an id exactly when an
order with that id rests, in the book of its own symbol, and then that order
(`Inv.getOrder_eq_some_iff`, `run_getOrder`). Filled and cancelled orders are gone.

`getBestBid` and `getBestAsk` read the first key of `bids_` and `asks_`. On every reachable
state that is the highest resting buy price and the lowest resting sell price, and both are
the price of some resting order when the side holds one; the depth lists its levels best first,
each price once (`run_best_prices`).

`getTotalOrders` and `getTotalTrades` return `totalOrders_` and `totalTrades_`. After any run
the `k`-th submission has been handed id `k`, and the two count the submissions and every trade
the submissions returned (`run_counters`).
-/

namespace MatchingEngine

namespace Levels

/-- The best price of a side well formed for it: every resting order of the side is at or
behind the first key, and when the side holds an order, some order sits at that key. -/
theorem WF.head_best {s : Side} {ls : Levels} (hw : ls.WF s) :
    ∀ p l rest, ls = (p, l) :: rest →
      (∀ x ∈ Levels.entries ls, x.2.price = p ∨ s.better p x.2.price) ∧
        ∃ x ∈ Levels.entries ls, x.2.price = p := by
  rintro p l rest rfl
  refine ⟨fun x hx => ?_, ?_⟩
  · rw [(hw.placed x hx).2]
    rw [Levels.entries_cons, List.mem_append] at hx
    rcases hx with h | h
    · obtain ⟨r, -, rfl⟩ := List.mem_map.mp h
      exact .inl rfl
    · exact .inr (Levels.Sorted.head_better hw.sorted (Levels.key_mem_keys h))
  · obtain ⟨r, hr⟩ := List.exists_mem_of_ne_nil _ (hw.nonempty (p, l) (List.mem_cons_self _ _))
    have hx : (p, r) ∈ Levels.entries ((p, l) :: rest) := by simp [hr]
    exact ⟨(p, r), hx, (hw.placed _ hx).2⟩

end Levels

namespace OrderBook

variable {b : OrderBook}

/-- On a valid book, `OrderBook::getOrder` returns exactly the resting order with the id. -/
theorem Valid.getOrder_eq_some_iff (hv : b.Valid) (i : OrderId) (o : Order) :
    b.getOrder i = some o ↔ (o.price, o) ∈ b.entries ∧ o.orderId = i := by
  constructor
  · intro h
    unfold OrderBook.getOrder OrderBook.findResting at h
    split_ifs at h
    obtain ⟨x, hx, rfl⟩ := Option.map_eq_some'.mp h
    have hmem := List.mem_of_find?_eq_some hx
    have hid : x.2.orderId = i := by simpa using List.find?_some hx
    rw [← (hv.mem_entries hmem).1]
    exact ⟨hmem, hid⟩
  · rintro ⟨hx, rfl⟩
    have hi : o.orderId ∈ b.orderMap := (hv.mem_orderMap _).mpr (List.mem_map_of_mem _ hx)
    obtain ⟨o', hf, hid, ho'⟩ := hv.findResting hi
    -- the id rests once, so the order found is `o`
    have ho := (hv.mem_entries hx).2
    rw [OrderBook.getOrder, if_pos hi, hf]
    exact congrArg (some ·.2) (hv.eq_of_orderId_eq ho' ho hid).2

/-- On a valid book with a level on side `s`, every order resting on the side is at or behind
that level's key, and some order rests at it. -/
theorem Valid.best {s : Side} (hv : b.Valid) {p : Price} {l : PriceLevel} {rest : Levels}
    (hs : b.levels s = (p, l) :: rest) :
    (∀ x ∈ b.entries, x.2.side = s → x.2.price = p ∨ s.better p x.2.price) ∧
      ∃ x ∈ b.entries, x.2.side = s ∧ x.2.price = p := by
  obtain ⟨h1, x, hx, hp⟩ := (hv.wf s).head_best p l rest hs
  refine ⟨fun y hy hys => h1 y ?_, x, mem_entries_iff.mpr ⟨s, hx⟩, ((hv.wf s).placed x hx).1, hp⟩
  exact hys ▸ (hv.mem_entries hy).2

/-- A side with no level holds no order. -/
theorem Valid.no_order {s : Side} (hv : b.Valid) (hs : b.levels s = []) :
    ∀ x ∈ b.entries, x.2.side ≠ s := fun x hx hxs => by
  have := (hv.mem_entries hx).2
  rw [hxs, hs] at this
  simp at this

/-- On a valid book, `getBestBid` is at least the price of every resting buy, and is the
price of one when a buy rests. -/
theorem Valid.bestBid (hv : b.Valid) :
    (∀ x ∈ b.entries, x.2.side = .buy → x.2.price ≤ b.getBestBid) ∧
      ((∃ x ∈ b.entries, x.2.side = .buy) →
        ∃ x ∈ b.entries, x.2.side = .buy ∧ x.2.price = b.getBestBid) := by
  unfold getBestBid
  split
  · next hb =>
    have hno := hv.no_order (s := .buy) hb
    exact ⟨fun x hx hs => absurd hs (hno x hx), fun ⟨x, hx, hs⟩ => absurd hs (hno x hx)⟩
  · next p l rest hb =>
    obtain ⟨h1, h2⟩ := hv.best (s := .buy) hb
    exact ⟨fun x hx hs => (h1 x hx hs).elim le_of_eq le_of_lt, fun _ => h2⟩

/-- On a valid book, `getBestAsk` is at most the price of every resting sell, and is the
price of one when a sell rests. -/
theorem Valid.bestAsk (hv : b.Valid) :
    (∀ x ∈ b.entries, x.2.side = .sell → b.getBestAsk ≤ x.2.price) ∧
      ((∃ x ∈ b.entries, x.2.side = .sell) →
        ∃ x ∈ b.entries, x.2.side = .sell ∧ x.2.price = b.getBestAsk) := by
  unfold getBestAsk
  split
  · next hb =>
    have hno := hv.no_order (s := .sell) hb
    exact ⟨fun x hx hs => absurd hs (hno x hx), fun ⟨x, hx, hs⟩ => absurd hs (hno x hx)⟩
  · next p l rest hb =>
    obtain ⟨h1, h2⟩ := hv.best (s := .sell) hb
    exact ⟨fun x hx hs => (h1 x hx hs).elim ge_of_eq le_of_lt, fun _ => h2⟩

/-- The depth lists the side's levels best first, each price once. -/
theorem Valid.depth_sorted (hv : b.Valid) (n : Nat) :
    (b.getBidDepth n).Pairwise (fun a c => c.1 < a.1) ∧
      (b.getAskDepth n).Pairwise (fun a c => a.1 < c.1) := by
  have hb := (hv.wf .buy).sorted
  have ha := (hv.wf .sell).sorted
  unfold Levels.Sorted Levels.keys at hb ha
  exact ⟨List.pairwise_map.mpr ((List.pairwise_map.mp hb).sublist (List.take_sublist _ _)),
    List.pairwise_map.mpr ((List.pairwise_map.mp ha).sublist (List.take_sublist _ _))⟩

end OrderBook

namespace MatchingEngineCore

open OrderBook (Valid)

variable {e : MatchingEngineCore}

/-- On every state keeping `Inv`, `MatchingEngineCore::getOrder` returns an order for an id
exactly when an order with that id rests in the book of its own symbol, and then that order. -/
theorem Inv.getOrder_eq_some_iff (h : e.Inv) (i : OrderId) (o : Order) :
    e.getOrder i = some o ↔
      ∃ b, e.orderBooks o.symbol = some b ∧ (o.price, o) ∈ b.entries ∧ o.orderId = i := by
  constructor
  · intro hg
    unfold MatchingEngineCore.getOrder at hg
    split at hg
    · cases hg
    · next s hs =>
      split at hg
      · cases hg
      · next b hb =>
        obtain ⟨hx, hid⟩ := ((h s b hb).valid.getOrder_eq_some_iff i o).mp hg
        rw [← ((h s b hb).routed _ hx).1] at hb
        exact ⟨b, hb, hx, hid⟩
  · rintro ⟨b, hb, hx, rfl⟩
    -- a resting order is routed to its own symbol
    have hr := ((h _ b hb).routed _ hx).2
    simp only [MatchingEngineCore.getOrder, hr, hb]
    exact ((h _ b hb).valid.getOrder_eq_some_iff _ o).mpr ⟨hx, rfl⟩

/-- After any run from a fresh engine, `getOrder` finds exactly the resting orders: an order
for an id exactly when an order with that id rests in the book of its own symbol, and then
that order. Filled and cancelled orders are not found. -/
theorem run_getOrder (rs : List Request) (i : OrderId) (o : Order) :
    (init.run rs).getOrder i = some o ↔
      ∃ b, (init.run rs).orderBooks o.symbol = some b ∧ (o.price, o) ∈ b.entries ∧
        o.orderId = i :=
  (inv_init.run rs).getOrder_eq_some_iff i o

/-! ## Market data -/

theorem getBestBid_eq (e : MatchingEngineCore) (symbol : Symbol) :
    e.getBestBid symbol = (e.bookFor symbol).getBestBid := by
  unfold getBestBid bookFor
  cases e.orderBooks symbol <;> rfl

theorem getBestAsk_eq (e : MatchingEngineCore) (symbol : Symbol) :
    e.getBestAsk symbol = (e.bookFor symbol).getBestAsk := by
  unfold getBestAsk bookFor
  cases e.orderBooks symbol <;> rfl

theorem getBidDepth_eq (e : MatchingEngineCore) (symbol : Symbol) (n : Nat) :
    e.getBidDepth symbol n = (e.bookFor symbol).getBidDepth n := by
  unfold getBidDepth bookFor
  cases e.orderBooks symbol
  · simp [OrderBook.getBidDepth, OrderBook.empty]
  · rfl

theorem getAskDepth_eq (e : MatchingEngineCore) (symbol : Symbol) (n : Nat) :
    e.getAskDepth symbol n = (e.bookFor symbol).getAskDepth n := by
  unfold getAskDepth bookFor
  cases e.orderBooks symbol
  · simp [OrderBook.getAskDepth, OrderBook.empty]
  · rfl

/-- After any run from a fresh engine, for every symbol: `getBestBid` is at least the price of
every resting buy and is the price of one when a buy rests, `getBestAsk` is at most the price
of every resting sell and is the price of one when a sell rests, and the depths list their
prices best first, each once. -/
theorem run_best_prices (rs : List Request) (symbol : Symbol) (n : Nat) :
    (∀ x ∈ ((init.run rs).bookFor symbol).entries, x.2.side = .buy →
        x.2.price ≤ (init.run rs).getBestBid symbol) ∧
      ((∃ x ∈ ((init.run rs).bookFor symbol).entries, x.2.side = .buy) →
        ∃ x ∈ ((init.run rs).bookFor symbol).entries, x.2.side = .buy ∧
          x.2.price = (init.run rs).getBestBid symbol) ∧
      (∀ x ∈ ((init.run rs).bookFor symbol).entries, x.2.side = .sell →
        (init.run rs).getBestAsk symbol ≤ x.2.price) ∧
      ((∃ x ∈ ((init.run rs).bookFor symbol).entries, x.2.side = .sell) →
        ∃ x ∈ ((init.run rs).bookFor symbol).entries, x.2.side = .sell ∧
          x.2.price = (init.run rs).getBestAsk symbol) ∧
      ((init.run rs).getBidDepth symbol n).Pairwise (fun a c => c.1 < a.1) ∧
      ((init.run rs).getAskDepth symbol n).Pairwise (fun a c => a.1 < c.1) := by
  have hv := ((inv_init.run rs).bookFor symbol).valid
  rw [getBestBid_eq, getBestAsk_eq, getBidDepth_eq, getAskDepth_eq]
  exact ⟨hv.bestBid.1, hv.bestBid.2, hv.bestAsk.1, hv.bestAsk.2, hv.depth_sorted n⟩

/-! ## Counters -/

def Request.isSubmit : Request → Bool
  | .submitOrder .. => true
  | _ => false

/-- The trades a run's calls return, in order: what `notifyTrade` is called with. -/
def tradeLog : MatchingEngineCore → List Request → List Trade
  | _, [] => []
  | e, r :: rs => e.tradesOf r ++ tradeLog (e.step r) rs

/-- `cancelOrder` and `modifyOrder` leave the id counter and both totals alone. -/
theorem counters_cancelOrder (e : MatchingEngineCore) (i : OrderId) :
    (e.cancelOrder i).1.nextOrderId = e.nextOrderId ∧ (e.cancelOrder i).1.totalOrders = e.totalOrders ∧
      (e.cancelOrder i).1.totalTrades = e.totalTrades := by
  unfold cancelOrder
  split
  · exact ⟨rfl, rfl, rfl⟩
  · split <;> exact ⟨rfl, rfl, rfl⟩

theorem counters_modifyOrder (e : MatchingEngineCore) (i : OrderId) (p : Price) (q : Quantity) :
    (e.modifyOrder i p q).1.nextOrderId = e.nextOrderId ∧
      (e.modifyOrder i p q).1.totalOrders = e.totalOrders ∧
      (e.modifyOrder i p q).1.totalTrades = e.totalTrades := by
  unfold modifyOrder
  split
  · exact ⟨rfl, rfl, rfl⟩
  · split <;> exact ⟨rfl, rfl, rfl⟩

/-- One call: a submission takes one id, counts one order and counts the trades it returns;
the other calls count nothing. -/
theorem counters_step (e : MatchingEngineCore) (r : Request) :
    (e.step r).nextOrderId = e.nextOrderId + (if r.isSubmit then 1 else 0) ∧
      (e.step r).totalOrders = e.totalOrders + (if r.isSubmit then 1 else 0) ∧
      (e.step r).totalTrades = e.totalTrades + (e.tradesOf r).length := by
  cases r with
  | submitOrder symbol side type price quantity stopPrice =>
    simp [step, tradesOf, submitOrder_eq, Request.isSubmit]
  | cancelOrder i => simpa [step, tradesOf, Request.isSubmit] using counters_cancelOrder e i
  | modifyOrder i p q => simpa [step, tradesOf, Request.isSubmit] using counters_modifyOrder e i p q

theorem counters_run : ∀ (e : MatchingEngineCore) (rs : List Request),
    (e.run rs).nextOrderId = e.nextOrderId + rs.countP Request.isSubmit ∧
      (e.run rs).totalOrders = e.totalOrders + rs.countP Request.isSubmit ∧
      (e.run rs).totalTrades = e.totalTrades + (tradeLog e rs).length
  | e, [] => ⟨rfl, rfl, rfl⟩
  | e, r :: rs => by
    obtain ⟨h1, h2, h3⟩ := counters_step e r
    obtain ⟨ih1, ih2, ih3⟩ := counters_run (e.step r) rs
    show ((e.step r).run rs).nextOrderId = _ ∧ ((e.step r).run rs).totalOrders = _ ∧
      ((e.step r).run rs).totalTrades = _
    rw [ih1, ih2, ih3, h1, h2, h3, tradeLog, List.length_append, List.countP_cons]
    unfold OrderId
    omega

/-- The id a call is handed back, if it is a submission. -/
def idsOf (e : MatchingEngineCore) : Request → List OrderId
  | .submitOrder symbol side type price quantity stopPrice =>
    [(e.submitOrder symbol side type price quantity stopPrice).2.orderId]
  | _ => []

/-- The ids a run's submissions are handed, in order. -/
def idLog : MatchingEngineCore → List Request → List OrderId
  | _, [] => []
  | e, r :: rs => e.idsOf r ++ idLog (e.step r) rs

theorem idsOf_eq (e : MatchingEngineCore) (r : Request) :
    e.idsOf r = if r.isSubmit then [e.nextOrderId] else [] := by
  cases r <;> simp [idsOf, submitOrder_eq, Request.isSubmit]

/-- A run hands out the counter's next ids, one per submission, in order. -/
theorem idLog_eq : ∀ (e : MatchingEngineCore) (rs : List Request),
    idLog e rs = List.range' e.nextOrderId (rs.countP Request.isSubmit)
  | e, [] => rfl
  | e, r :: rs => by
    rw [idLog, idLog_eq (e.step r) rs, idsOf_eq, (counters_step e r).1, List.countP_cons]
    cases r.isSubmit <;> simp [List.range'_succ]

/-- After any run from a fresh engine, the `k`-th submission is handed id `k`,
`getTotalOrders` counts the submissions and the next id is one past it, and `getTotalTrades`
counts every trade the submissions returned. -/
theorem run_counters (rs : List Request) :
    idLog init rs = List.range' 1 (rs.countP Request.isSubmit) ∧
      (init.run rs).totalOrders = rs.countP Request.isSubmit ∧
      (init.run rs).nextOrderId = (init.run rs).totalOrders + 1 ∧
      (init.run rs).totalTrades = (tradeLog init rs).length := by
  obtain ⟨h1, h2, h3⟩ := counters_run init rs
  refine ⟨idLog_eq init rs, by simpa [init] using h2, ?_, by simpa [init] using h3⟩
  rw [h1, h2]
  show (1 : Nat) + _ = 0 + _ + 1
  omega

end MatchingEngineCore

end MatchingEngine
