import MatchingEngine.OrderBook

/-!
# The engine — `MatchingEngine.h/.cpp`

`MatchingEngineCore` owns one `OrderBook` per symbol, created on first use, and routes
cancels and modifies through `orderToSymbol_`. Sequentially, every public call is one step
from engine to engine; `run` folds a list of requests.

Mirroring notes vs the C++:
- `orderBooks_` and `orderToSymbol_` are `std::unordered_map`s. No core function iterates
  them, so they are functions into `Option`, updated with `Function.update`.
- `submitOrder` holds a raw pointer to its book across `matchOrder`; sequentially that is
  writing the matched book back under its symbol.
- `clientId` (stored on the order, read by nothing in the core), the callbacks (which only
  observe) and `mutex_` are not modelled. What the final `notifyOrder` and the trade
  callbacks see is returned as a `Submission`.
- `totalOrders_` and `totalTrades_` are `size_t` counters; they are `Nat` here, like ids.
-/

namespace MatchingEngine

/-- `class MatchingEngineCore`, without callbacks and mutex. -/
structure MatchingEngineCore where
  orderBooks : Symbol → Option OrderBook
  orderToSymbol : OrderId → Option Symbol
  nextOrderId : OrderId
  totalOrders : Nat
  totalTrades : Nat

/-- What a submission hands back: the new id, the order as the final `notifyOrder` sees it,
and the trades passed to the trade callback. -/
structure Submission where
  orderId : OrderId
  order : Order
  trades : List Trade

namespace MatchingEngineCore

/-- `MatchingEngineCore::MatchingEngineCore`: no books, ids from 1. -/
def init : MatchingEngineCore := ⟨fun _ => none, fun _ => none, 1, 0, 0⟩

/-- `getOrCreateOrderBook`: the registered book, or a new empty one, registered. -/
def getOrCreateOrderBook (e : MatchingEngineCore) (symbol : Symbol) :
    MatchingEngineCore × OrderBook :=
  match e.orderBooks symbol with
  | some b => (e, b)
  | none => ({ e with orderBooks := Function.update e.orderBooks symbol (some (.empty symbol)) },
      .empty symbol)

/-- `submitOrder`: take the next id, build the order, find or create the book, record the
id's symbol, match, and count the trades. -/
def submitOrder (e : MatchingEngineCore) (symbol : Symbol) (side : Side) (type : OrderType)
    (price : Price) (quantity : Quantity) (stopPrice : Price := 0) :
    MatchingEngineCore × Submission :=
  let orderId := e.nextOrderId
  let order := Order.new orderId symbol side type price quantity stopPrice
  let got := getOrCreateOrderBook
    { e with nextOrderId := orderId + 1, totalOrders := e.totalOrders + 1 } symbol
  let e := { got.1 with orderToSymbol := Function.update got.1.orderToSymbol orderId (some symbol) }
  let r := got.2.matchOrder order
  ({ e with orderBooks := Function.update e.orderBooks symbol (some r.book),
            totalTrades := e.totalTrades + r.trades.length }, ⟨orderId, r.order, r.trades⟩)

/-- `MatchingEngineCore::cancelOrder`: route by `orderToSymbol_`, cancel in the book, and on
success forget the id's symbol. -/
def cancelOrder (e : MatchingEngineCore) (orderId : OrderId) : MatchingEngineCore × Bool :=
  match e.orderToSymbol orderId with
  | none => (e, false)
  | some symbol =>
    match e.orderBooks symbol with
    | none => (e, false)
    | some b =>
      let r := b.cancelOrder orderId
      ({ e with orderBooks := Function.update e.orderBooks symbol (some r.1),
                orderToSymbol := if r.2 then Function.update e.orderToSymbol orderId none
                  else e.orderToSymbol }, r.2)

/-- `MatchingEngineCore::modifyOrder`: route by `orderToSymbol_` and modify in the book. -/
def modifyOrder (e : MatchingEngineCore) (orderId : OrderId) (newPrice : Price)
    (newQuantity : Quantity) : MatchingEngineCore × Bool :=
  match e.orderToSymbol orderId with
  | none => (e, false)
  | some symbol =>
    match e.orderBooks symbol with
    | none => (e, false)
    | some b =>
      let r := b.modifyOrder orderId newPrice newQuantity
      ({ e with orderBooks := Function.update e.orderBooks symbol (some r.1) }, r.2)

/-- `MatchingEngineCore::getOrder`: route by `orderToSymbol_` and ask the book. -/
def getOrder (e : MatchingEngineCore) (orderId : OrderId) : Option Order :=
  match e.orderToSymbol orderId with
  | none => none
  | some symbol =>
    match e.orderBooks symbol with
    | none => none
    | some b => b.getOrder orderId

/-- `MatchingEngineCore::getBestBid`: 0 for a symbol with no book. -/
def getBestBid (e : MatchingEngineCore) (symbol : Symbol) : Price :=
  ((e.orderBooks symbol).map OrderBook.getBestBid).getD 0

/-- `MatchingEngineCore::getBestAsk`. -/
def getBestAsk (e : MatchingEngineCore) (symbol : Symbol) : Price :=
  ((e.orderBooks symbol).map OrderBook.getBestAsk).getD 0

/-- `MatchingEngineCore::getBidDepth`: empty for a symbol with no book. -/
def getBidDepth (e : MatchingEngineCore) (symbol : Symbol) (levels : Nat := 10) :
    List (Price × Quantity) :=
  ((e.orderBooks symbol).map (·.getBidDepth levels)).getD []

/-- `MatchingEngineCore::getAskDepth`. -/
def getAskDepth (e : MatchingEngineCore) (symbol : Symbol) (levels : Nat := 10) :
    List (Price × Quantity) :=
  ((e.orderBooks symbol).map (·.getAskDepth levels)).getD []

/-! ## Runs -/

/-- A call of the public mutating interface. -/
inductive Request
  | submitOrder (symbol : Symbol) (side : Side) (type : OrderType) (price : Price)
      (quantity : Quantity) (stopPrice : Price)
  | cancelOrder (orderId : OrderId)
  | modifyOrder (orderId : OrderId) (newPrice : Price) (newQuantity : Quantity)
  deriving DecidableEq, Repr

/-- One call, sequentially. -/
def step (e : MatchingEngineCore) : Request → MatchingEngineCore
  | .submitOrder symbol side type price quantity stopPrice =>
    (e.submitOrder symbol side type price quantity stopPrice).1
  | .cancelOrder orderId => (e.cancelOrder orderId).1
  | .modifyOrder orderId newPrice newQuantity => (e.modifyOrder orderId newPrice newQuantity).1

/-- The trades a call emits. -/
def tradesOf (e : MatchingEngineCore) : Request → List Trade
  | .submitOrder symbol side type price quantity stopPrice =>
    (e.submitOrder symbol side type price quantity stopPrice).2.trades
  | _ => []

/-- A sequence of calls. -/
def run (e : MatchingEngineCore) (rs : List Request) : MatchingEngineCore := rs.foldl step e

@[simp] theorem run_nil (e : MatchingEngineCore) : e.run [] = e := rfl

@[simp] theorem run_append_singleton (e : MatchingEngineCore) (rs : List Request) (r : Request) :
    e.run (rs ++ [r]) = (e.run rs).step r := by
  simp [run]

/-! ## One spec lemma per call -/

/-- The book a submission on `symbol` matches into. -/
def bookFor (e : MatchingEngineCore) (symbol : Symbol) : OrderBook :=
  (e.orderBooks symbol).getD (.empty symbol)

theorem submitOrder_eq (e : MatchingEngineCore) (symbol : Symbol) (side : Side)
    (type : OrderType) (price : Price) (quantity : Quantity) (stopPrice : Price) :
    e.submitOrder symbol side type price quantity stopPrice =
      let o := Order.new e.nextOrderId symbol side type price quantity stopPrice
      let r := (e.bookFor symbol).matchOrder o
      (⟨Function.update e.orderBooks symbol (some r.book),
        Function.update e.orderToSymbol e.nextOrderId (some symbol), e.nextOrderId + 1,
        e.totalOrders + 1, e.totalTrades + r.trades.length⟩, ⟨e.nextOrderId, r.order, r.trades⟩) := by
  simp only [submitOrder, getOrCreateOrderBook, bookFor]
  cases e.orderBooks symbol <;> simp

/-- A routed cancel: the book of the id's symbol cancels, and on success the id is
forgotten. -/
theorem cancelOrder_of_route {e : MatchingEngineCore} {i : OrderId} {s : Symbol}
    {b : OrderBook} (hs : e.orderToSymbol i = some s) (hb : e.orderBooks s = some b) :
    e.cancelOrder i = ({ e with
      orderBooks := Function.update e.orderBooks s (some (b.cancelOrder i).1),
      orderToSymbol := if (b.cancelOrder i).2 then Function.update e.orderToSymbol i none
        else e.orderToSymbol }, (b.cancelOrder i).2) := by
  simp [cancelOrder, hs, hb]

/-- A cancel that finds no book does nothing. -/
theorem cancelOrder_of_no_route {e : MatchingEngineCore} {i : OrderId}
    (h : ∀ s, e.orderToSymbol i = some s → e.orderBooks s = none) : e.cancelOrder i = (e, false) := by
  unfold cancelOrder
  split
  · rfl
  · next s hs => simp [h s hs]

theorem modifyOrder_of_route {e : MatchingEngineCore} {i : OrderId} {s : Symbol}
    {b : OrderBook} (hs : e.orderToSymbol i = some s) (hb : e.orderBooks s = some b)
    (p : Price) (q : Quantity) :
    e.modifyOrder i p q = ({ e with
      orderBooks := Function.update e.orderBooks s (some (b.modifyOrder i p q).1) },
      (b.modifyOrder i p q).2) := by
  simp [modifyOrder, hs, hb]

theorem modifyOrder_of_no_route {e : MatchingEngineCore} {i : OrderId}
    (h : ∀ s, e.orderToSymbol i = some s → e.orderBooks s = none) (p : Price) (q : Quantity) :
    e.modifyOrder i p q = (e, false) := by
  unfold modifyOrder
  split
  · rfl
  · next s hs => simp [h s hs]

@[simp] theorem cancelOrder_nextOrderId (e : MatchingEngineCore) (i : OrderId) :
    (e.cancelOrder i).1.nextOrderId = e.nextOrderId := by
  unfold cancelOrder
  split
  · rfl
  · split <;> rfl

@[simp] theorem modifyOrder_nextOrderId (e : MatchingEngineCore) (i : OrderId) (p : Price)
    (q : Quantity) : (e.modifyOrder i p q).1.nextOrderId = e.nextOrderId := by
  unfold modifyOrder
  split
  · rfl
  · split <;> rfl

@[simp] theorem submitOrder_nextOrderId (e : MatchingEngineCore) (symbol : Symbol) (side : Side)
    (type : OrderType) (price : Price) (quantity : Quantity) (stopPrice : Price) :
    (e.submitOrder symbol side type price quantity stopPrice).1.nextOrderId = e.nextOrderId + 1 := by
  rw [submitOrder_eq]

/-- No book is reached from an id with no route to an existing book. -/
theorem no_route {e : MatchingEngineCore} {i : OrderId}
    (hr : ¬ ∃ s b, e.orderToSymbol i = some s ∧ e.orderBooks s = some b) :
    ∀ s, e.orderToSymbol i = some s → e.orderBooks s = none := fun s hs => by
  cases hb : e.orderBooks s with
  | none => rfl
  | some b => exact absurd ⟨s, b, hs, hb⟩ hr

/-- Where each book after a submission comes from: the book of the symbol, matched, or an
untouched other book. -/
theorem submitOrder_orderBooks {e : MatchingEngineCore} {symbol : Symbol} {side : Side}
    {type : OrderType} {price : Price} {quantity : Quantity} {stopPrice : Price} {s : Symbol}
    {b' : OrderBook}
    (h : (e.submitOrder symbol side type price quantity stopPrice).1.orderBooks s = some b') :
    (s = symbol ∧ b' = ((e.bookFor symbol).matchOrder
      (Order.new e.nextOrderId symbol side type price quantity stopPrice)).book) ∨
    (s ≠ symbol ∧ e.orderBooks s = some b') := by
  rw [submitOrder_eq] at h
  dsimp only at h
  by_cases hs : s = symbol
  · subst hs
    simp only [Function.update_same, Option.some.injEq] at h
    exact .inl ⟨rfl, h.symm⟩
  · rw [Function.update_noteq hs] at h
    exact .inr ⟨hs, h⟩

/-- Where each book after a cancel comes from: an untouched book, or a book that cancelled. -/
theorem cancelOrder_orderBooks {e : MatchingEngineCore} {i : OrderId} {s : Symbol}
    {b' : OrderBook} (h : (e.cancelOrder i).1.orderBooks s = some b') :
    e.orderBooks s = some b' ∨ ∃ b, e.orderBooks s = some b ∧ b' = (b.cancelOrder i).1 := by
  by_cases hr : ∃ s₀ b, e.orderToSymbol i = some s₀ ∧ e.orderBooks s₀ = some b
  · obtain ⟨s₀, b, hs, hb⟩ := hr
    rw [cancelOrder_of_route hs hb] at h
    dsimp only at h
    by_cases hss : s = s₀
    · subst hss
      simp only [Function.update_same, Option.some.injEq] at h
      exact .inr ⟨b, hb, h.symm⟩
    · rw [Function.update_noteq hss] at h
      exact .inl h
  · rw [cancelOrder_of_no_route (no_route hr)] at h
    exact .inl h

/-- Where each book after a modify comes from: an untouched book, or a book that modified. -/
theorem modifyOrder_orderBooks {e : MatchingEngineCore} {i : OrderId} {p : Price}
    {q : Quantity} {s : Symbol} {b' : OrderBook}
    (h : (e.modifyOrder i p q).1.orderBooks s = some b') :
    e.orderBooks s = some b' ∨ ∃ b, e.orderBooks s = some b ∧ b' = (b.modifyOrder i p q).1 := by
  by_cases hr : ∃ s₀ b, e.orderToSymbol i = some s₀ ∧ e.orderBooks s₀ = some b
  · obtain ⟨s₀, b, hs, hb⟩ := hr
    rw [modifyOrder_of_route hs hb] at h
    dsimp only at h
    by_cases hss : s = s₀
    · subst hss
      simp only [Function.update_same, Option.some.injEq] at h
      exact .inr ⟨b, hb, h.symm⟩
    · rw [Function.update_noteq hss] at h
      exact .inl h
  · rw [modifyOrder_of_no_route (no_route hr)] at h
    exact .inl h

end MatchingEngineCore

end MatchingEngine
