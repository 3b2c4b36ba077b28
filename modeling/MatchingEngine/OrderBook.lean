import MatchingEngine.PriceLevel

/-!
# The order book — `OrderBook.h/.cpp`

One symbol's book: `bids_` and `asks_` (`Levels` under `Side.better`) and the id index
`orderMap_`, with every public operation of `OrderBook` and the matching algorithm.

Mirroring notes vs the C++:
- `orderMap_` maps an id to the very `OrderPtr` queued in a level, so that a fill through
  the level is seen through the index. The model keeps the index's key list, and
  dereferencing a key (`findResting`) finds the order with that id in the levels. Every
  write through the pointer is a write to that level entry.
- The C++ repeats each side-dependent body twice, once for `bids_` and once for `asks_`;
  here the side is an argument (`levels`, `setLevels`), as is the map type that selects an
  overload of `executeMatches` and `canFillEntireOrder`.
- The `mutex_` is not modelled: every public call is one atomic step (see `Concurrent.lean`).
- `executeMatches` leaves each level's `totalQuantity_` and id index as they were, and its
  `fillEntireOrder` argument is never read: both are kept exactly so.
-/

namespace MatchingEngine

/-- `class OrderBook`, without its mutex. -/
structure OrderBook where
  symbol : Symbol
  bids : Levels
  asks : Levels
  orderMap : List OrderId
  deriving DecidableEq, Repr, Inhabited

namespace OrderBook

/-- `OrderBook::OrderBook(symbol)`. -/
def empty (symbol : Symbol) : OrderBook := ⟨symbol, [], [], []⟩

/-- The side holding orders of side `s`: `bids_` for buys, `asks_` for sells. -/
def levels (b : OrderBook) : Side → Levels
  | .buy => b.bids
  | .sell => b.asks

/-- Write back the side holding orders of side `s`. -/
def setLevels (b : OrderBook) : Side → Levels → OrderBook
  | .buy, ls => { b with bids := ls }
  | .sell, ls => { b with asks := ls }

@[simp] theorem levels_setLevels (b : OrderBook) (s : Side) (ls : Levels) :
    (b.setLevels s ls).levels s = ls := by cases s <;> rfl

@[simp] theorem levels_setLevels_opposite (b : OrderBook) (s : Side) (ls : Levels) :
    (b.setLevels s ls).levels s.opposite = b.levels s.opposite := by cases s <;> rfl

theorem levels_setLevels_of_ne (b : OrderBook) {s t : Side} (h : t ≠ s) (ls : Levels) :
    (b.setLevels s ls).levels t = b.levels t := by
  cases s <;> cases t <;> first | rfl | exact absurd rfl h

@[simp] theorem symbol_setLevels (b : OrderBook) (s : Side) (ls : Levels) :
    (b.setLevels s ls).symbol = b.symbol := by cases s <;> rfl

@[simp] theorem orderMap_setLevels (b : OrderBook) (s : Side) (ls : Levels) :
    (b.setLevels s ls).orderMap = b.orderMap := by cases s <;> rfl

@[simp] theorem levels_empty (symbol : Symbol) (s : Side) : (empty symbol).levels s = [] := by
  cases s <;> rfl

/-- Every resting order of the book with its level's key: `bids_` first, then `asks_`. -/
def entries (b : OrderBook) : List (Price × Order) :=
  Levels.entries b.bids ++ Levels.entries b.asks

/-- The ids of the resting orders. -/
def restingIds (b : OrderBook) : List OrderId := b.entries.map (·.2.orderId)

/-- Dereferencing `orderMap_[orderId]`: the order with that id queued in a level. -/
def findResting (b : OrderBook) (orderId : OrderId) : Option Order :=
  (b.entries.find? (·.2.orderId == orderId)).map (·.2)

/-- `OrderBook::getOrder`. -/
def getOrder (b : OrderBook) (orderId : OrderId) : Option Order :=
  if orderId ∈ b.orderMap then b.findResting orderId else none

/-- `OrderBook::addOrder`: index the order and append it to the level at its price on its
side, creating the level if needed. No matching. -/
def addOrder (b : OrderBook) (o : Order) : OrderBook :=
  { b.setLevels o.side ((b.levels o.side).update o.side o.price (·.addOrder o)) with
    orderMap := b.orderMap.insert o.orderId }

/-- `OrderBook::cancelOrder`: a resting order is unlinked from its level (the level erased
if that empties it) and from `orderMap_`. Its status becomes `CANCELLED`, which only
holders of the pointer outside the book can still see. -/
def cancelOrder (b : OrderBook) (orderId : OrderId) : OrderBook × Bool :=
  if orderId ∈ b.orderMap then
    match b.findResting orderId with
    | some o =>
      ({ b.setLevels o.side ((b.levels o.side).removeOrder o.price orderId) with
          orderMap := b.orderMap.erase orderId }, true)
    | none => ({ b with orderMap := b.orderMap.erase orderId }, true)
  else (b, false)

/-- `OrderBook::modifyOrder`: unlink the order, give it the new price and quantity (which
resets what remains) and `PENDING`, and append it at the new price on the same side — it
loses its time priority and is not matched. -/
def modifyOrder (b : OrderBook) (orderId : OrderId) (newPrice : Price)
    (newQuantity : Quantity) : OrderBook × Bool :=
  if orderId ∈ b.orderMap then
    match b.findResting orderId with
    | some o =>
      let ls := (b.levels o.side).removeOrder o.price orderId
      (b.setLevels o.side
        (ls.update o.side newPrice (·.addOrder (o.repost newPrice newQuantity))), true)
    | none => (b, true)
  else (b, false)

/-! ## Matching -/

/-- What the inner loop of `executeMatches` hands back after one level's queue: the taker,
the queue, `orderMap_` and the trades of this level in emission order. -/
structure QueuePass where
  taker : Order
  orders : List Order
  orderMap : List OrderId
  trades : List Trade

/-- The inner loop of `executeMatches` over one level's FIFO queue: while the taker has
something left, fill it against the head for the smaller of the two remainders at the
head's price, and unlink a head that is filled (from the queue and from `orderMap_`). -/
def matchQueue (symbol : Symbol) : Order → List Order → List OrderId → QueuePass
  | o, [], m => ⟨o, [], m, []⟩
  | o, r :: rs, m =>
    if 0 < o.remainingQuantity then
      let q := min o.remainingQuantity r.remainingQuantity
      let t := fillTrade symbol o r q
      if (r.fill q).isFilled then
        let p := matchQueue symbol (o.fill q) rs (m.erase r.orderId)
        { p with trades := t :: p.trades }
      else
        let p := matchQueue symbol (o.fill q) rs m
        { p with orders := r.fill q :: p.orders, trades := t :: p.trades }
    else ⟨o, r :: rs, m, []⟩

/-- The price check of `executeMatches`, made only for `LIMIT` takers: the asks overload
stops a buy at a level above its price, the bids overload a sell at one below it. -/
def priceBreak (levelSide : Side) (o : Order) (p : Price) : Prop :=
  o.type = .limit ∧ o.side = levelSide.opposite ∧ levelSide.better o.price p

instance (levelSide : Side) (o : Order) (p : Price) : Decidable (priceBreak levelSide o p) :=
  inferInstanceAs (Decidable (_ ∧ _))

/-- What `executeMatches` hands back: the taker, the swept side, `orderMap_`, the trades. -/
structure Sweep where
  taker : Order
  levels : Levels
  orderMap : List OrderId
  trades : List Trade

/-- `OrderBook::executeMatches`, both overloads (`levelSide` is the side whose levels are
swept: `.sell` for `asks_`, `.buy` for `bids_`). Levels are visited best first while the
taker has something left; a level its queue pass empties is erased. Neither the level's
`totalQuantity_` nor its id index is touched. -/
def executeMatches (levelSide : Side) (symbol : Symbol) : Order → Levels → List OrderId → Sweep
  | o, [], m => ⟨o, [], m, []⟩
  | o, (p, l) :: ls, m =>
    if 0 < o.remainingQuantity then
      if priceBreak levelSide o p then ⟨o, (p, l) :: ls, m, []⟩
      else
        let qp := matchQueue symbol o l.orders m
        let s := executeMatches levelSide symbol qp.taker ls qp.orderMap
        if qp.orders.isEmpty then { s with trades := qp.trades ++ s.trades }
        else { s with levels := (p, { l with orders := qp.orders }) :: s.levels,
                      trades := qp.trades ++ s.trades }
    else ⟨o, (p, l) :: ls, m, []⟩

/-- `OrderBook::canFillEntireOrder`, both overloads: add up the levels' `totalQuantity_`
(in `uint64_t`, so the sum wraps) best first, stopping at the first level a `LIMIT` or
`FOK` taker may not trade at, and answer whether the sum ever reaches what remains. -/
def canFillEntireOrder (levelSide : Side) (o : Order) : Levels → Quantity → Bool
  | [], _ => false
  | (p, l) :: ls, availableQty =>
    if (o.type = .limit ∨ o.type = .fok) ∧ o.side = levelSide.opposite ∧
        levelSide.better o.price p then false
    else if o.remainingQuantity ≤ availableQty + l.totalQuantity then true
    else canFillEntireOrder levelSide o ls (availableQty + l.totalQuantity)

/-- `executeMatches` of a taker against the other side of the book, with the swept side and
`orderMap_` written back: the book, the taker and the trades afterwards. -/
def sweep (b : OrderBook) (o : Order) : OrderBook × Order × List Trade :=
  let r := executeMatches o.side.opposite b.symbol o (b.levels o.side.opposite) b.orderMap
  ({ b.setLevels o.side.opposite r.levels with orderMap := r.orderMap }, r.taker, r.trades)

/-- What `matchOrder` hands back: the book, the taker (as the caller's pointer sees it),
the trades. -/
structure MatchResult where
  book : OrderBook
  order : Order
  trades : List Trade

/-- `OrderBook::matchMarketOrder`: sweep with no price limit, cancel what is left. -/
def matchMarketOrder (b : OrderBook) (o : Order) : MatchResult :=
  let (b', o', ts) := b.sweep o
  ⟨b', if 0 < o'.remainingQuantity then { o' with status := .cancelled } else o', ts⟩

/-- `OrderBook::matchLimitOrder`: sweep, then rest what is left of an active order at its
price on its own side. -/
def matchLimitOrder (b : OrderBook) (o : Order) : MatchResult :=
  let (b', o', ts) := b.sweep o
  if 0 < o'.remainingQuantity ∧ o'.isActive then ⟨b'.addOrder o', o', ts⟩ else ⟨b', o', ts⟩

/-- `OrderBook::matchIOCOrder`: the body of `matchMarketOrder`, statement for statement
(the sweep's price check only ever applies to `LIMIT`). -/
def matchIOCOrder (b : OrderBook) (o : Order) : MatchResult :=
  let (b', o', ts) := b.sweep o
  ⟨b', if 0 < o'.remainingQuantity then { o' with status := .cancelled } else o', ts⟩

/-- `OrderBook::matchFOKOrder`: ask `canFillEntireOrder`; on no, cancel with the book
untouched, on yes sweep (and do nothing about a remainder). -/
def matchFOKOrder (b : OrderBook) (o : Order) : MatchResult :=
  if canFillEntireOrder o.side.opposite o (b.levels o.side.opposite) 0 then
    let (b', o', ts) := b.sweep o
    ⟨b', o', ts⟩
  else ⟨b, { o with status := .cancelled }, []⟩

/-- `OrderBook::matchOrder`: dispatch on the type; stop orders go to `matchLimitOrder`. -/
def matchOrder (b : OrderBook) (o : Order) : MatchResult :=
  match o.type with
  | .market => b.matchMarketOrder o
  | .limit => b.matchLimitOrder o
  | .ioc => b.matchIOCOrder o
  | .fok => b.matchFOKOrder o
  | .stopLoss => b.matchLimitOrder o
  | .stopLimit => b.matchLimitOrder o

/-! ## Market data -/

/-- `OrderBook::getBestBid`: the first key of `bids_`, or 0. -/
def getBestBid (b : OrderBook) : Price :=
  match b.bids with
  | [] => 0
  | (p, _) :: _ => p

/-- `OrderBook::getBestAsk`: the first key of `asks_`, or 0. -/
def getBestAsk (b : OrderBook) : Price :=
  match b.asks with
  | [] => 0
  | (p, _) :: _ => p

/-- `OrderBook::getBidQuantityAtLevel`: the level's `totalQuantity_`, or 0. -/
def getBidQuantityAtLevel (b : OrderBook) (price : Price) : Quantity :=
  ((b.bids.lookup price).map (·.totalQuantity)).getD 0

/-- `OrderBook::getAskQuantityAtLevel`. -/
def getAskQuantityAtLevel (b : OrderBook) (price : Price) : Quantity :=
  ((b.asks.lookup price).map (·.totalQuantity)).getD 0

/-- `OrderBook::getBidDepth`: up to `n` pairs `(price, totalQuantity_)`, best first. -/
def getBidDepth (b : OrderBook) (n : Nat := 10) : List (Price × Quantity) :=
  (b.bids.take n).map fun e => (e.1, e.2.totalQuantity)

/-- `OrderBook::getAskDepth`. -/
def getAskDepth (b : OrderBook) (n : Nat := 10) : List (Price × Quantity) :=
  (b.asks.take n).map fun e => (e.1, e.2.totalQuantity)

end OrderBook

end MatchingEngine
