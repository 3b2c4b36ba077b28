import Mathlib

/-!
# Orders and trades — `Common.h`, `Order.h/.cpp`, `Trade.h`

The value types every other file is built from: the enums of `Common.h`, the `Order`
record with its one piece of behaviour that matching uses (`Order::fill`), and the `Trade`
record `executeMatches` emits.

Mirroring notes vs the C++:
- `Quantity` is `uint64_t` and stays `UInt64`: a level's `totalQuantity_` and the FOK
  accumulator `availableQty` are sums that wrap, so the width is part of the behaviour.
- `Price` is `int64_t`. The core only compares prices and copies them into trades, so `Int`
  is exact on every `int64_t` input.
- `OrderId` is `uint64_t`, handed out by `MatchingEngineCore`'s counter from 1 upwards, one
  per submitted order. It is `Nat` here: the counter wraps only after 2^64 submissions.
- `timestamp_` (a clock reading) and `clientId_` (written by `submitOrder`, read by no core
  function) are not modelled, nor is `Trade::timestamp_`.
-/

namespace MatchingEngine

abbrev OrderId := Nat
abbrev Price := Int
abbrev Quantity := UInt64
abbrev Symbol := String

/-- `enum class Side`. -/
inductive Side
  | buy
  | sell
  deriving DecidableEq, Repr, Inhabited

/-- `enum class OrderType`. -/
inductive OrderType
  | market
  | limit
  | stopLoss
  | stopLimit
  | ioc
  | fok
  deriving DecidableEq, Repr, Inhabited

/-- `enum class OrderStatus`. -/
inductive OrderStatus
  | pending
  | partialFill
  | filled
  | cancelled
  | rejected
  deriving DecidableEq, Repr, Inhabited

/-- The other side: the book an order of side `s` trades against (`asks_` for a buy). -/
def Side.opposite : Side → Side
  | .buy => .sell
  | .sell => .buy

@[simp] theorem Side.opposite_opposite (s : Side) : s.opposite.opposite = s := by
  cases s <;> rfl

@[simp] theorem Side.opposite_ne (s : Side) : s.opposite ≠ s := by
  cases s <;> decide

theorem Side.eq_opposite_of_ne : ∀ {s t : Side}, t ≠ s → t = s.opposite
  | .buy, .buy, h | .sell, .sell, h => absurd rfl h
  | .buy, .sell, _ | .sell, .buy, _ => rfl

/-- `better s p q`: in the book of side `s`, a level at `p` comes before one at `q` —
`bids_` is a `std::map` under `std::greater`, `asks_` under `std::less`. -/
def Side.better : Side → Price → Price → Prop
  | .buy, p, q => q < p
  | .sell, p, q => p < q

instance (s : Side) (p q : Price) : Decidable (s.better p q) :=
  match s with
  | .buy => inferInstanceAs (Decidable (q < p))
  | .sell => inferInstanceAs (Decidable (p < q))

theorem Side.better_trans : ∀ {s : Side} {p q r : Price}, s.better p q → s.better q r →
    s.better p r
  | .buy, _, _, _, h₁, h₂ => Int.lt_trans h₂ h₁
  | .sell, _, _, _, h₁, h₂ => Int.lt_trans h₁ h₂

theorem Side.better_irrefl (s : Side) (p : Price) : ¬ s.better p p := by
  cases s <;> simp [Side.better]

theorem Side.better_asymm {s : Side} {p q : Price} (h : s.better p q) : ¬ s.better q p :=
  fun h' => s.better_irrefl p (Side.better_trans h h')

theorem Side.better_total : ∀ (s : Side) {p q : Price}, p ≠ q → s.better p q ∨ s.better q p
  | .buy, _, _, h => (Int.lt_or_gt_of_ne h).symm
  | .sell, _, _, h => Int.lt_or_gt_of_ne h

theorem Side.better_ne {s : Side} {p q : Price} (h : s.better p q) : p ≠ q := by
  rintro rfl; exact s.better_irrefl p h

/-! ## Quantities

`UInt64`'s order is the order of `toNat`; these rewrite comparisons into `Nat` so that
`omega` closes the arithmetic. -/

@[simp] theorem Quantity.lt_iff {a b : Quantity} : a < b ↔ a.toNat < b.toNat := Iff.rfl

@[simp] theorem Quantity.le_iff {a b : Quantity} : a ≤ b ↔ a.toNat ≤ b.toNat := Iff.rfl

theorem Quantity.eq_iff {a b : Quantity} : a = b ↔ a.toNat = b.toNat :=
  ⟨congrArg _, UInt64.toNat.inj⟩

@[simp] theorem Quantity.eq_zero_iff {a : Quantity} : a = 0 ↔ a.toNat = 0 := Quantity.eq_iff

theorem Quantity.toNat_min (a b : Quantity) : (min a b).toNat = min a.toNat b.toNat := by
  show (if a ≤ b then a else b).toNat = _
  split
  · next h => rw [Nat.min_eq_left (Quantity.le_iff.mp h)]
  · next h => rw [Nat.min_eq_right (Nat.le_of_lt (Nat.lt_of_not_le (mt Quantity.le_iff.mpr h)))]

theorem Quantity.toNat_add (a b : Quantity) : (a + b).toNat = (a.toNat + b.toNat) % 2 ^ 64 :=
  rfl

/-! ## `Order` -/

/-- `class Order` (`Order.h`), its fields without `timestamp_` and `clientId_`. -/
structure Order where
  orderId : OrderId
  symbol : Symbol
  side : Side
  type : OrderType
  price : Price
  quantity : Quantity
  remainingQuantity : Quantity
  stopPrice : Price
  status : OrderStatus
  deriving DecidableEq, Repr, Inhabited

namespace Order

/-- The constructor `Order::Order`: all of the quantity remains, and the order is pending. -/
def new (orderId : OrderId) (symbol : Symbol) (side : Side) (type : OrderType) (price : Price)
    (quantity : Quantity) (stopPrice : Price := 0) : Order :=
  { orderId, symbol, side, type, price, quantity, remainingQuantity := quantity, stopPrice,
    status := .pending }

/-- `Order::getFilledQuantity`. -/
def getFilledQuantity (o : Order) : Quantity := o.quantity - o.remainingQuantity

/-- `Order::isFilled`. -/
def isFilled (o : Order) : Bool := o.remainingQuantity == 0

/-- `Order::isActive`: pending or partially filled. -/
def isActive (o : Order) : Bool := o.status == .pending || o.status == .partialFill

/-- `Order::fill`: the fill is clamped to what remains; reaching zero makes the order
filled, anything short of its quantity makes it partially filled. -/
def fill (o : Order) (quantity : Quantity) : Order :=
  let quantity := if quantity > o.remainingQuantity then o.remainingQuantity else quantity
  let remaining := o.remainingQuantity - quantity
  { o with
    remainingQuantity := remaining
    status := if remaining = 0 then .filled
      else if remaining < o.quantity then .partialFill else o.status }

/-- `Order::shouldTrigger`: stop orders only; a buy stop triggers at or above its stop
price, a sell stop at or below it. -/
def shouldTrigger (o : Order) (currentPrice : Price) : Bool :=
  if o.type ≠ .stopLoss ∧ o.type ≠ .stopLimit then false
  else if o.side = .buy then decide (currentPrice ≥ o.stopPrice)
  else decide (currentPrice ≤ o.stopPrice)

/-- `Order::setPrice`, `setQuantity` (which resets the remaining quantity) and
`setStatus (PENDING)`, as `OrderBook::modifyOrder` applies them. -/
def repost (o : Order) (newPrice : Price) (newQuantity : Quantity) : Order :=
  { o with price := newPrice, quantity := newQuantity, remainingQuantity := newQuantity,
           status := .pending }

@[simp] theorem fill_orderId (o : Order) (q : Quantity) : (o.fill q).orderId = o.orderId := rfl
@[simp] theorem fill_symbol (o : Order) (q : Quantity) : (o.fill q).symbol = o.symbol := rfl
@[simp] theorem fill_side (o : Order) (q : Quantity) : (o.fill q).side = o.side := rfl
@[simp] theorem fill_type (o : Order) (q : Quantity) : (o.fill q).type = o.type := rfl
@[simp] theorem fill_price (o : Order) (q : Quantity) : (o.fill q).price = o.price := rfl
@[simp] theorem fill_quantity (o : Order) (q : Quantity) : (o.fill q).quantity = o.quantity := rfl

/-- What remains after a fill, in `Nat`: the clamp makes the subtraction truncate. -/
@[simp] theorem fill_remaining_toNat (o : Order) (q : Quantity) :
    (o.fill q).remainingQuantity.toNat = o.remainingQuantity.toNat - q.toNat := by
  simp only [fill]
  split
  · next h =>
    simp only [gt_iff_lt, Quantity.lt_iff] at h
    rw [UInt64.toNat_sub_of_le _ _ (by simp)]
    omega
  · next h =>
    simp only [gt_iff_lt, Quantity.lt_iff, not_lt] at h
    rw [UInt64.toNat_sub_of_le _ _ (by simpa using h)]

theorem fill_status (o : Order) (q : Quantity) : (o.fill q).status =
    if (o.fill q).remainingQuantity = 0 then .filled
    else if (o.fill q).remainingQuantity < o.quantity then .partialFill else o.status := rfl

theorem fill_status_of_pos {o : Order} {q : Quantity}
    (h : (o.fill q).remainingQuantity ≠ 0) :
    (o.fill q).status = .partialFill ∨ (o.fill q).status = o.status := by
  rw [fill_status, if_neg h]
  split
  · exact .inl rfl
  · exact .inr rfl

theorem fill_status_of_zero {o : Order} {q : Quantity}
    (h : (o.fill q).remainingQuantity = 0) : (o.fill q).status = .filled := by
  rw [fill_status, if_pos h]

/-- A fill that leaves something keeps an active order active. -/
theorem isActive_fill {o : Order} {q : Quantity} (ha : o.isActive)
    (h : (o.fill q).remainingQuantity ≠ 0) : (o.fill q).isActive := by
  rcases fill_status_of_pos h with hs | hs <;> simp_all [isActive]

theorem isFilled_iff (o : Order) : o.isFilled ↔ o.remainingQuantity.toNat = 0 := by
  simp [isFilled]

/-- A fill keeps what remains within the quantity. -/
theorem fill_bounded {o : Order} (h : o.remainingQuantity ≤ o.quantity) (q : Quantity) :
    (o.fill q).remainingQuantity ≤ (o.fill q).quantity := by
  simp only [Quantity.le_iff, fill_remaining_toNat, fill_quantity] at *
  omega

/-- A positive fill that leaves something of an order holding at most its quantity makes it
partially filled. -/
theorem fill_status_partialFill {o : Order} {q : Quantity} (hq : 0 < q)
    (hle : o.remainingQuantity ≤ o.quantity) (h : (o.fill q).remainingQuantity ≠ 0) :
    (o.fill q).status = .partialFill := by
  have hlt : (o.fill q).remainingQuantity < o.quantity := by
    simp only [Quantity.lt_iff, Quantity.le_iff, ne_eq, Quantity.eq_zero_iff,
      fill_remaining_toNat, UInt64.toNat_zero] at *
    omega
  rw [fill_status, if_neg h, if_pos hlt]

@[simp] theorem repost_orderId (o : Order) (p : Price) (q : Quantity) :
    (o.repost p q).orderId = o.orderId := rfl
@[simp] theorem repost_side (o : Order) (p : Price) (q : Quantity) :
    (o.repost p q).side = o.side := rfl
@[simp] theorem repost_symbol (o : Order) (p : Price) (q : Quantity) :
    (o.repost p q).symbol = o.symbol := rfl
@[simp] theorem repost_price (o : Order) (p : Price) (q : Quantity) :
    (o.repost p q).price = p := rfl
@[simp] theorem repost_remaining (o : Order) (p : Price) (q : Quantity) :
    (o.repost p q).remainingQuantity = q := rfl
@[simp] theorem repost_isActive (o : Order) (p : Price) (q : Quantity) :
    (o.repost p q).isActive := rfl

end Order

/-! ## `Trade` -/

/-- `class Trade` (`Trade.h`) without its timestamp. -/
structure Trade where
  buyOrderId : OrderId
  sellOrderId : OrderId
  symbol : Symbol
  price : Price
  quantity : Quantity
  deriving DecidableEq, Repr, Inhabited

/-- The trade `executeMatches` emits when taker `o` meets resting order `r` for `q`: the
ids go by side, and the price is the resting order's (price improvement to the taker). -/
def fillTrade (symbol : Symbol) (o r : Order) (q : Quantity) : Trade where
  buyOrderId := if o.side = .buy then o.orderId else r.orderId
  sellOrderId := if o.side = .sell then o.orderId else r.orderId
  symbol := symbol
  price := r.price
  quantity := q

/-- The resting side's id in a trade whose taker is on side `s`. -/
def Trade.counterparty (t : Trade) : Side → OrderId
  | .buy => t.sellOrderId
  | .sell => t.buyOrderId

@[simp] theorem counterparty_fillTrade (symbol : Symbol) (o r : Order) (q : Quantity) :
    (fillTrade symbol o r q).counterparty o.side = r.orderId := by
  cases h : o.side <;> simp [fillTrade, Trade.counterparty, h]

end MatchingEngine
