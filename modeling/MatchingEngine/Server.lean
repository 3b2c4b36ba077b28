import MatchingEngine.EngineInv

/-!
# The server's request handlers — `Server::handleNewOrder`, `handleCancelOrder`, `handleModifyOrder`

Each request `handleClient` dispatches is one engine call followed by what the server sends
back: an `ORDER_ACK` first, and for a new order an `EXECUTION_REPORT` when
`MatchingEngineCore::getOrder` still finds the order and it is no longer `PENDING`. A
`HEARTBEAT` is echoed.

Serving requests one after another drives the engine through exactly the matching public
calls (`serve_engine`), so every invariant proved of engine runs holds of the engine behind
the server. So a cancel is acknowledged `CANCELLED` exactly when its id rests in some book
(`serve_cancel_ack`).

Mirroring notes vs the C++:
- A request is its decoded fields; `Wire.lean` models the byte stream they arrive in.
- The `clientId` passed to `submitOrder` is read by no core function and is dropped, as are
  the logging and the socket.
- `setSymbol` and `setMessage` `strncpy` into `char[16]` and `char[128]`: a report's symbol
  keeps its first 15 characters, and every acknowledgement text fits its array.
-/

namespace MatchingEngine

namespace Server

/-- The fields of a `NewOrderMessage` that `handleNewOrder` reads. -/
structure NewOrderMessage where
  clientOrderId : OrderId
  symbol : Symbol
  side : Side
  orderType : OrderType
  price : Price
  quantity : Quantity
  stopPrice : Price
  deriving DecidableEq, Repr

structure CancelOrderMessage where
  orderId : OrderId
  deriving DecidableEq, Repr

structure ModifyOrderMessage where
  orderId : OrderId
  newPrice : Price
  newQuantity : Quantity
  deriving DecidableEq, Repr

/-- `OrderAckMessage`, with the values its constructor writes. -/
structure OrderAckMessage where
  clientOrderId : OrderId := 0
  orderId : OrderId := 0
  status : OrderStatus := .pending
  message : String := ""
  deriving DecidableEq, Repr

/-- `ExecutionReportMessage`, with the values its constructor writes. -/
structure ExecutionReportMessage where
  orderId : OrderId := 0
  symbol : Symbol := ""
  side : Side := .buy
  executionPrice : Price := 0
  executionQuantity : Quantity := 0
  remainingQuantity : Quantity := 0
  status : OrderStatus := .pending
  tradeId : Nat := 0
  deriving DecidableEq, Repr

/-- A request as `handleClient` dispatches it. -/
inductive Request
  | newOrder (msg : NewOrderMessage)
  | cancelOrder (msg : CancelOrderMessage)
  | modifyOrder (msg : ModifyOrderMessage)
  | heartbeat (sequenceNumber : UInt64)
  deriving DecidableEq, Repr

/-- A message the server sends back. -/
inductive Response
  | orderAck (msg : OrderAckMessage)
  | executionReport (msg : ExecutionReportMessage)
  | heartbeat (sequenceNumber : UInt64)
  deriving DecidableEq, Repr

/-- `setSymbol`: `strncpy` of at most 15 characters into `char[16]`. -/
def setSymbol (s : Symbol) : Symbol := s.take 15

/-- The report `handleNewOrder` fills in from the order `getOrder` returned. -/
def executionReport (orderId : OrderId) (o : Order) : ExecutionReportMessage where
  orderId := orderId
  symbol := setSymbol o.symbol
  side := o.side
  executionPrice := o.price
  executionQuantity := o.getFilledQuantity
  remainingQuantity := o.remainingQuantity
  status := o.status

/-- `Server::handleNewOrder`: submit, acknowledge with the new id, then look the order up
and report it unless it is missing or still `PENDING`. -/
def handleNewOrder (e : MatchingEngineCore) (msg : NewOrderMessage) :
    MatchingEngineCore × List Response :=
  let r := e.submitOrder msg.symbol msg.side msg.orderType msg.price msg.quantity msg.stopPrice
  let ack : OrderAckMessage :=
    { clientOrderId := msg.clientOrderId, orderId := r.2.orderId, status := .pending,
      message := "Order accepted" }
  let reports := match r.1.getOrder r.2.orderId with
    | some o => if o.status = .pending then [] else [.executionReport (executionReport r.2.orderId o)]
    | none => []
  (r.1, .orderAck ack :: reports)

/-- The acknowledgement `handleCancelOrder` and `handleModifyOrder` send for their one engine
call on `orderId`: the success status and text, or `REJECTED` and the failure text. -/
def ackFor (orderId : OrderId) (success : Bool) (okStatus : OrderStatus)
    (okText failText : String) : Response :=
  .orderAck (if success then { orderId, status := okStatus, message := okText }
    else { orderId, status := .rejected, message := failText })

/-- `Server::handleCancelOrder`. -/
def handleCancelOrder (e : MatchingEngineCore) (msg : CancelOrderMessage) :
    MatchingEngineCore × List Response :=
  let r := e.cancelOrder msg.orderId
  (r.1, [ackFor msg.orderId r.2 .cancelled "Order cancelled" "Order not found"])

/-- `Server::handleModifyOrder`. -/
def handleModifyOrder (e : MatchingEngineCore) (msg : ModifyOrderMessage) :
    MatchingEngineCore × List Response :=
  let r := e.modifyOrder msg.orderId msg.newPrice msg.newQuantity
  (r.1, [ackFor msg.orderId r.2 .pending "Order modified" "Failed to modify order"])

/-- One dispatched request: its handler, or the heartbeat's echo. -/
def handle (e : MatchingEngineCore) : Request → MatchingEngineCore × List Response
  | .newOrder msg => handleNewOrder e msg
  | .cancelOrder msg => handleCancelOrder e msg
  | .modifyOrder msg => handleModifyOrder e msg
  | .heartbeat n => (e, [.heartbeat n])

/-- The engine call a request makes, if any. -/
def Request.toEngine : Request → Option MatchingEngineCore.Request
  | .newOrder m => some (.submitOrder m.symbol m.side m.orderType m.price m.quantity m.stopPrice)
  | .cancelOrder m => some (.cancelOrder m.orderId)
  | .modifyOrder m => some (.modifyOrder m.orderId m.newPrice m.newQuantity)
  | .heartbeat _ => none

/-- Requests handled one after another: the engine, and everything sent back, in order. -/
def serve (e : MatchingEngineCore) : List Request → MatchingEngineCore × List Response
  | [] => (e, [])
  | r :: rs => ((serve (handle e r).1 rs).1, (handle e r).2 ++ (serve (handle e r).1 rs).2)

/-- A request changes the engine by its engine call and nothing else. -/
theorem handle_engine (e : MatchingEngineCore) :
    ∀ r, (handle e r).1 = e.run r.toEngine.toList
  | .newOrder _ | .cancelOrder _ | .modifyOrder _ | .heartbeat _ => rfl

/-- The engine behind a server is the engine run on the requests' calls. -/
theorem serve_engine : ∀ (e : MatchingEngineCore) (rs : List Request),
    (serve e rs).1 = e.run (rs.filterMap Request.toEngine)
  | _, [] => rfl
  | e, r :: rs => by
    rw [serve, serve_engine, handle_engine, List.filterMap_cons]
    cases r.toEngine <;> rfl

/-- After any run of requests on a fresh server, a cancel is acknowledged `CANCELLED` exactly
when its id rests in some book. -/
theorem serve_cancel_ack (rs : List Request) (i : OrderId) :
    (handle (serve MatchingEngineCore.init rs).1 (.cancelOrder ⟨i⟩)).2 =
        [.orderAck { orderId := i, status := .cancelled, message := "Order cancelled" }] ↔
      ∃ s b, (serve MatchingEngineCore.init rs).1.orderBooks s = some b ∧ i ∈ b.restingIds := by
  rw [serve_engine, ← (MatchingEngineCore.inv_init.run _).cancelOrder_iff]
  simp only [handle, handleCancelOrder, ackFor]
  cases (MatchingEngineCore.init.run (rs.filterMap Request.toEngine)).cancelOrder i |>.2 <;>
    simp

/-! ## Execution reports -/

/-- On every engine state a run reaches, a new order that trades its whole quantity, and every
`MARKET`, `IOC` or `FOK` order, is answered by the acknowledgement alone: `getOrder` does not
find an order that does not rest, so no `EXECUTION_REPORT` is sent. -/
theorem handleNewOrder_ack_only (e : MatchingEngineCore) (he : e.Inv) (msg : NewOrderMessage)
    (h : (e.submitOrder msg.symbol msg.side msg.orderType msg.price msg.quantity
        msg.stopPrice).2.order.remainingQuantity = 0 ∨
      msg.orderType = .market ∨ msg.orderType = .ioc ∨ msg.orderType = .fok) :
    (handleNewOrder e msg).2 = [.orderAck
      { clientOrderId := msg.clientOrderId, orderId := e.nextOrderId, status := .pending,
        message := "Order accepted" }] := by
  have hnone : (e.submitOrder msg.symbol msg.side msg.orderType msg.price msg.quantity
      msg.stopPrice).1.getOrder (e.submitOrder msg.symbol msg.side msg.orderType msg.price
        msg.quantity msg.stopPrice).2.orderId = none :=
    Option.eq_none_iff_forall_not_mem.mpr fun o hg => by
      obtain ⟨hpos, ht⟩ := he.getOrder_submitOrder _ _ _ _ _ _ hg
      rcases h with h | h | h | h
      · exact absurd (h ▸ hpos) (lt_irrefl 0)
      all_goals rw [h] at ht; simp at ht
  simp only [handleNewOrder, hnone]
  rfl

theorem market_order_ack_only :
    MatchingEngineCore.init.Inv ∧
      ((MatchingEngineCore.init.submitOrder "AAA" .buy .market 0 5 0).2.order.remainingQuantity =
          0 ∨ OrderType.market = .market ∨ OrderType.market = .ioc ∨ OrderType.market = .fok) ∧
      (handleNewOrder MatchingEngineCore.init ⟨7, "AAA", .buy, .market, 0, 5, 0⟩).2 =
        [.orderAck
          { clientOrderId := 7, orderId := MatchingEngineCore.init.nextOrderId,
            status := .pending, message := "Order accepted" }] :=
  ⟨MatchingEngineCore.inv_init, .inr (.inl rfl),
    handleNewOrder_ack_only _ MatchingEngineCore.inv_init ⟨7, "AAA", .buy, .market, 0, 5, 0⟩
      (.inr (.inl rfl))⟩

/-- The engine with a sell limit for 10 at 100 resting on `AAA`. -/
def sellResting : MatchingEngineCore :=
  MatchingEngineCore.init.run [.submitOrder "AAA" .sell .limit 100 10 0]

/-- A buy limit for 10 at 100 trades with it and is filled, yet the server sends only the
acknowledgement. -/
theorem filled_order_not_reported :
    (sellResting.submitOrder "AAA" .buy .limit 100 10 0).2.trades.map (·.quantity) = [10] ∧
      (sellResting.submitOrder "AAA" .buy .limit 100 10 0).2.order.status = .filled ∧
      (handleNewOrder sellResting ⟨7, "AAA", .buy, .limit, 100, 10, 0⟩).2 =
        [.orderAck
          { clientOrderId := 7, orderId := 2, status := .pending, message := "Order accepted" }] := by
  decide

end Server

end MatchingEngine
