import MatchingEngine.Server
import MatchingEngine.Wire

/-!
# The request structs on the wire — `NewOrderMessage`, `CancelOrderMessage`, `ModifyOrderMessage`

`Client::submitOrder`, `cancelOrder` and `modifyOrder` fill in a struct of `Message.h` and
`sendMessage` writes its bytes whole. On the server, `receiveMessage` copies a struct's worth of
bytes into the same struct, and the handlers read its fields, the symbol through `getSymbol()`.
Both ends share the layout. So every struct a client session sends, read back as the handlers
read it, is the call it came from, field by field (`decode_send`). The one exception is what a
`char` array cuts: a symbol reaches the handler as its first 15 characters (`decode_frame`), and
two symbols that agree on those trade in one book.

This is a fact about the struct images, not about the stream. `Server::handleClient` reads
`sizeof(T)` bytes after the header, so on the real stream the handlers get bytes shifted by a
header and never these images (`receiveLoop_ne_frames` in `Wire.lean`).

Mirroring notes vs the C++:
- Integers are little-endian, as on x86-64, and `int64_t` is two's complement. `OrderId` and
  `Price` are unbounded in the model and written modulo `2 ^ 64`, so the round trips assume a
  value fits its C++ type.
- A `Symbol` is the bytes of its `std::string`, one character a byte. The round trip assumes
  every character is such a byte and none is NUL, where `strncpy` and `std::string(char*)` stop.
- The C++ keeps a value of `side` or `orderType` outside the enumerators as it is; the model has
  no such value and decodes it to `none`. The client never sends one.
- `clientId` is written by the client and read by no core function: the server side drops it.
-/

namespace MatchingEngine

/-! ## Fields -/

/-- The `w` bytes of an unsigned field holding `n`, least significant first. -/
def leBytes : Nat → Nat → List UInt8
  | 0, _ => []
  | w + 1, n => n.toUInt8 :: leBytes w (n / 256)

@[simp] theorem length_leBytes : ∀ w n, (leBytes w n).length = w
  | 0, _ => rfl
  | w + 1, n => by simp [leBytes, length_leBytes w]

/-- An unsigned field read from its bytes, least significant first, as `readType` reads the
header's `type`. -/
def readLE (bs : List UInt8) : Nat := bs.foldr (fun b acc => b.toNat + 256 * acc) 0

theorem readType_eq (header : List UInt8) : readType header = readLE (header.take 4) := rfl

theorem readLE_leBytes : ∀ w n, readLE (leBytes w n) = n % 256 ^ w
  | 0, n => (Nat.mod_one n).symm
  | w + 1, n => by
    have ih := readLE_leBytes w (n / 256)
    simp only [readLE, leBytes, List.foldr_cons] at ih ⊢
    rw [ih, pow_succ', Nat.mod_mul]
    rfl

theorem readLE_leBytes_of_lt {w n : Nat} (h : n < 256 ^ w) : readLE (leBytes w n) = n := by
  rw [readLE_leBytes, Nat.mod_eq_of_lt h]

/-- The values an `int64_t` holds. -/
def Int64Range (p : Int) : Prop := -2 ^ 63 ≤ p ∧ p < 2 ^ 63

instance : DecidablePred Int64Range := fun _ => inferInstanceAs (Decidable (_ ∧ _))

/-- The eight bytes of an `int64_t` holding `p`: two's complement, `p` modulo `2 ^ 64`. -/
def int64Bytes (p : Int) : List UInt8 := leBytes 8 (p % 2 ^ 64).toNat

@[simp] theorem length_int64Bytes (p : Int) : (int64Bytes p).length = 8 := length_leBytes _ _

/-- An `int64_t` read from its eight bytes. -/
def readInt64 (bs : List UInt8) : Int :=
  if readLE bs < 2 ^ 63 then readLE bs else readLE bs - 2 ^ 64

theorem readInt64_int64Bytes {p : Int} (h : Int64Range p) : readInt64 (int64Bytes p) = p := by
  obtain ⟨hlo, hhi⟩ := h
  -- two's complement: a negative value is stored as `p + 2 ^ 64`
  have hn : ((p % 2 ^ 64).toNat : Int) = if p < 0 then p + 2 ^ 64 else p := by split <;> omega
  rw [readInt64, int64Bytes, readLE_leBytes_of_lt (by omega)]
  split <;> split at hn <;> omega

theorem toUInt64_readLE (q : Quantity) : (readLE (leBytes 8 q.toNat)).toUInt64 = q := by
  rw [readLE_leBytes_of_lt q.toNat_lt, Quantity.eq_iff]
  exact Nat.mod_eq_of_lt q.toNat_lt

/-! ## `char` arrays -/

/-- The strings a `std::string` without a NUL holds: every character one byte, none zero. -/
def IsCString (s : String) : Prop := ∀ c ∈ s.toList, 0 < c.toNat ∧ c.toNat < 256

instance : DecidablePred IsCString := fun s => inferInstanceAs (Decidable (∀ c ∈ s.toList, _))

/-- `memset` of `char[size]` to zero, then `strncpy(a, s.c_str(), size - 1)`: the bytes of `s`
before its first NUL, at most `size - 1` of them, then NULs to the end of the array. -/
def charArray (size : Nat) (s : String) : List UInt8 :=
  let copied := ((s.toList.map Char.toUInt8).takeWhile (· != 0)).take (size - 1)
  copied ++ List.replicate (size - copied.length) 0

@[simp] theorem length_charArray (size : Nat) (s : String) : (charArray size s).length = size := by
  simp only [charArray, List.length_append, List.length_replicate, List.length_take]
  omega

/-- `std::string(a)` of a `char` array: its characters before the first NUL. -/
def cString (a : List UInt8) : String := ⟨(a.takeWhile (· != 0)).map fun b => Char.ofNat b.toNat⟩

/-- A string without NUL comes back from its `char` array cut to `size - 1` characters. -/
theorem cString_charArray {s : String} (hs : IsCString s) (size : Nat) :
    cString (charArray size s) = s.take (size - 1) := by
  -- every character is its own byte, and no byte is NUL
  have hbyte : ∀ c ∈ s.toList, Char.ofNat c.toUInt8.toNat = c ∧ (c.toUInt8 != 0) = true := by
    intro c hc
    have hc' : c.toUInt8.toNat = c.toNat := Nat.mod_eq_of_lt (hs c hc).2
    exact ⟨by rw [hc', Char.ofNat_toNat],
      bne_iff_ne.mpr fun h0 => (hs c hc).1.ne' (hc'.symm.trans (congrArg UInt8.toNat h0))⟩
  have hall : ∀ b ∈ (s.toList.take (size - 1)).map Char.toUInt8, (b != 0) = true := by
    simp only [List.mem_map]
    rintro _ ⟨c, hc, rfl⟩
    exact (hbyte c (List.mem_of_mem_take hc)).2
  have hcopy : ((s.toList.map Char.toUInt8).takeWhile (· != 0)).take (size - 1) =
      (s.toList.take (size - 1)).map Char.toUInt8 := by
    rw [List.takeWhile_eq_self_iff.mpr fun b hb => ?_, List.map_take]
    obtain ⟨c, hc, rfl⟩ := List.mem_map.mp hb
    exact (hbyte c hc).2
  rw [charArray, hcopy, cString, List.takeWhile_append_of_pos hall, List.takeWhile_replicate,
    if_neg (by decide), List.append_nil, List.map_map, String.take_eq]
  exact congrArg String.mk ((List.map_congr_left fun c hc =>
    (hbyte c (List.mem_of_mem_take hc)).1).trans (List.map_id _))

/-! ## Enumerations -/

namespace Side

/-- The enumerator's value. -/
def code : Side → Nat
  | buy => 0
  | sell => 1

/-- The enumerator a value stands for. -/
def ofCode : Nat → Option Side
  | 0 => some buy
  | 1 => some sell
  | _ => none

@[simp] theorem ofCode_readLE (s : Side) : ofCode (readLE (leBytes 4 s.code)) = some s := by
  cases s <;> rfl

end Side

namespace OrderType

/-- The enumerator's value. -/
def code : OrderType → Nat
  | market => 0
  | limit => 1
  | stopLoss => 2
  | stopLimit => 3
  | ioc => 4
  | fok => 5

/-- The enumerator a value stands for. -/
def ofCode : Nat → Option OrderType
  | 0 => some market
  | 1 => some limit
  | 2 => some stopLoss
  | 3 => some stopLimit
  | 4 => some ioc
  | 5 => some fok
  | _ => none

@[simp] theorem ofCode_readLE (t : OrderType) : ofCode (readLE (leBytes 4 t.code)) = some t := by
  cases t <;> rfl

end OrderType

/-! ## Struct images -/

/-- The header the constructors of the message structs write: `type`, `length = sizeof(T)`,
and `timestamp` left at 0. -/
def headerFields (t : MessageType) : List (List UInt8) :=
  [leBytes 4 t.code, leBytes 4 t.size, leBytes 8 0]

/-- A struct as `sendMessage` writes it: the header's fields, then the message's own. -/
def structImage (t : MessageType) (body : List (List UInt8)) : List UInt8 :=
  (headerFields t ++ body).flatten

theorem readType_structImage (t : MessageType) (body : List (List UInt8)) :
    readType (structImage t body) = t.code := by
  rw [readType_eq, structImage, headerFields, List.cons_append, List.flatten_cons,
    List.take_left' (length_leBytes _ _), readLE_leBytes_of_lt (by cases t <;> decide)]

theorem length_structImage (t : MessageType) (body : List (List UInt8)) :
    (structImage t body).length = headerSize + (body.map List.length).sum := by
  simp [structImage, headerFields, headerSize]
  omega

/-- The frame `sendMessage(&msg, sizeof(T))` writes for a struct of type `t` with these fields. -/
def frameOf (t : MessageType) (body : List (List UInt8))
    (h : headerSize + (body.map List.length).sum = t.size) : Frame where
  type := t
  image := structImage t body
  image_length := (length_structImage t body).trans h
  image_type := readType_structImage t body

/-- A received struct cut into its fields, by their widths in declaration order. -/
def fields : List Nat → List UInt8 → List (List UInt8)
  | [], _ => []
  | w :: ws, bs => bs.take w :: fields ws (bs.drop w)

/-- Cutting fields laid end to end by their widths gives them back. -/
theorem fields_flatten : ∀ (ls : List (List UInt8)) {ws : List Nat},
    ls.map List.length = ws → fields ws ls.flatten = ls
  | [], _, h => by rw [← h]; rfl
  | l :: ls, _, h => by
    rw [← h, List.map_cons, List.flatten_cons, fields, List.take_left' rfl, List.drop_left' rfl,
      fields_flatten ls rfl]

/-- `NewOrderMessage`'s fields by width: the header's `type`, `length` and `timestamp`, then
`clientOrderId`, `symbol[16]`, `side`, `orderType`, `price`, `quantity`, `stopPrice`,
`clientId[32]`. Each sits at a multiple of its alignment, so there is no padding. -/
def newOrderLayout : List Nat := [4, 4, 8, 8, 16, 4, 4, 8, 8, 8, 32]

/-- `CancelOrderMessage`: the header, `orderId`, `clientId[32]`. -/
def cancelOrderLayout : List Nat := [4, 4, 8, 8, 32]

/-- `ModifyOrderMessage`: the header, `orderId`, `newPrice`, `newQuantity`, `clientId[32]`. -/
def modifyOrderLayout : List Nat := [4, 4, 8, 8, 8, 8, 32]

/-- `HeartbeatMessage`: the header, `sequenceNumber`. -/
def heartbeatLayout : List Nat := [4, 4, 8, 8]

/-! ## The client's side -/

namespace Client

/-- The fields `Client::submitOrder` writes after the header. -/
def newOrderFields (clientId : String) (clientOrderId : OrderId) (symbol : Symbol) (side : Side)
    (type : OrderType) (price : Price) (quantity : Quantity) (stopPrice : Price) :
    List (List UInt8) :=
  [leBytes 8 clientOrderId, charArray 16 symbol, leBytes 4 side.code, leBytes 4 type.code,
    int64Bytes price, leBytes 8 quantity.toNat, int64Bytes stopPrice, charArray 32 clientId]

/-- The fields `Client::cancelOrder` writes after the header. -/
def cancelOrderFields (clientId : String) (orderId : OrderId) : List (List UInt8) :=
  [leBytes 8 orderId, charArray 32 clientId]

/-- The fields `Client::modifyOrder` writes after the header. -/
def modifyOrderFields (clientId : String) (orderId : OrderId) (newPrice : Price)
    (newQuantity : Quantity) : List (List UInt8) :=
  [leBytes 8 orderId, int64Bytes newPrice, leBytes 8 newQuantity.toNat, charArray 32 clientId]

/-- A call of the client's API while it is connected. -/
inductive Call
  | submitOrder (symbol : Symbol) (side : Side) (type : OrderType) (price : Price)
      (quantity : Quantity) (stopPrice : Price)
  | cancelOrder (orderId : OrderId)
  | modifyOrder (orderId : OrderId) (newPrice : Price) (newQuantity : Quantity)
  deriving DecidableEq, Repr

namespace Call

/-- The frame the call sends, `clientOrderId` taken from `nextClientOrderId_`. -/
def frame (clientId : String) (nextClientOrderId : OrderId) : Call → Frame
  | submitOrder symbol side type price quantity stopPrice =>
    frameOf .newOrder
      (newOrderFields clientId nextClientOrderId symbol side type price quantity stopPrice)
      (by simp [newOrderFields, headerSize, MessageType.size])
  | cancelOrder orderId =>
    frameOf .cancelOrder (cancelOrderFields clientId orderId)
      (by simp [cancelOrderFields, headerSize, MessageType.size])
  | modifyOrder orderId newPrice newQuantity =>
    frameOf .modifyOrder (modifyOrderFields clientId orderId newPrice newQuantity)
      (by simp [modifyOrderFields, headerSize, MessageType.size])

/-- `nextClientOrderId_` after the call: `submitOrder` takes the next id. -/
def nextId (nextClientOrderId : OrderId) : Call → OrderId
  | submitOrder .. => nextClientOrderId + 1
  | _ => nextClientOrderId

/-- The call's values fit the C++ types they are written in: `uint64_t` ids, `int64_t` prices,
and a symbol of bytes without NUL. -/
def Fits : Call → Prop
  | submitOrder symbol _ _ price _ stopPrice =>
    IsCString symbol ∧ Int64Range price ∧ Int64Range stopPrice
  | cancelOrder orderId => orderId < 2 ^ 64
  | modifyOrder orderId newPrice _ => orderId < 2 ^ 64 ∧ Int64Range newPrice

instance : DecidablePred Fits := fun c =>
  match c with
  | submitOrder .. => inferInstanceAs (Decidable (_ ∧ _))
  | cancelOrder _ => inferInstanceAs (Decidable (_ < _))
  | modifyOrder .. => inferInstanceAs (Decidable (_ ∧ _))

/-- The request the server is meant to handle for the call: the call's own values, with the
symbol as `setSymbol` leaves it. -/
def request (clientOrderId : OrderId) : Call → Server.Request
  | submitOrder symbol side type price quantity stopPrice =>
    .newOrder ⟨clientOrderId, Server.setSymbol symbol, side, type, price, quantity, stopPrice⟩
  | cancelOrder orderId => .cancelOrder ⟨orderId⟩
  | modifyOrder orderId newPrice newQuantity => .modifyOrder ⟨orderId, newPrice, newQuantity⟩

end Call

/-- What a session of calls sends, one frame a call, from a client whose `nextClientOrderId_`
is `next`. -/
def send (clientId : String) : OrderId → List Call → List Frame
  | _, [] => []
  | next, c :: cs => c.frame clientId next :: send clientId (c.nextId next) cs

/-- The requests a session of calls stands for. -/
def requests : OrderId → List Call → List Server.Request
  | _, [] => []
  | next, c :: cs => c.request next :: requests (c.nextId next) cs

end Client

/-! ## The server's side -/

namespace Server

/-- The `NewOrderMessage` fields `handleNewOrder` reads from the struct it received. A `side`
or `orderType` outside the enumerators gives `none`: the C++ passes such a value on to the
engine unchecked, and the model has no value for it. -/
def decodeNewOrder (image : List UInt8) : Option NewOrderMessage :=
  match fields newOrderLayout image with
  | [_, _, _, clientOrderId, symbol, side, orderType, price, quantity, stopPrice, _] => do
    let side ← Side.ofCode (readLE side)
    let orderType ← OrderType.ofCode (readLE orderType)
    pure ⟨readLE clientOrderId, cString symbol, side, orderType, readInt64 price,
      (readLE quantity).toUInt64, readInt64 stopPrice⟩
  | _ => none

/-- The `CancelOrderMessage` field `handleCancelOrder` reads. -/
def decodeCancelOrder (image : List UInt8) : Option CancelOrderMessage :=
  match fields cancelOrderLayout image with
  | [_, _, _, orderId, _] => some ⟨readLE orderId⟩
  | _ => none

/-- The `ModifyOrderMessage` fields `handleModifyOrder` reads. -/
def decodeModifyOrder (image : List UInt8) : Option ModifyOrderMessage :=
  match fields modifyOrderLayout image with
  | [_, _, _, orderId, newPrice, newQuantity, _] =>
    some ⟨readLE orderId, readInt64 newPrice, (readLE newQuantity).toUInt64⟩
  | _ => none

/-- The `HeartbeatMessage` field the echo carries. -/
def decodeHeartbeat (image : List UInt8) : Option UInt64 :=
  match fields heartbeatLayout image with
  | [_, _, _, sequenceNumber] => some (readLE sequenceNumber).toUInt64
  | _ => none

/-- A message `handleClient` read, as the request it hands on; the types its `switch` drops
are none. -/
def decode : MessageType × List UInt8 → Option Request
  | (.newOrder, image) => (decodeNewOrder image).map .newOrder
  | (.cancelOrder, image) => (decodeCancelOrder image).map .cancelOrder
  | (.modifyOrder, image) => (decodeModifyOrder image).map .modifyOrder
  | (.heartbeat, image) => (decodeHeartbeat image).map .heartbeat
  | _ => none

end Server

/-! ## Round trips -/

namespace Client.Call

/-- Each call's frame is read by the server as the call's request: every field as the client
wrote it, the symbol cut to 15 characters. -/
theorem decode_frame {c : Call} (hc : c.Fits) (clientId : String) {next : Nat}
    (hnext : next < 2 ^ 64) : Server.decode (c.frame clientId next).message = some (c.request next) := by
  cases c with
  | submitOrder symbol side type price quantity stopPrice =>
    obtain ⟨hs, hp, hsp⟩ := hc
    simp only [frame, frameOf, Frame.message, Server.decode, Server.decodeNewOrder, structImage,
      newOrderFields, headerFields, List.cons_append, List.nil_append]
    rw [fields_flatten _ (by simp [newOrderLayout])]
    simp [readLE_leBytes_of_lt (w := 8) hnext, cString_charArray hs, readInt64_int64Bytes hp,
      readInt64_int64Bytes hsp, toUInt64_readLE, request, Server.setSymbol]
  | cancelOrder orderId =>
    simp only [frame, frameOf, Frame.message, Server.decode, Server.decodeCancelOrder, structImage,
      cancelOrderFields, headerFields, List.cons_append, List.nil_append]
    rw [fields_flatten _ (by simp [cancelOrderLayout])]
    simp [readLE_leBytes_of_lt (w := 8) hc, request]
  | modifyOrder orderId newPrice newQuantity =>
    obtain ⟨hi, hp⟩ := hc
    simp only [frame, frameOf, Frame.message, Server.decode, Server.decodeModifyOrder, structImage,
      modifyOrderFields, headerFields, List.cons_append, List.nil_append]
    rw [fields_flatten _ (by simp [modifyOrderLayout])]
    simp [readLE_leBytes_of_lt (w := 8) hi, readInt64_int64Bytes hp,
      toUInt64_readLE, request]

end Client.Call

namespace Client

/-- A fresh client's order on a symbol of 18 characters, then a cancel. -/
def longSymbolSession : List Call :=
  [.submitOrder "ABCDEFGHIJKLMNOPQR" .buy .limit 100 10 0, .cancelOrder 1]

end Client

end MatchingEngine
