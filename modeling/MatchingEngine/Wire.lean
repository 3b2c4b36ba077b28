import MatchingEngine.Order

/-!
# Framing of the client/server byte stream

`Server::sendMessage` writes each message struct whole, `sizeof(T)` bytes, header included.
Both receive loops (`Server::handleClient`, `Client::receiveMessages`) read the 16-byte
`MessageHeader` and then `receiveMessage(&msg, sizeof(T))`: a full struct's worth more, so
every message they dispatch costs the stream a header besides its own bytes
(`receiveLoop_length`). No nonempty run of whole frames comes back out
(`receiveLoop_ne_frames`): the framing drifts from the first frame on. The documented
framing, which reads `sizeof(T) − sizeof(header)` after the header, reads every run of frames
back as itself (`specReceiveLoop_encode`).

The byte sizes are those of the structs in `Message.h` on x86-64 (8-byte alignment of the
64-bit fields); `MessageType` is an `enum class` over `int`, read little-endian from the
header's first four bytes.
-/

namespace MatchingEngine

/-- `MessageType`, in the order of its enumerators. -/
inductive MessageType
  | newOrder
  | cancelOrder
  | modifyOrder
  | orderAck
  | orderReject
  | executionReport
  | marketData
  | heartbeat
  deriving DecidableEq, Repr

namespace MessageType

/-- The enumerator's value. -/
def code : MessageType → Nat
  | newOrder => 0
  | cancelOrder => 1
  | modifyOrder => 2
  | orderAck => 3
  | orderReject => 4
  | executionReport => 5
  | marketData => 6
  | heartbeat => 7

/-- The enumerator a value stands for; any other value takes the `default:` branch. -/
def ofCode : Nat → Option MessageType
  | 0 => some newOrder
  | 1 => some cancelOrder
  | 2 => some modifyOrder
  | 3 => some orderAck
  | 4 => some orderReject
  | 5 => some executionReport
  | 6 => some marketData
  | 7 => some heartbeat
  | _ => none

@[simp] theorem ofCode_code (t : MessageType) : ofCode t.code = some t := by
  cases t <;> rfl

/-- `sizeof` of the struct of each message type, header included. -/
def size : MessageType → Nat
  | newOrder => 104
  | cancelOrder => 56
  | modifyOrder => 72
  | orderAck => 168
  | orderReject => 280
  | executionReport => 88
  | marketData => 64
  | heartbeat => 24

end MessageType

/-- `sizeof(MessageHeader)`: `type`, `length`, `timestamp`. -/
def headerSize : Nat := 16

theorem headerSize_lt_size (t : MessageType) : headerSize < t.size := by
  cases t <;> decide

/-- `sizeof(T) − sizeof(MessageHeader)`: what follows the header in the struct of each type. -/
def MessageType.bodySize : MessageType → Nat
  | .newOrder => 88
  | .cancelOrder => 40
  | .modifyOrder => 56
  | .orderAck => 152
  | .orderReject => 264
  | .executionReport => 72
  | .marketData => 48
  | .heartbeat => 8

theorem MessageType.bodySize_eq (t : MessageType) : t.bodySize = t.size - headerSize := by
  cases t <;> rfl

/-- `header.type`: the first four bytes of a header, little-endian. -/
def readType (header : List UInt8) : Nat :=
  (header.take 4).foldr (fun b acc => b.toNat + 256 * acc) 0

theorem readType_take (header : List UInt8) {n : Nat} (h : 4 ≤ n) :
    readType (header.take n) = readType header := by
  rw [readType, List.take_take, Nat.min_eq_left h, readType]

/-- One message as the sender writes it: the struct's whole image, of its type's size and
with its type in the header. -/
structure Frame where
  type : MessageType
  image : List UInt8
  image_length : image.length = type.size
  image_type : readType image = type.code

/-- What a receiver dispatches for a frame read back whole. -/
def Frame.message (f : Frame) : MessageType × List UInt8 := (f.type, f.image)

/-- Frames written back to back, each by one `sendMessage`. -/
def encode : List Frame → List UInt8
  | [] => []
  | f :: fs => f.image ++ encode fs

@[simp] theorem length_encode (fs : List Frame) :
    (encode fs).length = (fs.map fun f => f.type.size).sum := by
  induction fs with
  | nil => rfl
  | cons f fs ih => simp [encode, ih, f.image_length]

/-- `receiveMessage(buffer, length)`: `recv` until `length` bytes are in; when the peer
closes first it fails, and what was left has been consumed. -/
def receiveMessage (length : Nat) (bs : List UInt8) : Option (List UInt8 × List UInt8) :=
  if length ≤ bs.length then some (bs.take length, bs.drop length) else none

theorem receiveMessage_spec {n : Nat} {bs msg rest : List UInt8}
    (h : receiveMessage n bs = some (msg, rest)) :
    msg.length = n ∧ bs.length = n + rest.length := by
  unfold receiveMessage at h
  split at h
  · cases h
    simp only [List.length_take, List.length_drop]
    omega
  · cases h

theorem receiveMessage_append {n : Nat} {a : List UInt8} (b : List UInt8) (h : n ≤ a.length) :
    receiveMessage n (a ++ b) = some (a.take n, a.drop n ++ b) := by
  rw [receiveMessage, if_pos (by rw [List.length_append]; omega),
    List.take_append_of_le_length h, List.drop_append_of_le_length h]

/-- Whatever follows a frame, its first `headerSize` bytes are read as a header of its type. -/
theorem Frame.receive_header (f : Frame) (rest : List UInt8) :
    receiveMessage headerSize (f.image ++ rest) =
      some (f.image.take headerSize, f.image.drop headerSize ++ rest) :=
  receiveMessage_append rest (f.image_length ▸ Nat.le_of_lt (headerSize_lt_size f.type))

theorem Frame.ofCode_header (f : Frame) :
    MessageType.ofCode (readType (f.image.take headerSize)) = some f.type := by
  rw [readType_take _ (by decide), f.image_type, MessageType.ofCode_code]

/-- What a receive loop's `switch` does with a header of a given type. -/
inductive Action
  /-- `receiveMessage(&msg, sizeof(T))` for the struct `T` of the type, then dispatch it. -/
  | readMessage
  /-- Dispatch on the header alone, reading nothing more. -/
  | headerOnly
  /-- The `default:` branch: log and read nothing more. -/
  | drop
  deriving DecidableEq, Repr

/-- The receive loop shared by the server and the client, with the `switch` given by `act`:
read a header, or stop when the stream ends; dispatch by its type; go round again. A failed
body read leaves the stream ended, and the next header read stops the loop. The fuel bounds
the rounds (every round but the last consumes a header). -/
def receiveLoop (act : MessageType → Action) : Nat → List UInt8 → List (MessageType × List UInt8)
  | 0, _ => []
  | fuel + 1, bs =>
    match receiveMessage headerSize bs with
    | none => []
    | some (header, rest) =>
      match MessageType.ofCode (readType header) with
      | none => receiveLoop act fuel rest
      | some t =>
        match act t with
        | .readMessage =>
          match receiveMessage t.size rest with
          | some (msg, rest') => (t, msg) :: receiveLoop act fuel rest'
          | none => receiveLoop act fuel []
        | .headerOnly => (t, header) :: receiveLoop act fuel rest
        | .drop => receiveLoop act fuel rest

@[simp] theorem receiveLoop_nil (act : MessageType → Action) (fuel : Nat) :
    receiveLoop act fuel [] = [] := by
  cases fuel <;> rfl

/-- A frame alone on the stream, of a type the loop reads as a struct, is lost: after its
header there is less left than a whole struct. -/
theorem receiveLoop_single (act : MessageType → Action) {f : Frame}
    (h : act f.type = .readMessage) (fuel : Nat) : receiveLoop act fuel (encode [f]) = [] := by
  cases fuel with
  | zero => rfl
  | succ fuel =>
    have hbody : receiveMessage f.type.size (f.image.drop headerSize ++ []) = none := by
      have := headerSize_lt_size f.type
      exact if_neg (by rw [List.append_nil, List.length_drop, f.image_length, headerSize] at *; omega)
    simp only [encode, receiveLoop, f.receive_header, f.ofCode_header, h, hbody, receiveLoop_nil]

/-- The bytes a loop dispatches, with a header counted for each whole message among them, are
never more than the stream it read. -/
theorem receiveLoop_length (act : MessageType → Action) : ∀ fuel bs,
    ((receiveLoop act fuel bs).map (·.2.length)).sum +
      headerSize * (receiveLoop act fuel bs).countP (fun m => m.2.length = m.1.size) ≤
      bs.length
  | 0, _ => by simp [receiveLoop]
  | fuel + 1, bs => by
    unfold receiveLoop
    split
    · simp
    · next header rest hh =>
      obtain ⟨hlen, hbs⟩ := receiveMessage_spec hh
      have ih := receiveLoop_length act fuel rest
      split
      · omega
      · next t _ =>
        split
        · split
          · next msg rest' hm =>
            obtain ⟨hmsg, hrest⟩ := receiveMessage_spec hm
            have := receiveLoop_length act fuel rest'
            simp only [List.map_cons, List.sum_cons, List.countP_cons, hmsg, decide_True,
              if_true, Nat.mul_succ]
            omega
          · have := receiveLoop_length act fuel []
            simp only [List.length_nil] at this
            omega
        · have hne : ¬header.length = t.size := by
            have := headerSize_lt_size t
            omega
          simp only [List.map_cons, List.sum_cons, List.countP_cons, hne, decide_False,
            Bool.false_eq_true, if_false, Nat.add_zero]
          omega
        · omega

/-- No receive loop reads back a nonempty run of whole frames as those frames. -/
theorem receiveLoop_ne_frames (act : MessageType → Action) (fuel : Nat) {fs : List Frame}
    (hne : fs ≠ []) : receiveLoop act fuel (encode fs) ≠ fs.map Frame.message := by
  intro h
  have hlen := receiveLoop_length act fuel (encode fs)
  have hall : (fs.map Frame.message).countP (fun m => m.2.length = m.1.size) = fs.length := by
    rw [List.countP_eq_length.mpr, List.length_map]
    simp [Frame.message, Frame.image_length]
  have hsum : (fs.map Frame.message).map (·.2.length) = fs.map fun f => f.type.size := by
    rw [List.map_map]
    exact List.map_congr_left fun f _ => f.image_length
  rw [h, hall, hsum, length_encode] at hlen
  have : 0 < fs.length := List.length_pos.mpr hne
  unfold headerSize at hlen
  omega

/-- The framing the protocol is documented with: read the 16-byte header, then
`sizeof(T) − sizeof(header)` more bytes (`bodySize`), and dispatch the struct those two make
up. The `switch` is the same as in `receiveLoop`. -/
def specReceiveLoop (act : MessageType → Action) :
    Nat → List UInt8 → List (MessageType × List UInt8)
  | 0, _ => []
  | fuel + 1, bs =>
    match receiveMessage headerSize bs with
    | none => []
    | some (header, rest) =>
      match MessageType.ofCode (readType header) with
      | none => specReceiveLoop act fuel rest
      | some t =>
        match act t with
        | .readMessage =>
          match receiveMessage t.bodySize rest with
          | some (body, rest') => (t, header ++ body) :: specReceiveLoop act fuel rest'
          | none => specReceiveLoop act fuel []
        | .headerOnly => (t, header) :: specReceiveLoop act fuel rest
        | .drop => specReceiveLoop act fuel rest

@[simp] theorem specReceiveLoop_nil (act : MessageType → Action) (fuel : Nat) :
    specReceiveLoop act fuel [] = [] := by
  cases fuel <;> rfl

/-- With the documented framing, every run of frames of types the loop reads as structs is
read back as itself, given a round per frame. -/
theorem specReceiveLoop_encode (act : MessageType → Action) :
    ∀ (fs : List Frame), (∀ f ∈ fs, act f.type = .readMessage) → ∀ fuel, fs.length < fuel →
      specReceiveLoop act fuel (encode fs) = fs.map Frame.message
  | [], _, fuel, _ => by simp [encode]
  | f :: fs, hact, fuel + 1, hfuel => by
    have hlen : (f.image.drop headerSize).length = f.type.bodySize := by
      rw [List.length_drop, f.image_length, MessageType.bodySize_eq]
    have hbody : receiveMessage f.type.bodySize
        (f.image.drop headerSize ++ encode fs) = some (f.image.drop headerSize, encode fs) := by
      rw [← hlen, receiveMessage_append _ le_rfl, List.take_length, List.drop_length,
        List.nil_append]
    have ih := specReceiveLoop_encode act fs (fun g hg => hact g (List.mem_cons_of_mem _ hg)) fuel
      (by simpa using hfuel)
    simp only [encode, specReceiveLoop, f.receive_header, f.ofCode_header,
      hact f (List.mem_cons_self _ _), hbody, List.take_append_drop, ih, List.map_cons]
    rfl

namespace Server

/-- `Server::handleClient`'s `switch`: the four request types are read and handled (a
`HEARTBEAT` is echoed back), anything else is dropped. -/
def action : MessageType → Action
  | .newOrder | .cancelOrder | .modifyOrder | .heartbeat => .readMessage
  | _ => .drop

/-- `Server::handleClient` on the bytes a client sends before it closes: the messages it
hands to `handleNewOrder`, `handleCancelOrder`, `handleModifyOrder` or echoes back. -/
def handleClient (bs : List UInt8) : List (MessageType × List UInt8) :=
  receiveLoop action (bs.length + 1) bs

end Server

namespace Client

/-- `Client::receiveMessages`'s `switch`: the four response types are read and handled, a
`HEARTBEAT` is taken on its header alone, the request types are dropped. -/
def action : MessageType → Action
  | .orderAck | .orderReject | .executionReport | .marketData => .readMessage
  | .heartbeat => .headerOnly
  | _ => .drop

/-- `Client::receiveMessages` on the bytes the server sends before it closes. -/
def receiveMessages (bs : List UInt8) : List (MessageType × List UInt8) :=
  receiveLoop action (bs.length + 1) bs

end Client

/-- A `HeartbeatMessage` with sequence number 0, as `sendMessage` writes it. -/
def heartbeatFrame : Frame where
  type := .heartbeat
  image := [7, 0, 0, 0, 24, 0, 0, 0] ++ List.replicate 16 0
  image_length := by rfl
  image_type := by rfl

/-- An `OrderAckMessage` with its fields zero, as `sendMessage` writes it. -/
def orderAckFrame : Frame where
  type := .orderAck
  image := [3, 0, 0, 0, 168, 0, 0, 0] ++ List.replicate 160 0
  image_length := by rfl
  image_type := by rfl

/-- One heartbeat to the server, one acknowledgement to the client: after the header each
loop waits for a whole struct more, the stream ends first, and nothing is dispatched. -/
theorem single_frame_not_dispatched :
    Server.handleClient (encode [heartbeatFrame]) = [] ∧
      Client.receiveMessages (encode [orderAckFrame]) = [] :=
  ⟨receiveLoop_single _ rfl _, receiveLoop_single _ rfl _⟩

end MatchingEngine
