import BBNotifier.Foundation.LittleEndian
import BBNotifier.Foundation.Segmentation
import BBNotifier.Crypto.AESWrapper

/-! # Framing on one connection

`CServerSocket::OnReadyRead` runs on every chunk of a connection. A packet is a
signed length and that many bytes of payload; the socket closes after one
packet, or at once when the length cannot be right.

The handler is compared with a receiver that gives its verdict on the bytes
received, so that what it does cannot depend on how they were cut.
-/

namespace BBNotifier

open Foundation

def messageHeader : Nat := 4

/-- The text every valid message starts with. -/
def magic : QString := QString.lit "C@LLER#\n"

/-- A socket is deleted by the event loop some time after `deleteLater`. -/
structure CServerSocket where
  buffer : QByteArray
  isOpen : Bool
  deleteScheduled : Bool
deriving DecidableEq

/-- What one call of the slot leaves behind: the socket, the `MessageReady`
signal if it was emitted, and the static status text. -/
structure Activation where
  socket : CServerSocket
  messageReady : Option QString
  lastMessageStatus : QString

namespace CServerSocket

def new : CServerSocket := ⟨[], true, false⟩

def onDisconnected (socket : CServerSocket) : CServerSocket :=
  { socket with deleteScheduled := true }

/-- Closing drops the buffer and emits `disconnected`. -/
def close (socket : CServerSocket) : CServerSocket :=
  onDisconnected { socket with buffer := [], isOpen := false }

def bytesAvailable (socket : CServerSocket) : Int := socket.buffer.length

/-- Take up to `count` bytes out of the buffer. -/
def read (socket : CServerSocket) (count : Nat) : QByteArray × CServerSocket :=
  (socket.buffer.take count, { socket with buffer := socket.buffer.drop count })

/-- The text handed to the listener, if the decrypted message is valid. -/
def validMessage (decryptedMessage : QString) : Option QString :=
  if decryptedMessage.take 8 = magic then some (decryptedMessage.drop 8) else none

@[simp]
theorem validMessage_magic_append (text : QString) : validMessage (magic ++ text) = some text := by
  have hlength : magic.length = 8 := by decide
  rw [validMessage, List.take_left' hlength, List.drop_left' hlength, if_pos rfl]

def statusMsg (now : QString) (isCorrectMessage : Bool) : QString :=
  QString.lit "Packet is received at " ++ now ++
    if isCorrectMessage then QString.lit ", it is valid."
    else QString.lit ", but it contains invalid information."

/-- `OnReadyRead`, for a decryption of payloads under the configured key. -/
def onReadyRead (decrypt : QByteArray → AESKey → QString) (key : AESKey) (now : QString)
    (socket : CServerSocket) (lastMessageStatus : QString) : Activation :=
  if socket.bytesAvailable > 4 then
    let payloadLength := leInt32 socket.buffer
    if payloadLength > 131072 ∨ payloadLength < 1 then
      ⟨socket.close, none, lastMessageStatus⟩
    else if socket.bytesAvailable ≥ payloadLength + messageHeader then
      let (pBuf, rest) := socket.read (payloadLength + 4).toNat
      let messageReady :=
        if (pBuf.length : Int) = payloadLength + messageHeader then
          validMessage (decrypt (pBuf.drop messageHeader) key)
        else none
      ⟨rest.close, messageReady, statusMsg now messageReady.isSome⟩
    else ⟨socket, none, statusMsg now false⟩
  else ⟨socket, none, lastMessageStatus⟩

/-- A chunk arrives, and the slot runs. -/
def receive (decrypt : QByteArray → AESKey → QString) (key : AESKey) (now : QString)
    (socket : CServerSocket) (chunk : QByteArray) (lastMessageStatus : QString) : Activation :=
  onReadyRead decrypt key now { socket with buffer := socket.buffer ++ chunk } lastMessageStatus

end CServerSocket

/-! ## The verdict on a received prefix -/

/-- The payload of the packet that starts the bytes. -/
def payload (received : QByteArray) : QByteArray :=
  (received.drop messageHeader).take (leInt32 received).toNat

/-- What becomes of a connection: nothing yet, closed over a bad length
(`some none`), or closed after a packet, with its message if it was valid. -/
def verdict (decrypt : QByteArray → AESKey → QString) (key : AESKey) (received : QByteArray) :
    Option (Option QString) :=
  if received.length < 5 then none
  else if leInt32 received < 1 ∨ 131072 < leInt32 received then some none
  else if (received.length : Int) < leInt32 received + 4 then none
  else some (CServerSocket.validMessage (decrypt (payload received) key))

theorem verdict_stable (decrypt : QByteArray → AESKey → QString) (key : AESKey) :
    Stable (verdict decrypt key) := by
  intro received more result hverdict
  unfold verdict at hverdict ⊢
  split at hverdict
  · contradiction
  next hlong =>
    rw [leInt32_append (by omega), if_neg (by rw [List.length_append]; omega)]
    split at hverdict
    next hbad => rwa [if_pos hbad]
    next hgood =>
      split at hverdict
      · contradiction
      next hcomplete =>
        rw [if_neg hgood, if_neg (by rw [List.length_append]; omega)]
        have hpayload : payload (received ++ more) = payload received := by
          have hlength : (leInt32 received).toNat ≤ (received.drop messageHeader).length := by
            rw [List.length_drop, messageHeader]
            omega
          rw [payload, payload, leInt32_append (by omega),
            List.drop_append_of_le_length (by rw [messageHeader]; omega),
            List.take_append_of_le_length hlength]
        rwa [hpayload]

/-- A socket and the messages it has emitted, seen as a receiver. -/
inductive Represents : Receiver UInt8 (Option QString) → CServerSocket → List QString → Prop
  | waiting (received : QByteArray) : Represents (.waiting received) ⟨received, true, false⟩ []
  | settled (message : Option QString) :
      Represents (.settled message) ⟨[], false, true⟩ message.toList

/-- The handler follows the verdict on the bytes now in its buffer. -/
theorem receive_represents (decrypt : QByteArray → AESKey → QString) (key : AESKey)
    (now : QString) (received chunk : QByteArray) (lastMessageStatus : QString) :
    let activation := CServerSocket.receive decrypt key now ⟨received, true, false⟩ chunk
      lastMessageStatus
    Represents (Receiver.feed (verdict decrypt key) (.waiting received) chunk)
      activation.socket activation.messageReady.toList := by
  have hmessageHeader : (messageHeader : Int) = 4 := rfl
  simp only [CServerSocket.receive, CServerSocket.onReadyRead, CServerSocket.bytesAvailable,
    Receiver.feed, Receiver.after, verdict, gt_iff_lt, ge_iff_le, hmessageHeader]
  generalize hbuffer : received ++ chunk = buffer
  -- The handler and the verdict ask the same questions in the same order.
  by_cases hlong : buffer.length < 5
  · have hshort : ¬ (4 : Int) < buffer.length := by omega
    rw [if_pos hlong, if_neg hshort]
    exact .waiting buffer
  have hlong' : (4 : Int) < buffer.length := by omega
  rw [if_neg hlong, if_pos hlong']
  by_cases hbad : leInt32 buffer < 1 ∨ 131072 < leInt32 buffer
  · rw [if_pos hbad, if_pos hbad.symm]
    exact .settled none
  rw [if_neg hbad, if_neg (mt Or.symm hbad)]
  by_cases hcomplete : (buffer.length : Int) < leInt32 buffer + 4
  · rw [if_pos hcomplete, if_neg (not_le.mpr hcomplete)]
    exact .waiting buffer
  · -- The packet is there: `read` returns all the bytes asked for.
    rw [if_neg hcomplete, if_pos (not_lt.mp hcomplete)]
    have hread : ((buffer.take (leInt32 buffer + 4).toNat).length : Int) = leInt32 buffer + 4 := by
      rw [List.length_take]
      omega
    have hpayload : (buffer.take (leInt32 buffer + 4).toNat).drop messageHeader =
        payload buffer := by
      rw [payload, List.drop_take]
      congr 1
      omega
    simp only [CServerSocket.read, hread, if_true, hpayload]
    exact .settled _

end BBNotifier
