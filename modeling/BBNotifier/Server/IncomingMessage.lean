import BBNotifier.Item.NotificationItem
import BBNotifier.Server.Delivery

/-! # From a message to an item

`OnIncomingMessage` parses the text of a valid message and hands the item to
the window, unless its type is unknown. The type is looked at only after all
fields have been read.
-/

namespace BBNotifier

namespace CListenerSocket

/-- `OnIncomingMessage`: the item for the window. Its date is the time of
arrival. -/
def onIncomingMessage (dates : QDateTimeText) (heap : Memory) (currentDateTime : QDateTime)
    (msg : QString) : Except Fault (Option CNotificationItem) := do
  let data ← CNotificationItem.ofSerialized dates heap msg
  if data.type ≠ .empty then return some { data with dateTime := currentDateTime }
  else return none

/-- The `MessageReady` signal of an activation reaches the slot. -/
def deliver (dates : QDateTimeText) (heap : Memory) (currentDateTime : QDateTime)
    (activation : Activation) : Except Fault (Option CNotificationItem) :=
  match activation.messageReady with
  | some msg => onIncomingMessage dates heap currentDateTime msg
  | none => .ok none

/-- The slot goes wrong where the parser does. -/
theorem onIncomingMessage_isOk_iff (dates : QDateTimeText) (heap : Memory)
    (currentDateTime : QDateTime) (msg : QString) :
    (∃ data, onIncomingMessage dates heap currentDateTime msg = .ok data) ↔
      5 ≤ msg.split.length := by
  rw [onIncomingMessage, CNotificationItem.ofSerialized_eq]
  by_cases hfields : 5 ≤ msg.split.length
  · rw [if_pos hfields]
    simp only [hfields, iff_true]
    by_cases htype : (CNotificationItem.withDefaults dates heap msg.split).type = .empty
    · exact ⟨none, if_neg (not_not.mpr htype)⟩
    · exact ⟨some _, if_pos htype⟩
  · rw [if_neg hfields]
    simp only [hfields, iff_false]
    rintro ⟨data, hdata⟩
    contradiction

/-- A message that the server accepts is read within its fields, with the
default of each missing one, exactly when it has five fields or more. -/
theorem incoming_message_parsed_iff (decrypt : QByteArray → AESKey → QString) (key : AESKey)
    (now lastMessageStatus : QString) (socket : CServerSocket) (body : QString)
    (hready : (socket.onReadyRead decrypt key now lastMessageStatus).messageReady = some body)
    (dates : QDateTimeText) (heap : Memory) (currentDateTime : QDateTime) :
    ((∃ data, deliver dates heap currentDateTime
        (socket.onReadyRead decrypt key now lastMessageStatus) = .ok data) ∧
      CNotificationItem.ofSerialized dates heap body =
        .ok (CNotificationItem.withDefaults dates heap body.split)) ↔
      5 ≤ body.split.length := by
  rw [deliver, hready]
  simp only [onIncomingMessage_isOk_iff]
  refine ⟨And.left, fun hfields => ⟨hfields, ?_⟩⟩
  rw [CNotificationItem.ofSerialized_eq, if_pos hfields]

theorem incoming_message_parsed_iff_call :
    CNotificationItem.ofSerialized ⟨fun _ => [], fun _ => none⟩ (fun _ => 0)
        (.lit "RINGING\n555\nBob\n\n") =
      .ok ⟨.lit "555", .lit "Bob", [], none, none, .ringingCall⟩ :=
  ((incoming_message_parsed_iff (fun payload _ => QString.fromUtf8 payload) .zero [] []
    ⟨[25, 0, 0, 0, 67, 64, 76, 76, 69, 82, 35, 10, 82, 73, 78, 71, 73, 78, 71, 10, 53, 53, 53, 10,
      66, 111, 98, 10, 10], true, false⟩ (.lit "RINGING\n555\nBob\n\n") (by decide +kernel)
    ⟨fun _ => [], fun _ => none⟩ (fun _ => 0) none).mpr (by decide)).2

/-- A valid message without a body is read beyond its only field. -/
theorem not_incoming_message_parsed :
    ¬ ∀ (cipher : BlockCipher) (beyond : Memory) (key : AESKey) (now lastMessageStatus : QString)
      (socket : CServerSocket) (body : QString),
      (socket.onReadyRead (decryptPayload cipher beyond) key now lastMessageStatus).messageReady =
        some body →
      ∀ (dates : QDateTimeText) (heap : Memory) (currentDateTime : QDateTime),
        ∃ data, deliver dates heap currentDateTime
          (socket.onReadyRead (decryptPayload cipher beyond) key now lastMessageStatus) =
            .ok data := by
  intro hall
  have hready : (CServerSocket.onReadyRead (decryptPayload (fun _ => 1) (fun _ => 0)) .zero []
      ⟨encryptedPacket (fun _ => 1) .zero 0 [], true, false⟩ []).messageReady = some [] := by
    decide +kernel
  obtain ⟨data, hdata⟩ := hall _ _ _ _ _ _ [] hready ⟨fun _ => [], fun _ => none⟩ (fun _ => 0) none
  rw [deliver, hready] at hdata
  contradiction

end CListenerSocket

end BBNotifier
