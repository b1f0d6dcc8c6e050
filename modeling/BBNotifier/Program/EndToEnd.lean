import BBNotifier.Program.Faults
import BBNotifier.Window.NewItem

/-! # From the wire to the window

A phone that encrypts an item under the key in force finds it in the window once
the last byte of its packet has arrived, however the packet was cut and whatever
else went on meanwhile. The window is then the one before with that item, and
differs from it in nothing else.
-/

namespace BBNotifier

open Foundation

/-- The image of the item of a message is the one in its fourth field, if that is
empty or holds a whole one. -/
theorem image_itemOf {dates : QDateTimeText} {arrival : Arrival} {msg : QString}
    {item : ParsedItem} (hitem : itemOf dates arrival msg = some item)
    (hwhole : CNotificationItem.ImageIsWhole msg) :
    item.val.image.map QImage.bits =
      CNotificationItem.decodedImage (CNotificationItem.imageField msg) := by
  have himage : item.val.image = CNotificationItem.imageOf arrival.heap (msg.split.getD 4 []) := by
    rw [itemOf] at hitem
    split at hitem
    · obtain rfl := Option.some.inj hitem
      rfl
    · contradiction
  rw [himage]
  exact (CNotificationItem.imageOf_eq_decodedImage_iff arrival.heap _).mpr hwhole

/-- The window has taken in the item of a message, as it found it on its arrival,
and is as before if the type of the item is unknown. -/
structure CMainWnd.Takes (dates : QDateTimeText) (settings : Settings) (arrival : Arrival)
    (msg : QString) (before after : CMainWnd) : Prop where
  image : ∀ item, itemOf dates arrival msg = some item →
    item.val.image.map QImage.bits =
      CNotificationItem.decodedImage (CNotificationItem.imageField msg)
  known : ∀ item, itemOf dates arrival msg = some item →
    after = before.withItem dates settings arrival.surroundings item ∧
      before.Lists dates item after
  unknown : itemOf dates arrival msg = none → after = before

namespace Program

variable {Id : Type} [DecidableEq Id]

section

variable {platform : Platform} {start program : Program Id} {events : List (ProgramEvent Id)}

/-- The text of a phone comes out of the bytes of its connection. -/
theorem Follows.messageWith_encryptedPacket (hfollows : Follows platform start events program)
    {cipher : BlockCipher} {beyond : Memory}
    (hdecrypt : platform.decrypt = decryptPayload cipher beyond) {id : Id} {iv : Block}
    {text : List Char} (hzero : '\x00' ∉ text)
    (htotal : (encryptedPayload cipher program.dialog.settings.aesKey iv text).length ≤ 131072)
    {chunk more : QByteArray}
    (hreceived : CListenerSocket.receivedOn id (serverEvents events) ++ chunk =
      encryptedPacket cipher program.dialog.settings.aesKey iv text ++ more) :
    messageWith platform start.dialog events id chunk = some (QString.ofChars text) := by
  have hlong := length_encryptedPayload cipher program.dialog.settings.aesKey iv text
  have hwhole : text.takeWhile (· ≠ '\x00') = text := by
    rw [List.takeWhile_eq_self_iff]
    intro c hc
    simpa using fun heq : c = '\x00' => hzero (heq ▸ hc)
  rw [messageWith, hfollows.dialogAfter_eq]
  simp only [Option.bind_eq_bind, Option.bind_some]
  rw [hreceived, hdecrypt, encryptedPacket, framing_packetBytes _ _ (by omega) htotal,
    decryptPayload_encryptedPayload, hwhole, CServerSocket.validMessage_magic_append,
    Option.head?_toList]

end

/-- A packet with a vector is not short. -/
theorem not_holdsShortPacket {payload : QByteArray} (hlong : 15 ≤ payload.length)
    (htotal : payload.length ≤ 131072) (more : QByteArray) :
    ¬ HoldsShortPacket (packetBytes payload ++ more) := by
  rintro ⟨-, hshort, -⟩
  rw [packetBytes, List.append_assoc, leInt32_leBytes32 (by omega)] at hshort
  omega

/-- The chunk that completes the packet of a text, on an open connection. -/
theorem exists_step_takes {platform : Platform} {start program : Program Id}
    {events : List (ProgramEvent Id)} (hfollows : Follows platform start events program)
    {cipher : BlockCipher} {beyond : Memory}
    (hdecrypt : platform.decrypt = decryptPayload cipher beyond) {id : Id}
    (hopen : program.listener.isOpen id = true) {iv : Block} {text : List Char}
    (hzero : '\x00' ∉ text) (hfields : 5 ≤ (QString.ofChars text).split.length)
    (hwhole : CNotificationItem.ImageIsWhole (QString.ofChars text))
    (htotal : (encryptedPayload cipher program.dialog.settings.aesKey iv text).length ≤ 131072)
    {chunk more : QByteArray} (hchunk : chunk ≠ [])
    (hreceived : CListenerSocket.receivedOn id (serverEvents events) ++ chunk =
      encryptedPacket cipher program.dialog.settings.aesKey iv text ++ more)
    (now : QString) (arrival : Arrival) :
    ∃ next, checkedStep platform program (.server (.readyRead id chunk now) arrival) =
        .ok next ∧
      next.listener.isOpen id = false ∧ next.toDiscoverable = program.toDiscoverable ∧
      program.window.Takes platform.dates program.dialog.settings arrival (QString.ofChars text)
        next.window := by
  have hmsg := hfollows.messageWith_encryptedPacket hdecrypt hzero htotal hreceived
  obtain ⟨socket, hsocket, hsocketOpen⟩ := (Option.any_eq_true _ _).mp hopen
  obtain ⟨listener, hlistener⟩ : ∃ listener, program.listener.step platform.decrypt
      program.dialog.settings.aesKey (.readyRead id chunk now) = some listener := by
    rw [CListenerSocket.step, hsocket]
    exact ⟨_, if_pos ⟨hsocketOpen, hchunk⟩⟩
  have hincoming := hfollows.incoming_readyRead hsocket hsocketOpen chunk now arrival
  simp only [hmsg, if_pos hfields] at hincoming
  have hclosed := hfollows.isOpen_of_message hlistener hmsg
  have hwell : ¬ CompletesMalformedPacket platform start events program id chunk := by
    rintro ⟨-, -, hshort | ⟨msg, hother, hmalformed⟩⟩
    · have hlong := length_encryptedPayload cipher program.dialog.settings.aesKey iv text
      rw [hreceived] at hshort
      exact not_holdsShortPacket (by omega) htotal more hshort
    · obtain rfl := Option.some.inj (hmsg.symm.trans hother)
      exact hmalformed.elim (not_lt.mpr hfields) (not_not.mpr hwhole)
  have hstep : ∀ window, program.onNewCall platform arrival.surroundings
      ((itemOf platform.dates arrival (QString.ofChars text)).map Subtype.val) = .ok window →
        checkedStep platform program (.server (.readyRead id chunk now) arrival) =
          .ok { program with listener, window } := by
    intro window hwindow
    apply hfollows.checkedStep_of_step
    · rw [step, hlistener, hincoming, hwindow]
      rfl
    · rintro _ _ _ _ heq
      cases heq
      exact hwell
  cases hitem : itemOf platform.dates arrival (QString.ofChars text) with
  | none =>
      rw [hitem] at hstep
      refine ⟨_, hstep program.window rfl, hclosed, rfl, ?_, ?_, fun _ => rfl⟩
      · exact fun item hother => image_itemOf hother hwhole
      · intro item hnone
        rw [hitem] at hnone
        cases hnone
  | some item =>
      obtain ⟨history, hsession⟩ := hfollows.session_follows
      have hwindow := hsession.shows.onNewCall_eq program.dialog.settings arrival.surroundings item
      rw [hitem] at hstep
      refine ⟨_, hstep _ hwindow, hclosed, rfl, ?_, ?_, ?_⟩
      · exact fun item hother => image_itemOf hother hwhole
      · intro other hother
        obtain rfl := Option.some.inj (hitem.symm.trans hother)
        exact ⟨rfl, hsession.shows.lists program.dialog.settings arrival.surroundings item⟩
      · intro hnone
        rw [hitem] at hnone
        cases hnone

/-- Take any run of the program and an open connection, and let the bytes received
on it with the next chunk start with the packet of a text that was encrypted
under the key in force, with an image that is whole, if any. The chunk is handled
without a fault or a read beyond the end of an array, the connection is closed,
and the window is the one before with the item in the text, dated at its arrival.
A call that rang and a notification are then listed last, an accepted call where
its phone is listed; one of an unlisted phone and an item of an unknown type leave
the window as it is. -/
theorem listed_when_complete (platform : Platform) (cipher : BlockCipher) (beyond : Memory)
    (hdecrypt : platform.decrypt = decryptPayload cipher beyond) (settingsStorage : QSettings)
    (registry : Option QString) (start : Program Id)
    (hstart : construct platform settingsStorage registry = .ok start)
    (events : List (ProgramEvent Id)) (program : Program Id)
    (hrun : run (step platform) start events = .ok program) (id : Id)
    (hopen : program.listener.isOpen id = true) (iv : Block) (text : List Char)
    (hzero : '\x00' ∉ text) (hfields : 5 ≤ (QString.ofChars text).split.length)
    (hwhole : CNotificationItem.ImageIsWhole (QString.ofChars text))
    (htotal : (encryptedPayload cipher program.dialog.settings.aesKey iv text).length ≤ 131072)
    (chunk more : QByteArray) (hchunk : chunk ≠ [])
    (hreceived : CListenerSocket.receivedOn id (serverEvents events) ++ chunk =
      encryptedPacket cipher program.dialog.settings.aesKey iv text ++ more)
    (now : QString) (arrival : Arrival) :
    ∃ next, checkedStep platform program (.server (.readyRead id chunk now) arrival) =
        .ok next ∧
      next.listener.isOpen id = false ∧
      program.window.Takes platform.dates program.dialog.settings arrival (QString.ofChars text)
        next.window := by
  have hfollows := Follows.of_run hstart hrun
  obtain ⟨next, hnext, hclosed, -, htakes⟩ := exists_step_takes hfollows hdecrypt hopen hzero
    hfields hwhole htotal hchunk hreceived now arrival
  exact ⟨next, hnext, hclosed, htakes⟩

/-- The rest of the packet of a call that rang. -/
theorem listed_when_complete_call :
    ∃ program next : Program Nat,
      run (step .transparent) firstStart [.server (.incomingConnection 0) .atEpoch,
        .server (.readyRead 0 (callPacket.take 7) []) .atEpoch] = .ok program ∧
      checkedStep .transparent program (.server (.readyRead 0 (callPacket.drop 7) []) .atEpoch) =
        .ok next ∧
      next.window.listHistory.getLast? =
        some (.lit "RINGING\n555\nBob\n\n\nThu Jan 1 00:00:00 1970") := by
  have hruns : (run (step .transparent) firstStart [.server (.incomingConnection 0) .atEpoch,
      .server (.readyRead 0 (callPacket.take 7) []) .atEpoch]).toOption.isSome := by
    decide +kernel
  obtain ⟨program, hrun⟩ := exists_ok_of_isSome hruns
  have hstate : (run (step .transparent) firstStart [.server (.incomingConnection 0) .atEpoch,
      .server (.readyRead 0 (callPacket.take 7) []) .atEpoch]).toOption.map
        (fun program => (program.listener.isOpen 0, program.dialog.settings.aesKey)) =
      some (true, .zero) := by decide +kernel
  rw [hrun] at hstate
  obtain ⟨hopen, hkey⟩ := Prod.mk.inj (Option.some.inj hstate)
  obtain ⟨next, hnext, -, htakes⟩ := listed_when_complete .transparent (fun _ => 1)
    (fun _ => 0) rfl (fun _ => none) none firstStart rfl _ program hrun 0 hopen 0
    "RINGING\n555\nBob\n\n".toList (by decide) (by decide) (.inl (by decide))
    (by rw [hkey]; decide +kernel) (callPacket.drop 7) [] (by decide +kernel)
    (by rw [hkey]; decide +kernel) [] .atEpoch
  refine ⟨program, next, hrun, hnext, ?_⟩
  exact (htakes.known ⟨⟨.lit "555", .lit "Bob", [], some 0, none, .ringingCall⟩,
    by decide, by decide, by decide⟩ (by decide +kernel)).2.ringing rfl

end Program

end BBNotifier
