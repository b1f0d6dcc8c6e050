import BBNotifier.Program.EndToEnd

/-! # The program stays available

Whatever was sent to the program before, if it goes on it still takes the packet of
a phone that connects: no earlier connection, click or setting can make it refuse
one. Until the last byte is there nothing but the new connection changes.
-/

namespace BBNotifier

open Foundation

/-- Part of a packet decides nothing. -/
theorem verdict_of_append_eq_packetBytes {decrypt : QByteArray → AESKey → QString} {key : AESKey}
    {payload received missing : QByteArray} (hpos : 0 < payload.length)
    (htotal : payload.length ≤ 131072) (hmissing : missing ≠ [])
    (hpacket : received ++ missing = packetBytes payload) :
    verdict decrypt key received = none := by
  have hmore := List.length_pos_iff.mpr hmissing
  have hlength := congrArg List.length hpacket
  have hheader : (leBytes32 payload.length).length = 4 := rfl
  rw [packetBytes, List.length_append, List.length_append, hheader] at hlength
  rw [verdict]
  split
  · rfl
  next hlong =>
    have hleInt32 : leInt32 received = payload.length := by
      rw [← leInt32_append (by omega) missing, hpacket, packetBytes, leInt32_leBytes32 (by omega)]
    rw [hleInt32, if_neg (by omega), if_pos (by omega)]

/-- Nor is a whole packet there, short or not. -/
theorem not_holdsShortPacket_of_verdict {decrypt : QByteArray → AESKey → QString} {key : AESKey}
    {received : QByteArray} (h : verdict decrypt key received = none) :
    ¬ HoldsShortPacket received := by
  have hmessageHeader : messageHeader = 4 := rfl
  rintro ⟨hpositive, hshort, hcomplete⟩
  rw [verdict, if_neg (by omega), if_neg (by omega), if_neg (by omega)] at h
  cases h

/-- A piece of a packet as it reaches the server. -/
structure Piece where
  chunk : QByteArray
  now : QString
  arrival : Arrival

namespace Piece

def event {Id : Type} (id : Id) (piece : Piece) : ProgramEvent Id :=
  .server (.readyRead id piece.chunk piece.now) piece.arrival

/-- The bytes of pieces that come one after the other. -/
def bytes (pieces : List Piece) : QByteArray := (pieces.map Piece.chunk).flatten

theorem bytes_snoc (pieces : List Piece) (piece : Piece) :
    bytes (pieces ++ [piece]) = bytes pieces ++ piece.chunk := by
  simp [bytes]

end Piece

namespace Program

variable {Id : Type} [DecidableEq Id]

/-- The connection is open and holds the bytes, and the dialog, the port and the
window are as before. -/
structure WaitsFor (id : Id) (bytes : QByteArray) (platform : Platform) (start before : Program Id)
    (events : List (ProgramEvent Id)) (program : Program Id) : Prop where
  follows : Follows platform start events program
  isOpen : program.listener.isOpen id = true
  receivedOn : CListenerSocket.receivedOn id (serverEvents events) = bytes
  toDiscoverable : program.toDiscoverable = before.toDiscoverable
  window : program.window = before.window

variable {platform : Platform} {start before program : Program Id}
  {events : List (ProgramEvent Id)} {id : Id}

/-- A new connection is taken in every state. -/
theorem exists_waitsFor_incomingConnection (hfollows : Follows platform start events program)
    (hnew : id ∉ program.listener.serverSockets) (arrival : Arrival) :
    ∃ next, checkedStep platform program (.server (.incomingConnection id) arrival) =
        .ok next ∧
      WaitsFor id [] platform start program
        (events ++ [.server (.incomingConnection id) arrival]) next := by
  have hlistener : program.listener.step platform.decrypt program.dialog.settings.aesKey
      (.incomingConnection id) = some (program.listener.incomingConnection id) := if_neg hnew
  have hnext : step platform program (.server (.incomingConnection id) arrival) =
      .ok { program with listener := program.listener.incomingConnection id } := by
    rw [step, hlistener]
    rfl
  refine ⟨_, hfollows.checkedStep_of_step hnext (by simp), hfollows.step hnext, ?_, ?_, rfl, rfl⟩
  · have hsocket : (program.listener.incomingConnection id).sockets id = some .new :=
      CListenerSocket.sockets_setSocket_self ..
    exact CListenerSocket.Follows.isOpen_of_sockets hsocket
  · rw [serverEvents_snoc_server, CListenerSocket.receivedOn_snoc (by simp)]
    exact (hfollows.buffers.absent id hnew).2

/-- Bytes that decide nothing are kept. -/
theorem WaitsFor.readyRead {bytes : QByteArray}
    (hwaits : WaitsFor id bytes platform start before events program) (piece : Piece)
    (hchunk : piece.chunk ≠ [])
    (hverdict : verdict platform.decrypt program.dialog.settings.aesKey (bytes ++ piece.chunk) =
      none) :
    ∃ next, checkedStep platform program (piece.event id) = .ok next ∧
      WaitsFor id (bytes ++ piece.chunk) platform start before (events ++ [piece.event id])
        next := by
  obtain ⟨hfollows, hopen, hreceived, hdiscoverable, hwindow⟩ := hwaits
  obtain ⟨socket, hsocket, hsocketOpen⟩ := (Option.any_eq_true _ _).mp hopen
  have hmessage := hfollows.messageReady_eq hsocket hsocketOpen piece.chunk piece.now
  obtain rfl := hfollows.buffers.listening id socket hsocket hsocketOpen
  rw [hreceived] at hsocket hmessage
  obtain ⟨hquiet, hkept⟩ :
      (CServerSocket.receive platform.decrypt program.dialog.settings.aesKey piece.now
        ⟨bytes, true, false⟩ piece.chunk program.listener.lastMessageStatus).messageReady = none ∧
      (CServerSocket.receive platform.decrypt program.dialog.settings.aesKey piece.now
        ⟨bytes, true, false⟩ piece.chunk program.listener.lastMessageStatus).socket =
          ⟨bytes ++ piece.chunk, true, false⟩ := by
    rcases receive_cases platform.decrypt program.dialog.settings.aesKey piece.now bytes
      piece.chunk program.listener.lastMessageStatus with ⟨-, hquiet, hkept⟩ | ⟨hdecided, -⟩
    · exact ⟨hquiet, hkept⟩
    · rw [hverdict] at hdecided
      cases hdecided
  generalize hactivation : CServerSocket.receive platform.decrypt
    program.dialog.settings.aesKey piece.now ⟨bytes, true, false⟩ piece.chunk
    program.listener.lastMessageStatus = activation at hquiet hkept
  have hlistener : program.listener.step platform.decrypt program.dialog.settings.aesKey
      (.readyRead id piece.chunk piece.now) =
        some (program.listener.activated id activation) := by
    rw [CListenerSocket.step, hsocket, ← hactivation]
    exact if_pos ⟨rfl, hchunk⟩
  have hincoming : program.incoming platform piece.arrival
      (.readyRead id piece.chunk piece.now) = .ok program.window := by
    simp only [incoming, delivered, hsocket, hactivation, CListenerSocket.deliver, hquiet]
    rfl
  have hnext : step platform program (piece.event id) =
      .ok { program with listener := program.listener.activated id activation } := by
    rw [Piece.event, step, hlistener, hincoming]
    rfl
  have hwell : ¬ CompletesMalformedPacket platform start events program id piece.chunk := by
    rintro ⟨-, -, hshort | ⟨msg, hmsg, -⟩⟩
    · rw [hreceived] at hshort
      exact not_holdsShortPacket_of_verdict hverdict hshort
    · rw [← hmessage, hactivation, hquiet] at hmsg
      cases hmsg
  have hchecked : checkedStep platform program (piece.event id) =
      .ok { program with listener := program.listener.activated id activation } := by
    apply hfollows.checkedStep_of_step hnext
    rintro _ _ _ _ heq
    cases heq
    exact hwell
  refine ⟨_, hchecked, hfollows.step hnext, ?_, ?_, hdiscoverable, hwindow⟩
  · simp only [CListenerSocket.isOpen_activated, hkept]
  · rw [Piece.event, serverEvents_snoc_server, CListenerSocket.receivedOn_snoc_readyRead,
      hreceived]

/-- All pieces of a packet but the last. -/
theorem WaitsFor.run_pieces {bytes payload : QByteArray}
    (hwaits : WaitsFor id bytes platform start before events program)
    (hpos : 0 < payload.length) (htotal : payload.length ≤ 131072) (pieces : List Piece)
    (hchunks : ∀ piece ∈ pieces, piece.chunk ≠ []) {missing : QByteArray} (hmissing : missing ≠ [])
    (hpacket : bytes ++ Piece.bytes pieces ++ missing = packetBytes payload) :
    ∃ next, run (checkedStep platform) program (pieces.map (Piece.event id)) = .ok next ∧
      WaitsFor id (bytes ++ Piece.bytes pieces) platform start before
        (events ++ pieces.map (Piece.event id)) next := by
  induction pieces using List.reverseRecOn generalizing missing with
  | nil =>
      refine ⟨program, rfl, ?_⟩
      simpa [Piece.bytes] using hwaits
  | append_singleton pieces piece ih =>
      rw [Piece.bytes_snoc, ← List.append_assoc] at hpacket ⊢
      obtain ⟨middle, hmiddle, hwaits'⟩ := ih
        (fun piece hpiece => hchunks piece (List.mem_append_left _ hpiece))
        (List.append_ne_nil_of_right_ne_nil piece.chunk hmissing)
        (by rw [← List.append_assoc]; exact hpacket)
      obtain ⟨next, hnext, hwaits''⟩ := hwaits'.readyRead piece
        (hchunks piece (List.mem_append_right _ (List.mem_singleton_self piece)))
        (verdict_of_append_eq_packetBytes hpos htotal hmissing hpacket)
      rw [List.map_append, ← List.append_assoc]
      exact ⟨next, run_snoc_eq_ok.mpr ⟨middle, hmiddle, hnext⟩, hwaits''⟩

/-- After any run of the program, a phone that connects and sends the packet of a
text with five fields or more, encrypted under the key in force, with an image that
is whole, if any, in any pieces, is taken: the run goes on without a fault or a read
beyond the end of an array, the connection is closed with the last piece, the
settings, the storage and the port are as before, and the window is the one before
with the item of the text, if its type is known. -/
theorem available_after_run (platform : Platform) (cipher : BlockCipher) (beyond : Memory)
    (hdecrypt : platform.decrypt = decryptPayload cipher beyond) (settingsStorage : QSettings)
    (registry : Option QString) (start : Program Id)
    (hstart : construct platform settingsStorage registry = .ok start)
    (events : List (ProgramEvent Id)) (program : Program Id)
    (hrun : run (step platform) start events = .ok program) (id : Id)
    (hnew : id ∉ program.listener.serverSockets) (iv : Block) (text : List Char)
    (hzero : '\x00' ∉ text) (hfields : 5 ≤ (QString.ofChars text).split.length)
    (hwhole : CNotificationItem.ImageIsWhole (QString.ofChars text))
    (htotal : (encryptedPayload cipher program.dialog.settings.aesKey iv text).length ≤ 131072)
    (arrival : Arrival) (pieces : List Piece) (last : Piece)
    (hchunks : ∀ piece ∈ pieces, piece.chunk ≠ []) (hlast : last.chunk ≠ [])
    (hpacket : Piece.bytes (pieces ++ [last]) =
      encryptedPacket cipher program.dialog.settings.aesKey iv text) :
    ∃ next, run (checkedStep platform) program (.server (.incomingConnection id) arrival ::
        (pieces ++ [last]).map (Piece.event id)) = .ok next ∧
      next.listener.isOpen id = false ∧ next.toDiscoverable = program.toDiscoverable ∧
      program.window.Takes platform.dates program.dialog.settings last.arrival
        (QString.ofChars text) next.window := by
  have hlong := length_encryptedPayload cipher program.dialog.settings.aesKey iv text
  rw [Piece.bytes_snoc] at hpacket
  obtain ⟨connected, hconnected, hwaits⟩ :=
    exists_waitsFor_incomingConnection (Follows.of_run hstart hrun) hnew arrival
  obtain ⟨middle, hmiddle, hfollows, hopen, hreceived, hdiscoverable, hwindow⟩ :=
    hwaits.run_pieces (by omega) htotal pieces hchunks hlast hpacket
  have hsettings : middle.dialog.settings = program.dialog.settings :=
    congrArg (fun discoverable => discoverable.dialog.settings) hdiscoverable
  rw [← hsettings] at htotal hpacket
  obtain ⟨next, hnext, hclosed, hsame, htakes⟩ :=
    exists_step_takes hfollows hdecrypt hopen hzero hfields hwhole htotal hlast
      (by rw [hreceived, List.nil_append, hpacket, List.append_nil]) last.now last.arrival
  have hruns : run (checkedStep platform) program (.server (.incomingConnection id) arrival ::
      (pieces ++ [last]).map (Piece.event id)) = .ok next := by
    rw [run, List.foldlM_cons, hconnected, List.map_append]
    exact run_snoc_eq_ok.mpr ⟨middle, hmiddle, hnext⟩
  rw [hwindow, hsettings] at htakes
  exact ⟨next, hruns, hclosed, hsame.trans hdiscoverable, htakes⟩

/-- A call still rings after a packet that was rejected for its length. -/
theorem available_after_run_call :
    ∃ program next : Program Nat,
      run (step .transparent) firstStart [.server (.incomingConnection 0) .atEpoch,
        .server (.readyRead 0 [0, 0, 0, 0, 0] []) .atEpoch] = .ok program ∧
      run (checkedStep .transparent) program [.server (.incomingConnection 1) .atEpoch,
        .server (.readyRead 1 (callPacket.take 7) []) .atEpoch,
        .server (.readyRead 1 (callPacket.drop 7) []) .atEpoch] = .ok next ∧
      next.window.listHistory.getLast? =
        some (.lit "RINGING\n555\nBob\n\n\nThu Jan 1 00:00:00 1970") := by
  have hruns : (run (step .transparent) firstStart [.server (.incomingConnection 0) .atEpoch,
      .server (.readyRead 0 [0, 0, 0, 0, 0] []) .atEpoch]).toOption.isSome := by
    decide +kernel
  obtain ⟨program, hrun⟩ := exists_ok_of_isSome hruns
  have hstate : (run (step .transparent) firstStart [.server (.incomingConnection 0) .atEpoch,
      .server (.readyRead 0 [0, 0, 0, 0, 0] []) .atEpoch]).toOption.map
        (fun program => (program.listener.serverSockets, program.dialog.settings.aesKey)) =
      some ([0], .zero) := by decide +kernel
  rw [hrun] at hstate
  obtain ⟨hsockets, hkey⟩ := Prod.mk.inj (Option.some.inj hstate)
  obtain ⟨next, hnext, -, -, htakes⟩ := available_after_run .transparent (fun _ => 1)
    (fun _ => 0) rfl (fun _ => none) none firstStart rfl _ program hrun 1
    (by rw [hsockets]; decide) 0
    "RINGING\n555\nBob\n\n".toList (by decide) (by decide) (.inl (by decide))
    (by rw [hkey]; decide +kernel) .atEpoch [⟨callPacket.take 7, [], .atEpoch⟩]
    ⟨callPacket.drop 7, [], .atEpoch⟩ (by decide +kernel) (by decide +kernel)
    (by rw [hkey]; decide +kernel)
  refine ⟨program, next, hrun, hnext, ?_⟩
  exact (htakes.known ⟨⟨.lit "555", .lit "Bob", [], some 0, none, .ringingCall⟩,
    by decide, by decide, by decide⟩ (by decide +kernel)).2.ringing rfl

end Program

end BBNotifier
