import BBNotifier.Program.Reads

/-! # What makes the program go wrong

The texts in the lists of the window were made by the program, so its handlers
always find their fields and the bytes of their images. The dialog does not parse
anything. What is left is the bytes of a packet: one without room for a vector, or
one that decrypts to a valid message with too few fields or too small an image.
-/

namespace BBNotifier

open Foundation

namespace Program

variable {Id : Type} [DecidableEq Id]

/-- The chunk completes a packet on an open connection, and either its payload does
not have the bytes that are read for the vector, or the text in it does not have
the fields that the parser takes for granted, or its image does not have the bytes
that are copied. -/
structure CompletesMalformedPacket (platform : Platform) (start : Program Id)
    (before : List (ProgramEvent Id)) (program : Program Id) (id : Id) (chunk : QByteArray) :
    Prop where
  isOpen : program.listener.isOpen id = true
  nonempty : chunk ≠ []
  malformed :
    HoldsShortPacket (CListenerSocket.receivedOn id (serverEvents before) ++ chunk) ∨
      ∃ msg, messageWith platform start.dialog before id chunk = some msg ∧
        (msg.split.length < 5 ∨ ¬ CNotificationItem.ImageIsWhole msg)

namespace Follows

variable {platform : Platform} {start program next : Program Id}
  {events : List (ProgramEvent Id)}

/-- The handler of an item succeeds in every state the program gets into. -/
theorem onNewCall_isOk (hfollows : Follows platform start events program)
    (surroundings : Surroundings) (data : Option ParsedItem) :
    ∃ window, program.onNewCall platform surroundings (data.map Subtype.val) = .ok window := by
  cases data with
  | none => exact ⟨program.window, rfl⟩
  | some data =>
      obtain ⟨history, hsession⟩ := hfollows.session_follows
      obtain ⟨next, hnext, -⟩ := hsession.step (.newCall data surroundings)
      obtain ⟨window, hwindow, -⟩ := bind_eq_ok.mp hnext
      exact ⟨window, hwindow⟩

/-- A chunk leads to what the text in the bytes of its connection leads to. -/
theorem incoming_readyRead (hfollows : Follows platform start events program) {id : Id}
    {socket : CServerSocket} (hsocket : program.listener.sockets id = some socket)
    (hopen : socket.isOpen = true) (chunk : QByteArray) (now : QString) (arrival : Arrival) :
    program.incoming platform arrival (.readyRead id chunk now) =
      match messageWith platform start.dialog events id chunk with
      | none => .ok program.window
      | some msg =>
          if 5 ≤ msg.split.length then
            program.onNewCall platform arrival.surroundings
              ((itemOf platform.dates arrival msg).map Subtype.val)
          else .error (.indexOutOfRange 4 msg.split.length) := by
  have hmessage := hfollows.messageReady_eq hsocket hopen chunk now
  rw [incoming, delivered, hsocket]
  simp only [CListenerSocket.deliver, hmessage]
  cases messageWith platform start.dialog events id chunk with
  | none => rfl
  | some msg =>
      simp only [onIncomingMessage_eq]
      split <;> rfl

/-- The events of the sockets go wrong over a short message only. -/
theorem incoming_eq_error (hfollows : Follows platform start events program)
    {event : ServerEvent Id} {arrival : Arrival} {listener : CListenerSocket Id} {cause : Fault}
    (hlistener : program.listener.step platform.decrypt program.dialog.settings.aesKey event =
      some listener)
    (herror : program.incoming platform arrival event = .error cause) :
    ∃ id chunk now, event = .readyRead id chunk now ∧
      CompletesMalformedPacket platform start events program id chunk := by
  cases event with
  | incomingConnection | disconnected | deferredDelete => cases herror
  | readyRead id chunk now =>
      obtain ⟨socket, hsocket, hopen, hchunk, -⟩ := CListenerSocket.step_readyRead hlistener
      have hisOpen := CListenerSocket.Follows.isOpen_of_sockets hsocket
      rw [hfollows.incoming_readyRead hsocket hopen] at herror
      refine ⟨id, chunk, now, rfl, hisOpen.trans hopen, hchunk, .inr ?_⟩
      cases hmsg : messageWith platform start.dialog events id chunk with
      | none =>
          rw [hmsg] at herror
          cases herror
      | some msg =>
          rw [hmsg] at herror
          simp only at herror
          split at herror
          · obtain ⟨window, hwindow⟩ := hfollows.onNewCall_isOk arrival.surroundings
              (itemOf platform.dates arrival msg)
            rw [hwindow] at herror
            cases herror
          next hfew => exact ⟨msg, rfl, .inl (not_le.mp hfew)⟩

theorem step_eq_fault (hfollows : Follows platform start events program)
    {event : ProgramEvent Id} {cause : Fault}
    (herror : Program.step platform program event = .error (.fault cause)) :
    ∃ id chunk now arrival, event = .server (.readyRead id chunk now) arrival ∧
      CompletesMalformedPacket platform start events program id chunk := by
  obtain ⟨history, hsession⟩ := hfollows.session_follows
  cases event with
  | server event arrival =>
      rcases bind_eq_error.mp herror with himpossible | ⟨listener, hlistener, herror⟩
      · exact absurd himpossible (Stop.ofOption_ne_fault _ _)
      rcases bind_eq_error.mp herror with hincoming | ⟨window, -, hreturn⟩
      · obtain ⟨id, chunk, now, rfl, hmalformed⟩ := hfollows.incoming_eq_error
          (Stop.ofOption_eq_ok.mp hlistener) (Stop.ofExcept_eq_fault.mp hincoming)
        exact ⟨id, chunk, now, arrival, rfl, hmalformed⟩
      · cases hreturn
  | dialog event =>
      rcases bind_eq_error.mp herror with himpossible | ⟨discoverable, -, hreturn⟩
      · exact absurd himpossible (Stop.ofOption_ne_fault _ _)
      · cases hreturn
  | btnClearHistoryClicked currentIndex surroundings =>
      obtain ⟨next, hnext, -⟩ := hsession.step (.btnClearHistoryClicked currentIndex surroundings)
      obtain ⟨window, hwindow, -⟩ := bind_eq_ok.mp hnext
      rw [Program.step, Stop.ofExcept_eq_ok.mpr hwindow] at herror
      cases herror
  | change isActiveWindow surroundings =>
      obtain ⟨next, hnext, -⟩ := hsession.step (.change isActiveWindow surroundings)
      obtain ⟨window, hwindow, -⟩ := bind_eq_ok.mp hnext
      rw [Program.step, Stop.ofExcept_eq_ok.mpr hwindow] at herror
      cases herror

/-- An event that happens passes the check, unless it completes such a packet. -/
theorem checkedStep_of_step (hfollows : Follows platform start events program)
    {event : ProgramEvent Id} (hnext : Program.step platform program event = .ok next)
    (hwell : ∀ id chunk now arrival, event = .server (.readyRead id chunk now) arrival →
      ¬ CompletesMalformedPacket platform start events program id chunk) :
    checkedStep platform program event = .ok next := by
  refine checkedStep_eq_ok.mpr ⟨hnext, (hfollows.reads_inside_iff hnext).mpr ?_⟩
  cases event with
  | dialog | btnClearHistoryClicked | change => simp [ProgramEvent.server?]
  | server event arrival =>
      rintro server hserver
      obtain rfl : event = server := Option.some.inj hserver
      cases event with
      | incomingConnection | disconnected | deferredDelete => simp [socketReads]
      | readyRead id chunk now =>
          obtain ⟨listener, -, hlistener, -, -⟩ := step_server hnext
          obtain ⟨socket, hsocket, hopen, hchunk, -⟩ := CListenerSocket.step_readyRead hlistener
          have hisOpen := (CListenerSocket.Follows.isOpen_of_sockets hsocket).trans hopen
          have hnot := hwell id chunk now arrival rfl
          rw [hfollows.socketReads_inside_iff hsocket hopen]
          refine ⟨fun hshort => hnot ⟨hisOpen, hchunk, .inl hshort⟩, fun msg hmsg => ?_⟩
          by_contra hpart
          exact hnot ⟨hisOpen, hchunk, .inr ⟨msg, hmsg, .inr hpart⟩⟩

theorem checkedStep_eq_fault (hfollows : Follows platform start events program)
    {event : ProgramEvent Id} {cause : Fault}
    (herror : checkedStep platform program event = .error (.fault cause)) :
    ∃ id chunk now arrival, event = .server (.readyRead id chunk now) arrival ∧
      CompletesMalformedPacket platform start events program id chunk := by
  rcases bind_eq_error.mp herror with hstep | ⟨next, hnext, -⟩
  · exact hfollows.step_eq_fault hstep
  · by_contra hnone
    have hchecked := hfollows.checkedStep_of_step hnext fun id chunk now arrival hevent hbad =>
      hnone ⟨id, chunk, now, arrival, hevent, hbad⟩
    rw [hchecked] at herror
    cases herror

/-- Such a packet does go wrong: in the parser, or over a read. -/
theorem checkedStep_of_malformed (hfollows : Follows platform start events program) {id : Id}
    {chunk : QByteArray}
    (hmalformed : CompletesMalformedPacket platform start events program id chunk)
    (now : QString) (arrival : Arrival) :
    ∃ cause, checkedStep platform program (.server (.readyRead id chunk now) arrival) =
      .error (.fault cause) := by
  obtain ⟨socket, hsocket, hopen⟩ := (Option.any_eq_true _ _).mp hmalformed.isOpen
  have hlistener : program.listener.step platform.decrypt program.dialog.settings.aesKey
      (.readyRead id chunk now) = some (program.listener.activated id
        (socket.receive platform.decrypt program.dialog.settings.aesKey now chunk
          program.listener.lastMessageStatus)) := by
    rw [CListenerSocket.step, hsocket]
    exact if_pos ⟨hopen, hmalformed.nonempty⟩
  cases hincoming : program.incoming platform arrival (.readyRead id chunk now) with
  | error cause =>
      refine ⟨cause, ?_⟩
      rw [checkedStep, Program.step, hlistener, hincoming]
      rfl
  | ok window =>
      have hnext : Program.step platform program (.server (.readyRead id chunk now) arrival) =
          .ok { program with
            listener := program.listener.activated id
              (socket.receive platform.decrypt program.dialog.settings.aesKey now chunk
                program.listener.lastMessageStatus)
            window } := by
        rw [Program.step, hlistener, hincoming]
        rfl
      -- The parser found its fields, so a read has to be outside.
      apply exists_checkedStep_eq_fault hnext
      rw [hfollows.reads_inside_iff hnext]
      intro hinside
      obtain ⟨hlong, hwhole⟩ :=
        (hfollows.socketReads_inside_iff hsocket hopen chunk now).mp (hinside _ rfl)
      rcases hmalformed.malformed with hshort | ⟨msg, hmsg, hfew | hpart⟩
      · exact hlong hshort
      · have herror := hfollows.incoming_readyRead hsocket hopen chunk now arrival
        rw [hincoming, hmsg] at herror
        simp only [if_neg (not_le.mpr hfew)] at herror
        cases herror
      · exact hpart (hwhole msg hmsg)

end Follows

/-- The program goes wrong in a run, by an index beyond the end of a list or by a
read beyond the end of an array, exactly when a chunk completes on an open
connection a packet of less than fifteen bytes of payload, or a valid message of
fewer than five fields, or one with an image field that decodes to less than an
image. Nothing that happens to the dialog or the window, and no other packet, can
make it go wrong. -/
theorem goes_wrong_iff (platform : Platform) (settingsStorage : QSettings)
    (registry : Option QString) (start : Program Id)
    (hstart : construct platform settingsStorage registry = .ok start)
    (events : List (ProgramEvent Id)) :
    (∃ cause, run (checkedStep platform) start events = .error (.fault cause)) ↔
      ∃ front id chunk now arrival back program,
        events = front ++ .server (.readyRead id chunk now) arrival :: back ∧
        run (checkedStep platform) start front = .ok program ∧
        CompletesMalformedPacket platform start front program id chunk := by
  constructor
  · rintro ⟨cause, hwrong⟩
    obtain ⟨front, event, back, program, rfl, hrun, hstep⟩ := run_eq_error.mp hwrong
    obtain ⟨id, chunk, now, arrival, rfl, hmalformed⟩ :=
      (Follows.of_run hstart (run_of_checked hrun)).checkedStep_eq_fault hstep
    exact ⟨front, id, chunk, now, arrival, back, program, rfl, hrun, hmalformed⟩
  · rintro ⟨front, id, chunk, now, arrival, back, program, rfl, hrun, hmalformed⟩
    obtain ⟨cause, hstep⟩ :=
      (Follows.of_run hstart (run_of_checked hrun)).checkedStep_of_malformed hmalformed now arrival
    exact ⟨cause, run_eq_error.mpr ⟨front, _, back, program, rfl, hrun, hstep⟩⟩

/-- A packet of one byte, too short for its vector. -/
theorem goes_wrong_iff_one_byte :
    ∃ cause, run (checkedStep .transparent) firstStart
      [.server (.incomingConnection 0) .atEpoch,
        .server (.readyRead 0 [1, 0, 0, 0, 7] []) .atEpoch] = .error (.fault cause) := by
  have hruns : (run (checkedStep .transparent) firstStart
      [.server (.incomingConnection 0) .atEpoch]).toOption.isSome := by decide +kernel
  obtain ⟨program, hrun⟩ := exists_ok_of_isSome hruns
  refine (goes_wrong_iff .transparent (fun _ => none) none firstStart rfl _).mpr
    ⟨[.server (.incomingConnection 0) .atEpoch], 0, _, [], .atEpoch, [], program, rfl, hrun, ?_⟩
  constructor
  · have hopen : (run (checkedStep .transparent) firstStart
        [.server (.incomingConnection 0) .atEpoch]).toOption.map (·.listener.isOpen 0) =
          some true := by decide +kernel
    rw [hrun] at hopen
    exact Option.some.inj hopen
  · decide
  · exact .inl ⟨by decide +kernel, by decide +kernel, by decide +kernel⟩

end Program

end BBNotifier
