import BBNotifier.Program.Program
import BBNotifier.Server.Buffering

/-! # The program as its parts

The dialog and the port of the listener are what the events of the dialog make
of them, whatever arrives on the network. The window is what it would be with
the items of the completed packets alone, in the order of their completion, each
decrypted under the key that was in force then.
-/

namespace BBNotifier

open Foundation

/-! ## What the events say -/

section

variable {Id : Type}

def ProgramEvent.server? : ProgramEvent Id → Option (ServerEvent Id)
  | server event _ => some event
  | dialog _ | btnClearHistoryClicked _ _ | change _ _ => none

def ProgramEvent.dialog? : ProgramEvent Id → Option DialogEvent
  | dialog event => some event
  | server _ _ | btnClearHistoryClicked _ _ | change _ _ => none

def serverEvents (events : List (ProgramEvent Id)) : List (ServerEvent Id) :=
  events.filterMap ProgramEvent.server?

def dialogEvents (events : List (ProgramEvent Id)) : List DialogEvent :=
  events.filterMap ProgramEvent.dialog?

/-- The dialog after its events. -/
def dialogAfter (platform : Platform) (initial : CSettingsDialog)
    (events : List (ProgramEvent Id)) : Option CSettingsDialog :=
  run (CSettingsDialog.step platform.applicationFilePath) initial (dialogEvents events)

/-- The item of a message with its date, unless its type is unknown. -/
def itemOf (dates : QDateTimeText) (arrival : Arrival) (msg : QString) : Option ParsedItem :=
  let data := CNotificationItem.withDefaults dates arrival.heap msg.split
  if data.type ≠ .empty then
    have hdata := CNotificationItem.oneLine_withDefaults dates arrival.heap msg
    some ⟨{ data with dateTime := arrival.currentDateTime }, hdata.phone, hdata.name, hdata.data⟩
  else none

variable [DecidableEq Id]

/-- The text in the bytes of a connection once a chunk has arrived on it. -/
def messageWith (platform : Platform) (initial : CSettingsDialog)
    (before : List (ProgramEvent Id)) (id : Id) (chunk : QByteArray) : Option QString := do
  let dialog ← dialogAfter platform initial before
  let received := CListenerSocket.receivedOn id (serverEvents before) ++ chunk
  (CListenerSocket.framing platform.decrypt dialog.settings.aesKey received).2.head?

/-- What an event that comes after others means to the window. -/
def windowEvent? (platform : Platform) (initial : CSettingsDialog)
    (before : List (ProgramEvent Id)) : ProgramEvent Id → Option WindowEvent
  | .server (.readyRead id chunk _) arrival => do
      let msg ← messageWith platform initial before id chunk
      let data ← itemOf platform.dates arrival msg
      return .newCall data arrival.surroundings
  | .server (.incomingConnection _) _ | .server (.disconnected _) _
  | .server (.deferredDelete _) _ => none
  | .dialog event => do
      let dialog ← dialogAfter platform initial (before ++ [.dialog event])
      return .settingsChanged dialog.settings
  | .btnClearHistoryClicked currentIndex surroundings =>
      some (.btnClearHistoryClicked currentIndex surroundings)
  | .change isActiveWindow surroundings => some (.change isActiveWindow surroundings)

/-- What the events mean to the window. -/
def windowEvents (platform : Platform) (initial : CSettingsDialog)
    (events : List (ProgramEvent Id)) : List WindowEvent :=
  outputs (windowEvent? platform initial) events

end

section

variable {Id : Type} {events : List (ProgramEvent Id)} {event : ProgramEvent Id}

theorem serverEvents_snoc_server (event : ServerEvent Id) (arrival : Arrival) :
    serverEvents (events ++ [.server event arrival]) = serverEvents events ++ [event] :=
  List.filterMap_append

theorem serverEvents_snoc (h : event.server? = none) :
    serverEvents (events ++ [event]) = serverEvents events := by
  rw [serverEvents, List.filterMap_append, List.filterMap_cons_none h, List.filterMap_nil,
    List.append_nil, serverEvents]

theorem dialogEvents_snoc_dialog (event : DialogEvent) :
    dialogEvents (events ++ [.dialog event]) = dialogEvents events ++ [event] :=
  List.filterMap_append

theorem dialogEvents_snoc (h : event.dialog? = none) :
    dialogEvents (events ++ [event]) = dialogEvents events := by
  rw [dialogEvents, List.filterMap_append, List.filterMap_cons_none h, List.filterMap_nil,
    List.append_nil, dialogEvents]

/-- The dialog does not need the port of the listener. -/
theorem dialogAfter_of_run {platform : Platform} {start final : Discoverable}
    (hrun : run (Discoverable.step platform.automaticPort platform.applicationFilePath) start
      (dialogEvents events) = some final) :
    dialogAfter platform start.dialog events = some final.dialog := by
  apply run_project Discoverable.dialog _ hrun
  intro discoverable event next hnext
  obtain ⟨dialog, hdialog, rfl⟩ := Option.map_eq_some_iff.mp hnext
  exact hdialog

end

/-! ## From a chunk to the window -/

/-- `OnIncomingMessage` hands over the item of the message, or goes wrong over
its fields. -/
theorem onIncomingMessage_eq (dates : QDateTimeText) (arrival : Arrival) (msg : QString) :
    CListenerSocket.onIncomingMessage dates arrival.heap arrival.currentDateTime msg =
      if 5 ≤ msg.split.length then .ok ((itemOf dates arrival msg).map Subtype.val)
      else .error (.indexOutOfRange 4 msg.split.length) := by
  rw [CListenerSocket.onIncomingMessage, CNotificationItem.ofSerialized_eq]
  by_cases hfields : 5 ≤ msg.split.length
  · rw [if_pos hfields, if_pos hfields, itemOf]
    by_cases htype : (CNotificationItem.withDefaults dates arrival.heap msg.split).type ≠ .empty
    · simp only [if_pos htype]
      exact if_pos htype
    · simp only [if_neg htype]
      exact if_neg htype
  · rw [if_neg hfields, if_neg hfields]
    rfl

namespace Program

variable {Id : Type} [DecidableEq Id]

/-- How the program stands after the events of a run. -/
structure Follows (platform : Platform) (start : Program Id) (events : List (ProgramEvent Id))
    (program : Program Id) : Prop where
  discoverable : run (Discoverable.step platform.automaticPort platform.applicationFilePath)
    start.toDiscoverable (dialogEvents events) = some program.toDiscoverable
  session : run (Session.step platform.dates) (.new start.dialog.settings)
    (windowEvents platform start.dialog events) = .ok ⟨program.dialog.settings, program.window⟩
  buffers : program.listener.Buffers (serverEvents events)

namespace Follows

variable {platform : Platform} {start program next : Program Id}
  {events : List (ProgramEvent Id)}

/-- The dialog by itself. -/
theorem dialogAfter_eq (hfollows : Follows platform start events program) :
    dialogAfter platform start.dialog events = some program.dialog :=
  dialogAfter_of_run hfollows.discoverable

/-- Everything that led to the window led to a state it can be in. -/
theorem session_follows (hfollows : Follows platform start events program) :
    ∃ history, Session.Follows platform.dates start.dialog.settings
      (windowEvents platform start.dialog events) history
      ⟨program.dialog.settings, program.window⟩ := by
  obtain ⟨session, hrun, history, hsession⟩ := Session.run_follows platform.dates
    start.dialog.settings (windowEvents platform start.dialog events)
  obtain rfl := Except.ok.inj (hrun.symm.trans hfollows.session)
  exact ⟨history, hsession⟩

/-- The text handed to the listener is the one in the bytes of the connection. -/
theorem messageReady_eq (hfollows : Follows platform start events program) {id : Id}
    {socket : CServerSocket} (hsocket : program.listener.sockets id = some socket)
    (hopen : socket.isOpen = true) (chunk : QByteArray) (now : QString) :
    (socket.receive platform.decrypt program.dialog.settings.aesKey now chunk
        program.listener.lastMessageStatus).messageReady =
      messageWith platform start.dialog events id chunk := by
  obtain rfl := hfollows.buffers.listening id socket hsocket hopen
  have hrepresents := receive_represents platform.decrypt program.dialog.settings.aesKey now
    (CListenerSocket.receivedOn id (serverEvents events)) chunk program.listener.lastMessageStatus
  have hmessages := congrArg Prod.snd
    ((CListenerSocket.outcome_of_represents hrepresents).symm.trans
      (CListenerSocket.outcome_after _ _ _))
  rw [messageWith, hfollows.dialogAfter_eq]
  simp only [Option.bind_eq_bind, Option.bind_some]
  rw [← hmessages, Option.head?_toList]

/-- The last bytes of a packet close its connection. -/
theorem isOpen_of_message (hfollows : Follows platform start events program) {id : Id}
    {chunk : QByteArray} {now : QString} {listener : CListenerSocket Id} {msg : QString}
    (hlistener : program.listener.step platform.decrypt program.dialog.settings.aesKey
      (.readyRead id chunk now) = some listener)
    (hmsg : messageWith platform start.dialog events id chunk = some msg) :
    listener.isOpen id = false := by
  obtain ⟨socket, hsocket, hopen, -, rfl⟩ := CListenerSocket.step_readyRead hlistener
  have hready := hfollows.messageReady_eq hsocket hopen chunk now
  rw [hmsg] at hready
  obtain rfl := hfollows.buffers.listening id socket hsocket hopen
  rw [CListenerSocket.isOpen_activated]
  rcases receive_cases platform.decrypt program.dialog.settings.aesKey now
    (CListenerSocket.receivedOn id (serverEvents events)) chunk
    program.listener.lastMessageStatus with ⟨-, hnone, -⟩ | ⟨-, hsocket'⟩
  · rw [hready] at hnone
    cases hnone
  · rw [hsocket']

/-- An event that means something to the window is performed by it. -/
theorem session_snoc (hfollows : Follows platform start events program)
    {event : ProgramEvent Id} {windowEvent : WindowEvent}
    (hevent : windowEvent? platform start.dialog events event = some windowEvent)
    {session : Session}
    (hstep : Session.step platform.dates ⟨program.dialog.settings, program.window⟩ windowEvent =
      .ok session) :
    run (Session.step platform.dates) (.new start.dialog.settings)
      (windowEvents platform start.dialog (events ++ [event])) = .ok session := by
  rw [windowEvents, outputs_snoc, hevent, Option.toList_some]
  exact run_snoc_eq_ok.mpr ⟨_, hfollows.session, hstep⟩

theorem session_skip (hfollows : Follows platform start events program)
    {event : ProgramEvent Id} (hevent : windowEvent? platform start.dialog events event = none) :
    run (Session.step platform.dates) (.new start.dialog.settings)
      (windowEvents platform start.dialog (events ++ [event])) =
        .ok ⟨program.dialog.settings, program.window⟩ := by
  rw [windowEvents, outputs_snoc, hevent, Option.toList_none, List.append_nil]
  exact hfollows.session

/-- A chunk means to the window what `incoming` makes of it. -/
theorem session_server (hfollows : Follows platform start events program)
    {event : ServerEvent Id} {arrival : Arrival} {listener : CListenerSocket Id}
    {window : CMainWnd}
    (hlistener : program.listener.step platform.decrypt program.dialog.settings.aesKey event =
      some listener)
    (hwindow : program.incoming platform arrival event = .ok window) :
    run (Session.step platform.dates) (.new start.dialog.settings)
      (windowEvents platform start.dialog (events ++ [.server event arrival])) =
        .ok ⟨program.dialog.settings, window⟩ := by
  cases event with
  | incomingConnection | disconnected | deferredDelete =>
      obtain rfl := Except.ok.inj hwindow
      exact hfollows.session_skip rfl
  | readyRead id chunk now =>
      obtain ⟨socket, hsocket, hopen, -, -⟩ := CListenerSocket.step_readyRead hlistener
      have hmessage := hfollows.messageReady_eq hsocket hopen chunk now
      obtain ⟨data, hdata, hwindow⟩ := bind_eq_ok.mp hwindow
      simp only [delivered, hsocket] at hdata
      rw [CListenerSocket.deliver, hmessage] at hdata
      cases hmsg : messageWith platform start.dialog events id chunk with
      | none =>
          rw [hmsg] at hdata
          obtain rfl := Except.ok.inj hdata
          obtain rfl := Except.ok.inj hwindow
          exact hfollows.session_skip (by rw [windowEvent?, hmsg]; rfl)
      | some msg =>
          rw [hmsg] at hdata
          simp only [onIncomingMessage_eq] at hdata
          split at hdata
          · cases hitem : itemOf platform.dates arrival msg with
            | none =>
                rw [hitem] at hdata
                obtain rfl := Except.ok.inj hdata
                obtain rfl := Except.ok.inj hwindow
                exact hfollows.session_skip (by rw [windowEvent?, hmsg]; simp [hitem])
            | some item =>
                rw [hitem] at hdata
                obtain rfl := Except.ok.inj hdata
                have hevent : windowEvent? platform start.dialog events
                    (.server (.readyRead id chunk now) arrival) =
                      some (.newCall item arrival.surroundings) := by
                  rw [windowEvent?, hmsg]
                  simp [hitem]
                exact hfollows.session_snoc hevent (bind_eq_ok.mpr ⟨window, hwindow, rfl⟩)
          · contradiction

theorem step (hfollows : Follows platform start events program) {event : ProgramEvent Id}
    (hnext : Program.step platform program event = .ok next) :
    Follows platform start (events ++ [event]) next := by
  cases event with
  | server event arrival =>
      obtain ⟨listener, window, hlistener, hwindow, rfl⟩ := step_server hnext
      constructor
      · rw [dialogEvents_snoc rfl]
        exact hfollows.discoverable
      · exact hfollows.session_server hlistener hwindow
      · rw [serverEvents_snoc_server]
        exact hfollows.buffers.step hlistener
  | dialog event =>
      obtain ⟨discoverable, hdiscoverable, rfl⟩ := step_dialog hnext
      have hafter : run (Discoverable.step platform.automaticPort platform.applicationFilePath)
          start.toDiscoverable (dialogEvents (events ++ [.dialog event])) =
            some discoverable := by
        rw [dialogEvents_snoc_dialog]
        exact run_snoc_eq_some.mpr ⟨_, hfollows.discoverable, hdiscoverable⟩
      have hevent : windowEvent? platform start.dialog events (.dialog event) =
          some (.settingsChanged discoverable.dialog.settings) := by
        rw [windowEvent?, dialogAfter_of_run hafter]
        rfl
      refine ⟨hafter, hfollows.session_snoc hevent rfl, ?_⟩
      rw [serverEvents_snoc rfl]
      exact hfollows.buffers
  | btnClearHistoryClicked currentIndex surroundings =>
      obtain ⟨window, hwindow, rfl⟩ := step_btnClearHistoryClicked hnext
      have hevent : windowEvent? platform start.dialog events
          (.btnClearHistoryClicked currentIndex surroundings) =
            some (.btnClearHistoryClicked currentIndex surroundings) := rfl
      refine ⟨?_, hfollows.session_snoc hevent (bind_eq_ok.mpr ⟨window, hwindow, rfl⟩), ?_⟩
      · rw [dialogEvents_snoc rfl]
        exact hfollows.discoverable
      · rw [serverEvents_snoc rfl]
        exact hfollows.buffers
  | change isActiveWindow surroundings =>
      obtain ⟨window, hwindow, rfl⟩ := step_change hnext
      have hevent : windowEvent? platform start.dialog events
          (.change isActiveWindow surroundings) = some (.change isActiveWindow surroundings) := rfl
      refine ⟨?_, hfollows.session_snoc hevent (bind_eq_ok.mpr ⟨window, hwindow, rfl⟩), ?_⟩
      · rw [dialogEvents_snoc rfl]
        exact hfollows.discoverable
      · rw [serverEvents_snoc rfl]
        exact hfollows.buffers

theorem of_construct {settingsStorage : QSettings} {registry : Option QString}
    (hstart : construct platform settingsStorage registry = .ok start) :
    Follows platform start [] start := by
  obtain ⟨discoverable, -, hstart⟩ := bind_eq_ok.mp hstart
  obtain rfl := Except.ok.inj hstart
  exact ⟨rfl, rfl, .start⟩

theorem of_run {settingsStorage : QSettings} {registry : Option QString}
    (hstart : construct platform settingsStorage registry = .ok start)
    (hrun : run (Program.step platform) start events = .ok program) :
    Follows platform start events program :=
  run_invariant_ok (Follows platform start) (.of_construct hstart)
    (fun _ _ _ _ _ hfollows hnext => hfollows.step hnext) events program hrun

end Follows

/-! ## A first start -/

end Program

/-- The platform with the identity for a cipher. -/
def Platform.transparent : Platform where
  dates := CNotificationItem.tallyDates
  decrypt := decryptPayload (fun _ => 1) (fun _ => 0)
  automaticPort := 0
  applicationFilePath := []

def Arrival.atEpoch : Arrival := ⟨some 0, fun _ => 0, ⟨fun _ => 0, true, true⟩⟩

/-- The packet of a ringing call. -/
def callPacket : QByteArray :=
  encryptedPacket (fun _ => 1) .zero 0 "RINGING\n555\nBob\n\n".toList

namespace Program

/-- The program of a first start, over an empty storage. -/
def firstStart : Program Nat := ⟨⟨.firstStart, 8083⟩, .new, .new⟩

theorem construct_empty : construct .transparent (fun _ => none) none = .ok firstStart := rfl

/-! ## The parts -/

variable {Id : Type} [DecidableEq Id]

/-- In every run of the program the dialog, the storage and the port of the
listener are what the events of the dialog alone lead to, and the window with the
settings in force is what the items of the completed packets, the clears and the
changes lead to. -/
theorem composition_of_run (platform : Platform) (settingsStorage : QSettings)
    (registry : Option QString) (start : Program Id)
    (hstart : construct platform settingsStorage registry = .ok start)
    (events : List (ProgramEvent Id)) (program : Program Id)
    (hrun : run (step platform) start events = .ok program) :
    run (Discoverable.step platform.automaticPort platform.applicationFilePath)
        start.toDiscoverable (dialogEvents events) = some program.toDiscoverable ∧
      run (Session.step platform.dates) (.new start.dialog.settings)
        (windowEvents platform start.dialog events) =
          .ok ⟨program.dialog.settings, program.window⟩ :=
  have hfollows := Follows.of_run hstart hrun
  ⟨hfollows.discoverable, hfollows.session⟩

/-- A call arrives in two chunks while the settings dialog is used. -/
theorem composition_of_run_call :
    ∃ program, run (step .transparent) firstStart [.server (.incomingConnection 0) .atEpoch,
        .dialog .showSettings, .server (.readyRead 0 (callPacket.take 7) []) .atEpoch,
        .dialog .accepted, .server (.readyRead 0 (callPacket.drop 7) []) .atEpoch] =
          .ok program ∧
      run (Session.step CNotificationItem.tallyDates) (.new ⟨8083, .zero, true, true, 20⟩)
        (windowEvents .transparent CSettingsDialog.firstStart
          [.server (.incomingConnection 0) .atEpoch, .dialog .showSettings,
            .server (.readyRead 0 (callPacket.take 7) []) .atEpoch, .dialog .accepted,
            .server (.readyRead 0 (callPacket.drop 7) []) .atEpoch]) =
        .ok ⟨program.dialog.settings, program.window⟩ := by
  have hruns : (run (step .transparent) firstStart [.server (.incomingConnection 0) .atEpoch,
      .dialog .showSettings, .server (.readyRead 0 (callPacket.take 7) []) .atEpoch,
      .dialog .accepted,
      .server (.readyRead 0 (callPacket.drop 7) []) .atEpoch]).toOption.isSome := by
    decide +kernel
  obtain ⟨program, hrun⟩ := exists_ok_of_isSome hruns
  exact ⟨program, hrun,
    (composition_of_run .transparent (fun _ => none) none firstStart rfl _ program hrun).2⟩

end Program

end BBNotifier
