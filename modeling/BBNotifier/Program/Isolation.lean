import BBNotifier.Program.Composition

/-! # Connections that bring nothing

A peer without the key completes no valid packet. Whatever it sends, and in
whatever order with everything else, the program is then as it would be without
the connection, but for the status text that the settings dialog shows.
-/

namespace BBNotifier

open Foundation

/-- Neither the socket nor the message depends on the status so far. -/
theorem CServerSocket.receive_congr (decrypt : QByteArray → AESKey → QString) (key : AESKey)
    (now : QString) (socket : CServerSocket) (chunk : QByteArray) (status other : QString) :
    (socket.receive decrypt key now chunk status).socket =
        (socket.receive decrypt key now chunk other).socket ∧
      (socket.receive decrypt key now chunk status).messageReady =
        (socket.receive decrypt key now chunk other).messageReady := by
  simp only [receive, onReadyRead]
  split
  next =>
    split
    next => exact ⟨rfl, rfl⟩
    next =>
      split
      next => exact ⟨rfl, rfl⟩
      next => exact ⟨rfl, rfl⟩
  next => exact ⟨rfl, rfl⟩

namespace CListenerSocket

variable {Id : Type}

/-- Two listeners that differ in the connections of some identifiers only. -/
structure Agrees (silent : Id → Bool) (kept server : CListenerSocket Id) : Prop where
  sockets : ∀ id, silent id = false → kept.sockets id = server.sockets id
  registered : ∀ id, id ∈ kept.serverSockets → id ∈ server.serverSockets

variable [DecidableEq Id] {silent : Id → Bool} {decrypt : QByteArray → AESKey → QString}
  {key : AESKey} {kept server next : CListenerSocket Id} {event : ServerEvent Id}

theorem Agrees.setSocket (hagrees : Agrees silent kept server) (id : Id)
    (socket : Option CServerSocket) :
    Agrees silent (kept.setSocket id socket) (server.setSocket id socket) := by
  refine ⟨fun other hother => ?_, hagrees.registered⟩
  simp only [CListenerSocket.setSocket, Function.update_apply, hagrees.sockets other hother]

/-- An event of another connection can happen with either listener. -/
theorem Agrees.step (hagrees : Agrees silent kept server) (hloud : silent event.id = false)
    (hnext : step decrypt key server event = some next) :
    ∃ next', CListenerSocket.step decrypt key kept event = some next' ∧
      Agrees silent next' next := by
  have hsame := hagrees.sockets event.id hloud
  cases event with
  | incomingConnection id =>
      obtain ⟨hnew, rfl⟩ := step_incomingConnection hnext
      refine ⟨_, if_neg fun hid => hnew (hagrees.registered id hid), ?_, ?_⟩
      · exact (hagrees.setSocket id (some .new)).sockets
      · intro other hother
        rcases List.mem_append.mp hother with hother | hother
        · exact List.mem_append_left _ (hagrees.registered other hother)
        · exact List.mem_append_right _ hother
  | readyRead id chunk now =>
      obtain ⟨socket, hsocket, hopen, hchunk, rfl⟩ := step_readyRead hnext
      have hkept : kept.sockets id = some socket := hsame.trans hsocket
      refine ⟨kept.activated id (socket.receive decrypt key now chunk kept.lastMessageStatus),
        ?_, ?_⟩
      · rw [CListenerSocket.step, hkept]
        exact if_pos ⟨hopen, hchunk⟩
      · have hset := hagrees.setSocket id
          (some (socket.receive decrypt key now chunk server.lastMessageStatus).socket)
        have hreceive := (socket.receive_congr decrypt key now chunk kept.lastMessageStatus
          server.lastMessageStatus).1
        rw [← hreceive] at hset
        refine ⟨?_, hset.registered⟩
        intro other hother
        have hother' := hset.sockets other hother
        rw [hreceive] at hother'
        simp only [activated, hreceive]
        exact hother'
  | disconnected id =>
      obtain ⟨socket, hsocket, hopen, rfl⟩ := step_disconnected hnext
      have hkept : kept.sockets id = some socket := hsame.trans hsocket
      refine ⟨_, ?_, hagrees.setSocket id _⟩
      rw [CListenerSocket.step, hkept]
      exact if_pos hopen
  | deferredDelete id =>
      obtain ⟨socket, hsocket, hscheduled, rfl⟩ := step_deferredDelete hnext
      have hkept : kept.sockets id = some socket := hsame.trans hsocket
      refine ⟨_, ?_, hagrees.setSocket id _⟩
      rw [CListenerSocket.step, hkept]
      exact if_pos hscheduled

/-- Nothing is taken off the register. -/
theorem mem_serverSockets_of_step
    (hnext : CListenerSocket.step decrypt key server event = some next) {id : Id}
    (hid : id ∈ server.serverSockets) : id ∈ next.serverSockets := by
  cases event with
  | incomingConnection other =>
      obtain ⟨-, rfl⟩ := step_incomingConnection hnext
      exact List.mem_append_left _ hid
  | readyRead other chunk now =>
      obtain ⟨socket, -, -, -, rfl⟩ := step_readyRead hnext
      exact hid
  | disconnected other =>
      obtain ⟨socket, -, -, rfl⟩ := step_disconnected hnext
      exact hid
  | deferredDelete other =>
      obtain ⟨socket, -, -, rfl⟩ := step_deferredDelete hnext
      exact hid

/-- An event of a silent connection leaves the others as they were. -/
theorem Agrees.skip (hagrees : Agrees silent kept server) (hsilent : silent event.id = true)
    (hnext : CListenerSocket.step decrypt key server event = some next) :
    Agrees silent kept next := by
  refine ⟨fun id hloud => ?_, fun id hid => ?_⟩
  · have hne : event.id ≠ id := fun heq => by simp [heq, hloud] at hsilent
    rw [hagrees.sockets id hloud, (step_of_ne hne hnext).1]
  · exact mem_serverSockets_of_step hnext (hagrees.registered id hid)

end CListenerSocket

/-! ## The dialog -/

namespace CSettingsDialog

def withDiagnostics (text : QString) (dialog : CSettingsDialog) : CSettingsDialog :=
  { dialog with ui := { dialog.ui with edtDiagnostics := text } }

/-- Nothing but the timer depends on the text of the diagnostics. -/
theorem step_withDiagnostics {applicationFilePath : QString} {dialog next : CSettingsDialog}
    {event : DialogEvent} (htick : ∀ text, event ≠ .timeout text)
    (hnext : step applicationFilePath dialog event = some next) (text : QString) :
    step applicationFilePath (dialog.withDiagnostics text) event =
      some (next.withDiagnostics text) := by
  have hvisible : (dialog.withDiagnostics text).isVisible = dialog.isVisible := rfl
  cases event with
  | timeout text => exact absurd rfl (htick text)
  | showSettings =>
      obtain ⟨hhidden, rfl⟩ := step_showSettings hnext
      rw [step, hvisible, hhidden, if_neg Bool.false_ne_true]
      simp only [showEvent, withDiagnostics]
  | edit =>
      obtain ⟨hshown, rfl⟩ := eq_of_guard hnext
      rw [step, hvisible, hshown, if_pos rfl]
      rfl
  | btnGenClicked answer generated =>
      obtain ⟨hshown, rfl⟩ := step_btnGenClicked hnext
      rw [step, hvisible, hshown, if_pos rfl]
      cases answer <;> rfl
  | accepted =>
      obtain ⟨hshown, rfl⟩ := step_accepted hnext
      rw [step, hvisible, hshown, if_pos rfl]
      rfl
  | rejected =>
      obtain ⟨hshown, rfl⟩ := step_rejected hnext
      rw [step, hvisible, hshown, if_pos rfl]
      rfl

/-- A tick changes the diagnostics only. -/
theorem step_timeout {applicationFilePath : QString} {dialog next : CSettingsDialog}
    {text : QString} (hnext : step applicationFilePath dialog (.timeout text) = some next) :
    next = dialog.withDiagnostics text := (eq_of_guard hnext).2

end CSettingsDialog

/-- The port of the listener does not depend on the diagnostics, either. -/
theorem Discoverable.step_withDiagnostics {automaticPort : UInt16} {applicationFilePath : QString}
    {kept discoverable next : Discoverable} {event : DialogEvent}
    (htick : ∀ text, event ≠ .timeout text)
    (hdialog : kept.dialog = discoverable.dialog.withDiagnostics kept.dialog.ui.edtDiagnostics)
    (hport : kept.serverPort = discoverable.serverPort)
    (hnext : discoverable.step automaticPort applicationFilePath event = some next) :
    ∃ next', kept.step automaticPort applicationFilePath event = some next' ∧
      next'.dialog = next.dialog.withDiagnostics next'.dialog.ui.edtDiagnostics ∧
      next'.serverPort = next.serverPort := by
  obtain ⟨dialog, hstep, rfl⟩ := Option.map_eq_some_iff.mp hnext
  have hkept := CSettingsDialog.step_withDiagnostics htick hstep kept.dialog.ui.edtDiagnostics
  rw [← hdialog] at hkept
  refine ⟨_, Option.map_eq_some_iff.mpr ⟨_, hkept, rfl⟩, rfl, ?_⟩
  cases event with
  | accepted => rfl
  | showSettings | edit | btnGenClicked | rejected | timeout => exact hport

/-! ## The program without them -/

/-- Ticks and the events of silent connections are left out. -/
def ProgramEvent.isKept {Id : Type} (silent : Id → Bool) : ProgramEvent Id → Bool
  | .server event _ => !silent event.id
  | .dialog (.timeout _) => false
  | .dialog _ | .btnClearHistoryClicked _ _ | .change _ _ => true

namespace Program

variable {Id : Type}

/-- Two programs that differ in silent connections and the diagnostics only. -/
structure Agrees (silent : Id → Bool) (kept program : Program Id) : Prop where
  dialog : kept.dialog = program.dialog.withDiagnostics kept.dialog.ui.edtDiagnostics
  serverPort : kept.serverPort = program.serverPort
  window : kept.window = program.window
  listener : kept.listener.Agrees silent program.listener

namespace Agrees

variable {silent : Id → Bool} {platform : Platform} {kept program next : Program Id}

theorem settings (hagrees : Agrees silent kept program) :
    kept.dialog.settings = program.dialog.settings := by
  rw [hagrees.dialog]
  rfl

theorem onNewCall (hagrees : Agrees silent kept program) (surroundings : Surroundings)
    (data : Option CNotificationItem) :
    kept.onNewCall platform surroundings data = program.onNewCall platform surroundings data := by
  cases data with
  | none => exact congrArg Except.ok hagrees.window
  | some data => rw [Program.onNewCall, Program.onNewCall, hagrees.settings, hagrees.window]

/-- What a chunk of another connection brings. -/
theorem delivered (hagrees : Agrees silent kept program) {event : ServerEvent Id}
    (hloud : silent event.id = false) (arrival : Arrival) :
    kept.delivered platform arrival event = program.delivered platform arrival event := by
  cases event with
  | incomingConnection | disconnected | deferredDelete => rfl
  | readyRead id chunk now =>
      simp only [Program.delivered, hagrees.listener.sockets id hloud, hagrees.settings]
      cases program.listener.sockets id with
      | none => rfl
      | some socket =>
          simp only [CListenerSocket.deliver,
            (socket.receive_congr platform.decrypt program.dialog.settings.aesKey now chunk
              kept.listener.lastMessageStatus program.listener.lastMessageStatus).2]

/-- What it does to the window. -/
theorem incoming (hagrees : Agrees silent kept program) {event : ServerEvent Id}
    (hloud : silent event.id = false) (arrival : Arrival) :
    kept.incoming platform arrival event = program.incoming platform arrival event := by
  rw [Program.incoming, Program.incoming, hagrees.delivered hloud]
  exact bind_congr fun data => hagrees.onNewCall arrival.surroundings data

variable [DecidableEq Id]

theorem server (hagrees : Agrees silent kept program) {event : ServerEvent Id} {arrival : Arrival}
    (hloud : silent event.id = false)
    (hnext : Program.step platform program (.server event arrival) = .ok next) :
    ∃ next', Program.step platform kept (.server event arrival) = .ok next' ∧
      Agrees silent next' next := by
  obtain ⟨listener, window, hlistener, hwindow, rfl⟩ := step_server hnext
  obtain ⟨listener', hlistener', hagrees'⟩ := hagrees.listener.step hloud hlistener
  refine ⟨{ kept with listener := listener', window }, ?_, ?_⟩
  · rw [Program.step, hagrees.settings, hlistener', hagrees.incoming hloud, hwindow]
    rfl
  · exact ⟨hagrees.dialog, hagrees.serverPort, rfl, hagrees'⟩

theorem dialogEvent (hagrees : Agrees silent kept program) {event : DialogEvent}
    (htick : ∀ text, event ≠ .timeout text)
    (hnext : Program.step platform program (.dialog event) = .ok next) :
    ∃ next', Program.step platform kept (.dialog event) = .ok next' ∧
      Agrees silent next' next := by
  obtain ⟨discoverable, hdiscoverable, rfl⟩ := step_dialog hnext
  obtain ⟨discoverable', hkept, hdialog, hport⟩ :=
    Discoverable.step_withDiagnostics htick hagrees.dialog hagrees.serverPort hdiscoverable
  have hshows : kept.Shows event := by
    cases event with
    | timeout text => exact absurd rfl (htick text)
    | showSettings | edit | btnGenClicked | accepted | rejected => trivial
  refine ⟨{ kept with toDiscoverable := discoverable' }, ?_, hdialog, hport, hagrees.window,
    hagrees.listener⟩
  rw [Program.step, if_pos hshows, hkept]
  rfl

theorem btnClearHistoryClicked (hagrees : Agrees silent kept program) {currentIndex : Nat}
    {surroundings : Surroundings}
    (hnext : Program.step platform program (.btnClearHistoryClicked currentIndex surroundings) =
      .ok next) :
    ∃ next', Program.step platform kept (.btnClearHistoryClicked currentIndex surroundings) =
        .ok next' ∧ Agrees silent next' next := by
  obtain ⟨window, hwindow, rfl⟩ := step_btnClearHistoryClicked hnext
  refine ⟨{ kept with window }, ?_, hagrees.dialog, hagrees.serverPort, rfl, hagrees.listener⟩
  rw [Program.step, hagrees.window, hwindow]
  rfl

theorem change (hagrees : Agrees silent kept program) {isActiveWindow : Bool}
    {surroundings : Surroundings}
    (hnext : Program.step platform program (.change isActiveWindow surroundings) = .ok next) :
    ∃ next', Program.step platform kept (.change isActiveWindow surroundings) = .ok next' ∧
      Agrees silent next' next := by
  obtain ⟨window, hwindow, rfl⟩ := step_change hnext
  refine ⟨{ kept with window }, ?_, hagrees.dialog, hagrees.serverPort, rfl, hagrees.listener⟩
  rw [Program.step, hagrees.window, hwindow]
  rfl

end Agrees

variable [DecidableEq Id]

/-- The connections complete no valid message in the run. -/
def BringNothing (platform : Platform) (initial : CSettingsDialog) (silent : Id → Bool)
    (events : List (ProgramEvent Id)) : Prop :=
  ∀ front id chunk now arrival back,
    events = front ++ .server (.readyRead id chunk now) arrival :: back → silent id = true →
      messageWith platform initial front id chunk = none

section

variable {platform : Platform} {start program : Program Id} {silent : Id → Bool}

/-- Either an event is left out, or it happens without the silent connections,
too. -/
theorem Agrees.step {kept next : Program Id} {events : List (ProgramEvent Id)}
    (hagrees : Agrees silent kept program) (hfollows : Follows platform start events program)
    {event : ProgramEvent Id} (hnext : Program.step platform program event = .ok next)
    (hsilent : ∀ id chunk now arrival, event = .server (.readyRead id chunk now) arrival →
      silent id = true → messageWith platform start.dialog events id chunk = none) :
    (event.isKept silent = false ∧ Agrees silent kept next) ∨
      (event.isKept silent = true ∧
        ∃ next', Program.step platform kept event = .ok next' ∧ Agrees silent next' next) := by
  cases event with
  | server event arrival =>
      cases hid : silent event.id with
      | false => exact .inr ⟨by rw [ProgramEvent.isKept, hid]; rfl, hagrees.server hid hnext⟩
      | true =>
          refine .inl ⟨by rw [ProgramEvent.isKept, hid]; rfl, ?_⟩
          obtain ⟨listener, window, hlistener, hwindow, rfl⟩ := step_server hnext
          refine ⟨hagrees.dialog, hagrees.serverPort, ?_, hagrees.listener.skip hid hlistener⟩
          rw [hagrees.window]
          cases event with
          | incomingConnection | disconnected | deferredDelete => exact Except.ok.inj hwindow
          | readyRead id chunk now =>
              obtain ⟨socket, hsocket, hopen, -, -⟩ := CListenerSocket.step_readyRead hlistener
              have hmessage := hfollows.messageReady_eq hsocket hopen chunk now
              rw [hsilent id chunk now arrival rfl hid] at hmessage
              simp only [Program.incoming, Program.delivered, hsocket, CListenerSocket.deliver,
                hmessage] at hwindow
              exact Except.ok.inj hwindow
  | dialog event =>
      cases event with
      | timeout text =>
          refine .inl ⟨rfl, ?_⟩
          obtain ⟨discoverable, hdiscoverable, rfl⟩ := step_dialog hnext
          obtain ⟨dialog, hdialog, rfl⟩ := Option.map_eq_some_iff.mp hdiscoverable
          obtain rfl := CSettingsDialog.step_timeout hdialog
          exact ⟨hagrees.dialog, hagrees.serverPort, hagrees.window, hagrees.listener⟩
      | showSettings | edit | btnGenClicked | accepted | rejected =>
          exact .inr ⟨rfl, hagrees.dialogEvent (fun _ h => by cases h) hnext⟩
  | btnClearHistoryClicked => exact .inr ⟨rfl, hagrees.btnClearHistoryClicked hnext⟩
  | change => exact .inr ⟨rfl, hagrees.change hnext⟩

end

/-- Leave out of any run the connections that completed no valid message in it,
all their events, and the ticks of the dialog's timer. What is left is a run of
the program, and it ends with the same window, settings, storage, startup entry,
port, and other connections. -/
theorem without_silent (platform : Platform) (settingsStorage : QSettings)
    (registry : Option QString) (start : Program Id)
    (hstart : construct platform settingsStorage registry = .ok start)
    (events : List (ProgramEvent Id)) (program : Program Id)
    (hrun : run (step platform) start events = .ok program) (silent : Id → Bool)
    (hsilent : BringNothing platform start.dialog silent events) :
    ∃ kept, run (step platform) start (events.filter (·.isKept silent)) = .ok kept ∧
      Agrees silent kept program := by
  have hlaw := run_invariant_ok (fun events program =>
    BringNothing platform start.dialog silent events →
      ∃ kept, run (step platform) start (events.filter (·.isKept silent)) = .ok kept ∧
        Agrees silent kept program) ?_ ?_ events program hrun
  · exact hlaw hsilent
  · intro _
    exact ⟨start, rfl, rfl, rfl, rfl, fun _ _ => rfl, fun _ h => h⟩
  · intro events program event next hrun hlaw hnext hsilent
    have hbefore : BringNothing platform start.dialog silent events := by
      rintro front id chunk now arrival back rfl
      exact hsilent front id chunk now arrival (back ++ [event]) (by simp)
    obtain ⟨kept, hkept, hagrees⟩ := hlaw hbefore
    have hlast : ∀ id chunk now arrival, event = .server (.readyRead id chunk now) arrival →
        silent id = true → messageWith platform start.dialog events id chunk = none := by
      rintro id chunk now arrival rfl
      exact hsilent events id chunk now arrival [] rfl
    rcases hagrees.step (Follows.of_run hstart hrun) hnext hlast with
      ⟨hdropped, hagrees⟩ | ⟨htaken, next', hnext', hagrees⟩
    · exact ⟨kept, by rw [List.filter_append, List.filter_cons_of_neg (by simp [hdropped]),
        List.filter_nil, List.append_nil, hkept], hagrees⟩
    · refine ⟨next', ?_, hagrees⟩
      rw [List.filter_append, List.filter_cons_of_pos htaken, List.filter_nil]
      exact run_snoc_eq_ok.mpr ⟨kept, hkept, hnext'⟩

/-- A connection that has sent a single byte when a call arrives on another. -/
theorem without_silent_byte :
    ∃ kept program : Program Nat,
      run (step .transparent) firstStart [.server (.incomingConnection 0) .atEpoch,
        .server (.incomingConnection 1) .atEpoch, .server (.readyRead 1 [0] []) .atEpoch,
        .server (.readyRead 0 callPacket []) .atEpoch] = .ok program ∧
      run (step .transparent) firstStart [.server (.incomingConnection 0) .atEpoch,
        .server (.readyRead 0 callPacket []) .atEpoch] = .ok kept ∧
      Agrees (fun id => decide (id = 1)) kept program := by
  have hruns : (run (step .transparent) firstStart [.server (.incomingConnection 0) .atEpoch,
      .server (.incomingConnection 1) .atEpoch, .server (.readyRead 1 [0] []) .atEpoch,
      .server (.readyRead 0 callPacket []) .atEpoch]).toOption.isSome := by decide +kernel
  obtain ⟨program, hrun⟩ := exists_ok_of_isSome hruns
  have hsilent : BringNothing .transparent CSettingsDialog.firstStart (fun id => decide (id = 1))
      [.server (.incomingConnection 0) .atEpoch, .server (.incomingConnection 1) .atEpoch,
        .server (.readyRead 1 [0] []) .atEpoch,
        .server (.readyRead 0 callPacket []) .atEpoch] := by
    rintro front id chunk now arrival back hevents hid
    obtain rfl : id = 1 := by simpa using hid
    match front with
    | [] | [_] | [_, _, _] | _ :: _ :: _ :: _ :: _ => simp at hevents
    | [first, second] =>
        obtain ⟨rfl, rfl, ⟨⟨rfl, rfl⟩, rfl⟩, -⟩ : first = .server (.incomingConnection 0) .atEpoch ∧
            second = .server (.incomingConnection 1) .atEpoch ∧
              ((chunk = [0] ∧ now = []) ∧ arrival = .atEpoch) ∧
                back = [.server (.readyRead 0 callPacket []) .atEpoch] := by
          simpa [eq_comm] using hevents
        decide +kernel
  obtain ⟨kept, hkept, hagrees⟩ := without_silent .transparent (fun _ => none) none firstStart rfl
    _ program hrun (fun id => decide (id = 1)) hsilent
  exact ⟨kept, program, hrun, hkept, hagrees⟩

end Program

end BBNotifier
