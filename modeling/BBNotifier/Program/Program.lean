import BBNotifier.Server.IncomingMessage
import BBNotifier.Settings.Autodiscovery
import BBNotifier.Window.HistoryRefinement

/-! # The running program

`main` makes the main window, which starts the listener and uses the one
instance of the settings dialog. Sockets, dialog and window take their events in
any order. A chunk that completes a valid packet is handled through to the
window before its slot returns, under the settings in force at that moment.
-/

namespace BBNotifier

open Foundation

/-- What a run does not change. -/
structure Platform where
  dates : QDateTimeText
  decrypt : QByteArray → AESKey → QString
  automaticPort : UInt16
  applicationFilePath : QString

/-- What a slot finds when a message is complete: the date, the bytes behind the
decoded image, and what the window finds around it. -/
structure Arrival where
  currentDateTime : QDateTime
  heap : Memory
  surroundings : Surroundings

/-- The dialog and the port of the listener, with the sockets and the window. -/
structure Program (Id : Type) extends Discoverable where
  listener : CListenerSocket Id
  window : CMainWnd

/-- `arrival` matters only to the chunks of a connection. -/
inductive ProgramEvent (Id : Type)
  | server (event : ServerEvent Id) (arrival : Arrival)
  | dialog (event : DialogEvent)
  | btnClearHistoryClicked (currentIndex : Nat) (surroundings : Surroundings)
  | change (isActiveWindow : Bool) (surroundings : Surroundings)

/-- Why a run does not go on: the event cannot happen, or the program goes
wrong. -/
inductive Stop
  | impossible
  | fault (cause : Fault)

namespace Stop

def ofOption {α : Type} : Option α → Except Stop α
  | some result => .ok result
  | none => .error impossible

def ofExcept {α : Type} : Except Fault α → Except Stop α
  | .ok result => .ok result
  | .error cause => .error (.fault cause)

theorem ofOption_eq_ok {α : Type} {result : Option α} {value : α} :
    ofOption result = .ok value ↔ result = some value := by
  cases result <;> simp [ofOption]

theorem ofExcept_eq_ok {α : Type} {result : Except Fault α} {value : α} :
    ofExcept result = .ok value ↔ result = .ok value := by
  cases result <;> simp [ofExcept]

theorem ofOption_ne_fault {α : Type} (result : Option α) (cause : Fault) :
    ofOption result ≠ .error (.fault cause) := by
  cases result <;> simp [ofOption]

theorem ofExcept_eq_fault {α : Type} {result : Except Fault α} {cause : Fault} :
    ofExcept result = .error (.fault cause) ↔ result = .error cause := by
  cases result <;> simp [ofExcept]

end Stop

namespace Program

variable {Id : Type}

/-- The start of the program. -/
def construct (platform : Platform) (settingsStorage : QSettings) (registry : Option QString) :
    Except Fault (Program Id) := do
  let discoverable ← Discoverable.construct platform.automaticPort settingsStorage registry
  return { discoverable with listener := .new, window := .new }

/-- `OnNewCall`, if there is an item for the window. -/
def onNewCall (platform : Platform) (surroundings : Surroundings) (program : Program Id) :
    Option CNotificationItem → Except Fault CMainWnd
  | some data =>
      program.window.onNewCall platform.dates surroundings program.dialog.settings data
  | none => .ok program.window

/-- The item that an event of the sockets brings. -/
def delivered (platform : Platform) (arrival : Arrival) (program : Program Id) :
    ServerEvent Id → Except Fault (Option CNotificationItem)
  | .readyRead id chunk now =>
      match program.listener.sockets id with
      | some socket =>
          CListenerSocket.deliver platform.dates arrival.heap arrival.currentDateTime
            (socket.receive platform.decrypt program.dialog.settings.aesKey now chunk
              program.listener.lastMessageStatus)
      | none => .ok none
  | .incomingConnection _ | .disconnected _ | .deferredDelete _ => .ok none

/-- What the window is after an event of the sockets. -/
def incoming (platform : Platform) (arrival : Arrival) (program : Program Id)
    (event : ServerEvent Id) : Except Fault CMainWnd := do
  let data ← program.delivered platform arrival event
  program.onNewCall platform arrival.surroundings data

/-- The timer of the dialog shows the status of the listener. -/
def Shows (program : Program Id) : DialogEvent → Prop
  | .timeout lastMessageStatus => lastMessageStatus = program.listener.lastMessageStatus
  | _ => True

instance (program : Program Id) (event : DialogEvent) : Decidable (program.Shows event) := by
  cases event <;> unfold Shows <;> infer_instance

variable [DecidableEq Id]

/-- One event, handled to its end. -/
def step (platform : Platform) (program : Program Id) :
    ProgramEvent Id → Except Stop (Program Id)
  | .server event arrival => do
      let listener ← Stop.ofOption
        (program.listener.step platform.decrypt program.dialog.settings.aesKey event)
      let window ← Stop.ofExcept (program.incoming platform arrival event)
      return { program with listener, window }
  | .dialog event => do
      let discoverable ← Stop.ofOption (if program.Shows event then
        program.toDiscoverable.step platform.automaticPort platform.applicationFilePath event
        else none)
      return { program with toDiscoverable := discoverable }
  | .btnClearHistoryClicked currentIndex surroundings => do
      let window ← Stop.ofExcept
        (program.window.onBtnClearHistoryClicked platform.dates surroundings currentIndex)
      return { program with window }
  | .change isActiveWindow surroundings => do
      let window ← Stop.ofExcept
        (program.window.changeEvent platform.dates surroundings isActiveWindow)
      return { program with window }

/-! ## What each event does -/

variable {platform : Platform} {program next : Program Id}

theorem step_server {event : ServerEvent Id} {arrival : Arrival}
    (h : step platform program (.server event arrival) = .ok next) :
    ∃ listener window,
      program.listener.step platform.decrypt program.dialog.settings.aesKey event =
        some listener ∧
      program.incoming platform arrival event = .ok window ∧
      next = { program with listener, window } := by
  obtain ⟨listener, hlistener, h⟩ := bind_eq_ok.mp h
  obtain ⟨window, hwindow, h⟩ := bind_eq_ok.mp h
  exact ⟨listener, window, Stop.ofOption_eq_ok.mp hlistener, Stop.ofExcept_eq_ok.mp hwindow,
    (Except.ok.inj h).symm⟩

theorem step_dialog {event : DialogEvent} (h : step platform program (.dialog event) = .ok next) :
    ∃ discoverable,
      program.toDiscoverable.step platform.automaticPort platform.applicationFilePath event =
        some discoverable ∧
      next = { program with toDiscoverable := discoverable } := by
  obtain ⟨discoverable, hdiscoverable, h⟩ := bind_eq_ok.mp h
  have hstep := Stop.ofOption_eq_ok.mp hdiscoverable
  split at hstep
  · exact ⟨discoverable, hstep, (Except.ok.inj h).symm⟩
  · contradiction

theorem step_btnClearHistoryClicked {currentIndex : Nat} {surroundings : Surroundings}
    (h : step platform program (.btnClearHistoryClicked currentIndex surroundings) = .ok next) :
    ∃ window,
      program.window.onBtnClearHistoryClicked platform.dates surroundings currentIndex =
        .ok window ∧
      next = { program with window } := by
  obtain ⟨window, hwindow, h⟩ := bind_eq_ok.mp h
  exact ⟨window, Stop.ofExcept_eq_ok.mp hwindow, (Except.ok.inj h).symm⟩

theorem step_change {isActiveWindow : Bool} {surroundings : Surroundings}
    (h : step platform program (.change isActiveWindow surroundings) = .ok next) :
    ∃ window,
      program.window.changeEvent platform.dates surroundings isActiveWindow = .ok window ∧
      next = { program with window } := by
  obtain ⟨window, hwindow, h⟩ := bind_eq_ok.mp h
  exact ⟨window, Stop.ofExcept_eq_ok.mp hwindow, (Except.ok.inj h).symm⟩

end Program

end BBNotifier
