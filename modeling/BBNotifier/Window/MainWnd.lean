import BBNotifier.Foundation.RecencyMap
import BBNotifier.Foundation.Run
import BBNotifier.Item.Serialization
import BBNotifier.Settings.Settings

/-! # The main window

`CMainWnd` keeps calls and notifications as texts in two list widgets. Its
handlers parse the texts again whenever they look for a phone or for a missed
call, delete or overwrite the first match and stop. Each handler ends with a
refresh of the icon.
-/

namespace BBNotifier

open Foundation

/-- An item as the constructor from a text makes it. -/
abbrev ParsedItem := { item : CNotificationItem // item.OneLine }

/-- The state of the window: the texts of both lists, the icons by their index
in `windowIcons`, and the popups and sounds that were started. -/
@[ext]
structure CMainWnd where
  listHistory : List QString
  listNotifications : List QString
  hasNewNotificationCame : Bool
  windowIcon : Nat
  trayIcon : Nat
  trayMessages : List (QString × QString)
  soundPlays : Nat
  soundNotifPlays : Nat

/-- What a handler finds around it: the bytes behind its buffers, and whether
each sound has been played to its end. -/
structure Surroundings where
  heap : Memory
  soundFinished : Bool
  soundNotifFinished : Bool

namespace CMainWnd

variable (dates : QDateTimeText) (heap : Memory)

def showMessage (name msg : QString) (window : CMainWnd) : CMainWnd :=
  { window with trayMessages := window.trayMessages ++ [(name, msg)] }

/-- The loop that looks for a missed call. -/
def hasRinging : List QString → Except Fault Bool
  | [] => .ok false
  | str :: rest => do
      let listItem ← CNotificationItem.ofSerialized dates heap str
      if listItem.type = .ringingCall then return true else hasRinging rest

def iconNum (hasNewNotificationCame isGreen : Bool) : Nat :=
  (if hasNewNotificationCame then 2 else 0) + (if isGreen then 1 else 0)

def refreshTrayIconStatus (window : CMainWnd) : Except Fault CMainWnd := do
  let isGreen := !(← hasRinging dates heap window.listHistory)
  return { window with
    windowIcon := iconNum window.hasNewNotificationCame isGreen
    trayIcon := iconNum window.hasNewNotificationCame isGreen }

/-- The loop that deletes the first item of a phone. -/
def deletePhone (phone : QString) : List QString → Except Fault (List QString)
  | [] => .ok []
  | str :: rest => do
      let listItem ← CNotificationItem.ofSerialized dates heap str
      if listItem.phone = phone then return rest
      else return str :: (← deletePhone phone rest)

/-- The loop that overwrites the first item of a phone. -/
def replacePhone (phone text : QString) : List QString → Except Fault (List QString)
  | [] => .ok []
  | str :: rest => do
      let listItem ← CNotificationItem.ofSerialized dates heap str
      if listItem.phone = phone then return text :: rest
      else return str :: (← replacePhone phone text rest)

/-- The loop that deletes from the front while there are too many items, but
more than one. -/
def dropOldest (maxItemsCount : Int) : List QString → List QString
  | [] => []
  | first :: rest =>
      if rest.length + 1 > 1 ∧ (rest.length : Int) + 1 > maxItemsCount then
        dropOldest maxItemsCount rest
      else first :: rest

def addNewCall (settings : Settings) (data : CNotificationItem) (window : CMainWnd) :
    Except Fault CMainWnd := do
  let listHistory ← deletePhone dates heap data.phone window.listHistory
  return { window with
    listHistory := dropOldest settings.maxItemsCount (listHistory ++ [data.serialize dates]) }

def markCallAccepted (data : CNotificationItem) (window : CMainWnd) : Except Fault CMainWnd := do
  let listHistory ←
    replacePhone dates heap data.phone (data.serialize dates) window.listHistory
  return { window with listHistory }

/-- The constructor, up to its refresh of the icon over empty lists. -/
def new : CMainWnd := ⟨[], [], false, iconNum false true, iconNum false true, [], 0, 0⟩

variable (surroundings : Surroundings)

def onRingingCall (settings : Settings) (data : CNotificationItem) (window : CMainWnd) :
    Except Fault CMainWnd := do
  let window :=
    if settings.shouldShowCallPopup then
      window.showMessage (.lit "Phone call") (data.name ++ QString.newline :: data.phone)
    else window
  let window ← window.addNewCall dates surroundings.heap settings data
  return if surroundings.soundFinished then { window with soundPlays := window.soundPlays + 1 }
    else window

def onNotification (settings : Settings) (data : CNotificationItem) (window : CMainWnd) :
    CMainWnd :=
  let window := { window with hasNewNotificationCame := true }
  let window :=
    if surroundings.soundNotifFinished then
      { window with soundNotifPlays := window.soundNotifPlays + 1 }
    else window
  let window :=
    if settings.shouldShowNotificationPopup then
      window.showMessage data.phone data.getUnescapedData
    else window
  { window with
    listNotifications :=
      dropOldest settings.maxItemsCount (window.listNotifications ++ [data.serialize dates]) }

/-- `OnNewCall`. -/
def onNewCall (settings : Settings) (data : CNotificationItem) (window : CMainWnd) :
    Except Fault CMainWnd := do
  let window ←
    match data.type with
    | .ringingCall => window.onRingingCall dates surroundings settings data
    | .offhookCall => window.markCallAccepted dates surroundings.heap data
    | .notification => pure (window.onNotification dates surroundings settings data)
    | .empty => pure window
  window.refreshTrayIconStatus dates surroundings.heap

/-- `on_btnClearHistory_clicked`, on the tab with the given index. -/
def onBtnClearHistoryClicked (currentIndex : Nat) (window : CMainWnd) : Except Fault CMainWnd :=
  let window :=
    if currentIndex = 0 then { window with listNotifications := [] }
    else { window with listHistory := [] }
  window.refreshTrayIconStatus dates surroundings.heap

def changeEvent (isActiveWindow : Bool) (window : CMainWnd) : Except Fault CMainWnd :=
  if isActiveWindow then
    { window with hasNewNotificationCame := false }.refreshTrayIconStatus dates surroundings.heap
  else .ok window

end CMainWnd

/-! ## Runs -/

/-- The window with the settings in force. -/
structure Session where
  settings : Settings
  window : CMainWnd

inductive WindowEvent
  | newCall (data : ParsedItem) (surroundings : Surroundings)
  | btnClearHistoryClicked (currentIndex : Nat) (surroundings : Surroundings)
  | change (isActiveWindow : Bool) (surroundings : Surroundings)
  | settingsChanged (settings : Settings)

namespace Session

def new (settings : Settings) : Session := ⟨settings, .new⟩

/-- One event, handled to its end. -/
def step (dates : QDateTimeText) (session : Session) : WindowEvent → Except Fault Session
  | .newCall data surroundings => do
      let window ← session.window.onNewCall dates surroundings session.settings data.val
      return { session with window }
  | .btnClearHistoryClicked currentIndex surroundings => do
      let window ← session.window.onBtnClearHistoryClicked dates surroundings currentIndex
      return { session with window }
  | .change isActiveWindow surroundings => do
      let window ← session.window.changeEvent dates surroundings isActiveWindow
      return { session with window }
  | .settingsChanged settings => .ok { session with settings }

end Session

end BBNotifier
