import BBNotifier.Foundation.Run
import BBNotifier.Settings.Settings

/-! # The settings dialog

`CSettingsDialog` holds the settings in force, the storage they were read from,
and widgets that are filled when the dialog is shown. OK takes the settings from
the widgets and stores them. A generated key is taken at once.
-/

namespace BBNotifier

open Foundation

/-- The value of a spin box lies in its range. -/
abbrev QSpinBox (minimum maximum : Int) := { value : Int // minimum ≤ value ∧ value ≤ maximum }

namespace QSpinBox

/-- `setValue` takes the nearest value of the range. -/
def setValue {minimum maximum : Int} (hrange : minimum ≤ maximum) (value : Int) :
    QSpinBox minimum maximum :=
  ⟨max minimum (min maximum value), le_max_left _ _, max_le hrange (min_le_left _ _)⟩

end QSpinBox

/-- The widgets of the dialog. -/
structure Ui where
  edtPort : QSpinBox 1000 65535
  edtPass : QString
  chkStartup : Bool
  chkShowCallPopups : Bool
  chkShowNotificationPopup : Bool
  edtListLength : QSpinBox 1 100
  edtDiagnostics : QString

/-- `registry` is the entry of the program under the startup key. -/
structure CSettingsDialog where
  settings : Settings
  settingsStorage : QSettings
  registry : Option QString
  ui : Ui
  isVisible : Bool
  timerActive : Bool

/-- What can happen to the dialog. An edit leaves any values in the widgets
that can be edited; the password cannot. -/
inductive DialogEvent
  | showSettings
  | edit (edtPort : QSpinBox 1000 65535)
      (chkStartup chkShowCallPopups chkShowNotificationPopup : Bool)
      (edtListLength : QSpinBox 1 100)
  | btnGenClicked (answer : Bool) (generated : AESKey)
  | accepted
  | rejected
  | timeout (lastMessageStatus : QString)
deriving DecidableEq

namespace CSettingsDialog

/-- The widgets as `setupUi` leaves them. -/
def setupUi : Ui where
  edtPort := QSpinBox.setValue (by decide) 0
  edtPass := []
  chkStartup := false
  chkShowCallPopups := false
  chkShowNotificationPopup := false
  edtListLength := QSpinBox.setValue (by decide) 0
  edtDiagnostics := []

/-- The constructor. -/
def construct (settingsStorage : QSettings) (registry : Option QString) :
    Except Fault CSettingsDialog := do
  let settings ← Settings.load settingsStorage
  return { settings, settingsStorage, registry, ui := setupUi, isVisible := false,
           timerActive := false }

/-- The dialog of a first start, over an empty storage. -/
def firstStart : CSettingsDialog where
  settings := ⟨8083, .zero, true, true, 20⟩
  settingsStorage := fun _ => none
  registry := none
  ui := setupUi
  isVisible := false
  timerActive := false

theorem construct_empty : construct (fun _ => none) none = .ok firstStart := rfl

/-- `show` and the event it brings: the widgets are filled and the timer is
started. -/
def showEvent (dialog : CSettingsDialog) : CSettingsDialog :=
  { dialog with
    ui := { dialog.ui with
      edtPort := QSpinBox.setValue (by decide) dialog.settings.tcpPort
      edtPass := dialog.settings.aesKey.toString
      chkStartup := dialog.registry.isSome
      chkShowCallPopups := dialog.settings.shouldShowCallPopup
      chkShowNotificationPopup := dialog.settings.shouldShowNotificationPopup
      edtListLength := QSpinBox.setValue (by decide) dialog.settings.maxItemsCount }
    isVisible := true
    timerActive := true }

/-- `done` stops the timer and hides the dialog. -/
def done (dialog : CSettingsDialog) : CSettingsDialog :=
  { dialog with isVisible := false, timerActive := false }

def onBtnGenClicked (answer : Bool) (generated : AESKey) (dialog : CSettingsDialog) :
    CSettingsDialog :=
  if answer then
    { dialog with
      settings := { dialog.settings with aesKey := generated }
      ui := { dialog.ui with edtPass := generated.toString } }
  else dialog

def toNativeSeparators (path : QString) : QString :=
  path.map fun unit => if unit = 47 then 92 else unit

/-- The OK handler, up to its signal. -/
def onButtonBoxAccepted (applicationFilePath : QString) (dialog : CSettingsDialog) :
    CSettingsDialog :=
  let settings : Settings :=
    { tcpPort := dialog.ui.edtPort.val
      aesKey := dialog.settings.aesKey
      shouldShowCallPopup := dialog.ui.chkShowCallPopups
      shouldShowNotificationPopup := dialog.ui.chkShowNotificationPopup
      maxItemsCount := dialog.ui.edtListLength.val }
  { dialog with
    settings
    settingsStorage := settings.store dialog.settingsStorage
    registry :=
      if dialog.ui.chkStartup then
        some (.lit "\"" ++ toNativeSeparators applicationFilePath ++ .lit "\"")
      else none }

/-- One event, where it can happen: the dialog is shown when it is hidden, its
widgets are used when it is visible, and the timer fires while it runs. OK hides
the dialog before its handler runs. -/
def step (applicationFilePath : QString) (dialog : CSettingsDialog) :
    DialogEvent → Option CSettingsDialog
  | .showSettings => if dialog.isVisible then none else some dialog.showEvent
  | .edit edtPort chkStartup chkShowCallPopups chkShowNotificationPopup edtListLength =>
      if dialog.isVisible then
        some { dialog with ui := { dialog.ui with
          edtPort, chkStartup, chkShowCallPopups, chkShowNotificationPopup, edtListLength } }
      else none
  | .btnGenClicked answer generated =>
      if dialog.isVisible then some (dialog.onBtnGenClicked answer generated) else none
  | .accepted =>
      if dialog.isVisible then some (dialog.done.onButtonBoxAccepted applicationFilePath) else none
  | .rejected => if dialog.isVisible then some dialog.done else none
  | .timeout lastMessageStatus =>
      if dialog.timerActive then
        some { dialog with ui := { dialog.ui with edtDiagnostics := lastMessageStatus } }
      else none

/-! ## What each event does -/

variable {applicationFilePath : QString} {dialog next : CSettingsDialog}

theorem step_showSettings (h : step applicationFilePath dialog .showSettings = some next) :
    dialog.isVisible = false ∧ next = dialog.showEvent := by
  rw [step] at h
  split at h
  · contradiction
  next hhidden => exact ⟨by simpa using hhidden, (Option.some.inj h).symm⟩

/-- An event that needs the dialog to be there. -/
theorem eq_of_guard {condition : Bool} {result : CSettingsDialog}
    (h : (if condition then some result else none) = some next) :
    condition = true ∧ next = result := by
  split at h
  next hcondition => exact ⟨hcondition, (Option.some.inj h).symm⟩
  · contradiction

theorem step_btnGenClicked {answer : Bool} {generated : AESKey}
    (h : step applicationFilePath dialog (.btnGenClicked answer generated) = some next) :
    dialog.isVisible = true ∧ next = dialog.onBtnGenClicked answer generated := eq_of_guard h

theorem step_accepted (h : step applicationFilePath dialog .accepted = some next) :
    dialog.isVisible = true ∧ next = dialog.done.onButtonBoxAccepted applicationFilePath :=
  eq_of_guard h

theorem step_rejected (h : step applicationFilePath dialog .rejected = some next) :
    dialog.isVisible = true ∧ next = dialog.done := eq_of_guard h

end CSettingsDialog

end BBNotifier
