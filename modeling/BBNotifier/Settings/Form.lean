import Mathlib.Data.List.DropRight
import BBNotifier.Settings.SettingsDialog

/-! # The form of the settings dialog

What the user sees of the settings. The widgets show the settings in force from
a show to the next edit, and OK without an edit changes nothing. The password is
that of the key in force as long as the dialog is there.
-/

namespace BBNotifier

open Foundation

/-- The numbers that the spin boxes can show. -/
structure Settings.InRange (settings : Settings) : Prop where
  tcpPort : 1000 ≤ settings.tcpPort ∧ settings.tcpPort ≤ 65535
  maxItemsCount : 1 ≤ settings.maxItemsCount ∧ settings.maxItemsCount ≤ 100

theorem QSpinBox.setValue_of_mem {minimum maximum value : Int} (hrange : minimum ≤ maximum)
    (hvalue : minimum ≤ value ∧ value ≤ maximum) : (setValue hrange value).val = value := by
  simp only [setValue, min_eq_right hvalue.2, max_eq_right hvalue.1]

namespace DialogEvent

def isShow : DialogEvent → Bool
  | showSettings => true
  | edit .. | btnGenClicked .. | accepted | rejected | timeout .. => false

def isEdit : DialogEvent → Bool
  | edit .. => true
  | showSettings | btnGenClicked .. | accepted | rejected | timeout .. => false

end DialogEvent

/-- The widgets were edited after the last show. -/
def editedSinceShow (events : List DialogEvent) : Bool :=
  (events.rtakeWhile (! ·.isShow)).any DialogEvent.isEdit

theorem editedSinceShow_snoc (events : List DialogEvent) (event : DialogEvent) :
    editedSinceShow (events ++ [event]) =
      (!event.isShow && (editedSinceShow events || event.isEdit)) := by
  cases hshow : event.isShow with
  | true => rw [editedSinceShow, List.rtakeWhile_concat_neg _ _ _ (by simp [hshow])]; rfl
  | false =>
      rw [editedSinceShow, List.rtakeWhile_concat_pos _ _ _ (by simp [hshow]), List.any_append,
        ← editedSinceShow]
      simp

namespace CSettingsDialog

/-- The widgets show the settings in force, as far as they can. -/
structure ShowsSettings (dialog : CSettingsDialog) : Prop where
  edtPort : dialog.ui.edtPort = QSpinBox.setValue (by decide) dialog.settings.tcpPort
  chkStartup : dialog.ui.chkStartup = dialog.registry.isSome
  chkShowCallPopups : dialog.ui.chkShowCallPopups = dialog.settings.shouldShowCallPopup
  chkShowNotificationPopup :
    dialog.ui.chkShowNotificationPopup = dialog.settings.shouldShowNotificationPopup
  edtListLength : dialog.ui.edtListLength =
    QSpinBox.setValue (by decide) dialog.settings.maxItemsCount

theorem showEvent_showsSettings (dialog : CSettingsDialog) :
    dialog.showEvent.ShowsSettings := by
  constructor <;> simp only [showEvent]

/-- How the form stands after the events of a run. -/
structure Form (events : List DialogEvent) (dialog : CSettingsDialog) : Prop where
  timer : dialog.timerActive = dialog.isVisible
  password : dialog.isVisible = true → dialog.ui.edtPass = dialog.settings.aesKey.toString
  inRange : .accepted ∈ events → dialog.settings.InRange
  widgets : dialog.isVisible = true → editedSinceShow events = false → dialog.ShowsSettings

variable {applicationFilePath : QString} {dialog next : CSettingsDialog}
  {events : List DialogEvent}

theorem Form.step (hform : Form events dialog) {event : DialogEvent}
    (hnext : CSettingsDialog.step applicationFilePath dialog event = some next) :
    Form (events ++ [event]) next := by
  have hedited := editedSinceShow_snoc events event
  have haccepted : event ≠ .accepted → .accepted ∈ events ++ [event] → .accepted ∈ events := by
    intro hne hmem
    rcases List.mem_append.mp hmem with hmem | hmem
    · exact hmem
    · exact absurd (List.mem_singleton.mp hmem).symm hne
  cases event with
  | showSettings =>
      obtain ⟨-, rfl⟩ := step_showSettings hnext
      constructor
      case timer => simp only [showEvent]
      case password => simp only [showEvent, implies_true]
      case inRange => exact fun hmem => hform.inRange (haccepted (fun h => by cases h) hmem)
      case widgets => exact fun _ _ => showEvent_showsSettings dialog
  | edit =>
      obtain ⟨hshown, rfl⟩ := eq_of_guard hnext
      refine ⟨hform.timer, hform.password,
        fun hmem => hform.inRange (haccepted (fun h => by cases h) hmem), ?_⟩
      intro _ hunedited
      rw [hedited] at hunedited
      simp [DialogEvent.isShow, DialogEvent.isEdit] at hunedited
  | btnGenClicked answer generated =>
      obtain ⟨hshown, rfl⟩ := step_btnGenClicked hnext
      have hwidgets : editedSinceShow (events ++ [.btnGenClicked answer generated]) = false →
          dialog.ShowsSettings := by
        intro hunedited
        rw [hedited] at hunedited
        apply hform.widgets hshown
        simpa [DialogEvent.isShow, DialogEvent.isEdit] using hunedited
      have hinRange := fun hmem => hform.inRange (haccepted (fun h => by cases h) hmem)
      cases answer with
      | false => exact ⟨hform.timer, hform.password, hinRange, fun _ => hwidgets⟩
      | true =>
          rw [onBtnGenClicked, if_pos rfl]
          constructor
          case timer => exact hform.timer
          case password => simp only [implies_true]
          case inRange => exact fun hmem => ⟨(hinRange hmem).tcpPort, (hinRange hmem).maxItemsCount⟩
          case widgets =>
            intro _ hunedited
            obtain ⟨hport, hstartup, hcalls, hnotifications, hlength⟩ := hwidgets hunedited
            exact ⟨hport, hstartup, hcalls, hnotifications, hlength⟩
  | accepted =>
      obtain ⟨hshown, rfl⟩ := step_accepted hnext
      exact ⟨rfl, fun hvisible => absurd hvisible Bool.false_ne_true,
        fun _ => ⟨dialog.ui.edtPort.property, dialog.ui.edtListLength.property⟩,
        fun hvisible => absurd hvisible Bool.false_ne_true⟩
  | rejected =>
      obtain ⟨hshown, rfl⟩ := step_rejected hnext
      exact ⟨rfl, fun hvisible => absurd hvisible Bool.false_ne_true,
        fun hmem => hform.inRange (haccepted (fun h => by cases h) hmem),
        fun hvisible => absurd hvisible Bool.false_ne_true⟩
  | timeout =>
      obtain ⟨hticking, rfl⟩ := eq_of_guard hnext
      refine ⟨hform.timer, hform.password,
        fun hmem => hform.inRange (haccepted (fun h => by cases h) hmem), ?_⟩
      intro hshown hunedited
      rw [hedited] at hunedited
      obtain ⟨hport, hstartup, hcalls, hnotifications, hlength⟩ := hform.widgets hshown (by
        simpa [DialogEvent.isShow, DialogEvent.isEdit] using hunedited)
      exact ⟨hport, hstartup, hcalls, hnotifications, hlength⟩

theorem Form.of_run {settingsStorage : QSettings} {registry : Option QString}
    {start : CSettingsDialog} (hstart : construct settingsStorage registry = .ok start)
    (hrun : run (CSettingsDialog.step applicationFilePath) start events = some dialog) :
    Form events dialog := by
  refine run_invariant Form ?_ (fun _ _ _ _ _ hform hnext => hform.step hnext) events dialog hrun
  obtain ⟨settings, -, hstart⟩ := bind_eq_ok.mp hstart
  obtain rfl := Except.ok.inj hstart
  exact ⟨rfl, fun hvisible => absurd hvisible Bool.false_ne_true,
    fun hmem => absurd hmem List.not_mem_nil,
    fun hvisible => absurd hvisible Bool.false_ne_true⟩

/-- OK over widgets that show the settings in force keeps them. -/
theorem ShowsSettings.accepted (hshows : dialog.ShowsSettings) (hinRange : dialog.settings.InRange)
    (hnext : CSettingsDialog.step applicationFilePath dialog .accepted = some next) :
    next.settings = dialog.settings ∧ next.registry.isSome = dialog.registry.isSome := by
  obtain ⟨-, rfl⟩ := step_accepted hnext
  constructor
  · apply Settings.ext
    · have hport := QSpinBox.setValue_of_mem (by decide) hinRange.tcpPort
      rw [← hshows.edtPort] at hport
      exact hport
    · rfl
    · exact hshows.chkShowCallPopups
    · exact hshows.chkShowNotificationPopup
    · have hlength := QSpinBox.setValue_of_mem (by decide) hinRange.maxItemsCount
      rw [← hshows.edtListLength] at hlength
      exact hlength
  · have hstartup := hshows.chkStartup
    have hregistry : (dialog.done.onButtonBoxAccepted applicationFilePath).registry =
      if dialog.ui.chkStartup then
        some (.lit "\"" ++ toNativeSeparators applicationFilePath ++ .lit "\"") else none := rfl
    rw [hregistry, ← hstartup]
    cases dialog.ui.chkStartup <;> rfl

/-- In every reachable state the timer runs exactly while the dialog is there,
which then shows the password of the key in force. After an OK all settings are
such as the widgets can show. From a show to the next edit the widgets show the
settings in force and whether the program is started with the system, and OK
changes neither, if the widgets can show them. -/
theorem form_of_run (applicationFilePath : QString) (settingsStorage : QSettings)
    (registry : Option QString) (start : CSettingsDialog)
    (hstart : construct settingsStorage registry = .ok start) (events : List DialogEvent)
    (dialog : CSettingsDialog)
    (hrun : run (CSettingsDialog.step applicationFilePath) start events = some dialog) :
    dialog.timerActive = dialog.isVisible ∧
      (dialog.isVisible = true → dialog.ui.edtPass = dialog.settings.aesKey.toString) ∧
      (.accepted ∈ events → dialog.settings.InRange) ∧
      (dialog.isVisible = true → editedSinceShow events = false → dialog.ShowsSettings ∧
        (dialog.settings.InRange → ∃ next,
          CSettingsDialog.step applicationFilePath dialog .accepted = some next ∧
          next.settings = dialog.settings ∧ next.registry.isSome = dialog.registry.isSome)) := by
  have hform := Form.of_run hstart hrun
  refine ⟨hform.timer, hform.password, hform.inRange, fun hvisible hunedited => ?_⟩
  have hshows := hform.widgets hvisible hunedited
  refine ⟨hshows, fun hinRange => ?_⟩
  have hnext : CSettingsDialog.step applicationFilePath dialog .accepted =
      some (dialog.done.onButtonBoxAccepted applicationFilePath) := if_pos hvisible
  exact ⟨_, hnext, hshows.accepted hinRange hnext⟩

/-- The widgets of a first start show its settings. -/
theorem form_of_run_shown :
    ∃ dialog, run (CSettingsDialog.step []) firstStart [.showSettings] = some dialog ∧
      dialog.ShowsSettings := by
  have hshown : (firstStart.step [] .showSettings) = some firstStart.showEvent := by
    rw [step, firstStart, if_neg Bool.false_ne_true]
  have hrun : run (CSettingsDialog.step []) firstStart [.showSettings] =
      some firstStart.showEvent := by
    rw [run, List.foldlM_cons, hshown]
    rfl
  have hform := form_of_run [] (fun _ => none) none firstStart construct_empty [.showSettings] _
    hrun
  exact ⟨_, hrun, (hform.2.2.2 (by simp only [showEvent]) (by decide)).1⟩

end CSettingsDialog

end BBNotifier
