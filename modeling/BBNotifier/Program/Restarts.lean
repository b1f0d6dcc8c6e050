import BBNotifier.Program.Composition
import BBNotifier.Settings.SavedSettings

/-! # The program over several starts

`main` lets one instance run at a time. It may end after any event or in a fault,
and the next start finds what is stored: the settings that the last OK put in
force, whichever start it belonged to, the entry under the startup key that it
left, and the geometry of the main window when it was last closed. A key that was
generated since is lost with the lists of the window.
-/

namespace BBNotifier

open Foundation

/-- What outlives the program. -/
structure Stored where
  settingsStorage : QSettings
  registry : Option QString

def CSettingsDialog.stored (dialog : CSettingsDialog) : Stored :=
  ⟨dialog.settingsStorage, dialog.registry⟩

/-- `closeEvent`: the geometry is stored, and the window is hidden. -/
def CMainWnd.closeEvent (geometry : QVariant) (settingsStorage : QSettings) : QSettings :=
  settingsStorage.setValue (.lit "mainWindow") geometry

/-- Everything but the geometry is stored as it was. -/
structure Stored.Keeps (earlier later : Stored) : Prop where
  registry : later.registry = earlier.registry
  entries : ∀ key, key ≠ .lit "mainWindow" →
    later.settingsStorage key = earlier.settingsStorage key

namespace Stored

variable {first second third : Stored}

theorem Keeps.trans (hfirst : first.Keeps second) (hsecond : second.Keeps third) :
    first.Keeps third :=
  ⟨hsecond.registry.trans hfirst.registry,
    fun key hkey => (hsecond.entries key hkey).trans (hfirst.entries key hkey)⟩

end Stored

namespace CSettingsDialog

variable {applicationFilePath : QString} {dialog next : CSettingsDialog}

end CSettingsDialog

/-- What can happen between two starts: an event of the program, or the close of
its main window. -/
inductive SessionEvent (Id : Type)
  | program (event : ProgramEvent Id)
  | close (geometry : QVariant)

namespace Program

variable {Id : Type}

variable [DecidableEq Id]

def sessionStep (platform : Platform) (program : Program Id) :
    SessionEvent Id → Except Stop (Program Id)
  | .program event => step platform program event
  | .close geometry =>
      .ok { program with
        dialog := { program.dialog with
          settingsStorage := CMainWnd.closeEvent geometry program.dialog.settingsStorage } }

/-- One start of the program and the events until it ends. The last event may be
one that goes wrong, and leaves what was stored before it. -/
def session (platform : Platform) (stored : Stored) (events : List (SessionEvent Id)) :
    Except Stop Stored := do
  let start ← Stop.ofExcept (construct platform stored.settingsStorage stored.registry)
  match run (sessionStep platform) start events with
  | .ok program => return program.dialog.stored
  | .error .impossible => .error .impossible
  | .error (.fault _) => do
      let program ← run (sessionStep platform) start events.dropLast
      return program.dialog.stored

section

variable {platform : Platform} {start program next : Program Id}
  {events : List (SessionEvent Id)} {event : SessionEvent Id}

omit [DecidableEq Id] in
theorem construct_eq_ok {stored : Stored}
    (h : construct platform stored.settingsStorage stored.registry = .ok start) :
    Settings.load stored.settingsStorage = .ok start.dialog.settings ∧
      start.dialog.stored = stored := by
  obtain ⟨discoverable, hdiscoverable, h⟩ := bind_eq_ok.mp h
  obtain rfl := Except.ok.inj h
  obtain ⟨dialog, hdialog, h⟩ := bind_eq_ok.mp hdiscoverable
  obtain rfl := Except.ok.inj h
  obtain ⟨settings, hload, h⟩ := bind_eq_ok.mp hdialog
  obtain rfl := Except.ok.inj h
  exact ⟨hload, rfl⟩

variable {first stored : Stored} {sessions : List (List (SessionEvent Id))}

end

end Program

end BBNotifier
