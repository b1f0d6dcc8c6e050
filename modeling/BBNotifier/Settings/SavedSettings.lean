import BBNotifier.Settings.SettingsDialog

/-! # Settings in force and settings stored

Of the five settings only the key changes outside the OK handler. Everything
else in force has been read from the storage or written to it. So after the
dialog is closed the settings in force are the stored ones unless it was
cancelled with a new key.
-/

namespace BBNotifier

open Foundation

/-- The key in force and the stored key, as events change them. -/
def trackKeys : AESKey × AESKey → DialogEvent → AESKey × AESKey
  | (_, stored), .btnGenClicked true generated => (generated, stored)
  | (inForce, _), .accepted => (inForce, inForce)
  | keys, _ => keys

/-- The key in force and the stored key after the events. -/
def keysAfter (initial : AESKey) (events : List DialogEvent) : AESKey × AESKey :=
  events.foldl trackKeys (initial, initial)

/-- Whenever the dialog is cancelled, the key generated last is the stored one:
none was generated since the last OK, or it came out the same. -/
def CancelKeepsKey (initial : AESKey) (events : List DialogEvent) : Prop :=
  ∀ front back, events = front ++ .rejected :: back →
    (keysAfter initial front).1 = (keysAfter initial front).2

theorem keysAfter_snoc (initial : AESKey) (events : List DialogEvent) (event : DialogEvent) :
    keysAfter initial (events ++ [event]) = trackKeys (keysAfter initial events) event := by
  simp [keysAfter]

/-- Without a new key the two stay the same. -/
theorem keysAfter_of_notMem (initial : AESKey) (events : List DialogEvent)
    (h : ∀ generated, .btnGenClicked true generated ∉ events) :
    (keysAfter initial events).1 = (keysAfter initial events).2 := by
  induction events using List.reverseRecOn with
  | nil => rfl
  | append_singleton events event ih =>
      simp only [List.mem_append, List.mem_singleton, not_or] at h
      have hsame := ih fun generated => (h generated).1
      rw [keysAfter_snoc]
      cases event with
      | btnGenClicked answer generated =>
          cases answer with
          | false => exact hsame
          | true => exact absurd rfl (h generated).2
      | accepted => rfl
      | showSettings | edit | rejected | timeout => exact hsame

theorem CancelKeepsKey.of_notMem {initial : AESKey} {events : List DialogEvent}
    (h : ∀ generated, .btnGenClicked true generated ∉ events) :
    CancelKeepsKey initial events := by
  rintro front back rfl
  exact keysAfter_of_notMem initial front fun generated hmem =>
    h generated (List.mem_append_left _ hmem)

theorem CancelKeepsKey.of_append {initial : AESKey} {events more : List DialogEvent}
    (h : CancelKeepsKey initial (events ++ more)) : CancelKeepsKey initial events := by
  intro front back hevents
  exact h front (back ++ more) (by rw [hevents, List.append_assoc, List.cons_append])

namespace CSettingsDialog

/-- The storage holds the settings in force, except for the key. -/
structure Tracks (initial : AESKey) (events : List DialogEvent) (dialog : CSettingsDialog) :
    Prop where
  inForce : dialog.settings.aesKey = (keysAfter initial events).1
  stored : Settings.load dialog.settingsStorage =
    .ok { dialog.settings with aesKey := (keysAfter initial events).2 }
  closed : dialog.isVisible = false → CancelKeepsKey initial events →
    (keysAfter initial events).1 = (keysAfter initial events).2

theorem construct_eq_ok {settingsStorage : QSettings} {registry : Option QString}
    {dialog : CSettingsDialog} (h : construct settingsStorage registry = .ok dialog) :
    Settings.load settingsStorage = .ok dialog.settings ∧
      dialog.settingsStorage = settingsStorage ∧ dialog.isVisible = false := by
  obtain ⟨settings, hload, h⟩ := bind_eq_ok.mp h
  obtain rfl := Except.ok.inj h
  exact ⟨hload, rfl, rfl⟩

/-- A storage without a key, or with one that was stored, can be loaded. -/
theorem construct_isOk {settingsStorage : QSettings} (registry : Option QString)
    (hkey : settingsStorage (.lit "key") = none ∨
      ∃ key : AESKey, settingsStorage (.lit "key") = some key.toQVList) :
    ∃ dialog, construct settingsStorage registry = .ok dialog := by
  have hload : ∃ key, Settings.loadKey 0 .zero
      (settingsStorage.value (.lit "key") (.list [])).toStringList = .ok key := by
    rcases hkey with habsent | ⟨key, hstored⟩
    · exact ⟨.zero, by rw [QSettings.value, habsent]; rfl⟩
    · exact ⟨key, by rw [QSettings.value, hstored]; exact Settings.loadKey_toQVList key⟩
  obtain ⟨key, hkey⟩ := hload
  rw [construct, Settings.load, hkey]
  exact ⟨_, rfl⟩

theorem construct_tracks {settingsStorage : QSettings} {registry : Option QString}
    {dialog : CSettingsDialog} (h : construct settingsStorage registry = .ok dialog) :
    Tracks dialog.settings.aesKey [] dialog := by
  obtain ⟨hload, hstorage, -⟩ := construct_eq_ok h
  refine ⟨rfl, ?_, fun _ _ => rfl⟩
  rw [hstorage, hload]
  rfl

/-- An event that leaves the settings, the storage and the keys. If it closes
the dialog it is a cancel. -/
theorem Tracks.of_same {initial : AESKey} {events : List DialogEvent} {event : DialogEvent}
    {dialog next : CSettingsDialog} (htracks : Tracks initial events dialog)
    (hsettings : next.settings = dialog.settings)
    (hstorage : next.settingsStorage = dialog.settingsStorage)
    (hkeys : trackKeys (keysAfter initial events) event = keysAfter initial events)
    (hclosed : next.isVisible = false → dialog.isVisible = false ∨ event = .rejected) :
    Tracks initial (events ++ [event]) next := by
  rw [← keysAfter_snoc] at hkeys
  constructor
  · rw [hsettings, hkeys]
    exact htracks.inForce
  · rw [hstorage, hsettings, hkeys]
    exact htracks.stored
  · intro hhidden hcancel
    rw [hkeys]
    rcases hclosed hhidden with hbefore | rfl
    · exact htracks.closed hbefore hcancel.of_append
    · exact hcancel events [] rfl

theorem Tracks.step {applicationFilePath : QString} {initial : AESKey}
    {events : List DialogEvent} {event : DialogEvent} {dialog next : CSettingsDialog}
    (htracks : Tracks initial events dialog)
    (hnext : step applicationFilePath dialog event = some next) :
    Tracks initial (events ++ [event]) next := by
  cases event with
  | showSettings =>
      obtain ⟨-, rfl⟩ := step_showSettings hnext
      exact htracks.of_same rfl rfl rfl nofun
  | edit =>
      obtain ⟨hvisible, rfl⟩ := eq_of_guard hnext
      exact htracks.of_same rfl rfl rfl .inl
  | btnGenClicked answer generated =>
      obtain ⟨hvisible, rfl⟩ := step_btnGenClicked hnext
      cases answer with
      | false => exact htracks.of_same rfl rfl rfl .inl
      | true =>
          -- The new key is in force, and the storage keeps the old one.
          constructor
          · rw [keysAfter_snoc]
            rfl
          · rw [keysAfter_snoc]
            exact htracks.stored
          · intro hhidden
            exact absurd (hvisible.symm.trans hhidden) (by decide)
  | accepted =>
      obtain ⟨-, rfl⟩ := step_accepted hnext
      have hkey := htracks.inForce
      constructor
      · rw [keysAfter_snoc]
        exact hkey
      · rw [keysAfter_snoc]
        apply (Settings.load_store _ _).trans
        apply congrArg
        exact Settings.ext rfl hkey rfl rfl rfl
      · rw [keysAfter_snoc]
        exact fun _ _ => rfl
  | rejected =>
      obtain ⟨-, rfl⟩ := step_rejected hnext
      exact htracks.of_same rfl rfl rfl fun _ => .inr rfl
  | timeout =>
      obtain ⟨-, rfl⟩ := eq_of_guard hnext
      exact htracks.of_same rfl rfl rfl .inl

theorem Tracks.of_run {applicationFilePath : QString} {settingsStorage : QSettings}
    {registry : Option QString} {start : CSettingsDialog}
    (hstart : construct settingsStorage registry = .ok start) (events : List DialogEvent)
    (dialog : CSettingsDialog)
    (hrun : run (CSettingsDialog.step applicationFilePath) start events = some dialog) :
    Tracks start.settings.aesKey events dialog :=
  run_invariant (Tracks start.settings.aesKey) (construct_tracks hstart)
    (fun _ _ _ _ _ htracks hnext => htracks.step hnext) events dialog hrun

/-- A new instance over the storage has the settings in force exactly when the
stored key is the one in force. -/
theorem Tracks.restart_iff {initial : AESKey} {events : List DialogEvent}
    {dialog : CSettingsDialog} (htracks : Tracks initial events dialog) :
    (∃ restarted, construct dialog.settingsStorage dialog.registry = .ok restarted ∧
      restarted.settings = dialog.settings) ↔
      (keysAfter initial events).1 = (keysAfter initial events).2 := by
  have hconstruct : ∃ restarted, construct dialog.settingsStorage dialog.registry =
      .ok restarted ∧
      restarted.settings = { dialog.settings with aesKey := (keysAfter initial events).2 } := by
    rw [construct, htracks.stored]
    exact ⟨_, rfl, rfl⟩
  obtain ⟨restarted, hrestarted, hsettings⟩ := hconstruct
  constructor
  · rintro ⟨other, hother, hsame⟩
    obtain rfl := Except.ok.inj (hrestarted.symm.trans hother)
    rw [← htracks.inForce, ← hsame, hsettings]
  · intro hkeys
    refine ⟨restarted, hrestarted, ?_⟩
    rw [hsettings, ← hkeys, ← htracks.inForce]

/-- Other events than OK leave the storage. -/
theorem step_settingsStorage {applicationFilePath : QString} {dialog next : CSettingsDialog}
    {event : DialogEvent} (hevent : event ≠ .accepted)
    (hnext : CSettingsDialog.step applicationFilePath dialog event = some next) :
    next.settingsStorage = dialog.settingsStorage := by
  cases event with
  | showSettings =>
      obtain ⟨-, rfl⟩ := step_showSettings hnext
      rfl
  | btnGenClicked answer =>
      obtain ⟨-, rfl⟩ := step_btnGenClicked hnext
      cases answer <;> rfl
  | rejected =>
      obtain ⟨-, rfl⟩ := step_rejected hnext
      rfl
  | edit | timeout =>
      obtain ⟨-, rfl⟩ := eq_of_guard hnext
      rfl
  | accepted => contradiction

theorem run_settingsStorage {applicationFilePath : QString} {dialog next : CSettingsDialog}
    {events : List DialogEvent} (hevents : .accepted ∉ events)
    (hrun : run (CSettingsDialog.step applicationFilePath) dialog events = some next) :
    next.settingsStorage = dialog.settingsStorage := by
  refine run_invariant (fun events (state : CSettingsDialog) => .accepted ∉ events →
    state.settingsStorage = dialog.settingsStorage) (fun _ => rfl) ?_ events next hrun hevents
  intro events state event next _ hkept hnext hevents
  rw [List.mem_append, List.mem_singleton, not_or] at hevents
  rw [step_settingsStorage (Ne.symm hevents.2) hnext, hkept hevents.1]

/-- A cancel closes the dialog. -/
theorem hidden_of_run_rejected {applicationFilePath : QString} {start closed : CSettingsDialog}
    (front : List DialogEvent)
    (hrun : run (step applicationFilePath) start (front ++ [.rejected]) = some closed) :
    closed.isVisible = false := by
  obtain ⟨shown, -, hreject⟩ := run_snoc_eq_some.mp hrun
  rw [(step_rejected hreject).2]
  rfl

/-- A restart of the program finds the settings in force. -/
def RestartsSame (dialog : CSettingsDialog) : Prop :=
  ∃ restarted, construct dialog.settingsStorage dialog.registry = .ok restarted ∧
    restarted.settings = dialog.settings

/-- Whenever the dialog is closed, a restart finds the settings in force. -/
def StoredWhenClosed (applicationFilePath : QString) (start : CSettingsDialog)
    (events : List DialogEvent) : Prop :=
  ∀ front back dialog, events = front ++ back →
    run (step applicationFilePath) start front = some dialog →
      dialog.isVisible = false → dialog.RestartsSame

/-- Showing the dialog and cancelling it, with no OK in between, leaves the
settings in force. -/
def CancelRestores (applicationFilePath : QString) (start : CSettingsDialog)
    (events : List DialogEvent) : Prop :=
  ∀ front used back before closed, events = front ++ .showSettings :: used ++ .rejected :: back →
    .accepted ∉ used → run (step applicationFilePath) start front = some before →
      run (step applicationFilePath) before (.showSettings :: used ++ [.rejected]) =
        some closed → closed.settings = before.settings

theorem StoredWhenClosed.cancelRestores {applicationFilePath : QString}
    {start : CSettingsDialog} {events : List DialogEvent}
    (h : StoredWhenClosed applicationFilePath start events) :
    CancelRestores applicationFilePath start events := by
  intro front used back before closed hevents hused hbefore hclosed
  have hrunClosed : run (step applicationFilePath) start
      (front ++ (.showSettings :: used ++ [.rejected])) = some closed :=
    run_append_eq_some.mpr ⟨before, hbefore, hclosed⟩
  have hstorage : closed.settingsStorage = before.settingsStorage :=
    run_settingsStorage (by simpa using hused) hclosed
  have hhidden : before.isVisible = false := by
    rw [List.cons_append, run_cons_eq_some] at hclosed
    obtain ⟨shown, hshow, -⟩ := hclosed
    exact (step_showSettings hshow).1
  obtain ⟨restarted, hrestarted, hsame⟩ :=
    h front (.showSettings :: used ++ .rejected :: back) before (by rw [hevents]; simp)
      hbefore hhidden
  obtain ⟨restarted', hrestarted', hsame'⟩ :=
    h (front ++ (.showSettings :: used ++ [.rejected])) back closed (by rw [hevents]; simp)
      hrunClosed (hidden_of_run_rejected _ hclosed)
  -- Both restarts load the same storage.
  have hload := (construct_eq_ok hrestarted).1
  have hload' := (construct_eq_ok hrestarted').1
  rw [hstorage] at hload'
  rw [← hsame', ← hsame]
  exact Except.ok.inj (hload'.symm.trans hload)

/-- Over a storage without a key or with one that was stored, the settings in
force are the stored ones whenever the dialog is closed, and a cancel restores
them, exactly in the runs in which no cancel meets a new key. -/
theorem settings_stored_iff (applicationFilePath : QString) (settingsStorage : QSettings)
    (registry : Option QString)
    (hkey : settingsStorage (.lit "key") = none ∨
      ∃ key : AESKey, settingsStorage (.lit "key") = some key.toQVList) :
    ∃ start, construct settingsStorage registry = .ok start ∧
      ∀ events final, run (step applicationFilePath) start events = some final →
        (StoredWhenClosed applicationFilePath start events ∧
            CancelRestores applicationFilePath start events ↔
          CancelKeepsKey start.settings.aesKey events) := by
  obtain ⟨start, hstart⟩ := construct_isOk registry hkey
  refine ⟨start, hstart, fun events final hrun => ⟨?_, ?_⟩⟩
  · rintro ⟨hstored, -⟩ front back hevents
    -- The cancel after the front closes the dialog.
    rw [hevents] at hrun
    obtain ⟨before, closed, hbefore, hreject, -⟩ := run_append_cons_eq_some.mp hrun
    have hclosed := run_snoc_eq_some.mpr ⟨before, hbefore, hreject⟩
    have hkeys := (Tracks.of_run hstart _ closed hclosed).restart_iff.mp
      (hstored _ back closed (by simp [hevents]) hclosed (hidden_of_run_rejected front hclosed))
    rw [keysAfter_snoc] at hkeys
    exact hkeys
  · intro hcancel
    have hstored : StoredWhenClosed applicationFilePath start events := by
      intro front back dialog hevents hdialog hhidden
      have htracks := Tracks.of_run hstart front dialog hdialog
      rw [hevents] at hcancel
      exact htracks.restart_iff.mpr (htracks.closed hhidden hcancel.of_append)
    exact ⟨hstored, hstored.cancelRestores⟩

/-- A first start of the program, shown and cancelled. -/
theorem settings_stored_iff_cancelled :
    StoredWhenClosed [] firstStart [.showSettings, .rejected] ∧
      CancelRestores [] firstStart [.showSettings, .rejected] := by
  obtain ⟨start, hstart, hiff⟩ := settings_stored_iff [] (fun _ => none) none (.inl rfl)
  obtain rfl : firstStart = start := Except.ok.inj (construct_empty.symm.trans hstart)
  obtain ⟨final, hrun⟩ := Option.isSome_iff_exists.mp
    (show (run (step []) firstStart [.showSettings, .rejected]).isSome = true by decide +kernel)
  exact (hiff _ final hrun).mpr (CancelKeepsKey.of_notMem (by simp))

/-- A new key is in force after a cancel and is not the stored one. -/
theorem not_settings_stored :
    ¬ ∀ (applicationFilePath : QString) (settingsStorage : QSettings) (registry : Option QString)
        (start final : CSettingsDialog) (events : List DialogEvent),
      (settingsStorage (.lit "key") = none ∨
        ∃ key : AESKey, settingsStorage (.lit "key") = some key.toQVList) →
      construct settingsStorage registry = .ok start →
      (1000 ≤ start.settings.tcpPort ∧ start.settings.tcpPort ≤ 65535) →
      (1 ≤ start.settings.maxItemsCount ∧ start.settings.maxItemsCount ≤ 100) →
      run (step applicationFilePath) start events = some final →
      StoredWhenClosed applicationFilePath start events := by
  intro hall
  obtain ⟨final, hrun⟩ := Option.isSome_iff_exists.mp (show (run (step []) firstStart
    [.showSettings, .btnGenClicked true ⟨fun _ => 1⟩, .rejected]).isSome = true by decide +kernel)
  have hhidden := hidden_of_run_rejected [.showSettings, .btnGenClicked true ⟨fun _ => 1⟩] hrun
  have hsame := hall [] _ none firstStart final _ (.inl rfl) construct_empty (by decide)
    (by decide) hrun _ [] final (List.append_nil _).symm hrun hhidden
  have hkeys := (Tracks.of_run construct_empty _ final hrun).restart_iff.mp hsame
  exact absurd hkeys (by decide)

end CSettingsDialog

end BBNotifier
