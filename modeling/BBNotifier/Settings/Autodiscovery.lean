import BBNotifier.Settings.SettingsDialog

/-! # Autodiscovery

While the settings dialog is shown, a timer broadcasts the port in its spin box.
The listener was started on the port in force, as a 16-bit number, when the main
window was made and after each OK. So a datagram advertises the port of the
listener as long as the box shows the port in force.
-/

namespace BBNotifier

open Foundation

/-- A Latin-1 text. Units outside Latin-1 become question marks. -/
def QString.toLatin1 (text : QString) : QByteArray :=
  text.map fun unit => if unit ≤ 255 then unit.toUInt8 else 63

abbrev QHostAddress := QString

/-- `QHostAddress::Broadcast`. -/
def QHostAddress.broadcast : QHostAddress := .lit "255.255.255.255"

structure QNetworkAddressEntry where
  broadcast : QHostAddress

structure QUdpDatagram where
  data : QByteArray
  host : QHostAddress
  port : UInt16

namespace CSettingsDialog

/-- The text that is broadcast. -/
def welcome (localHostName : QString) (dialog : CSettingsDialog) : QString :=
  .lit "BBNotifierWelcome:" ++ QString.padded 5 dialog.ui.edtPort.val.toNat ++ .lit ":" ++
    localHostName

/-- The datagrams of `OnTimer`: one for each address of each interface, and one
for all. -/
def onTimer (localHostName : QString) (allInterfaces : List (List QNetworkAddressEntry))
    (dialog : CSettingsDialog) : List QUdpDatagram :=
  let data := (dialog.welcome localHostName).toLatin1
  (allInterfaces.flatMap fun addressEntries =>
    addressEntries.map fun entry => ⟨data, entry.broadcast, 0xBBBB⟩) ++
    [⟨data, QHostAddress.broadcast, 0xBBBB⟩]

end CSettingsDialog

/-- The port written in a datagram. -/
def advertisedPort (data : QByteArray) : Option Nat :=
  QString.digitsValue (QString.ofLatin ((data.drop 18).take 5))

/-- The port that `listen` takes, for 0 one that is chosen automatically. -/
def listen (automaticPort port : UInt16) : UInt16 := if port = 0 then automaticPort else port

/-- `RestartListening`: the port of the listener. -/
def restartListening (automaticPort : UInt16) (dialog : CSettingsDialog) : UInt16 :=
  listen automaticPort (UInt16.ofInt dialog.settings.tcpPort)

/-- The dialog and the port of the listener. -/
structure Discoverable where
  dialog : CSettingsDialog
  serverPort : UInt16

namespace Discoverable

/-- The main window starts the listener. -/
def construct (automaticPort : UInt16) (settingsStorage : QSettings)
    (registry : Option QString) : Except Fault Discoverable := do
  let dialog ← CSettingsDialog.construct settingsStorage registry
  return { dialog, serverPort := restartListening automaticPort dialog }

theorem construct_empty :
    construct 0 (fun _ => none) none = .ok ⟨CSettingsDialog.firstStart, 8083⟩ := rfl

/-- The signal of the OK handler restarts the listener. -/
def step (automaticPort : UInt16) (applicationFilePath : QString) (program : Discoverable)
    (event : DialogEvent) : Option Discoverable :=
  (program.dialog.step applicationFilePath event).map fun dialog =>
    { dialog
      serverPort := match event with
        | .accepted => restartListening automaticPort dialog
        | _ => program.serverPort }

end Discoverable

/-! ## The two ports -/

/-- The port in force and the port in the box, as events change them. -/
def trackPorts : Int × Int → DialogEvent → Int × Int
  | (inForce, _), .showSettings => (inForce, max 1000 (min 65535 inForce))
  | (inForce, _), .edit edtPort _ _ _ _ => (inForce, edtPort.val)
  | (_, shown), .accepted => (shown, shown)
  | ports, _ => ports

/-- The port in force and the port in the box after the events. -/
def portsAfter (initial : Int) (events : List DialogEvent) : Int × Int :=
  events.foldl trackPorts (initial, 1000)

/-- Whenever the timer fires, the box shows the port that `listen` takes for the
one in force. -/
def TicksShowPort (automaticPort : UInt16) (initial : Int) (events : List DialogEvent) : Prop :=
  ∀ front back lastMessageStatus, events = front ++ .timeout lastMessageStatus :: back →
    UInt16.ofInt (portsAfter initial front).2 =
      listen automaticPort (UInt16.ofInt (portsAfter initial front).1)

theorem portsAfter_snoc (initial : Int) (events : List DialogEvent) (event : DialogEvent) :
    portsAfter initial (events ++ [event]) = trackPorts (portsAfter initial events) event := by
  simp [portsAfter]

theorem toNat_ofInt (port : QSpinBox 1000 65535) :
    (UInt16.ofInt port.val).toNat = port.val.toNat := by
  have hport := port.property
  rw [UInt16.ofInt, UInt16.toNat_ofNat']
  omega

theorem listen_ofInt (automaticPort : UInt16) (port : QSpinBox 1000 65535) :
    listen automaticPort (UInt16.ofInt port.val) = UInt16.ofInt port.val := by
  have hport := port.property
  apply if_neg
  intro hzero
  have hvalue := toNat_ofInt port
  rw [hzero, UInt16.toNat_zero] at hvalue
  omega

/-- A stored port in the range of the box keeps both ports in it. -/
theorem portsAfter_mem {initial : Int} (hinitial : 1000 ≤ initial ∧ initial ≤ 65535)
    (events : List DialogEvent) :
    (1000 ≤ (portsAfter initial events).1 ∧ (portsAfter initial events).1 ≤ 65535) ∧
      1000 ≤ (portsAfter initial events).2 ∧ (portsAfter initial events).2 ≤ 65535 := by
  induction events using List.reverseRecOn with
  | nil => exact ⟨hinitial, le_refl 1000, show (1000 : Int) ≤ 65535 by decide⟩
  | append_singleton events event ih =>
      rw [portsAfter_snoc]
      cases event with
      | showSettings => exact ⟨ih.1, le_max_left _ _, max_le (by decide) (min_le_left _ _)⟩
      | edit edtPort => exact ⟨ih.1, edtPort.property⟩
      | accepted => exact ⟨ih.2, ih.2⟩
      | btnGenClicked | rejected | timeout => exact ih

/-- The box shows the port in force from a show of the dialog to the next edit. -/
theorem portsAfter_of_not_edited {initial : Int} (hinitial : 1000 ≤ initial ∧ initial ≤ 65535)
    (before used : List DialogEvent)
    (hused : ∀ edtPort chkStartup chkShowCallPopups chkShowNotificationPopup edtListLength,
      .edit edtPort chkStartup chkShowCallPopups chkShowNotificationPopup edtListLength ∉ used) :
    (portsAfter initial (before ++ .showSettings :: used)).2 =
      (portsAfter initial (before ++ .showSettings :: used)).1 := by
  induction used using List.reverseRecOn with
  | nil =>
      have hrange := (portsAfter_mem hinitial before).1
      rw [portsAfter_snoc, trackPorts, min_eq_right hrange.2, max_eq_right hrange.1]
  | append_singleton used event ih =>
      simp only [List.mem_append, List.mem_singleton, not_or] at hused
      have hsame := ih fun _ _ _ _ _ => (hused _ _ _ _ _).1
      rw [← List.cons_append, ← List.append_assoc, portsAfter_snoc]
      cases event with
      | edit => exact absurd rfl (hused _ _ _ _ _).2
      | accepted => rfl
      | showSettings =>
          have hrange := (portsAfter_mem hinitial (before ++ .showSettings :: used)).1
          rw [trackPorts, min_eq_right hrange.2, max_eq_right hrange.1]
      | btnGenClicked | rejected | timeout => exact hsame

/-- It is enough that the stored port is in the range of the box and the port is
not edited between a show of the dialog and a tick. -/
theorem TicksShowPort.of_not_edited (automaticPort : UInt16) {initial : Int}
    (hinitial : 1000 ≤ initial ∧ initial ≤ 65535) {events : List DialogEvent}
    (hevents : ∀ front back lastMessageStatus,
      events = front ++ .timeout lastMessageStatus :: back →
        ∃ before used, front = before ++ .showSettings :: used ∧
          ∀ edtPort chkStartup chkShowCallPopups chkShowNotificationPopup edtListLength,
            .edit edtPort chkStartup chkShowCallPopups chkShowNotificationPopup edtListLength ∉
              used) :
    TicksShowPort automaticPort initial events := by
  intro front back lastMessageStatus hsplit
  obtain ⟨before, used, rfl, hused⟩ := hevents front back lastMessageStatus hsplit
  rw [portsAfter_of_not_edited hinitial before used hused]
  exact (listen_ofInt automaticPort ⟨_, (portsAfter_mem hinitial _).1⟩).symm

namespace Discoverable

variable {automaticPort : UInt16} {applicationFilePath : QString}

/-- The ports of a state, as the events say. -/
structure Tracks (automaticPort : UInt16) (initial : Int) (events : List DialogEvent)
    (program : Discoverable) : Prop where
  inForce : program.dialog.settings.tcpPort = (portsAfter initial events).1
  shown : program.dialog.ui.edtPort.val = (portsAfter initial events).2
  listening : program.serverPort =
    listen automaticPort (UInt16.ofInt (portsAfter initial events).1)

theorem construct_tracks {settingsStorage : QSettings} {registry : Option QString}
    {program : Discoverable}
    (h : construct automaticPort settingsStorage registry = .ok program) :
    Tracks automaticPort program.dialog.settings.tcpPort [] program := by
  obtain ⟨dialog, hdialog, h⟩ := bind_eq_ok.mp h
  obtain ⟨settings, -, hdialog⟩ := bind_eq_ok.mp hdialog
  obtain rfl := Except.ok.inj hdialog
  obtain rfl := Except.ok.inj h
  exact ⟨rfl, rfl, rfl⟩

/-- An event that leaves the listener and both ports. -/
theorem Tracks.of_same {initial : Int} {events : List DialogEvent} {event : DialogEvent}
    {program : Discoverable} {dialog : CSettingsDialog}
    (htracks : Tracks automaticPort initial events program)
    (hinForce : dialog.settings.tcpPort = program.dialog.settings.tcpPort)
    (hshown : dialog.ui.edtPort = program.dialog.ui.edtPort)
    (hsame : ∀ ports, trackPorts ports event = ports) :
    Tracks automaticPort initial (events ++ [event]) { program with dialog } := by
  have hports : portsAfter initial (events ++ [event]) = portsAfter initial events :=
    (portsAfter_snoc initial events event).trans (hsame _)
  constructor
  · rw [hports, ← htracks.inForce]
    exact hinForce
  · rw [hports, ← htracks.shown]
    exact congrArg Subtype.val hshown
  · rw [hports]
    exact htracks.listening

theorem Tracks.step {initial : Int} {events : List DialogEvent} {event : DialogEvent}
    {program next : Discoverable} (htracks : Tracks automaticPort initial events program)
    (hnext : Discoverable.step automaticPort applicationFilePath program event = some next) :
    Tracks automaticPort initial (events ++ [event]) next := by
  obtain ⟨dialog, hdialog, rfl⟩ := Option.map_eq_some_iff.mp hnext
  cases event with
  | showSettings =>
      obtain ⟨-, rfl⟩ := CSettingsDialog.step_showSettings hdialog
      constructor
      · rw [portsAfter_snoc]
        exact htracks.inForce
      · rw [portsAfter_snoc, trackPorts, ← htracks.inForce]
        rfl
      · rw [portsAfter_snoc]
        exact htracks.listening
  | edit edtPort =>
      obtain ⟨-, rfl⟩ := CSettingsDialog.eq_of_guard hdialog
      constructor
      · rw [portsAfter_snoc]
        exact htracks.inForce
      · rw [portsAfter_snoc]
        rfl
      · rw [portsAfter_snoc]
        exact htracks.listening
  | btnGenClicked answer generated =>
      obtain ⟨-, rfl⟩ := CSettingsDialog.step_btnGenClicked hdialog
      cases answer with
      | false => exact htracks.of_same rfl rfl fun _ => rfl
      | true =>
          rw [CSettingsDialog.onBtnGenClicked, if_pos rfl]
          exact htracks.of_same rfl rfl fun _ => rfl
  | accepted =>
      obtain ⟨-, rfl⟩ := CSettingsDialog.step_accepted hdialog
      have hshown := htracks.shown
      constructor
      · rw [portsAfter_snoc]
        exact hshown
      · rw [portsAfter_snoc]
        exact hshown
      · rw [portsAfter_snoc, trackPorts, ← hshown]
        rfl
  | rejected =>
      obtain ⟨-, rfl⟩ := CSettingsDialog.step_rejected hdialog
      exact htracks.of_same rfl rfl fun _ => rfl
  | timeout =>
      obtain ⟨-, rfl⟩ := CSettingsDialog.eq_of_guard hdialog
      exact htracks.of_same rfl rfl fun _ => rfl

theorem Tracks.of_run {settingsStorage : QSettings} {registry : Option QString}
    {start : Discoverable}
    (hstart : construct automaticPort settingsStorage registry = .ok start)
    (events : List DialogEvent) (program : Discoverable)
    (hrun : run (Discoverable.step automaticPort applicationFilePath) start events =
      some program) :
    Tracks automaticPort start.dialog.settings.tcpPort events program :=
  run_invariant (Tracks automaticPort start.dialog.settings.tcpPort) (construct_tracks hstart)
    (fun _ _ _ _ _ htracks hnext => htracks.step hnext) events program hrun

end Discoverable

/-! ## What is advertised -/

theorem QString.ofLatin_toLatin1 {text : QString} (h : ∀ unit ∈ text, unit ≤ 255) :
    QString.ofLatin text.toLatin1 = text := by
  rw [QString.ofLatin, QString.toLatin1, List.map_map]
  conv_rhs => rw [← List.map_id text]
  apply List.map_congr_left
  intro unit hunit
  have hsmall : unit.toNat ≤ 255 := h unit hunit
  rw [Function.comp_apply, if_pos (h unit hunit)]
  apply UInt16.toNat_inj.mp
  rw [UInt8.toNat_toUInt16, UInt16.toNat_toUInt8, Nat.mod_eq_of_lt (by omega), id]

theorem QString.toLatin1_append (first second : QString) :
    (first ++ second).toLatin1 = first.toLatin1 ++ second.toLatin1 := List.map_append

/-- The port follows the tag and takes five digits. -/
theorem advertisedPort_welcome (localHostName : QString) (dialog : CSettingsDialog) :
    advertisedPort (dialog.welcome localHostName).toLatin1 =
      some dialog.ui.edtPort.val.toNat := by
  have hport := dialog.ui.edtPort.property
  have htag : (QString.lit "BBNotifierWelcome:").toLatin1.length = 18 := by decide
  have hlength : (QString.padded 5 dialog.ui.edtPort.val.toNat).toLatin1.length = 5 := by
    rw [QString.toLatin1, List.length_map]
    exact QString.length_padded (by decide) (by omega)
  rw [CSettingsDialog.welcome, List.append_assoc, List.append_assoc, QString.toLatin1_append,
    QString.toLatin1_append, advertisedPort, List.drop_left' htag, List.take_left' hlength,
    QString.ofLatin_toLatin1 fun unit hunit => ?_, QString.digitsValue_padded]
  exact UInt16.le_trans (QString.mem_padded hunit) (by decide)

/-- Every datagram advertises the port in the box. -/
theorem advertisedPort_of_mem_onTimer {localHostName : QString}
    {allInterfaces : List (List QNetworkAddressEntry)} {dialog : CSettingsDialog}
    {datagram : QUdpDatagram}
    (hdatagram : datagram ∈ dialog.onTimer localHostName allInterfaces) :
    advertisedPort datagram.data = some dialog.ui.edtPort.val.toNat := by
  have hdata : datagram.data = (dialog.welcome localHostName).toLatin1 := by
    rw [CSettingsDialog.onTimer, List.mem_append, List.mem_singleton] at hdatagram
    rcases hdatagram with hinterface | rfl
    · obtain ⟨entries, -, hentry⟩ := List.mem_flatMap.mp hinterface
      obtain ⟨entry, -, rfl⟩ := List.mem_map.mp hentry
      rfl
    · rfl
  rw [hdata, advertisedPort_welcome]

theorem advertises_iff {port : QSpinBox 1000 65535} {serverPort : UInt16} :
    port.val.toNat = serverPort.toNat ↔ UInt16.ofInt port.val = serverPort := by
  rw [← toNat_ofInt port, UInt16.toNat_inj]

namespace Discoverable

/-- In every run, whenever the timer fires every datagram advertises the port of
the listener. -/
def AdvertisesServerPort (automaticPort : UInt16) (applicationFilePath : QString)
    (start : Discoverable) (events : List DialogEvent) : Prop :=
  ∀ front back lastMessageStatus program, events = front ++ .timeout lastMessageStatus :: back →
    run (step automaticPort applicationFilePath) start front = some program →
      ∀ localHostName allInterfaces,
        ∀ datagram ∈ program.dialog.onTimer localHostName allInterfaces,
          advertisedPort datagram.data = some program.serverPort.toNat

/-- A run advertises the port of the listener exactly when at each tick the box
shows the port that `listen` takes for the one in force. -/
theorem advertises_server_port_iff (automaticPort : UInt16) (applicationFilePath : QString)
    (settingsStorage : QSettings) (registry : Option QString) (start : Discoverable)
    (hstart : construct automaticPort settingsStorage registry = .ok start)
    (events : List DialogEvent) (final : Discoverable)
    (hrun : run (step automaticPort applicationFilePath) start events = some final) :
    AdvertisesServerPort automaticPort applicationFilePath start events ↔
      TicksShowPort automaticPort start.dialog.settings.tcpPort events := by
  constructor
  · intro hadvertised front back lastMessageStatus hevents
    have hsplit := hrun
    rw [hevents] at hsplit
    obtain ⟨program, hprogram, -⟩ := run_append_eq_some.mp hsplit
    have htracks := Tracks.of_run hstart front program hprogram
    -- There is a datagram at every tick: the last one goes to everyone.
    have htotal : ⟨(program.dialog.welcome []).toLatin1, QHostAddress.broadcast, 0xBBBB⟩ ∈
        program.dialog.onTimer [] [] := List.mem_singleton_self _
    have hport := hadvertised front back lastMessageStatus program hevents hprogram [] [] _ htotal
    rw [advertisedPort_of_mem_onTimer htotal] at hport
    rw [← htracks.shown, ← htracks.listening]
    exact advertises_iff.mp (Option.some.inj hport)
  · intro hticks front back lastMessageStatus program hevents hprogram _ _ datagram hdatagram
    have htracks := Tracks.of_run hstart front program hprogram
    rw [advertisedPort_of_mem_onTimer hdatagram, advertises_iff.mpr]
    rw [htracks.shown, htracks.listening]
    exact hticks front back lastMessageStatus hevents

/-- A first start of the program, shown for a tick. -/
theorem advertises_server_port_iff_shown :
    AdvertisesServerPort 0 [] ⟨.firstStart, 8083⟩ [.showSettings, .timeout []] := by
  obtain ⟨final, hrun⟩ := Option.isSome_iff_exists.mp (show (run (step 0 [])
    ⟨.firstStart, 8083⟩ [.showSettings, .timeout []]).isSome = true by decide +kernel)
  refine (advertises_server_port_iff 0 [] _ none _ construct_empty _ final hrun).mpr
    (TicksShowPort.of_not_edited 0 (by decide) ?_)
  intro front back lastMessageStatus hevents
  match front with
  | [] => simp at hevents
  | [event] =>
      obtain rfl : DialogEvent.showSettings = event := (List.cons.inj hevents).1
      exact ⟨[], [], rfl, by simp⟩
  | _ :: _ :: _ => simp at hevents

/-- A port that was typed in and is not accepted yet is advertised. -/
theorem not_advertises_server_port :
    ¬ ∀ (automaticPort : UInt16) (applicationFilePath : QString) (settingsStorage : QSettings)
        (registry : Option QString) (start final : Discoverable) (events : List DialogEvent),
      construct automaticPort settingsStorage registry = .ok start →
      run (step automaticPort applicationFilePath) start events = some final →
      AdvertisesServerPort automaticPort applicationFilePath start events := by
  intro hall
  let front : List DialogEvent :=
    [.showSettings, .edit ⟨8084, by decide⟩ false true true ⟨20, by decide⟩]
  obtain ⟨program, hprogram⟩ := Option.isSome_iff_exists.mp (show (run (step 0 [])
    ⟨.firstStart, 8083⟩ front).isSome = true by decide +kernel)
  obtain ⟨final, hrun⟩ := Option.isSome_iff_exists.mp (show (run (step 0 [])
    ⟨.firstStart, 8083⟩ (front ++ [.timeout []])).isSome = true by decide +kernel)
  have htracks := Tracks.of_run construct_empty front program hprogram
  have hport := hall 0 [] _ none _ final _ construct_empty hrun front [] [] program rfl hprogram
    [] [] _ (List.mem_singleton_self _)
  rw [advertisedPort_welcome, htracks.shown, htracks.listening] at hport
  exact absurd hport (by decide)

end Discoverable

end BBNotifier
