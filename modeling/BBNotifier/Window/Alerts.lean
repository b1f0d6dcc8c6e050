import BBNotifier.Window.Notifications

/-! # Popups and sounds

A ringing call and a notification are announced as they arrive: by a popup, if
popups of their kind are enabled at that moment, and by a sound, unless the last
one is still playing. Nothing else is announced, and nothing is announced later.
-/

namespace BBNotifier

open Foundation

namespace WindowEvent

/-- The popup of an event, under the settings in force. -/
def popup? (settings : Settings) : WindowEvent → Option (QString × QString)
  | newCall data _ =>
      match data.val.type with
      | .ringingCall =>
          if settings.shouldShowCallPopup then
            some (.lit "Phone call", data.val.name ++ QString.newline :: data.val.phone)
          else none
      | .notification =>
          if settings.shouldShowNotificationPopup then
            some (data.val.phone, data.val.getUnescapedData)
          else none
      | .offhookCall | .empty => none
  | btnClearHistoryClicked _ _ | change _ _ | settingsChanged _ => none

/-- A call that rings while its sound is not playing. -/
def soundsCall : WindowEvent → Bool
  | newCall data surroundings => data.val.type = .ringingCall && surroundings.soundFinished
  | btnClearHistoryClicked _ _ | change _ _ | settingsChanged _ => false

/-- A notification that arrives while its sound is not playing. -/
def soundsNotification : WindowEvent → Bool
  | newCall data surroundings => data.val.type = .notification && surroundings.soundNotifFinished
  | btnClearHistoryClicked _ _ | change _ _ | settingsChanged _ => false

end WindowEvent

/-- What the window announced on the way from one state to another. -/
structure CMainWnd.Announces (window next : CMainWnd) (popups : List (QString × QString))
    (soundPlays soundNotifPlays : Nat) : Prop where
  trayMessages : next.trayMessages = window.trayMessages ++ popups
  soundPlays : next.soundPlays = window.soundPlays + soundPlays
  soundNotifPlays : next.soundNotifPlays = window.soundNotifPlays + soundNotifPlays

namespace CMainWnd

variable {dates : QDateTimeText} {window next : CMainWnd} {surroundings : Surroundings}
  {settings : Settings}

theorem Announces.nothing (window : CMainWnd) : window.Announces window [] 0 0 :=
  ⟨(List.append_nil _).symm, rfl, rfl⟩

theorem Announces.trans {middle : CMainWnd} {popups more : List (QString × QString)}
    {soundPlays soundNotifPlays morePlays moreNotifPlays : Nat}
    (hfirst : window.Announces middle popups soundPlays soundNotifPlays)
    (hsecond : middle.Announces next more morePlays moreNotifPlays) :
    window.Announces next (popups ++ more) (soundPlays + morePlays)
      (soundNotifPlays + moreNotifPlays) := by
  constructor
  · rw [hsecond.trayMessages, hfirst.trayMessages, List.append_assoc]
  · rw [hsecond.soundPlays, hfirst.soundPlays, Nat.add_assoc]
  · rw [hsecond.soundNotifPlays, hfirst.soundNotifPlays, Nat.add_assoc]

/-- The refresh of the icon is silent. -/
theorem Announces.refresh {handled : CMainWnd} {popups : List (QString × QString)}
    {soundPlays soundNotifPlays : Nat} {heap : Memory}
    (hannounces : window.Announces handled popups soundPlays soundNotifPlays)
    (h : handled.refreshTrayIconStatus dates heap = .ok next) :
    window.Announces next popups soundPlays soundNotifPlays := by
  obtain ⟨icon, rfl⟩ := refreshTrayIconStatus_eq_ok h
  exact ⟨hannounces.trayMessages, hannounces.soundPlays, hannounces.soundNotifPlays⟩

theorem onRingingCall_announces {data : CNotificationItem}
    (h : window.onRingingCall dates surroundings settings data = .ok next) :
    window.Announces next
      (if settings.shouldShowCallPopup then
        [(.lit "Phone call", data.name ++ QString.newline :: data.phone)] else [])
      surroundings.soundFinished.toNat 0 := by
  obtain ⟨added, hadded, h⟩ := bind_eq_ok.mp h
  obtain ⟨listHistory, rfl⟩ := addNewCall_eq_ok hadded
  rw [← Except.ok.inj h]
  cases settings.shouldShowCallPopup <;> cases surroundings.soundFinished <;>
    exact ⟨by simp [showMessage], rfl, rfl⟩

theorem onNotification_announces (dates : QDateTimeText) (window : CMainWnd)
    (surroundings : Surroundings) (settings : Settings) (data : CNotificationItem) :
    window.Announces (window.onNotification dates surroundings settings data)
      (if settings.shouldShowNotificationPopup then [(data.phone, data.getUnescapedData)] else [])
      0 surroundings.soundNotifFinished.toNat := by
  unfold onNotification
  cases settings.shouldShowNotificationPopup <;> cases surroundings.soundNotifFinished <;>
    exact ⟨by simp [showMessage], rfl, rfl⟩

theorem onNewCall_announces {data : ParsedItem}
    (h : window.onNewCall dates surroundings settings data.val = .ok next) :
    window.Announces next ((WindowEvent.newCall data surroundings).popup? settings).toList
      (WindowEvent.newCall data surroundings).soundsCall.toNat
      (WindowEvent.newCall data surroundings).soundsNotification.toNat := by
  unfold onNewCall at h
  simp only [WindowEvent.popup?, WindowEvent.soundsCall, WindowEvent.soundsNotification]
  cases htype : data.val.type with
  | ringingCall =>
      simp only [htype] at h
      obtain ⟨handled, hhandled, h⟩ := bind_eq_ok.mp h
      have hannounces := (onRingingCall_announces hhandled).refresh h
      cases hpopup : settings.shouldShowCallPopup <;> simpa [hpopup] using hannounces
  | offhookCall =>
      simp only [htype] at h
      obtain ⟨handled, hhandled, h⟩ := bind_eq_ok.mp h
      obtain ⟨listHistory, rfl⟩ := markCallAccepted_eq_ok hhandled
      have hmarked : window.Announces { window with listHistory } [] 0 0 :=
        ⟨(List.append_nil _).symm, rfl, rfl⟩
      exact hmarked.refresh h
  | notification =>
      simp only [htype] at h
      have hannounces :=
        (onNotification_announces dates window surroundings settings data.val).refresh h
      cases hpopup : settings.shouldShowNotificationPopup <;> simpa [hpopup] using hannounces
  | empty =>
      simp only [htype] at h
      exact (Announces.nothing window).refresh h

end CMainWnd

theorem Session.step_announces {dates : QDateTimeText} {session next : Session}
    {event : WindowEvent} (h : session.step dates event = .ok next) :
    session.window.Announces next.window (event.popup? session.settings).toList
      event.soundsCall.toNat event.soundsNotification.toNat := by
  cases event with
  | newCall data surroundings =>
      obtain ⟨window, hwindow, h⟩ := bind_eq_ok.mp h
      obtain rfl := Except.ok.inj h
      exact CMainWnd.onNewCall_announces hwindow
  | btnClearHistoryClicked currentIndex surroundings =>
      obtain ⟨window, hwindow, h⟩ := bind_eq_ok.mp h
      obtain rfl := Except.ok.inj h
      have hcleared : session.window.Announces
          (if currentIndex = 0 then { session.window with listNotifications := [] }
            else { session.window with listHistory := [] }) [] 0 0 := by
        split <;> exact ⟨(List.append_nil _).symm, rfl, rfl⟩
      exact hcleared.refresh hwindow
  | change isActiveWindow surroundings =>
      obtain ⟨window, hwindow, h⟩ := bind_eq_ok.mp h
      obtain rfl := Except.ok.inj h
      cases isActiveWindow with
      | false =>
          obtain rfl := Except.ok.inj hwindow
          exact CMainWnd.Announces.nothing _
      | true =>
          have hseen : session.window.Announces
              { session.window with hasNewNotificationCame := false } [] 0 0 :=
            ⟨(List.append_nil _).symm, rfl, rfl⟩
          exact hseen.refresh hwindow
  | settingsChanged settings =>
      obtain rfl := Except.ok.inj h
      exact CMainWnd.Announces.nothing _

/-- The popups of a run, each under the settings in force when its item came. -/
def popups (initial : Settings) (events : List WindowEvent) : List (QString × QString) :=
  outputs (fun before event => event.popup? (settingsIn initial before)) events

theorem Session.run_alerts (dates : QDateTimeText) (initial : Settings)
    (events : List WindowEvent) :
    ∃ session, run (Session.step dates) (Session.new initial) events = .ok session ∧
      (∃ history, session.Follows dates initial events history) ∧
      CMainWnd.new.Announces session.window (popups initial events)
        (events.countP WindowEvent.soundsCall) (events.countP WindowEvent.soundsNotification) := by
  apply Session.run_law (fun events session => CMainWnd.new.Announces session.window
    (popups initial events) (events.countP WindowEvent.soundsCall)
    (events.countP WindowEvent.soundsNotification))
  · exact ⟨rfl, rfl, rfl⟩
  · intro events event history session next hfollows hnext _ halerts
    have hstep := Session.step_announces hnext
    rw [hfollows.settings] at hstep
    have hcount : ∀ sounds : WindowEvent → Bool,
        (events ++ [event]).countP sounds = events.countP sounds + (sounds event).toNat := by
      intro sounds
      rw [List.countP_append, List.countP_singleton]
      cases sounds event <;> rfl
    rw [popups, outputs_snoc, hcount, hcount]
    exact halerts.trans hstep

/-- In every reachable state the popups shown so far are those of the ringing
calls and the notifications that came while popups of their kind were enabled, in
their order, and the sounds played are those of the items that found their sound
at its end. -/
theorem alerts_of_run (dates : QDateTimeText) (initial : Settings) (events : List WindowEvent) :
    ∃ session, run (Session.step dates) (Session.new initial) events = .ok session ∧
      session.window.trayMessages = popups initial events ∧
      session.window.soundPlays = events.countP WindowEvent.soundsCall ∧
      session.window.soundNotifPlays = events.countP WindowEvent.soundsNotification := by
  obtain ⟨session, hrun, -, halerts⟩ := Session.run_alerts dates initial events
  refine ⟨session, hrun, halerts.trayMessages, ?_, ?_⟩
  · rw [halerts.soundPlays]
    exact Nat.zero_add _
  · rw [halerts.soundNotifPlays]
    exact Nat.zero_add _

end BBNotifier
