import BBNotifier.Window.HistoryRefinement

/-! # The list of notifications

Only a notification and a clear of its tab touch the list of notifications. The
list is therefore what is left of the notifications since the last clear when
the oldest are dropped, however the limit changes on the way.
-/

namespace BBNotifier

open Foundation

/-! ## What the handlers leave in place -/

namespace CMainWnd

variable {dates : QDateTimeText} {window next : CMainWnd}

theorem refreshTrayIconStatus_eq_ok {heap : Memory}
    (h : window.refreshTrayIconStatus dates heap = .ok next) :
    ∃ icon, next = { window with windowIcon := icon, trayIcon := icon } := by
  obtain ⟨ringing, -, h⟩ := bind_eq_ok.mp h
  exact ⟨_, (Except.ok.inj h).symm⟩

theorem addNewCall_eq_ok {heap : Memory} {settings : Settings} {data : CNotificationItem}
    (h : window.addNewCall dates heap settings data = .ok next) :
    ∃ listHistory, next = { window with listHistory } := by
  obtain ⟨listHistory, -, h⟩ := bind_eq_ok.mp h
  exact ⟨_, (Except.ok.inj h).symm⟩

theorem markCallAccepted_eq_ok {heap : Memory} {data : CNotificationItem}
    (h : window.markCallAccepted dates heap data = .ok next) :
    ∃ listHistory, next = { window with listHistory } := by
  obtain ⟨listHistory, -, h⟩ := bind_eq_ok.mp h
  exact ⟨_, (Except.ok.inj h).symm⟩

theorem onRingingCall_listNotifications {surroundings : Surroundings} {settings : Settings}
    {data : CNotificationItem}
    (h : window.onRingingCall dates surroundings settings data = .ok next) :
    next.listNotifications = window.listNotifications := by
  obtain ⟨added, hadded, h⟩ := bind_eq_ok.mp h
  obtain ⟨listHistory, rfl⟩ := addNewCall_eq_ok hadded
  rw [← Except.ok.inj h]
  split <;> split <;> rfl

theorem onNotification_listNotifications (surroundings : Surroundings) (settings : Settings)
    (data : ParsedItem) (window : CMainWnd) :
    (window.onNotification dates surroundings settings data.val).listNotifications =
      (window.listNotifications ++ [data.text dates]).rtake
        (CallHistory.capacity settings.maxItemsCount) := by
  rw [← dropOldest_eq_rtake]
  unfold onNotification
  split <;> split <;> rfl

end CMainWnd

namespace WindowEvent

def isNotificationsClear : WindowEvent → Bool
  | btnClearHistoryClicked currentIndex _ => currentIndex = 0
  | _ => false

/-- The item of a notification. -/
def notification? : WindowEvent → Option ParsedItem
  | newCall data _ => if data.val.type = .notification then some data else none
  | _ => none

/-- The list of notifications after an event. -/
def notificationsAfter (dates : QDateTimeText) (maxItemsCount : Int) (event : WindowEvent)
    (texts : List QString) : List QString :=
  if event.isNotificationsClear then []
  else match event.notification? with
    | some data => (texts ++ [data.text dates]).rtake (CallHistory.capacity maxItemsCount)
    | none => texts

end WindowEvent

theorem CMainWnd.onNewCall_listNotifications {dates : QDateTimeText} {window next : CMainWnd}
    {surroundings : Surroundings} {settings : Settings} {data : ParsedItem}
    (h : window.onNewCall dates surroundings settings data.val = .ok next) :
    next.listNotifications =
      (WindowEvent.newCall data surroundings).notificationsAfter dates settings.maxItemsCount
        window.listNotifications := by
  rw [WindowEvent.notificationsAfter, if_neg (by exact Bool.false_ne_true),
    WindowEvent.notification?]
  unfold onNewCall at h
  cases htype : data.val.type with
  | ringingCall =>
      simp only [htype] at h
      obtain ⟨handled, hhandled, h⟩ := bind_eq_ok.mp h
      obtain ⟨icon, rfl⟩ := refreshTrayIconStatus_eq_ok h
      have hsame := onRingingCall_listNotifications hhandled
      exact hsame
  | offhookCall =>
      simp only [htype] at h
      obtain ⟨handled, hhandled, h⟩ := bind_eq_ok.mp h
      obtain ⟨icon, rfl⟩ := refreshTrayIconStatus_eq_ok h
      obtain ⟨listHistory, rfl⟩ := markCallAccepted_eq_ok hhandled
      rfl
  | notification =>
      simp only [htype] at h
      obtain ⟨icon, rfl⟩ := refreshTrayIconStatus_eq_ok h
      exact onNotification_listNotifications surroundings settings data window
  | empty =>
      simp only [htype] at h
      obtain ⟨icon, rfl⟩ := refreshTrayIconStatus_eq_ok h
      rfl

/-- Of all events only notifications and the clear of their tab change the
list of notifications. -/
theorem Session.step_listNotifications {dates : QDateTimeText} {session next : Session}
    {event : WindowEvent} (h : session.step dates event = .ok next) :
    next.window.listNotifications =
      event.notificationsAfter dates session.settings.maxItemsCount
        session.window.listNotifications := by
  cases event with
  | newCall data surroundings =>
      obtain ⟨window, hwindow, h⟩ := bind_eq_ok.mp h
      obtain rfl := Except.ok.inj h
      exact CMainWnd.onNewCall_listNotifications hwindow
  | btnClearHistoryClicked currentIndex surroundings =>
      obtain ⟨window, hwindow, h⟩ := bind_eq_ok.mp h
      obtain rfl := Except.ok.inj h
      obtain ⟨icon, rfl⟩ := CMainWnd.refreshTrayIconStatus_eq_ok hwindow
      by_cases hindex : currentIndex = 0
      · simp [WindowEvent.notificationsAfter, WindowEvent.isNotificationsClear, hindex]
      · simp [WindowEvent.notificationsAfter, WindowEvent.isNotificationsClear,
          WindowEvent.notification?, hindex]
  | change isActiveWindow surroundings =>
      obtain ⟨window, hwindow, h⟩ := bind_eq_ok.mp h
      obtain rfl := Except.ok.inj h
      cases isActiveWindow with
      | false =>
          obtain rfl := Except.ok.inj hwindow
          rfl
      | true =>
          obtain ⟨icon, rfl⟩ := CMainWnd.refreshTrayIconStatus_eq_ok hwindow
          rfl
  | settingsChanged settings =>
      obtain rfl := Except.ok.inj h
      rfl

/-! ## The list follows the events -/

/-- The texts of the notifications received since the last clear of their tab. -/
def notificationTexts (dates : QDateTimeText) (events : List WindowEvent) : List QString :=
  ((events.rtakeWhile (! ·.isNotificationsClear)).filterMap WindowEvent.notification?).map
    (ParsedItem.text dates)

section

variable {dates : QDateTimeText} {events : List WindowEvent} {event : WindowEvent}

theorem notificationTexts_snoc (hclear : event.isNotificationsClear = false) :
    notificationTexts dates (events ++ [event]) =
      notificationTexts dates events ++ event.notification?.toList.map (ParsedItem.text dates) := by
  rw [notificationTexts, List.rtakeWhile_concat_pos _ _ _ (by simp [hclear]),
    List.filterMap_append, List.map_append, ← notificationTexts]
  cases hdata : event.notification? with
  | none => simp [hdata]
  | some data => simp [hdata]

/-- A suffix of the texts stays one. -/
theorem notificationsAfter_suffix {texts : List QString} (maxItemsCount : Int)
    (h : texts <:+ notificationTexts dates events) :
    event.notificationsAfter dates maxItemsCount texts <:+
      notificationTexts dates (events ++ [event]) := by
  rw [WindowEvent.notificationsAfter]
  cases hclear : event.isNotificationsClear with
  | true =>
      rw [if_pos rfl]
      exact List.nil_suffix
  | false =>
      rw [if_neg Bool.false_ne_true, notificationTexts_snoc hclear]
      cases hdata : event.notification? with
      | none => simpa using h
      | some data =>
          obtain ⟨lost, hlost⟩ := h
          have happended : texts ++ [data.text dates] <:+
              notificationTexts dates events ++ [data.text dates] :=
            ⟨lost, by rw [← hlost, List.append_assoc]⟩
          exact (List.drop_suffix _ _).trans happended

theorem notificationsAfter_of_clear (dates : QDateTimeText) (maxItemsCount : Int)
    (texts : List QString) (hclear : event.isNotificationsClear = true) :
    event.notificationsAfter dates maxItemsCount texts = [] :=
  if_pos hclear

theorem notificationsAfter_of_other (maxItemsCount : Int) (texts : List QString)
    (hclear : event.isNotificationsClear = false) (hdata : event.notification? = none) :
    event.notificationsAfter dates maxItemsCount texts = texts := by
  rw [WindowEvent.notificationsAfter, hclear, if_neg Bool.false_ne_true, hdata]

/-- A notification is listed last, after as many of the others as fit. -/
theorem notificationsAfter_notification (dates : QDateTimeText) (maxItemsCount : Int)
    (texts : List QString) {data : ParsedItem} (hdata : event.notification? = some data) :
    (event.notificationsAfter dates maxItemsCount texts).length =
        min (texts.length + 1) (CallHistory.capacity maxItemsCount) ∧
      (event.notificationsAfter dates maxItemsCount texts).getLast? = some (data.text dates) := by
  have hclear : event.isNotificationsClear = false := by
    cases event with
    | newCall => rfl
    | btnClearHistoryClicked | change | settingsChanged => cases hdata
  have hpos := CallHistory.capacity_pos maxItemsCount
  rw [WindowEvent.notificationsAfter, hclear, if_neg Bool.false_ne_true, hdata]
  simp only [List.rtake]
  constructor
  · rw [List.length_drop, List.length_append, List.length_singleton]
    omega
  · -- The limit is one at least, so the last text is not dropped.
    rw [List.getLast?_drop, List.length_append, List.length_singleton, if_neg (by omega),
      List.getLast?_concat]

end

/-- No run goes wrong, and the list of notifications ends the notifications
since the last clear of their tab. -/
theorem Session.run_notifications (dates : QDateTimeText) (initial : Settings)
    (events : List WindowEvent) :
    ∃ session, run (Session.step dates) (Session.new initial) events = .ok session ∧
      (∃ history, session.Follows dates initial events history) ∧
      session.window.listNotifications <:+ notificationTexts dates events := by
  apply Session.run_law
  · exact List.nil_suffix
  · intro events event history session next _ hnext _ hsuffix
    rw [Session.step_listNotifications hnext]
    exact notificationsAfter_suffix _ hsuffix

/-- In every reachable state the list of notifications is a suffix of the
notifications since the last clear of their tab. A further one is listed last,
and the list grows by it up to the limit. Other events, but for the clear of the
tab, leave the list as it is. -/
theorem notifications_of_run (dates : QDateTimeText) (initial : Settings)
    (events : List WindowEvent) :
    ∃ session, run (Session.step dates) (Session.new initial) events = .ok session ∧
      session.window.listNotifications <:+ notificationTexts dates events ∧
      (∀ data surroundings, data.val.type = .notification →
        ∃ next, session.step dates (.newCall data surroundings) = .ok next ∧
          (next.window.listNotifications.length : Int) =
            min ((session.window.listNotifications.length : Int) + 1)
              (max 1 session.settings.maxItemsCount) ∧
          next.window.listNotifications.getLast? = some (data.text dates)) ∧
      (∀ event, event.isNotificationsClear = false → event.notification? = none →
        ∃ next, session.step dates event = .ok next ∧
          next.window.listNotifications = session.window.listNotifications) := by
  obtain ⟨session, hrun, ⟨history, hfollows⟩, hsuffix⟩ :=
    Session.run_notifications dates initial events
  refine ⟨session, hrun, hsuffix, ?_, ?_⟩
  · intro data surroundings htype
    obtain ⟨next, hnext, -⟩ := Session.step_shows hfollows.shows (.newCall data surroundings)
    have hdata : (WindowEvent.newCall data surroundings).notification? = some data := if_pos htype
    obtain ⟨hlength, hlast⟩ := notificationsAfter_notification dates
      session.settings.maxItemsCount session.window.listNotifications hdata
    refine ⟨next, hnext, ?_, ?_⟩
    · rw [Session.step_listNotifications hnext, hlength, CallHistory.capacity]
      omega
    · rw [Session.step_listNotifications hnext, hlast]
  · intro event hclear hdata
    obtain ⟨next, hnext, -⟩ := Session.step_shows hfollows.shows event
    refine ⟨next, hnext, ?_⟩
    rw [Session.step_listNotifications hnext, notificationsAfter_of_other _ _ hclear hdata]

end BBNotifier
