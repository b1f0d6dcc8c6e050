import BBNotifier.Window.HistoryRefinement

/-! # The tray icon

The icon is computed from the texts of the history list and the flag for new
notifications. After every handler it says whether some listed phone was last
heard ringing, and whether a notification came since the window was active.
-/

namespace BBNotifier

open Foundation

/-- The list has a missed call exactly when some listed phone was last heard
ringing. -/
theorem CallHistory.Follows.hasRinging_iff {initial : Settings} {events : List WindowEvent}
    {history : CallHistory} (hfollows : history.Follows initial events) :
    history.hasRinging = true ↔
      ∃ phone ∈ history.keys, ∃ call, latestCall events phone = some call ∧
        call.val.type = .ringingCall := by
  rw [CallHistory.hasRinging, List.any_eq_true]
  constructor
  · rintro ⟨entry, hentry, hringing⟩
    exact ⟨entry.phone, List.mem_map_of_mem hentry, entry, hfollows.current entry hentry,
      by simpa using hringing⟩
  · rintro ⟨phone, hphone, call, hlatest, hringing⟩
    obtain ⟨entry, hentry, rfl⟩ := List.mem_map.mp hphone
    -- The entry listed for a phone is its latest call.
    have hsame : entry = call :=
      Option.some.inj ((hfollows.current entry hentry).symm.trans hlatest)
    exact ⟨entry, hentry, by simpa [hsame] using hringing⟩

/-- After every run the icon of the tray and of the window title is two for a
new notification and one for no missed call: no listed phone has a ringing as
its latest call since the last clear, and a notification was handled after the
last change event of the active window. -/
theorem tray_icon_of_run (dates : QDateTimeText) (initial : Settings) (events : List WindowEvent)
    (heap : Memory) :
    ∃ session phones, run (Session.step dates) (Session.new initial) events = .ok session ∧
      phonesOf dates heap session.window.listHistory = .ok phones ∧
      ∃ green : Bool,
        session.window.trayIcon =
          (if session.window.hasNewNotificationCame then 2 else 0) + (if green then 1 else 0) ∧
        session.window.windowIcon = session.window.trayIcon ∧
        (green = true ↔ ¬ ∃ phone ∈ phones, ∃ call, latestCall events phone = some call ∧
          call.val.type = .ringingCall) ∧
        session.window.hasNewNotificationCame = notifiedSinceActive events := by
  obtain ⟨session, hrun, history, hfollows⟩ := Session.run_follows dates initial events
  refine ⟨session, history.keys, hrun, ?_, !history.hasRinging, hfollows.shows.trayIcon,
    hfollows.shows.windowIcon, ?_, hfollows.flag⟩
  · rw [hfollows.shows.listHistory, phonesOf_texts]
  · rw [← hfollows.history.hasRinging_iff, Bool.not_eq_true', Bool.not_eq_true]

end BBNotifier
