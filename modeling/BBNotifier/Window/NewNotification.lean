import BBNotifier.Window.Notifications

/-! # The indicator for new notifications

The flag is set by a notification and reset only by a change event of the
active window. Clearing the tab of notifications does not reset it, so that it
is left over when notifications are cleared before such an event.
-/

namespace BBNotifier

open Foundation

/-- In every state on the way, a set flag has a listed notification. -/
def FlagHasNotification (dates : QDateTimeText) (initial : Settings)
    (events : List WindowEvent) : Prop :=
  ∀ front back session, events = front ++ back →
    run (Session.step dates) (Session.new initial) front = .ok session →
      session.window.hasNewNotificationCame = true → session.window.listNotifications ≠ []

/-- Wherever the tab of notifications is cleared, the window was active after
the last notification. -/
def ClearedAfterSeen (events : List WindowEvent) : Prop :=
  ∀ front event back, events = front ++ event :: back → event.isNotificationsClear = true →
    notifiedSinceActive front = false

theorem ClearedAfterSeen.of_append {events more : List WindowEvent}
    (h : ClearedAfterSeen (events ++ more)) : ClearedAfterSeen events := by
  intro front event back hevents
  apply h front event (back ++ more)
  rw [hevents, List.append_assoc, List.cons_append]

section

variable {events : List WindowEvent} {event : WindowEvent}

theorem flagAfter_of_clear (hclear : event.isNotificationsClear = true) (flag : Bool) :
    event.flagAfter flag = flag := by
  cases event with
  | btnClearHistoryClicked => rfl
  | newCall | change | settingsChanged => cases hclear

theorem flag_of_flagAfter (hdata : event.notification? = none) {flag : Bool}
    (h : event.flagAfter flag = true) : flag = true := by
  cases event with
  | newCall data surroundings =>
      have htype : data.val.type ≠ .notification := by
        intro htype
        cases (if_pos htype).symm.trans hdata
      simpa [WindowEvent.flagAfter, htype] using h
  | change isActiveWindow surroundings => exact (Bool.and_eq_true_iff.mp h).1
  | btnClearHistoryClicked | settingsChanged => exact h

/-- A set flag keeps its notification, where a clear finds the flag reset. -/
theorem notificationsAfter_ne_nil (dates : QDateTimeText) (maxItemsCount : Int)
    {texts : List QString} {flag : Bool} (hflag : event.flagAfter flag = true)
    (hlisted : flag = true → texts ≠ [])
    (hseen : event.isNotificationsClear = true → flag = false) :
    event.notificationsAfter dates maxItemsCount texts ≠ [] := by
  cases hdata : event.notification? with
  | some data =>
      intro hnil
      have hlast := (notificationsAfter_notification dates maxItemsCount texts hdata).2
      rw [hnil] at hlast
      contradiction
  | none =>
      have hset := flag_of_flagAfter hdata hflag
      cases hclear : event.isNotificationsClear with
      | true => exact absurd (hseen hclear) (by simp [hset])
      | false =>
          rw [notificationsAfter_of_other maxItemsCount texts hclear hdata]
          exact hlisted hset

end

/-- The flag after a run whose clears find it reset. -/
theorem Session.run_flag (dates : QDateTimeText) (initial : Settings)
    (events : List WindowEvent) :
    ∃ session, run (Session.step dates) (Session.new initial) events = .ok session ∧
      (∃ history, session.Follows dates initial events history) ∧
      (ClearedAfterSeen events → session.window.hasNewNotificationCame = true →
        session.window.listNotifications ≠ []) := by
  apply Session.run_law (fun events session => ClearedAfterSeen events →
    session.window.hasNewNotificationCame = true → session.window.listNotifications ≠ [])
  · intro _ hflag
    cases hflag
  · intro events event history session next hfollows hnext hfollows' hlisted hseen hflag
    rw [hfollows'.flag, notifiedSinceActive_snoc, ← hfollows.flag] at hflag
    rw [Session.step_listNotifications hnext]
    apply notificationsAfter_ne_nil dates _ hflag (hlisted hseen.of_append)
    intro hclear
    rw [hfollows.flag]
    exact hseen events event [] rfl hclear

/-- In every run, a set flag always has a listed notification exactly when the
tab of notifications is cleared only after the window was active. -/
theorem flag_has_notification_iff (dates : QDateTimeText) (initial : Settings)
    (events : List WindowEvent) :
    FlagHasNotification dates initial events ↔ ClearedAfterSeen events := by
  constructor
  · intro hflag front event back hevents hclear
    obtain ⟨session, hrun, history, hfollows⟩ := Session.run_follows dates initial front
    obtain ⟨next, hnext, hfollows'⟩ := hfollows.step event
    have hrun' : run (Session.step dates) (Session.new initial) (front ++ [event]) =
        .ok next := by
      rw [run_snoc, hrun]
      exact hnext
    have hlisted := hflag (front ++ [event]) back next (by simp [hevents]) hrun'
    rw [Session.step_listNotifications hnext, notificationsAfter_of_clear _ _ _ hclear,
      hfollows'.flag, notifiedSinceActive_snoc, flagAfter_of_clear hclear] at hlisted
    -- The list is empty now, so the flag was not set.
    exact Bool.eq_false_iff.mpr fun hset => hlisted hset rfl
  · intro hseen front back session hevents hrun
    rw [hevents] at hseen
    obtain ⟨reached, hreached, -, hlisted⟩ := Session.run_flag dates initial front
    obtain rfl := Except.ok.inj (hreached.symm.trans hrun)
    exact hlisted hseen.of_append

/-- A notification is cleared before the window is active again. -/
theorem not_flag_has_notification :
    ¬ ∀ (dates : QDateTimeText) (initial : Settings) (events : List WindowEvent),
      FlagHasNotification dates initial events := by
  intro hall
  exact hall CNotificationItem.tallyDates ⟨8083, .zero, true, true, 20⟩
    [.newCall ⟨⟨.lit "Mail", [], .lit "Hi", none, none, .notification⟩,
        ⟨by decide, by decide, by decide⟩⟩ ⟨fun _ => 0, true, true⟩,
      .btnClearHistoryClicked 0 ⟨fun _ => 0, true, true⟩]
    _ [] _ (List.append_nil _).symm rfl rfl rfl

end BBNotifier
