import BBNotifier.Window.Notifications

/-! # The length of the lists

A list is cut to the limit when an item is added to it, and at no other time. A
lower limit therefore takes effect on each list with the next item for it.
-/

namespace BBNotifier

open Foundation

/-- The limit in force when the last item was added to a list, unless the list
was cleared since. -/
def limitWhenAdded (isAdded isClear : WindowEvent → Bool) (initial : Settings)
    (events : List WindowEvent) : Option Int :=
  go events.reverse
where
  go : List WindowEvent → Option Int
  | [] => none
  | event :: before =>
      if isClear event then none
      else if isAdded event then some (settingsIn initial before.reverse).maxItemsCount
      else go before

/-- The number of items a list can hold under a limit, none before the first. -/
def mostItems : Option Int → Int
  | none => 0
  | some maxItemsCount => max 1 maxItemsCount

section

variable {isAdded isClear : WindowEvent → Bool} {initial : Settings}
  {events : List WindowEvent} {event : WindowEvent}

theorem limitWhenAdded_snoc :
    limitWhenAdded isAdded isClear initial (events ++ [event]) =
      if isClear event then none
      else if isAdded event then some (settingsIn initial events).maxItemsCount
      else limitWhenAdded isAdded isClear initial events := by
  rw [limitWhenAdded, List.reverse_append, List.reverse_singleton, List.singleton_append,
    limitWhenAdded.go, List.reverse_reverse]
  rfl

/-- A list that is emptied by a clear, cut when an item is added and otherwise
left as long as it is keeps to the limit. -/
theorem length_le_mostItems {before after : List QString}
    (hbefore : (before.length : Int) ≤ mostItems (limitWhenAdded isAdded isClear initial events))
    (hclear : isClear event = true → after = [])
    (hadded : isClear event = false → isAdded event = true →
      (after.length : Int) ≤ max 1 (settingsIn initial events).maxItemsCount)
    (hother : isClear event = false → isAdded event = false → after.length = before.length) :
    (after.length : Int) ≤
      mostItems (limitWhenAdded isAdded isClear initial (events ++ [event])) := by
  rw [limitWhenAdded_snoc]
  cases hisClear : isClear event with
  | true =>
      rw [hclear hisClear, if_pos rfl]
      exact le_refl _
  | false =>
      rw [if_neg Bool.false_ne_true]
      cases hisAdded : isAdded event with
      | true =>
          rw [if_pos rfl]
          exact hadded hisClear hisAdded
      | false =>
          rw [if_neg Bool.false_ne_true, hother hisClear hisAdded]
          exact hbefore

/-- A limit that is not lower lets the list be. -/
theorem mostItems_le {limit : Option Int} {maxItemsCount : Int}
    (h : ∀ added ∈ limit, added ≤ maxItemsCount) : mostItems limit ≤ max 1 maxItemsCount := by
  cases limit with
  | none => exact le_trans (by decide) (le_max_left 1 maxItemsCount)
  | some added => exact max_le_max le_rfl (h added rfl)

end

/-! ## The history list -/

def WindowEvent.isRing (event : WindowEvent) : Bool := event.ring?.isSome

namespace CallHistory

variable {event : WindowEvent} (maxItemsCount : Int) (history : CallHistory)

theorem after_of_clear (hclear : event.isHistoryClear = true) :
    history.after maxItemsCount event = .empty := by
  cases event with
  | btnClearHistoryClicked currentIndex surroundings =>
      exact if_neg (by simpa [WindowEvent.isHistoryClear] using hclear)
  | newCall | change | settingsChanged => cases hclear

theorem length_after_of_ring (hring : event.isRing = true) :
    (history.after maxItemsCount event).entries.length ≤ capacity maxItemsCount := by
  cases event with
  | newCall data surroundings =>
      cases htype : data.val.type with
      | ringingCall =>
          simp only [after, handle, htype]
          exact RecencyMap.length_push_le _ data history
      | offhookCall | notification | empty =>
          simp [WindowEvent.isRing, WindowEvent.ring?, htype] at hring
  | btnClearHistoryClicked | change | settingsChanged => cases hring

theorem length_after_of_other (hclear : event.isHistoryClear = false)
    (hring : event.isRing = false) :
    (history.after maxItemsCount event).entries.length = history.entries.length := by
  cases event with
  | newCall data surroundings =>
      cases htype : data.val.type with
      | ringingCall => simp [WindowEvent.isRing, WindowEvent.ring?, htype] at hring
      | offhookCall =>
          simp only [after, handle, htype]
          exact List.length_map _
      | notification | empty =>
          simp only [after, handle, htype]
  | btnClearHistoryClicked currentIndex surroundings =>
      rw [after, if_pos (by simpa [WindowEvent.isHistoryClear] using hclear)]
  | change | settingsChanged => rfl

end CallHistory

/-! ## Both lists over whole runs -/

/-- Each list holds no more items than the limit allowed when an item was last
added to it. -/
structure KeepsLimits (initial : Settings) (events : List WindowEvent) (window : CMainWnd) :
    Prop where
  listHistory : (window.listHistory.length : Int) ≤
    mostItems (limitWhenAdded WindowEvent.isRing WindowEvent.isHistoryClear initial events)
  listNotifications : (window.listNotifications.length : Int) ≤
    mostItems (limitWhenAdded (·.notification?.isSome) WindowEvent.isNotificationsClear
      initial events)

theorem Session.run_limits (dates : QDateTimeText) (initial : Settings)
    (events : List WindowEvent) :
    ∃ session, run (Session.step dates) (Session.new initial) events = .ok session ∧
      (∃ history, session.Follows dates initial events history) ∧
      KeepsLimits initial events session.window := by
  apply Session.run_law
  · exact ⟨le_refl 0, le_refl 0⟩
  intro events event history session next hfollows hnext hfollows' hlimits
  have hcapacity : (CallHistory.capacity (settingsIn initial events).maxItemsCount : Int) =
      max 1 (settingsIn initial events).maxItemsCount := by
    rw [CallHistory.capacity]
    omega
  constructor
  · have hlength := hlimits.listHistory
    rw [hfollows.shows.listHistory] at hlength
    rw [hfollows'.shows.listHistory]
    apply length_le_mostItems hlength
    · intro hclear
      rw [CallHistory.after_of_clear _ _ hclear]
      rfl
    · intro _ hring
      rw [← hcapacity, CallHistory.texts, List.length_map, Nat.cast_le]
      exact CallHistory.length_after_of_ring _ history hring
    · intro hclear hring
      simp only [CallHistory.texts, List.length_map]
      exact CallHistory.length_after_of_other _ history hclear hring
  · rw [Session.step_listNotifications hnext, hfollows.settings]
    apply length_le_mostItems hlimits.listNotifications
    · exact notificationsAfter_of_clear dates _ _
    · intro _ hadded
      obtain ⟨data, hdata⟩ := Option.isSome_iff_exists.mp hadded
      rw [(notificationsAfter_notification dates _ _ hdata).1, ← hcapacity, Nat.cast_le]
      exact min_le_right _ _
    · intro hclear hdata
      rw [notificationsAfter_of_other _ _ hclear (by simpa using hdata)]

/-- In every reachable state each list holds no more items than the limit
allowed when an item was last added to it, and therefore no more than the limit
in force allows unless that is lower. -/
theorem list_lengths_of_run (dates : QDateTimeText) (initial : Settings)
    (events : List WindowEvent) :
    ∃ session, run (Session.step dates) (Session.new initial) events = .ok session ∧
      KeepsLimits initial events session.window ∧
      ((∀ maxItemsCount ∈ limitWhenAdded WindowEvent.isRing WindowEvent.isHistoryClear
          initial events, maxItemsCount ≤ session.settings.maxItemsCount) →
        (session.window.listHistory.length : Int) ≤ max 1 session.settings.maxItemsCount) ∧
      ((∀ maxItemsCount ∈ limitWhenAdded (·.notification?.isSome)
          WindowEvent.isNotificationsClear initial events,
          maxItemsCount ≤ session.settings.maxItemsCount) →
        (session.window.listNotifications.length : Int) ≤
          max 1 session.settings.maxItemsCount) := by
  obtain ⟨session, hrun, -, hlimits⟩ := Session.run_limits dates initial events
  refine ⟨session, hrun, hlimits, ?_, ?_⟩
  · intro hlowered
    exact hlimits.listHistory.trans (mostItems_le hlowered)
  · intro hlowered
    exact hlimits.listNotifications.trans (mostItems_le hlowered)

/-- Two notifications are still listed when the limit is lowered to one. -/
theorem not_lists_within_limit :
    ¬ ∀ (dates : QDateTimeText) (initial : Settings) (events : List WindowEvent)
        (session : Session),
      (∀ settings, .settingsChanged settings ∈ events →
        1 ≤ settings.maxItemsCount ∧ settings.maxItemsCount ≤ 100) →
      run (Session.step dates) (Session.new initial) events = .ok session →
      (session.window.listHistory.length : Int) ≤ max 1 session.settings.maxItemsCount ∧
        (session.window.listNotifications.length : Int) ≤
          max 1 session.settings.maxItemsCount := by
  intro hall
  have hlengths := hall CNotificationItem.tallyDates ⟨8083, .zero, true, true, 2⟩
    [.newCall ⟨⟨.lit "Mail", [], .lit "Hi", none, none, .notification⟩,
        ⟨by decide, by decide, by decide⟩⟩ ⟨fun _ => 0, true, true⟩,
      .newCall ⟨⟨.lit "Mail", [], .lit "Hi", none, none, .notification⟩,
        ⟨by decide, by decide, by decide⟩⟩ ⟨fun _ => 0, true, true⟩,
      .settingsChanged ⟨8083, .zero, true, true, 1⟩] _ (by simp) rfl
  exact absurd hlengths.2 (by decide)

end BBNotifier
