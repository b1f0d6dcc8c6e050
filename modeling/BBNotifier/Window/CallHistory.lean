import BBNotifier.Window.MainWnd

/-! # The call history as a recency map

The texts in the history list are those of the entries of a map with one call
for each phone, the latest to ring last. A ringing call is pushed, and pushes
out the oldest phones beyond the limit; an accepted call updates the entry of
its phone where it stands. The map in turn is what the calls since the last
clear of the list say.
-/

namespace BBNotifier

open Foundation

namespace ParsedItem

def phone (item : ParsedItem) : QString := item.val.phone

def text (dates : QDateTimeText) (item : ParsedItem) : QString := item.val.serialize dates

end ParsedItem

/-- One call for each phone. -/
abbrev CallHistory := RecencyMap ParsedItem.phone

namespace CallHistory

/-- The number of calls kept under a limit: one at least. -/
def capacity (maxItemsCount : Int) : Nat := (max 1 maxItemsCount).toNat

theorem capacity_pos (maxItemsCount : Int) : 0 < capacity maxItemsCount := by
  rw [capacity]
  omega

/-- What an incoming item does to the history. -/
def handle (maxItemsCount : Int) (data : ParsedItem) (history : CallHistory) : CallHistory :=
  match data.val.type with
  | .ringingCall => history.push (capacity maxItemsCount) data
  | .offhookCall => history.update data
  | .notification | .empty => history

/-- The texts in the list. -/
def texts (dates : QDateTimeText) (history : CallHistory) : List QString :=
  history.entries.map (ParsedItem.text dates)

end CallHistory

/-! ## The loops over the texts -/

section

variable (dates : QDateTimeText) (heap : Memory)

/-- A listed text is parsed to a call of the same phone and type. -/
theorem parse_text (entry : ParsedItem) :
    ∃ listItem, CNotificationItem.ofSerialized dates heap (entry.text dates) = .ok listItem ∧
      listItem.phone = entry.phone ∧ listItem.type = entry.val.type :=
  CNotificationItem.ofSerialized_serialize_fields dates heap entry.property

theorem hasRinging_map_text (entries : List ParsedItem) :
    CMainWnd.hasRinging dates heap (entries.map (ParsedItem.text dates)) =
      .ok (entries.any (·.val.type = .ringingCall)) := by
  induction entries with
  | nil => rfl
  | cons entry rest ih =>
      obtain ⟨listItem, hparsed, -, htype⟩ := parse_text dates heap entry
      rw [List.map_cons, CMainWnd.hasRinging, hparsed, List.any_cons]
      by_cases hringing : entry.val.type = .ringingCall
      · simp [bind, Except.bind, pure, Except.pure, htype, hringing]
      · simp [bind, Except.bind, htype, hringing, ih]

/-- With each phone listed once, deleting the first match deletes all. -/
theorem deletePhone_map_text (phone : QString) {entries : List ParsedItem}
    (hnodup : (entries.map ParsedItem.phone).Nodup) :
    CMainWnd.deletePhone dates heap phone (entries.map (ParsedItem.text dates)) =
      .ok ((entries.filter (·.phone ≠ phone)).map (ParsedItem.text dates)) := by
  induction entries with
  | nil => rfl
  | cons entry rest ih =>
      obtain ⟨hnot, hrest⟩ := List.nodup_cons.mp hnodup
      obtain ⟨listItem, hparsed, hphone, -⟩ := parse_text dates heap entry
      rw [List.map_cons, CMainWnd.deletePhone, hparsed]
      by_cases hmatch : entry.phone = phone
      · have hall : rest.filter (·.phone ≠ phone) = rest := by
          rw [List.filter_eq_self]
          intro other hother
          have hne : other.phone ≠ phone := fun heq =>
            hnot (hmatch.trans heq.symm ▸ List.mem_map_of_mem hother)
          simpa using hne
        have hlistItem : listItem.phone = phone := hphone.trans hmatch
        rw [List.filter_cons_of_neg (by simpa using hmatch), hall]
        simp [bind, Except.bind, pure, Except.pure, hlistItem]
      · have hlistItem : listItem.phone ≠ phone := fun heq => hmatch (hphone.symm.trans heq)
        rw [List.filter_cons_of_pos (by simpa using hmatch), List.map_cons]
        simp [bind, Except.bind, pure, Except.pure, hlistItem, ih hrest]

/-- With each phone listed once, overwriting the first match is updating the
entry of the phone. -/
theorem replacePhone_map_text (data : ParsedItem) {entries : List ParsedItem}
    (hnodup : (entries.map ParsedItem.phone).Nodup) :
    CMainWnd.replacePhone dates heap data.phone (data.text dates)
        (entries.map (ParsedItem.text dates)) =
      .ok ((entries.map fun old => if old.phone = data.phone then data else old).map
        (ParsedItem.text dates)) := by
  induction entries with
  | nil => rfl
  | cons entry rest ih =>
      obtain ⟨hnot, hrest⟩ := List.nodup_cons.mp hnodup
      obtain ⟨listItem, hparsed, hphone, -⟩ := parse_text dates heap entry
      rw [List.map_cons, CMainWnd.replacePhone, hparsed]
      by_cases hmatch : entry.phone = data.phone
      · have hall : (rest.map fun old => if old.phone = data.phone then data else old) = rest := by
          conv_rhs => rw [← List.map_id rest]
          apply List.map_congr_left
          intro other hother
          have hne : other.phone ≠ data.phone := fun heq =>
            hnot (hmatch.trans heq.symm ▸ List.mem_map_of_mem hother)
          rw [if_neg hne, id_eq]
        have hlistItem : listItem.phone = data.phone := hphone.trans hmatch
        rw [List.map_cons, if_pos hmatch, hall]
        simp [bind, Except.bind, pure, Except.pure, hlistItem]
      · have hlistItem : listItem.phone ≠ data.phone := fun heq => hmatch (hphone.symm.trans heq)
        rw [List.map_cons, if_neg hmatch, List.map_cons]
        simp [bind, Except.bind, pure, Except.pure, hlistItem, ih hrest]

end

/-- The loop keeps the newest items. -/
theorem dropOldest_eq_rtake (maxItemsCount : Int) (texts : List QString) :
    CMainWnd.dropOldest maxItemsCount texts = texts.rtake (CallHistory.capacity maxItemsCount) := by
  induction texts with
  | nil => simp [CMainWnd.dropOldest, List.rtake]
  | cons first rest ih =>
      rw [CMainWnd.dropOldest]
      have hlength : (first :: rest).length = rest.length + 1 := rfl
      split
      next hdrop =>
        rw [ih]
        apply rtake_eq_of_suffix (List.suffix_cons first rest)
        rw [CallHistory.capacity]
        omega
      next hkeep =>
        rw [List.rtake, Nat.sub_eq_zero_of_le, List.drop_zero]
        rw [hlength, CallHistory.capacity]
        omega

/-! ## The handlers -/

namespace CallHistory

def hasRinging (history : CallHistory) : Bool :=
  history.entries.any (·.val.type = .ringingCall)

/-- What one event does to the history. -/
def after (maxItemsCount : Int) (event : WindowEvent) (history : CallHistory) : CallHistory :=
  match event with
  | .newCall data _ => history.handle maxItemsCount data
  | .btnClearHistoryClicked currentIndex _ => if currentIndex = 0 then history else .empty
  | .change _ _ | .settingsChanged _ => history

end CallHistory

/-- The window lists the calls of a history, and its icons tell whether one of
them is still missed. -/
structure CMainWnd.Shows (dates : QDateTimeText) (history : CallHistory) (window : CMainWnd) :
    Prop where
  listHistory : window.listHistory = history.texts dates
  trayIcon : window.trayIcon =
    CMainWnd.iconNum window.hasNewNotificationCame (!history.hasRinging)
  windowIcon : window.windowIcon = window.trayIcon

namespace WindowEvent

/-- The flag for new notifications after an event. -/
def flagAfter : WindowEvent → Bool → Bool
  | newCall data _, flag => flag || data.val.type = .notification
  | change isActiveWindow _, flag => flag && !isActiveWindow
  | btnClearHistoryClicked _ _, flag | settingsChanged _, flag => flag

/-- The settings in force after an event. -/
def settingsAfter : WindowEvent → Settings → Settings
  | settingsChanged settings, _ => settings
  | newCall _ _, settings | btnClearHistoryClicked _ _, settings | change _ _, settings => settings

end WindowEvent

namespace CMainWnd

variable {dates : QDateTimeText} {history : CallHistory} {window : CMainWnd}

theorem new_shows (dates : QDateTimeText) : new.Shows dates .empty := ⟨rfl, rfl, rfl⟩

theorem refreshTrayIconStatus_eq (heap : Memory)
    (hlist : window.listHistory = history.texts dates) :
    window.refreshTrayIconStatus dates heap = .ok { window with
      windowIcon := iconNum window.hasNewNotificationCame (!history.hasRinging)
      trayIcon := iconNum window.hasNewNotificationCame (!history.hasRinging) } := by
  rw [refreshTrayIconStatus, hlist, CallHistory.texts, hasRinging_map_text]
  rfl

/-- Whatever changed before, the refresh makes the icons right. -/
theorem refreshTrayIconStatus_shows (heap : Memory)
    (hlist : window.listHistory = history.texts dates) :
    ∃ next, window.refreshTrayIconStatus dates heap = .ok next ∧ next.Shows dates history ∧
      next.hasNewNotificationCame = window.hasNewNotificationCame :=
  ⟨_, refreshTrayIconStatus_eq heap hlist, ⟨hlist, rfl, rfl⟩, rfl⟩

theorem addNewCall_eq (heap : Memory) (settings : Settings) (data : ParsedItem)
    (hlist : window.listHistory = history.texts dates) :
    window.addNewCall dates heap settings data.val = .ok { window with
      listHistory := CallHistory.texts dates
        (history.push (CallHistory.capacity settings.maxItemsCount) data) } := by
  have hdelete := deletePhone_map_text dates heap data.phone history.nodup
  have hkept : dropOldest settings.maxItemsCount
      ((history.entries.filter (·.phone ≠ data.phone)).map (ParsedItem.text dates) ++
        [data.text dates]) =
      CallHistory.texts dates
        (history.push (CallHistory.capacity settings.maxItemsCount) data) := by
    rw [dropOldest_eq_rtake, CallHistory.texts, RecencyMap.push, map_rtake, List.map_append]
    rfl
  rw [addNewCall, hlist, ← hkept]
  exact congrArg (· >>= _) hdelete

theorem markCallAccepted_eq (heap : Memory) (data : ParsedItem)
    (hlist : window.listHistory = history.texts dates) :
    window.markCallAccepted dates heap data.val =
      .ok { window with listHistory := CallHistory.texts dates (history.update data) } := by
  have hreplace := replacePhone_map_text dates heap data history.nodup
  rw [markCallAccepted, hlist]
  exact congrArg (· >>= _) hreplace

theorem onRingingCall_lists (surroundings : Surroundings) (settings : Settings)
    (data : ParsedItem) (hlist : window.listHistory = history.texts dates) :
    ∃ next, window.onRingingCall dates surroundings settings data.val = .ok next ∧
      next.listHistory = CallHistory.texts dates
        (history.push (CallHistory.capacity settings.maxItemsCount) data) ∧
      next.hasNewNotificationCame = window.hasNewNotificationCame := by
  unfold onRingingCall
  generalize hshown : (if settings.shouldShowCallPopup then window.showMessage (.lit "Phone call")
    (data.val.name ++ QString.newline :: data.val.phone) else window) = shown
  have hshownList : shown.listHistory = history.texts dates := by
    rw [← hshown]
    split <;> exact hlist
  have hshownFlag : shown.hasNewNotificationCame = window.hasNewNotificationCame := by
    rw [← hshown]
    split <;> rfl
  simp only
  rw [addNewCall_eq surroundings.heap settings data hshownList]
  -- The sound changes neither the lists nor the flag.
  refine ⟨_, rfl, ?_, ?_⟩
  · split <;> rfl
  · split <;> exact hshownFlag

theorem onNotification_lists (surroundings : Surroundings) (settings : Settings)
    (data : CNotificationItem) (window : CMainWnd) :
    (window.onNotification dates surroundings settings data).listHistory = window.listHistory ∧
      (window.onNotification dates surroundings settings data).hasNewNotificationCame = true := by
  unfold onNotification
  split <;> split <;> exact ⟨rfl, rfl⟩

/-- An incoming item does to the list what it does to the history. The list
of calls and the flag are settled before the refresh. -/
theorem onNewCall_shows (surroundings : Surroundings) (settings : Settings) (data : ParsedItem)
    (hlist : window.listHistory = history.texts dates) :
    ∃ next, window.onNewCall dates surroundings settings data.val = .ok next ∧
      next.Shows dates (history.handle settings.maxItemsCount data) ∧
      next.hasNewNotificationCame =
        (window.hasNewNotificationCame || decide (data.val.type = .notification)) := by
  have hhandled : ∃ handled : CMainWnd,
      window.onNewCall dates surroundings settings data.val =
        handled.refreshTrayIconStatus dates surroundings.heap ∧
      handled.listHistory = (history.handle settings.maxItemsCount data).texts dates ∧
      handled.hasNewNotificationCame =
        (window.hasNewNotificationCame || decide (data.val.type = .notification)) := by
    unfold onNewCall CallHistory.handle
    cases htype : data.val.type with
    | ringingCall =>
        obtain ⟨handled, hringing, hhistory, hflag⟩ :=
          onRingingCall_lists surroundings settings data hlist
        simp only
        rw [hringing]
        exact ⟨handled, rfl, hhistory, by simpa using hflag⟩
    | offhookCall =>
        rw [markCallAccepted_eq surroundings.heap data hlist]
        exact ⟨_, rfl, rfl, by simp⟩
    | notification =>
        have hlists := @onNotification_lists dates surroundings settings data.val window
        exact ⟨_, rfl, hlists.1.trans hlist, by simpa using hlists.2⟩
    | empty => exact ⟨window, rfl, hlist, by simp⟩
  obtain ⟨handled, hnewCall, hhistory, hflag⟩ := hhandled
  obtain ⟨next, hrefresh, hshows, hsame⟩ :=
    refreshTrayIconStatus_shows surroundings.heap hhistory
  exact ⟨next, hnewCall.trans hrefresh, hshows, hsame.trans hflag⟩

/-- Icons that are right stay. -/
theorem refreshTrayIconStatus_of_shows (heap : Memory) (hshows : window.Shows dates history) :
    window.refreshTrayIconStatus dates heap = .ok window := by
  rw [refreshTrayIconStatus_eq heap hshows.listHistory, ← hshows.trayIcon]
  exact congrArg (fun icon => Except.ok { window with windowIcon := icon }) hshows.windowIcon.symm

/-- An accepted call of a phone that is not listed changes nothing. -/
theorem onNewCall_offhook_of_notMem (surroundings : Surroundings) (settings : Settings)
    {data : ParsedItem} (htype : data.val.type = .offhookCall) (hnot : data.phone ∉ history.keys)
    (hshows : window.Shows dates history) :
    window.onNewCall dates surroundings settings data.val = .ok window := by
  have hupdate : CallHistory.texts dates (history.update data) = window.listHistory := by
    rw [hshows.listHistory, CallHistory.texts, RecencyMap.update_entries_of_notMem hnot]
    rfl
  rw [onNewCall, htype]
  simp only
  rw [markCallAccepted_eq surroundings.heap data hshows.listHistory, hupdate]
  exact refreshTrayIconStatus_of_shows surroundings.heap hshows

theorem onBtnClearHistoryClicked_shows (surroundings : Surroundings) (currentIndex : Nat)
    (hlist : window.listHistory = history.texts dates) :
    ∃ next, window.onBtnClearHistoryClicked dates surroundings currentIndex = .ok next ∧
      next.Shows dates (if currentIndex = 0 then history else .empty) ∧
      next.hasNewNotificationCame = window.hasNewNotificationCame := by
  unfold onBtnClearHistoryClicked
  by_cases hindex : currentIndex = 0
  · rw [if_pos hindex, if_pos hindex]
    exact refreshTrayIconStatus_shows surroundings.heap hlist
  · rw [if_neg hindex, if_neg hindex]
    exact refreshTrayIconStatus_shows surroundings.heap rfl

theorem changeEvent_shows (surroundings : Surroundings) (isActiveWindow : Bool)
    (hshows : window.Shows dates history) :
    ∃ next, window.changeEvent dates surroundings isActiveWindow = .ok next ∧
      next.Shows dates history ∧
      next.hasNewNotificationCame = (window.hasNewNotificationCame && !isActiveWindow) := by
  cases isActiveWindow with
  | false => exact ⟨window, rfl, hshows, by simp⟩
  | true =>
      obtain ⟨next, hrefresh, hnext, hflag⟩ :=
        @refreshTrayIconStatus_shows dates history { window with hasNewNotificationCame := false }
          surroundings.heap hshows.listHistory
      exact ⟨next, hrefresh, hnext, by simpa using hflag⟩

end CMainWnd

/-- Every event succeeds, and the window keeps showing the history. -/
theorem Session.step_shows {dates : QDateTimeText} {history : CallHistory} {session : Session}
    (hshows : session.window.Shows dates history) (event : WindowEvent) :
    ∃ next, session.step dates event = .ok next ∧
      next.window.Shows dates (history.after session.settings.maxItemsCount event) ∧
      next.window.hasNewNotificationCame =
        event.flagAfter session.window.hasNewNotificationCame ∧
      next.settings = event.settingsAfter session.settings := by
  cases event with
  | newCall data surroundings =>
      obtain ⟨next, hnext, hshows', hflag⟩ :=
        CMainWnd.onNewCall_shows surroundings session.settings data hshows.listHistory
      exact ⟨⟨session.settings, next⟩, congrArg (· >>= _) hnext, hshows', hflag, rfl⟩
  | btnClearHistoryClicked currentIndex surroundings =>
      obtain ⟨next, hnext, hshows', hflag⟩ :=
        CMainWnd.onBtnClearHistoryClicked_shows surroundings currentIndex hshows.listHistory
      exact ⟨⟨session.settings, next⟩, congrArg (· >>= _) hnext, hshows', hflag, rfl⟩
  | change isActiveWindow surroundings =>
      obtain ⟨next, hnext, hshows', hflag⟩ :=
        CMainWnd.changeEvent_shows surroundings isActiveWindow hshows
      exact ⟨⟨session.settings, next⟩, congrArg (· >>= _) hnext, hshows', hflag, rfl⟩
  | settingsChanged settings => exact ⟨⟨settings, session.window⟩, rfl, hshows, rfl, rfl⟩

end BBNotifier
