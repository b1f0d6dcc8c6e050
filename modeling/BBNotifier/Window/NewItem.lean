import BBNotifier.Window.Alerts

/-! # The window after one more item

What an incoming item makes of the window can be said without its handlers, from
the texts that are listed: a call that rang goes to the end of its list and takes
the place of the earlier call of its phone, an accepted call is written over the
one of its phone, and everything else follows from the item and the flag. This is
all the handlers do in the states that the window gets into.
-/

namespace BBNotifier

open Foundation

/-- The phone in the text of a listed call. -/
def listedPhone (text : QString) : QString := text.split.getD 1 (QString.lit "Unknown Phone")

/-- The text is that of a call that rang and was not accepted. -/
def listsRinging (text : QString) : Bool :=
  CNotificationItem.setType (text.split.getD 0 []) = .ringingCall

/-- The list of calls with one more item. -/
def historyWith (dates : QDateTimeText) (maxItemsCount : Int) (item : ParsedItem)
    (texts : List QString) : List QString :=
  match item.val.type with
  | .ringingCall =>
      (texts.filter (listedPhone · ≠ item.phone) ++ [item.text dates]).rtake
        (CallHistory.capacity maxItemsCount)
  | .offhookCall =>
      texts.map fun text => if listedPhone text = item.phone then item.text dates else text
  | .notification | .empty => texts

/-- The window with one more item. -/
def CMainWnd.withItem (dates : QDateTimeText) (settings : Settings) (surroundings : Surroundings)
    (item : ParsedItem) (window : CMainWnd) : CMainWnd :=
  let event : WindowEvent := .newCall item surroundings
  let listHistory := historyWith dates settings.maxItemsCount item window.listHistory
  let hasNewNotificationCame := event.flagAfter window.hasNewNotificationCame
  let icon := iconNum hasNewNotificationCame (!listHistory.any listsRinging)
  { listHistory
    listNotifications :=
      event.notificationsAfter dates settings.maxItemsCount window.listNotifications
    hasNewNotificationCame
    windowIcon := icon
    trayIcon := icon
    trayMessages := window.trayMessages ++ (event.popup? settings).toList
    soundPlays := window.soundPlays + event.soundsCall.toNat
    soundNotifPlays := window.soundNotifPlays + event.soundsNotification.toNat }

/-- An item in its list: a call that rang and a notification are listed last, an
accepted call where its phone is listed, and nowhere if it is not. -/
structure CMainWnd.Lists (dates : QDateTimeText) (item : ParsedItem) (before after : CMainWnd) :
    Prop where
  ringing : item.val.type = .ringingCall →
    after.listHistory.getLast? = some (item.text dates)
  accepted : item.val.type = .offhookCall → ∀ heap phones,
    phonesOf dates heap before.listHistory = .ok phones →
      phonesOf dates heap after.listHistory = .ok phones ∧
        (item.phone ∈ phones → item.text dates ∈ after.listHistory) ∧
        (item.phone ∉ phones → after = before)
  notification : item.val.type = .notification →
    after.listNotifications.getLast? = some (item.text dates) ∧
      after.hasNewNotificationCame = true

/-! ## The listed texts -/

section

variable (dates : QDateTimeText)

theorem listedPhone_text (entry : ParsedItem) : listedPhone (entry.text dates) = entry.phone := by
  rw [listedPhone, ParsedItem.text, CNotificationItem.split_serialize dates entry.property]
  rfl

theorem listsRinging_text (entry : ParsedItem) :
    listsRinging (entry.text dates) = decide (entry.val.type = .ringingCall) := by
  rw [listsRinging, ParsedItem.text, CNotificationItem.split_serialize dates entry.property,
    List.getD_cons_zero, CNotificationItem.setType_typeName]

theorem any_listsRinging_texts (history : CallHistory) :
    (history.texts dates).any listsRinging = history.hasRinging := by
  rw [CallHistory.texts, List.any_map, CallHistory.hasRinging]
  exact congrArg history.entries.any (funext (listsRinging_text dates))

/-- The texts follow the history. -/
theorem historyWith_texts (maxItemsCount : Int) (item : ParsedItem) (history : CallHistory) :
    historyWith dates maxItemsCount item (history.texts dates) =
      (history.handle maxItemsCount item).texts dates := by
  rw [historyWith, CallHistory.handle]
  cases item.val.type with
  | ringingCall =>
      have hphone : (fun text => decide (listedPhone text ≠ item.phone)) ∘ ParsedItem.text dates =
          fun entry => decide (entry.phone ≠ item.phone) := by
        funext entry
        simp only [Function.comp_apply, listedPhone_text]
      simp only [CallHistory.texts, RecencyMap.push, List.filter_map, hphone, map_rtake,
        List.map_append, List.map_cons, List.map_nil]
  | offhookCall =>
      simp only [CallHistory.texts, RecencyMap.update, List.map_map]
      apply List.map_congr_left
      intro entry _
      simp only [Function.comp_apply, listedPhone_text]
      split <;> rfl
  | notification | empty => rfl

end

/-! ## What the handlers do -/

namespace CMainWnd

variable {dates : QDateTimeText} {history : CallHistory} {window : CMainWnd}

/-- An incoming item leads to the window with that item. -/
theorem Shows.onNewCall_eq (hshows : window.Shows dates history) (settings : Settings)
    (surroundings : Surroundings) (item : ParsedItem) :
    window.onNewCall dates surroundings settings item.val =
      .ok (window.withItem dates settings surroundings item) := by
  obtain ⟨next, hnext, hshows', hflag⟩ :=
    onNewCall_shows surroundings settings item hshows.listHistory
  have hannounces := onNewCall_announces hnext
  have hhistory : next.listHistory =
      historyWith dates settings.maxItemsCount item window.listHistory := by
    rw [hshows'.listHistory, hshows.listHistory, historyWith_texts]
  have hicon : next.trayIcon =
      (window.withItem dates settings surroundings item).trayIcon := by
    rw [hshows'.trayIcon, hflag, ← any_listsRinging_texts dates, ← hshows'.listHistory, hhistory]
    rfl
  rw [hnext]
  apply congrArg
  apply CMainWnd.ext
  · exact hhistory
  · exact onNewCall_listNotifications hnext
  · exact hflag
  · exact hshows'.windowIcon.trans hicon
  · exact hicon
  · exact hannounces.trayMessages
  · exact hannounces.soundPlays
  · exact hannounces.soundNotifPlays

theorem Shows.lists (hshows : window.Shows dates history) (settings : Settings)
    (surroundings : Surroundings) (item : ParsedItem) :
    window.Lists dates item (window.withItem dates settings surroundings item) := by
  have hhistory : (window.withItem dates settings surroundings item).listHistory =
      (history.handle settings.maxItemsCount item).texts dates := by
    rw [← historyWith_texts, ← hshows.listHistory]
    rfl
  constructor
  · intro htype
    rw [hhistory, CallHistory.handle, htype]
    simp only
    rw [CallHistory.texts, List.getLast?_map, RecencyMap.push_getLast (CallHistory.capacity_pos _)]
    rfl
  · intro htype heap phones hphones
    rw [hshows.listHistory, phonesOf_texts] at hphones
    obtain rfl := Except.ok.inj hphones
    rw [hhistory, CallHistory.handle, htype]
    simp only
    rw [phonesOf_texts, RecencyMap.keys_update]
    refine ⟨rfl, fun hlisted => ?_, fun hnot => ?_⟩
    · obtain ⟨entry, hentry, hphone⟩ := List.mem_map.mp hlisted
      exact List.mem_map_of_mem (List.mem_map.mpr ⟨entry, hentry, if_pos hphone⟩)
    · have hsame := hshows.onNewCall_eq settings surroundings item
      rw [onNewCall_offhook_of_notMem surroundings settings htype hnot hshows] at hsame
      exact (Except.ok.inj hsame).symm
  · intro htype
    have hdata : (WindowEvent.newCall item surroundings).notification? = some item :=
      if_pos htype
    refine ⟨(notificationsAfter_notification dates _ _ hdata).2, ?_⟩
    show (window.hasNewNotificationCame || decide (item.val.type = .notification)) = true
    rw [decide_eq_true htype, Bool.or_true]

end CMainWnd

end BBNotifier
