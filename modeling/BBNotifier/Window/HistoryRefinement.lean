import BBNotifier.Window.CallHistory

/-! # The call history over whole runs

What the history has to be after a run is read off the events: the phones that
rang since the last clear of the list, ordered by their latest ringing, and the
latest call of each phone. The limit can change at any time, so the listed
phones are some of the latest ones; under one limit they are exactly those.
-/

namespace BBNotifier

open Foundation

/-! ## What the events say -/

namespace WindowEvent

def isHistoryClear : WindowEvent → Bool
  | btnClearHistoryClicked currentIndex _ => currentIndex ≠ 0
  | _ => false

/-- The item of a ringing or accepted call. -/
def call? : WindowEvent → Option ParsedItem
  | newCall data _ =>
      if data.val.type = .ringingCall ∨ data.val.type = .offhookCall then some data else none
  | _ => none

/-- The phone of a ringing call. -/
def ring? : WindowEvent → Option QString
  | newCall data _ => if data.val.type = .ringingCall then some data.phone else none
  | _ => none

def isNotification : WindowEvent → Bool
  | newCall data _ => data.val.type = .notification
  | _ => false

def isActiveChange : WindowEvent → Bool
  | change isActiveWindow _ => isActiveWindow
  | _ => false

end WindowEvent

/-- The events after the last clear of the history list. -/
def sinceClear (events : List WindowEvent) : List WindowEvent :=
  events.rtakeWhile (! ·.isHistoryClear)

/-- The phones that rang since the last clear, ordered by their latest
ringing: of equal members, `dedup` keeps the last. -/
def ringOrder (events : List WindowEvent) : List QString :=
  ((sinceClear events).filterMap WindowEvent.ring?).dedup

/-- The latest call of a phone since the last clear. -/
def latestCall (events : List WindowEvent) (phone : QString) : Option ParsedItem :=
  (((sinceClear events).filterMap WindowEvent.call?).filter (·.phone = phone)).getLast?

/-- The settings in force after the events. -/
def settingsIn (initial : Settings) (events : List WindowEvent) : Settings :=
  events.foldl (fun settings event => event.settingsAfter settings) initial

/-- Since the last clear the limit has been the same all the time. -/
def LimitSinceClear (initial : Settings) (maxItemsCount : Int) (events : List WindowEvent) :
    Prop :=
  ∀ front back, events = front ++ back → (∀ event ∈ back, event.isHistoryClear = false) →
    (settingsIn initial front).maxItemsCount = maxItemsCount

/-- A notification came after the last change event of the active window. -/
def notifiedSinceActive (events : List WindowEvent) : Bool :=
  (events.rtakeWhile (! ·.isActiveChange)).any WindowEvent.isNotification

/-! ## One more event -/

section

variable {events : List WindowEvent} {event : WindowEvent}

theorem sinceClear_snoc (hclear : event.isHistoryClear = false) :
    sinceClear (events ++ [event]) = sinceClear events ++ [event] := by
  rw [sinceClear, List.rtakeWhile_concat_pos _ _ _ (by simp [hclear])]
  rfl

theorem sinceClear_snoc_of_clear (hclear : event.isHistoryClear = true) :
    sinceClear (events ++ [event]) = [] := by
  rw [sinceClear, List.rtakeWhile_concat_neg _ _ _ (by simp [hclear])]

theorem ringOrder_snoc_ring {phone : QString} (hclear : event.isHistoryClear = false)
    (hring : event.ring? = some phone) :
    ringOrder (events ++ [event]) = moveToEnd phone (ringOrder events) := by
  rw [ringOrder, sinceClear_snoc hclear, List.filterMap_append, List.filterMap_cons_some hring,
    List.filterMap_nil, dedup_snoc]
  rfl

theorem ringOrder_snoc_of_not_ring (hclear : event.isHistoryClear = false)
    (hring : event.ring? = none) : ringOrder (events ++ [event]) = ringOrder events := by
  rw [ringOrder, sinceClear_snoc hclear, List.filterMap_append, List.filterMap_cons_none hring,
    List.filterMap_nil, List.append_nil]
  rfl

theorem latestCall_snoc_call {data : ParsedItem} (hclear : event.isHistoryClear = false)
    (hcall : event.call? = some data) :
    latestCall (events ++ [event]) =
      Function.update (latestCall events) data.phone (some data) := by
  funext phone
  rw [latestCall, sinceClear_snoc hclear, List.filterMap_append, List.filterMap_cons_some hcall,
    List.filterMap_nil, List.filter_append]
  by_cases hphone : data.phone = phone
  · subst hphone
    rw [List.filter_cons_of_pos (by simp), List.filter_nil, List.getLast?_concat,
      Function.update_self]
  · rw [List.filter_cons_of_neg (by simpa using hphone), List.filter_nil, List.append_nil,
      Function.update_of_ne (Ne.symm hphone)]
    rfl

theorem latestCall_snoc_of_not_call (hclear : event.isHistoryClear = false)
    (hcall : event.call? = none) : latestCall (events ++ [event]) = latestCall events := by
  funext phone
  rw [latestCall, sinceClear_snoc hclear, List.filterMap_append, List.filterMap_cons_none hcall,
    List.filterMap_nil, List.append_nil]
  rfl

theorem settingsIn_snoc (initial : Settings) :
    settingsIn initial (events ++ [event]) = event.settingsAfter (settingsIn initial events) := by
  simp [settingsIn]

theorem notifiedSinceActive_snoc :
    notifiedSinceActive (events ++ [event]) = event.flagAfter (notifiedSinceActive events) := by
  by_cases hactive : event.isActiveChange = true
  · rw [notifiedSinceActive, List.rtakeWhile_concat_neg _ _ _ (by simp [hactive])]
    cases event <;> simp_all [WindowEvent.isActiveChange, WindowEvent.flagAfter]
  · rw [notifiedSinceActive, List.rtakeWhile_concat_pos _ _ _ (by simp [hactive]),
      List.any_append]
    cases event <;> simp_all [WindowEvent.isActiveChange, WindowEvent.flagAfter,
      WindowEvent.isNotification, notifiedSinceActive]

/-- A limit that was the same up to an event was the same before it, and was in
force when the event came. -/
theorem LimitSinceClear.before {initial : Settings} {maxItemsCount : Int}
    (hlimit : LimitSinceClear initial maxItemsCount (events ++ [event]))
    (hclear : event.isHistoryClear = false) :
    LimitSinceClear initial maxItemsCount events ∧
      (settingsIn initial events).maxItemsCount = maxItemsCount := by
  constructor
  · intro front back hevents hback
    apply hlimit front (back ++ [event]) (by rw [hevents, List.append_assoc])
    intro other hother
    rcases List.mem_append.mp hother with hmem | hmem
    · exact hback other hmem
    · rw [List.mem_singleton.mp hmem]
      exact hclear
  · apply hlimit events [event] rfl
    intro other hother
    rw [List.mem_singleton.mp hother]
    exact hclear

end

/-- The phones parsed back from the texts of a list. -/
def phonesOf (dates : QDateTimeText) (heap : Memory) (texts : List QString) :
    Except Fault (List QString) :=
  texts.mapM fun text => CNotificationItem.phone <$> CNotificationItem.ofSerialized dates heap text

/-! ## The history follows the events -/

/-- What a history has to do with the events that led to it. -/
structure CallHistory.Follows (initial : Settings) (events : List WindowEvent)
    (history : CallHistory) : Prop where
  recent : history.keys <:+ ringOrder events
  current : history.Current (latestCall events)
  limited : ∀ maxItemsCount, LimitSinceClear initial maxItemsCount events →
    history.keys = (ringOrder events).rtake (capacity maxItemsCount)

namespace CallHistory.Follows

variable {initial : Settings} {events : List WindowEvent} {event : WindowEvent}
  {history : CallHistory}

theorem start (initial : Settings) : Follows initial [] .empty where
  recent := List.nil_suffix
  current := by simp [RecencyMap.Current, RecencyMap.empty]
  limited := by simp [ringOrder, sinceClear, RecencyMap.keys, RecencyMap.empty, List.rtake]

/-- A clear of the list starts over. -/
theorem clear (initial : Settings) (hclear : event.isHistoryClear = true) :
    Follows initial (events ++ [event]) .empty where
  recent := List.nil_suffix
  current := by simp [RecencyMap.Current, RecencyMap.empty]
  limited := by
    intro maxItemsCount _
    simp [ringOrder, sinceClear_snoc_of_clear hclear, RecencyMap.keys, RecencyMap.empty, List.rtake]

/-- An event that is no call leaves the history as it is. -/
theorem other (hfollows : Follows initial events history) (hclear : event.isHistoryClear = false)
    (hring : event.ring? = none) (hcall : event.call? = none) :
    Follows initial (events ++ [event]) history where
  recent := by
    rw [ringOrder_snoc_of_not_ring hclear hring]
    exact hfollows.recent
  current := by
    rw [latestCall_snoc_of_not_call hclear hcall]
    exact hfollows.current
  limited := by
    intro maxItemsCount hlimit
    rw [ringOrder_snoc_of_not_ring hclear hring]
    exact hfollows.limited maxItemsCount (hlimit.before hclear).1

theorem ring (hfollows : Follows initial events history) {data : ParsedItem}
    (surroundings : Surroundings) (htype : data.val.type = .ringingCall) :
    Follows initial (events ++ [.newCall data surroundings])
      (history.push (capacity (settingsIn initial events).maxItemsCount) data) := by
  have hring : (WindowEvent.newCall data surroundings).ring? = some data.phone := if_pos htype
  have hcall : (WindowEvent.newCall data surroundings).call? = some data := if_pos (.inl htype)
  constructor
  · rw [ringOrder_snoc_ring rfl hring]
    exact RecencyMap.keys_push_suffix hfollows.recent
  · rw [latestCall_snoc_call rfl hcall]
    exact hfollows.current.push _ data
  · intro maxItemsCount hlimit
    obtain ⟨hbefore, hnow⟩ := hlimit.before rfl
    rw [ringOrder_snoc_ring rfl hring, hnow]
    exact RecencyMap.keys_push_eq_rtake (List.nodup_dedup _) (hfollows.limited _ hbefore)

theorem offhook (hfollows : Follows initial events history) {data : ParsedItem}
    (surroundings : Surroundings) (htype : data.val.type = .offhookCall) :
    Follows initial (events ++ [.newCall data surroundings]) (history.update data) := by
  have hring : (WindowEvent.newCall data surroundings).ring? = none := if_neg (by simp [htype])
  have hcall : (WindowEvent.newCall data surroundings).call? = some data := if_pos (.inr htype)
  constructor
  · rw [ringOrder_snoc_of_not_ring rfl hring, RecencyMap.keys_update]
    exact hfollows.recent
  · rw [latestCall_snoc_call rfl hcall]
    exact hfollows.current.update data
  · intro maxItemsCount hlimit
    rw [ringOrder_snoc_of_not_ring rfl hring, RecencyMap.keys_update]
    exact hfollows.limited maxItemsCount (hlimit.before rfl).1

theorem after (hfollows : Follows initial events history) (event : WindowEvent) :
    Follows initial (events ++ [event])
      (history.after (settingsIn initial events).maxItemsCount event) := by
  cases event with
  | newCall data surroundings =>
      cases htype : data.val.type with
      | ringingCall =>
          simp only [CallHistory.after, CallHistory.handle, htype]
          exact hfollows.ring surroundings htype
      | offhookCall =>
          simp only [CallHistory.after, CallHistory.handle, htype]
          exact hfollows.offhook surroundings htype
      | notification | empty =>
          have hring : (WindowEvent.newCall data surroundings).ring? = none :=
            if_neg (by simp [htype])
          have hcall : (WindowEvent.newCall data surroundings).call? = none :=
            if_neg (by simp [htype])
          simp only [CallHistory.after, CallHistory.handle, htype]
          exact hfollows.other rfl hring hcall
  | btnClearHistoryClicked currentIndex surroundings =>
      rw [CallHistory.after]
      by_cases hindex : currentIndex = 0
      · rw [if_pos hindex]
        exact hfollows.other (by simp [WindowEvent.isHistoryClear, hindex]) rfl rfl
      · rw [if_neg hindex]
        exact clear initial (by simp [WindowEvent.isHistoryClear, hindex])
  | change | settingsChanged => exact hfollows.other rfl rfl rfl

end CallHistory.Follows

/-- How a session stands after the events of a run. -/
structure Session.Follows (dates : QDateTimeText) (initial : Settings)
    (events : List WindowEvent) (history : CallHistory) (session : Session) : Prop where
  shows : session.window.Shows dates history
  history : history.Follows initial events
  flag : session.window.hasNewNotificationCame = notifiedSinceActive events
  settings : session.settings = settingsIn initial events

/-- Every event succeeds, and the session then stands as its events tell. -/
theorem Session.Follows.step {dates : QDateTimeText} {initial : Settings}
    {events : List WindowEvent} {history : CallHistory} {session : Session}
    (hfollows : session.Follows dates initial events history) (event : WindowEvent) :
    ∃ next, session.step dates event = .ok next ∧
      next.Follows dates initial (events ++ [event])
        (history.after (settingsIn initial events).maxItemsCount event) := by
  obtain ⟨next, hnext, hshows, hflag, hsettings⟩ := Session.step_shows hfollows.shows event
  rw [hfollows.settings] at hshows
  refine ⟨next, hnext, hshows, hfollows.history.after event, ?_, ?_⟩
  · rw [hflag, hfollows.flag, notifiedSinceActive_snoc]
  · rw [hsettings, hfollows.settings, settingsIn_snoc]

/-- A law of the events and the session, kept by every event, holds after every
run. No run goes wrong, and every run leaves the window with the history and the
flag that its events tell. -/
theorem Session.run_law {dates : QDateTimeText} {initial : Settings}
    (law : List WindowEvent → Session → Prop) (hstart : law [] (Session.new initial))
    (hstep : ∀ events event history session next,
      Session.Follows dates initial events history session →
      session.step dates event = .ok next →
      next.Follows dates initial (events ++ [event])
        (history.after (settingsIn initial events).maxItemsCount event) →
      law events session → law (events ++ [event]) next)
    (events : List WindowEvent) :
    ∃ session, run (Session.step dates) (Session.new initial) events = .ok session ∧
      (∃ history, session.Follows dates initial events history) ∧ law events session := by
  refine run_progress (fun events (session : Session) =>
    (∃ history, session.Follows dates initial events history) ∧ law events session) ?_ ?_ events
  · exact ⟨⟨.empty, CMainWnd.new_shows dates, .start initial, rfl, rfl⟩, hstart⟩
  · rintro events session event ⟨⟨history, hfollows⟩, hlaw⟩
    obtain ⟨next, hnext, hfollows'⟩ := hfollows.step event
    exact ⟨next, hnext, ⟨_, hfollows'⟩,
      hstep events event history session next hfollows hnext hfollows' hlaw⟩

theorem Session.run_follows (dates : QDateTimeText) (initial : Settings)
    (events : List WindowEvent) :
    ∃ session, run (Session.step dates) (Session.new initial) events = .ok session ∧
      ∃ history, session.Follows dates initial events history := by
  obtain ⟨session, hrun, hfollows, -⟩ :=
    Session.run_law (fun _ _ => True) trivial (fun _ _ _ _ _ _ _ _ _ => trivial) events
  exact ⟨session, hrun, hfollows⟩

/-! ## What the list shows -/

theorem phonesOf_texts (dates : QDateTimeText) (heap : Memory) (history : CallHistory) :
    phonesOf dates heap (history.texts dates) = .ok history.keys := by
  rw [CallHistory.texts, RecencyMap.keys]
  induction history.entries with
  | nil => rfl
  | cons entry rest ih =>
      obtain ⟨listItem, hparsed, hphone, -⟩ := parse_text dates heap entry
      rw [phonesOf, List.map_cons, List.mapM_cons, hparsed, ← phonesOf, ih, List.map_cons,
        ← hphone]
      rfl

/-- Each text is that of the latest call of the phone it is listed for. -/
theorem CallHistory.Follows.texts {initial : Settings} {events : List WindowEvent}
    {history : CallHistory} (hfollows : history.Follows initial events) (dates : QDateTimeText) :
    List.Forall₂ (fun phone text =>
        ∃ call, latestCall events phone = some call ∧ text = call.text dates)
      history.keys (CallHistory.texts dates history) := by
  rw [CallHistory.texts, RecencyMap.keys, List.forall₂_map_left_iff, List.forall₂_map_right_iff,
    List.forall₂_same]
  intro entry hentry
  exact ⟨entry, hfollows.current entry hentry, rfl⟩

/-- In every reachable state the history list is a recency map of the calls
since its last clear: the listed phones are distinct and end the order of the
latest ringings, each text is that of the latest call of its phone, and the
calls that come next keep it so. -/
theorem history_refines_recency_map (dates : QDateTimeText) (initial : Settings)
    (events : List WindowEvent) (heap : Memory) :
    ∃ session phones, run (Session.step dates) (Session.new initial) events = .ok session ∧
      phonesOf dates heap session.window.listHistory = .ok phones ∧
      phones.Nodup ∧
      phones <:+ ringOrder events ∧
      List.Forall₂ (fun phone text =>
        ∃ call, latestCall events phone = some call ∧ text = call.text dates)
        phones session.window.listHistory ∧
      (∀ data surroundings, data.val.type = .offhookCall →
        ∃ next, session.step dates (.newCall data surroundings) = .ok next ∧
          phonesOf dates heap next.window.listHistory = .ok phones ∧
          (data.phone ∉ phones → next = session)) ∧
      (∀ data surroundings, data.val.type = .ringingCall →
        ∃ next, session.step dates (.newCall data surroundings) = .ok next ∧
          next.window.listHistory.getLast? = some (data.text dates) ∧
          (next.window.listHistory.length : Int) ≤ max 1 session.settings.maxItemsCount) ∧
      (∀ maxItemsCount, LimitSinceClear initial maxItemsCount events →
        phones = (ringOrder events).rtake (max 1 maxItemsCount).toNat) := by
  obtain ⟨session, hrun, history, hfollows⟩ := Session.run_follows dates initial events
  have hlist := hfollows.shows.listHistory
  refine ⟨session, history.keys, hrun, ?_, history.nodup, hfollows.history.recent, ?_, ?_, ?_,
    hfollows.history.limited⟩
  · rw [hlist, phonesOf_texts]
  · rw [hlist]
    exact hfollows.history.texts dates
  · intro data surroundings htype
    obtain ⟨next, hnext, hshows, -⟩ :=
      Session.step_shows hfollows.shows (.newCall data surroundings)
    refine ⟨next, hnext, ?_, ?_⟩
    · simp only [CallHistory.after, CallHistory.handle, htype] at hshows
      rw [hshows.listHistory, phonesOf_texts, RecencyMap.keys_update]
    · intro hnot
      have hsame : session.step dates (.newCall data surroundings) = .ok session :=
        congrArg (· >>= _)
          (CMainWnd.onNewCall_offhook_of_notMem surroundings _ htype hnot hfollows.shows)
      exact Except.ok.inj (hnext.symm.trans hsame)
  · intro data surroundings htype
    obtain ⟨next, hnext, hshows, -⟩ :=
      Session.step_shows hfollows.shows (.newCall data surroundings)
    simp only [CallHistory.after, CallHistory.handle, htype] at hshows
    refine ⟨next, hnext, ?_, ?_⟩
    · rw [hshows.listHistory, CallHistory.texts, List.getLast?_map,
        RecencyMap.push_getLast (CallHistory.capacity_pos _)]
      rfl
    · have hlength := RecencyMap.length_push_le
        (CallHistory.capacity session.settings.maxItemsCount) data history
      rw [hshows.listHistory, CallHistory.texts, List.length_map]
      rw [CallHistory.capacity] at hlength ⊢
      omega

end BBNotifier
