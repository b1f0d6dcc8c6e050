import BBNotifier.Program.Composition

/-! # What connections can do to the program

An item costs a connection: the packet that brings it closes its connection, and
identifiers are not used again. So each connection brings one item at most, none
after it is closed, and one that is still open has brought none. Until then its
peer makes the program buffer less than the longest packet.
-/

namespace BBNotifier

open Foundation

/-- A member that stops counting. -/
theorem countP_lt_countP {α : Type} {counted counted' : α → Bool} {members : List α} {member : α}
    (hless : ∀ other, counted' other = true → counted other = true) (hmember : member ∈ members)
    (hbefore : counted member = true) (hafter : counted' member = false) :
    members.countP counted' < members.countP counted := by
  obtain ⟨front, back, rfl⟩ := List.append_of_mem hmember
  have hfront := List.countP_mono_left fun other (_ : other ∈ front) => hless other
  have hback := List.countP_mono_left fun other (_ : other ∈ back) => hless other
  rw [List.countP_append, List.countP_append, List.countP_cons_of_pos hbefore,
    List.countP_cons_of_neg (by simp [hafter])]
  omega

def ServerEvent.isIncomingConnection {Id : Type} : ServerEvent Id → Bool
  | incomingConnection _ => true
  | readyRead _ _ _ | disconnected _ | deferredDelete _ => false

namespace CListenerSocket

variable {Id : Type} [DecidableEq Id] {decrypt : QByteArray → AESKey → QString} {key : AESKey}
  {server next : CListenerSocket Id} {event : ServerEvent Id}

/-- Only an incoming connection is registered and opened. -/
theorem isOpen_of_step (hevent : event.isIncomingConnection = false)
    (hnext : step decrypt key server event = some next) :
    next.serverSockets = server.serverSockets ∧
      ∀ id, next.isOpen id = true → server.isOpen id = true := by
  have hother : ∀ id, event.id ≠ id → next.isOpen id = true → server.isOpen id = true := by
    intro id hid
    rw [isOpen, isOpen, (step_of_ne hid hnext).1]
    exact fun h => h
  cases event with
  | incomingConnection id => cases hevent
  | readyRead id chunk now =>
      obtain ⟨socket, hsocket, hopen, -, rfl⟩ := step_readyRead hnext
      refine ⟨rfl, fun other => ?_⟩
      by_cases hid : id = other
      · subst hid
        intro _
        rw [Follows.isOpen_of_sockets hsocket, hopen]
      · exact hother other hid
  | disconnected id =>
      obtain ⟨socket, hsocket, hopen, rfl⟩ := step_disconnected hnext
      refine ⟨rfl, fun other => ?_⟩
      by_cases hid : id = other
      · subst hid
        intro _
        rw [Follows.isOpen_of_sockets hsocket, hopen]
      · exact hother other hid
  | deferredDelete id =>
      obtain ⟨socket, hsocket, -, rfl⟩ := step_deferredDelete hnext
      refine ⟨rfl, fun other => ?_⟩
      by_cases hid : id = other
      · subst hid
        rw [isOpen, sockets_setSocket_self]
        exact fun h => Bool.noConfusion h
      · exact hother other hid

/-- A connection that was accepted and closed stays so. -/
theorem closed_of_step (hnext : step decrypt key server event = some next) {id : Id}
    (hmember : id ∈ server.serverSockets) (hclosed : server.isOpen id = false) :
    id ∈ next.serverSockets ∧ next.isOpen id = false := by
  cases hevent : event.isIncomingConnection with
  | false =>
      obtain ⟨hsame, hmono⟩ := isOpen_of_step hevent hnext
      rw [hsame, Bool.eq_false_iff]
      exact ⟨hmember, fun hopen => Bool.eq_false_iff.mp hclosed (hmono id hopen)⟩
  | true =>
      cases event with
      | readyRead | disconnected | deferredDelete => cases hevent
      | incomingConnection other =>
          have hnew := (step_incomingConnection hnext).1
          have hne : other ≠ id := fun heq => hnew (heq ▸ hmember)
          have hid : (ServerEvent.incomingConnection other).id ≠ id := hne
          obtain ⟨hsockets, hserverSockets, -⟩ := step_of_ne hid hnext
          rw [hserverSockets, isOpen, hsockets]
          exact ⟨hmember, hclosed⟩

end CListenerSocket

namespace Program

variable {Id : Type}

/-- The item that an event hands to the window, with the connection it came on. -/
def handsOver (platform : Platform) (program : Program Id) :
    ProgramEvent Id → Option (Id × CNotificationItem)
  | .server event arrival => do
      let data ← (program.delivered platform arrival event).toOption.join
      return (event.id, data)
  | .dialog _ | .btnClearHistoryClicked _ _ | .change _ _ => none

/-- A program with the items it has handed to the window, oldest first. -/
structure Traced (Id : Type) where
  program : Program Id
  handedOver : List (Id × CNotificationItem)

variable [DecidableEq Id] {platform : Platform} {start program next : Program Id}
  {events : List (ProgramEvent Id)}

/-- What the window takes in is what the event hands over. -/
theorem onNewCall_handsOver {event : ServerEvent Id} {arrival : Arrival}
    (hnext : step platform program (.server event arrival) = .ok next) :
    program.onNewCall platform arrival.surroundings
      ((program.handsOver platform (.server event arrival)).map Prod.snd) = .ok next.window := by
  obtain ⟨listener, window, -, hwindow, rfl⟩ := step_server hnext
  obtain ⟨data, hdata, hwindow⟩ := bind_eq_ok.mp hwindow
  rw [handsOver, hdata]
  cases data <;> exact hwindow

/-- An item comes with a chunk that completes a message on an open connection. -/
theorem Follows.handsOver_eq_some (hfollows : Follows platform start events program)
    {event : ProgramEvent Id} {id : Id} {data : CNotificationItem}
    (hnext : Program.step platform program event = .ok next)
    (hhands : program.handsOver platform event = some (id, data)) :
    ∃ chunk now arrival, event = .server (.readyRead id chunk now) arrival ∧
      id ∈ program.listener.serverSockets ∧ program.listener.isOpen id = true ∧
      next.listener.isOpen id = false := by
  cases event with
  | dialog | btnClearHistoryClicked | change => cases hhands
  | server event arrival =>
      obtain ⟨data', hdata, hpair⟩ := Option.bind_eq_some_iff.mp hhands
      obtain ⟨rfl, rfl⟩ := Prod.mk.inj (Option.some.inj hpair)
      cases event with
      | incomingConnection | disconnected | deferredDelete => cases hdata
      | readyRead id chunk now =>
          obtain ⟨listener, window, hlistener, -, rfl⟩ := step_server hnext
          obtain ⟨socket, hsocket, hopen, -, -⟩ := CListenerSocket.step_readyRead hlistener
          simp only [delivered, hsocket, CListenerSocket.deliver,
            hfollows.messageReady_eq hsocket hopen chunk now] at hdata
          cases hmsg : messageWith platform start.dialog events id chunk with
          | none =>
              rw [hmsg] at hdata
              cases hdata
          | some msg =>
              exact ⟨chunk, now, arrival, rfl, hfollows.buffers.mem_serverSockets hsocket,
                (CListenerSocket.Follows.isOpen_of_sockets hsocket).trans hopen,
                hfollows.isOpen_of_message hlistener hmsg⟩

/-- The number of connections that are open. -/
def openConnections (program : Program Id) : Nat :=
  program.listener.serverSockets.countP program.listener.isOpen

/-- The number of connections that were accepted. -/
def connectionsAccepted (events : List (ProgramEvent Id)) : Nat :=
  (serverEvents events).countP ServerEvent.isIncomingConnection

/-- An event of the sockets that brings an item closes a connection. -/
theorem Follows.openConnections_server (hfollows : Follows platform start events program)
    {event : ServerEvent Id} {arrival : Arrival}
    (hnext : Program.step platform program (.server event arrival) = .ok next) :
    (program.handsOver platform (.server event arrival)).toList.length + next.openConnections ≤
      program.openConnections + [event].countP ServerEvent.isIncomingConnection := by
  obtain ⟨listener, window, hlistener, -, rfl⟩ := step_server hnext
  cases hevent : event.isIncomingConnection with
  | true =>
      cases event with
      | readyRead | disconnected | deferredDelete => cases hevent
      | incomingConnection id =>
          obtain ⟨hnew, rfl⟩ := CListenerSocket.step_incomingConnection hlistener
          have hsame : program.listener.serverSockets.countP
              (program.listener.incomingConnection id).isOpen = program.openConnections := by
            apply List.countP_congr
            intro other hother
            have hne : id ≠ other := fun heq => hnew (heq ▸ hother)
            have hid : (ServerEvent.incomingConnection id).id ≠ other := hne
            rw [CListenerSocket.isOpen, (CListenerSocket.step_of_ne hid hlistener).1]
            rfl
          have hone :=
            @List.countP_le_length _ (program.listener.incomingConnection id).isOpen [id]
          have hsockets : (program.listener.incomingConnection id).serverSockets =
              program.listener.serverSockets ++ [id] := rfl
          have hnone : program.handsOver platform (.server (.incomingConnection id) arrival) =
              none := rfl
          have haccepted : [ServerEvent.incomingConnection id].countP
              ServerEvent.isIncomingConnection = 1 := rfl
          rw [openConnections, hsockets, List.countP_append, hsame, hnone, haccepted]
          simp only [Option.toList_none, List.length_nil, List.length_singleton] at hone ⊢
          omega
  | false =>
      obtain ⟨hsame, hmono⟩ := CListenerSocket.isOpen_of_step hevent hlistener
      rw [List.countP_cons_of_neg (by simp [hevent]), List.countP_nil, Nat.add_zero,
        openConnections, hsame]
      cases hhands : program.handsOver platform (.server event arrival) with
      | none =>
          simpa [openConnections] using
            List.countP_mono_left fun other (_ : other ∈ program.listener.serverSockets) =>
              hmono other
      | some item =>
          obtain ⟨chunk, now, arrival', -, hmember, hopen, hclosed⟩ :=
            hfollows.handsOver_eq_some hnext hhands
          have hfewer := countP_lt_countP hmono hmember hopen hclosed
          simp only [openConnections, Option.toList_some, List.length_singleton]
          omega

theorem Follows.openConnections_step (hfollows : Follows platform start events program)
    {event : ProgramEvent Id} (hnext : Program.step platform program event = .ok next) :
    (program.handsOver platform event).toList.length + next.openConnections ≤
      program.openConnections + event.server?.toList.countP ServerEvent.isIncomingConnection := by
  cases event with
  | server event arrival => exact hfollows.openConnections_server hnext
  | dialog event =>
      obtain ⟨discoverable, -, rfl⟩ := step_dialog hnext
      exact (Nat.zero_add _).le
  | btnClearHistoryClicked currentIndex surroundings =>
      obtain ⟨window, -, rfl⟩ := step_btnClearHistoryClicked hnext
      exact (Nat.zero_add _).le
  | change isActiveWindow surroundings =>
      obtain ⟨window, -, rfl⟩ := step_change hnext
      exact (Nat.zero_add _).le

/-- A closed connection stays closed, whatever happens. -/
theorem closed_of_step {event : ProgramEvent Id}
    (hnext : step platform program event = .ok next) {id : Id}
    (hmember : id ∈ program.listener.serverSockets)
    (hclosed : program.listener.isOpen id = false) :
    id ∈ next.listener.serverSockets ∧ next.listener.isOpen id = false := by
  cases event with
  | server event arrival =>
      obtain ⟨listener, window, hlistener, -, rfl⟩ := step_server hnext
      exact CListenerSocket.closed_of_step hlistener hmember hclosed
  | dialog event =>
      obtain ⟨discoverable, -, rfl⟩ := step_dialog hnext
      exact ⟨hmember, hclosed⟩
  | btnClearHistoryClicked currentIndex surroundings =>
      obtain ⟨window, -, rfl⟩ := step_btnClearHistoryClicked hnext
      exact ⟨hmember, hclosed⟩
  | change isActiveWindow surroundings =>
      obtain ⟨window, -, rfl⟩ := step_change hnext
      exact ⟨hmember, hclosed⟩

/-! ## What was handed over -/

namespace Traced

omit [DecidableEq Id] in
/-- Nothing has been handed over yet. -/
def ofStart (start : Program Id) : Traced Id := ⟨start, []⟩

/-- The items that came on one connection. -/
def itemsOf (traced : Traced Id) (id : Id) : List CNotificationItem :=
  (traced.handedOver.filter (·.1 = id)).map Prod.snd

/-- One event of the program, and the item it hands over. -/
def step (platform : Platform) (traced : Traced Id) (event : ProgramEvent Id) :
    Except Stop (Traced Id) := do
  let program ← Program.step platform traced.program event
  return ⟨program, traced.handedOver ++ (traced.program.handsOver platform event).toList⟩

variable {traced traced' : Traced Id} {event : ProgramEvent Id}

theorem step_eq_ok (h : step platform traced event = .ok traced') :
    Program.step platform traced.program event = .ok traced'.program ∧
      traced'.handedOver =
        traced.handedOver ++ (traced.program.handsOver platform event).toList := by
  obtain ⟨program, hprogram, h⟩ := bind_eq_ok.mp h
  obtain rfl := Except.ok.inj h
  exact ⟨hprogram, rfl⟩

/-- Every run of the program can be traced. -/
theorem exists_run (hrun : run (Program.step platform) start events = .ok program) :
    ∃ handedOver, run (step platform) (ofStart start) events = .ok ⟨program, handedOver⟩ := by
  refine run_invariant_ok (fun events program => ∃ handedOver,
    run (step platform) (ofStart start) events = .ok ⟨program, handedOver⟩) ⟨[], rfl⟩ ?_ events
    program hrun
  rintro events program event next - ⟨handedOver, htraced⟩ hnext
  exact ⟨_, run_snoc_eq_ok.mpr ⟨_, htraced, bind_eq_ok.mpr ⟨next, hnext, rfl⟩⟩⟩

theorem itemsOf_step (hnext : step platform traced event = .ok traced') (id : Id) :
    traced'.itemsOf id = traced.itemsOf id ++
      ((traced.program.handsOver platform event).toList.filter (·.1 = id)).map Prod.snd := by
  rw [itemsOf, (step_eq_ok hnext).2, List.filter_append, List.map_append, itemsOf]

/-- How the items stand after the events of a run. -/
structure Counts (platform : Platform) (start : Program Id) (events : List (ProgramEvent Id))
    (traced : Traced Id) : Prop where
  follows : Follows platform start events traced.program
  atMostOne : ∀ id, (traced.itemsOf id).length ≤ 1
  closed : ∀ id, traced.itemsOf id ≠ [] →
    id ∈ traced.program.listener.serverSockets ∧ traced.program.listener.isOpen id = false
  total : traced.handedOver.length + traced.program.openConnections ≤ connectionsAccepted events

/-- Either an event brings nothing on a connection, or the connection was open
before and is closed now. -/
theorem Counts.itemsOf_cases (hcounts : Counts platform start events traced)
    (hnext : step platform traced event = .ok traced') (id : Id) :
    traced'.itemsOf id = traced.itemsOf id ∨
      (traced'.itemsOf id).length = 1 ∧ traced.program.listener.isOpen id = true ∧
        id ∈ traced'.program.listener.serverSockets ∧
        traced'.program.listener.isOpen id = false := by
  have hitems := itemsOf_step hnext id
  cases hhands : traced.program.handsOver platform event with
  | none => exact .inl (by simpa [hhands] using hitems)
  | some pair =>
      obtain ⟨other, data⟩ := pair
      rw [hhands, Option.toList_some] at hitems
      by_cases hid : other = id
      · subst hid
        have hstep := (step_eq_ok hnext).1
        obtain ⟨chunk, now, arrival, rfl, hmember, hopen, hclosed⟩ :=
          hcounts.follows.handsOver_eq_some hstep hhands
        -- An open connection has brought nothing so far.
        have hnone : traced.itemsOf other = [] := by
          by_contra hsome
          rw [(hcounts.closed other hsome).2] at hopen
          cases hopen
        have hregistered : other ∈ traced'.program.listener.serverSockets := by
          obtain ⟨listener, window, hlistener, -, hprogram⟩ := step_server hstep
          rw [hprogram, (CListenerSocket.isOpen_of_step rfl hlistener).1]
          exact hmember
        refine .inr ⟨?_, hopen, hregistered, hclosed⟩
        rw [hitems, hnone]
        simp
      · exact .inl (by simpa [hid] using hitems)

theorem Counts.step (hcounts : Counts platform start events traced)
    (hnext : step platform traced event = .ok traced') :
    Counts platform start (events ++ [event]) traced' := by
  obtain ⟨hstep, hhandedOver⟩ := step_eq_ok hnext
  refine ⟨hcounts.follows.step hstep, fun id => ?_, fun id hsome => ?_, ?_⟩
  · rcases hcounts.itemsOf_cases hnext id with hsame | ⟨hone, -⟩
    · rw [hsame]
      exact hcounts.atMostOne id
    · exact hone.le
  · rcases hcounts.itemsOf_cases hnext id with hsame | ⟨-, -, hclosed⟩
    · rw [hsame] at hsome
      obtain ⟨hmember, hclosed⟩ := hcounts.closed id hsome
      exact closed_of_step hstep hmember hclosed
    · exact hclosed
  · have hopen := hcounts.follows.openConnections_step hstep
    have htotal := hcounts.total
    have haccepted : connectionsAccepted (events ++ [event]) = connectionsAccepted events +
        event.server?.toList.countP ServerEvent.isIncomingConnection := by
      rw [connectionsAccepted, serverEvents, List.filterMap_append, List.countP_append]
      cases h : event.server? <;> simp [connectionsAccepted, serverEvents, h]
    rw [hhandedOver, List.length_append, haccepted]
    omega

theorem Counts.of_run {settingsStorage : QSettings} {registry : Option QString}
    (hstart : construct platform settingsStorage registry = .ok start)
    (hrun : run (Traced.step platform) (ofStart start) events = .ok traced) :
    Counts platform start events traced := by
  refine run_invariant_ok (Counts platform start) ?_ ?_ events traced hrun
  · refine ⟨.of_construct hstart, fun _ => Nat.zero_le 1, fun _ hsome => absurd rfl hsome, ?_⟩
    obtain ⟨discoverable, -, hstart⟩ := bind_eq_ok.mp hstart
    obtain rfl := Except.ok.inj hstart
    exact Nat.le_refl 0
  · exact fun _ _ _ _ _ hcounts hnext => hcounts.step hnext

/-- A closed connection brings nothing more. -/
theorem Counts.itemsOf_of_closed (hcounts : Counts platform start events traced) {id : Id}
    (hmember : id ∈ traced.program.listener.serverSockets)
    (hclosed : traced.program.listener.isOpen id = false) {more : List (ProgramEvent Id)}
    (hrun : run (Traced.step platform) traced more = .ok traced') :
    traced'.itemsOf id = traced.itemsOf id := by
  have hlaw := run_invariant_ok (fun more traced' =>
    Counts platform start (events ++ more) traced' ∧
      (id ∈ traced'.program.listener.serverSockets ∧
        traced'.program.listener.isOpen id = false) ∧
      traced'.itemsOf id = traced.itemsOf id) ?_ ?_ more traced' hrun
  · exact hlaw.2.2
  · rw [List.append_nil]
    exact ⟨hcounts, ⟨hmember, hclosed⟩, rfl⟩
  · rintro more middle event after - ⟨hcounts', ⟨hmember', hclosed'⟩, hsame⟩ hnext
    rw [← List.append_assoc]
    refine ⟨hcounts'.step hnext, closed_of_step (step_eq_ok hnext).1 hmember' hclosed', ?_⟩
    rcases hcounts'.itemsOf_cases hnext id with hitems | ⟨-, hopen, -⟩
    · exact hitems.trans hsame
    · rw [hclosed'] at hopen
      cases hopen

end Traced

/-- Trace the items that a run hands to the window, as the next event hands it its
own. Each connection has brought one item at most, and only if it was accepted and
is closed; once it is closed it brings none, however the run goes on. The items and
the connections still open are together no more than the connections accepted. -/
theorem items_of_connections (platform : Platform) (settingsStorage : QSettings)
    (registry : Option QString) (start : Program Id)
    (hstart : construct platform settingsStorage registry = .ok start)
    (events : List (ProgramEvent Id)) (program : Program Id)
    (hrun : run (step platform) start events = .ok program) :
    ∃ traced, run (Traced.step platform) (.ofStart start) events = .ok traced ∧
      traced.program = program ∧
      (∀ event arrival next, step platform program (.server event arrival) = .ok next →
        program.onNewCall platform arrival.surroundings
          ((program.handsOver platform (.server event arrival)).map Prod.snd) =
            .ok next.window) ∧
      (∀ id, (traced.itemsOf id).length ≤ 1) ∧
      (∀ id, traced.itemsOf id ≠ [] →
        id ∈ program.listener.serverSockets ∧ program.listener.isOpen id = false) ∧
      (∀ id, id ∈ program.listener.serverSockets → program.listener.isOpen id = false →
        ∀ more traced', run (Traced.step platform) traced more = .ok traced' →
          traced'.itemsOf id = traced.itemsOf id) ∧
      traced.handedOver.length + program.openConnections ≤ connectionsAccepted events := by
  obtain ⟨handedOver, htraced⟩ := Traced.exists_run hrun
  have hcounts := Traced.Counts.of_run hstart htraced
  refine ⟨⟨program, handedOver⟩, htraced, rfl, fun _ _ _ hnext => onNewCall_handsOver hnext,
    hcounts.atMostOne, hcounts.closed, ?_, hcounts.total⟩
  intro id hmember hclosed more traced' hrun'
  exact hcounts.itemsOf_of_closed hmember hclosed hrun'

/-- One connection has brought its item, the other one is still open. -/
theorem items_of_connections_two :
    ∃ program, run (step .transparent) firstStart [.server (.incomingConnection 0) .atEpoch,
        .server (.incomingConnection 1) .atEpoch,
        .server (.readyRead 0 callPacket []) .atEpoch] = .ok program ∧
      1 + program.openConnections ≤ 2 := by
  have hruns : (run (step .transparent) firstStart [.server (.incomingConnection 0) .atEpoch,
      .server (.incomingConnection 1) .atEpoch,
      .server (.readyRead 0 callPacket []) .atEpoch]).toOption.isSome := by
    decide +kernel
  obtain ⟨program, hrun⟩ := exists_ok_of_isSome hruns
  obtain ⟨traced, htraced, rfl, -, -, -, -, htotal⟩ := items_of_connections .transparent
    (fun _ => none) none firstStart rfl _ program hrun
  have hitems : (run (Traced.step .transparent) (.ofStart firstStart)
      [.server (.incomingConnection 0) .atEpoch, .server (.incomingConnection 1) .atEpoch,
        .server (.readyRead 0 callPacket []) .atEpoch]).toOption.map (·.handedOver.length) =
      some 1 := by decide +kernel
  rw [htraced] at hitems
  refine ⟨traced.program, hrun, ?_⟩
  rw [← Option.some.inj hitems]
  exact htotal

/-- In every run, whatever the peers send, a socket buffers less than the longest
packet between the events, and an open one has exactly the bytes received on its
connection. While its handler runs on a chunk it buffers these bytes and the
chunk, and nothing more. -/
theorem buffers_of_run (platform : Platform) (settingsStorage : QSettings)
    (registry : Option QString) (start : Program Id)
    (hstart : construct platform settingsStorage registry = .ok start)
    (events : List (ProgramEvent Id)) (program : Program Id)
    (hrun : run (step platform) start events = .ok program) (id : Id) (socket : CServerSocket)
    (hsocket : program.listener.sockets id = some socket) :
    socket.buffer.length < 131072 + 4 ∧
      (socket.isOpen = true →
        socket.buffer = CListenerSocket.receivedOn id (serverEvents events) ∧
        ∀ (key : AESKey) (now : QString) (chunk : QByteArray) (lastMessageStatus : QString),
          let buffer := CListenerSocket.receivedOn id (serverEvents events) ++ chunk
          socket.receive platform.decrypt key now chunk lastMessageStatus =
              CServerSocket.onReadyRead platform.decrypt key now ⟨buffer, true, false⟩
                lastMessageStatus ∧
            buffer.length < 131072 + 4 + chunk.length) := by
  have hbuffers := (Follows.of_run hstart hrun).buffers
  have hbounded := hbuffers.bounded id socket hsocket
  refine ⟨hbounded, fun hopen => ?_⟩
  obtain rfl := hbuffers.listening id socket hsocket hopen
  refine ⟨rfl, fun key now chunk lastMessageStatus => ⟨rfl, ?_⟩⟩
  rw [List.length_append]
  exact Nat.add_lt_add_right hbounded _

theorem buffers_of_run_chunk :
    ∃ program socket, run (step .transparent) firstStart
        [.server (.incomingConnection 0) .atEpoch,
          .server (.readyRead 0 (callPacket.take 7) []) .atEpoch] = .ok program ∧
      program.listener.sockets 0 = some socket ∧ socket.buffer = callPacket.take 7 := by
  have hruns : (run (step .transparent) firstStart [.server (.incomingConnection 0) .atEpoch,
      .server (.readyRead 0 (callPacket.take 7) []) .atEpoch]).toOption.isSome := by
    decide +kernel
  obtain ⟨program, hrun⟩ := exists_ok_of_isSome hruns
  have hopen : (run (step .transparent) firstStart [.server (.incomingConnection 0) .atEpoch,
      .server (.readyRead 0 (callPacket.take 7) []) .atEpoch]).toOption.map
        (·.listener.isOpen 0) = some true := by decide +kernel
  rw [hrun] at hopen
  obtain ⟨socket, hsocket, hsocketOpen⟩ := (Option.any_eq_true _ _).mp (Option.some.inj hopen)
  refine ⟨program, socket, hrun, hsocket, ?_⟩
  exact ((buffers_of_run .transparent (fun _ => none) none firstStart rfl _ program hrun 0 socket
    hsocket).2 hsocketOpen).1.trans (by decide +kernel)

end Program

end BBNotifier
