import BBNotifier.Server.ListenerSocket

/-! # Framing over many connections

Each connection follows a receiver that sees nothing but its own chunks.
Since the receiver does not see where the chunks were cut, the messages and the
status of a connection are a function of the bytes received on it, whatever
happens on other connections in between.
-/

namespace BBNotifier

open Foundation

namespace CListenerSocket

variable {Id : Type} [DecidableEq Id]

/-- The chunks received on one connection, in order. -/
def chunksOf (id : Id) (events : List (ServerEvent Id)) : List QByteArray :=
  events.filterMap fun
    | .readyRead other chunk _ => if other = id then some chunk else none
    | _ => none

/-- The bytes received on one connection. -/
def receivedOn (id : Id) (events : List (ServerEvent Id)) : QByteArray :=
  (chunksOf id events).flatten

/-- Whether a connection is still open, and the messages it has emitted, as a
function of the bytes received. -/
def framing (decrypt : QByteArray → AESKey → QString) (key : AESKey) (received : QByteArray) :
    Bool × List QString :=
  if received.length < 5 then (true, [])
  else
    let payloadLength := leInt32 received
    if payloadLength < 1 ∨ payloadLength > 131072 then (false, [])
    else if (received.length : Int) < payloadLength + 4 then (true, [])
    else
      let decryptedMessage := decrypt ((received.drop 4).take payloadLength.toNat) key
      if decryptedMessage.take 8 = magic then (false, [decryptedMessage.drop 8]) else (false, [])

/-- The status and the messages of a receiver. -/
def outcome : Receiver UInt8 (Option QString) → Bool × List QString
  | .waiting _ => (true, [])
  | .settled message => (false, message.toList)

theorem outcome_of_represents {receiver : Receiver UInt8 (Option QString)}
    {socket : CServerSocket} {messages : List QString}
    (h : Represents receiver socket messages) : outcome receiver = (socket.isOpen, messages) := by
  cases h <;> rfl

variable (decrypt : QByteArray → AESKey → QString) (key : AESKey)

theorem outcome_after (received : QByteArray) :
    outcome (Receiver.after (verdict decrypt key) received) = framing decrypt key received := by
  simp only [Receiver.after, verdict, framing, CServerSocket.validMessage, payload, messageHeader]
  split_ifs with hshort hbad hpartial hvalid <;> simp [outcome, *]

/-- A new connection that receives all its bytes at once. -/
theorem receive_messageReady (now : QString) (received : QByteArray)
    (lastMessageStatus : QString) :
    (CServerSocket.new.receive decrypt key now received lastMessageStatus).messageReady.toList =
      (framing decrypt key received).2 := by
  have hrepresents := receive_represents decrypt key now [] received lastMessageStatus
  rw [← outcome_after]
  exact (congrArg Prod.snd (outcome_of_represents hrepresents)).symm

/-- The receiver that has been fed the chunks of one connection. -/
def receiverOf (id : Id) (events : List (ServerEvent Id)) : Receiver UInt8 (Option QString) :=
  (chunksOf id events).foldl (Receiver.feed (verdict decrypt key)) (.waiting [])

theorem outcome_receiverOf (id : Id) (events : List (ServerEvent Id)) :
    outcome (receiverOf decrypt key id events) = framing decrypt key (receivedOn id events) := by
  rw [receiverOf, receivedOn, ← outcome_after]
  exact congrArg outcome (Receiver.feed_chunks (verdict_stable decrypt key) _ [])

variable {decrypt key}

theorem chunksOf_snoc_of_ne {id : Id} {events : List (ServerEvent Id)} {event : ServerEvent Id}
    (hother : event.id ≠ id) : chunksOf id (events ++ [event]) = chunksOf id events := by
  cases event with
  | readyRead other chunk now =>
      have hne : other ≠ id := hother
      simp [chunksOf, hne]
  | incomingConnection | disconnected | deferredDelete => simp [chunksOf]

/-- The receiver sees nothing but the chunks. -/
theorem receiverOf_congr {id : Id} {events events' : List (ServerEvent Id)}
    (hchunks : chunksOf id events' = chunksOf id events) :
    receiverOf decrypt key id events' = receiverOf decrypt key id events := by
  rw [receiverOf, receiverOf, hchunks]

theorem receiverOf_snoc_readyRead (id : Id) (events : List (ServerEvent Id)) (chunk : QByteArray)
    (now : QString) :
    receiverOf decrypt key id (events ++ [.readyRead id chunk now]) =
      Receiver.feed (verdict decrypt key) (receiverOf decrypt key id events) chunk := by
  simp [receiverOf, chunksOf]

/-- How a connection stands after the events of a run. An open connection
buffers what its receiver has collected. -/
structure Follows (decrypt : QByteArray → AESKey → QString) (key : AESKey) (id : Id)
    (events : List (ServerEvent Id)) (server : CListenerSocket Id) : Prop where
  accepted : id ∈ server.serverSockets ↔ .incomingConnection id ∈ events
  absent : id ∉ server.serverSockets →
    server.sockets id = none ∧ chunksOf id events = [] ∧ .disconnected id ∉ events
  hungUp : .disconnected id ∈ events → server.isOpen id = false
  listening : server.isOpen id = true → ∃ received,
    receiverOf decrypt key id events = .waiting received ∧
      server.sockets id = some ⟨received, true, false⟩
  closed : id ∈ server.serverSockets → server.isOpen id = false →
    .disconnected id ∈ events ∨ ∃ message, receiverOf decrypt key id events = .settled message
  messages : server.messagesOf id = (outcome (receiverOf decrypt key id events)).2

namespace Follows

variable {id : Id} {events : List (ServerEvent Id)} {event : ServerEvent Id}
  {server next : CListenerSocket Id}

theorem start : Follows decrypt key id [] (new : CListenerSocket Id) where
  accepted := by simp [new]
  absent := fun _ => ⟨rfl, rfl, by simp⟩
  hungUp := by simp
  listening := by simp [isOpen, new]
  closed := by simp [new]
  messages := rfl

/-- Other connections do not matter. -/
theorem step_other (hfollows : Follows decrypt key id events server) (hother : event.id ≠ id)
    (hnext : step decrypt key server event = some next) :
    Follows decrypt key id (events ++ [event]) next := by
  obtain ⟨hsockets, hserverSockets, hmessages⟩ := step_of_ne hother hnext
  have hisOpen : next.isOpen id = server.isOpen id := by rw [isOpen, isOpen, hsockets]
  have hchunks : chunksOf id (events ++ [event]) = chunksOf id events :=
    chunksOf_snoc_of_ne hother
  have hreceiver : receiverOf decrypt key id (events ++ [event]) =
      receiverOf decrypt key id events := receiverOf_congr hchunks
  have hmem : ∀ own : ServerEvent Id, own.id = id → (own ∈ events ++ [event] ↔ own ∈ events) := by
    intro own hown
    have hne : own ≠ event := fun heq => hother (heq ▸ hown)
    simp [hne]
  constructor
  · rw [hserverSockets, hmem _ rfl, hfollows.accepted]
  · rw [hserverSockets, hsockets, hchunks, hmem _ rfl]
    exact hfollows.absent
  · rw [hmem _ rfl, hisOpen]
    exact hfollows.hungUp
  · rw [hisOpen, hreceiver, hsockets]
    exact hfollows.listening
  · rw [hserverSockets, hisOpen, hmem _ rfl, hreceiver]
    exact hfollows.closed
  · rw [hmessages, hreceiver]
    exact hfollows.messages

omit [DecidableEq Id] in
theorem isOpen_of_sockets {socket : CServerSocket} (hsocket : server.sockets id = some socket) :
    server.isOpen id = socket.isOpen := by
  rw [isOpen, hsocket, Option.any_some]

theorem mem_serverSockets (hfollows : Follows decrypt key id events server)
    {socket : CServerSocket} (hsocket : server.sockets id = some socket) :
    id ∈ server.serverSockets := by
  by_contra hnot
  rw [(hfollows.absent hnot).1] at hsocket
  contradiction

theorem step_incomingConnection_self (hfollows : Follows decrypt key id events server)
    (hnext : step decrypt key server (.incomingConnection id) = some next) :
    Follows decrypt key id (events ++ [.incomingConnection id]) next := by
  obtain ⟨hnew, rfl⟩ := step_incomingConnection hnext
  obtain ⟨-, hchunks, hup⟩ := hfollows.absent hnew
  have hsocket : (server.incomingConnection id).sockets id = some ⟨[], true, false⟩ :=
    sockets_setSocket_self ..
  have hmember : id ∈ (server.incomingConnection id).serverSockets :=
    List.mem_append_right _ (List.mem_singleton_self id)
  have hreceiver : receiverOf decrypt key id (events ++ [.incomingConnection id]) =
      .waiting [] := by
    have happend : chunksOf id (events ++ [.incomingConnection id]) = chunksOf id events := by
      simp [chunksOf]
    rw [receiverOf, happend, hchunks, List.foldl_nil]
  have hquiet : server.messagesOf id = [] := by
    rw [hfollows.messages, receiverOf, hchunks]
    rfl
  constructor
  · simp [hmember]
  · exact fun hnot => absurd hmember hnot
  · intro hhungUp
    simp [hup] at hhungUp
  · exact fun _ => ⟨[], hreceiver, hsocket⟩
  · intro _ hshut
    rw [isOpen_of_sockets hsocket] at hshut
    contradiction
  · rw [hreceiver]
    exact hquiet

/-- The chunk goes to the receiver, and the socket keeps representing it. -/
theorem step_readyRead_self (hfollows : Follows decrypt key id events server)
    {chunk : QByteArray} {now : QString}
    (hnext : step decrypt key server (.readyRead id chunk now) = some next) :
    Follows decrypt key id (events ++ [.readyRead id chunk now]) next := by
  obtain ⟨socket, hsocket, hopen, -, rfl⟩ := step_readyRead hnext
  have hisOpen : server.isOpen id = true := by rw [isOpen_of_sockets hsocket, hopen]
  -- An open connection has lost no peer and emitted nothing.
  have hup : .disconnected id ∉ events := fun hmem => by
    rw [hfollows.hungUp hmem] at hisOpen
    contradiction
  obtain ⟨received, hwaiting, hbuffer⟩ := hfollows.listening hisOpen
  obtain rfl := Option.some.inj (hsocket.symm.trans hbuffer)
  have hquiet : server.messagesOf id = [] := by rw [hfollows.messages, hwaiting, outcome]
  have hmember := hfollows.mem_serverSockets hsocket
  have hrepresents := receive_represents decrypt key now received chunk server.lastMessageStatus
  dsimp only at hrepresents
  rw [← hwaiting, ← receiverOf_snoc_readyRead id events chunk now] at hrepresents
  generalize hactivation : CServerSocket.receive decrypt key now ⟨received, true, false⟩ chunk
    server.lastMessageStatus = activation at hrepresents ⊢
  have hsocket' : (server.activated id activation).sockets id = some activation.socket :=
    sockets_setSocket_self ..
  have hmessages : (server.activated id activation).messagesOf id =
      activation.messageReady.toList := by
    rw [messagesOf_activated_self, hquiet, List.nil_append]
  have hisOpen' := isOpen_of_sockets hsocket'
  have hsame : ∀ own : ServerEvent Id, own ≠ .readyRead id chunk now →
      (own ∈ events ++ [.readyRead id chunk now] ↔ own ∈ events) := by
    intro own hne
    simp [hne]
  -- From here on only what the receiver has become matters.
  generalize hreceiver : receiverOf decrypt key id (events ++ [.readyRead id chunk now]) =
    receiver at hrepresents
  generalize activation.messageReady.toList = emitted at hrepresents hmessages
  generalize activation.socket = socket at hrepresents hsocket' hisOpen'
  constructor
  · rw [hsame _ (by simp), ← hfollows.accepted]
    rfl
  · exact fun hnot => absurd hmember hnot
  · intro hhungUp
    exact absurd ((hsame _ (by simp)).mp hhungUp) hup
  · intro hlistening
    rw [hreceiver]
    cases hrepresents with
    | waiting received' => exact ⟨received', rfl, hsocket'⟩
    | settled message => rw [hisOpen'] at hlistening; contradiction
  · intro _ hshut
    rw [hreceiver]
    cases hrepresents with
    | waiting received' => rw [hisOpen'] at hshut; contradiction
    | settled message => exact .inr ⟨message, rfl⟩
  · rw [hreceiver, hmessages]
    cases hrepresents <;> rfl

theorem step_disconnected_self (hfollows : Follows decrypt key id events server)
    (hnext : step decrypt key server (.disconnected id) = some next) :
    Follows decrypt key id (events ++ [.disconnected id]) next := by
  obtain ⟨socket, hsocket, -, rfl⟩ := step_disconnected hnext
  have hmember := hfollows.mem_serverSockets hsocket
  have hreceiver : receiverOf decrypt key id (events ++ [.disconnected id]) =
      receiverOf decrypt key id events := receiverOf_congr (by simp [chunksOf])
  have hshut := isOpen_of_sockets (sockets_setSocket_self server id
    (some { socket with isOpen := false }.onDisconnected))
  constructor
  · simp [← hfollows.accepted, setSocket]
  · exact fun hnot => absurd hmember hnot
  · exact fun _ => hshut
  · intro hlistening
    rw [hshut] at hlistening
    contradiction
  · exact fun _ _ => .inl (by simp)
  · rw [hreceiver]
    exact hfollows.messages

theorem step_deferredDelete_self (hfollows : Follows decrypt key id events server)
    (hnext : step decrypt key server (.deferredDelete id) = some next) :
    Follows decrypt key id (events ++ [.deferredDelete id]) next := by
  obtain ⟨socket, hsocket, hscheduled, rfl⟩ := step_deferredDelete hnext
  have hmember := hfollows.mem_serverSockets hsocket
  have hreceiver : receiverOf decrypt key id (events ++ [.deferredDelete id]) =
      receiverOf decrypt key id events := receiverOf_congr (by simp [chunksOf])
  have hgone : (server.setSocket id none).isOpen id = false := by
    rw [isOpen, sockets_setSocket_self, Option.any_none]
  -- A socket that is to be deleted has been closed before.
  have hshut : server.isOpen id = false := by
    by_contra hlistening
    obtain ⟨received, -, hbuffer⟩ := hfollows.listening (by simpa using hlistening)
    obtain rfl := Option.some.inj (hsocket.symm.trans hbuffer)
    contradiction
  constructor
  · simp [← hfollows.accepted, setSocket]
  · exact fun hnot => absurd hmember hnot
  · exact fun _ => hgone
  · intro hlistening
    rw [hgone] at hlistening
    contradiction
  · intro _ _
    rw [hreceiver]
    simpa using hfollows.closed hmember hshut
  · rw [hreceiver]
    exact hfollows.messages

theorem step (hfollows : Follows decrypt key id events server)
    (hnext : CListenerSocket.step decrypt key server event = some next) :
    Follows decrypt key id (events ++ [event]) next := by
  by_cases hother : event.id = id
  · subst hother
    cases event with
    | incomingConnection => exact hfollows.step_incomingConnection_self hnext
    | readyRead => exact hfollows.step_readyRead_self hnext
    | disconnected => exact hfollows.step_disconnected_self hnext
    | deferredDelete => exact hfollows.step_deferredDelete_self hnext
  · exact hfollows.step_other hother hnext

theorem of_run (id : Id) (events : List (ServerEvent Id)) (server : CListenerSocket Id)
    (hrun : run (CListenerSocket.step decrypt key) new events = some server) :
    Follows decrypt key id events server :=
  run_invariant (Follows decrypt key id) start
    (fun _ _ _ _ _ hfollows hnext => hfollows.step hnext) events server hrun

end Follows

/-- The messages of a connection, from the bytes received on it. -/
theorem messagesOf_of_run {events : List (ServerEvent Id)} {server : CListenerSocket Id}
    (hrun : run (step decrypt key) new events = some server) (id : Id) :
    server.messagesOf id = (framing decrypt key (receivedOn id events)).2 := by
  rw [← outcome_receiverOf]
  exact (Follows.of_run id events server hrun).messages

/-- However the streams are cut and interleaved, a connection has emitted what
the framing of its own bytes says, and it is open exactly while the framing
leaves it open and its peer has not hung up. -/
theorem framing_of_run (decrypt : QByteArray → AESKey → QString) (key : AESKey)
    (events : List (ServerEvent Id)) (server : CListenerSocket Id)
    (hrun : run (step decrypt key) new events = some server) (id : Id) :
    server.messagesOf id = (framing decrypt key (receivedOn id events)).2 ∧
      (server.isOpen id = true ↔ .incomingConnection id ∈ events ∧ .disconnected id ∉ events ∧
        (framing decrypt key (receivedOn id events)).1 = true) := by
  have hfollows := Follows.of_run id events server hrun
  refine ⟨messagesOf_of_run hrun id, ?_⟩
  rw [← outcome_receiverOf]
  constructor
  · intro hlistening
    have hmember : id ∈ server.serverSockets := by
      obtain ⟨received, -, hsocket⟩ := hfollows.listening hlistening
      exact hfollows.mem_serverSockets hsocket
    refine ⟨hfollows.accepted.mp hmember, ?_, ?_⟩
    · intro hhungUp
      rw [hfollows.hungUp hhungUp] at hlistening
      contradiction
    · obtain ⟨received, hwaiting, -⟩ := hfollows.listening hlistening
      rw [hwaiting, outcome]
  · rintro ⟨hincoming, hup, hopen⟩
    by_contra hshut
    rcases hfollows.closed (hfollows.accepted.mpr hincoming) (by simpa using hshut) with
      hhungUp | ⟨message, hsettled⟩
    · exact hup hhungUp
    · rw [hsettled] at hopen
      contradiction

/-- A packet in two chunks, with a bad length on another connection between
them. -/
theorem framing_of_run_two_connections :
    ∃ server : CListenerSocket Nat,
      run (step (fun payload _ => QString.fromUtf8 payload) .zero) new
        [.incomingConnection 0, .incomingConnection 1,
          .readyRead 0 ([9, 0, 0] : QByteArray) [],
          .readyRead 1 ([0, 0, 0, 128, 7] : QByteArray) [],
          .readyRead 0 ([0, 67, 64, 76, 76, 69, 82, 35, 10, 65, 1] : QByteArray) []] = some server ∧
      server.messagesOf 0 = [QString.lit "A"] ∧ server.messagesOf 1 = [] ∧
      server.isOpen 1 = false := by
  obtain ⟨server, hrun⟩ := Option.isSome_iff_exists.mp
    (show (run (step (fun payload _ => QString.fromUtf8 payload) .zero) new
        [.incomingConnection 0, .incomingConnection 1,
          .readyRead 0 ([9, 0, 0] : QByteArray) [],
          .readyRead 1 ([0, 0, 0, 128, 7] : QByteArray) [],
          .readyRead 0 ([0, 67, 64, 76, 76, 69, 82, 35, 10, 65, 1] : QByteArray)
            []]).isSome = true by decide +kernel)
  refine ⟨server, hrun, ?_, ?_, ?_⟩
  · rw [(framing_of_run _ _ _ _ hrun 0).1]
    decide +kernel
  · rw [(framing_of_run _ _ _ _ hrun 1).1]
    decide +kernel
  · rw [Bool.eq_false_iff, ne_eq, (framing_of_run _ _ _ _ hrun 1).2]
    decide +kernel

end CListenerSocket

end BBNotifier
