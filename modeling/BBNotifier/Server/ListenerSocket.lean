import BBNotifier.Foundation.Run
import BBNotifier.Server.ServerSocket

/-! # Connections of the server

`CListenerSocket` with the sockets it accepted, each under its own identifier.
Connections arrive, receive chunks, are closed by their peer and are deleted in
any interleaving. The messages of a connection depend on nothing but the bytes
received on it.
-/

namespace BBNotifier

open Foundation

/-- The listener and the socket objects that exist. `messages` lists the
`MessageReady` signals delivered to it, oldest first. -/
structure CListenerSocket (Id : Type) where
  sockets : Id → Option CServerSocket
  serverSockets : List Id
  pendingConnections : List Id
  lastMessageStatus : QString
  messages : List (Id × QString)

inductive ServerEvent (Id : Type)
  | incomingConnection (id : Id)
  | readyRead (id : Id) (chunk : QByteArray) (now : QString)
  | disconnected (id : Id)
  | deferredDelete (id : Id)
deriving DecidableEq

/-- The connection an event belongs to. -/
def ServerEvent.id {Id : Type} : ServerEvent Id → Id
  | incomingConnection id | readyRead id _ _ | disconnected id | deferredDelete id => id

namespace CListenerSocket

variable {Id : Type}

def new : CListenerSocket Id := ⟨fun _ => none, [], [], [], []⟩

def addPendingConnection (server : CListenerSocket Id) (id : Id) : CListenerSocket Id :=
  { server with pendingConnections := server.pendingConnections ++ [id] }

def nextPendingConnection (server : CListenerSocket Id) : CListenerSocket Id :=
  { server with pendingConnections := server.pendingConnections.tail }

/-- Whether a connection has a socket that is still open. -/
def isOpen (server : CListenerSocket Id) (id : Id) : Bool :=
  (server.sockets id).any CServerSocket.isOpen

variable [DecidableEq Id]

def setSocket (server : CListenerSocket Id) (id : Id) (socket : Option CServerSocket) :
    CListenerSocket Id :=
  { server with sockets := Function.update server.sockets id socket }

def incomingConnection (server : CListenerSocket Id) (id : Id) : CListenerSocket Id :=
  let server := server.setSocket id (some .new)
  let server := { server with serverSockets := server.serverSockets ++ [id] }
  (server.addPendingConnection id).nextPendingConnection

/-- The messages emitted by one connection. -/
def messagesOf (server : CListenerSocket Id) (id : Id) : List QString :=
  (server.messages.filter (·.1 = id)).map Prod.snd

/-- The slot of one socket runs, and its signal reaches the listener. -/
def activated (server : CListenerSocket Id) (id : Id) (activation : Activation) :
    CListenerSocket Id :=
  { server.setSocket id (some activation.socket) with
    lastMessageStatus := activation.lastMessageStatus
    messages := server.messages ++ activation.messageReady.toList.map (id, ·) }

/-- One event, where it can happen: identifiers are not reused, only open
sockets receive chunks or lose their peer, and a chunk is not empty. -/
def step (decrypt : QByteArray → AESKey → QString) (key : AESKey)
    (server : CListenerSocket Id) : ServerEvent Id → Option (CListenerSocket Id)
  | .incomingConnection id =>
      if id ∈ server.serverSockets then none else some (server.incomingConnection id)
  | .readyRead id chunk now => do
      let socket ← server.sockets id
      if socket.isOpen ∧ chunk ≠ [] then
        some (server.activated id
          (socket.receive decrypt key now chunk server.lastMessageStatus))
      else none
  | .disconnected id => do
      let socket ← server.sockets id
      if socket.isOpen then
        some (server.setSocket id (some { socket with isOpen := false }.onDisconnected))
      else none
  | .deferredDelete id => do
      let socket ← server.sockets id
      if socket.deleteScheduled then some (server.setSocket id none) else none

/-! ## What each event does -/

variable {decrypt : QByteArray → AESKey → QString} {key : AESKey}
  {server next : CListenerSocket Id}

theorem step_incomingConnection {id : Id}
    (h : step decrypt key server (.incomingConnection id) = some next) :
    id ∉ server.serverSockets ∧ next = server.incomingConnection id := by
  simp only [step] at h
  split at h
  · contradiction
  next hnot => exact ⟨hnot, (Option.some.inj h).symm⟩

theorem step_readyRead {id : Id} {chunk : QByteArray} {now : QString}
    (h : step decrypt key server (.readyRead id chunk now) = some next) :
    ∃ socket, server.sockets id = some socket ∧ socket.isOpen = true ∧ chunk ≠ [] ∧
      next = server.activated id
        (socket.receive decrypt key now chunk server.lastMessageStatus) := by
  simp only [step] at h
  obtain ⟨socket, hsocket, h⟩ := Option.bind_eq_some_iff.mp h
  split at h
  next hready => exact ⟨socket, hsocket, hready.1, hready.2, (Option.some.inj h).symm⟩
  · contradiction

theorem step_disconnected {id : Id}
    (h : step decrypt key server (.disconnected id) = some next) :
    ∃ socket, server.sockets id = some socket ∧ socket.isOpen = true ∧
      next = server.setSocket id (some { socket with isOpen := false }.onDisconnected) := by
  simp only [step] at h
  obtain ⟨socket, hsocket, h⟩ := Option.bind_eq_some_iff.mp h
  split at h
  next hopen => exact ⟨socket, hsocket, hopen, (Option.some.inj h).symm⟩
  · contradiction

theorem step_deferredDelete {id : Id}
    (h : step decrypt key server (.deferredDelete id) = some next) :
    ∃ socket, server.sockets id = some socket ∧ socket.deleteScheduled = true ∧
      next = server.setSocket id none := by
  simp only [step] at h
  obtain ⟨socket, hsocket, h⟩ := Option.bind_eq_some_iff.mp h
  split at h
  next hscheduled => exact ⟨socket, hsocket, hscheduled, (Option.some.inj h).symm⟩
  · contradiction

@[simp]
theorem sockets_setSocket_self (server : CListenerSocket Id) (id : Id)
    (socket : Option CServerSocket) : (server.setSocket id socket).sockets id = socket :=
  Function.update_self ..

theorem sockets_setSocket_of_ne (server : CListenerSocket Id) {id other : Id} (h : other ≠ id)
    (socket : Option CServerSocket) :
    (server.setSocket id socket).sockets other = server.sockets other :=
  Function.update_of_ne h ..

theorem messagesOf_activated_self (server : CListenerSocket Id) (id : Id)
    (activation : Activation) :
    (server.activated id activation).messagesOf id =
      server.messagesOf id ++ activation.messageReady.toList := by
  cases hmessage : activation.messageReady <;> simp [messagesOf, activated, hmessage]

theorem messagesOf_activated_of_ne (server : CListenerSocket Id) {id other : Id} (h : other ≠ id)
    (activation : Activation) :
    (server.activated id activation).messagesOf other = server.messagesOf other := by
  cases hmessage : activation.messageReady <;>
    simp [messagesOf, activated, hmessage, Ne.symm h]

/-- An event leaves every other connection as it was. -/
theorem step_of_ne {event : ServerEvent Id} {id : Id} (hother : event.id ≠ id)
    (hnext : step decrypt key server event = some next) :
    next.sockets id = server.sockets id ∧
      (id ∈ next.serverSockets ↔ id ∈ server.serverSockets) ∧
      next.messagesOf id = server.messagesOf id := by
  cases event with
  | incomingConnection other =>
      obtain ⟨-, rfl⟩ := step_incomingConnection hnext
      refine ⟨sockets_setSocket_of_ne _ hother.symm _, ?_, rfl⟩
      simp [incomingConnection, addPendingConnection, nextPendingConnection, setSocket,
        (show id ≠ other from hother.symm)]
  | readyRead other chunk now =>
      obtain ⟨socket, -, -, -, rfl⟩ := step_readyRead hnext
      exact ⟨sockets_setSocket_of_ne _ hother.symm _, Iff.rfl,
        messagesOf_activated_of_ne _ hother.symm _⟩
  | disconnected other =>
      obtain ⟨socket, -, -, rfl⟩ := step_disconnected hnext
      exact ⟨sockets_setSocket_of_ne _ hother.symm _, Iff.rfl, rfl⟩
  | deferredDelete other =>
      obtain ⟨socket, -, -, rfl⟩ := step_deferredDelete hnext
      exact ⟨sockets_setSocket_of_ne _ hother.symm _, Iff.rfl, rfl⟩

end CListenerSocket

end BBNotifier
