import BBNotifier.Server.Framing

/-! # What the sockets buffer

An open socket holds the bytes received on its connection. It is closed as soon
as they are a whole packet or give a length that cannot be right, so no peer can
make the program hold more than a packet for it. None of this depends on the
key, which may change while connections are open.
-/

namespace BBNotifier

open Foundation

/-- What one chunk makes of a socket that holds the bytes received before. -/
theorem receive_cases (decrypt : QByteArray → AESKey → QString) (key : AESKey) (now : QString)
    (received chunk : QByteArray) (lastMessageStatus : QString) :
    let activation := CServerSocket.receive decrypt key now ⟨received, true, false⟩ chunk
      lastMessageStatus
    (verdict decrypt key (received ++ chunk) = none ∧ activation.messageReady = none ∧
        activation.socket = ⟨received ++ chunk, true, false⟩) ∨
      (verdict decrypt key (received ++ chunk) = some activation.messageReady ∧
        activation.socket = ⟨[], false, true⟩) := by
  have hrepresents := receive_represents decrypt key now received chunk lastMessageStatus
  simp only [Receiver.feed, Receiver.after] at hrepresents ⊢
  generalize CServerSocket.receive decrypt key now ⟨received, true, false⟩ chunk
    lastMessageStatus = activation at hrepresents ⊢
  obtain ⟨socket, messageReady, status⟩ := activation
  cases hverdict : verdict decrypt key (received ++ chunk) with
  | none =>
      rw [hverdict] at hrepresents
      cases messageReady with
      | none =>
          cases hrepresents
          exact .inl ⟨rfl, rfl, rfl⟩
      | some message => cases hrepresents
  | some message =>
      rw [hverdict] at hrepresents
      have hsettled : socket = ⟨[], false, true⟩ ∧ messageReady.toList = message.toList := by
        generalize hmessages : messageReady.toList = messages at hrepresents
        cases hrepresents
        exact ⟨rfl, rfl⟩
      refine .inr ⟨congrArg some ?_, hsettled.1⟩
      cases message <;> cases messageReady <;> simp_all

/-- Bytes without a verdict are less than the longest packet. -/
theorem length_lt_of_verdict_eq_none {decrypt : QByteArray → AESKey → QString} {key : AESKey}
    {received : QByteArray} (h : verdict decrypt key received = none) :
    received.length < 131076 := by
  unfold verdict at h
  split at h
  next hshort => omega
  · split at h
    · contradiction
    next hgood =>
      split at h
      · omega
      · contradiction

namespace CListenerSocket

variable {Id : Type} [DecidableEq Id]

section

variable {id : Id} {events : List (ServerEvent Id)} {event : ServerEvent Id}

theorem receivedOn_snoc_readyRead (id : Id) (events : List (ServerEvent Id)) (chunk : QByteArray)
    (now : QString) :
    receivedOn id (events ++ [.readyRead id chunk now]) = receivedOn id events ++ chunk := by
  simp [receivedOn, chunksOf]

theorem receivedOn_snoc_of_ne (h : event.id ≠ id) :
    receivedOn id (events ++ [event]) = receivedOn id events := by
  rw [receivedOn, chunksOf_snoc_of_ne h, receivedOn]

/-- Only chunks bring bytes. -/
theorem receivedOn_snoc (h : ∀ id chunk now, event ≠ .readyRead id chunk now) :
    receivedOn id (events ++ [event]) = receivedOn id events := by
  cases event with
  | readyRead other chunk now => exact absurd rfl (h other chunk now)
  | incomingConnection | disconnected | deferredDelete => simp [receivedOn, chunksOf]

end

theorem isOpen_activated (server : CListenerSocket Id) (id : Id) (activation : Activation) :
    (server.activated id activation).isOpen id = activation.socket.isOpen :=
  Follows.isOpen_of_sockets (sockets_setSocket_self ..)

/-- How the sockets stand after the events of a run. -/
structure Buffers (events : List (ServerEvent Id)) (server : CListenerSocket Id) : Prop where
  absent : ∀ id, id ∉ server.serverSockets →
    server.sockets id = none ∧ receivedOn id events = []
  listening : ∀ id socket, server.sockets id = some socket → socket.isOpen = true →
    socket = ⟨receivedOn id events, true, false⟩
  bounded : ∀ id socket, server.sockets id = some socket → socket.buffer.length < 131076

namespace Buffers

variable {decrypt : QByteArray → AESKey → QString} {key : AESKey}
  {events : List (ServerEvent Id)} {event : ServerEvent Id} {server next : CListenerSocket Id}

theorem start : Buffers [] (new : CListenerSocket Id) where
  absent := fun _ _ => ⟨rfl, rfl⟩
  listening := fun _ _ h => nomatch h
  bounded := fun _ _ h => nomatch h

theorem mem_serverSockets (hbuffers : Buffers events server) {id : Id} {socket : CServerSocket}
    (hsocket : server.sockets id = some socket) : id ∈ server.serverSockets := by
  by_contra hnot
  rw [(hbuffers.absent id hnot).1] at hsocket
  contradiction

/-- It is enough to look at the connection of the event. -/
theorem of_self (hbuffers : Buffers events server)
    (hnext : CListenerSocket.step decrypt key server event = some next)
    (hmember : event.id ∈ next.serverSockets)
    (hself : ∀ socket, next.sockets event.id = some socket →
      (socket.isOpen = true → socket = ⟨receivedOn event.id (events ++ [event]), true, false⟩) ∧
        socket.buffer.length < 131076) :
    Buffers (events ++ [event]) next := by
  constructor
  · intro id hnot
    by_cases hid : event.id = id
    · exact absurd (hid ▸ hmember) hnot
    · obtain ⟨hsockets, hserverSockets, -⟩ := step_of_ne hid hnext
      rw [hsockets, receivedOn_snoc_of_ne hid]
      exact hbuffers.absent id (mt hserverSockets.mpr hnot)
  · intro id socket hsocket hopen
    by_cases hid : event.id = id
    · subst hid
      exact (hself socket hsocket).1 hopen
    · rw [(step_of_ne hid hnext).1] at hsocket
      rw [receivedOn_snoc_of_ne hid]
      exact hbuffers.listening id socket hsocket hopen
  · intro id socket hsocket
    by_cases hid : event.id = id
    · subst hid
      exact (hself socket hsocket).2
    · rw [(step_of_ne hid hnext).1] at hsocket
      exact hbuffers.bounded id socket hsocket

theorem step (hbuffers : Buffers events server)
    (hnext : CListenerSocket.step decrypt key server event = some next) :
    Buffers (events ++ [event]) next := by
  cases event with
  | incomingConnection id =>
      obtain ⟨hnew, hserver⟩ := step_incomingConnection hnext
      have hsocket : next.sockets id = some ⟨[], true, false⟩ := by
        rw [hserver]
        exact sockets_setSocket_self ..
      apply hbuffers.of_self hnext
      · rw [hserver]
        exact List.mem_append_right _ (List.mem_singleton_self id)
      · intro socket hself
        obtain rfl := Option.some.inj (hself.symm.trans hsocket)
        rw [receivedOn_snoc (by simp)]
        exact ⟨fun _ => by rw [ServerEvent.id, (hbuffers.absent id hnew).2], by decide⟩
  | readyRead id chunk now =>
      obtain ⟨socket, hsocket, hopen, -, hserver⟩ := step_readyRead hnext
      obtain rfl := hbuffers.listening id socket hsocket hopen
      apply hbuffers.of_self hnext
      · rw [hserver]
        exact hbuffers.mem_serverSockets hsocket
      · intro socket' hself
        have hactivated : next.sockets id = some (CServerSocket.receive decrypt key now
            ⟨receivedOn id events, true, false⟩ chunk server.lastMessageStatus).socket := by
          rw [hserver]
          exact sockets_setSocket_self ..
        rw [ServerEvent.id, receivedOn_snoc_readyRead]
        obtain rfl := Option.some.inj (hself.symm.trans hactivated)
        rcases receive_cases decrypt key now (receivedOn id events) chunk
          server.lastMessageStatus with ⟨hverdict, -, hsocket'⟩ | ⟨-, hsocket'⟩
        · rw [hsocket']
          exact ⟨fun _ => rfl, length_lt_of_verdict_eq_none hverdict⟩
        · rw [hsocket']
          exact ⟨fun hopen' => Bool.noConfusion hopen', (by decide : (0 : Nat) < 131076)⟩
  | disconnected id =>
      obtain ⟨socket, hsocket, -, hserver⟩ := step_disconnected hnext
      apply hbuffers.of_self hnext
      · rw [hserver]
        exact hbuffers.mem_serverSockets hsocket
      · intro socket' hself
        rw [hserver, ServerEvent.id, sockets_setSocket_self] at hself
        obtain rfl := Option.some.inj hself
        exact ⟨fun hopen => Bool.noConfusion hopen, hbuffers.bounded id socket hsocket⟩
  | deferredDelete id =>
      obtain ⟨socket, hsocket, -, hserver⟩ := step_deferredDelete hnext
      apply hbuffers.of_self hnext
      · rw [hserver]
        exact hbuffers.mem_serverSockets hsocket
      · intro socket' hself
        rw [hserver, ServerEvent.id, sockets_setSocket_self] at hself
        contradiction

end Buffers

end CListenerSocket

end BBNotifier
