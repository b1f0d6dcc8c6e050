import BBNotifier.Server.Packet

/-! # The registry of connections

`serverSockets` gets every accepted socket, and nothing is ever taken out of it.
A deleted socket therefore stays registered, while the queue of pending
connections is emptied at once.
-/

namespace BBNotifier

open Foundation

namespace CListenerSocket

variable {Id : Type} [DecidableEq Id]

/-- In every state on the way the registry has each socket that exists once and
no other, and no connection is pending. -/
def RegistryHoldsLive (decrypt : QByteArray → AESKey → QString) (key : AESKey)
    (events : List (ServerEvent Id)) : Prop :=
  ∀ front back server, events = front ++ back →
    run (step decrypt key) new front = some server →
      (∀ id, server.serverSockets.count id = if (server.sockets id).isSome then 1 else 0) ∧
        server.pendingConnections = []

/-- How the registry stands after the events of a run. -/
structure Registers (events : List (ServerEvent Id)) (server : CListenerSocket Id) : Prop where
  nodup : server.serverSockets.Nodup
  pending : server.pendingConnections = []
  registered : ∀ id, (server.sockets id).isSome → id ∈ server.serverSockets
  live : ∀ id ∈ server.serverSockets,
    (server.sockets id).isSome ∨ .deferredDelete id ∈ events

variable {decrypt : QByteArray → AESKey → QString} {key : AESKey}
  {events : List (ServerEvent Id)} {server next : CListenerSocket Id}

theorem incomingConnection_pending (h : server.pendingConnections = []) (id : Id) :
    (server.incomingConnection id).pendingConnections = [] := by
  simp [incomingConnection, addPendingConnection, nextPendingConnection, setSocket, h]

theorem incomingConnection_serverSockets (server : CListenerSocket Id) (id : Id) :
    (server.incomingConnection id).serverSockets = server.serverSockets ++ [id] := rfl

theorem isSome_incomingConnection (server : CListenerSocket Id) (id other : Id) :
    ((server.incomingConnection id).sockets other).isSome ↔
      other = id ∨ (server.sockets other).isSome := by
  rw [show (server.incomingConnection id).sockets =
    Function.update server.sockets id (some .new) from rfl]
  by_cases hid : other = id
  · subst hid
    simp
  · simp [hid]

/-- An accepted connection is registered. -/
theorem Registers.incomingConnection (hregisters : Registers events server) {id : Id}
    (hnew : id ∉ server.serverSockets) :
    Registers (events ++ [.incomingConnection id]) (server.incomingConnection id) := by
  constructor
  · rw [incomingConnection_serverSockets]
    exact List.nodup_append.mpr ⟨hregisters.nodup, List.nodup_singleton id,
      fun other hother same hsame => by
        rw [List.mem_singleton.mp hsame]
        exact fun heq => hnew (heq ▸ hother)⟩
  · exact incomingConnection_pending hregisters.pending id
  · intro other hother
    rw [incomingConnection_serverSockets, List.mem_append, List.mem_singleton]
    rcases (isSome_incomingConnection server id other).mp hother with hid | hbefore
    · exact .inr hid
    · exact .inl (hregisters.registered other hbefore)
  · intro other hother
    rw [incomingConnection_serverSockets, List.mem_append, List.mem_singleton] at hother
    rw [isSome_incomingConnection, List.mem_append]
    rcases hother with hbefore | hid
    · rcases hregisters.live other hbefore with hlive | hdeleted
      · exact .inl (.inr hlive)
      · exact .inr (.inl hdeleted)
    · exact .inl (.inl hid)

/-- What happens to a socket that stays does not concern the registry. -/
theorem Registers.setSocket (hregisters : Registers events server) {event : ServerEvent Id}
    {id : Id} {socket : CServerSocket} (hsocket : (server.sockets id).isSome)
    (hsockets : next.sockets = Function.update server.sockets id (some socket))
    (hserverSockets : next.serverSockets = server.serverSockets)
    (hpending : next.pendingConnections = server.pendingConnections) :
    Registers (events ++ [event]) next := by
  have hsame : ∀ other, (next.sockets other).isSome = (server.sockets other).isSome := by
    intro other
    rw [hsockets]
    by_cases hid : other = id
    · subst hid
      simp [hsocket]
    · simp [hid]
  constructor
  · rw [hserverSockets]
    exact hregisters.nodup
  · rw [hpending]
    exact hregisters.pending
  · intro other hother
    rw [hserverSockets]
    exact hregisters.registered other (hsame other ▸ hother)
  · intro other hother
    rw [hserverSockets] at hother
    rw [hsame, List.mem_append]
    rcases hregisters.live other hother with hlive | hdeleted
    · exact .inl hlive
    · exact .inr (.inl hdeleted)

/-- A deleted socket stays registered. -/
theorem Registers.deferredDelete (hregisters : Registers events server) (id : Id) :
    Registers (events ++ [.deferredDelete id]) (server.setSocket id none) := by
  constructor
  · exact hregisters.nodup
  · exact hregisters.pending
  · intro other hother
    by_cases hid : other = id
    · subst hid
      rw [sockets_setSocket_self] at hother
      cases hother
    · rw [sockets_setSocket_of_ne server hid] at hother
      exact hregisters.registered other hother
  · intro other hother
    by_cases hid : other = id
    · subst hid
      exact .inr (List.mem_append_right _ List.mem_cons_self)
    · rw [sockets_setSocket_of_ne server hid]
      rcases hregisters.live other hother with hlive | hdeleted
      · exact .inl hlive
      · exact .inr (List.mem_append_left _ hdeleted)

theorem Registers.of_run (events : List (ServerEvent Id)) (server : CListenerSocket Id)
    (hrun : run (step decrypt key) new events = some server) : Registers events server := by
  refine run_invariant Registers ?_ ?_ events server hrun
  · exact ⟨List.nodup_nil, rfl, by simp [new], by simp [new]⟩
  intro events server event next _ hregisters hnext
  cases event with
  | incomingConnection id =>
      obtain ⟨hnew, rfl⟩ := step_incomingConnection hnext
      exact hregisters.incomingConnection hnew
  | readyRead id chunk now =>
      obtain ⟨socket, hsocket, -, -, rfl⟩ := step_readyRead hnext
      exact hregisters.setSocket (Option.isSome_of_eq_some hsocket) rfl rfl rfl
  | disconnected id =>
      obtain ⟨socket, hsocket, -, rfl⟩ := step_disconnected hnext
      exact hregisters.setSocket (Option.isSome_of_eq_some hsocket) rfl rfl rfl
  | deferredDelete id =>
      obtain ⟨socket, -, -, rfl⟩ := step_deferredDelete hnext
      exact hregisters.deferredDelete id

/-- Without deletions the registry is right. -/
theorem Registers.count (hregisters : Registers events server)
    (hkept : ∀ id, .deferredDelete id ∉ events) (id : Id) :
    server.serverSockets.count id = if (server.sockets id).isSome then 1 else 0 := by
  by_cases hlive : (server.sockets id).isSome
  · rw [if_pos hlive]
    exact List.count_eq_one_of_mem hregisters.nodup (hregisters.registered id hlive)
  · rw [if_neg hlive, List.count_eq_zero]
    intro hmem
    exact (hregisters.live id hmem).elim hlive (hkept id)

/-- In every run the registry holds exactly the sockets that exist, all the
time, if and only if none is ever deleted. -/
theorem registry_holds_live_iff (decrypt : QByteArray → AESKey → QString) (key : AESKey)
    (events : List (ServerEvent Id)) (final : CListenerSocket Id)
    (hrun : run (step decrypt key) new events = some final) :
    RegistryHoldsLive decrypt key events ↔ ∀ id, .deferredDelete id ∉ events := by
  constructor
  · intro hregistry id hdeleted
    obtain ⟨front, back, hevents⟩ := List.append_of_mem hdeleted
    rw [hevents] at hrun
    obtain ⟨before, after, hbefore, hnext, -⟩ := run_append_cons_eq_some.mp hrun
    have hafter := run_snoc_eq_some.mpr ⟨before, hbefore, hnext⟩
    have hcountBefore := (hregistry front _ before hevents hbefore).1 id
    have hcountAfter := (hregistry _ back after (by simp [hevents]) hafter).1 id
    obtain ⟨socket, hsocket, -, rfl⟩ := step_deferredDelete hnext
    -- The registry is the same, but the socket is gone.
    rw [sockets_setSocket_self] at hcountAfter
    rw [hsocket] at hcountBefore
    exact absurd (hcountBefore.symm.trans hcountAfter) (by simp)
  · intro hkept front back server hevents hserver
    have hregisters := Registers.of_run front server hserver
    refine ⟨hregisters.count fun id hmem => hkept id ?_, hregisters.pending⟩
    rw [hevents]
    exact List.mem_append_left _ hmem

/-- Two connections, one of them closed by its peer. -/
theorem registry_holds_live_iff_two_connections :
    RegistryHoldsLive (decryptPayload (fun _ => 1) (fun _ => 0)) .zero
      [.incomingConnection 0, .incomingConnection 1, .disconnected 0] := by
  have hruns : (run (step (decryptPayload (fun _ => 1) (fun _ => 0)) .zero) new
      [.incomingConnection 0, .incomingConnection 1, .disconnected 0]).isSome := by
    decide +kernel
  obtain ⟨final, hrun⟩ := Option.isSome_iff_exists.mp hruns
  exact (registry_holds_live_iff _ _ _ final hrun).mpr (by simp)

/-- A connection that came and went is still registered. -/
theorem not_registry_holds_live :
    ¬ ∀ (cipher : BlockCipher) (beyond : Memory) (key : AESKey) (events : List (ServerEvent Nat))
        (final : CListenerSocket Nat),
      run (step (decryptPayload cipher beyond) key) new events = some final →
      RegistryHoldsLive (decryptPayload cipher beyond) key events := by
  intro hall
  have hruns : (run (step (decryptPayload (fun _ => 1) (fun _ => 0)) .zero) new
      [.incomingConnection 0, .disconnected 0, .deferredDelete 0]).isSome := by
    decide +kernel
  obtain ⟨final, hrun⟩ := Option.isSome_iff_exists.mp hruns
  have hcount := (hall _ _ _ _ final hrun _ [] final (List.append_nil _).symm hrun).1 0
  have hregistered : (run (step (decryptPayload (fun _ => 1) (fun _ => 0)) .zero) new
      [.incomingConnection 0, .disconnected 0, .deferredDelete 0]).map
        (fun server => (server.serverSockets.count 0, (server.sockets 0).isSome)) =
      some (1, false) := by decide +kernel
  rw [hrun, Option.map_some, Option.some.injEq, Prod.mk.injEq] at hregistered
  rw [hregistered.1, hregistered.2] at hcount
  contradiction

end CListenerSocket

end BBNotifier
