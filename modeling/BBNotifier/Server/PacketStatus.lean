import BBNotifier.Server.Delivery

/-! # The status of the last packet

All connections share one status text. A chunk that completes a packet sets it.
So does a chunk that leaves a packet incomplete once its length is known, and a
packet rejected for its length does not. The text therefore describes the last
finished packet as long as such chunks come after one that was not valid.
-/

namespace BBNotifier

open Foundation

namespace CListenerSocket

variable {Id : Type} [DecidableEq Id]

/-- The received bytes give a length that cannot be right. -/
def BadLength (received : QByteArray) : Prop :=
  leInt32 received < 1 ∨ 131072 < leInt32 received

instance (received : QByteArray) : Decidable (BadLength received) :=
  inferInstanceAs (Decidable (_ ∨ _))

/-- What an event finishes: a packet that was complete or rejected for its
length, and whether its message was emitted. -/
def finished (decrypt : QByteArray → AESKey → QString) (key : AESKey)
    (events : List (ServerEvent Id)) : ServerEvent Id → Option Bool
  | .readyRead id chunk _ =>
      match framing decrypt key (receivedOn id events ++ chunk) with
      | (true, _) => none
      | (false, messages) => some (!messages.isEmpty)
  | _ => none

/-- Whether the message of the packet finished last was emitted. -/
def lastFinished (decrypt : QByteArray → AESKey → QString) (key : AESKey)
    (events : List (ServerEvent Id)) : Option Bool :=
  go events.reverse
where
  go : List (ServerEvent Id) → Option Bool
  | [] => none
  | event :: before => (finished decrypt key before.reverse event).or (go before)

/-- The status text, but for the time it shows. -/
def Reports (status : QString) : Option Bool → Prop
  | none => status = []
  | some isCorrectMessage => ∃ now, status = CServerSocket.statusMsg now isCorrectMessage

/-- A chunk that leaves a packet incomplete once its length is known, and one that
gets it rejected, come only while the packet finished last was not valid. -/
def AgreesWithLast (decrypt : QByteArray → AESKey → QString) (key : AESKey)
    (events : List (ServerEvent Id)) : Prop :=
  ∀ front id chunk now back, events = front ++ .readyRead id chunk now :: back →
    5 ≤ (receivedOn id front ++ chunk).length →
    (BadLength (receivedOn id front ++ chunk) ∨
      ((receivedOn id front ++ chunk).length : Int) <
        leInt32 (receivedOn id front ++ chunk) + 4) →
    lastFinished decrypt key front = some false

variable (decrypt : QByteArray → AESKey → QString) (key : AESKey)

theorem lastFinished_snoc (events : List (ServerEvent Id)) (event : ServerEvent Id) :
    lastFinished decrypt key (events ++ [event]) =
      (finished decrypt key events event).or (lastFinished decrypt key events) := by
  rw [lastFinished, List.reverse_append, List.reverse_singleton, List.singleton_append,
    lastFinished.go, List.reverse_reverse]
  rfl

/-- The four ways in which received bytes can stand. -/
theorem framing_cases (received : QByteArray) :
    (received.length < 5 ∧ framing decrypt key received = (true, [])) ∨
    (5 ≤ received.length ∧ BadLength received ∧ framing decrypt key received = (false, [])) ∨
    (5 ≤ received.length ∧ ¬ BadLength received ∧
      (received.length : Int) < leInt32 received + 4 ∧
      framing decrypt key received = (true, [])) ∨
    (5 ≤ received.length ∧ ¬ BadLength received ∧
      leInt32 received + 4 ≤ (received.length : Int) ∧
      ∃ messages, framing decrypt key received = (false, messages)) := by
  by_cases hshort : received.length < 5
  · exact .inl ⟨hshort, if_pos hshort⟩
  rw [framing, if_neg hshort]
  have hlong := not_lt.mp hshort
  by_cases hbad : BadLength received
  · exact .inr (.inl ⟨hlong, hbad, if_pos hbad⟩)
  have hgood : ¬ (leInt32 received < 1 ∨ leInt32 received > 131072) := hbad
  simp only
  rw [if_neg hgood]
  by_cases hpartial : (received.length : Int) < leInt32 received + 4
  · exact .inr (.inr (.inl ⟨hlong, hbad, hpartial, if_pos hpartial⟩))
  · rw [if_neg hpartial]
    refine .inr (.inr (.inr ⟨hlong, hbad, not_lt.mp hpartial, ?_⟩))
    split
    · exact ⟨_, rfl⟩
    · exact ⟨_, rfl⟩

/-- What one call of the slot makes of the status. -/
theorem receive_lastMessageStatus (now : QString) (received chunk : QByteArray)
    (lastMessageStatus : QString) :
    (CServerSocket.receive decrypt key now ⟨received, true, false⟩ chunk
        lastMessageStatus).lastMessageStatus =
      if 5 ≤ (received ++ chunk).length ∧ ¬ BadLength (received ++ chunk) then
        CServerSocket.statusMsg now (!(framing decrypt key (received ++ chunk)).2.isEmpty)
      else lastMessageStatus := by
  have hframing : framing decrypt key (received ++ chunk) = (_, _) :=
    (outcome_after decrypt key _).symm.trans (outcome_of_represents
      (receive_represents decrypt key now received chunk lastMessageStatus))
  have hisSome : ∀ message : Option QString, (!message.toList.isEmpty) = message.isSome := by
    intro message
    cases message <;> rfl
  rw [hframing, hisSome]
  simp only [CServerSocket.receive, CServerSocket.onReadyRead, CServerSocket.bytesAvailable]
  generalize received ++ chunk = buffer
  by_cases hlong : 5 ≤ buffer.length
  · have havailable : (buffer.length : Int) > 4 := by omega
    rw [if_pos havailable]
    by_cases hbad : BadLength buffer
    · rw [if_pos hbad.symm, if_neg (fun h => h.2 hbad)]
    · have hreported : 5 ≤ buffer.length ∧ ¬ BadLength buffer := ⟨hlong, hbad⟩
      rw [if_neg (mt Or.symm hbad), if_pos hreported]
      -- Complete or not, the text follows the signal.
      split
      · rfl
      · rfl
  · have havailable : ¬ (buffer.length : Int) > 4 := by omega
    rw [if_neg havailable, if_neg (fun h => hlong h.1)]

variable {decrypt key}

/-- What an open connection has buffered is what was received on it. -/
theorem eq_receivedOn_of_waiting {id : Id} {events : List (ServerEvent Id)}
    {received : QByteArray} (h : receiverOf decrypt key id events = .waiting received) :
    received = receivedOn id events := by
  have hafter : Receiver.after (verdict decrypt key) (receivedOn id events) =
      .waiting received := by
    rw [← h, receiverOf, receivedOn]
    exact (Receiver.feed_chunks (verdict_stable decrypt key) _ []).symm
  unfold Receiver.after at hafter
  split at hafter
  · exact (Receiver.waiting.inj hafter).symm
  · contradiction

/-- The status after one more event. -/
def statusAfter (decrypt : QByteArray → AESKey → QString) (key : AESKey)
    (events : List (ServerEvent Id)) (lastMessageStatus : QString) : ServerEvent Id → QString
  | .readyRead id chunk now =>
      if 5 ≤ (receivedOn id events ++ chunk).length ∧
          ¬ BadLength (receivedOn id events ++ chunk) then
        CServerSocket.statusMsg now
          (!(framing decrypt key (receivedOn id events ++ chunk)).2.isEmpty)
      else lastMessageStatus
  | _ => lastMessageStatus

theorem lastMessageStatus_of_step {events : List (ServerEvent Id)} {event : ServerEvent Id}
    {server next : CListenerSocket Id} (hrun : run (step decrypt key) new events = some server)
    (hnext : step decrypt key server event = some next) :
    next.lastMessageStatus =
      statusAfter decrypt key events server.lastMessageStatus event := by
  cases event with
  | incomingConnection id =>
      obtain ⟨-, rfl⟩ := step_incomingConnection hnext
      rfl
  | readyRead id chunk now =>
      obtain ⟨socket, hsocket, hopen, -, rfl⟩ := step_readyRead hnext
      have hfollows := Follows.of_run id events server hrun
      obtain ⟨received, hwaiting, hbuffer⟩ :=
        hfollows.listening ((Follows.isOpen_of_sockets hsocket).trans hopen)
      obtain rfl := Option.some.inj (hsocket.symm.trans hbuffer)
      rw [statusAfter, ← eq_receivedOn_of_waiting hwaiting]
      exact receive_lastMessageStatus decrypt key now received chunk _
  | disconnected id =>
      obtain ⟨socket, -, -, rfl⟩ := step_disconnected hnext
      rfl
  | deferredDelete id =>
      obtain ⟨socket, -, -, rfl⟩ := step_deferredDelete hnext
      rfl

/-! ## What the status says -/

/-- The end of the text tells which of the two it is. -/
theorem statusMsg_inj {now now' : QString} {isCorrectMessage isCorrectMessage' : Bool}
    (h : CServerSocket.statusMsg now isCorrectMessage =
      CServerSocket.statusMsg now' isCorrectMessage') : isCorrectMessage = isCorrectMessage' := by
  have hend : ∀ now isCorrectMessage,
      (CServerSocket.statusMsg now isCorrectMessage).reverse.take 2 =
        if isCorrectMessage then [46, 100] else [46, 110] := by
    intro now isCorrectMessage
    rw [CServerSocket.statusMsg, List.reverse_append, List.take_append_of_le_length]
    · cases isCorrectMessage <;> decide +kernel
    · cases isCorrectMessage <;> decide +kernel
  have hsame := congrArg (fun status => status.reverse.take 2) h
  simp only [hend] at hsame
  cases isCorrectMessage <;> cases isCorrectMessage' <;> first | rfl | simp at hsame

theorem statusMsg_ne_nil (now : QString) (isCorrectMessage : Bool) :
    CServerSocket.statusMsg now isCorrectMessage ≠ [] := by
  intro hnil
  rw [CServerSocket.statusMsg, List.append_eq_nil_iff, List.append_eq_nil_iff] at hnil
  exact absurd hnil.1.1 (by decide +kernel)

theorem Reports.unique {status : QString} {said said' : Option Bool} (h : Reports status said)
    (h' : Reports status said') : said = said' := by
  cases said with
  | none =>
      cases said' with
      | none => rfl
      | some =>
          obtain ⟨now, hstatus⟩ := h'
          exact absurd (hstatus.symm.trans h) (statusMsg_ne_nil now _)
  | some =>
      obtain ⟨now, hstatus⟩ := h
      cases said' with
      | none => exact absurd (hstatus.symm.trans h') (statusMsg_ne_nil now _)
      | some =>
          obtain ⟨now', hstatus'⟩ := h'
          exact congrArg some (statusMsg_inj (hstatus.symm.trans hstatus'))

/-- The status in every state on the way describes the packet finished last, and
a chunk that leaves its packet incomplete leaves what it says. -/
structure StatusFollowsPackets (decrypt : QByteArray → AESKey → QString) (key : AESKey)
    (events : List (ServerEvent Id)) : Prop where
  reports : ∀ front back server, events = front ++ back →
    run (step decrypt key) new front = some server →
      Reports server.lastMessageStatus (lastFinished decrypt key front)
  kept : ∀ front id chunk now back before after,
    events = front ++ .readyRead id chunk now :: back →
    run (step decrypt key) new front = some before →
    step decrypt key before (.readyRead id chunk now) = some after →
    (framing decrypt key (receivedOn id front ++ chunk)).1 = true →
      ∀ said, Reports before.lastMessageStatus said → Reports after.lastMessageStatus said

theorem AgreesWithLast.of_append {events more : List (ServerEvent Id)}
    (h : AgreesWithLast decrypt key (events ++ more)) : AgreesWithLast decrypt key events := by
  intro front id chunk now back hevents
  apply h front id chunk now (back ++ more)
  rw [hevents, List.append_assoc, List.cons_append]

/-- Where the condition holds, each event makes the status say what it has to. -/
theorem reports_step {events : List (ServerEvent Id)} {event : ServerEvent Id}
    {server next : CListenerSocket Id} (hrun : run (step decrypt key) new events = some server)
    (hnext : step decrypt key server event = some next)
    (hagrees : AgreesWithLast decrypt key (events ++ [event]))
    (hreports : Reports server.lastMessageStatus (lastFinished decrypt key events)) :
    Reports next.lastMessageStatus (lastFinished decrypt key (events ++ [event])) := by
  rw [lastMessageStatus_of_step hrun hnext, lastFinished_snoc]
  cases event with
  | incomingConnection | disconnected | deferredDelete => exact hreports
  | readyRead id chunk now =>
      have hlast := hagrees events id chunk now [] rfl
      rw [statusAfter, finished]
      rcases framing_cases decrypt key (receivedOn id events ++ chunk) with
        ⟨hshort, hframing⟩ | ⟨hlong, hbad, hframing⟩ | ⟨hlong, hgood, hpartial, hframing⟩ |
        ⟨hlong, hgood, -, messages, hframing⟩
      · rw [hframing, if_neg fun h => absurd h.1 (not_le.mpr hshort)]
        exact hreports
      · rw [hframing, if_neg fun h => h.2 hbad]
        rw [hlast hlong (.inl hbad)] at hreports
        exact hreports
      · rw [hframing, if_pos ⟨hlong, hgood⟩, hlast hlong (.inr hpartial)]
        exact ⟨now, rfl⟩
      · rw [hframing, if_pos ⟨hlong, hgood⟩]
        exact ⟨now, rfl⟩

/-- In every run the status describes the packet finished last exactly when the
chunks that leave a packet incomplete, and those that get it rejected for its
length, come only while the packet finished last was not valid. -/
theorem status_follows_packets_iff (decrypt : QByteArray → AESKey → QString) (key : AESKey)
    (events : List (ServerEvent Id)) (final : CListenerSocket Id)
    (hrun : run (step decrypt key) new events = some final) :
    StatusFollowsPackets decrypt key events ↔ AgreesWithLast decrypt key events := by
  constructor
  · intro hfollows front id chunk now back hevents hlong hwrong
    -- Compare the status before and after the chunk.
    rw [hevents] at hrun
    obtain ⟨before, after, hbefore, hnext, -⟩ := run_append_cons_eq_some.mp hrun
    have hafter := run_snoc_eq_some.mpr ⟨before, hbefore, hnext⟩
    have hreportsBefore := hfollows.reports front _ before hevents hbefore
    have hreportsAfter := hfollows.reports _ back after (by simp [hevents]) hafter
    rw [lastMessageStatus_of_step hbefore hnext, lastFinished_snoc, statusAfter, finished]
      at hreportsAfter
    rcases framing_cases decrypt key (receivedOn id front ++ chunk) with
      ⟨hshort, -⟩ | ⟨-, hbad, hframing⟩ | ⟨-, hgood, -, hframing⟩ | ⟨-, hgood, hcomplete, -⟩
    · exact absurd hlong (not_le.mpr hshort)
    · rw [hframing, if_neg fun h => h.2 hbad] at hreportsAfter
      exact hreportsBefore.unique hreportsAfter
    · rw [hframing, if_pos ⟨hlong, hgood⟩] at hreportsAfter
      exact hreportsAfter.unique ⟨now, rfl⟩
    · exact absurd hcomplete (not_le.mpr (hwrong.resolve_left hgood))
  · intro hagrees
    have hreports : ∀ front back server, events = front ++ back →
        run (step decrypt key) new front = some server →
          Reports server.lastMessageStatus (lastFinished decrypt key front) := by
      intro front back server hevents hserver
      rw [hevents] at hagrees
      refine run_invariant (fun events server => AgreesWithLast decrypt key events →
        Reports server.lastMessageStatus (lastFinished decrypt key events)) ?_ ?_
        front server hserver hagrees.of_append
      · intro _
        exact (rfl : (new : CListenerSocket Id).lastMessageStatus = [])
      intro front server event next hserver hreports hnext hagrees
      exact reports_step hserver hnext hagrees (hreports hagrees.of_append)
    refine ⟨hreports, ?_⟩
    intro front id chunk now back before after hevents hbefore hnext hopen said hsaid
    have hafter : run (step decrypt key) new (front ++ [.readyRead id chunk now]) = some after :=
      run_snoc_eq_some.mpr ⟨before, hbefore, hnext⟩
    have hreportsAfter := hreports _ back after (by rw [hevents]; simp) hafter
    have hnothing : finished decrypt key front (.readyRead id chunk now) = none := by
      rw [finished]
      split
      · rfl
      next hclosed =>
        rw [hclosed] at hopen
        contradiction
    rw [lastFinished_snoc, hnothing, Option.none_or] at hreportsAfter
    rwa [hsaid.unique (hreports front _ before hevents hbefore)]

/-- A valid packet in one chunk. -/
theorem status_follows_packets_iff_one_chunk :
    StatusFollowsPackets (decryptPayload (fun _ => 1) (fun _ => 0)) .zero
      [.incomingConnection 0,
        .readyRead 0 (encryptedPacket (fun _ => 1) .zero 0 ['A']) (.lit "12:00:00")] := by
  have hruns : (run (step (decryptPayload (fun _ => 1) (fun _ => 0)) .zero) new
      [.incomingConnection 0, .readyRead 0 (encryptedPacket (fun _ => 1) .zero 0 ['A'])
        (.lit "12:00:00")]).isSome := by
    decide +kernel
  obtain ⟨final, hrun⟩ := Option.isSome_iff_exists.mp hruns
  apply (status_follows_packets_iff _ _ _ final hrun).mpr
  intro front id chunk now back hevents _ hwrong
  match front with
  | [] => simp at hevents
  | [event] =>
      obtain ⟨rfl, hrest⟩ := List.cons.inj hevents
      obtain ⟨⟨rfl, rfl, rfl⟩, rfl⟩ := List.cons.inj hrest |>.imp_left ServerEvent.readyRead.inj
      revert hwrong
      decide +kernel
  | _ :: _ :: _ => simp at hevents

/-- The first five bytes of a longer packet are reported as a packet. -/
theorem not_status_follows_packets :
    ¬ ∀ (cipher : BlockCipher) (beyond : Memory) (key : AESKey) (events : List (ServerEvent Nat))
        (final : CListenerSocket Nat),
      run (step (decryptPayload cipher beyond) key) new events = some final →
      StatusFollowsPackets (decryptPayload cipher beyond) key events := by
  intro hall
  let front : List (ServerEvent Nat) := [.incomingConnection 0]
  let event : ServerEvent Nat := .readyRead 0 [32, 0, 0, 0, 7] (.lit "12:00:00")
  have hruns : (run (step (decryptPayload (fun _ => 1) (fun _ => 0)) .zero) new
      (front ++ [event])).isSome := by
    decide +kernel
  obtain ⟨final, hrun⟩ := Option.isSome_iff_exists.mp hruns
  have hreports := (hall _ _ _ _ final hrun).reports _ [] final (List.append_nil _).symm hrun
  have hlast : lastFinished (decryptPayload (fun _ => 1) (fun _ => 0)) .zero (front ++ [event]) =
      none := by
    decide +kernel
  rw [hlast] at hreports
  -- Nothing was finished, and yet the status says something.
  obtain ⟨before, hbefore, hnext⟩ := run_snoc_eq_some.mp hrun
  have hstatus := lastMessageStatus_of_step hbefore hnext
  rw [statusAfter, if_pos (by decide +kernel), hreports] at hstatus
  exact statusMsg_ne_nil _ _ hstatus.symm

end CListenerSocket

end BBNotifier
