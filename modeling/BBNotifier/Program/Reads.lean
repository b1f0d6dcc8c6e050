import BBNotifier.Item.DecodedImage
import BBNotifier.Program.Composition

/-! # What the program reads through pointers

The vector and the ciphertext are read out of the buffer of a packet, and the
image of an item out of the bytes decoded from its field, each with an extent that
does not depend on what is there. The program is therefore also run with a check
of every such read. The texts in the lists of the window pass it, as their images
were written by the program.
-/

namespace BBNotifier

open Foundation

/-- The images of the listed calls. The loops of the handlers parse these texts,
but may stop early. -/
def CMainWnd.listReads (window : CMainWnd) : List BufferRead :=
  window.listHistory.flatMap CNotificationItem.imageReads

theorem CMainWnd.Shows.listReads_inside {dates : QDateTimeText} {history : CallHistory}
    {window : CMainWnd} (hshows : window.Shows dates history) :
    ∀ read ∈ window.listReads, read.Inside := by
  intro read hread
  rw [CMainWnd.listReads, hshows.listHistory] at hread
  obtain ⟨text, htext, hread⟩ := List.mem_flatMap.mp hread
  obtain ⟨entry, -, rfl⟩ := List.mem_map.mp htext
  exact (CNotificationItem.imageReads_inside_iff _).mpr
    (CNotificationItem.imageIsWhole_serialize dates entry.property) read hread

namespace Program

variable {Id : Type}

/-- What an event of the sockets reads: the slices of a whole packet, and the image
in the text of a valid message. -/
def socketReads (platform : Platform) (program : Program Id) : ServerEvent Id → List BufferRead
  | .readyRead id chunk now =>
      match program.listener.sockets id with
      | some socket =>
          { socket with buffer := socket.buffer ++ chunk }.decryptReads ++
            (socket.receive platform.decrypt program.dialog.settings.aesKey now chunk
              program.listener.lastMessageStatus).messageReady.toList.flatMap
                CNotificationItem.imageReads
      | none => []
  | .incomingConnection _ | .disconnected _ | .deferredDelete _ => []

/-- What an event reads that leads from one state to another. `Serialize` is left
out: the image of an item has all its pixels. -/
def reads (platform : Platform) (program next : Program Id) (event : ProgramEvent Id) :
    List BufferRead :=
  event.server?.toList.flatMap (program.socketReads platform) ++
    (program.window.listReads ++ next.window.listReads)

variable [DecidableEq Id]

/-- One event, with a fault where it reads beyond the end of an array. -/
def checkedStep (platform : Platform) (program : Program Id) (event : ProgramEvent Id) :
    Except Stop (Program Id) := do
  let next ← step platform program event
  Stop.ofExcept (BufferRead.check (program.reads platform next event))
  return next

variable {platform : Platform} {start program next : Program Id} {event : ProgramEvent Id}
  {events : List (ProgramEvent Id)}

theorem checkedStep_eq_ok : checkedStep platform program event = .ok next ↔
    step platform program event = .ok next ∧
      ∀ read ∈ program.reads platform next event, read.Inside := by
  constructor
  · intro h
    obtain ⟨next', hnext, h⟩ := bind_eq_ok.mp h
    obtain ⟨_, hcheck, h⟩ := bind_eq_ok.mp h
    obtain rfl := Except.ok.inj h
    exact ⟨hnext, BufferRead.check_eq_ok.mp (Stop.ofExcept_eq_ok.mp hcheck)⟩
  · rintro ⟨hnext, hinside⟩
    have hcheck := Stop.ofExcept_eq_ok.mpr (BufferRead.check_eq_ok.mpr hinside)
    exact bind_eq_ok.mpr ⟨next, hnext, bind_eq_ok.mpr ⟨(), hcheck, rfl⟩⟩

/-- The check takes runs away and adds none. -/
theorem run_of_checked (hrun : run (checkedStep platform) start events = .ok program) :
    run (step platform) start events = .ok program :=
  run_ok_of_step_ok (fun _ _ _ hnext => (checkedStep_eq_ok.mp hnext).1) hrun

/-- A read beyond the end of an array goes wrong. -/
theorem exists_checkedStep_eq_fault (hnext : step platform program event = .ok next)
    (houtside : ¬ ∀ read ∈ program.reads platform next event, read.Inside) :
    ∃ cause, checkedStep platform program event = .error (.fault cause) := by
  cases hcheck : BufferRead.check (program.reads platform next event) with
  | ok result => exact absurd (BufferRead.check_eq_ok.mp hcheck) houtside
  | error cause =>
      have houtside := Stop.ofExcept_eq_fault.mpr hcheck
      exact ⟨cause, bind_eq_error.mpr (.inr ⟨next, hnext, bind_eq_error.mpr (.inl houtside)⟩)⟩

namespace Follows

/-- The listed texts are safe to parse. -/
theorem listReads_inside (hfollows : Follows platform start events program) :
    ∀ read ∈ program.window.listReads, read.Inside := by
  obtain ⟨history, hsession⟩ := hfollows.session_follows
  exact hsession.shows.listReads_inside

/-- Only the events of the sockets can read beyond the end of an array. -/
theorem reads_inside_iff (hfollows : Follows platform start events program)
    (hnext : Program.step platform program event = .ok next) :
    (∀ read ∈ program.reads platform next event, read.Inside) ↔
      ∀ server ∈ event.server?, ∀ read ∈ program.socketReads platform server, read.Inside := by
  have hlists : ∀ read ∈ program.window.listReads ++ next.window.listReads, read.Inside :=
    List.forall_mem_append.mpr ⟨hfollows.listReads_inside, (hfollows.step hnext).listReads_inside⟩
  rw [reads, List.forall_mem_append, and_iff_left hlists]
  cases event.server? <;> simp

/-- What a chunk reads, by the bytes of its connection. -/
theorem socketReads_inside_iff (hfollows : Follows platform start events program) {id : Id}
    {socket : CServerSocket} (hsocket : program.listener.sockets id = some socket)
    (hopen : socket.isOpen = true) (chunk : QByteArray) (now : QString) :
    (∀ read ∈ program.socketReads platform (.readyRead id chunk now), read.Inside) ↔
      ¬ HoldsShortPacket (CListenerSocket.receivedOn id (serverEvents events) ++ chunk) ∧
        ∀ msg ∈ messageWith platform start.dialog events id chunk,
          CNotificationItem.ImageIsWhole msg := by
  have hmessage := hfollows.messageReady_eq hsocket hopen chunk now
  obtain rfl := hfollows.buffers.listening id socket hsocket hopen
  simp only [socketReads, hsocket, hmessage]
  rw [List.forall_mem_append, CServerSocket.decryptReads_inside_iff]
  apply and_congr_right'
  cases messageWith platform start.dialog events id chunk with
  | none => simp
  | some msg => simpa using CNotificationItem.imageReads_inside_iff msg

end Follows

end Program

end BBNotifier
