import BBNotifier.Server.Framing

/-! # The slices taken of a packet

`OnReadyRead` hands `Decrypt` pointers into the packet it has read: the initial
vector after the header, the ciphertext after the vector. The length it has
checked is the length of both together.
-/

namespace BBNotifier

open Foundation

/-- The pointers, as offsets into the packet, and the length that `Decrypt`
is called with. -/
structure DecryptArguments where
  buf : Nat
  length : Int
  iv : Nat

def decryptArguments (payloadLength : Int) : DecryptArguments where
  buf := messageHeader + blockSize
  length := payloadLength - blockSize
  iv := messageHeader

/-- The vector and the ciphertext lie within the given number of bytes, and
the ciphertext has a length. -/
structure DecryptArguments.Within (arguments : DecryptArguments) (size : Nat) : Prop where
  iv : arguments.iv + blockSize ≤ size
  length : 0 ≤ arguments.length
  buf : (arguments.buf : Int) + arguments.length ≤ size

/-- The bytes that `Decrypt` reads through its pointers into a buffer: the vector,
and the ciphertext unless its length is negative, which throws before. -/
def DecryptArguments.reads (arguments : DecryptArguments) (size : Nat) : List BufferRead :=
  ⟨arguments.iv, blockSize, size⟩ ::
    if arguments.length < 0 then [] else [⟨arguments.buf, arguments.length.toNat, size⟩]

/-- A packet as `OnReadyRead` reads it: as many bytes as its length says, and a
length that passed the check. -/
structure Packet where
  pBuf : QByteArray
  size : (pBuf.length : Int) = leInt32 pBuf + messageHeader
  checked : ¬ (leInt32 pBuf > 131072 ∨ leInt32 pBuf < 1)

namespace Packet

def payloadLength (packet : Packet) : Int := leInt32 packet.pBuf

/-- The call of `Decrypt`, with whatever is stored after the packet. -/
def decrypt (cipher : BlockCipher) (beyond : Memory) (packet : Packet) (key : AESKey) : QString :=
  let arguments := decryptArguments packet.payloadLength
  CAESWrapper.decrypt cipher (Memory.store packet.pBuf beyond) arguments.buf arguments.length key
    arguments.iv

theorem within_iff (packet : Packet) :
    (decryptArguments packet.payloadLength).Within packet.pBuf.length ↔
      16 ≤ packet.payloadLength := by
  have hsize : (packet.pBuf.length : Int) = packet.payloadLength + messageHeader := packet.size
  have hmessageHeader : messageHeader = 4 := rfl
  have hblockSize : blockSize = 16 := rfl
  constructor
  · intro hwithin
    have hiv := hwithin.iv
    simp only [decryptArguments] at hiv
    omega
  · intro hlong
    constructor <;> simp only [decryptArguments] <;> omega

/-- Slices within the packet leave nothing to the bytes beyond it. -/
theorem decrypt_of_within (cipher : BlockCipher) (key : AESKey) {packet : Packet}
    (hwithin : (decryptArguments packet.payloadLength).Within packet.pBuf.length)
    (beyond beyond' : Memory) :
    packet.decrypt cipher beyond key = packet.decrypt cipher beyond' key := by
  apply CAESWrapper.decrypt_congr cipher key _ hwithin.iv hwithin.buf
  intro i hi
  rw [Memory.store_of_lt hi, Memory.store_of_lt hi]

/-- For every packet whose length passes the check, the slices lie within the
packet, and decide the outcome together with the key, exactly when the payload
has room for a vector. -/
theorem slices_within_iff (packet : Packet) :
    ((decryptArguments packet.payloadLength).Within packet.pBuf.length ∧
      ∀ cipher key beyond beyond',
        packet.decrypt cipher beyond key = packet.decrypt cipher beyond' key) ↔
      16 ≤ packet.payloadLength := by
  rw [← within_iff]
  exact ⟨And.left, fun hwithin => ⟨hwithin, fun cipher key => decrypt_of_within cipher key hwithin⟩⟩

/-- A payload of one byte passes the check, but the vector is not in it. -/
theorem not_slices_within :
    ¬ ∀ packet : Packet, (decryptArguments packet.payloadLength).Within packet.pBuf.length := by
  intro hall
  have hwithin := hall ⟨[1, 0, 0, 0, 7], by decide +kernel, by decide +kernel⟩
  exact absurd hwithin.iv (by decide)

end Packet

/-! ## The buffer of a packet -/

/-- What `Decrypt` reads when `OnReadyRead` runs, out of the buffer that the packet
was read into, which has room for one byte more. -/
def CServerSocket.decryptReads (socket : CServerSocket) : List BufferRead :=
  if socket.bytesAvailable > 4 then
    let payloadLength := leInt32 socket.buffer
    if payloadLength > 131072 ∨ payloadLength < 1 then []
    else if socket.bytesAvailable ≥ payloadLength + messageHeader then
      (decryptArguments payloadLength).reads (payloadLength + messageHeader + 1).toNat
    else []
  else []

/-- The bytes hold a packet whose vector does not fit into its buffer. -/
structure HoldsShortPacket (received : QByteArray) : Prop where
  positive : 1 ≤ leInt32 received
  short : leInt32 received < 15
  complete : leInt32 received + messageHeader ≤ received.length

theorem DecryptArguments.reads_inside_iff (arguments : DecryptArguments) (size : Nat) :
    (∀ read ∈ arguments.reads size, read.Inside) ↔
      arguments.iv + blockSize ≤ size ∧
        (0 ≤ arguments.length → (arguments.buf : Int) + arguments.length ≤ size) := by
  rw [reads, List.forall_mem_cons, BufferRead.Inside]
  apply and_congr_right'
  by_cases hlength : arguments.length < 0
  · rw [if_pos hlength]
    exact iff_of_true (by simp) (by omega)
  · rw [if_neg hlength, List.forall_mem_singleton, BufferRead.Inside]
    show arguments.buf + arguments.length.toNat ≤ size ↔ _
    omega

/-- `Decrypt` reads beyond the buffer of a packet exactly where the packet is short. -/
theorem CServerSocket.decryptReads_inside_iff (socket : CServerSocket) :
    (∀ read ∈ socket.decryptReads, read.Inside) ↔ ¬ HoldsShortPacket socket.buffer := by
  have hmessageHeader : messageHeader = 4 := rfl
  have hblockSize : blockSize = 16 := rfl
  have hbytes : socket.bytesAvailable = socket.buffer.length := rfl
  have hreached : HoldsShortPacket socket.buffer → socket.bytesAvailable > 4 ∧
      ¬ (leInt32 socket.buffer > 131072 ∨ leInt32 socket.buffer < 1) ∧
      socket.bytesAvailable ≥ leInt32 socket.buffer + messageHeader := by
    rintro ⟨hpositive, hshort, hcomplete⟩
    omega
  simp only [decryptReads]
  split
  next hlong =>
    split
    next hbad => exact iff_of_true (by simp) fun hholds => (hreached hholds).2.1 hbad
    next hgood =>
      split
      next hwhole =>
        rw [DecryptArguments.reads_inside_iff]
        simp only [decryptArguments]
        constructor
        · rintro ⟨hiv, -⟩ ⟨hpositive, hshort, -⟩
          omega
        · intro hnot
          have hiv : 15 ≤ leInt32 socket.buffer := by
            by_contra hless
            exact hnot ⟨by omega, by omega, hwhole⟩
          omega
      next hpart => exact iff_of_true (by simp) fun hholds => hpart (hreached hholds).2.2
  next hfew => exact iff_of_true (by simp) fun hholds => hfew (hreached hholds).1

/-! ## The packets of the slot -/

/-- A payload after its length. -/
def packetBytes (payload : QByteArray) : QByteArray := leBytes32 payload.length ++ payload

/-- `Decrypt` as a function of the payload, which is preceded by its length. -/
def decryptPayload (cipher : BlockCipher) (beyond : Memory) (payload : QByteArray)
    (key : AESKey) : QString :=
  let arguments := decryptArguments payload.length
  CAESWrapper.decrypt cipher (Memory.store (packetBytes payload) beyond)
    arguments.buf arguments.length key arguments.iv

theorem decryptPayload_drop (cipher : BlockCipher) (beyond : Memory) (key : AESKey)
    (packet : Packet) :
    decryptPayload cipher beyond (packet.pBuf.drop messageHeader) key =
      packet.decrypt cipher beyond key := by
  have hmessageHeader : messageHeader = 4 := rfl
  have hsize : (packet.pBuf.length : Int) = packet.payloadLength + messageHeader := packet.size
  have hchecked : ¬ (packet.payloadLength > 131072 ∨ packet.payloadLength < 1) := packet.checked
  have hlength : ((packet.pBuf.drop messageHeader).length : Int) = packet.payloadLength := by
    rw [List.length_drop]
    omega
  have hbytes : leBytes32 (packet.pBuf.drop messageHeader).length =
      packet.pBuf.take messageHeader := by
    have hread := @leBytes32_leInt32 packet.pBuf (by omega) (by rw [← Packet.payloadLength]; omega)
    rw [← Packet.payloadLength, ← hlength, Int.toNat_natCast] at hread
    exact hread
  rw [decryptPayload, packetBytes, hbytes, List.take_append_drop, hlength, Packet.decrypt]

/-- Decrypting a vector and a ciphertext that follow each other. -/
theorem decryptPayload_append (cipher : BlockCipher) (beyond : Memory) (key : AESKey)
    (iv : Block) (ciphertext : QByteArray) :
    decryptPayload cipher beyond (iv.toBytes ++ ciphertext) key =
      match streamDecrypt (cipher key) iv ciphertext with
      | none => []
      | some decryptedText => QString.fromUtf8 (cString decryptedText) := by
  have hlength : (decryptArguments (iv.toBytes ++ ciphertext).length).length =
      ciphertext.length := by
    simp [decryptArguments]
  generalize hheader : leBytes32 (iv.toBytes ++ ciphertext).length = header
  have hfront : header.length = messageHeader := by
    rw [← hheader]
    rfl
  have hiv : (Memory.store (header ++ (iv.toBytes ++ ciphertext)) beyond).read messageHeader
      blockSize = iv.toBytes := Memory.read_store_append hfront iv.length_toBytes
  have hbuf : (Memory.store (header ++ (iv.toBytes ++ ciphertext)) beyond).read
      (messageHeader + blockSize) ciphertext.length = ciphertext := by
    simpa using @Memory.read_store_append (header ++ iv.toBytes) ciphertext [] beyond
      (messageHeader + blockSize) ciphertext.length (by simp [hfront]) rfl
  rw [decryptPayload, packetBytes, hheader, hlength]
  exact CAESWrapper.decrypt_of_read (Int.natCast_nonneg _) hiv hbuf

/-- The framing of bytes that start with a packet. -/
theorem framing_packetBytes (decrypt : QByteArray → AESKey → QString) (key : AESKey)
    {payload : QByteArray} (hpos : 0 < payload.length) (htotal : payload.length ≤ 131072)
    (more : QByteArray) :
    (CListenerSocket.framing decrypt key (packetBytes payload ++ more)).2 =
      (CServerSocket.validMessage (decrypt payload key)).toList := by
  have hheader : (leBytes32 payload.length).length = 4 := rfl
  have hlength : leInt32 (packetBytes payload ++ more) = payload.length := by
    rw [packetBytes, List.append_assoc, leInt32_leBytes32 (by omega)]
  have hpayload : ((packetBytes payload ++ more).drop 4).take payload.length = payload := by
    rw [packetBytes, List.append_assoc, List.drop_left' hheader, List.take_left]
  have hsize : (packetBytes payload ++ more).length = 4 + payload.length + more.length := by
    rw [packetBytes, List.length_append, List.length_append, hheader]
  simp only [CListenerSocket.framing, hlength, Int.toNat_natCast, hpayload, hsize,
    CServerSocket.validMessage]
  rw [if_neg (by omega), if_neg (by omega), if_neg (by omega)]
  split <;> rfl

theorem leInt32_take {buffer : QByteArray} (hlong : 4 ≤ buffer.length) {count : Nat}
    (hcount : 4 ≤ count) : leInt32 (buffer.take count) = leInt32 buffer := by
  conv_rhs => rw [← List.take_append_drop count buffer]
  rw [leInt32_append]
  rw [List.length_take]
  omega

/-- The packet that a complete buffer starts with. -/
def Packet.ofBuffer (buffer : QByteArray)
    (checked : ¬ (leInt32 buffer > 131072 ∨ leInt32 buffer < 1))
    (complete : (buffer.length : Int) ≥ leInt32 buffer + messageHeader) : Packet :=
  have hmessageHeader : messageHeader = 4 := rfl
  have hheader : leInt32 (buffer.take (leInt32 buffer + 4).toNat) = leInt32 buffer :=
    leInt32_take (by omega) (by omega)
  { pBuf := buffer.take (leInt32 buffer + 4).toNat
    size := by
      rw [hheader, List.length_take]
      omega
    checked := by rwa [hheader] }

/-- What the slot emits for a complete buffer is what it finds in its packet. -/
theorem onReadyRead_messageReady (cipher : BlockCipher) (beyond : Memory) (key : AESKey)
    (now lastMessageStatus : QString) (socket : CServerSocket) (hlong : socket.bytesAvailable > 4)
    (hchecked : ¬ (leInt32 socket.buffer > 131072 ∨ leInt32 socket.buffer < 1))
    (hcomplete : socket.bytesAvailable ≥ leInt32 socket.buffer + messageHeader) :
    (socket.onReadyRead (decryptPayload cipher beyond) key now lastMessageStatus).messageReady =
      CServerSocket.validMessage
        ((Packet.ofBuffer socket.buffer hchecked hcomplete).decrypt cipher beyond key) := by
  have hsize := (Packet.ofBuffer socket.buffer hchecked hcomplete).size
  have hheader : leInt32 (Packet.ofBuffer socket.buffer hchecked hcomplete).pBuf =
      leInt32 socket.buffer := by
    have hmessageHeader : (messageHeader : Int) = 4 := rfl
    have hbytes : socket.bytesAvailable = socket.buffer.length := rfl
    exact leInt32_take (by omega) (by omega)
  rw [hheader] at hsize
  rw [CServerSocket.onReadyRead, if_pos hlong, ← decryptPayload_drop]
  simp only [if_neg hchecked, if_pos hcomplete, CServerSocket.read]
  exact if_pos hsize

end BBNotifier
