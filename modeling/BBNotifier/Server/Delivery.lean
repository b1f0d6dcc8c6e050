import BBNotifier.Server.Packet

/-! # Delivery of encrypted messages

A sender that encrypts a text under the configured key is understood: the text
is delivered, cut at the first zero character it contains, because the
decrypted bytes are read as a C string.
-/

namespace BBNotifier

open Foundation

/-- The text a sender encrypts. -/
def plaintext (text : List Char) : QByteArray := utf8 ("C@LLER#\n".toList ++ text)

/-- The payload of an encrypted text: the vector, then the ciphertext. -/
def encryptedPayload (cipher : BlockCipher) (key : AESKey) (iv : Block) (text : List Char) :
    QByteArray :=
  iv.toBytes ++ streamEncrypt (cipher key) iv (plaintext text)

/-- The payload after its length. -/
def encryptedPacket (cipher : BlockCipher) (key : AESKey) (iv : Block) (text : List Char) :
    QByteArray :=
  packetBytes (encryptedPayload cipher key iv text)

section

variable (cipher : BlockCipher) (beyond : Memory) (key : AESKey)

/-- The text comes out of its packet up to its first zero character. -/
theorem decryptPayload_encryptedPayload (iv : Block) (text : List Char) :
    decryptPayload cipher beyond (encryptedPayload cipher key iv text) key =
      magic ++ QString.ofChars (text.takeWhile (· ≠ '\x00')) := by
  have hascii : ∀ c ∈ "C@LLER#\n".toList, decide (c ≠ '\x00') = true :=
    List.all_eq_true.mp (by decide)
  have hhead : ∀ (more : List Char) rest, utf8 ("C@LLER#\n".toList ++ more) ≠ 0xEF :: rest := by
    intro more rest heq
    exact absurd (List.head_eq_of_cons_eq heq) (by decide)
  rw [encryptedPayload, decryptPayload_append, streamDecrypt_streamEncrypt, plaintext]
  simp only
  rw [cString_utf8, List.takeWhile_append_of_pos hascii, QString.fromUtf8,
    skipByteOrderMark_of_head (hhead _), decodeUtf8_utf8, QString.ofChars, List.flatMap_append]
  rfl

end

/-! ## On a connection -/

theorem length_encryptedPayload (cipher : BlockCipher) (key : AESKey) (iv : Block)
    (text : List Char) : 32 ≤ (encryptedPayload cipher key iv text).length := by
  rw [encryptedPayload, List.length_append, Block.length_toBytes, length_streamEncrypt, blockSize]
  omega

/-- Once the packet of a text has arrived on a connection, however it was cut
and whatever follows it, the text is the one message of the connection exactly
when it has no zero character. -/
theorem delivered_verbatim_iff {Id : Type} [DecidableEq Id] (cipher : BlockCipher)
    (beyond : Memory) (key : AESKey) (iv : Block) (text : List Char)
    (htotal : (encryptedPayload cipher key iv text).length ≤ 131072)
    (events : List (ServerEvent Id)) (server : CListenerSocket Id)
    (hrun : run (CListenerSocket.step (decryptPayload cipher beyond) key) .new events =
      some server) (id : Id) (more : QByteArray)
    (hreceived : CListenerSocket.receivedOn id events =
      encryptedPacket cipher key iv text ++ more) :
    server.messagesOf id = [QString.ofChars text] ↔ '\x00' ∉ text := by
  have hlong := length_encryptedPayload cipher key iv text
  rw [CListenerSocket.messagesOf_of_run hrun, hreceived, encryptedPacket,
    framing_packetBytes _ _ (by omega) htotal, decryptPayload_encryptedPayload,
    CServerSocket.validMessage_magic_append, Option.toList_some, List.singleton_inj]
  exact QString.ofChars_takeWhile_eq

/-- The packet of "A" under the identity cipher, cut after its first byte. -/
theorem delivered_verbatim_iff_two_chunks :
    ∃ server : CListenerSocket Nat,
      run (CListenerSocket.step (decryptPayload (fun _ => 1) (fun _ => 0)) .zero) .new
        [.incomingConnection 0,
          .readyRead 0 ((encryptedPacket (fun _ => 1) .zero 0 ['A']).take 1) [],
          .readyRead 0 ((encryptedPacket (fun _ => 1) .zero 0 ['A']).drop 1) []] = some server ∧
      server.messagesOf 0 = [QString.ofChars ['A']] := by
  obtain ⟨server, hrun⟩ := Option.isSome_iff_exists.mp
    (show (run (CListenerSocket.step (decryptPayload (fun _ => 1) (fun _ => 0)) .zero) .new
        [.incomingConnection 0,
          .readyRead 0 ((encryptedPacket (fun _ => 1) .zero 0 ['A']).take 1) [],
          .readyRead 0 ((encryptedPacket (fun _ => 1) .zero 0 ['A']).drop 1)
            []]).isSome = true by decide +kernel)
  exact ⟨server, hrun, (delivered_verbatim_iff _ _ _ 0 ['A'] (by decide +kernel) _ _ hrun 0 []
    (by decide +kernel)).mpr (by decide)⟩

/-- A text that contains a zero character is not delivered as it is. -/
theorem not_delivered_verbatim :
    ¬ ∀ (cipher : BlockCipher) (beyond : Memory) (key : AESKey) (iv : Block) (text : List Char),
      (encryptedPayload cipher key iv text).length ≤ 131072 →
      ∀ (events : List (ServerEvent Nat)) (server : CListenerSocket Nat),
        run (CListenerSocket.step (decryptPayload cipher beyond) key) .new events = some server →
        CListenerSocket.receivedOn 0 events = encryptedPacket cipher key iv text →
        server.messagesOf 0 = [QString.ofChars text] := by
  intro hall
  obtain ⟨server, hrun⟩ := Option.isSome_iff_exists.mp
    (show (run (CListenerSocket.step (decryptPayload (fun _ => 1) (fun _ => 0)) .zero) .new
        [.incomingConnection 0,
          .readyRead 0 (encryptedPacket (fun _ => 1) .zero 0 ['A', '\x00']) []]).isSome = true by
      decide +kernel)
  have hmessage := hall _ _ _ 0 ['A', '\x00'] (by decide +kernel) _ _ hrun (by decide +kernel)
  rw [CListenerSocket.messagesOf_of_run hrun] at hmessage
  revert hmessage
  decide +kernel

end BBNotifier
