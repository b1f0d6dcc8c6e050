import BBNotifier.Server.Packet

/-! # Packets with another initial vector

The vector travels in the packet, and nothing but the first eight characters of
the decrypted text is checked. A change in the first eight bytes of the vector
shows there; a change in the others passes and changes the message.
-/

namespace BBNotifier

open Foundation

def magicBytes : QByteArray := [67, 64, 76, 76, 69, 82, 35, 10]

def byteOrderMark : QByteArray := [0xEF, 0xBB, 0xBF]

/-- The message emitted by a new connection that receives a vector and a
ciphertext in one packet. -/
def messageOf (cipher : BlockCipher) (beyond : Memory) (key : AESKey) (iv : Block)
    (ciphertext : QByteArray) : Option QString :=
  (CServerSocket.new.receive (decryptPayload cipher beyond) key []
    (packetBytes (iv.toBytes ++ ciphertext)) []).messageReady

/-- The bytes that a ciphertext decrypts to. -/
def plainOf (cipher : BlockCipher) (key : AESKey) (iv : Block) (ciphertext : QByteArray) :
    QByteArray :=
  (streamDecrypt (cipher key) iv ciphertext).getD []

/-! ## The check on the decrypted bytes -/

theorem skipByteOrderMark_of_unmarked {bytes : QByteArray} (h : ¬ byteOrderMark <+: bytes) :
    skipByteOrderMark bytes = bytes := by
  unfold skipByteOrderMark
  split
  next rest => exact absurd (List.prefix_append byteOrderMark rest) h
  next => rfl

theorem skipByteOrderMark_append (bytes : QByteArray) :
    skipByteOrderMark (byteOrderMark ++ bytes) = bytes := rfl

/-- The byte order mark is recognized in the C string or not at all. -/
theorem skipByteOrderMark_cString (bytes : QByteArray) :
    skipByteOrderMark (cString bytes) = cString (skipByteOrderMark bytes) := by
  by_cases hmark : byteOrderMark <+: bytes
  · obtain ⟨rest, rfl⟩ := hmark
    rw [skipByteOrderMark_append, cString_append_of_notMem (by decide), skipByteOrderMark_append]
  · have hmark' : ¬ byteOrderMark <+: cString bytes :=
      fun h => hmark (h.trans (List.takeWhile_prefix _))
    rw [skipByteOrderMark_of_unmarked hmark, skipByteOrderMark_of_unmarked hmark']

/-- A decoded text is valid when its bytes start with those of the magic text,
after a byte order mark that is skipped. -/
theorem validMessage_fromUtf8_cString {bytes : QByteArray} {message : QString} :
    CServerSocket.validMessage (QString.fromUtf8 (cString bytes)) = some message ↔
      ∃ rest, skipByteOrderMark bytes = magicBytes ++ rest ∧
        decodeUtf8 (cString rest) 0 = message := by
  have hascii : ∀ byte ∈ magicBytes, byte < 128 := by decide +kernel
  have hmagic : magic = QString.ofLatin magicBytes := by decide
  rw [QString.fromUtf8, skipByteOrderMark_cString]
  generalize skipByteOrderMark bytes = shown
  constructor
  · intro hvalid
    rw [CServerSocket.validMessage] at hvalid
    split at hvalid
    next htake =>
      have hdecoded : decodeUtf8 (cString shown) 0 = QString.ofLatin magicBytes ++ message := by
        rw [← Option.some.inj hvalid, ← hmagic, ← htake, List.take_append_drop]
      obtain ⟨text, htext, hmessage⟩ := eq_append_of_decodeUtf8 hascii hdecoded
      obtain ⟨rest, hrest⟩ : magicBytes <+: shown :=
        (htext ▸ List.prefix_append _ _ : magicBytes <+: cString shown).trans
          (List.takeWhile_prefix _)
      subst hrest
      rw [cString_append_of_notMem (by decide)] at htext
      rw [← List.append_cancel_left htext] at hmessage
      exact ⟨rest, rfl, hmessage⟩
    · cases hvalid
  · rintro ⟨rest, rfl, rfl⟩
    rw [cString_append_of_notMem (by decide), decodeUtf8_ascii_append hascii, ← hmagic,
      CServerSocket.validMessage_magic_append]

theorem messageOf_eq (cipher : BlockCipher) (beyond : Memory) (key : AESKey) (iv : Block)
    {ciphertext : QByteArray} (htotal : blockSize + ciphertext.length ≤ 131072) :
    messageOf cipher beyond key iv ciphertext =
      CServerSocket.validMessage
        (decryptPayload cipher beyond (iv.toBytes ++ ciphertext) key) := by
  have hlength : (iv.toBytes ++ ciphertext).length = blockSize + ciphertext.length := by
    rw [List.length_append, Block.length_toBytes]
  have hpos : 0 < blockSize := by decide
  have hreceived := CListenerSocket.receive_messageReady (decryptPayload cipher beyond) key []
    (packetBytes (iv.toBytes ++ ciphertext)) []
  rw [← List.append_nil (packetBytes _), framing_packetBytes _ _ (by omega)
    (by omega), List.append_nil] at hreceived
  rw [messageOf]
  simpa using congrArg List.head? hreceived

theorem messageOf_eq_some {cipher : BlockCipher} {beyond : Memory} {key : AESKey} {iv : Block}
    {ciphertext : QByteArray} (htotal : blockSize + ciphertext.length ≤ 131072)
    {message : QString} :
    messageOf cipher beyond key iv ciphertext = some message ↔
      ∃ plain rest, streamDecrypt (cipher key) iv ciphertext = some plain ∧
        skipByteOrderMark plain = magicBytes ++ rest ∧ decodeUtf8 (cString rest) 0 = message := by
  rw [messageOf_eq cipher beyond key iv htotal, decryptPayload_append]
  cases hplain : streamDecrypt (cipher key) iv ciphertext with
  | none =>
      have hempty : CServerSocket.validMessage [] = none := by decide
      simp [hempty]
  | some plain =>
      simp only [validMessage_fromUtf8_cString, Option.some.injEq]
      constructor
      · rintro ⟨rest, hrest⟩
        exact ⟨plain, rest, rfl, hrest⟩
      · rintro ⟨_, rest, rfl, hrest⟩
        exact ⟨rest, hrest⟩

theorem eq_append_of_skipByteOrderMark {bytes rest : QByteArray} (hmark : byteOrderMark <+: bytes)
    (h : skipByteOrderMark bytes = rest) : bytes = byteOrderMark ++ rest := by
  obtain ⟨shown, rfl⟩ := hmark
  rw [← h, skipByteOrderMark_append]

/-! ## Two packets that differ in the vector -/

variable {cipher : BlockCipher} {beyond : Memory} {key : AESKey} {iv iv' : Block}
  {ciphertext : QByteArray}

/-- Packets that are both valid, and both marked or both not, agree in the
first eight bytes of the vector. -/
theorem vector_byte_eq_of_valid (htotal : blockSize + ciphertext.length ≤ 131072)
    {message message' : QString}
    (hmessage : messageOf cipher beyond key iv ciphertext = some message)
    (hmessage' : messageOf cipher beyond key iv' ciphertext = some message')
    (hmark : byteOrderMark <+: plainOf cipher key iv ciphertext ↔
      byteOrderMark <+: plainOf cipher key iv' ciphertext)
    (i : Fin blockSize) (hi : i.val < 8) : iv.byte i = iv'.byte i := by
  obtain ⟨plain, rest, hplain, hvalid, -⟩ := (messageOf_eq_some htotal).mp hmessage
  obtain ⟨plain', rest', hplain', hvalid', -⟩ := (messageOf_eq_some htotal).mp hmessage'
  rw [plainOf, plainOf, hplain, hplain', Option.getD_some, Option.getD_some] at hmark
  -- Eleven bytes are known of marked texts, eight of the others.
  by_cases hmarked : byteOrderMark <+: plain
  · have hfront := eq_append_of_skipByteOrderMark hmarked hvalid
    have hfront' := eq_append_of_skipByteOrderMark (hmark.mp hmarked) hvalid'
    rw [← List.append_assoc] at hfront hfront'
    have hbegins : byteOrderMark ++ magicBytes <+: plain := hfront ▸ List.prefix_append _ _
    have hbegins' : byteOrderMark ++ magicBytes <+: plain' := hfront' ▸ List.prefix_append _ _
    exact vector_byte_eq (cipher key) hplain hplain' hbegins hbegins' i (hi.trans (by decide))
  · rw [skipByteOrderMark_of_unmarked hmarked] at hvalid
    rw [skipByteOrderMark_of_unmarked (mt hmark.mpr hmarked)] at hvalid'
    have hbegins : magicBytes <+: plain := hvalid ▸ List.prefix_append _ _
    have hbegins' : magicBytes <+: plain' := hvalid' ▸ List.prefix_append _ _
    exact vector_byte_eq (cipher key) hplain hplain' hbegins hbegins' i hi

/-- A valid packet stays valid when only later bytes of the vector change, and
its message changes with them. -/
theorem messageOf_of_late_change (htotal : blockSize + ciphertext.length ≤ 131072)
    (hblocks : 2 * blockSize ≤ ciphertext.length) {message : QString}
    (hmessage : messageOf cipher beyond key iv ciphertext = some message)
    (hmark : ¬ byteOrderMark <+: plainOf cipher key iv ciphertext)
    (hsame : ∀ i : Fin blockSize, i.val < 8 → iv.byte i = iv'.byte i) :
    messageOf cipher beyond key iv' ciphertext =
      some (decodeUtf8
        (cString ((remask (iv - iv') (plainOf cipher key iv ciphertext)).drop 8)) 0) := by
  obtain ⟨plain, rest, hplain, hvalid, -⟩ := (messageOf_eq_some htotal).mp hmessage
  rw [plainOf, hplain, Option.getD_some] at hmark ⊢
  rw [skipByteOrderMark_of_unmarked hmark] at hvalid
  have hzero : ∀ i : Fin blockSize, i.val < 8 → (iv - iv').byte i = 0 := by
    intro i hi
    rw [Block.sub_eq_add, Block.byte_add, hsame i hi, UInt8.xor_self]
  have htake : (remask (iv - iv') plain).take 8 = magicBytes := by
    rw [take_remask (by decide) (by rw [hvalid]; simp [magicBytes]) hzero, hvalid]
    rfl
  have hshown : remask (iv - iv') plain = magicBytes ++ (remask (iv - iv') plain).drop 8 := by
    rw [← htake, List.take_append_drop]
  rw [messageOf_eq_some htotal]
  refine ⟨_, _, streamDecrypt_of_vector (cipher key) iv' hblocks hplain, ?_, rfl⟩
  have hnomark : ¬ byteOrderMark <+: remask (iv - iv') plain := by
    rw [hshown]
    rintro ⟨more, hmore⟩
    exact absurd (List.head_eq_of_cons_eq hmore) (by decide)
  rw [skipByteOrderMark_of_unmarked hnomark, ← hshown]

/-- A change in the first eight bytes of the vector is detected, unless it adds
or removes a byte order mark. A change in the other bytes is not: with two
blocks or more the packet is accepted with the changed text, up to its first zero
byte. -/
theorem changed_vector (cipher : BlockCipher) (beyond : Memory) (key : AESKey)
    (iv iv' : Block) (ciphertext : QByteArray) (message : QString)
    (htotal : blockSize + ciphertext.length ≤ 131072)
    (hmessage : messageOf cipher beyond key iv ciphertext = some message) :
    ((∃ i : Fin blockSize, i.val < 8 ∧ iv.byte i ≠ iv'.byte i) →
      messageOf cipher beyond key iv' ciphertext = none ∨
        ¬ (byteOrderMark <+: plainOf cipher key iv ciphertext ↔
          byteOrderMark <+: plainOf cipher key iv' ciphertext)) ∧
    ((∀ i : Fin blockSize, i.val < 8 → iv.byte i = iv'.byte i) → 2 * blockSize ≤ ciphertext.length →
      ¬ byteOrderMark <+: plainOf cipher key iv ciphertext →
      messageOf cipher beyond key iv' ciphertext =
        some (decodeUtf8
          (cString ((remask (iv - iv') (plainOf cipher key iv ciphertext)).drop 8)) 0)) := by
  constructor
  · rintro ⟨i, hi, hne⟩
    by_contra hnot
    obtain ⟨haccepted, hmark⟩ := not_or.mp hnot
    obtain ⟨message', hmessage'⟩ := Option.ne_none_iff_exists'.mp haccepted
    exact hne (vector_byte_eq_of_valid htotal hmessage hmessage' (not_not.mp hmark) i hi)
  · intro hsame hblocks hmark
    exact messageOf_of_late_change htotal hblocks hmessage hmark hsame

/-- What turns the bytes of "RINGING" in the first block into "OFFHOOK". -/
def ringingToOffhook : Block := .ofBytes [0, 0, 0, 0, 0, 0, 0, 0, 29, 15, 8, 15, 6, 1, 12, 0]

theorem changed_vector_first_byte :
    messageOf (fun _ => 1) (fun _ => 0) .zero (.ofBytes [1])
      (streamEncrypt 1 0 (utf8 "C@LLER#\nRINGING\n555".toList)) = none :=
  ((changed_vector (fun _ => 1) (fun _ => 0) .zero 0 (.ofBytes [1])
    (streamEncrypt 1 0 (utf8 "C@LLER#\nRINGING\n555".toList)) (.lit "RINGING\n555")
    (by decide +kernel) (by decide +kernel)).1 ⟨⟨0, by decide⟩, by decide, by decide⟩).resolve_right
    (by decide +kernel)

/-- A recorded call becomes the acceptance of that call under another vector. -/
theorem not_changed_vector_detected :
    ¬ ∀ (cipher : BlockCipher) (beyond : Memory) (key : AESKey) (iv iv' : Block)
      (ciphertext : QByteArray) (message : QString),
      messageOf cipher beyond key iv ciphertext = some message → iv' ≠ iv →
      messageOf cipher beyond key iv' ciphertext = none ∨
        messageOf cipher beyond key iv' ciphertext = some message := by
  intro hall
  have hmessage : messageOf (fun _ => 1) (fun _ => 0) .zero 0
      (streamEncrypt 1 0 (utf8 "C@LLER#\nRINGING\n555".toList)) =
        some (.lit "RINGING\n555") := by decide +kernel
  have hmessage' : messageOf (fun _ => 1) (fun _ => 0) .zero ringingToOffhook
      (streamEncrypt 1 0 (utf8 "C@LLER#\nRINGING\n555".toList)) =
        some (.lit "OFFHOOK\n555") := by decide +kernel
  have hdetected := hall _ _ _ 0 ringingToOffhook _ _ hmessage (by decide)
  rw [hmessage'] at hdetected
  exact absurd hdetected (by decide)

end BBNotifier
