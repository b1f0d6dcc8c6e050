import BBNotifier.Foundation.Base64
import BBNotifier.Qt.Memory
import BBNotifier.Qt.QSettings
import BBNotifier.Crypto.StreamTransformationFilter

/-! # Keys and decryption

`AESKey` with its displayed and stored forms, and `CAESWrapper::Decrypt`, which
reads the initial vector and the ciphertext through pointers and turns every
exception of the cipher into an empty text.
-/

namespace BBNotifier

@[ext]
structure AESKey where
  data : Fin 16 → UInt8
deriving DecidableEq

namespace AESKey

/-- The key the constructor makes. -/
def zero : AESKey := ⟨fun _ => 0⟩

/-- `Grouper::Put2`: a separator between groups, a terminator at the end. -/
def grouper (groupSize : Nat) (separator terminator : QByteArray) : Nat → QByteArray → QByteArray
  | _, [] => terminator
  | counter, c :: rest =>
      if counter = groupSize then
        separator ++ c :: grouper groupSize separator terminator 1 rest
      else c :: grouper groupSize separator terminator (counter + 1) rest

/-- `Base64Encoder` with its default options. -/
def base64Encoder (bytes : QByteArray) : QByteArray :=
  grouper 72 [10] [10] 0 (Foundation.Base64.encode bytes)

def substr (text : QByteArray) (pos count : Nat) : QByteArray := (text.drop pos).take count

/-- The password shown for a key. -/
def toString (key : AESKey) : QString :=
  let result := base64Encoder (List.ofFn key.data)
  QString.fromUtf8 (substr result 0 4 ++ [45] ++ substr result 4 4 ++ [45] ++
    substr result 8 4 ++ [45] ++ substr result 12 4 ++ [45] ++ substr result 16 4 ++ [45] ++
    substr result 20 2)

/-- The form in which a key is stored. -/
def toQVList (key : AESKey) : QVariant :=
  .list ((List.ofFn key.data).map fun byte => .int byte.toNat)

end AESKey

/-- AES under each key, as a permutation of blocks. -/
abbrev BlockCipher := AESKey → Equiv.Perm Block

namespace CAESWrapper

/-- The initial vector is read before the exception handler is entered; making
a string of negative length throws inside it. -/
def decrypt (cipher : BlockCipher) (memory : Memory) (buf : Nat) (length : Int) (key : AESKey)
    (iv : Nat) : QString :=
  let ivBlock := Block.ofBytes (memory.read iv blockSize)
  if length < 0 then []
  else
    match streamDecrypt (cipher key) ivBlock (memory.read buf length.toNat) with
    | none => []
    | some decryptedText => QString.fromUtf8 (cString decryptedText)

theorem decrypt_of_read {cipher : BlockCipher} {memory : Memory} {buf iv : Nat} {length : Int}
    {key : AESKey} {vector : Block} {ciphertext : QByteArray} (hlength : 0 ≤ length)
    (hiv : memory.read iv blockSize = vector.toBytes)
    (hbuf : memory.read buf length.toNat = ciphertext) :
    decrypt cipher memory buf length key iv =
      match streamDecrypt (cipher key) vector ciphertext with
      | none => []
      | some decryptedText => QString.fromUtf8 (cString decryptedText) := by
  rw [decrypt, if_neg (not_lt.mpr hlength), hiv, hbuf, Block.ofBytes_toBytes]

/-- Decryption depends only on the bytes of its two arguments. -/
theorem decrypt_congr (cipher : BlockCipher) {memory other : Memory} {buf iv limit : Nat}
    {length : Int} (key : AESKey) (hagree : ∀ i < limit, memory i = other i)
    (hiv : iv + blockSize ≤ limit) (hbuf : (buf : Int) + length ≤ limit) :
    decrypt cipher memory buf length key iv = decrypt cipher other buf length key iv := by
  unfold decrypt
  rw [Memory.read_congr hagree hiv]
  by_cases hlength : length < 0
  · rw [if_pos hlength, if_pos hlength]
  · have hread : memory.read buf length.toNat = other.read buf length.toNat :=
      Memory.read_congr hagree (by omega)
    rw [hread]

end CAESWrapper

end BBNotifier
