import Mathlib.Algebra.Group.Basic
import Mathlib.Data.Fintype.Pi
import Mathlib.Data.List.GetD
import Mathlib.Data.List.OfFn
import BBNotifier.Foundation.CipherBlockChaining
import BBNotifier.Foundation.Pkcs7
import BBNotifier.Qt.QString

/-! # The stream filter around a block cipher

`StreamTransformationFilter` with CBC mode and the default padding. Decryption
passes all blocks but the last through, and unpads the last one; input that is
not a positive number of whole blocks, or whose padding is invalid, throws
`InvalidCiphertext`. The block cipher under a key is any permutation of blocks.
-/

namespace BBNotifier

open Foundation

/-- `AES::BLOCKSIZE`. -/
def blockSize : Nat := 16

@[ext]
structure Block where
  byte : Fin blockSize → UInt8
deriving DecidableEq

namespace Block

instance : Add Block := ⟨fun a b => ⟨fun i => a.byte i ^^^ b.byte i⟩⟩

instance : Zero Block := ⟨⟨fun _ => 0⟩⟩

instance : Neg Block := ⟨id⟩

/-- Blocks are masked with exclusive or. -/
instance : AddCommGroup Block where
  nsmul := nsmulRec
  zsmul := zsmulRec
  add_assoc _ _ _ := Block.ext (funext fun _ => UInt8.xor_assoc _ _ _)
  zero_add _ := Block.ext (funext fun _ => UInt8.zero_xor)
  add_zero _ := Block.ext (funext fun _ => UInt8.xor_zero)
  neg_add_cancel _ := Block.ext (funext fun _ => UInt8.xor_self)
  add_comm _ _ := Block.ext (funext fun _ => UInt8.xor_comm _ _)

theorem byte_add (a b : Block) (i : Fin blockSize) : (a + b).byte i = a.byte i ^^^ b.byte i := rfl

theorem sub_eq_add (a b : Block) : a - b = a + b := sub_eq_add_neg a b

def ofBytes (bytes : QByteArray) : Block := ⟨fun i => bytes.getD i 0⟩

def toBytes (block : Block) : QByteArray := List.ofFn block.byte

@[simp]
theorem length_toBytes (block : Block) : block.toBytes.length = blockSize :=
  List.length_ofFn

@[simp]
theorem getElem_toBytes (block : Block) (i : Nat) (h : i < block.toBytes.length) :
    block.toBytes[i] = block.byte ⟨i, by simpa using h⟩ := List.getElem_ofFn h

@[simp]
theorem ofBytes_toBytes (block : Block) : ofBytes block.toBytes = block := by
  apply Block.ext
  funext i
  have hi : (i : Nat) < block.toBytes.length := by simp
  exact (List.getD_eq_getElem _ _ hi).trans (getElem_toBytes block i hi)

theorem toBytes_ofBytes {bytes : QByteArray} (h : bytes.length = blockSize) :
    (ofBytes bytes).toBytes = bytes := by
  apply List.ext_getElem
  · rw [length_toBytes, h]
  · intro i hi hi'
    rw [getElem_toBytes]
    exact List.getD_eq_getElem _ _ hi'

theorem ofBytes_append (block : Block) (rest : QByteArray) :
    ofBytes (block.toBytes ++ rest) = block := by
  conv_rhs => rw [← ofBytes_toBytes block]
  apply Block.ext
  funext i
  exact List.getD_append _ _ _ _ (by simp)

/-- The whole blocks of a byte string. -/
def split (bytes : QByteArray) : List Block :=
  (Pkcs7.chunks blockSize (bytes.length / blockSize) bytes).map ofBytes

@[simp]
theorem length_split (bytes : QByteArray) : (split bytes).length = bytes.length / blockSize := by
  rw [split, List.length_map, Pkcs7.length_chunks]

/-- The bytes of a list of blocks. -/
def join (blocks : List Block) : QByteArray := (blocks.map toBytes).flatten

@[simp]
theorem join_cons (block : Block) (rest : List Block) :
    join (block :: rest) = block.toBytes ++ join rest := rfl

theorem join_append (first second : List Block) :
    join (first ++ second) = join first ++ join second := by
  simp [join]

@[simp]
theorem length_join (blocks : List Block) : (join blocks).length = blockSize * blocks.length := by
  induction blocks with
  | nil => rfl
  | cons block rest ih =>
      rw [join_cons, List.length_append, ih, length_toBytes, List.length_cons, Nat.mul_succ,
        Nat.add_comm]

theorem split_join (blocks : List Block) : split (join blocks) = blocks := by
  have hsize : ∀ piece ∈ blocks.map toBytes, piece.length = blockSize := by
    intro piece hpiece
    obtain ⟨block, _, rfl⟩ := List.mem_map.mp hpiece
    exact block.length_toBytes
  have hcount : (join blocks).length / blockSize = (blocks.map toBytes).length := by
    rw [length_join, Nat.mul_div_cancel_left _ (by decide), List.length_map]
  have hid : ofBytes ∘ toBytes = id := funext ofBytes_toBytes
  rw [split, hcount, join, Pkcs7.chunks_flatten hsize, List.map_map, hid, List.map_id]

theorem join_split {bytes : QByteArray} (h : bytes.length % blockSize = 0) :
    join (split bytes) = bytes := by
  have hlength : bytes.length = blockSize * (bytes.length / blockSize) := by
    have := Nat.div_add_mod bytes.length blockSize
    omega
  have hpieces : ((Pkcs7.chunks blockSize (bytes.length / blockSize) bytes).map ofBytes).map
      toBytes = Pkcs7.chunks blockSize (bytes.length / blockSize) bytes := by
    rw [List.map_map]
    conv_rhs => rw [← List.map_id (Pkcs7.chunks _ _ _)]
    apply List.map_congr_left
    intro piece hpiece
    exact toBytes_ofBytes (Pkcs7.length_of_mem_chunks hlength.ge hpiece)
  rw [join, split, hpieces]
  exact Pkcs7.flatten_chunks hlength

end Block

/-- What decryption of the blocks puts out: every block but the last, then the
unpadded last one. `none` is the `InvalidCiphertext` thrown by `LastPut`. -/
def putPlain (plain : List Block) : Option QByteArray :=
  match plain.getLast? with
  | none => none
  | some last =>
      (Pkcs7.unpad blockSize last.toBytes).map fun text => Block.join plain.dropLast ++ text

def streamDecrypt (cipher : Equiv.Perm Block) (iv : Block) (bytes : QByteArray) :
    Option QByteArray :=
  if bytes.length % blockSize ≠ 0 then none
  else putPlain (CipherBlockChaining.decrypt cipher iv (Block.split bytes))

def streamEncrypt (cipher : Equiv.Perm Block) (iv : Block) (bytes : QByteArray) : QByteArray :=
  Block.join (CipherBlockChaining.encrypt cipher iv (Block.split (Pkcs7.pad blockSize bytes)))

theorem putPlain_append_singleton (front : List Block) (last : Block) :
    putPlain (front ++ [last]) =
      (Pkcs7.unpad blockSize last.toBytes).map fun text => Block.join front ++ text := by
  rw [putPlain, List.getLast?_concat, List.dropLast_concat]

/-- Padding a text and cutting it into blocks gives its full blocks and one
more, which holds the rest of the text and the padding. -/
theorem split_pad (bytes : QByteArray) :
    ∃ last, Block.split (Pkcs7.pad blockSize bytes) =
        Block.split (bytes.take (blockSize * (bytes.length / blockSize))) ++ [last] ∧
      last.toBytes = Pkcs7.pad blockSize (bytes.drop (blockSize * (bytes.length / blockSize))) := by
  have hdiv := Nat.div_add_mod bytes.length blockSize
  have hmod : bytes.length % blockSize < blockSize := Nat.mod_lt _ (by decide)
  have hrest : (Pkcs7.pad blockSize
      (bytes.drop (blockSize * (bytes.length / blockSize)))).length = blockSize := by
    rw [Pkcs7.length_pad (by decide), List.length_drop, Nat.div_eq_of_lt (by omega)]
    rfl
  have hfull : (bytes.take (blockSize * (bytes.length / blockSize))).length % blockSize = 0 := by
    rw [List.length_take_of_le (by omega), Nat.mul_mod_right]
  refine ⟨Block.ofBytes (Pkcs7.pad blockSize (bytes.drop _)), ?_, Block.toBytes_ofBytes hrest⟩
  conv_lhs => rw [Pkcs7.pad_eq_append, ← Block.join_split hfull, ← Block.toBytes_ofBytes hrest]
  rw [← List.append_nil (Block.toBytes _), ← Block.split_join (Block.split _ ++ [_]),
    Block.join_append, Block.join_split hfull]
  rfl

/-- Decryption undoes encryption, whatever the cipher and the text. -/
theorem streamDecrypt_streamEncrypt (cipher : Equiv.Perm Block) (iv : Block)
    (bytes : QByteArray) :
    streamDecrypt cipher iv (streamEncrypt cipher iv bytes) = some bytes := by
  have hdiv := Nat.div_add_mod bytes.length blockSize
  have hmod : bytes.length % blockSize < blockSize := Nat.mod_lt _ (by decide)
  obtain ⟨last, hsplit, hlast⟩ := split_pad bytes
  have hlength : (bytes.drop (blockSize * (bytes.length / blockSize))).length < blockSize := by
    rw [List.length_drop]
    omega
  have hfull : (bytes.take (blockSize * (bytes.length / blockSize))).length % blockSize = 0 := by
    rw [List.length_take_of_le (by omega), Nat.mul_mod_right]
  rw [streamDecrypt, streamEncrypt, Block.length_join, Nat.mul_mod_right, if_neg (by simp),
    Block.split_join, CipherBlockChaining.decrypt_encrypt, hsplit, putPlain_append_singleton,
    hlast, Pkcs7.unpad_pad (by decide) hlength, Option.map_some, Block.join_split hfull,
    List.take_append_drop]

/-! ## Decryption under another vector -/

theorem putPlain_cons_cons (first second : Block) (rest : List Block) :
    putPlain (first :: second :: rest) =
      (putPlain (second :: rest)).map fun text => first.toBytes ++ text := by
  obtain ⟨front, last, hlast⟩ := List.eq_nil_or_concat (second :: rest) |>.resolve_left (by simp)
  rw [List.concat_eq_append] at hlast
  rw [hlast, ← List.cons_append, putPlain_append_singleton, putPlain_append_singleton,
    Option.map_map]
  apply congrFun
  apply congrArg
  funext text
  rw [Function.comp_apply, Block.join_cons, List.append_assoc]

/-- The first bytes put out are those of the first plaintext block. -/
theorem streamDecrypt_take (cipher : Equiv.Perm Block) {iv first : Block} {rest : List Block}
    {bytes plain : QByteArray} (hsplit : Block.split bytes = first :: rest)
    (hplain : streamDecrypt cipher iv bytes = some plain) :
    plain.take blockSize <+: (cipher.symm first - iv).toBytes := by
  rw [streamDecrypt] at hplain
  split at hplain
  · contradiction
  rw [hsplit, CipherBlockChaining.decrypt] at hplain
  cases hrest : CipherBlockChaining.decrypt cipher first rest with
  | nil =>
      rw [hrest, putPlain] at hplain
      obtain ⟨text, htext, rfl⟩ := Option.map_eq_some_iff.mp hplain
      exact (List.take_prefix ..).trans (Pkcs7.unpad_isPrefix htext)
  | cons second others =>
      rw [hrest, putPlain_cons_cons] at hplain
      obtain ⟨text, -, rfl⟩ := Option.map_eq_some_iff.mp hplain
      rw [List.take_left' (Block.length_toBytes _)]

/-- Bytes that two decryptions of the same ciphertext have in common at the
start were masked with the same vector bytes. -/
theorem vector_byte_eq (cipher : Equiv.Perm Block) {iv iv' : Block}
    {bytes plain plain' front : QByteArray} (hplain : streamDecrypt cipher iv bytes = some plain)
    (hplain' : streamDecrypt cipher iv' bytes = some plain') (hfront : front <+: plain)
    (hfront' : front <+: plain') (i : Fin blockSize) (hi : i < front.length) :
    iv.byte i = iv'.byte i := by
  cases hsplit : Block.split bytes with
  | nil =>
      rw [streamDecrypt, hsplit] at hplain
      split at hplain <;> contradiction
  | cons first rest =>
      have hbyte : ∀ {vector text}, streamDecrypt cipher vector bytes = some text →
          front <+: text → front[i] = (cipher.symm first - vector).byte i := by
        intro vector text htext hbegins
        have htake := (hbegins.take blockSize).trans (streamDecrypt_take cipher hsplit htext)
        have hin : i < (front.take blockSize).length := by
          rw [List.length_take]
          omega
        have hget := htake.getElem hin
        rwa [List.getElem_take, Block.getElem_toBytes] at hget
      have heq := (hbyte hplain hfront).symm.trans (hbyte hplain' hfront')
      rw [Block.sub_eq_add, Block.sub_eq_add, Block.byte_add, Block.byte_add] at heq
      exact UInt8.xor_right_inj _ |>.mp heq

/-- Exchange the mask of the first block. -/
def remask (difference : Block) (plain : QByteArray) : QByteArray :=
  (Block.ofBytes plain + difference).toBytes ++ plain.drop blockSize

/-- Bytes where the mask is zero stay. -/
theorem take_remask {difference : Block} {plain : QByteArray} {count : Nat}
    (hcount : count ≤ blockSize) (hlength : count ≤ plain.length)
    (hzero : ∀ i : Fin blockSize, i < count → difference.byte i = 0) :
    (remask difference plain).take count = plain.take count := by
  have hfirst : count ≤ (Block.ofBytes plain + difference).toBytes.length := by
    rw [Block.length_toBytes]
    exact hcount
  rw [remask, List.take_append_of_le_length hfirst]
  apply List.ext_getElem
  · rw [List.length_take, List.length_take]
    omega
  · intro i hi _
    have hi' : i < count := (List.length_take_le ..).trans_lt' hi
    rw [List.getElem_take, List.getElem_take, Block.getElem_toBytes, Block.byte_add,
      hzero _ hi', UInt8.xor_zero]
    exact List.getD_eq_getElem _ _ (hi'.trans_le hlength)

/-- With two blocks or more, another vector changes the first plaintext block
by the difference of the vectors, and nothing else. -/
theorem streamDecrypt_of_vector (cipher : Equiv.Perm Block) {iv : Block} (iv' : Block)
    {bytes plain : QByteArray} (hlength : 2 * blockSize ≤ bytes.length)
    (hplain : streamDecrypt cipher iv bytes = some plain) :
    streamDecrypt cipher iv' bytes = some (remask (iv - iv') plain) := by
  rw [streamDecrypt] at hplain ⊢
  split at hplain
  · contradiction
  next hwhole =>
    rw [if_neg hwhole]
    obtain ⟨first, second, rest, hsplit⟩ : ∃ first second rest,
        Block.split bytes = first :: second :: rest := by
      have hcount : 2 ≤ (Block.split bytes).length := by
        rw [Block.length_split]
        exact (Nat.le_div_iff_mul_le (by decide)).mpr hlength
      match Block.split bytes, hcount with
      | first :: second :: rest, _ => exact ⟨first, second, rest, rfl⟩
    rw [hsplit, CipherBlockChaining.decrypt, CipherBlockChaining.decrypt, putPlain_cons_cons]
      at hplain
    obtain ⟨text, htext, rfl⟩ := Option.map_eq_some_iff.mp hplain
    rw [hsplit, CipherBlockChaining.decrypt_cons_of_chain cipher iv iv',
      CipherBlockChaining.decrypt, List.tail_cons, CipherBlockChaining.decrypt, putPlain_cons_cons,
      htext, remask, Block.ofBytes_append, List.drop_left' (Block.length_toBytes _)]
    rfl

theorem length_streamEncrypt (cipher : Equiv.Perm Block) (iv : Block) (bytes : QByteArray) :
    (streamEncrypt cipher iv bytes).length = blockSize * (bytes.length / blockSize + 1) := by
  have hpad := @Pkcs7.length_pad blockSize (by decide) bytes
  rw [streamEncrypt, Block.length_join, CipherBlockChaining.length_encrypt, Block.split,
    List.length_map, Pkcs7.length_chunks, hpad, Nat.mul_div_cancel_left _ (by decide)]

end BBNotifier
