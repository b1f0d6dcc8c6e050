import Mathlib.Algebra.Group.Basic
import Mathlib.Algebra.Group.End

/-! # Cipher block chaining

CBC over an arbitrary group of blocks: the mask added to a plaintext block is
the preceding ciphertext block, and the initial chain value for the first one.
For byte blocks the group operation is exclusive or.
-/

namespace BBNotifier.Foundation.CipherBlockChaining

variable {Block : Type} [AddGroup Block] (cipher : Equiv.Perm Block)

/-- Encrypt each block masked with the ciphertext block before it. -/
def encrypt : Block → List Block → List Block
  | _, [] => []
  | chain, plain :: rest => cipher (plain + chain) :: encrypt (cipher (plain + chain)) rest

/-- Decrypt each block and take off the ciphertext block before it. -/
def decrypt : Block → List Block → List Block
  | _, [] => []
  | chain, block :: rest => (cipher.symm block - chain) :: decrypt block rest

theorem decrypt_encrypt (chain : Block) (plain : List Block) :
    decrypt cipher chain (encrypt cipher chain plain) = plain := by
  induction plain generalizing chain with
  | nil => rfl
  | cons block rest ih => simp [encrypt, decrypt, ih]

@[simp]
theorem length_encrypt (chain : Block) (plain : List Block) :
    (encrypt cipher chain plain).length = plain.length := by
  induction plain generalizing chain with
  | nil => rfl
  | cons block rest ih => simp [encrypt, ih]

/-- Another initial chain value shifts the first plaintext block by the
difference of the two and leaves every later block alone. -/
theorem decrypt_cons_of_chain (chain chain' block : Block) (rest : List Block) :
    decrypt cipher chain' (block :: rest) =
      ((cipher.symm block - chain) + (chain - chain')) ::
        (decrypt cipher chain (block :: rest)).tail := by
  rw [sub_add_sub_cancel]
  rfl

@[simp]
theorem length_decrypt (chain : Block) (blocks : List Block) :
    (decrypt cipher chain blocks).length = blocks.length := by
  induction blocks generalizing chain with
  | nil => rfl
  | cons block rest ih => simp [decrypt, ih]

/-- Each block is masked with the one before it. -/
theorem getElem_decrypt {chain : Block} {blocks : List Block} {i : Nat}
    (hi : i < blocks.length) :
    (decrypt cipher chain blocks).get ⟨i, by rwa [length_decrypt]⟩ =
      cipher.symm blocks[i] - (chain :: blocks).get ⟨i, Nat.lt_succ_of_lt hi⟩ := by
  induction blocks generalizing chain i with
  | nil => contradiction
  | cons block rest ih =>
      cases i with
      | zero => rfl
      | succ i => exact ih (Nat.lt_of_succ_lt_succ hi)

/-- A message can be decrypted in pieces, each chained to the last block before it. -/
theorem decrypt_append (chain : Block) (first second : List Block) :
    decrypt cipher chain (first ++ second) =
      decrypt cipher chain first ++ decrypt cipher (first.getLastD chain) second := by
  induction first generalizing chain with
  | nil => rfl
  | cons block rest ih =>
      rw [List.cons_append, decrypt, decrypt, ih, List.getLastD_cons]
      rfl

end BBNotifier.Foundation.CipherBlockChaining
