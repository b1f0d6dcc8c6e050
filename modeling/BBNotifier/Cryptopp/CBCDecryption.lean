import Mathlib.Data.List.GetD
import BBNotifier.Crypto.StreamTransformationFilter
import BBNotifier.Qt.Memory

/-! # CBC decryption in memory

`CBC_Decryption::ProcessData` decrypts a piece of a message and remembers its last
ciphertext block for the next piece. It may write its result over its input,
for which it goes through the blocks from the last to the first.
-/

namespace BBNotifier

namespace Memory

/-- The block at an offset. -/
def block (memory : Memory) (offset : Nat) : Block := ⟨fun i => memory (offset + i)⟩

def writeBlock (memory : Memory) (offset : Nat) (block : Block) : Memory :=
  fun place => if h : offset ≤ place ∧ place < offset + blockSize then
    block.byte ⟨place - offset, by omega⟩ else memory place

/-- Consecutive blocks. -/
def blocks (memory : Memory) (offset count : Nat) : List Block :=
  (List.range count).map fun i => memory.block (offset + i * blockSize)

@[simp]
theorem length_blocks (memory : Memory) (offset count : Nat) :
    (memory.blocks offset count).length = count := by
  rw [blocks, List.length_map, List.length_range]

theorem getElem_blocks {memory : Memory} {offset count i : Nat}
    (hi : i < (memory.blocks offset count).length) :
    (memory.blocks offset count)[i] = memory.block (offset + i * blockSize) := by
  simp only [blocks, List.getElem_map, List.getElem_range]

theorem block_congr {memory other : Memory} {offset : Nat}
    (h : ∀ place, offset ≤ place → place < offset + blockSize → memory place = other place) :
    memory.block offset = other.block offset := by
  apply Block.ext
  funext i
  exact h _ (Nat.le_add_right _ _) (Nat.add_lt_add_left i.isLt _)

theorem block_writeBlock (memory : Memory) (offset : Nat) (block : Block) :
    (memory.writeBlock offset block).block offset = block := by
  apply Block.ext
  funext i
  simp [Memory.block, writeBlock]

theorem writeBlock_of_outside {memory : Memory} {offset place : Nat} {block : Block}
    (h : place < offset ∨ offset + blockSize ≤ place) :
    memory.writeBlock offset block place = memory place :=
  dif_neg (by omega)

/-- A write leaves other blocks alone. -/
theorem block_writeBlock_of_disjoint {memory : Memory} {offset other : Nat} {block : Block}
    (h : other + blockSize ≤ offset ∨ offset + blockSize ≤ other) :
    (memory.writeBlock offset block).block other = memory.block other := by
  apply block_congr
  intro place hle hlt
  exact writeBlock_of_outside (by omega)

end Memory

open Foundation

namespace CBCDecryption

/-- `ProcessAndXorBlock` of the block cipher, in the decrypting direction. -/
def processAndXorBlock (cipher : Equiv.Perm Block) (memory : Memory) (inBlock : Nat)
    (xorBlock : Block) (outBlock : Nat) : Memory :=
  memory.writeBlock outBlock (cipher.symm (memory.block inBlock) + xorBlock)

/-- `AdvancedProcessBlocks` in reverse direction, by the number of blocks left. -/
def advancedProcessBlocks (cipher : Equiv.Perm Block) (inBlocks xorBlocks outBlocks : Nat) :
    Nat → Memory → Memory
  | 0, memory => memory
  | count + 1, memory =>
      advancedProcessBlocks cipher inBlocks xorBlocks outBlocks count
        (processAndXorBlock cipher memory (inBlocks + count * blockSize)
          (memory.block (xorBlocks + count * blockSize)) (outBlocks + count * blockSize))

/-- Nothing but the blocks put out is written. -/
theorem advancedProcessBlocks_of_outside (cipher : Equiv.Perm Block)
    {inBlocks xorBlocks outBlocks count place : Nat} {memory : Memory}
    (h : place < outBlocks ∨ outBlocks + count * blockSize ≤ place) :
    advancedProcessBlocks cipher inBlocks xorBlocks outBlocks count memory place =
      memory place := by
  induction count generalizing memory with
  | zero => rfl
  | succ count ih =>
      rw [Nat.succ_mul] at h
      rw [advancedProcessBlocks, ih (by omega)]
      exact Memory.writeBlock_of_outside (by omega)

/-- If no block is written before those still to be read, each block is decrypted
and masked as it was at the start. -/
theorem block_advancedProcessBlocks (cipher : Equiv.Perm Block)
    {inBlocks xorBlocks outBlocks count : Nat} {memory : Memory}
    (hread : ∀ i j, i < j → j < count → ∀ read,
      read = inBlocks + i * blockSize ∨ read = xorBlocks + i * blockSize →
      read + blockSize ≤ outBlocks + j * blockSize ∨ outBlocks + j * blockSize + blockSize ≤ read)
    {i : Nat} (hi : i < count) :
    (advancedProcessBlocks cipher inBlocks xorBlocks outBlocks count memory).block
        (outBlocks + i * blockSize) =
      cipher.symm (memory.block (inBlocks + i * blockSize)) +
        memory.block (xorBlocks + i * blockSize) := by
  induction count generalizing memory with
  | zero => contradiction
  | succ count ih =>
      rw [advancedProcessBlocks]
      rcases Nat.lt_succ_iff_lt_or_eq.mp hi with hlt | rfl
      · rw [ih (fun i j hij hj => hread i j hij (hj.trans (Nat.lt_succ_self _))) hlt,
          processAndXorBlock]
        have hlast := hread i count hlt (Nat.lt_succ_self _)
        rw [Memory.block_writeBlock_of_disjoint (hlast _ (.inl rfl)),
          Memory.block_writeBlock_of_disjoint (hlast _ (.inr rfl))]
      · have hkept : (advancedProcessBlocks cipher inBlocks xorBlocks outBlocks i
            (processAndXorBlock cipher memory (inBlocks + i * blockSize)
              (memory.block (xorBlocks + i * blockSize)) (outBlocks + i * blockSize))).block
              (outBlocks + i * blockSize) =
            (processAndXorBlock cipher memory (inBlocks + i * blockSize)
              (memory.block (xorBlocks + i * blockSize)) (outBlocks + i * blockSize)).block
              (outBlocks + i * blockSize) := by
          apply Memory.block_congr
          intro place hle _
          exact advancedProcessBlocks_of_outside cipher (.inr hle)
        rw [hkept]
        exact Memory.block_writeBlock _ _ _

end CBCDecryption

/-- The mode between two pieces. -/
structure CBCDecryption where
  register : Block
  temp : Block

namespace CBCDecryption

/-- Decrypt whole blocks. The last one is copied first, in case it is written over. -/
def processData (cipher : Equiv.Perm Block) (mode : CBCDecryption) (memory : Memory)
    (outString inString length : Nat) : Memory × CBCDecryption :=
  if length = 0 then (memory, mode)
  else
    let temp := memory.block (inString + length - blockSize)
    let memory :=
      if blockSize < length then
        advancedProcessBlocks cipher (inString + blockSize) inString (outString + blockSize)
          ((length - blockSize) / blockSize) memory
      else memory
    let memory := processAndXorBlock cipher memory inString mode.register outString
    (memory, { register := temp, temp := mode.register })

variable {cipher : Equiv.Perm Block} {mode : CBCDecryption} {memory : Memory}
  {outString inString count : Nat}

/-- Nothing but the result is written. -/
theorem processData_of_outside {place : Nat}
    (h : place < outString ∨ outString + count * blockSize ≤ place) :
    (processData cipher mode memory outString inString (count * blockSize)).1 place =
      memory place := by
  simp only [processData]
  split
  · rfl
  next hcount =>
    have hfirst : place < outString ∨ outString + blockSize ≤ place := by
      simp only [blockSize] at hcount h ⊢
      omega
    refine (Memory.writeBlock_of_outside hfirst).trans ?_
    by_cases hmore : blockSize < count * blockSize
    · rw [if_pos hmore]
      apply advancedProcessBlocks_of_outside
      rw [← Nat.sub_one_mul, Nat.mul_div_cancel _ (by decide), Nat.sub_one_mul]
      omega
    · rw [if_neg hmore]

theorem register_processData :
    (processData cipher mode memory outString inString (count * blockSize)).2.register =
      (memory.blocks inString count).getLastD mode.register := by
  cases count with
  | zero =>
      rw [Nat.zero_mul]
      rfl
  | succ count =>
      have hpos : (count + 1) * blockSize ≠ 0 := by simp [blockSize]
      simp only [processData]
      rw [if_neg hpos, Memory.blocks, List.range_succ, List.map_append, List.map_singleton,
        List.getLastD_concat]
      simp only [Nat.succ_mul, ← Nat.add_assoc, Nat.add_sub_cancel]

/-- What is put out is the plaintext, in place or into memory of its own. -/
theorem blocks_processData
    (halias : outString = inString ∨ inString + count * blockSize ≤ outString ∨
      outString + count * blockSize ≤ inString) :
    (processData cipher mode memory outString inString (count * blockSize)).1.blocks
        outString count =
      CipherBlockChaining.decrypt cipher mode.register (memory.blocks inString count) := by
  apply List.ext_getElem
  · rw [CipherBlockChaining.length_decrypt, Memory.length_blocks, Memory.length_blocks]
  intro i hi hi'
  have hlt : i < (memory.blocks inString count).length := by
    rwa [CipherBlockChaining.length_decrypt] at hi'
  have hcount : i < count := by rwa [Memory.length_blocks] at hlt
  have hdecrypt := @CipherBlockChaining.getElem_decrypt _ _ cipher mode.register _ i hlt
  rw [List.get_eq_getElem, List.get_eq_getElem] at hdecrypt
  rw [Memory.getElem_blocks, hdecrypt, Memory.getElem_blocks, Block.sub_eq_add]
  simp only [processData]
  have hpos : count * blockSize ≠ 0 := by
    simp only [blockSize]
    omega
  have hmoreBlocks : (count * blockSize - blockSize) / blockSize = count - 1 := by
    rw [← Nat.sub_one_mul, Nat.mul_div_cancel _ (by decide)]
  rw [if_neg hpos, hmoreBlocks]
  cases i with
  | zero =>
      rw [Nat.zero_mul, Nat.add_zero, Nat.add_zero, processAndXorBlock, Memory.block_writeBlock,
        List.getElem_cons_zero]
      congr 2
      split
      next hmore =>
        -- The blocks written so far begin after the first one.
        apply Memory.block_congr
        intro place hle hplace
        apply advancedProcessBlocks_of_outside
        rw [Nat.sub_one_mul]
        omega
      · rfl
  | succ i =>
      have hmore : blockSize < count * blockSize := by
        simp only [blockSize]
        omega
      have hplace : outString + (i + 1) * blockSize = outString + blockSize + i * blockSize := by
        rw [Nat.succ_mul]
        omega
      have hread : inString + (i + 1) * blockSize = inString + blockSize + i * blockSize := by
        rw [Nat.succ_mul]
        omega
      rw [if_pos hmore, processAndXorBlock, hplace,
        Memory.block_writeBlock_of_disjoint (.inr (by omega)), block_advancedProcessBlocks,
        List.getElem_cons_succ, Memory.getElem_blocks, hread]
      · intro i j hij hj read hread
        simp only [blockSize] at *
        omega
      · omega

end CBCDecryption

end BBNotifier
