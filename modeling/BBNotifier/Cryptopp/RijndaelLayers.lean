import Mathlib.Algebra.Group.Equiv.Basic
import BBNotifier.Cryptopp.RijndaelTables

/-! # The layers of Rijndael

A block is a square of bytes, column by column. The substitution replaces the
bytes and shifts the rows, the linear layer mixes each column. Both are
invertible, and the inverses are what the other tables compute.
-/

namespace BBNotifier

namespace Rijndael

/-- The place of a byte in its block. -/
def place (column row : Fin 4) : Fin blockSize :=
  ⟨4 * column + row, by have := column.isLt; have := row.isLt; simp only [blockSize]; omega⟩

def column (i : Fin blockSize) : Fin 4 :=
  ⟨i / 4, Nat.div_lt_of_lt_mul i.isLt⟩

def row (i : Fin blockSize) : Fin 4 := ⟨i % 4, Nat.mod_lt _ (by decide)⟩

@[simp]
theorem place_column_row : ∀ i, place (column i) (row i) = i := by decide

@[simp]
theorem column_place : ∀ c r, column (place c r) = c := by decide

@[simp]
theorem row_place : ∀ c r, row (place c r) = r := by decide

/-- Blocks are equal when their columns are. -/
theorem block_ext {block other : Block}
    (h : ∀ c r, block.byte (place c r) = other.byte (place c r)) : block = other := by
  apply Block.ext
  funext i
  rw [← place_column_row i]
  exact h (column i) (row i)

/-! ## Substitution -/

/-- Replace the bytes, and take them from the column where the shifted row has them. -/
def shiftRows (replace : UInt8 → UInt8) (source : Fin 4 → Fin 4 → Fin 4) (block : Block) : Block :=
  ⟨fun i => replace (block.byte (place (source (column i) (row i)) (row i)))⟩

theorem byte_shiftRows (replace : UInt8 → UInt8) (source : Fin 4 → Fin 4 → Fin 4) (block : Block)
    (c r : Fin 4) :
    (shiftRows replace source block).byte (place c r) =
      replace (block.byte (place (source c r) r)) := by
  simp only [shiftRows, column_place, row_place]

theorem shiftRows_shiftRows {replace restore : UInt8 → UInt8} {source back : Fin 4 → Fin 4 → Fin 4}
    (hrestore : ∀ x, restore (replace x) = x) (hback : ∀ c r, source (back c r) r = c)
    (block : Block) : shiftRows restore back (shiftRows replace source block) = block := by
  apply block_ext
  intro c r
  rw [byte_shiftRows, byte_shiftRows, hrestore, hback]

def substitute : Equiv.Perm Block where
  toFun := shiftRows Se (· + ·)
  invFun := shiftRows Sd (· - ·)
  left_inv := shiftRows_shiftRows Sd_Se (by decide)
  right_inv := shiftRows_shiftRows Se_Sd (by decide)

/-! ## Mixing -/

/-- A matrix of multiplications, given by its column, applied to all columns. -/
def mixColumns (entry : Fin 4 → UInt8 → UInt8) (block : Block) : Block :=
  ⟨fun i => (List.finRange 4).foldr (fun k sum =>
    entry (row i - k) (block.byte (place (column i) k)) ^^^ sum) 0⟩

theorem byte_mixColumns (entry : Fin 4 → UInt8 → UInt8) (block : Block) (c r : Fin 4) :
    (mixColumns entry block).byte (place c r) =
      entry (r - 0) (block.byte (place c 0)) ^^^ entry (r - 1) (block.byte (place c 1)) ^^^
        entry (r - 2) (block.byte (place c 2)) ^^^ entry (r - 3) (block.byte (place c 3)) := by
  have hrange : List.finRange 4 = [0, 1, 2, 3] := rfl
  simp only [mixColumns, column_place, row_place, hrange, List.foldr_cons, List.foldr_nil,
    UInt8.xor_zero, UInt8.xor_assoc]

section Linear

variable {entry : Fin 4 → UInt8 → UInt8}
  (hentry : ∀ d x y, entry d (x ^^^ y) = entry d x ^^^ entry d y)

include hentry

theorem mixColumns_add (block other : Block) :
    mixColumns entry (block + other) = mixColumns entry block + mixColumns entry other := by
  apply block_ext
  intro c r
  simp only [Block.byte_add, byte_mixColumns, hentry]
  ac_rfl

omit hentry in
/-- The product of two matrices, by the distance of the rows of its column. -/
theorem product_entry {back : Fin 4 → UInt8 → UInt8} {unit : Fin 4 → UInt8 → UInt8}
    (hunit : ∀ x d, entry (d - 0) (back 0 x) ^^^ entry (d - 1) (back 1 x) ^^^
      entry (d - 2) (back 2 x) ^^^ entry (d - 3) (back 3 x) = unit d x) (x : UInt8) (r j : Fin 4) :
    entry (r - 0) (back (0 - j) x) ^^^ entry (r - 1) (back (1 - j) x) ^^^
      entry (r - 2) (back (2 - j) x) ^^^ entry (r - 3) (back (3 - j) x) = unit (r - j) x := by
  rw [← hunit]
  fin_cases j <;> fin_cases r <;> simp only [Fin.reduceFinMk, Fin.isValue, Fin.reduceSub] <;> ac_rfl

/-- Two matrices undo each other when the column of their product is the unit's. -/
theorem mixColumns_mixColumns {back : Fin 4 → UInt8 → UInt8}
    (hunit : ∀ x, ∀ d : Fin 4, entry (d - 0) (back 0 x) ^^^ entry (d - 1) (back 1 x) ^^^
      entry (d - 2) (back 2 x) ^^^ entry (d - 3) (back 3 x) = if d = 0 then x else 0)
    (block : Block) : mixColumns entry (mixColumns back block) = block := by
  have hproduct := @product_entry entry back (fun d x => if d = 0 then x else 0) hunit
  apply block_ext
  intro c r
  have hcolumn := fun j => hproduct (block.byte (place c j)) r j
  have htranspose : (mixColumns entry (mixColumns back block)).byte (place c r) =
      (if r - 0 = 0 then block.byte (place c 0) else 0) ^^^
        (if r - 1 = 0 then block.byte (place c 1) else 0) ^^^
        (if r - 2 = 0 then block.byte (place c 2) else 0) ^^^
        (if r - 3 = 0 then block.byte (place c 3) else 0) := by
    simp only [← hcolumn, byte_mixColumns, hentry]
    ac_rfl
  rw [htranspose]
  fin_cases r <;> simp

end Linear

theorem decColumn_encColumn : ∀ x, ∀ d : Fin 4,
    decColumn (d - 0) (encColumn 0 x) ^^^ decColumn (d - 1) (encColumn 1 x) ^^^
      decColumn (d - 2) (encColumn 2 x) ^^^ decColumn (d - 3) (encColumn 3 x) =
        if d = 0 then x else 0 :=
  forall_byte (by decide +kernel)

theorem encColumn_decColumn : ∀ x, ∀ d : Fin 4,
    encColumn (d - 0) (decColumn 0 x) ^^^ encColumn (d - 1) (decColumn 1 x) ^^^
      encColumn (d - 2) (decColumn 2 x) ^^^ encColumn (d - 3) (decColumn 3 x) =
        if d = 0 then x else 0 :=
  forall_byte (by decide +kernel)

def mix : Block ≃+ Block where
  toFun := mixColumns encColumn
  invFun := mixColumns decColumn
  left_inv := mixColumns_mixColumns decColumn_xor decColumn_encColumn
  right_inv := mixColumns_mixColumns encColumn_xor encColumn_decColumn
  map_add' := mixColumns_add encColumn_xor

end Rijndael

end BBNotifier
