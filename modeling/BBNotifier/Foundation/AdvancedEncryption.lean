import Mathlib.Data.List.FinRange
import Mathlib.Logic.Function.Iterate

/-! # The Advanced Encryption Standard

The cipher with keys of sixteen bytes, as the standard describes it: bytes are
polynomials over two elements, taken modulo an irreducible one of degree eight, and
the block is a square of bytes.
-/

namespace BBNotifier.Foundation.AdvancedEncryption

/-! ## Bytes -/

/-- Multiplication by the polynomial `x`. -/
def xtime (b : Nat) : Nat := (2 * b) ^^^ (b / 128 * 0x11b)

/-- The product of two polynomials, the second of which has the number of coefficients. -/
def mulUpTo : Nat → Nat → Nat → Nat
  | 0, _, _ => 0
  | count + 1, b, c => (c % 2 * b) ^^^ mulUpTo count (xtime b) (c / 2)

def mul (b c : Nat) : Nat := mulUpTo 8 b c

/-- The power to 254, which is the inverse if there is one. -/
def inverse (b : Nat) : Nat :=
  let root := (List.range 6).foldl (fun power _ => mul (mul power power) b) b
  mul root root

def rotate (b count : Nat) : Nat := ((b <<< count) % 256) ^^^ (b >>> (8 - count))

/-- The substitution: the inverse, then an affine transformation of its bits. -/
def subByte (b : UInt8) : UInt8 :=
  let c := inverse b.toNat
  UInt8.ofNat (c ^^^ rotate c 1 ^^^ rotate c 2 ^^^ rotate c 3 ^^^ rotate c 4 ^^^ 0x63)

example : mul 0x57 0x13 = 0xfe := by decide

example : mul 0x53 (inverse 0x53) = 1 := by decide

/-! ## States -/

/-- A block or a round key: rows, then columns. -/
abbrev State := Fin 4 → Fin 4 → UInt8

def subBytes (state : State) : State := fun row column => subByte (state row column)

def shiftRows (state : State) : State := fun row column => state row (column + row)

/-- The entry of the matrix that columns are multiplied with. -/
def coefficient (row column : Fin 4) : Nat := [2, 3, 1, 1].getD (column - row).val 0

def mixColumns (state : State) : State := fun row column =>
  (List.finRange 4).foldr (fun i sum =>
    UInt8.ofNat (mul (state i column).toNat (coefficient row i)) ^^^ sum) 0

def addRoundKey (state key : State) : State := fun row column => state row column ^^^ key row column

/-! ## Round keys -/

/-- A column of a round key. -/
abbrev Word := Fin 4 → UInt8

def rotWord (word : Word) : Word := fun row => word ⟨(row + 1) % 4, Nat.mod_lt _ (by decide)⟩

def subWord (word : Word) : Word := fun row => subByte (word row)

/-- The constant of a round, a power of `x` in the first byte. -/
def rcon (round : Nat) : Word := fun row =>
  if row.val = 0 then UInt8.ofNat (xtime^[round - 1] 1) else 0

/-- The columns of all round keys, those of the key first. -/
def word (key : State) (i : Nat) : Word :=
  if h : i < 4 then fun row => key row ⟨i, h⟩
  else if i % 4 = 0 then
    fun row =>
      word key (i - 4) row ^^^ subWord (rotWord (word key (i - 1))) row ^^^ rcon (i / 4) row
  else fun row => word key (i - 4) row ^^^ word key (i - 1) row
termination_by i
decreasing_by all_goals omega

def roundKey (key : State) (round : Nat) : State := fun row column =>
  word key (4 * round + column) row

theorem roundKey_zero (key : State) : roundKey key 0 = key := by
  funext row column
  rw [roundKey, word, dif_pos (by omega)]
  simp only [Nat.mul_zero, Nat.zero_add, Fin.eta]

/-- The first column of the next round key. -/
theorem word_next_first (key : State) (round : Nat) (row : Fin 4) :
    word key (4 * (round + 1)) row = word key (4 * round) row ^^^
      subWord (rotWord (word key (4 * round + 3))) row ^^^ rcon (round + 1) row := by
  rw [word, dif_neg (by omega), if_pos (by omega)]
  simp only [show 4 * (round + 1) - 4 = 4 * round by omega,
    show 4 * (round + 1) - 1 = 4 * round + 3 by omega,
    show 4 * (round + 1) / 4 = round + 1 by omega]

/-- Its other columns. -/
theorem word_next (key : State) (round : Nat) {column : Nat} (hcolumn : column < 3)
    (row : Fin 4) :
    word key (4 * (round + 1) + (column + 1)) row =
      word key (4 * round + (column + 1)) row ^^^ word key (4 * (round + 1) + column) row := by
  rw [word, dif_neg (by omega), if_neg (by omega)]
  simp only [show 4 * (round + 1) + (column + 1) - 4 = 4 * round + (column + 1) by omega,
    show 4 * (round + 1) + (column + 1) - 1 = 4 * (round + 1) + column by omega]

/-! ## The cipher -/

def round (state key : State) : State := addRoundKey (mixColumns (shiftRows (subBytes state))) key

def cipher (key input : State) : State :=
  let inner := ((List.range' 1 9).map (roundKey key)).foldl round
    (addRoundKey input (roundKey key 0))
  addRoundKey (shiftRows (subBytes inner)) (roundKey key 10)

end BBNotifier.Foundation.AdvancedEncryption
