import Mathlib.Data.Finite.Defs
import Mathlib.Data.Fintype.EquivFin
import Mathlib.Tactic.FinCases
import Mathlib.Tactic.IntervalCases
import BBNotifier.Crypto.StreamTransformationFilter

/-! # The tables of Rijndael

The substitution of `rdtables.cpp`, and the tables that `FillEncTable` and
`FillDecTable` make of it. An entry of eight bytes holds a column of the mixing
matrix in all its rotations, which are read at different offsets.
-/

namespace BBNotifier

namespace Rijndael

def seTable : List UInt8 :=
  [0x63, 0x7c, 0x77, 0x7b, 0xf2, 0x6b, 0x6f, 0xc5, 0x30, 0x01, 0x67, 0x2b, 0xfe, 0xd7, 0xab, 0x76,
    0xca, 0x82, 0xc9, 0x7d, 0xfa, 0x59, 0x47, 0xf0, 0xad, 0xd4, 0xa2, 0xaf, 0x9c, 0xa4, 0x72,
    0xc0, 0xb7, 0xfd, 0x93, 0x26, 0x36, 0x3f, 0xf7, 0xcc, 0x34, 0xa5, 0xe5, 0xf1, 0x71, 0xd8,
    0x31, 0x15, 0x04, 0xc7, 0x23, 0xc3, 0x18, 0x96, 0x05, 0x9a, 0x07, 0x12, 0x80, 0xe2, 0xeb,
    0x27, 0xb2, 0x75, 0x09, 0x83, 0x2c, 0x1a, 0x1b, 0x6e, 0x5a, 0xa0, 0x52, 0x3b, 0xd6, 0xb3,
    0x29, 0xe3, 0x2f, 0x84, 0x53, 0xd1, 0x00, 0xed, 0x20, 0xfc, 0xb1, 0x5b, 0x6a, 0xcb, 0xbe,
    0x39, 0x4a, 0x4c, 0x58, 0xcf, 0xd0, 0xef, 0xaa, 0xfb, 0x43, 0x4d, 0x33, 0x85, 0x45, 0xf9,
    0x02, 0x7f, 0x50, 0x3c, 0x9f, 0xa8, 0x51, 0xa3, 0x40, 0x8f, 0x92, 0x9d, 0x38, 0xf5, 0xbc,
    0xb6, 0xda, 0x21, 0x10, 0xff, 0xf3, 0xd2, 0xcd, 0x0c, 0x13, 0xec, 0x5f, 0x97, 0x44, 0x17,
    0xc4, 0xa7, 0x7e, 0x3d, 0x64, 0x5d, 0x19, 0x73, 0x60, 0x81, 0x4f, 0xdc, 0x22, 0x2a, 0x90,
    0x88, 0x46, 0xee, 0xb8, 0x14, 0xde, 0x5e, 0x0b, 0xdb, 0xe0, 0x32, 0x3a, 0x0a, 0x49, 0x06,
    0x24, 0x5c, 0xc2, 0xd3, 0xac, 0x62, 0x91, 0x95, 0xe4, 0x79, 0xe7, 0xc8, 0x37, 0x6d, 0x8d,
    0xd5, 0x4e, 0xa9, 0x6c, 0x56, 0xf4, 0xea, 0x65, 0x7a, 0xae, 0x08, 0xba, 0x78, 0x25, 0x2e,
    0x1c, 0xa6, 0xb4, 0xc6, 0xe8, 0xdd, 0x74, 0x1f, 0x4b, 0xbd, 0x8b, 0x8a, 0x70, 0x3e, 0xb5,
    0x66, 0x48, 0x03, 0xf6, 0x0e, 0x61, 0x35, 0x57, 0xb9, 0x86, 0xc1, 0x1d, 0x9e, 0xe1, 0xf8,
    0x98, 0x11, 0x69, 0xd9, 0x8e, 0x94, 0x9b, 0x1e, 0x87, 0xe9, 0xce, 0x55, 0x28, 0xdf, 0x8c,
    0xa1, 0x89, 0x0d, 0xbf, 0xe6, 0x42, 0x68, 0x41, 0x99, 0x2d, 0x0f, 0xb0, 0x54, 0xbb, 0x16]

def sdTable : List UInt8 :=
  [0x52, 0x09, 0x6a, 0xd5, 0x30, 0x36, 0xa5, 0x38, 0xbf, 0x40, 0xa3, 0x9e, 0x81, 0xf3, 0xd7, 0xfb,
    0x7c, 0xe3, 0x39, 0x82, 0x9b, 0x2f, 0xff, 0x87, 0x34, 0x8e, 0x43, 0x44, 0xc4, 0xde, 0xe9,
    0xcb, 0x54, 0x7b, 0x94, 0x32, 0xa6, 0xc2, 0x23, 0x3d, 0xee, 0x4c, 0x95, 0x0b, 0x42, 0xfa,
    0xc3, 0x4e, 0x08, 0x2e, 0xa1, 0x66, 0x28, 0xd9, 0x24, 0xb2, 0x76, 0x5b, 0xa2, 0x49, 0x6d,
    0x8b, 0xd1, 0x25, 0x72, 0xf8, 0xf6, 0x64, 0x86, 0x68, 0x98, 0x16, 0xd4, 0xa4, 0x5c, 0xcc,
    0x5d, 0x65, 0xb6, 0x92, 0x6c, 0x70, 0x48, 0x50, 0xfd, 0xed, 0xb9, 0xda, 0x5e, 0x15, 0x46,
    0x57, 0xa7, 0x8d, 0x9d, 0x84, 0x90, 0xd8, 0xab, 0x00, 0x8c, 0xbc, 0xd3, 0x0a, 0xf7, 0xe4,
    0x58, 0x05, 0xb8, 0xb3, 0x45, 0x06, 0xd0, 0x2c, 0x1e, 0x8f, 0xca, 0x3f, 0x0f, 0x02, 0xc1,
    0xaf, 0xbd, 0x03, 0x01, 0x13, 0x8a, 0x6b, 0x3a, 0x91, 0x11, 0x41, 0x4f, 0x67, 0xdc, 0xea,
    0x97, 0xf2, 0xcf, 0xce, 0xf0, 0xb4, 0xe6, 0x73, 0x96, 0xac, 0x74, 0x22, 0xe7, 0xad, 0x35,
    0x85, 0xe2, 0xf9, 0x37, 0xe8, 0x1c, 0x75, 0xdf, 0x6e, 0x47, 0xf1, 0x1a, 0x71, 0x1d, 0x29,
    0xc5, 0x89, 0x6f, 0xb7, 0x62, 0x0e, 0xaa, 0x18, 0xbe, 0x1b, 0xfc, 0x56, 0x3e, 0x4b, 0xc6,
    0xd2, 0x79, 0x20, 0x9a, 0xdb, 0xc0, 0xfe, 0x78, 0xcd, 0x5a, 0xf4, 0x1f, 0xdd, 0xa8, 0x33,
    0x88, 0x07, 0xc7, 0x31, 0xb1, 0x12, 0x10, 0x59, 0x27, 0x80, 0xec, 0x5f, 0x60, 0x51, 0x7f,
    0xa9, 0x19, 0xb5, 0x4a, 0x0d, 0x2d, 0xe5, 0x7a, 0x9f, 0x93, 0xc9, 0x9c, 0xef, 0xa0, 0xe0,
    0x3b, 0x4d, 0xae, 0x2a, 0xf5, 0xb0, 0xc8, 0xeb, 0xbb, 0x3c, 0x83, 0x53, 0x99, 0x61, 0x17,
    0x2b, 0x04, 0x7e, 0xba, 0x77, 0xd6, 0x26, 0xe1, 0x69, 0x14, 0x63, 0x55, 0x21, 0x0c, 0x7d]

/-- `Se[x]`. -/
def Se (x : UInt8) : UInt8 := seTable.getD x.toNat 0

/-- `Sd[x]`. -/
def Sd (x : UInt8) : UInt8 := sdTable.getD x.toNat 0

/-- A fact about all bytes. -/
theorem forall_byte {P : UInt8 → Prop} (h : ∀ n < 256, P (UInt8.ofNat n)) (x : UInt8) : P x := by
  rw [← UInt8.ofNat_toNat (x := x)]
  exact h x.toNat x.toNat_lt

theorem Sd_Se (x : UInt8) : Sd (Se x) = x := by
  have htable : seTable.map Sd = (List.range 256).map UInt8.ofNat := by decide +kernel
  have hsize : seTable.length = 256 := by decide +kernel
  have hlength : x.toNat < seTable.length := hsize.symm ▸ x.toNat_lt
  have hentry := congrArg (·[x.toNat]?) htable
  simp only [List.getElem?_map, List.getElem?_eq_getElem hlength,
    List.getElem?_range x.toNat_lt, Option.map_some, Option.some_inj, UInt8.ofNat_toNat] at hentry
  rw [Se, List.getD_eq_getElem _ _ hlength, hentry]

/-- There are as many bytes on either side. -/
theorem Se_Sd (x : UInt8) : Se (Sd x) = x := by
  have : Finite UInt8 := Finite.of_injective UInt8.toFin fun _ _ => UInt8.toFin_inj.mp
  have hinverse : Function.LeftInverse Sd Se := Sd_Se
  exact hinverse.rightInverse_of_surjective
    (Finite.injective_iff_surjective.mp hinverse.injective) x

/-! ## Multiplication -/

def f2 (x : Nat) : Nat := (x <<< 1) ^^^ (((x >>> 7) &&& 1) * 0x11b)

def f4 (x : Nat) : Nat :=
  (x <<< 2) ^^^ (((x >>> 6) &&& 1) * 0x11b) ^^^ (((x >>> 6) &&& 2) * 0x11b)

def f8 (x : Nat) : Nat :=
  (x <<< 3) ^^^ (((x >>> 5) &&& 1) * 0x11b) ^^^ (((x >>> 5) &&& 2) * 0x11b) ^^^
    (((x >>> 5) &&& 4) * 0x11b)

def f3 (x : Nat) : Nat := f2 x ^^^ x

def f9 (x : Nat) : Nat := f8 x ^^^ x

def fb (x : Nat) : Nat := f8 x ^^^ f2 x ^^^ x

def fd (x : Nat) : Nat := f8 x ^^^ f4 x ^^^ x

def fe (x : Nat) : Nat := f8 x ^^^ f4 x ^^^ f2 x

/-- A multiplication as a function of bytes. -/
def times (f : Nat → Nat) (x : UInt8) : UInt8 := UInt8.ofNat (f x.toNat)

theorem f2_xor (x y : Nat) : f2 (x ^^^ y) = f2 x ^^^ f2 y := by
  have hcarry : ∀ a < 2, ∀ b < 2, (a ^^^ b) * 0x11b = a * 0x11b ^^^ b * 0x11b := by decide
  have hbit : ∀ z : Nat, (z >>> 7) &&& 1 < 2 := fun z => by
    rw [Nat.and_one_is_mod]
    exact Nat.mod_lt _ Nat.zero_lt_two
  rw [f2, f2, f2, Nat.shiftLeft_xor_distrib, Nat.shiftRight_xor_distrib, Nat.and_xor_distrib_right,
    hcarry _ (hbit x) _ (hbit y)]
  ac_rfl

theorem times_f2_xor (x y : UInt8) : times f2 (x ^^^ y) = times f2 x ^^^ times f2 y := by
  rw [times, UInt8.toNat_xor, f2_xor, UInt8.ofNat_xor]
  rfl

theorem times_f4 : ∀ x, times f4 x = times f2 (times f2 x) := forall_byte (by decide +kernel)

theorem times_f8 : ∀ x, times f8 x = times f2 (times f2 (times f2 x)) :=
  forall_byte (by decide +kernel)

/-- All the multiplications are made of doublings. -/
theorem times_eq (x : UInt8) :
    times f3 x = times f2 x ^^^ x ∧ times f9 x = times f8 x ^^^ x ∧
      times fb x = times f8 x ^^^ times f2 x ^^^ x ∧
      times fd x = times f8 x ^^^ times f4 x ^^^ x ∧
      times fe x = times f8 x ^^^ times f4 x ^^^ times f2 x := by
  simp only [times, f3, f9, fb, fd, fe, UInt8.ofNat_xor, UInt8.ofNat_toNat, and_self]

/-! ## The tables -/

/-- A column of the mixing matrix, by the distance of the row from the diagonal. -/
def encColumn : Fin 4 → UInt8 → UInt8
  | 0 => times f2
  | 1 => id
  | 2 => id
  | 3 => times f3

/-- The same for the inverse matrix. -/
def decColumn : Fin 4 → UInt8 → UInt8
  | 0 => times fe
  | 1 => times f9
  | 2 => times fd
  | 3 => times fb

theorem encColumn_xor (d : Fin 4) (x y : UInt8) :
    encColumn d (x ^^^ y) = encColumn d x ^^^ encColumn d y := by
  fin_cases d
  · exact times_f2_xor x y
  · rfl
  · rfl
  · simp only [encColumn, times_eq, times_f2_xor]
    ac_rfl

theorem decColumn_xor (d : Fin 4) (x y : UInt8) :
    decColumn d (x ^^^ y) = decColumn d x ^^^ decColumn d y := by
  fin_cases d
  all_goals
    simp only [decColumn, times_eq, times_f4, times_f8, times_f2_xor]
    ac_rfl

def word32 (x : Nat) : BitVec 32 := BitVec.ofNat 32 x

/-- What `FillEncTable` makes of a byte of `Se`. -/
def encEntry (x : UInt8) : BitVec 64 :=
  let x := x.toNat
  let y := word32 x <<< 8 ||| word32 x <<< 16 ||| word32 (f2 x) <<< 24
  (y ||| word32 (f3 x)).setWidth 64 <<< 32 ||| y.setWidth 64

/-- What `FillDecTable` makes of a byte of `Sd`. -/
def decEntry (x : UInt8) : BitVec 64 :=
  let x := x.toNat
  let y := word32 (fd x) <<< 8 ||| word32 (f9 x) <<< 16 ||| word32 (fe x) <<< 24
  (y ||| word32 (fb x)).setWidth 64 <<< 32 ||| y.setWidth 64 ||| BitVec.ofNat 64 x

def Te (i : UInt8) : BitVec 64 := encEntry (Se i)

def Td (i : UInt8) : BitVec 64 := decEntry (Sd i)

/-- Four bytes of an entry, at an offset. -/
def TL_M (T : UInt8 → BitVec 64) (i : Nat) (x : UInt8) : BitVec 32 :=
  (T x >>> (8 * ((i + 3) % 4 + 1))).setWidth 32

def TL_F (T : UInt8 → BitVec 64) (i : Nat) (x : UInt8) : BitVec 32 :=
  (T x >>> (8 * ((6 - i) % 4 + 1))).setWidth 32

/-- One byte of an entry. -/
def entryByte (entry : BitVec 64) (offset : Nat) : UInt8 :=
  .ofBitVec ((entry >>> (8 * offset)).setWidth 8)

/-- `GETBYTE`. -/
def getByte (x : BitVec 32) (y : Nat) : UInt8 := .ofBitVec ((x >>> (8 * y)).setWidth 8)

theorem getByte_TL_M_encEntry : ∀ x, ∀ k r : Fin 4,
    getByte (TL_M encEntry k x) (3 - r) = encColumn (r - k) x :=
  forall_byte (by decide +kernel)

theorem getByte_TL_M_decEntry : ∀ x, ∀ k r : Fin 4,
    getByte (TL_M decEntry k x) (3 - r) = decColumn (r - k) x :=
  forall_byte (by decide +kernel)

theorem getByte_TL_M_Te (x : UInt8) (k r : Fin 4) :
    getByte (TL_M Te k x) (3 - r) = encColumn (r - k) (Se x) := by
  rw [← getByte_TL_M_encEntry (Se x) k r, TL_M, TL_M, Te]

theorem getByte_TL_M_Td (x : UInt8) (k r : Fin 4) :
    getByte (TL_M Td k x) (3 - r) = decColumn (r - k) (Sd x) := by
  rw [← getByte_TL_M_decEntry (Sd x) k r, TL_M, TL_M, Td]

theorem entryByte_encEntry : ∀ x, entryByte (encEntry x) 1 = x :=
  forall_byte (by decide +kernel)

theorem entryByte_decEntry : ∀ x, entryByte (decEntry x) 0 = x :=
  forall_byte (by decide +kernel)

theorem entryByte_Te (x : UInt8) : entryByte (Te x) 1 = Se x := entryByte_encEntry (Se x)

theorem entryByte_Td (x : UInt8) : entryByte (Td x) 0 = Sd x := entryByte_decEntry (Sd x)

theorem TL_F_eq_TL_M (T : UInt8 → BitVec 64) {i : Nat} (hi : i < 4) :
    TL_F T i = TL_M T (3 - i) := by
  interval_cases i <;> rfl

end Rijndael

end BBNotifier
