import Mathlib.Algebra.Ring.Nat
import Mathlib.Data.List.Basic
import Mathlib.Tactic.Common

/-! # Little-endian 32-bit integers -/

namespace BBNotifier.Foundation

/-- The number whose bytes are given, least significant first. -/
def littleEndian : List UInt8 → Nat
  | [] => 0
  | byte :: rest => byte.toNat + 256 * littleEndian rest

theorem littleEndian_lt (bytes : List UInt8) : littleEndian bytes < 256 ^ bytes.length := by
  induction bytes with
  | nil => simp [littleEndian]
  | cons byte rest ih =>
      have hbyte := byte.toNat_lt
      rw [littleEndian, List.length_cons, Nat.pow_succ]
      omega

/-- The signed 32-bit integer stored in the first four bytes. -/
@[irreducible]
def leInt32 (bytes : List UInt8) : Int := Int.bmod (littleEndian (bytes.take 4)) (2 ^ 32)

/-- The four bytes of a number. -/
def leBytes32 (n : Nat) : List UInt8 :=
  [UInt8.ofNat n, UInt8.ofNat (n / 256), UInt8.ofNat (n / 65536), UInt8.ofNat (n / 16777216)]

theorem littleEndian_leBytes32 {n : Nat} (h : n < 2 ^ 32) : littleEndian (leBytes32 n) = n := by
  simp only [leBytes32, littleEndian, UInt8.toNat_ofNat']
  omega

/-- Nonnegative integers read back from their bytes, whatever follows. -/
theorem leInt32_leBytes32 {n : Nat} (h : n < 2 ^ 31) (rest : List UInt8) :
    leInt32 (leBytes32 n ++ rest) = n := by
  have htake : (leBytes32 n ++ rest).take 4 = leBytes32 n := List.take_left' rfl
  have hsmall : n < 2 ^ 32 := by omega
  unfold leInt32
  rw [htake, littleEndian_leBytes32 hsmall]
  exact Int.bmod_eq_of_le (by omega) (by omega)

theorem leBytes32_littleEndian {bytes : List UInt8} (h : bytes.length = 4) :
    leBytes32 (littleEndian bytes) = bytes := by
  obtain ⟨b₀, b₁, b₂, b₃, rfl⟩ := List.length_eq_four.mp h
  have h₀ := b₀.toNat_lt
  have h₁ := b₁.toNat_lt
  have h₂ := b₂.toNat_lt
  have h₃ := b₃.toNat_lt
  simp only [leBytes32, littleEndian, List.cons.injEq, ← UInt8.toNat_inj, UInt8.toNat_ofNat',
    and_true]
  refine ⟨?_, ?_, ?_, ?_⟩ <;> omega

/-- A nonnegative integer has the bytes it was read from. -/
theorem leBytes32_leInt32 {bytes : List UInt8} (h : 4 ≤ bytes.length)
    (hnonneg : 0 ≤ leInt32 bytes) :
    leBytes32 (leInt32 bytes).toNat = bytes.take 4 := by
  have hlength : (bytes.take 4).length = 4 := by rw [List.length_take]; omega
  have hbytes := leBytes32_littleEndian hlength
  have hsmall := littleEndian_lt (bytes.take 4)
  rw [hlength] at hsmall
  unfold leInt32 at hnonneg ⊢
  rw [Int.bmod_def] at hnonneg ⊢
  have hvalue : (littleEndian (bytes.take 4) : Int) % (2 ^ 32 : Nat) =
      littleEndian (bytes.take 4) :=
    Int.emod_eq_of_lt (by omega) (by omega)
  rw [hvalue] at hnonneg ⊢
  split at hnonneg
  next hlt => rwa [if_pos hlt, Int.toNat_natCast]
  next => omega

theorem leInt32_append {bytes : List UInt8} (h : 4 ≤ bytes.length) (more : List UInt8) :
    leInt32 (bytes ++ more) = leInt32 bytes := by
  unfold leInt32
  rw [List.take_append_of_le_length h]

end BBNotifier.Foundation
