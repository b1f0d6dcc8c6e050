import Mathlib.Algebra.Order.Group.Nat
import Mathlib.Data.List.GetD
import Mathlib.Tactic.Common

/-! # Regrouping bits

A byte string read as a string of bits, most significant first, and cut into
groups of another width. The last group is filled up with zeros.
-/

namespace BBNotifier.Foundation.BitGroups

/-- The number whose first bit, of a given number of bits, is the most significant. -/
def ofBits (bits : Nat → Bool) : Nat → Nat
  | 0 => 0
  | width + 1 => 2 * ofBits bits width + (bits width).toNat

theorem ofBits_lt (bits : Nat → Bool) (width : Nat) : ofBits bits width < 2 ^ width := by
  induction width with
  | zero => exact Nat.one_pos
  | succ width ih =>
      have hbit := (bits width).toNat_lt
      rw [ofBits, Nat.pow_succ]
      omega

theorem testBit_ofBits (bits : Nat → Bool) {width i : Nat} (hi : i < width) :
    (ofBits bits width).testBit (width - 1 - i) = bits i := by
  induction width with
  | zero => contradiction
  | succ width ih =>
      rcases Nat.lt_succ_iff_lt_or_eq.mp hi with hlt | rfl
      · have hplace : width + 1 - 1 - i = (width - 1 - i) + 1 := by omega
        rw [hplace, ofBits, Nat.testBit_succ, ← ih hlt]
        congr 1
        have hbit := (bits width).toNat_lt
        omega
      · rw [ofBits, Nat.add_sub_cancel, Nat.sub_self, Nat.testBit_zero]
        cases bits i <;> simp

/-- A number is given by its bits. -/
theorem eq_ofBits {bits : Nat → Bool} {width value : Nat} (hlt : value < 2 ^ width)
    (hbits : ∀ i < width, value.testBit (width - 1 - i) = bits i) :
    value = ofBits bits width := by
  apply Nat.eq_of_testBit_eq
  intro place
  by_cases hplace : place < width
  · have hi : width - 1 - (width - 1 - place) = place := by omega
    have hvalue := hbits (width - 1 - place) (by omega)
    have hgroup := @testBit_ofBits bits width (width - 1 - place) (by omega)
    rw [hi] at hvalue hgroup
    rw [hvalue, hgroup]
  · have hle : 2 ^ width ≤ 2 ^ place := Nat.pow_le_pow_right Nat.zero_lt_two (by omega)
    rw [Nat.testBit_lt_two_pow (hlt.trans_le hle),
      Nat.testBit_lt_two_pow ((ofBits_lt bits width).trans_le hle)]

theorem ofBits_congr {bits other : Nat → Bool} {width : Nat} (h : ∀ i < width, bits i = other i) :
    ofBits bits width = ofBits other width := by
  apply eq_ofBits (ofBits_lt bits width)
  intro i hi
  rw [testBit_ofBits bits hi, h i hi]

/-- A bit of a byte string. There are only zeros after its end. -/
def byteBit (bytes : List UInt8) (i : Nat) : Bool :=
  (bytes.getD (i / 8) 0).toNat.testBit (7 - i % 8)

theorem byteBit_of_le {bytes : List UInt8} {i : Nat} (h : 8 * bytes.length ≤ i) :
    byteBit bytes i = false := by
  rw [byteBit, List.getD_eq_default _ _ (by omega)]
  exact Nat.zero_testBit _

theorem byteBit_append_left {first second : List UInt8} {i : Nat} (h : i < 8 * first.length) :
    byteBit (first ++ second) i = byteBit first i := by
  rw [byteBit, byteBit, List.getD_append _ _ _ _ (by omega)]

theorem byteBit_append_right (first second : List UInt8) (i : Nat) :
    byteBit (first ++ second) (8 * first.length + i) = byteBit second i := by
  rw [byteBit, byteBit, List.getD_append_right _ _ _ _ (by omega), Nat.mul_add_mod]
  congr 3
  omega

/-- The group with a given index. -/
def group (width : Nat) (bytes : List UInt8) (j : Nat) : Nat :=
  ofBits (fun i => byteBit bytes (j * width + i)) width

/-- All groups that have a bit of the string. -/
def groups (width : Nat) (bytes : List UInt8) : List Nat :=
  (List.range ((8 * bytes.length + width - 1) / width)).map (group width bytes)

theorem length_groups (width : Nat) (bytes : List UInt8) :
    (groups width bytes).length = (8 * bytes.length + width - 1) / width := by
  rw [groups, List.length_map, List.length_range]

theorem getElem_groups {width : Nat} {bytes : List UInt8} {j : Nat}
    (hj : j < (groups width bytes).length) : (groups width bytes)[j] = group width bytes j := by
  simp only [groups, List.getElem_map, List.getElem_range]

/-- A front of whole groups is cut on its own. -/
theorem groups_append {width : Nat} (hwidth : 0 < width) {first second : List UInt8}
    (hfirst : width ∣ 8 * first.length) :
    groups width (first ++ second) = groups width first ++ groups width second := by
  obtain ⟨count, hcount⟩ := hfirst
  have hfirstLength : (groups width first).length = count := by
    rw [length_groups, hcount, Nat.add_sub_assoc hwidth, Nat.mul_add_div hwidth,
      Nat.div_eq_of_lt (by omega), Nat.add_zero]
  have hlength : (groups width (first ++ second)).length =
      count + (groups width second).length := by
    have hsum : 8 * (first ++ second).length + width - 1 =
        width * count + (8 * second.length + width - 1) := by
      rw [List.length_append, ← hcount]
      omega
    rw [length_groups, length_groups, hsum, Nat.mul_add_div hwidth]
  apply List.ext_getElem
  · rw [hlength, List.length_append, hfirstLength]
  intro j hj _
  rw [getElem_groups]
  by_cases hbefore : j < count
  · rw [List.getElem_append_left (by omega), getElem_groups]
    apply ofBits_congr
    intro i hi
    apply byteBit_append_left
    rw [hcount]
    calc j * width + i < j * width + width := Nat.add_lt_add_left hi _
      _ = width * (j + 1) := by rw [Nat.mul_comm, Nat.mul_succ]
      _ ≤ width * count := Nat.mul_le_mul_left _ hbefore
  · rw [List.getElem_append_right (by omega), getElem_groups]
    apply ofBits_congr
    intro i _
    have hplace : j * width + i = 8 * first.length + ((j - count) * width + i) := by
      rw [hcount, Nat.mul_comm width, ← Nat.add_assoc, ← Nat.add_mul,
        Nat.add_sub_cancel' (Nat.not_lt.mp hbefore)]
    rw [hplace, byteBit_append_right, hfirstLength]

end BBNotifier.Foundation.BitGroups
