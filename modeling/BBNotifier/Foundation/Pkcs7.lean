import Mathlib.Data.List.Basic
import Mathlib.Tactic.Common

/-! # Fixed-size blocks and PKCS #7 padding

A byte string is cut into blocks of one size. Padding fills the last block with
copies of the number of bytes missing, and adds a whole block when none is.
-/

namespace BBNotifier.Foundation.Pkcs7

/-- The first `count` pieces of `size` items. -/
def chunks {Item : Type} (size : Nat) : Nat → List Item → List (List Item)
  | 0, _ => []
  | count + 1, items => items.take size :: chunks size count (items.drop size)

@[simp]
theorem length_chunks {Item : Type} (size count : Nat) (items : List Item) :
    (chunks size count items).length = count := by
  induction count generalizing items with
  | zero => rfl
  | succ count ih => simp [chunks, ih]

/-- Cutting a concatenation of equal pieces gives the pieces. -/
theorem chunks_flatten {Item : Type} {size : Nat} {pieces : List (List Item)}
    (hsize : ∀ piece ∈ pieces, piece.length = size) :
    chunks size pieces.length pieces.flatten = pieces := by
  induction pieces with
  | nil => rfl
  | cons piece rest ih =>
      have hpiece := hsize piece List.mem_cons_self
      have hrest := ih fun other hother => hsize other (List.mem_cons_of_mem _ hother)
      rw [List.length_cons, chunks, List.flatten_cons, List.take_left' hpiece,
        List.drop_left' hpiece, hrest]

theorem length_of_mem_chunks {Item : Type} {size count : Nat} {items piece : List Item}
    (hlength : size * count ≤ items.length) (hpiece : piece ∈ chunks size count items) :
    piece.length = size := by
  induction count generalizing items with
  | zero => simp [chunks] at hpiece
  | succ count ih =>
      rw [Nat.mul_succ] at hlength
      rcases List.mem_cons.mp hpiece with rfl | hrest
      · rw [List.length_take]
        omega
      · refine ih ?_ hrest
        rw [List.length_drop]
        omega

theorem flatten_chunks {Item : Type} {size count : Nat} {items : List Item}
    (hlength : items.length = size * count) : (chunks size count items).flatten = items := by
  induction count generalizing items with
  | zero => exact (List.length_eq_zero_iff.mp hlength).symm
  | succ count ih =>
      rw [Nat.mul_succ] at hlength
      rw [chunks, List.flatten_cons, ih (by rw [List.length_drop]; omega), List.take_append_drop]

variable {size : Nat}

/-- The number of padding bytes, which is also the value of each. -/
def padLength (size : Nat) (bytes : List UInt8) : Nat := size - bytes.length % size

/-- Fill the last block. -/
def pad (size : Nat) (bytes : List UInt8) : List UInt8 :=
  bytes ++ List.replicate (padLength size bytes) (UInt8.ofNat (padLength size bytes))

/-- Strip the padding of a last block, if it is valid. -/
def unpad (size : Nat) (block : List UInt8) : Option (List UInt8) :=
  let count := (block.getLast?.getD 0).toNat
  if count < 1 ∨ size < count ∨
      (block.drop (size - count)).any (· ≠ UInt8.ofNat count) then none
  else some (block.take (size - count))

theorem unpad_isPrefix {block text : List UInt8} (h : unpad size block = some text) :
    text <+: block := by
  unfold unpad at h
  simp only at h
  split at h
  · contradiction
  · rw [← Option.some.inj h]
    exact List.take_prefix ..

theorem length_pad (hsize : 0 < size) (bytes : List UInt8) :
    (pad size bytes).length = size * (bytes.length / size + 1) := by
  have hmod := Nat.mod_lt bytes.length hsize
  have hdiv := Nat.div_add_mod bytes.length size
  rw [pad, List.length_append, List.length_replicate, padLength, Nat.mul_succ]
  omega

/-- The blocks of a padded string: those already full, then the filled one. -/
theorem pad_eq_append (bytes : List UInt8) :
    pad size bytes = bytes.take (size * (bytes.length / size)) ++
      pad size (bytes.drop (size * (bytes.length / size))) := by
  have hdiv := Nat.div_add_mod bytes.length size
  have hlength : (bytes.drop (size * (bytes.length / size))).length = bytes.length % size := by
    rw [List.length_drop]
    omega
  have hpad : padLength size (bytes.drop (size * (bytes.length / size))) =
      padLength size bytes := by
    rw [padLength, hlength, Nat.mod_mod]
    rfl
  rw [pad, pad, hpad, ← List.append_assoc, List.take_append_drop]

/-- A filled last block unpads to what was put into it. -/
theorem unpad_pad (hsize : size < 256) {bytes : List UInt8} (hlength : bytes.length < size) :
    unpad size (pad size bytes) = some bytes := by
  have hcount : padLength size bytes = size - bytes.length := by
    rw [padLength, Nat.mod_eq_of_lt hlength]
  have htake : size - (size - bytes.length) = bytes.length := by omega
  have hlast : ((pad size bytes).getLast?.getD 0).toNat = size - bytes.length := by
    rw [pad, hcount, List.getLast?_append_of_ne_nil _ (by simp; omega),
      List.getLast?_replicate, if_neg (by omega), Option.getD_some]
    simp only [UInt8.toNat_ofNat']
    omega
  unfold unpad
  simp only [hlast]
  rw [if_neg]
  · rw [htake, pad, List.take_left]
  · rw [htake, pad, List.drop_left, hcount]
    simp
    omega

end BBNotifier.Foundation.Pkcs7
