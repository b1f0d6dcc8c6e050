import BBNotifier.Qt.QString

/-! # Reading through pointers

A pointer to a byte array also reaches the bytes stored after it, which can be
anything. Reading past the end of an array is reading those bytes; whether a read
stays inside is asked apart from what it gives.
-/

namespace BBNotifier

/-- An access to a list or an array beyond its end. -/
inductive Fault
  | indexOutOfRange (index length : Nat)
deriving DecidableEq

/-- The bytes a pointer reaches, by offset. -/
abbrev Memory := Nat → UInt8

namespace Memory

/-- A byte array with whatever is stored after it. -/
def store (bytes : QByteArray) (beyond : Memory) : Memory :=
  fun offset => if h : offset < bytes.length then bytes[offset] else beyond (offset - bytes.length)

/-- Read `count` bytes from an offset on. -/
def read (memory : Memory) (offset count : Nat) : QByteArray :=
  (List.range count).map fun i => memory (offset + i)

@[simp]
theorem length_read (memory : Memory) (offset count : Nat) :
    (memory.read offset count).length = count := by
  simp [read]

theorem read_congr {memory other : Memory} {offset count limit : Nat}
    (hagree : ∀ i < limit, memory i = other i) (hwithin : offset + count ≤ limit) :
    memory.read offset count = other.read offset count := by
  apply List.map_congr_left
  intro i hi
  rw [List.mem_range] at hi
  exact hagree (offset + i) (by omega)

theorem store_of_lt {bytes : QByteArray} {beyond : Memory} {offset : Nat}
    (h : offset < bytes.length) : store bytes beyond offset = bytes[offset] := dif_pos h

/-- Inside the array a read gives a piece of it, whatever follows. -/
theorem read_store {bytes : QByteArray} {beyond : Memory} {offset count : Nat}
    (hwithin : offset + count ≤ bytes.length) :
    (store bytes beyond).read offset count = (bytes.drop offset).take count := by
  apply List.ext_getElem
  · rw [length_read, List.length_take, List.length_drop]
    omega
  · intro i hi _
    rw [length_read] at hi
    rw [List.getElem_take, List.getElem_drop]
    simp only [read, List.getElem_map, List.getElem_range]
    exact store_of_lt (by omega)

/-- A read between two known parts of the array. -/
theorem read_store_append {front piece rest : QByteArray} {beyond : Memory} {offset count : Nat}
    (hoffset : front.length = offset) (hcount : piece.length = count) :
    (store (front ++ (piece ++ rest)) beyond).read offset count = piece := by
  rw [read_store, ← hoffset, List.drop_left, List.take_left' hcount]
  rw [List.length_append, List.length_append]
  omega

end Memory

/-- A read of `count` bytes through a pointer into an array of `size` bytes. -/
structure BufferRead where
  offset : Nat
  count : Nat
  size : Nat
deriving DecidableEq

namespace BufferRead

def Inside (read : BufferRead) : Prop := read.offset + read.count ≤ read.size

instance (read : BufferRead) : Decidable read.Inside :=
  inferInstanceAs (Decidable (read.offset + read.count ≤ read.size))

/-- The fault of the first read whose last byte is beyond the array. -/
def check : List BufferRead → Except Fault Unit
  | [] => .ok ()
  | read :: rest =>
      if read.Inside then check rest
      else .error (.indexOutOfRange (read.offset + read.count - 1) read.size)

theorem check_eq_ok {reads : List BufferRead} :
    check reads = .ok () ↔ ∀ read ∈ reads, read.Inside := by
  induction reads with
  | nil => exact iff_of_true rfl (by simp)
  | cons read rest ih =>
      rw [check, List.forall_mem_cons]
      split
      next hinside => simpa [hinside] using ih
      next houtside => exact iff_of_false (by simp) fun hall => houtside hall.1

end BufferRead

end BBNotifier
