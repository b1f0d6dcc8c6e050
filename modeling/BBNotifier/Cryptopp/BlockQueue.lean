import Mathlib.Data.List.Basic
import Mathlib.Tactic.Common
import BBNotifier.Foundation.Run
import BBNotifier.Qt.Memory

/-! # The queue of a buffered filter

`BlockQueue` keeps the bytes that a filter cannot pass on yet in a ring of a
fixed number of blocks. Its operations copy into the ring and hand out pointers
into it without testing bounds. As long as the size of the ring is a `size_t` and
the bytes put in fit, they stay within the ring, and the queue is the list of the
bytes in it, oldest first.
-/

namespace BBNotifier

open Foundation

/-- One more than the largest `size_t` of a build for 32 bits. -/
def sizeLimit : Nat := 4294967296

/-- A number computed as a `size_t`. The lengths of byte strings in memory are
small enough. -/
def sizeT (n : Nat) : Nat := n % sizeLimit

theorem sizeT_of_lt {n : Nat} (h : n < sizeLimit) : sizeT n = n := Nat.mod_eq_of_lt h

/-- `memcpy` to an offset of a buffer. -/
def memcpy (buffer : QByteArray) (offset : Nat) (bytes : QByteArray) : Except Fault QByteArray :=
  if offset + bytes.length ≤ buffer.length then
    .ok (buffer.take offset ++ bytes ++ buffer.drop (offset + bytes.length))
  else .error (.indexOutOfRange (offset + bytes.length) buffer.length)

/-- The bytes behind a pointer into a buffer. -/
def bytesAt (buffer : QByteArray) (offset count : Nat) : Except Fault QByteArray :=
  if offset + count ≤ buffer.length then .ok ((buffer.drop offset).take count)
  else .error (.indexOutOfRange (offset + count) buffer.length)

/-- A byte after `memcpy`. -/
theorem getElem?_memcpy {buffer bytes result : QByteArray} {offset : Nat}
    (h : memcpy buffer offset bytes = .ok result) (i : Nat) :
    result[i]? = if offset ≤ i ∧ i < offset + bytes.length then bytes[i - offset]?
      else buffer[i]? := by
  unfold memcpy at h
  split at h
  next hfits =>
    obtain rfl := Except.ok.inj h
    have htake : (buffer.take offset).length = offset := by
      rw [List.length_take]
      omega
    by_cases hbefore : i < offset
    · rw [if_neg (by omega), List.append_assoc, List.getElem?_append_left (by omega),
        List.getElem?_take_of_lt hbefore]
    by_cases hinside : i < offset + bytes.length
    · rw [if_pos ⟨by omega, hinside⟩, List.append_assoc, List.getElem?_append_right (by omega),
        List.getElem?_append_left (by omega), htake]
    · rw [if_neg (by omega), List.getElem?_append_right (by rw [List.length_append]; omega),
        List.length_append, htake, List.getElem?_drop]
      congr 1
      omega
  · contradiction

theorem length_memcpy {buffer bytes result : QByteArray} {offset : Nat}
    (h : memcpy buffer offset bytes = .ok result) : result.length = buffer.length := by
  unfold memcpy at h
  split at h
  next hfits =>
    obtain rfl := Except.ok.inj h
    rw [List.length_append, List.length_append, List.length_take, List.length_drop]
    omega
  · contradiction

theorem memcpy_isOk {buffer bytes : QByteArray} {offset : Nat}
    (h : offset + bytes.length ≤ buffer.length) :
    ∃ result, memcpy buffer offset bytes = .ok result :=
  ⟨_, if_pos h⟩

/-- `begin` and the end of the buffer are offsets. -/
structure BlockQueue where
  buffer : QByteArray
  blockSize : Nat
  maxBlocks : Nat
  size : Nat
  begin : Nat

namespace BlockQueue

/-- A new ring. What is in it does not matter. -/
def resetQueue (blockSize maxBlocks : Nat) : BlockQueue where
  buffer := List.replicate (sizeT (blockSize * maxBlocks)) 0
  blockSize
  maxBlocks
  size := 0
  begin := 0

/-- One block, or a null pointer if there is none. -/
def getBlock (queue : BlockQueue) : Except Fault (Option QByteArray × BlockQueue) :=
  if queue.blockSize ≤ queue.size then do
    let block ← bytesAt queue.buffer queue.begin queue.blockSize
    let begin := queue.begin + queue.blockSize
    return (some block, { queue with
      begin := if begin = queue.buffer.length then 0 else begin
      size := queue.size - queue.blockSize })
  else return (none, queue)

/-- As many of the bytes asked for as lie in one piece. -/
def getContigousBlocks (queue : BlockQueue) (numberOfBytes : Nat) :
    Except Fault (QByteArray × BlockQueue) := do
  let numberOfBytes := min numberOfBytes (min (queue.buffer.length - queue.begin) queue.size)
  let bytes ← bytesAt queue.buffer queue.begin numberOfBytes
  let begin := queue.begin + numberOfBytes
  let size := queue.size - numberOfBytes
  return (bytes, { queue with
    begin := if size = 0 ∨ begin = queue.buffer.length then 0 else begin
    size })

/-- Everything, in two pieces if it goes over the end of the ring. -/
def getAll (queue : BlockQueue) : Except Fault (QByteArray × BlockQueue) := do
  let (first, queue) ← queue.getContigousBlocks (sizeT (queue.maxBlocks * queue.blockSize))
  let second ← bytesAt queue.buffer queue.begin queue.size
  return (first ++ second, { queue with size := 0 })

def put (queue : BlockQueue) (inString : QByteArray) : Except Fault BlockQueue := do
  let theEnd :=
    if queue.size < queue.buffer.length - queue.begin then queue.begin + queue.size
    else queue.begin + queue.size - queue.buffer.length
  let len := min inString.length (queue.buffer.length - theEnd)
  let buffer ← memcpy queue.buffer theEnd (inString.take len)
  let buffer ← if len < inString.length then memcpy buffer 0 (inString.drop len) else pure buffer
  return { queue with buffer, size := queue.size + inString.length }

/-! ## The bytes in the queue -/

/-- The bytes in the queue, oldest first. -/
def contents (queue : BlockQueue) : QByteArray :=
  (queue.buffer.drop queue.begin ++ queue.buffer.take queue.begin).take queue.size

/-- The queue fits into its ring, and begins with a block. -/
structure Valid (queue : BlockQueue) : Prop where
  fits : queue.blockSize * queue.maxBlocks < sizeLimit
  capacity : queue.buffer.length = queue.blockSize * queue.maxBlocks
  size_le : queue.size ≤ queue.buffer.length
  begin_lt : queue.begin < queue.buffer.length ∨ queue.begin = 0
  aligned : queue.blockSize ∣ queue.begin

/-- Where a byte of the queue lies in the ring. -/
def place (queue : BlockQueue) (i : Nat) : Nat :=
  if queue.begin + i < queue.buffer.length then queue.begin + i
  else queue.begin + i - queue.buffer.length

theorem begin_le {queue : BlockQueue} (hvalid : queue.Valid) :
    queue.begin ≤ queue.buffer.length := by
  rcases hvalid.begin_lt with hlt | hzero
  · exact hlt.le
  · rw [hzero]
    exact Nat.zero_le _

theorem length_contents {queue : BlockQueue} (hvalid : queue.Valid) :
    queue.contents.length = queue.size := by
  have hbegin := begin_le hvalid
  have hsize := hvalid.size_le
  rw [contents, List.length_take, List.length_append, List.length_drop, List.length_take]
  omega

theorem getElem?_contents {queue : BlockQueue} (hvalid : queue.Valid) (i : Nat) :
    queue.contents[i]? = if i < queue.size then queue.buffer[queue.place i]? else none := by
  have hbegin := begin_le hvalid
  have hsize := hvalid.size_le
  rw [contents, List.getElem?_take]
  split
  next hi =>
    rw [place]
    split
    next hfirst =>
      rw [List.getElem?_append_left (by rw [List.length_drop]; omega), List.getElem?_drop]
    next hsecond =>
      rw [List.getElem?_append_right (by rw [List.length_drop]; omega), List.length_drop,
        List.getElem?_take_of_lt (by omega)]
      congr 1
      omega
  · rfl

theorem valid_resetQueue {blockSize maxBlocks : Nat} (hfits : blockSize * maxBlocks < sizeLimit) :
    (resetQueue blockSize maxBlocks).Valid where
  fits := hfits
  capacity := List.length_replicate.trans (sizeT_of_lt hfits)
  size_le := Nat.zero_le _
  begin_lt := .inr rfl
  aligned := Nat.dvd_zero _

theorem contents_of_size_eq_zero {queue : BlockQueue} (h : queue.size = 0) :
    queue.contents = [] := by
  rw [contents, h, List.take_zero]

/-! ## The operations on the list -/

/-- What an operation leaves: the same ring, with the given bytes in it. -/
structure Holds (queue : BlockQueue) (bytes : QByteArray) (next : BlockQueue) : Prop where
  valid : next.Valid
  contents : next.contents = bytes
  blockSize : next.blockSize = queue.blockSize
  maxBlocks : next.maxBlocks = queue.maxBlocks

theorem Holds.size {queue next : BlockQueue} {bytes : QByteArray} (h : queue.Holds bytes next) :
    next.size = bytes.length := by
  rw [← length_contents h.valid, h.contents]

theorem Holds.length_buffer {queue next : BlockQueue} {bytes : QByteArray}
    (h : queue.Holds bytes next) (hvalid : queue.Valid) :
    next.buffer.length = queue.buffer.length := by
  rw [h.valid.capacity, hvalid.capacity, h.blockSize, h.maxBlocks]

/-- Bytes that fit are appended, and nothing is written outside the ring. -/
theorem put_holds {queue : BlockQueue} (hvalid : queue.Valid) {bytes : QByteArray}
    (hfits : queue.size + bytes.length ≤ queue.buffer.length) :
    ∃ next, queue.put bytes = .ok next ∧ queue.Holds (queue.contents ++ bytes) next ∧
      next.begin = queue.begin := by
  have hbegin := begin_le hvalid
  have hsize := hvalid.size_le
  simp only [put]
  generalize htheEnd : (if queue.size < queue.buffer.length - queue.begin
    then queue.begin + queue.size
    else queue.begin + queue.size - queue.buffer.length) = theEnd
  generalize hlen : min bytes.length (queue.buffer.length - theEnd) = len
  have hcases : queue.begin + queue.size < queue.buffer.length ∧ theEnd = queue.begin + queue.size ∨
      queue.buffer.length ≤ queue.begin + queue.size ∧
        theEnd = queue.begin + queue.size - queue.buffer.length ∧ len = bytes.length := by
    split at htheEnd <;> omega
  obtain ⟨first, hfirst⟩ := @memcpy_isOk queue.buffer (bytes.take len) theEnd
    (by rw [List.length_take]; omega)
  have hlengthFirst := length_memcpy hfirst
  obtain ⟨second, hsecond, hlengthSecond, hget⟩ : ∃ second,
      (if len < bytes.length then memcpy first 0 (bytes.drop len) else pure first) = .ok second ∧
      second.length = first.length ∧
      ∀ i, second[i]? = if i < bytes.length - len then bytes[len + i]? else first[i]? := by
    split
    next hmore =>
      obtain ⟨second, hsecond⟩ := @memcpy_isOk first (bytes.drop len) 0
        (by rw [List.length_drop]; omega)
      refine ⟨second, hsecond, length_memcpy hsecond, fun i => ?_⟩
      rw [getElem?_memcpy hsecond, List.getElem?_drop, List.length_drop]
      simp
    next hall =>
      refine ⟨first, rfl, rfl, fun i => ?_⟩
      rw [if_neg (by omega)]
  have hvalid' : Valid { queue with buffer := second, size := queue.size + bytes.length } := by
    constructor
    · exact hvalid.fits
    · exact (hlengthSecond.trans hlengthFirst).trans hvalid.capacity
    · exact hfits.trans_eq (hlengthSecond.trans hlengthFirst).symm
    · rw [hlengthSecond, hlengthFirst]
      exact hvalid.begin_lt
    · exact hvalid.aligned
  refine ⟨{ queue with buffer := second, size := queue.size + bytes.length }, ?_,
    ⟨hvalid', ?_, rfl, rfl⟩, rfl⟩
  · refine bind_eq_ok.mpr ⟨first, hfirst, ?_⟩
    split at hsecond
    next hmore =>
      rw [if_pos hmore]
      exact bind_eq_ok.mpr ⟨second, hsecond, rfl⟩
    next hall =>
      rw [if_neg hall]
      exact bind_eq_ok.mpr ⟨second, hsecond, rfl⟩
  apply List.ext_getElem?
  intro i
  rw [getElem?_contents hvalid']
  simp only [place, hlengthSecond, hlengthFirst]
  rw [hget, getElem?_memcpy hfirst, List.length_take, List.getElem?_append,
    length_contents hvalid, getElem?_contents hvalid, place]
  by_cases hold : i < queue.size
  · rw [if_pos (by omega), if_pos hold, if_pos hold, if_neg (by split <;> omega),
      if_neg (by split <;> omega)]
  rw [if_neg hold]
  by_cases hnew : i < queue.size + bytes.length
  · rw [if_pos hnew]
    by_cases hfirstPart : i - queue.size < len
    · have hplace : (if queue.begin + i < queue.buffer.length then queue.begin + i
          else queue.begin + i - queue.buffer.length) = theEnd + (i - queue.size) := by
        split <;> omega
      rw [hplace, if_neg (by omega), if_pos (by omega), Nat.add_sub_cancel_left,
        List.getElem?_take_of_lt hfirstPart]
    · have hplace : len + (if queue.begin + i < queue.buffer.length then queue.begin + i
          else queue.begin + i - queue.buffer.length) = i - queue.size := by
        split <;> omega
      rw [hplace, if_pos (by split <;> omega)]
  · rw [if_neg hnew]
    exact (List.getElem?_eq_none (by omega)).symm

/-- The bytes from the beginning of the queue to the end of the ring lie in one
piece. -/
theorem bytesAt_begin {queue : BlockQueue} {count : Nat}
    (hcount : count ≤ queue.size) (hpiece : queue.begin + count ≤ queue.buffer.length) :
    bytesAt queue.buffer queue.begin count = .ok (queue.contents.take count) := by
  rw [bytesAt, if_pos hpiece, contents, List.take_take, min_eq_left hcount,
    List.take_append_of_le_length (by rw [List.length_drop]; omega)]

/-- Taking such bytes out moves the beginning of the queue. -/
theorem contents_advance {queue : BlockQueue} (hvalid : queue.Valid) {count begin' : Nat}
    (hcount : count ≤ queue.size) (hpiece : queue.begin + count ≤ queue.buffer.length)
    (hbegin' : begin' = queue.begin + count ∨
      begin' = 0 ∧ (queue.begin + count = queue.buffer.length ∨ queue.size = count)) :
    contents { queue with begin := begin', size := queue.size - count } =
      queue.contents.drop count := by
  have hsize := hvalid.size_le
  have hdrop : queue.contents.drop count =
      (queue.buffer.drop (queue.begin + count) ++ queue.buffer.take queue.begin).take
        (queue.size - count) := by
    rw [contents, List.drop_take, List.drop_append_of_le_length (by rw [List.length_drop]; omega),
      List.drop_drop]
  rw [hdrop, contents]
  rcases hbegin' with rfl | ⟨rfl, hwrapped | hempty⟩
  · have htake : queue.buffer.take (queue.begin + count) =
        queue.buffer.take queue.begin ++ (queue.buffer.drop queue.begin).take count :=
      List.take_add
    simp only
    rw [htake, ← List.append_assoc, List.take_append_of_le_length]
    rw [List.length_append, List.length_drop, List.length_take]
    omega
  · simp only
    rw [hwrapped, List.drop_length, List.nil_append, List.drop_zero, List.take_zero,
      List.append_nil, List.take_take]
    congr 1
    omega
  · rw [hempty, Nat.sub_self, List.take_zero, List.take_zero]

theorem getBlock_holds {queue : BlockQueue} (hvalid : queue.Valid)
    (hsize : queue.blockSize ≤ queue.size) :
    ∃ next, queue.getBlock = .ok (some (queue.contents.take queue.blockSize), next) ∧
      queue.Holds (queue.contents.drop queue.blockSize) next := by
  have hcapacity := hvalid.capacity
  -- A block begins at a multiple of its size, so it does not go over the end.
  have hpiece : queue.begin + queue.blockSize ≤ queue.buffer.length := by
    rcases hvalid.begin_lt with hlt | hzero
    · obtain ⟨blocks, hblocks⟩ := hvalid.aligned
      rw [hcapacity, hblocks] at hlt ⊢
      have hmore := Nat.lt_of_mul_lt_mul_left hlt
      exact Nat.mul_succ queue.blockSize blocks ▸ Nat.mul_le_mul_left _ hmore
    · rw [hzero, Nat.zero_add]
      exact hsize.trans hvalid.size_le
  have hcontents := fun begin' => @contents_advance queue hvalid queue.blockSize begin' hsize hpiece
  have hget : queue.getBlock = .ok (some (queue.contents.take queue.blockSize), { queue with
      begin := if queue.begin + queue.blockSize = queue.buffer.length then 0
        else queue.begin + queue.blockSize
      size := queue.size - queue.blockSize }) := by
    simp only [getBlock]
    rw [if_pos hsize]
    exact bind_eq_ok.mpr ⟨_, bytesAt_begin hsize hpiece, rfl⟩
  refine ⟨_, hget, ?_, hcontents _ ?_, rfl, rfl⟩
  · constructor
    · exact hvalid.fits
    · exact hcapacity
    · exact (Nat.sub_le _ _).trans hvalid.size_le
    · simp only
      split
      · exact .inr rfl
      next hinside => exact .inl (lt_of_le_of_ne hpiece hinside)
    · simp only
      split
      · exact Nat.dvd_zero _
      · exact (Nat.dvd_add_right hvalid.aligned).mpr (Nat.dvd_refl _)
  · split
    next hend => exact .inr ⟨rfl, .inl hend⟩
    · exact .inl rfl

/-- Whole blocks, or all that is there, are taken off the front. -/
theorem getContigousBlocks_holds {queue : BlockQueue} (hvalid : queue.Valid) (numberOfBytes : Nat)
    (hbytes : queue.blockSize ∣ min numberOfBytes
        (min (queue.buffer.length - queue.begin) queue.size) ∨
      queue.size ≤ numberOfBytes) :
    ∃ next, queue.getContigousBlocks numberOfBytes =
        .ok (queue.contents.take (min numberOfBytes
          (min (queue.buffer.length - queue.begin) queue.size)), next) ∧
      queue.Holds (queue.contents.drop (min numberOfBytes
        (min (queue.buffer.length - queue.begin) queue.size))) next ∧
      (queue.size ≤ numberOfBytes → next.begin = 0) := by
  have hbegin := begin_le hvalid
  generalize hcount : min numberOfBytes (min (queue.buffer.length - queue.begin) queue.size) =
    count at hbytes ⊢
  have hsize : count ≤ queue.size := by omega
  have hpiece : queue.begin + count ≤ queue.buffer.length := by omega
  have hget : queue.getContigousBlocks numberOfBytes = .ok (queue.contents.take count,
      { queue with
        begin := if queue.size - count = 0 ∨ queue.begin + count = queue.buffer.length then 0
          else queue.begin + count
        size := queue.size - count }) := by
    simp only [getContigousBlocks, hcount]
    exact bind_eq_ok.mpr ⟨_, bytesAt_begin hsize hpiece, rfl⟩
  refine ⟨_, hget, ⟨?_, contents_advance hvalid hsize hpiece ?_, rfl, rfl⟩, fun hall => ?_⟩
  · constructor
    · exact hvalid.fits
    · exact hvalid.capacity
    · exact (Nat.sub_le _ _).trans hvalid.size_le
    · simp only
      split
      · exact .inr rfl
      next hinside => exact .inl (lt_of_le_of_ne hpiece fun heq => hinside (.inr heq))
    · simp only
      split
      · exact Nat.dvd_zero _
      next hinside =>
        rcases hbytes with hdvd | hall
        · exact (Nat.dvd_add_right hvalid.aligned).mpr hdvd
        · exact absurd hinside (by omega)
  · split
    next hend => exact .inr ⟨rfl, hend.symm.imp id fun hempty => by omega⟩
    · exact .inl rfl
  · exact if_pos (by omega)

/-- Everything comes out, and the ring is as good as new. -/
theorem getAll_holds {queue : BlockQueue} (hvalid : queue.Valid) :
    ∃ next, queue.getAll = .ok (queue.contents, next) ∧ queue.Holds [] next := by
  have hsize := hvalid.size_le
  have hcapacity : sizeT (queue.maxBlocks * queue.blockSize) = queue.buffer.length := by
    rw [Nat.mul_comm, sizeT_of_lt hvalid.fits, hvalid.capacity]
  have hbegin := begin_le hvalid
  obtain ⟨middle, hmiddle, hholds, hzero⟩ := getContigousBlocks_holds hvalid
    (sizeT (queue.maxBlocks * queue.blockSize)) (.inr (hcapacity ▸ hsize))
  replace hzero : middle.begin = 0 := hzero (hcapacity ▸ hsize)
  have hrest : bytesAt middle.buffer middle.begin middle.size = .ok middle.contents := by
    rw [bytesAt_begin le_rfl (by rw [hzero, Nat.zero_add]; exact hholds.valid.size_le),
      List.take_of_length_le (length_contents hholds.valid).le]
  refine ⟨{ middle with size := 0 }, ?_, ?_⟩
  · refine bind_eq_ok.mpr ⟨_, hmiddle, bind_eq_ok.mpr ⟨_, hrest, ?_⟩⟩
    rw [hholds.contents, List.take_append_drop]
    rfl
  · constructor
    · constructor
      · exact hholds.valid.fits
      · exact hholds.valid.capacity
      · exact Nat.zero_le _
      · exact hholds.valid.begin_lt
      · exact hholds.valid.aligned
    · exact contents_of_size_eq_zero rfl
    · exact hholds.blockSize
    · exact hholds.maxBlocks

end BlockQueue

end BBNotifier
