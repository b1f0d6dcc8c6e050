import Mathlib.Algebra.BigOperators.Ring.List
import Mathlib.Algebra.Ring.Nat
import BBNotifier.Cryptopp.BlockQueue

/-! # Buffered filters

`FilterWithBufferedInput` divides a message into a first block, middle blocks
and a last block, and makes one call of a derived class for each part. However
the message is cut when it is put in, the parts are the same, and the ring of the
filter is large enough for what has to wait in it.
-/

namespace BBNotifier

open Foundation

/-- The sizes a filter divides its input by. -/
@[ext]
structure BufferSizes where
  firstSize : Nat
  blockSize : Nat
  lastSize : Nat
  blockSize_pos : 0 < blockSize

/-- The sizes of both rings are computed without wrapping around. -/
structure BufferSizes.Fits (sizes : BufferSizes) : Prop where
  first : sizes.firstSize < sizeLimit
  ring : 2 * sizes.blockSize + sizes.lastSize - 2 < sizeLimit

/-- A block of more than one byte and a last block have a size together. -/
theorem BufferSizes.Fits.sizeT_add {sizes : BufferSizes} (h : sizes.Fits)
    (hblocks : sizes.blockSize ≠ 1) :
    sizeT (sizes.blockSize + sizes.lastSize) = sizes.blockSize + sizes.lastSize := by
  have hpos := sizes.blockSize_pos
  have hring := h.ring
  exact sizeT_of_lt (by omega)

structure FilterWithBufferedInput extends BufferSizes where
  firstInputDone : Bool
  queue : BlockQueue

namespace FilterWithBufferedInput

/-- The virtual functions of the derived class, with the bytes they get.
`NextPutModifiable` may write over them, `NextPutMultiple` may not. -/
inductive Call
  | firstPut (inString : QByteArray)
  | nextPut (inString : QByteArray) (modifiable : Bool)
  | lastPut (inString : QByteArray)
deriving DecidableEq

/-- `none` is the `InvalidArgument` thrown for blocks of no bytes. -/
def isolatedInitialize (firstSize blockSize lastSize : Nat) : Option FilterWithBufferedInput :=
  if h : blockSize < 1 then none
  else some {
    firstSize, blockSize, lastSize
    blockSize_pos := Nat.not_lt.mp h
    firstInputDone := false
    queue := .resetQueue 1 firstSize }

def roundDownToMultipleOf (n m : Nat) : Nat := n - n % m

/-- A difference of two sizes, which has to be one. -/
def minus (size less : Nat) : Except Fault Nat :=
  if less ≤ size then .ok (size - less) else .error (.indexOutOfRange less size)

/-- The first bytes behind a pointer, and the pointer past them. -/
def advance (inString : QByteArray) (len : Nat) : Except Fault (QByteArray × QByteArray) :=
  if len ≤ inString.length then .ok (inString.take len, inString.drop len)
  else .error (.indexOutOfRange len inString.length)

/-- The filter and the local variables while a put is under way. -/
structure Putting where
  filter : FilterWithBufferedInput
  inString : QByteArray
  modifiable : Bool
  newLength : Nat
  calls : List Call

namespace Putting

/-- The first block. The length found is assigned to `firstSize`. -/
def first (p : Putting) : Except Fault Putting :=
  if ¬p.filter.firstInputDone ∧ p.filter.firstSize ≤ p.newLength then do
    let len ← minus p.filter.firstSize p.filter.queue.size
    let (piece, inString) ← advance p.inString len
    let queue ← p.filter.queue.put piece
    let (bytes, _) ← queue.getContigousBlocks p.filter.firstSize
    return { p with
      filter := { p.filter with
        firstSize := bytes.length
        firstInputDone := true
        queue := .resetQueue p.filter.blockSize
          (sizeT (2 * p.filter.blockSize + p.filter.lastSize - 2) / p.filter.blockSize) }
      inString
      newLength := p.newLength - bytes.length
      calls := p.calls ++ [.firstPut bytes] }
  else return p

/-- Bytes out of the queue, with blocks of one byte. -/
def drainBytes : Nat → Putting → Except Fault Putting
  | 0, p => return p
  | fuel + 1, p =>
      if p.filter.lastSize < p.newLength ∧ 0 < p.filter.queue.size then do
        let (bytes, queue) ← p.filter.queue.getContigousBlocks (p.newLength - p.filter.lastSize)
        drainBytes fuel { p with
          filter := { p.filter with queue }
          newLength := p.newLength - bytes.length
          calls := p.calls ++ [.nextPut bytes true] }
      else return p

/-- Pass on bytes that need not go through the queue. -/
def direct (p : Putting) (len : Nat) : Except Fault Putting := do
  let (bytes, inString) ← advance p.inString len
  return { p with
    inString
    newLength := p.newLength - len
    calls := p.calls ++ [.nextPut bytes p.modifiable] }

/-- Pass on the next block of the queue. -/
def nextBlock (p : Putting) : Except Fault Putting := do
  let (block?, queue) ← p.filter.queue.getBlock
  match block? with
  | none => .error (.indexOutOfRange p.filter.blockSize 0)
  | some block => return { p with
      filter := { p.filter with queue }
      newLength := p.newLength - p.filter.blockSize
      calls := p.calls ++ [.nextPut block true] }

/-- Blocks out of the queue. -/
def drainBlocks : Nat → Putting → Except Fault Putting
  | 0, p => return p
  | fuel + 1, p =>
      if sizeT (p.filter.blockSize + p.filter.lastSize) ≤ p.newLength ∧
          p.filter.blockSize ≤ p.filter.queue.size then do
        drainBlocks fuel (← p.nextBlock)
      else return p

/-- A block that begins in the queue and ends in the input. -/
def straddling (p : Putting) : Except Fault Putting :=
  if sizeT (p.filter.blockSize + p.filter.lastSize) ≤ p.newLength ∧ 0 < p.filter.queue.size then do
    let len ← minus p.filter.blockSize p.filter.queue.size
    let (piece, inString) ← advance p.inString len
    let queue ← p.filter.queue.put piece
    nextBlock { p with filter := { p.filter with queue }, inString }
  else return p

/-- The middle blocks. A loop takes at least one byte out of the queue each time. -/
def middle (p : Putting) : Except Fault Putting :=
  if p.filter.blockSize = 1 then do
    let p ← p.drainBytes p.filter.queue.size
    if p.filter.lastSize < p.newLength then p.direct (p.newLength - p.filter.lastSize)
    else return p
  else do
    let p ← p.drainBlocks p.filter.queue.size
    let p ← p.straddling
    if sizeT (p.filter.blockSize + p.filter.lastSize) ≤ p.newLength then
      p.direct (roundDownToMultipleOf (p.newLength - p.filter.lastSize) p.filter.blockSize)
    else return p

/-- What cannot be passed on yet. -/
def keep (p : Putting) : Except Fault (List Call × FilterWithBufferedInput) := do
  let len ← minus p.newLength p.filter.queue.size
  let (piece, _) ← advance p.inString len
  let queue ← p.filter.queue.put piece
  return (p.calls, { p.filter with queue })

end Putting

/-- Put bytes in. -/
def putBytes (filter : FilterWithBufferedInput) (inString : QByteArray) (modifiable : Bool) :
    Except Fault (List Call × FilterWithBufferedInput) :=
  if inString.length ≠ 0 then do
    let p ← Putting.first
      ⟨filter, inString, modifiable, filter.queue.size + inString.length, []⟩
    let p ← (if p.filter.firstInputDone then p.middle else pure p)
    p.keep
  else return ([], filter)

/-- End the message. -/
def endMessage (filter : FilterWithBufferedInput) :
    Except Fault (List Call × FilterWithBufferedInput) := do
  let first := if ¬filter.firstInputDone ∧ filter.firstSize = 0 then [.firstPut []] else []
  let (temp, _) ← filter.queue.getAll
  return (first ++ [.lastPut temp], { filter with
    firstInputDone := false
    queue := .resetQueue 1 filter.firstSize })

def putMaybeModifiable (filter : FilterWithBufferedInput) (inString : QByteArray)
    (messageEnd modifiable : Bool) : Except Fault (List Call × FilterWithBufferedInput) := do
  let (calls, filter) ← filter.putBytes inString modifiable
  if messageEnd then
    let (last, filter) ← filter.endMessage
    return (calls ++ last, filter)
  else return (calls, filter)

/-! ## The parts of a message -/

/-- Some pieces of whole blocks have been taken off the front, and the last
block is still there if any has. -/
structure Parts (blockSize lastSize : Nat) (tail : QByteArray)
    (pieces : List (QByteArray × Bool)) (rest : QByteArray) : Prop where
  blocks : ∀ piece ∈ pieces, piece.1 ≠ [] ∧ blockSize ∣ piece.1.length
  kept : pieces = [] ∨ lastSize ≤ rest.length
  whole : (pieces.map Prod.fst).flatten ++ rest = tail

namespace Parts

variable {blockSize lastSize : Nat} {tail rest : QByteArray} {pieces : List (QByteArray × Bool)}

theorem of_tail (blockSize lastSize : Nat) (tail : QByteArray) :
    Parts blockSize lastSize tail [] tail where
  blocks := by simp
  kept := .inl rfl
  whole := rfl

theorem snoc {piece : QByteArray} {modifiable : Bool}
    (h : Parts blockSize lastSize tail pieces (piece ++ rest)) (hpiece : piece ≠ [])
    (hblocks : blockSize ∣ piece.length) (hkept : lastSize ≤ rest.length) :
    Parts blockSize lastSize tail (pieces ++ [(piece, modifiable)]) rest where
  blocks := by
    intro other hother
    rcases List.mem_append.mp hother with hearlier | hlast
    · exact h.blocks other hearlier
    · rw [List.mem_singleton.mp hlast]
      exact ⟨hpiece, hblocks⟩
  kept := .inr hkept
  whole := by
    rw [List.map_append, List.map_singleton, List.flatten_concat, List.append_assoc, h.whole]

theorem append (h : Parts blockSize lastSize tail pieces rest) (more : QByteArray) :
    Parts blockSize lastSize (tail ++ more) pieces (rest ++ more) where
  blocks := h.blocks
  kept := h.kept.imp id fun hkept => by
    rw [List.length_append]
    exact hkept.trans (Nat.le_add_right _ _)
  whole := by rw [← List.append_assoc, h.whole]

/-- With less than a block before the last one, the pieces are as long as they
can be. -/
theorem length_flatten (h : Parts blockSize lastSize tail pieces rest) (hpos : 0 < blockSize)
    (hrest : rest.length < blockSize + lastSize) :
    (pieces.map Prod.fst).flatten.length =
      roundDownToMultipleOf (tail.length - lastSize) blockSize := by
  have hlength : (pieces.map Prod.fst).flatten.length + rest.length = tail.length := by
    rw [← List.length_append, h.whole]
  have hdvd : blockSize ∣ (pieces.map Prod.fst).flatten.length := by
    rw [List.length_flatten, List.map_map]
    apply List.dvd_sum
    intro length hlength
    obtain ⟨piece, hpiece, rfl⟩ := List.mem_map.mp hlength
    exact (h.blocks piece hpiece).2
  obtain ⟨count, hcount⟩ := hdvd
  rw [roundDownToMultipleOf]
  rcases h.kept with rfl | hkept
  · rw [List.map_nil, List.flatten_nil, List.length_nil] at hlength ⊢
    rw [Nat.mod_eq_of_lt (by omega), Nat.sub_self]
  · have hrest' : tail.length - lastSize = rest.length - lastSize + blockSize * count := by omega
    rw [hrest', Nat.add_mul_mod_self_left, Nat.mod_eq_of_lt (by omega), hcount]
    omega

end Parts

/-- The calls for the first block and pieces of what follows. -/
def frontCalls (sizes : BufferSizes) (message : QByteArray) (pieces : List (QByteArray × Bool)) :
    List Call :=
  .firstPut (message.take sizes.firstSize) ::
    pieces.map fun (piece, modifiable) => .nextPut piece modifiable

/-! ## After the first block -/

namespace Putting

/-- What the filter still has to pass on. -/
def rest (p : Putting) : QByteArray := p.filter.queue.contents ++ p.inString

/-- The calls so far have passed on the first block and pieces of what follows.
Some of the calls were made before this put. -/
structure Passes (sizes : BufferSizes) (before : List Call) (message : QByteArray) (p : Putting) :
    Prop where
  fits : sizes.Fits
  sizes_eq : p.filter.toBufferSizes = sizes
  done : p.filter.firstInputDone = true
  long : sizes.firstSize ≤ message.length
  valid : p.filter.queue.Valid
  queueBlockSize : p.filter.queue.blockSize = sizes.blockSize
  maxBlocks :
    p.filter.queue.maxBlocks = (2 * sizes.blockSize + sizes.lastSize - 2) / sizes.blockSize
  newLength_eq : p.newLength = p.rest.length
  parts : ∃ pieces, before ++ p.calls = frontCalls sizes message pieces ∧
    Parts sizes.blockSize sizes.lastSize (message.drop sizes.firstSize) pieces p.rest

namespace Passes

variable {sizes : BufferSizes} {before : List Call} {message : QByteArray} {p : Putting}

theorem size_add (h : p.Passes sizes before message) :
    p.newLength = p.filter.queue.size + p.inString.length := by
  rw [h.newLength_eq, rest, List.length_append, BlockQueue.length_contents h.valid]

/-- The ring has room for a last block and all but one byte of a block before it. -/
theorem capacity (h : p.Passes sizes before message) :
    sizes.blockSize + sizes.lastSize ≤ p.filter.queue.buffer.length + 1 := by
  have hpos := sizes.blockSize_pos
  have hdiv := Nat.div_add_mod (2 * sizes.blockSize + sizes.lastSize - 2) sizes.blockSize
  have hmod := Nat.mod_lt (2 * sizes.blockSize + sizes.lastSize - 2) hpos
  rw [h.valid.capacity, h.queueBlockSize, h.maxBlocks]
  omega

theorem blockSize_le (h : p.Passes sizes before message) (hblocks : sizes.blockSize ≠ 1) :
    sizes.blockSize ≤ p.filter.queue.buffer.length := by
  have hpos := sizes.blockSize_pos
  rw [h.valid.capacity, h.queueBlockSize, h.maxBlocks]
  exact Nat.le_mul_of_pos_right _ (Nat.div_pos (by omega) hpos)

/-- A piece passed on is one more piece. -/
theorem pass (h : p.Passes sizes before message) {q : Putting} {piece bytes : QByteArray}
    {modifiable : Bool}
    (hsizes : q.filter.toBufferSizes = p.filter.toBufferSizes)
    (hdone : q.filter.firstInputDone = p.filter.firstInputDone)
    (hqueue : p.filter.queue.Holds bytes q.filter.queue)
    (hcalls : q.calls = p.calls ++ [.nextPut piece modifiable])
    (hlength : q.newLength = p.newLength - piece.length) (hrest : p.rest = piece ++ q.rest)
    (hpiece : piece ≠ []) (hblocks : sizes.blockSize ∣ piece.length)
    (hkept : piece.length + sizes.lastSize ≤ p.newLength) : q.Passes sizes before message := by
  have hrestLength : p.newLength = piece.length + q.rest.length := by
    rw [h.newLength_eq, hrest, List.length_append]
  constructor
  · exact h.fits
  · exact hsizes.trans h.sizes_eq
  · exact hdone.trans h.done
  · exact h.long
  · exact hqueue.valid
  · exact hqueue.blockSize.trans h.queueBlockSize
  · exact hqueue.maxBlocks.trans h.maxBlocks
  · omega
  · obtain ⟨pieces, hpieces, hparts⟩ := h.parts
    rw [hrest] at hparts
    refine ⟨pieces ++ [(piece, modifiable)], ?_, hparts.snoc hpiece hblocks (by omega)⟩
    rw [hcalls, ← List.append_assoc, hpieces, frontCalls, frontCalls, List.map_append]
    rfl

theorem drainBytes (h : p.Passes sizes before message) (hbytes : sizes.blockSize = 1) {fuel : Nat}
    (hfuel : p.filter.queue.size ≤ fuel) :
    ∃ q, p.drainBytes fuel = .ok q ∧ q.Passes sizes before message ∧
      (sizes.lastSize < q.newLength → q.filter.queue.size = 0) := by
  induction fuel generalizing p with
  | zero => exact ⟨p, rfl, h, fun _ => Nat.le_zero.mp hfuel⟩
  | succ fuel ih =>
      have hlast : p.filter.lastSize = sizes.lastSize := congrArg _ h.sizes_eq
      rw [Putting.drainBytes, hlast]
      split
      next hmore =>
        obtain ⟨hnewLength, hsize⟩ := hmore
        obtain ⟨queue, hget, hholds, -⟩ := BlockQueue.getContigousBlocks_holds h.valid
          (p.newLength - sizes.lastSize) (.inl (by rw [h.queueBlockSize, hbytes]; exact one_dvd _))
        generalize hcount : min (p.newLength - sizes.lastSize)
          (min (p.filter.queue.buffer.length - p.filter.queue.begin) p.filter.queue.size) = count
          at hget hholds
        have hbegin : p.filter.queue.begin < p.filter.queue.buffer.length := by
          rcases h.valid.begin_lt with hlt | hzero
          · exact hlt
          · exact hzero ▸ hsize.trans_le h.valid.size_le
        have hlength : (p.filter.queue.contents.take count).length = count := by
          rw [List.length_take, BlockQueue.length_contents h.valid]
          omega
        have hnext : Passes sizes before message { p with
            filter := { p.filter with queue }
            newLength := p.newLength - (p.filter.queue.contents.take count).length
            calls := p.calls ++ [.nextPut (p.filter.queue.contents.take count) true] } := by
          refine h.pass rfl rfl hholds rfl rfl ?_ ?_ ?_ ?_
          · rw [rest, rest, hholds.contents, ← List.append_assoc, List.take_append_drop]
          · apply List.ne_nil_of_length_pos
            omega
          · rw [hbytes]
            exact one_dvd _
          · omega
        have hfuel' : queue.size ≤ fuel := by
          rw [hholds.size, List.length_drop, BlockQueue.length_contents h.valid]
          omega
        obtain ⟨q, hq, hpasses, hempty⟩ := ih hnext hfuel'
        exact ⟨q, bind_eq_ok.mpr ⟨_, hget, hq⟩, hpasses, hempty⟩
      next hnone =>
        refine ⟨p, rfl, h, fun hnewLength => ?_⟩
        exact Nat.eq_zero_of_not_pos fun hsize => hnone ⟨hnewLength, hsize⟩

theorem nextBlock (h : p.Passes sizes before message)
    (hblock : sizes.blockSize ≤ p.filter.queue.size)
    (hlength : sizes.blockSize + sizes.lastSize ≤ p.newLength) :
    ∃ q, p.nextBlock = .ok q ∧ q.Passes sizes before message ∧
      q.filter.queue.size = p.filter.queue.size - sizes.blockSize := by
  have hpos := sizes.blockSize_pos
  have hsize : p.filter.blockSize = sizes.blockSize := congrArg _ h.sizes_eq
  have hget := BlockQueue.getBlock_holds h.valid (h.queueBlockSize ▸ hblock)
  rw [h.queueBlockSize] at hget
  obtain ⟨queue, hget, hholds⟩ := hget
  have hpiece : (p.filter.queue.contents.take sizes.blockSize).length = sizes.blockSize := by
    rw [List.length_take, BlockQueue.length_contents h.valid, min_eq_left hblock]
  have hnext : Passes sizes before message { p with
      filter := { p.filter with queue }
      newLength := p.newLength - p.filter.blockSize
      calls := p.calls ++ [.nextPut (p.filter.queue.contents.take sizes.blockSize) true] } := by
    refine h.pass rfl rfl hholds rfl ?_ ?_ ?_ ?_ ?_
    · rw [hpiece, hsize]
    · rw [rest, rest, hholds.contents, ← List.append_assoc, List.take_append_drop]
    · apply List.ne_nil_of_length_pos
      rw [hpiece]
      exact hpos
    · rw [hpiece]
    · rw [hpiece]
      exact hlength
  refine ⟨_, bind_eq_ok.mpr ⟨_, hget, rfl⟩, hnext, ?_⟩
  rw [hholds.size, List.length_drop, BlockQueue.length_contents h.valid]

theorem drainBlocks (h : p.Passes sizes before message) (hblocks : sizes.blockSize ≠ 1)
    {fuel : Nat} (hfuel : p.filter.queue.size ≤ fuel) :
    ∃ q, p.drainBlocks fuel = .ok q ∧ q.Passes sizes before message ∧
      (sizes.blockSize + sizes.lastSize ≤ q.newLength →
        q.filter.queue.size < sizes.blockSize) := by
  have hpos := sizes.blockSize_pos
  induction fuel generalizing p with
  | zero => exact ⟨p, rfl, h, fun _ => by omega⟩
  | succ fuel ih =>
      have hsize : p.filter.blockSize = sizes.blockSize := congrArg _ h.sizes_eq
      have hlast : p.filter.lastSize = sizes.lastSize := congrArg _ h.sizes_eq
      rw [Putting.drainBlocks, hsize, hlast, h.fits.sizeT_add hblocks]
      split
      next hmore =>
        obtain ⟨next, hnext, hpasses, hnextSize⟩ := h.nextBlock hmore.2 hmore.1
        obtain ⟨q, hq, hresult⟩ := ih hpasses (by omega)
        exact ⟨q, bind_eq_ok.mpr ⟨next, hnext, hq⟩, hresult⟩
      next hnone => exact ⟨p, rfl, h, fun hlength => Nat.not_le.mp fun hle => hnone ⟨hlength, hle⟩⟩

theorem straddling (h : p.Passes sizes before message) (hblocks : sizes.blockSize ≠ 1)
    (hdrained : sizes.blockSize + sizes.lastSize ≤ p.newLength →
      p.filter.queue.size < sizes.blockSize) :
    ∃ q, p.straddling = .ok q ∧ q.Passes sizes before message ∧
      (sizes.blockSize + sizes.lastSize ≤ q.newLength → q.filter.queue.size = 0) := by
  have hsize : p.filter.blockSize = sizes.blockSize := congrArg _ h.sizes_eq
  have hlast : p.filter.lastSize = sizes.lastSize := congrArg _ h.sizes_eq
  have hadd := h.size_add
  rw [Putting.straddling, hsize, hlast, h.fits.sizeT_add hblocks]
  split
  next hmore =>
    have hshort := hdrained hmore.1
    generalize hlen : sizes.blockSize - p.filter.queue.size = len
    have hminus : minus sizes.blockSize p.filter.queue.size = .ok len := by
      rw [minus, if_pos hshort.le, hlen]
    have hadvance : advance p.inString len = .ok (p.inString.take len, p.inString.drop len) :=
      if_pos (by omega)
    have htake : (p.inString.take len).length = len := by
      rw [List.length_take]
      omega
    obtain ⟨queue, hput, hholds, -⟩ := @BlockQueue.put_holds p.filter.queue h.valid
      (p.inString.take len) (by rw [htake]; have := h.blockSize_le hblocks; omega)
    have hfilled : Passes sizes before message
        { p with filter := { p.filter with queue }, inString := p.inString.drop len } := by
      have hrest : queue.contents ++ p.inString.drop len = p.rest := by
        rw [hholds.contents, List.append_assoc, List.take_append_drop]
        rfl
      constructor
      · exact h.fits
      · exact h.sizes_eq
      · exact h.done
      · exact h.long
      · exact hholds.valid
      · exact hholds.blockSize.trans h.queueBlockSize
      · exact hholds.maxBlocks.trans h.maxBlocks
      · exact h.newLength_eq.trans (congrArg _ hrest.symm)
      · rw [rest, hrest]
        exact h.parts
    have hqueueSize : queue.size = sizes.blockSize := by
      rw [hholds.size, List.length_append, BlockQueue.length_contents h.valid, htake]
      omega
    obtain ⟨q, hq, hpasses, hqSize⟩ := hfilled.nextBlock hqueueSize.ge hmore.1
    refine ⟨q, ?_, hpasses, fun _ => ?_⟩
    · exact bind_eq_ok.mpr ⟨_, hminus, bind_eq_ok.mpr ⟨_, hadvance, bind_eq_ok.mpr ⟨_, hput, hq⟩⟩⟩
    · rw [hqSize, hqueueSize, Nat.sub_self]
  next hnone =>
    refine ⟨p, rfl, h, fun hlength => ?_⟩
    exact Nat.eq_zero_of_not_pos fun hpositive => hnone ⟨hlength, hpositive⟩

/-- Input is passed on directly when nothing waits in front of it. -/
theorem direct (h : p.Passes sizes before message) (hempty : p.filter.queue.size = 0) {len : Nat}
    (hlen : 0 < len) (hblocks : sizes.blockSize ∣ len)
    (hkept : len + sizes.lastSize ≤ p.newLength) :
    ∃ q, p.direct len = .ok q ∧ q.Passes sizes before message ∧
      q.newLength = p.newLength - len := by
  have hadd := h.size_add
  have hadvance : advance p.inString len = .ok (p.inString.take len, p.inString.drop len) :=
    if_pos (by omega)
  have htake : (p.inString.take len).length = len := by
    rw [List.length_take]
    omega
  have hnext : Passes sizes before message { p with
      inString := p.inString.drop len
      newLength := p.newLength - len
      calls := p.calls ++ [.nextPut (p.inString.take len) p.modifiable] } := by
    refine h.pass rfl rfl ⟨h.valid, rfl, rfl, rfl⟩ rfl ?_ ?_ ?_ ?_ ?_
    · rw [htake]
    · rw [rest, rest, BlockQueue.contents_of_size_eq_zero hempty, List.nil_append, List.nil_append,
        List.take_append_drop]
    · exact List.ne_nil_of_length_pos (by rw [htake]; exact hlen)
    · rw [htake]
      exact hblocks
    · rw [htake]
      exact hkept
  exact ⟨_, bind_eq_ok.mpr ⟨_, hadvance, rfl⟩, hnext, rfl⟩

/-- After the middle blocks less than one block is there before the last one. -/
theorem middle (h : p.Passes sizes before message) :
    ∃ q, p.middle = .ok q ∧ q.Passes sizes before message ∧
      q.newLength < sizes.blockSize + sizes.lastSize := by
  have hpos := sizes.blockSize_pos
  have hsize : p.filter.blockSize = sizes.blockSize := congrArg _ h.sizes_eq
  rw [Putting.middle, hsize]
  split
  next hbytes =>
    obtain ⟨q, hdrain, hpasses, hempty⟩ := h.drainBytes hbytes le_rfl
    have hlast : q.filter.lastSize = sizes.lastSize := congrArg _ hpasses.sizes_eq
    by_cases hmore : sizes.lastSize < q.newLength
    · obtain ⟨r, hdirect, hpasses', hlength⟩ := @direct sizes before message q hpasses
        (hempty hmore) (q.newLength - sizes.lastSize) (by omega) (hbytes ▸ one_dvd _) (by omega)
      refine ⟨r, bind_eq_ok.mpr ⟨q, hdrain, ?_⟩, hpasses', by omega⟩
      rw [hlast, if_pos hmore]
      exact hdirect
    · refine ⟨q, bind_eq_ok.mpr ⟨q, hdrain, ?_⟩, hpasses, by omega⟩
      rw [hlast, if_neg hmore]
      rfl
  next hblocks =>
    obtain ⟨drained, hdrain, hdrained, hshort⟩ := h.drainBlocks hblocks le_rfl
    obtain ⟨q, hstraddling, hpasses, hempty⟩ := hdrained.straddling hblocks hshort
    have hqSize : q.filter.blockSize = sizes.blockSize := congrArg _ hpasses.sizes_eq
    have hlast : q.filter.lastSize = sizes.lastSize := congrArg _ hpasses.sizes_eq
    by_cases hmore : sizes.blockSize + sizes.lastSize ≤ q.newLength
    · generalize hlen : roundDownToMultipleOf (q.newLength - sizes.lastSize) sizes.blockSize = len
      have hmod := Nat.mod_lt (q.newLength - sizes.lastSize) hpos
      have hmodLe := Nat.mod_le (q.newLength - sizes.lastSize) sizes.blockSize
      rw [roundDownToMultipleOf] at hlen
      obtain ⟨r, hdirect, hpasses', hlength⟩ := @direct sizes before message q hpasses
        (hempty hmore) len (by omega) (hlen ▸ Nat.dvd_sub_mod _) (by omega)
      refine ⟨r, ?_, hpasses', by omega⟩
      refine bind_eq_ok.mpr ⟨drained, hdrain, bind_eq_ok.mpr ⟨q, hstraddling, ?_⟩⟩
      rw [hqSize, hlast, h.fits.sizeT_add hblocks, if_pos hmore, roundDownToMultipleOf, hlen]
      exact hdirect
    · refine ⟨q, ?_, hpasses, Nat.not_le.mp hmore⟩
      refine bind_eq_ok.mpr ⟨drained, hdrain, bind_eq_ok.mpr ⟨q, hstraddling, ?_⟩⟩
      rw [hqSize, hlast, h.fits.sizeT_add hblocks, if_neg hmore]
      rfl

theorem keep (h : p.Passes sizes before message)
    (hlength : p.newLength < sizes.blockSize + sizes.lastSize) :
    ∃ filter, p.keep = .ok (p.calls, filter) ∧
      Passes sizes (before ++ p.calls) message ⟨filter, [], false, filter.queue.size, []⟩ ∧
      filter.queue.size < sizes.blockSize + sizes.lastSize := by
  have hadd := h.size_add
  have hcapacity := h.capacity
  have hminus : minus p.newLength p.filter.queue.size = .ok p.inString.length := by
    rw [minus, if_pos (by omega), hadd, Nat.add_sub_cancel_left]
  have hadvance : advance p.inString p.inString.length = .ok (p.inString, []) := by
    rw [advance, if_pos le_rfl, List.take_length, List.drop_length]
  obtain ⟨queue, hput, hholds, -⟩ := @BlockQueue.put_holds p.filter.queue h.valid p.inString
    (by omega)
  have hrest : queue.contents ++ [] = p.rest := by
    rw [hholds.contents, List.append_nil]
    rfl
  have hsize : queue.size = p.newLength := by
    rw [h.newLength_eq, hholds.size]
    rfl
  refine ⟨{ p.filter with queue }, ?_, ?_, hsize.trans_lt hlength⟩
  · exact bind_eq_ok.mpr ⟨_, hminus, bind_eq_ok.mpr ⟨_, hadvance, bind_eq_ok.mpr ⟨_, hput, rfl⟩⟩⟩
  · constructor
    · exact h.fits
    · exact h.sizes_eq
    · exact h.done
    · exact h.long
    · exact hholds.valid
    · exact hholds.blockSize.trans h.queueBlockSize
    · exact hholds.maxBlocks.trans h.maxBlocks
    · rw [rest, hrest]
      exact hsize.trans h.newLength_eq
    · rw [rest, hrest, List.append_nil]
      exact h.parts

/-- More input comes after what is there. -/
theorem append {filter : FilterWithBufferedInput}
    (h : Passes sizes before message ⟨filter, [], false, filter.queue.size, []⟩)
    (bytes : QByteArray) (modifiable : Bool) :
    Passes sizes before (message ++ bytes)
      ⟨filter, bytes, modifiable, filter.queue.size + bytes.length, []⟩ := by
  constructor
  · exact h.fits
  · exact h.sizes_eq
  · exact h.done
  · rw [List.length_append]
    exact h.long.trans (Nat.le_add_right _ _)
  · exact h.valid
  · exact h.queueBlockSize
  · exact h.maxBlocks
  · rw [rest, List.length_append, BlockQueue.length_contents h.valid]
  · obtain ⟨pieces, hpieces, hparts⟩ := h.parts
    rw [List.drop_append_of_le_length h.long]
    rw [rest, List.append_nil] at hparts
    refine ⟨pieces, ?_, hparts.append bytes⟩
    rw [frontCalls, List.take_append_of_le_length h.long]
    exact hpieces

end Passes

end Putting

/-! ## Before the first block -/

/-- Nothing has been passed on, since the first block is not there yet. -/
structure Waits (sizes : BufferSizes) (message : QByteArray) (filter : FilterWithBufferedInput) :
    Prop where
  fits : sizes.Fits
  sizes_eq : filter.toBufferSizes = sizes
  done : filter.firstInputDone = false
  short : message = [] ∨ message.length < sizes.firstSize
  valid : filter.queue.Valid
  begin_eq : filter.queue.begin = 0
  queueBlockSize : filter.queue.blockSize = 1
  maxBlocks : filter.queue.maxBlocks = sizes.firstSize
  contents : filter.queue.contents = message

/-- The filter as it is before a message. -/
def ofSizes (sizes : BufferSizes) : FilterWithBufferedInput where
  toBufferSizes := sizes
  firstInputDone := false
  queue := .resetQueue 1 sizes.firstSize

theorem waits_ofSizes {sizes : BufferSizes} (hfits : sizes.Fits) :
    Waits sizes [] (ofSizes sizes) where
  fits := hfits
  sizes_eq := rfl
  done := rfl
  short := .inl rfl
  valid := BlockQueue.valid_resetQueue (by rw [Nat.one_mul]; exact hfits.first)
  begin_eq := rfl
  queueBlockSize := rfl
  maxBlocks := rfl
  contents := BlockQueue.contents_of_size_eq_zero rfl

namespace Waits

variable {sizes : BufferSizes} {message : QByteArray} {filter : FilterWithBufferedInput}

theorem size_eq (h : Waits sizes message filter) : filter.queue.size = message.length := by
  rw [← BlockQueue.length_contents h.valid, h.contents]

theorem length_buffer (h : Waits sizes message filter) :
    filter.queue.buffer.length = sizes.firstSize := by
  rw [h.valid.capacity, h.queueBlockSize, h.maxBlocks, Nat.one_mul]

theorem length_le (h : Waits sizes message filter) : message.length ≤ sizes.firstSize := by
  rcases h.short with rfl | hshort
  · exact Nat.zero_le _
  · exact hshort.le

/-- The first block is passed on as soon as it is there. -/
theorem first (h : Waits sizes message filter) {bytes : QByteArray} (modifiable : Bool)
    (hlong : sizes.firstSize ≤ message.length + bytes.length) :
    ∃ q, Putting.first ⟨filter, bytes, modifiable, filter.queue.size + bytes.length, []⟩ = .ok q ∧
      q.Passes sizes [] (message ++ bytes) := by
  have hfirst : filter.firstSize = sizes.firstSize := congrArg _ h.sizes_eq
  have hle := h.length_le
  have hsize := h.size_eq
  generalize hlen : sizes.firstSize - message.length = len
  have hminus : minus sizes.firstSize filter.queue.size = .ok len := by
    rw [minus, hsize, if_pos hle, hlen]
  have hadvance : advance bytes len = .ok (bytes.take len, bytes.drop len) := if_pos (by omega)
  have htake : (bytes.take len).length = len := by
    rw [List.length_take]
    omega
  obtain ⟨queue, hput, hholds, hbegin⟩ := @BlockQueue.put_holds filter.queue h.valid
    (bytes.take len) (by rw [h.length_buffer, hsize, htake]; omega)
  have hcontents : queue.contents = (message ++ bytes).take sizes.firstSize := by
    rw [hholds.contents, h.contents, List.take_append, List.take_of_length_le hle, hlen]
  have hqueueSize : queue.size = sizes.firstSize := by
    rw [hholds.size, h.contents, List.length_append, htake]
    omega
  obtain ⟨emptied, hget, -, -⟩ := BlockQueue.getContigousBlocks_holds hholds.valid sizes.firstSize
    (.inr hqueueSize.le)
  have hall : min sizes.firstSize (min (queue.buffer.length - queue.begin) queue.size) =
      sizes.firstSize := by
    rw [hbegin, h.begin_eq, hholds.length_buffer h.valid, h.length_buffer, hqueueSize]
    omega
  rw [hall, hcontents, List.take_take, min_self] at hget
  have hfound : ((message ++ bytes).take sizes.firstSize).length = sizes.firstSize := by
    rw [List.length_take, List.length_append]
    omega
  refine ⟨{
      filter := { filter with
        firstSize := ((message ++ bytes).take sizes.firstSize).length
        firstInputDone := true
        queue := .resetQueue filter.blockSize
          (sizeT (2 * filter.blockSize + filter.lastSize - 2) / filter.blockSize) }
      inString := bytes.drop len
      modifiable
      newLength := filter.queue.size + bytes.length -
        ((message ++ bytes).take sizes.firstSize).length
      calls := [.firstPut ((message ++ bytes).take sizes.firstSize)] }, ?_, ?_⟩
  · rw [Putting.first, if_pos]
    · simp only [hfirst]
      exact bind_eq_ok.mpr ⟨_, hminus, bind_eq_ok.mpr ⟨_, hadvance, bind_eq_ok.mpr ⟨_, hput,
        bind_eq_ok.mpr ⟨_, hget, rfl⟩⟩⟩⟩
    · simp only [hfirst, hsize, h.done]
      exact ⟨Bool.false_ne_true, hlong⟩
  · have hblock : filter.blockSize = sizes.blockSize := congrArg _ h.sizes_eq
    have hlast : filter.lastSize = sizes.lastSize := congrArg _ h.sizes_eq
    constructor
    · exact h.fits
    · simp only [hfound]
      rw [← h.sizes_eq]
    · rfl
    · rw [List.length_append]
      exact hlong
    · apply BlockQueue.valid_resetQueue
      rw [hblock, hlast, sizeT_of_lt h.fits.ring]
      exact (Nat.mul_div_le _ _).trans_lt h.fits.ring
    · exact hblock
    · simp only [BlockQueue.resetQueue, hblock, hlast, sizeT_of_lt h.fits.ring]
    · rw [Putting.rest, BlockQueue.contents_of_size_eq_zero rfl, List.nil_append, List.length_drop]
      simp only [hfound, hsize]
      omega
    · refine ⟨[], rfl, ?_⟩
      rw [Putting.rest, BlockQueue.contents_of_size_eq_zero rfl, List.nil_append, List.drop_append,
        List.drop_of_length_le hle, hlen, List.nil_append]
      exact Parts.of_tail _ _ _

/-- Until then everything waits. -/
theorem keep (h : Waits sizes message filter) {bytes : QByteArray} (modifiable : Bool)
    (hshort : message.length + bytes.length < sizes.firstSize) :
    ∃ next, Putting.keep ⟨filter, bytes, modifiable, filter.queue.size + bytes.length, []⟩ =
        .ok ([], next) ∧
      Waits sizes (message ++ bytes) next := by
  have hminus : minus (filter.queue.size + bytes.length) filter.queue.size = .ok bytes.length := by
    rw [minus, if_pos (Nat.le_add_right _ _), Nat.add_sub_cancel_left]
  have hadvance : advance bytes bytes.length = .ok (bytes, []) := by
    rw [advance, if_pos le_rfl, List.take_length, List.drop_length]
  obtain ⟨queue, hput, hholds, hbegin⟩ := @BlockQueue.put_holds filter.queue h.valid bytes
    (by rw [h.length_buffer, h.size_eq]; exact hshort.le)
  refine ⟨{ filter with queue }, ?_, ?_⟩
  · exact bind_eq_ok.mpr ⟨_, hminus, bind_eq_ok.mpr ⟨_, hadvance, bind_eq_ok.mpr ⟨_, hput, rfl⟩⟩⟩
  · constructor
    · exact h.fits
    · exact h.sizes_eq
    · exact h.done
    · exact .inr (by rw [List.length_append]; exact hshort)
    · exact hholds.valid
    · exact hbegin.trans h.begin_eq
    · exact hholds.blockSize.trans h.queueBlockSize
    · exact hholds.maxBlocks.trans h.maxBlocks
    · rw [hholds.contents, h.contents]

end Waits

/-! ## Whole messages -/

/-- How much of a message that has a first block lies between it and the last one. -/
def middleSize (sizes : BufferSizes) (message : QByteArray) : Nat :=
  roundDownToMultipleOf (message.length - sizes.firstSize - sizes.lastSize) sizes.blockSize

/-- How the calls made for a message divide it. Without a first block everything
is the last one. -/
inductive Divides (sizes : BufferSizes) (message : QByteArray) : List Call → Prop
  | short (hshort : message.length < sizes.firstSize) : Divides sizes message [.lastPut message]
  | long (pieces : List (QByteArray × Bool)) (hlong : sizes.firstSize ≤ message.length)
      (hblocks : ∀ piece ∈ pieces, piece.1 ≠ [] ∧ sizes.blockSize ∣ piece.1.length)
      (hmiddle : (pieces.map Prod.fst).flatten =
        (message.drop sizes.firstSize).take (middleSize sizes message)) :
      Divides sizes message (frontCalls sizes message pieces ++
        [.lastPut ((message.drop sizes.firstSize).drop (middleSize sizes message))])

theorem Divides.of_parts {sizes : BufferSizes} {message last : QByteArray}
    {pieces : List (QByteArray × Bool)} (hlong : sizes.firstSize ≤ message.length)
    (hparts : Parts sizes.blockSize sizes.lastSize (message.drop sizes.firstSize) pieces last)
    (hlast : last.length < sizes.blockSize + sizes.lastSize) :
    Divides sizes message
      (frontCalls sizes message pieces ++ [.lastPut last]) := by
  have hlength : (pieces.map Prod.fst).flatten.length = middleSize sizes message := by
    rw [hparts.length_flatten sizes.blockSize_pos hlast, List.length_drop]
    rfl
  have hmiddle : (message.drop sizes.firstSize).take (middleSize sizes message) =
      (pieces.map Prod.fst).flatten := by
    rw [← hparts.whole, ← hlength, List.take_left]
  have hrest : (message.drop sizes.firstSize).drop (middleSize sizes message) = last := by
    rw [← hparts.whole, ← hlength, List.drop_left]
  rw [← hrest]
  exact .long pieces hlong hparts.blocks hmiddle.symm

/-- A filter that has got part of a message, with the calls made for it. -/
inductive Receives (sizes : BufferSizes) (message : QByteArray) :
    List Call → FilterWithBufferedInput → Prop
  | waiting {filter : FilterWithBufferedInput} (h : Waits sizes message filter) :
      Receives sizes message [] filter
  | passing {calls : List Call} {filter : FilterWithBufferedInput} (hmessage : message ≠ [])
      (h : Putting.Passes sizes calls message ⟨filter, [], false, filter.queue.size, []⟩)
      (hlength : filter.queue.size < sizes.blockSize + sizes.lastSize) :
      Receives sizes message calls filter

/-- The rest of a put once the first block has been passed on. -/
theorem Putting.Passes.finish {sizes : BufferSizes} {before : List Call} {message : QByteArray}
    {p : Putting} (h : p.Passes sizes before message) (hmessage : message ≠ []) :
    ∃ more next, ((if p.filter.firstInputDone then p.middle else pure p) >>= fun p => p.keep) =
        .ok (more, next) ∧
      Receives sizes message (before ++ more) next := by
  rw [if_pos h.done]
  obtain ⟨q, hmiddle, hpasses, hlength⟩ := h.middle
  obtain ⟨next, hkeep, hpasses', hlength'⟩ := hpasses.keep hlength
  exact ⟨q.calls, next, bind_eq_ok.mpr ⟨q, hmiddle, hkeep⟩, .passing hmessage hpasses' hlength'⟩

namespace Receives

/-- Nothing is passed on before the first byte. -/
theorem calls_eq_nil {sizes : BufferSizes} {calls : List Call} {filter : FilterWithBufferedInput}
    (h : Receives sizes [] calls filter) : calls = [] := by
  cases h with
  | waiting _ => rfl
  | passing hmessage => exact absurd rfl hmessage

variable {sizes : BufferSizes} {message : QByteArray} {calls : List Call}
  {filter : FilterWithBufferedInput}

theorem putBytes (h : Receives sizes message calls filter) (bytes : QByteArray)
    (modifiable : Bool) :
    ∃ more next, filter.putBytes bytes modifiable = .ok (more, next) ∧
      Receives sizes (message ++ bytes) (calls ++ more) next := by
  rw [FilterWithBufferedInput.putBytes]
  split
  next hbytes =>
    have hmessage : message ++ bytes ≠ [] := by
      apply List.append_ne_nil_of_right_ne_nil
      exact fun hnil => hbytes (congrArg _ hnil)
    cases h with
    | waiting hwaits =>
        by_cases hlong : sizes.firstSize ≤ message.length + bytes.length
        · obtain ⟨q, hfirst, hpasses⟩ := hwaits.first modifiable hlong
          obtain ⟨more, next, hfinish, hreceives⟩ := hpasses.finish hmessage
          exact ⟨more, next, bind_eq_ok.mpr ⟨q, hfirst, hfinish⟩, hreceives⟩
        · have hfirst : Putting.first
                ⟨filter, bytes, modifiable, filter.queue.size + bytes.length, []⟩ =
              .ok ⟨filter, bytes, modifiable, filter.queue.size + bytes.length, []⟩ := by
            rw [Putting.first, if_neg]
            · rfl
            · rintro ⟨-, hle⟩
              simp only [hwaits.size_eq] at hle
              exact hlong ((congrArg BufferSizes.firstSize hwaits.sizes_eq).symm.trans_le hle)
          obtain ⟨next, hkeep, hwaits'⟩ := hwaits.keep modifiable (Nat.not_le.mp hlong)
          refine ⟨[], next, bind_eq_ok.mpr ⟨_, hfirst, ?_⟩, .waiting hwaits'⟩
          simp only [hwaits.done]
          exact hkeep
    | passing _ hpasses hlength =>
        have hdone : filter.firstInputDone = true := hpasses.done
        have hfirst : Putting.first
              ⟨filter, bytes, modifiable, filter.queue.size + bytes.length, []⟩ =
            .ok ⟨filter, bytes, modifiable, filter.queue.size + bytes.length, []⟩ := by
          rw [Putting.first, if_neg]
          · rfl
          · exact fun hfalse => hfalse.1 hdone
        obtain ⟨more, next, hfinish, hreceives⟩ := (hpasses.append bytes modifiable).finish hmessage
        exact ⟨more, next, bind_eq_ok.mpr ⟨_, hfirst, hfinish⟩, hreceives⟩
  next hnone =>
    rw [List.eq_nil_of_length_eq_zero (not_not.mp hnone), List.append_nil]
    exact ⟨[], filter, rfl, (List.append_nil calls).symm ▸ h⟩

theorem endMessage (h : Receives sizes message calls filter) :
    ∃ last, filter.endMessage = .ok (last, ofSizes sizes) ∧
      Divides sizes message (calls ++ last) := by
  have hreset : ∀ {filter : FilterWithBufferedInput}, filter.toBufferSizes = sizes →
      { filter with firstInputDone := false, queue := .resetQueue 1 filter.firstSize } =
        ofSizes sizes := by
    rintro filter rfl
    rfl
  cases h with
  | waiting hwaits =>
      obtain ⟨emptied, hget, -⟩ := BlockQueue.getAll_holds hwaits.valid
      rw [hwaits.contents] at hget
      have hfirst : filter.firstSize = sizes.firstSize := congrArg _ hwaits.sizes_eq
      refine ⟨(if ¬filter.firstInputDone ∧ filter.firstSize = 0 then [.firstPut []] else []) ++
        [.lastPut message], ?_, ?_⟩
      · rw [← hreset hwaits.sizes_eq]
        exact bind_eq_ok.mpr ⟨_, hget, rfl⟩
      simp only [hwaits.done, hfirst]
      by_cases hzero : sizes.firstSize = 0
      · obtain rfl : message = [] := hwaits.short.resolve_right (by omega)
        rw [if_pos ⟨Bool.false_ne_true, hzero⟩]
        have hparts := Parts.of_tail sizes.blockSize sizes.lastSize []
        have hpos := sizes.blockSize_pos
        have hdivides := @Divides.of_parts sizes [] [] [] (hzero ▸ Nat.zero_le _)
          (by rw [List.drop_nil]; exact hparts) (by rw [List.length_nil]; omega)
        rw [frontCalls, List.take_nil] at hdivides
        exact hdivides
      · rw [if_neg fun hboth => hzero hboth.2]
        apply Divides.short
        rcases hwaits.short with rfl | hshort
        · exact Nat.pos_of_ne_zero hzero
        · exact hshort
  | passing _ hpasses hlength =>
      obtain ⟨emptied, hget, -⟩ := BlockQueue.getAll_holds hpasses.valid
      have hdone : filter.firstInputDone = true := hpasses.done
      refine ⟨(if ¬filter.firstInputDone ∧ filter.firstSize = 0 then [.firstPut []] else []) ++
        [.lastPut filter.queue.contents], ?_, ?_⟩
      · rw [← hreset hpasses.sizes_eq]
        exact bind_eq_ok.mpr ⟨_, hget, rfl⟩
      rw [if_neg fun hboth => hboth.1 hdone]
      obtain ⟨pieces, hpieces, hparts⟩ := hpasses.parts
      rw [List.append_nil] at hpieces
      rw [Putting.rest, List.append_nil] at hparts
      rw [hpieces]
      apply Divides.of_parts hpasses.long hparts
      rw [BlockQueue.length_contents hpasses.valid]
      exact hlength

end Receives

/-! ## Runs -/

/-- The arguments of one put. `Put2` may not modify its input, `PutModifiable2` may. -/
structure Put where
  inString : QByteArray
  messageEnd : Bool
  modifiable : Bool

/-- One put, with the calls made so far. -/
def step (state : List Call × FilterWithBufferedInput) (put : Put) :
    Except Fault (List Call × FilterWithBufferedInput) := do
  let (more, filter) ← state.2.putMaybeModifiable put.inString put.messageEnd put.modifiable
  return (state.1 ++ more, filter)

/-- The messages that puts make up: those ended, and the one under way. -/
def messages (puts : List Put) : List QByteArray × QByteArray :=
  puts.foldl (fun (ended, current) put =>
    if put.messageEnd then (ended ++ [current ++ put.inString], [])
    else (ended, current ++ put.inString)) ([], [])

theorem messages_snoc (puts : List Put) (put : Put) :
    messages (puts ++ [put]) =
      if put.messageEnd then ((messages puts).1 ++ [(messages puts).2 ++ put.inString], [])
      else ((messages puts).1, (messages puts).2 ++ put.inString) := by
  rw [messages, List.foldl_concat]
  rfl

/-- What holds of the calls and the filter after a run. -/
def Ran (sizes : BufferSizes) (puts : List Put) (state : List Call × FilterWithBufferedInput) :
    Prop :=
  ∃ groups current, state.1 = groups.flatten ++ current ∧
    List.Forall₂ (Divides sizes) (messages puts).1 groups ∧
    Receives sizes (messages puts).2 current state.2

theorem Ran.step {sizes : BufferSizes} (hfits : sizes.Fits) {puts : List Put}
    {state : List Call × FilterWithBufferedInput} (h : Ran sizes puts state) (put : Put) :
    ∃ next, step state put = .ok next ∧ Ran sizes (puts ++ [put]) next := by
  obtain ⟨groups, current, hcalls, hgroups, hreceives⟩ := h
  obtain ⟨more, filter, hput, hreceives'⟩ := hreceives.putBytes put.inString put.modifiable
  cases hmessageEnd : put.messageEnd with
  | false =>
      have hboth : state.2.putMaybeModifiable put.inString put.messageEnd put.modifiable =
          .ok (more, filter) := by
        rw [hmessageEnd]
        exact bind_eq_ok.mpr ⟨_, hput, rfl⟩
      refine ⟨(state.1 ++ more, filter), bind_eq_ok.mpr ⟨_, hboth, rfl⟩, ?_⟩
      rw [Ran, messages_snoc, hmessageEnd]
      exact ⟨groups, current ++ more, by rw [hcalls, List.append_assoc], hgroups, hreceives'⟩
  | true =>
      obtain ⟨last, hend, hdivides⟩ := hreceives'.endMessage
      have hboth : state.2.putMaybeModifiable put.inString put.messageEnd put.modifiable =
          .ok (more ++ last, ofSizes sizes) := by
        rw [hmessageEnd]
        exact bind_eq_ok.mpr ⟨_, hput, bind_eq_ok.mpr ⟨_, hend, rfl⟩⟩
      refine ⟨(state.1 ++ (more ++ last), ofSizes sizes), bind_eq_ok.mpr ⟨_, hboth, rfl⟩, ?_⟩
      rw [Ran, messages_snoc, hmessageEnd]
      refine ⟨groups ++ [current ++ more ++ last], [], ?_, ?_, .waiting (waits_ofSizes hfits)⟩
      · rw [hcalls, List.flatten_concat, List.append_nil, List.append_assoc, List.append_assoc]
      · exact List.rel_append hgroups (.cons hdivides .nil)

theorem ran_of_run {sizes : BufferSizes} (hfits : sizes.Fits) (puts : List Put) :
    ∃ state, run step ([], ofSizes sizes) puts = .ok state ∧ Ran sizes puts state := by
  have hstart : Ran sizes [] ([], ofSizes sizes) :=
    ⟨[], [], rfl, List.Forall₂.nil, .waiting (waits_ofSizes hfits)⟩
  exact run_progress (Ran sizes) hstart (fun _ _ put hran => hran.step hfits put) puts

/-- What the header says of the length of the last block. -/
structure KeepsLast (sizes : BufferSizes) (message last : QByteArray) : Prop where
  short : message.length < sizes.firstSize → last.length = message.length
  rest : sizes.firstSize ≤ message.length →
    message.length ≤ sizes.firstSize + sizes.lastSize →
    last.length = message.length - sizes.firstSize
  kept : sizes.firstSize + sizes.lastSize < message.length →
    sizes.lastSize ≤ last.length ∧ last.length < sizes.lastSize + sizes.blockSize

theorem Divides.keepsLast {sizes : BufferSizes} {message : QByteArray} {calls : List Call}
    (h : Divides sizes message calls) :
    ∃ front last, calls = front ++ [.lastPut last] ∧ KeepsLast sizes message last := by
  cases h with
  | short hshort =>
      refine ⟨[], message, rfl, fun _ => rfl, fun hlong => ?_, fun hlong => ?_⟩
      · omega
      · omega
  | long pieces hlong hblocks hmiddle =>
      have hmod := Nat.mod_lt (message.length - sizes.firstSize - sizes.lastSize)
        sizes.blockSize_pos
      have hmodLe := Nat.mod_le (message.length - sizes.firstSize - sizes.lastSize) sizes.blockSize
      refine ⟨_, _, rfl, fun hshort => ?_, fun _ hnone => ?_, fun hmore => ?_⟩
      · omega
      · rw [List.length_drop, List.length_drop, middleSize, roundDownToMultipleOf]
        omega
      · rw [List.length_drop, List.length_drop, middleSize, roundDownToMultipleOf]
        omega

theorem eq_ofSizes {firstSize blockSize lastSize : Nat} {filter : FilterWithBufferedInput}
    (hstart : isolatedInitialize firstSize blockSize lastSize = some filter) :
    filter = ofSizes filter.toBufferSizes := by
  unfold isolatedInitialize at hstart
  split at hstart
  · contradiction
  · cases hstart
    rfl

/-- However messages are cut into puts, no put to a filter that has been
initialized reads or writes outside the ring or the input, and the calls made for
each message divide it. -/
theorem divides_of_run {firstSize blockSize lastSize : Nat} {filter : FilterWithBufferedInput}
    (hstart : isolatedInitialize firstSize blockSize lastSize = some filter)
    (hfits : filter.Fits) (puts : List Put) :
    ∃ groups current last,
      run step ([], filter) puts = .ok (groups.flatten ++ current, last) ∧
        List.Forall₂ (Divides filter.toBufferSizes) (messages puts).1 groups ∧
        List.Forall₂ (fun message calls => ∃ front last, calls = front ++ [.lastPut last] ∧
          KeepsLast filter.toBufferSizes message last) (messages puts).1 groups := by
  obtain ⟨⟨calls, last⟩, hrun, hran⟩ := ran_of_run hfits puts
  rw [← eq_ofSizes hstart] at hrun
  obtain ⟨groups, current, rfl, hgroups, -⟩ := hran
  exact ⟨groups, current, last, hrun, hgroups, hgroups.imp fun _ _ hdivides => hdivides.keepsLast⟩

/-- One message in three puts, for a first byte, blocks of two bytes and a last
block of two. -/
theorem divides_of_run_three_puts :
    ∃ groups current last,
      run step ([], ofSizes ⟨1, 2, 2, by decide⟩) [⟨[1, 2], false, false⟩, ⟨[3], false, true⟩,
          ⟨[4, 5, 6], true, false⟩] = .ok (groups.flatten ++ current, last) ∧
        List.Forall₂ (Divides ⟨1, 2, 2, by decide⟩) [[1, 2, 3, 4, 5, 6]] groups ∧
        List.Forall₂ (fun message calls => ∃ front last, calls = front ++ [.lastPut last] ∧
          KeepsLast ⟨1, 2, 2, by decide⟩ message last) [[1, 2, 3, 4, 5, 6]] groups :=
  @divides_of_run 1 2 2 _ rfl ⟨by decide, by decide⟩
    [⟨[1, 2], false, false⟩, ⟨[3], false, true⟩, ⟨[4, 5, 6], true, false⟩]

/-- The size of the ring wraps around to nothing, and the first byte does not fit. -/
example : (isolatedInitialize 0 2147483648 2).map (fun filter => filter.putBytes [0] false) =
    some (.error (.indexOutOfRange 1 0)) := rfl

/-! ## Derived filters -/

section

variable {Error State : Type} (fault : Fault → Error) (call : State → Call → Except Error State)

/-- A put of a derived filter, with the state its virtual functions work on. -/
def putDerived (filter : FilterWithBufferedInput × State) (put : Put) :
    Except Error (FilterWithBufferedInput × State) := do
  let (calls, input) ← (filter.1.putMaybeModifiable put.inString put.messageEnd
    put.modifiable).mapError fault
  let state ← run call filter.2 calls
  return (input, state)

theorem putDerived_eq {filter : FilterWithBufferedInput × State} {put : Put} {calls : List Call}
    {input : FilterWithBufferedInput}
    (hput : filter.1.putMaybeModifiable put.inString put.messageEnd put.modifiable =
      .ok (calls, input)) :
    putDerived fault call filter put =
      (run call filter.2 calls).map fun state => (input, state) := by
  rw [putDerived, hput]
  simp only [Except.mapError, bind, Except.bind]
  cases run call filter.2 calls with
  | error => rfl
  | ok => rfl

/-- The calls can be made after the buffered filter has made up all of them. -/
theorem run_putDerived {input : FilterWithBufferedInput} (start : State) {puts : List Put}
    {calls : List Call} {last : FilterWithBufferedInput}
    (hrun : run step ([], input) puts = .ok (calls, last)) :
    run (putDerived fault call) (input, start) puts =
      (run call start calls).map fun state => (last, state) := by
  induction puts using List.reverseRecOn generalizing calls last with
  | nil =>
      cases hrun
      rfl
  | append_singleton puts put ih =>
      obtain ⟨⟨before, middle⟩, hbefore, hstep⟩ := run_snoc_eq_ok.mp hrun
      obtain ⟨⟨more, next⟩, hput, hnext⟩ := bind_eq_ok.mp hstep
      cases hnext
      rw [run_snoc, ih hbefore, run_append]
      cases run call start before with
      | error => rfl
      | ok state => exact @putDerived_eq _ _ fault call (middle, state) put more last hput

/-- Puts that make up one message make the calls that divide it. -/
theorem divides_of_messages {sizes : BufferSizes} (hfits : sizes.Fits) (start : State)
    {puts : List Put}
    {message : QByteArray} (hmessage : messages puts = ([message], [])) :
    ∃ calls input, Divides sizes message calls ∧
      run (putDerived fault call) (ofSizes sizes, start) puts =
        (run call start calls).map fun state => (input, state) := by
  obtain ⟨⟨calls, input⟩, hrun, groups, current, hcalls, hgroups, hreceives⟩ :=
    ran_of_run hfits puts
  rw [hmessage] at hgroups hreceives
  obtain rfl := hreceives.calls_eq_nil
  obtain ⟨group, rest, hdivides, hrest, rfl⟩ := List.forall₂_cons_left_iff.mp hgroups
  obtain rfl := List.forall₂_nil_left_iff.mp hrest
  rw [List.append_nil, List.flatten_singleton] at hcalls
  obtain rfl : calls = group := hcalls
  exact ⟨calls, input, hdivides, run_putDerived fault call start hrun⟩

end

/-- The puts of a `StringSource` that pumps all of its string. -/
def stringSource (string : QByteArray) : List Put :=
  (if string = [] then [] else [⟨string, false, false⟩]) ++ [⟨[], true, false⟩]

theorem messages_stringSource (string : QByteArray) :
    messages (stringSource string) = ([string], []) := by
  rw [stringSource]
  split
  next hempty =>
    rw [hempty]
    rfl
  · simp [messages]

end FilterWithBufferedInput

end BBNotifier
