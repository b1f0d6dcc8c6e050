import BBNotifier.Crypto.AESWrapper
import BBNotifier.Cryptopp.CBCDecryption
import BBNotifier.Cryptopp.FilterWithBufferedInput

/-! # Decryption piece by piece

`StreamTransformationFilter` on top of the buffered filter: middle blocks are
decrypted in the queue's memory or through a buffer of limited size, and the last
block is unpadded. Whatever the pieces a ciphertext arrives in, what comes out is
the decryption of the whole.
-/

namespace BBNotifier

open Foundation

namespace Memory

theorem read_add (memory : Memory) (offset first second : Nat) :
    memory.read offset (first + second) =
      memory.read offset first ++ memory.read (offset + first) second := by
  rw [read, List.range_add, List.map_append, List.map_map]
  simp only [read, Function.comp_def, Nat.add_assoc]

theorem read_blockSize (memory : Memory) (offset : Nat) :
    memory.read offset blockSize = (memory.block offset).toBytes := by
  apply List.ext_getElem
  · rw [length_read, Block.length_toBytes]
  · intro i hi hi'
    rw [Block.getElem_toBytes]
    simp only [read, List.getElem_map, List.getElem_range]
    rfl

theorem read_blocks (memory : Memory) (offset count : Nat) :
    memory.read offset (count * blockSize) = Block.join (memory.blocks offset count) := by
  induction count with
  | zero =>
      rw [Nat.zero_mul]
      rfl
  | succ count ih =>
      rw [Nat.succ_mul, read_add, ih, read_blockSize, blocks, blocks, List.range_succ,
        List.map_append, Block.join_append]
      simp [Block.join]

end Memory

/-- What a piece of whole blocks becomes, and the block the next piece is chained to. -/
theorem CBCDecryption.read_processData {cipher : Equiv.Perm Block} {mode : CBCDecryption}
    {memory : Memory} {outString inString length : Nat} (hblocks : blockSize ∣ length)
    (halias : outString = inString ∨ inString + length ≤ outString ∨
      outString + length ≤ inString) :
    (processData cipher mode memory outString inString length).1.read outString length =
        Block.join (CipherBlockChaining.decrypt cipher mode.register
          (Block.split (memory.read inString length))) ∧
      (processData cipher mode memory outString inString length).2.register =
        (Block.split (memory.read inString length)).getLastD mode.register := by
  obtain ⟨count, rfl⟩ := hblocks
  rw [Nat.mul_comm] at halias ⊢
  rw [Memory.read_blocks, Memory.read_blocks, Block.split_join]
  exact ⟨congrArg _ (blocks_processData halias), register_processData⟩

/-- What a filter throws. -/
inductive Thrown
  | fault (cause : Fault)
  | invalidCiphertext
deriving DecidableEq

/-- The filter for AES in CBC mode, decrypting, with a string as its sink. -/
structure StreamFilter where
  mode : CBCDecryption
  optimalBufferSize : Nat
  tempSpace : Nat
  output : QByteArray

namespace StreamFilter

/-- The buffer the filter decrypts into. A string offers no space of its own. -/
def helpCreatePutSpace (filter : StreamFilter) (minSize bufferSize : Nat) : Nat :=
  if filter.tempSpace < minSize then bufferSize else filter.tempSpace

def firstPut (filter : StreamFilter) : StreamFilter :=
  { filter with
    optimalBufferSize :=
      max blockSize (FilterWithBufferedInput.roundDownToMultipleOf 4096 blockSize) }

/-- Decrypt through the buffer, as many blocks at a time as it holds. -/
def nextPutMultiple (cipher : Equiv.Perm Block) : Nat → StreamFilter → QByteArray → StreamFilter
  | 0, filter, _ => filter
  | fuel + 1, filter, inString =>
      if inString.length = 0 then filter
      else
        let space := filter.helpCreatePutSpace blockSize filter.optimalBufferSize
        let len :=
          if space < inString.length then
            FilterWithBufferedInput.roundDownToMultipleOf space blockSize
          else inString.length
        let (memory, mode) := CBCDecryption.processData cipher filter.mode
          (Memory.store inString fun _ => 0) inString.length 0 len
        nextPutMultiple cipher fuel { filter with
          mode
          tempSpace := space
          output := filter.output ++ memory.read inString.length len } (inString.drop len)

/-- Decrypt in place. -/
def nextPutModifiable (cipher : Equiv.Perm Block) (filter : StreamFilter) (inString : QByteArray) :
    StreamFilter :=
  let (memory, mode) := CBCDecryption.processData cipher filter.mode
    (Memory.store inString fun _ => 0) 0 0 inString.length
  { filter with mode, output := filter.output ++ memory.read 0 inString.length }

/-- The last block, with its padding. -/
def lastPut (cipher : Equiv.Perm Block) (filter : StreamFilter) (inString : QByteArray) :
    Except Thrown StreamFilter :=
  if inString.length ≠ blockSize then .error .invalidCiphertext
  else
    let space := filter.helpCreatePutSpace blockSize filter.optimalBufferSize
    let (memory, mode) := CBCDecryption.processData cipher filter.mode
      (Memory.store inString fun _ => 0) inString.length 0 blockSize
    match Pkcs7.unpad blockSize (memory.read inString.length blockSize) with
    | none => .error .invalidCiphertext
    | some text =>
        .ok { filter with mode, tempSpace := space, output := filter.output ++ text }

def call (cipher : Equiv.Perm Block) (filter : StreamFilter) :
    FilterWithBufferedInput.Call → Except Thrown StreamFilter
  | .firstPut _ => .ok filter.firstPut
  | .nextPut inString true => .ok (filter.nextPutModifiable cipher inString)
  | .nextPut inString false =>
      .ok (nextPutMultiple cipher inString.length filter inString)
  | .lastPut inString => filter.lastPut cipher inString

/-- The sizes of `InitializeDerivedAndReturnNewSizes`. -/
def bufferSizes : BufferSizes where
  firstSize := 0
  blockSize := blockSize
  lastSize := blockSize
  blockSize_pos := by decide

theorem bufferSizes_fits : bufferSizes.Fits where
  first := by decide
  ring := by decide

/-! ## What has been decrypted -/

theorem split_append {first second : QByteArray} (hfirst : blockSize ∣ first.length)
    (hsecond : blockSize ∣ second.length) :
    Block.split (first ++ second) = Block.split first ++ Block.split second := by
  have hjoin := Block.join_append (Block.split first) (Block.split second)
  rw [Block.join_split (Nat.mod_eq_zero_of_dvd hfirst),
    Block.join_split (Nat.mod_eq_zero_of_dvd hsecond)] at hjoin
  rw [← hjoin, Block.split_join]

theorem getLastD_append {first second : List Block} {chain : Block} :
    (first ++ second).getLastD chain = second.getLastD (first.getLastD chain) := by
  cases second using List.reverseRecOn with
  | nil => rw [List.append_nil, List.getLastD_nil]
  | append_singleton front last =>
      rw [← List.append_assoc, List.getLastD_concat, List.getLastD_concat]

/-- The blocks passed on so far are decrypted, and the next one will be chained to
the last of them. -/
structure Decrypts (cipher : Equiv.Perm Block) (iv : Block) (done : QByteArray)
    (filter : StreamFilter) : Prop where
  blocks : blockSize ∣ done.length
  output : filter.output =
    Block.join (CipherBlockChaining.decrypt cipher iv (Block.split done))
  register : filter.mode.register = (Block.split done).getLastD iv
  space : blockSize ≤ filter.optimalBufferSize

namespace Decrypts

variable {cipher : Equiv.Perm Block} {iv : Block} {done : QByteArray} {filter : StreamFilter}

/-- Another piece, decrypted with the register as it is. -/
theorem append (h : filter.Decrypts cipher iv done) {piece plain : QByteArray} {next : StreamFilter}
    (hpiece : blockSize ∣ piece.length)
    (hplain : plain = Block.join
      (CipherBlockChaining.decrypt cipher filter.mode.register (Block.split piece)))
    (houtput : next.output = filter.output ++ plain)
    (hregister : next.mode.register = (Block.split piece).getLastD filter.mode.register)
    (hspace : next.optimalBufferSize = filter.optimalBufferSize) :
    next.Decrypts cipher iv (done ++ piece) := by
  have hsplit := split_append h.blocks hpiece
  constructor
  · rw [List.length_append]
    exact Nat.dvd_add h.blocks hpiece
  · rw [houtput, h.output, hplain, h.register, hsplit, CipherBlockChaining.decrypt_append,
      Block.join_append]
  · rw [hregister, h.register, hsplit, getLastD_append]
  · rw [hspace]
    exact h.space

/-- What a read of the front of the input gives. -/
theorem read_store_take {inString : QByteArray} {len : Nat} (hlen : len ≤ inString.length) :
    (Memory.store inString fun _ => 0).read 0 len = inString.take len := by
  rw [Memory.read_store (by omega), List.drop_zero]

theorem nextPutModifiable (h : filter.Decrypts cipher iv done) {inString : QByteArray}
    (hblocks : blockSize ∣ inString.length) :
    (filter.nextPutModifiable cipher inString).Decrypts cipher iv (done ++ inString) := by
  obtain ⟨hread, hregister⟩ := @CBCDecryption.read_processData cipher filter.mode
    (Memory.store inString fun _ => 0) 0 0 inString.length hblocks (.inl rfl)
  rw [read_store_take le_rfl, List.take_length] at hread hregister
  exact h.append hblocks hread rfl hregister rfl

theorem nextPutMultiple (h : filter.Decrypts cipher iv done) {inString : QByteArray} {fuel : Nat}
    (hblocks : blockSize ∣ inString.length) (hfuel : inString.length ≤ fuel) :
    (StreamFilter.nextPutMultiple cipher fuel filter inString).Decrypts cipher iv
      (done ++ inString) := by
  have hpos : 0 < blockSize := by decide
  induction fuel generalizing filter done inString with
  | zero =>
      rw [List.eq_nil_of_length_eq_zero (Nat.le_zero.mp hfuel), List.append_nil]
      exact h
  | succ fuel ih =>
      simp only [StreamFilter.nextPutMultiple]
      split
      next hempty =>
        rw [List.eq_nil_of_length_eq_zero hempty, List.append_nil]
        exact h
      next hmore =>
        have hspace : blockSize ≤
            filter.helpCreatePutSpace blockSize filter.optimalBufferSize := by
          have hoptimal := h.space
          rw [helpCreatePutSpace]
          split
          · exact hoptimal
          next htemp => exact Nat.not_lt.mp htemp
        generalize filter.helpCreatePutSpace blockSize filter.optimalBufferSize = space at hspace ⊢
        generalize hlen : (if space < inString.length then
          FilterWithBufferedInput.roundDownToMultipleOf space blockSize
          else inString.length) = len
        -- Some whole blocks are decrypted at once, and at least one.
        have hlenBlocks : blockSize ∣ len ∧ 0 < len ∧ len ≤ inString.length := by
          have hmod := Nat.mod_lt space hpos
          have hmodLe := Nat.mod_le space blockSize
          rw [FilterWithBufferedInput.roundDownToMultipleOf] at hlen
          split at hlen
          · exact ⟨hlen ▸ Nat.dvd_sub_mod _, by omega, by omega⟩
          · exact ⟨hlen ▸ hblocks, by omega, by omega⟩
        obtain ⟨hdvd, hlenPos, hle⟩ := hlenBlocks
        obtain ⟨hread, hregister⟩ := @CBCDecryption.read_processData cipher filter.mode
          (Memory.store inString fun _ => 0) inString.length 0 len hdvd (.inr (.inl (by omega)))
        rw [read_store_take hle] at hread hregister
        have htake : (inString.take len).length = len := by
          rw [List.length_take, min_eq_left hle]
        have hnext := @append cipher iv done filter h (inString.take len) _ { filter with
            mode := (CBCDecryption.processData cipher filter.mode
              (Memory.store inString fun _ => 0) inString.length 0 len).2
            tempSpace := space
            output := filter.output ++ (CBCDecryption.processData cipher filter.mode
              (Memory.store inString fun _ => 0) inString.length 0 len).1.read
                inString.length len } (htake.symm ▸ hdvd) hread rfl hregister rfl
        have hrest := @ih _ _ hnext (inString.drop len)
          (by rw [List.length_drop]; exact Nat.dvd_sub hblocks hdvd)
          (by rw [List.length_drop]; omega)
        rw [List.append_assoc, List.take_append_drop] at hrest
        exact hrest

/-- The last block is unpadded. -/
theorem lastPut (h : filter.Decrypts cipher iv done) {inString : QByteArray}
    (hlength : inString.length = blockSize) :
    (filter.lastPut cipher inString).map StreamFilter.output =
      match streamDecrypt cipher iv (done ++ inString) with
      | none => .error .invalidCiphertext
      | some text => .ok text := by
  have hblocks : blockSize ∣ inString.length := hlength ▸ Nat.dvd_refl _
  obtain ⟨hread, -⟩ := @CBCDecryption.read_processData cipher filter.mode
    (Memory.store inString fun _ => 0) inString.length 0 blockSize (Nat.dvd_refl _)
    (.inr (.inl (by omega)))
  rw [read_store_take hlength.ge, List.take_of_length_le hlength.le] at hread
  have hlast : Block.split inString = [Block.ofBytes inString] := by
    rw [← Block.split_join [Block.ofBytes inString]]
    simp only [Block.join, List.map_cons, List.map_nil, List.flatten_cons, List.flatten_nil,
      List.append_nil, Block.toBytes_ofBytes hlength]
  have hwhole : (done ++ inString).length % blockSize = 0 := by
    rw [List.length_append]
    exact Nat.mod_eq_zero_of_dvd (Nat.dvd_add h.blocks hblocks)
  have hplain := CipherBlockChaining.decrypt_append cipher iv (Block.split done)
    (Block.split inString)
  rw [StreamFilter.lastPut, if_neg (not_not.mpr hlength), streamDecrypt,
    if_neg (not_not.mpr hwhole), split_append h.blocks hblocks, hplain, ← h.register, hlast]
  rw [hlast] at hread
  simp only [CipherBlockChaining.decrypt, putPlain_append_singleton] at hread ⊢
  rw [hread]
  simp only [Block.join, List.map_cons, List.map_nil, List.flatten_cons, List.flatten_nil,
    List.append_nil]
  cases Pkcs7.unpad blockSize
      (cipher.symm (Block.ofBytes inString) - filter.mode.register).toBytes with
  | none => rfl
  | some text =>
      rw [Option.map_some]
      simp only [Except.map, h.output, Block.join]

end Decrypts

/-! ## Whole messages -/

/-- The calls for the middle blocks of a message. -/
theorem decrypts_of_pieces {cipher : Equiv.Perm Block} {iv : Block} {done : QByteArray}
    {filter : StreamFilter} (h : filter.Decrypts cipher iv done)
    {pieces : List (QByteArray × Bool)}
    (hblocks : ∀ piece ∈ pieces, blockSize ∣ piece.1.length) :
    ∃ next, run (call cipher) filter
        (pieces.map fun (piece, modifiable) => .nextPut piece modifiable) = .ok next ∧
      next.Decrypts cipher iv (done ++ (pieces.map Prod.fst).flatten) := by
  induction pieces generalizing filter done with
  | nil =>
      simp only [List.map_nil, List.flatten_nil, List.append_nil]
      exact ⟨filter, rfl, h⟩
  | cons piece rest ih =>
      obtain ⟨inString, modifiable⟩ := piece
      have hpiece := hblocks (inString, modifiable) List.mem_cons_self
      have hrest := fun other hother => hblocks other (List.mem_cons_of_mem _ hother)
      rw [List.map_cons, List.map_cons, List.flatten_cons, ← List.append_assoc, run,
        List.foldlM_cons]
      cases modifiable with
      | true => exact ih (h.nextPutModifiable hpiece) hrest
      | false => exact ih (h.nextPutMultiple hpiece le_rfl) hrest

/-- The filter as it is constructed. What the second buffer of the mode holds
does not matter. -/
def construct (iv : Block) : StreamFilter where
  mode := { register := iv, temp := 0 }
  optimalBufferSize := 0
  tempSpace := 0
  output := []

theorem decrypts_firstPut (cipher : Equiv.Perm Block) (iv : Block) :
    (construct iv).firstPut.Decrypts cipher iv [] where
  blocks := Nat.dvd_zero _
  output := rfl
  register := rfl
  space := Nat.le_max_left _ _

/-- The calls made for a message put out its decryption. -/
theorem output_of_divides (cipher : Equiv.Perm Block) (iv : Block) {message : QByteArray}
    {calls : List FilterWithBufferedInput.Call}
    (hdivides : FilterWithBufferedInput.Divides bufferSizes message calls) :
    (run (call cipher) (construct iv) calls).map StreamFilter.output =
      match streamDecrypt cipher iv message with
      | none => .error .invalidCiphertext
      | some text => .ok text := by
  cases hdivides with
  | short hshort => exact absurd hshort (Nat.not_lt_zero _)
  | long pieces _ hblocks hmiddle =>
      obtain ⟨filter, hrun, hdecrypts⟩ := decrypts_of_pieces (decrypts_firstPut cipher iv)
        fun piece hpiece => (hblocks piece hpiece).2
      have hfront : run (call cipher) (construct iv)
          (FilterWithBufferedInput.frontCalls bufferSizes message pieces) = .ok filter := hrun
      rw [hmiddle, List.nil_append] at hdecrypts
      generalize hlast : (message.drop bufferSizes.firstSize).drop
        (FilterWithBufferedInput.middleSize bufferSizes message) = last
      have hmessage : (message.drop bufferSizes.firstSize).take
          (FilterWithBufferedInput.middleSize bufferSizes message) ++ last = message := by
        rw [← hlast, List.take_append_drop]
        rfl
      have hcalls : run (call cipher) (construct iv)
          (FilterWithBufferedInput.frontCalls bufferSizes message pieces ++ [.lastPut last]) =
          filter.lastPut cipher last := by
        rw [run_snoc, hfront]
        rfl
      rw [hcalls]
      by_cases hlength : last.length = blockSize
      · rw [hdecrypts.lastPut hlength, hmessage]
      · have hlastLength : last.length = message.length -
            FilterWithBufferedInput.middleSize bufferSizes message := by
          rw [← hlast, List.length_drop, List.length_drop]
          rfl
        have hnone : streamDecrypt cipher iv message = none := by
          rw [streamDecrypt]
          split
          · rfl
          next hwhole =>
            have hempty : message = [] := by
              apply List.eq_nil_of_length_eq_zero
              simp only [FilterWithBufferedInput.middleSize, bufferSizes,
                FilterWithBufferedInput.roundDownToMultipleOf, blockSize] at *
              omega
            rw [hempty]
            rfl
        rw [hnone, StreamFilter.lastPut, if_pos hlength]
        rfl

end StreamFilter

namespace StreamTransformationFilter

/-- `Put2` and `PutModifiable2`. -/
def put (cipher : Equiv.Perm Block) :
    FilterWithBufferedInput × StreamFilter → FilterWithBufferedInput.Put →
      Except Thrown (FilterWithBufferedInput × StreamFilter) :=
  FilterWithBufferedInput.putDerived Thrown.fault (StreamFilter.call cipher)

def construct (iv : Block) : FilterWithBufferedInput × StreamFilter :=
  (.ofSizes StreamFilter.bufferSizes, .construct iv)

/-- Whatever puts a message arrives in, what is put out is its decryption. -/
theorem output_of_messages (cipher : Equiv.Perm Block) (iv : Block)
    {puts : List FilterWithBufferedInput.Put} {message : QByteArray}
    (hmessage : FilterWithBufferedInput.messages puts = ([message], [])) :
    (run (put cipher) (construct iv) puts).map (fun filter => filter.2.output) =
      match streamDecrypt cipher iv message with
      | none => .error .invalidCiphertext
      | some text => .ok text := by
  obtain ⟨calls, input, hdivides, hrun⟩ := FilterWithBufferedInput.divides_of_messages
    Thrown.fault (StreamFilter.call cipher) StreamFilter.bufferSizes_fits (.construct iv) hmessage
  rw [put, construct, hrun, ← StreamFilter.output_of_divides cipher iv hdivides]
  cases run (StreamFilter.call cipher) (.construct iv) calls with
  | error => rfl
  | ok => rfl

end StreamTransformationFilter

/-- What `Decrypt` returns is what comes out of the chain of filters, whatever
puts make up the ciphertext. -/
theorem CAESWrapper.decrypt_eq_streamed (cipher : BlockCipher) (memory : Memory) (buf : Nat)
    {length : Int} (key : AESKey) (iv : Nat) (hlength : 0 ≤ length)
    {puts : List FilterWithBufferedInput.Put}
    (hputs : FilterWithBufferedInput.messages puts = ([memory.read buf length.toNat], [])) :
    decrypt cipher memory buf length key iv =
      match run (StreamTransformationFilter.put (cipher key))
          (StreamTransformationFilter.construct (memory.block iv)) puts with
      | .error _ => []
      | .ok filter => QString.fromUtf8 (cString filter.2.output) := by
  have houtput := StreamTransformationFilter.output_of_messages (cipher key) (memory.block iv) hputs
  rw [decrypt_of_read hlength (Memory.read_blockSize memory iv) rfl]
  cases hrun : run (StreamTransformationFilter.put (cipher key))
      (StreamTransformationFilter.construct (memory.block iv)) puts with
  | error =>
      rw [hrun] at houtput
      cases hplain : streamDecrypt (cipher key) (memory.block iv)
          (memory.read buf length.toNat) with
      | none => rfl
      | some text =>
          rw [hplain] at houtput
          cases houtput
  | ok filter =>
      rw [hrun] at houtput
      cases hplain : streamDecrypt (cipher key) (memory.block iv)
          (memory.read buf length.toNat) with
      | none =>
          rw [hplain] at houtput
          cases houtput
      | some text =>
          rw [hplain] at houtput
          cases houtput
          rfl

/-- Two puts that cut the second block of the ciphertext. -/
theorem CAESWrapper.decrypt_eq_streamed_two_puts :
    decrypt (fun _ => 1) (fun _ => 1) 16 32 .zero 0 =
      match run (StreamTransformationFilter.put 1)
          (StreamTransformationFilter.construct (Memory.block (fun _ => 1) 0))
          [⟨List.replicate 21 1, false, true⟩, ⟨List.replicate 11 1, true, false⟩] with
      | .error _ => []
      | .ok filter => QString.fromUtf8 (cString filter.2.output) :=
  @decrypt_eq_streamed (fun _ => 1) (fun _ => 1) 16 32 .zero 0 (by decide)
    [⟨List.replicate 21 1, false, true⟩, ⟨List.replicate 11 1, true, false⟩] (by decide)

end BBNotifier
