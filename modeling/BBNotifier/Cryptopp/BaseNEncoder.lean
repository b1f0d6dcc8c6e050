import BBNotifier.Foundation.BitGroups
import BBNotifier.Foundation.Run
import BBNotifier.Qt.Memory

/-! # Encoding in a power of two

`BaseN_Encoder` spreads the bits of its input over the characters of a block, and
puts the block out when it is full. Its characters are the groups of bits of the
message, whatever the pieces the message is put in.
-/

namespace BBNotifier

open Foundation Foundation.BitGroups

/-- `none` for `m_padding` is no padding. -/
structure BaseNEncoder where
  alphabet : QByteArray
  padding : Option UInt8
  bitsPerChar : Nat
  bitsPerChar_pos : 0 < bitsPerChar
  bitsPerChar_lt : bitsPerChar < 8
  bytePos : Nat
  bitPos : Nat
  outBuf : QByteArray

namespace BaseNEncoder

/-- The first multiple of eight, from `i` on, that is one of `bitsPerChar`. -/
def blockBits (bitsPerChar : Nat) : Nat → Nat → Nat
  | 0, i => i
  | fuel + 1, i => if i % bitsPerChar ≠ 0 then blockBits bitsPerChar fuel (i + 8) else i

def outputBlockSize (bitsPerChar : Nat) : Nat :=
  blockBits bitsPerChar bitsPerChar 8 / bitsPerChar

/-- `none` is the `InvalidArgument` thrown for another width. -/
def isolatedInitialize (alphabet : QByteArray) (padding : Option UInt8) (bitsPerChar : Nat) :
    Option BaseNEncoder :=
  if h : 0 < bitsPerChar ∧ bitsPerChar < 8 then some {
    alphabet, padding, bitsPerChar
    bitsPerChar_pos := h.1
    bitsPerChar_lt := h.2
    bytePos := 0
    bitPos := 0
    outBuf := List.replicate (outputBlockSize bitsPerChar) 0 }
  else none

/-- Spread the bits of a byte. Each round fills a character or uses the byte up. -/
def spread : Nat → BaseNEncoder → Nat → Nat → Except Fault BaseNEncoder
  | 0, encoder, _, _ => return encoder
  | fuel + 1, encoder, b, bitsLeftInSource =>
      let bitsLeftInTarget := encoder.bitsPerChar - encoder.bitPos
      match encoder.outBuf[encoder.bytePos]? with
      | none => .error (.indexOutOfRange encoder.bytePos encoder.outBuf.length)
      | some char =>
          let outBuf := encoder.outBuf.set encoder.bytePos
            (char ||| UInt8.ofNat (b >>> (8 - bitsLeftInTarget)))
          if bitsLeftInTarget ≤ bitsLeftInSource then
            let encoder := { encoder with outBuf, bitPos := 0, bytePos := encoder.bytePos + 1 }
            if bitsLeftInSource - bitsLeftInTarget = 0 then return encoder
            else spread fuel encoder ((b <<< bitsLeftInTarget) % 256)
              (bitsLeftInSource - bitsLeftInTarget)
          else return { encoder with outBuf, bitPos := encoder.bitPos + bitsLeftInSource }

/-- The characters for the first values of the buffer. -/
def characters (encoder : BaseNEncoder) : Except Fault QByteArray :=
  (encoder.outBuf.take encoder.bytePos).mapM fun value =>
    match encoder.alphabet[value.toNat]? with
    | none => .error (.indexOutOfRange value.toNat encoder.alphabet.length)
    | some char => .ok char

/-- One byte of the input, and the block it completes, if it does. -/
def putByte (encoder : BaseNEncoder) (byte : UInt8) :
    Except Fault (List QByteArray × BaseNEncoder) := do
  let encoder :=
    if encoder.bytePos = 0 then
      { encoder with outBuf := List.replicate encoder.outBuf.length 0 }
    else encoder
  let encoder ← spread 8 encoder byte.toNat 8
  if encoder.bytePos = outputBlockSize encoder.bitsPerChar then
    let output ← encoder.characters
    return ([output], { encoder with bytePos := 0, bitPos := 0 })
  else return ([], encoder)

/-- The pieces put out for some input. -/
def putBytes (encoder : BaseNEncoder) :
    QByteArray → Except Fault (List QByteArray × BaseNEncoder)
  | [] => return ([], encoder)
  | byte :: rest => do
      let (first, encoder) ← encoder.putByte byte
      let (others, encoder) ← encoder.putBytes rest
      return (first ++ others, encoder)

/-- Fill up a block that has been begun. -/
def fillUp (encoder : BaseNEncoder) (output : QByteArray) : QByteArray :=
  match encoder.padding with
  | none => output
  | some padding =>
      if 0 < encoder.bytePos then
        output ++ List.replicate (outputBlockSize encoder.bitsPerChar - encoder.bytePos) padding
      else output

/-- The last characters of a message, with their padding. -/
def endMessage (encoder : BaseNEncoder) : Except Fault (QByteArray × BaseNEncoder) := do
  let encoder :=
    if 0 < encoder.bitPos then { encoder with bytePos := encoder.bytePos + 1 } else encoder
  let output ← encoder.characters
  return (encoder.fillUp output, { encoder with bytePos := 0, bitPos := 0 })

/-! ## The bits in the buffer -/

/-- A bit of the buffer, counted over all of its characters. -/
def charBit (encoder : BaseNEncoder) (i : Nat) : Bool :=
  (encoder.outBuf.getD (i / encoder.bitsPerChar) 0).toNat.testBit
    (encoder.bitsPerChar - 1 - i % encoder.bitsPerChar)

/-- The first bits of a string have been spread, and nothing else is in the buffer. -/
structure Spread (encoder : BaseNEncoder) (bytes : QByteArray) (position : Nat) : Prop where
  bytePos : encoder.bytePos = position / encoder.bitsPerChar
  bitPos : encoder.bitPos = position % encoder.bitsPerChar
  bits : ∀ i, encoder.charBit i = (decide (i < position) && byteBit bytes i)
  chars_lt : ∀ char ∈ encoder.outBuf, char.toNat < 2 ^ encoder.bitsPerChar

/-- Filling in the rest of a character. -/
theorem charBit_set {encoder : BaseNEncoder} {bytePos b shift : Nat} {char : UInt8}
    (hchar : encoder.outBuf[bytePos]? = some char) (hb : b < 256) (i : Nat) :
    charBit { encoder with
        outBuf := encoder.outBuf.set bytePos (char ||| UInt8.ofNat (b >>> shift)) } i =
      (encoder.charBit i || (decide (i / encoder.bitsPerChar = bytePos) &&
        b.testBit (shift + (encoder.bitsPerChar - 1 - i % encoder.bitsPerChar)))) := by
  obtain ⟨hlt, hget⟩ := List.getElem?_eq_some_iff.mp hchar
  have hsmall : b >>> shift < 2 ^ 8 := by
    rw [Nat.shiftRight_eq_div_pow]
    exact (Nat.div_le_self _ _).trans_lt hb
  simp only [charBit, List.getD_eq_getElem?_getD, List.getElem?_set]
  by_cases hplace : bytePos = i / encoder.bitsPerChar
  · rw [if_pos hplace, if_pos hlt, ← hplace, hchar]
    simp only [Option.getD_some, UInt8.toNat_or, UInt8.toNat_ofNat', Nat.mod_eq_of_lt hsmall,
      Nat.testBit_or, Nat.testBit_shiftRight, decide_true, Bool.true_and]
  · rw [if_neg hplace, decide_eq_false (Ne.symm hplace), Bool.false_and, Bool.or_false]

theorem bytePos_lt {encoder : BaseNEncoder} {position : Nat}
    (hroom : position < encoder.outBuf.length * encoder.bitsPerChar) :
    position / encoder.bitsPerChar < encoder.outBuf.length :=
  (Nat.div_lt_iff_lt_mul encoder.bitsPerChar_pos).mpr hroom

/-- The bits of a byte that are left once some have been spread. -/
theorem testBit_left {byte used t : Nat} (ht : t < 8) :
    ((byte <<< used) % 256).testBit t = (decide (used ≤ t) && byte.testBit (t - used)) := by
  have hmod : (256 : Nat) = 2 ^ 8 := rfl
  rw [hmod, Nat.testBit_mod_two_pow, Nat.testBit_shiftLeft, decide_eq_true ht, Bool.true_and]

/-- What no put changes. -/
structure Same (encoder next : BaseNEncoder) : Prop where
  alphabet : next.alphabet = encoder.alphabet
  padding : next.padding = encoder.padding
  bitsPerChar : next.bitsPerChar = encoder.bitsPerChar
  length_outBuf : next.outBuf.length = encoder.outBuf.length

theorem Same.trans {first second third : BaseNEncoder} (h : Same first second)
    (h' : Same second third) : Same first third where
  alphabet := h'.alphabet.trans h.alphabet
  padding := h'.padding.trans h.padding
  bitsPerChar := h'.bitsPerChar.trans h.bitsPerChar
  length_outBuf := h'.length_outBuf.trans h.length_outBuf

/-- The bits of the current byte reach to the end of the current character. -/
theorem charBit_filled {encoder : BaseNEncoder} {held : QByteArray} {byte char : UInt8}
    {used : Nat} (h : encoder.Spread (held ++ [byte]) (8 * held.length + used)) (hused : used < 8)
    (hchar : encoder.outBuf[encoder.bytePos]? = some char) (i : Nat) :
    charBit { encoder with
        outBuf := encoder.outBuf.set encoder.bytePos (char ||| UInt8.ofNat
          (((byte.toNat <<< used) % 256) >>> (8 - (encoder.bitsPerChar - encoder.bitPos)))) } i =
      (decide (i < (encoder.bytePos + 1) * encoder.bitsPerChar) &&
        byteBit (held ++ [byte]) i) := by
  have hpos := encoder.bitsPerChar_pos
  have hlt := encoder.bitsPerChar_lt
  have hposition := Nat.div_add_mod (8 * held.length + used) encoder.bitsPerChar
  rw [← h.bytePos, ← h.bitPos] at hposition
  have hbitPos : encoder.bitPos < encoder.bitsPerChar := by
    rw [h.bitPos]
    exact Nat.mod_lt _ hpos
  have hi := Nat.div_add_mod i encoder.bitsPerChar
  have himod := Nat.mod_lt i hpos
  have hnext : (encoder.bytePos + 1) * encoder.bitsPerChar =
      encoder.bitsPerChar * encoder.bytePos + encoder.bitsPerChar := by
    rw [Nat.mul_comm, Nat.mul_succ]
  rw [charBit_set hchar (Nat.mod_lt _ (by decide)), h.bits, hnext]
  by_cases hplace : i / encoder.bitsPerChar = encoder.bytePos
  · rw [hplace] at hi
    have hinside : decide (i < encoder.bitsPerChar * encoder.bytePos + encoder.bitsPerChar) =
        true := decide_eq_true (by omega)
    rw [decide_eq_true hplace, Bool.true_and, hinside, Bool.true_and]
    by_cases hbefore : i < 8 * held.length + used
    · rw [decide_eq_true hbefore, Bool.true_and, Nat.testBit_lt_two_pow, Bool.or_false]
      have hmod : (byte.toNat <<< used) % 256 < 2 ^ 8 := Nat.mod_lt _ (by decide)
      exact hmod.trans_le (Nat.pow_le_pow_right Nat.zero_lt_two (by omega))
    · obtain ⟨offset, rfl⟩ := Nat.exists_eq_add_of_le (Nat.not_lt.mp hbefore)
      have hbit : 8 - (encoder.bitsPerChar - encoder.bitPos) + (encoder.bitsPerChar - 1 -
          (8 * held.length + used + offset) % encoder.bitsPerChar) = 7 - offset := by
        omega
      rw [decide_eq_false (Nat.not_lt.mpr (Nat.le_add_right _ _)), Bool.false_and, Bool.false_or,
        hbit, testBit_left (by omega), Nat.add_assoc, byteBit_append_right]
      by_cases hinside : used + offset < 8
      · rw [decide_eq_true (by omega), Bool.true_and, byteBit, Nat.div_eq_of_lt hinside,
          Nat.mod_eq_of_lt hinside, List.getD_cons_zero]
        congr 1
        omega
      · rw [decide_eq_false (by omega), Bool.false_and,
          byteBit_of_le (by rw [List.length_singleton]; omega)]
  · rw [decide_eq_false hplace, Bool.false_and, Bool.or_false]
    congr 1
    rw [decide_eq_decide]
    refine ⟨fun hbefore => by omega, fun hbefore => ?_⟩
    have hle : i / encoder.bitsPerChar < encoder.bytePos + 1 :=
      (Nat.div_lt_iff_lt_mul hpos).mpr (hnext ▸ hbefore)
    have hbeforeChar : i < encoder.bytePos * encoder.bitsPerChar :=
      (Nat.div_lt_iff_lt_mul hpos).mp (by omega)
    rw [Nat.mul_comm] at hbeforeChar
    omega

theorem chars_lt_filled {encoder : BaseNEncoder} {bytes : QByteArray} {position b : Nat}
    {char : UInt8} (h : encoder.Spread bytes position)
    (hchar : encoder.outBuf[encoder.bytePos]? = some char) (hb : b < 256) :
    ∀ other ∈ encoder.outBuf.set encoder.bytePos (char ||| UInt8.ofNat
        (b >>> (8 - (encoder.bitsPerChar - encoder.bitPos)))),
      other.toNat < 2 ^ encoder.bitsPerChar := by
  intro other hother
  have hlt := encoder.bitsPerChar_lt
  rcases List.mem_or_eq_of_mem_set hother with hold | rfl
  · exact h.chars_lt other hold
  · have hshift : b >>> (8 - (encoder.bitsPerChar - encoder.bitPos)) <
        2 ^ (encoder.bitsPerChar - encoder.bitPos) := by
      rw [Nat.shiftRight_eq_div_pow]
      apply Nat.div_lt_of_lt_mul
      rw [← Nat.pow_add, Nat.sub_add_cancel (by omega)]
      exact hb
    have hsmall : b >>> (8 - (encoder.bitsPerChar - encoder.bitPos)) < 2 ^ encoder.bitsPerChar :=
      hshift.trans_le (Nat.pow_le_pow_right Nat.zero_lt_two (Nat.sub_le _ _))
    have hbyte : 2 ^ encoder.bitsPerChar ≤ 2 ^ 8 :=
      Nat.pow_le_pow_right Nat.zero_lt_two hlt.le
    rw [UInt8.toNat_or, UInt8.toNat_ofNat', Nat.mod_eq_of_lt (hsmall.trans_le hbyte)]
    exact Nat.or_lt_two_pow (h.chars_lt char (List.mem_of_getElem? hchar)) hsmall

/-- All bits of a byte are spread, and nothing is written outside the buffer. -/
theorem spread_spec {encoder : BaseNEncoder} {held : QByteArray} {byte : UInt8} {used fuel : Nat}
    (h : encoder.Spread (held ++ [byte]) (8 * held.length + used)) (hused : used < 8)
    (hfuel : 8 - used ≤ fuel)
    (hroom : 8 * (held.length + 1) ≤ encoder.outBuf.length * encoder.bitsPerChar) :
    ∃ next, spread fuel encoder ((byte.toNat <<< used) % 256) (8 - used) = .ok next ∧
      next.Spread (held ++ [byte]) (8 * (held.length + 1)) ∧ encoder.Same next := by
  induction fuel generalizing encoder used with
  | zero => omega
  | succ fuel ih =>
      have hpos := encoder.bitsPerChar_pos
      have hposition := Nat.div_add_mod (8 * held.length + used) encoder.bitsPerChar
      rw [← h.bytePos, ← h.bitPos] at hposition
      have hbitPos : encoder.bitPos < encoder.bitsPerChar := by
        rw [h.bitPos]
        exact Nat.mod_lt _ hpos
      have hbytePos : encoder.bytePos < encoder.outBuf.length := by
        rw [h.bytePos]
        exact bytePos_lt (by omega)
      obtain ⟨char, hchar⟩ : ∃ char, encoder.outBuf[encoder.bytePos]? = some char :=
        ⟨_, List.getElem?_eq_getElem hbytePos⟩
      have hbits := charBit_filled h hused hchar
      have hchars := chars_lt_filled h hchar (Nat.mod_lt (byte.toNat <<< used) (by decide))
      rw [spread, hchar]
      simp only
      generalize hfilled : encoder.outBuf.set encoder.bytePos (char ||| UInt8.ofNat
        (((byte.toNat <<< used) % 256) >>> (8 - (encoder.bitsPerChar - encoder.bitPos)))) = outBuf
        at hbits hchars ⊢
      have hlength : outBuf.length = encoder.outBuf.length := by
        rw [← hfilled, List.length_set]
      have hend : 8 * held.length + used + (encoder.bitsPerChar - encoder.bitPos) =
          (encoder.bytePos + 1) * encoder.bitsPerChar := by
        rw [Nat.mul_comm (encoder.bytePos + 1), Nat.mul_succ]
        omega
      split
      next hfull =>
        have hnext : Spread { encoder with outBuf, bitPos := 0, bytePos := encoder.bytePos + 1 }
            (held ++ [byte])
            (8 * held.length + (used + (encoder.bitsPerChar - encoder.bitPos))) := by
          rw [← Nat.add_assoc, hend]
          exact ⟨(Nat.mul_div_cancel _ hpos).symm, (Nat.mul_mod_left _ _).symm, hbits, hchars⟩
        split
        next hlast =>
          have hwhole : 8 * held.length + (used + (encoder.bitsPerChar - encoder.bitPos)) =
              8 * (held.length + 1) := by
            omega
          exact ⟨_, rfl, hwhole ▸ hnext, rfl, rfl, rfl, hlength⟩
        next hmore =>
          obtain ⟨next, hrest, hspread, hsame⟩ :=
            ih hnext (by omega) (by omega) (by simp only [hlength]; exact hroom)
          have hshift : (((byte.toNat <<< used) % 256) <<< (encoder.bitsPerChar - encoder.bitPos)) %
              256 = (byte.toNat <<< (used + (encoder.bitsPerChar - encoder.bitPos))) % 256 := by
            rw [Nat.shiftLeft_eq, Nat.mod_mul_mod, ← Nat.shiftLeft_eq, ← Nat.shiftLeft_add]
          have hfirst : encoder.Same
              { encoder with outBuf, bitPos := 0, bytePos := encoder.bytePos + 1 } :=
            ⟨rfl, rfl, rfl, hlength⟩
          refine ⟨next, ?_, hspread, hfirst.trans hsame⟩
          rw [hshift, Nat.sub_sub]
          exact hrest
      next hpart =>
        refine ⟨_, rfl, ⟨?_, ?_, ?_, hchars⟩, rfl, rfl, rfl, hlength⟩
        · have hwhole : 8 * (held.length + 1) =
              encoder.bitsPerChar * encoder.bytePos + (encoder.bitPos + (8 - used)) := by
            omega
          rw [hwhole, Nat.mul_add_div hpos, Nat.div_eq_of_lt (by omega), Nat.add_zero]
        · have hwhole : 8 * (held.length + 1) =
              encoder.bitsPerChar * encoder.bytePos + (encoder.bitPos + (8 - used)) := by
            omega
          rw [hwhole, Nat.mul_add_mod, Nat.mod_eq_of_lt (by omega)]
        · intro i
          refine (hbits i).trans ?_
          by_cases hafter : 8 * (held.length + 1) ≤ i
          · rw [byteBit_of_le (by rw [List.length_append, List.length_singleton]; exact hafter),
              Bool.and_false, Bool.and_false]
          · rw [decide_eq_true (by omega), decide_eq_true (by omega)]

/-! ## Blocks -/

/-- A block is a whole number of bytes. -/
theorem dvd_blockBits : ∀ bitsPerChar < 8, 0 < bitsPerChar →
    8 ∣ outputBlockSize bitsPerChar * bitsPerChar ∧ 0 < outputBlockSize bitsPerChar := by
  decide

/-- The bytes of a block that is not full have been spread. -/
structure Holds (encoder : BaseNEncoder) (held : QByteArray) : Prop where
  length_outBuf : encoder.outBuf.length = outputBlockSize encoder.bitsPerChar
  room : 8 * held.length < outputBlockSize encoder.bitsPerChar * encoder.bitsPerChar
  bytePos : encoder.bytePos = 8 * held.length / encoder.bitsPerChar
  bitPos : encoder.bitPos = 8 * held.length % encoder.bitsPerChar
  spread : encoder.bytePos ≠ 0 → encoder.Spread held (8 * held.length)
  alphabet : 2 ^ encoder.bitsPerChar ≤ encoder.alphabet.length

/-- The characters for a list of values. -/
def encodeGroups (encoder : BaseNEncoder) (values : List Nat) : QByteArray :=
  values.map fun value => encoder.alphabet.getD value 0

theorem mapM_eq_ok {α β : Type} {f : α → Except Fault β} {g : α → β} {items : List α}
    (h : ∀ item ∈ items, f item = .ok (g item)) : items.mapM f = .ok (items.map g) := by
  induction items with
  | nil => rfl
  | cons item rest ih =>
      rw [List.mapM_cons, h item List.mem_cons_self,
        ih fun other hother => h other (List.mem_cons_of_mem _ hother)]
      rfl

/-- The values in the buffer are the groups of bits. -/
theorem characters_eq {encoder : BaseNEncoder} {bytes : QByteArray} {position count : Nat}
    (hbits : ∀ i, encoder.charBit i = (decide (i < position) && byteBit bytes i))
    (hchars : ∀ char ∈ encoder.outBuf, char.toNat < 2 ^ encoder.bitsPerChar)
    (hcount : encoder.bytePos = count) (hgroups : (groups encoder.bitsPerChar bytes).length = count)
    (hroom : count ≤ encoder.outBuf.length) (hposition : 8 * bytes.length ≤ position)
    (halphabet : 2 ^ encoder.bitsPerChar ≤ encoder.alphabet.length) :
    encoder.characters = .ok (encoder.encodeGroups (groups encoder.bitsPerChar bytes)) := by
  have hpos := encoder.bitsPerChar_pos
  have hvalues : (encoder.outBuf.take encoder.bytePos).map UInt8.toNat =
      groups encoder.bitsPerChar bytes := by
    apply List.ext_getElem
    · rw [List.length_map, List.length_take, hcount, hgroups, min_eq_left hroom]
    intro j hj hj'
    rw [hgroups] at hj'
    rw [List.getElem_map, List.getElem_take, getElem_groups]
    apply eq_ofBits (hchars _ (List.getElem_mem _))
    intro i hi
    have hbit := hbits (j * encoder.bitsPerChar + i)
    have hdiv : (j * encoder.bitsPerChar + i) / encoder.bitsPerChar = j := by
      rw [Nat.mul_comm, Nat.mul_add_div hpos, Nat.div_eq_of_lt hi, Nat.add_zero]
    have hmod : (j * encoder.bitsPerChar + i) % encoder.bitsPerChar = i := by
      rw [Nat.mul_comm, Nat.mul_add_mod, Nat.mod_eq_of_lt hi]
    rw [charBit, hdiv, hmod, List.getD_eq_getElem _ _ (hj'.trans_le hroom)] at hbit
    rw [hbit]
    by_cases hbefore : j * encoder.bitsPerChar + i < position
    · rw [decide_eq_true hbefore, Bool.true_and]
    · rw [decide_eq_false hbefore, Bool.false_and, byteBit_of_le (by omega)]
  rw [characters, encodeGroups, ← hvalues, List.map_map]
  apply mapM_eq_ok
  intro value hvalue
  have hlt := (hchars value (List.mem_of_mem_take hvalue)).trans_le halphabet
  rw [List.getElem?_eq_getElem hlt, Function.comp_apply, List.getD_eq_getElem _ _ hlt]

/-- The buffer as the next byte finds it. -/
theorem spread_start {encoder : BaseNEncoder} {held : QByteArray} (h : encoder.Holds held)
    (byte : UInt8) {started : BaseNEncoder}
    (hstarted : (if encoder.bytePos = 0 then
      { encoder with outBuf := List.replicate encoder.outBuf.length 0 } else encoder) = started) :
    started.Spread (held ++ [byte]) (8 * held.length + 0) ∧ encoder.Same started := by
  have hpos := encoder.bitsPerChar_pos
  have hlt := encoder.bitsPerChar_lt
  split at hstarted
  next hzero =>
    subst hstarted
    have hempty : held = [] := by
      apply List.eq_nil_of_length_eq_zero
      have hsmall : 8 * held.length < encoder.bitsPerChar := by
        rw [← Nat.div_eq_zero_iff_lt hpos, ← h.bytePos, hzero]
      omega
    subst hempty
    refine ⟨⟨?_, h.bitPos, ?_, ?_⟩, rfl, rfl, rfl, List.length_replicate⟩
    · exact h.bytePos
    · intro i
      rw [charBit, decide_eq_false (by simp), Bool.false_and]
      simp only [List.getD_eq_getElem?_getD, List.getElem?_replicate]
      split <;> exact Nat.zero_testBit _
    · intro char hchar
      rw [List.eq_of_mem_replicate hchar]
      exact Nat.two_pow_pos _
  next hmore =>
    subst hstarted
    obtain ⟨hbytePos, hbitPos, hbits, hchars⟩ := h.spread hmore
    refine ⟨⟨hbytePos, hbitPos, ?_, hchars⟩, rfl, rfl, rfl, rfl⟩
    intro i
    rw [hbits, Nat.add_zero]
    by_cases hi : i < 8 * held.length
    · rw [byteBit_append_left hi]
    · rw [decide_eq_false hi, Bool.false_and, Bool.false_and]

/-- The filter when no block is under way. -/
theorem holds_nil {encoder : BaseNEncoder}
    (hlength : encoder.outBuf.length = outputBlockSize encoder.bitsPerChar)
    (halphabet : 2 ^ encoder.bitsPerChar ≤ encoder.alphabet.length) (hbytePos : encoder.bytePos = 0)
    (hbitPos : encoder.bitPos = 0) : encoder.Holds [] where
  length_outBuf := hlength
  room := Nat.mul_pos (dvd_blockBits _ encoder.bitsPerChar_lt encoder.bitsPerChar_pos).2
    encoder.bitsPerChar_pos
  bytePos := hbytePos.trans (Nat.zero_div _).symm
  bitPos := hbitPos.trans (Nat.zero_mod _).symm
  spread := fun hne => absurd hbytePos hne
  alphabet := halphabet

theorem length_groups_of_dvd {width count : Nat} {bytes : QByteArray} (hwidth : 0 < width)
    (hlength : 8 * bytes.length = count * width) : (groups width bytes).length = count := by
  rw [length_groups, hlength, Nat.add_sub_assoc hwidth, Nat.mul_comm, Nat.mul_add_div hwidth,
    Nat.div_eq_of_lt (by omega), Nat.add_zero]

/-- One byte: either the block is still not full, or its characters are put out. -/
theorem putByte_holds {encoder : BaseNEncoder} {held : QByteArray} (h : encoder.Holds held)
    (byte : UInt8) :
    ∃ pieces next rest, encoder.putByte byte = .ok (pieces, next) ∧ next.Holds rest ∧
      encoder.Same next ∧
      ((pieces = [] ∧ rest = held ++ [byte]) ∨
        (rest = [] ∧ 8 * (held ++ [byte]).length =
            outputBlockSize encoder.bitsPerChar * encoder.bitsPerChar ∧
          pieces = [encoder.encodeGroups (groups encoder.bitsPerChar (held ++ [byte]))])) := by
  have hpos := encoder.bitsPerChar_pos
  have hroom := h.room
  obtain ⟨hdvd, hsize⟩ := dvd_blockBits _ encoder.bitsPerChar_lt hpos
  rw [putByte]
  generalize hstarted : (if encoder.bytePos = 0 then
    { encoder with outBuf := List.replicate encoder.outBuf.length 0 } else encoder) = started
  obtain ⟨hstart, hsame⟩ := spread_start h byte hstarted
  have hroom' : 8 * (held.length + 1) ≤ started.outBuf.length * started.bitsPerChar := by
    rw [hsame.length_outBuf, hsame.bitsPerChar, h.length_outBuf]
    omega
  obtain ⟨next, hspread, hnext, hsame'⟩ := @spread_spec started held byte 0 8 hstart (by decide)
    le_rfl hroom'
  have hboth := hsame.trans hsame'
  have hbyte : (byte.toNat <<< 0) % 256 = byte.toNat := Nat.mod_eq_of_lt byte.toNat_lt
  rw [hbyte] at hspread
  have hlength : (held ++ [byte]).length = held.length + 1 := List.length_append
  have hbytePos := hnext.bytePos
  have hbitPos := hnext.bitPos
  rw [hboth.bitsPerChar] at hbytePos hbitPos
  have halphabet : 2 ^ next.bitsPerChar ≤ next.alphabet.length := by
    rw [hboth.bitsPerChar, hboth.alphabet]
    exact h.alphabet
  have hnextLength : next.outBuf.length = outputBlockSize next.bitsPerChar := by
    rw [hboth.length_outBuf, hboth.bitsPerChar, h.length_outBuf]
  by_cases hfull : next.bytePos = outputBlockSize next.bitsPerChar
  · have hwhole : 8 * (held ++ [byte]).length =
        outputBlockSize encoder.bitsPerChar * encoder.bitsPerChar := by
      have hle := Nat.div_mul_le_self (8 * (held.length + 1)) encoder.bitsPerChar
      rw [← hbytePos, hfull, hboth.bitsPerChar] at hle
      rw [hlength]
      omega
    have hcharacters := characters_eq hnext.bits hnext.chars_lt hfull
      (by rw [hboth.bitsPerChar]; exact length_groups_of_dvd hpos hwhole)
      hnextLength.ge (by rw [hlength]) halphabet
    have hsame'' : encoder.Same { next with bytePos := 0, bitPos := 0 } :=
      ⟨hboth.alphabet, hboth.padding, hboth.bitsPerChar, hboth.length_outBuf⟩
    rw [encodeGroups, hboth.alphabet, hboth.bitsPerChar] at hcharacters
    refine ⟨_, { next with bytePos := 0, bitPos := 0 }, [], ?_,
      holds_nil hnextLength halphabet rfl rfl, hsame'', .inr ⟨rfl, hwhole, rfl⟩⟩
    refine bind_eq_ok.mpr ⟨next, hspread, ?_⟩
    rw [if_pos hfull]
    exact bind_eq_ok.mpr ⟨_, hcharacters, rfl⟩
  · refine ⟨[], next, held ++ [byte], ?_, ?_, hboth, .inl ⟨rfl, rfl⟩⟩
    · refine bind_eq_ok.mpr ⟨next, hspread, ?_⟩
      rw [if_neg hfull]
      rfl
    constructor
    · exact hnextLength
    · rw [hboth.bitsPerChar] at hfull ⊢
      rw [hlength]
      apply lt_of_le_of_ne (by omega)
      intro heq
      rw [hbytePos, heq, Nat.mul_div_cancel _ hpos] at hfull
      exact hfull rfl
    · rw [hboth.bitsPerChar, hlength]
      exact hbytePos
    · rw [hboth.bitsPerChar, hlength]
      exact hbitPos
    · intro _
      rw [hlength]
      exact hnext
    · exact halphabet

/-! ## Messages -/

/-- The text for a message: a character for each group of bits, and padding to a
whole number of blocks. -/
def encode (encoder : BaseNEncoder) (message : QByteArray) : QByteArray :=
  let text := encoder.encodeGroups (groups encoder.bitsPerChar message)
  match encoder.padding with
  | none => text
  | some padding =>
      text ++ List.replicate ((outputBlockSize encoder.bitsPerChar -
        text.length % outputBlockSize encoder.bitsPerChar) %
          outputBlockSize encoder.bitsPerChar) padding

/-- What has been put out of a message, and what is held. -/
structure Encodes (start : BaseNEncoder) (message : QByteArray) (output : QByteArray)
    (encoder : BaseNEncoder) : Prop where
  same : start.Same encoder
  split : ∃ done held, message = done ++ held ∧
    outputBlockSize start.bitsPerChar * start.bitsPerChar ∣ 8 * done.length ∧
    output = start.encodeGroups (groups start.bitsPerChar done) ∧ encoder.Holds held

theorem Encodes.putBytes {start encoder : BaseNEncoder} {message output : QByteArray}
    (h : start.Encodes message output encoder) (bytes : QByteArray) :
    ∃ pieces next, encoder.putBytes bytes = .ok (pieces, next) ∧
      start.Encodes (message ++ bytes) (output ++ pieces.flatten) next := by
  induction bytes generalizing message output encoder with
  | nil =>
      refine ⟨[], encoder, rfl, ?_⟩
      rw [List.flatten_nil, List.append_nil, List.append_nil]
      exact h
  | cons byte rest ih =>
      obtain ⟨done, held, rfl, hdone, rfl, hholds⟩ := h.split
      obtain ⟨pieces, next, held', hput, hholds', hsame, hcases⟩ := putByte_holds hholds byte
      have hpos := start.bitsPerChar_pos
      have hnext : start.Encodes (done ++ held ++ [byte])
          (start.encodeGroups (groups start.bitsPerChar done) ++ pieces.flatten) next := by
        refine ⟨h.same.trans hsame, ?_⟩
        rcases hcases with ⟨rfl, rfl⟩ | ⟨rfl, hwhole, rfl⟩
        · refine ⟨done, held ++ [byte], List.append_assoc _ _ _, hdone, ?_, hholds'⟩
          rw [List.flatten_nil, List.append_nil]
        · rw [h.same.bitsPerChar] at hwhole
          have hdvd : start.bitsPerChar ∣ 8 * done.length :=
            Nat.dvd_trans (Nat.dvd_mul_left _ _) hdone
          refine ⟨done ++ (held ++ [byte]), [], ?_, ?_, ?_, hholds'⟩
          · rw [List.append_nil, List.append_assoc]
          · rw [List.length_append, Nat.mul_add, hwhole]
            exact Nat.dvd_add hdone (Nat.dvd_refl _)
          · rw [groups_append hpos hdvd, List.flatten_singleton, encodeGroups, encodeGroups,
              encodeGroups, h.same.alphabet, h.same.bitsPerChar, List.map_append]
      obtain ⟨others, last, hrest, hlast⟩ := ih hnext
      refine ⟨pieces ++ others, last, ?_, ?_⟩
      · exact bind_eq_ok.mpr ⟨_, hput, bind_eq_ok.mpr ⟨_, hrest, rfl⟩⟩
      · rw [List.append_assoc (done ++ held)] at hlast
        rw [List.flatten_append, ← List.append_assoc]
        exact hlast

theorem length_encodeGroups (encoder : BaseNEncoder) (values : List Nat) :
    (encoder.encodeGroups values).length = values.length :=
  List.length_map _

/-- What the end of a message puts out. -/
theorem Encodes.endMessage {start encoder : BaseNEncoder} {message output : QByteArray}
    (h : start.Encodes message output encoder) :
    ∃ last next, encoder.endMessage = .ok (last, next) ∧
      output ++ last = start.encode message ∧ start.Encodes [] [] next := by
  obtain ⟨done, held, rfl, hdone, rfl, hholds⟩ := h.split
  have hpos := encoder.bitsPerChar_pos
  have hroom := hholds.room
  have hlt := encoder.bitsPerChar_lt
  have hdvd := (dvd_blockBits _ hlt hpos).1
  have hdiv := Nat.div_add_mod (8 * held.length) encoder.bitsPerChar
  have hmod := Nat.mod_lt (8 * held.length) hpos
  rw [← hholds.bytePos, ← hholds.bitPos] at hdiv
  rw [← hholds.bitPos] at hmod
  generalize hcount : (groups encoder.bitsPerChar held).length = count
  have hceil : count = (8 * held.length + encoder.bitsPerChar - 1) / encoder.bitsPerChar :=
    hcount.symm.trans (length_groups _ _)
  have hcountLt : count < outputBlockSize encoder.bitsPerChar := by
    rw [hceil, Nat.div_lt_iff_lt_mul hpos]
    omega
  -- A character that has been begun counts.
  have hbegun : (if 0 < encoder.bitPos then { encoder with bytePos := encoder.bytePos + 1 }
      else encoder) = { encoder with bytePos := count } := by
    rw [hceil, ← hdiv, Nat.add_assoc, Nat.add_sub_assoc (by omega), Nat.mul_add_div hpos]
    split
    next hbits =>
      have hone : (encoder.bitPos + encoder.bitsPerChar - 1) / encoder.bitsPerChar = 1 :=
        Nat.div_eq_of_lt_le (by omega) (by omega)
      rw [hone]
    next hbits => rw [Nat.div_eq_of_lt (by omega), Nat.add_zero]
  have hcharacters : ({ encoder with bytePos := count } : BaseNEncoder).characters =
      .ok (encoder.encodeGroups (groups encoder.bitsPerChar held)) := by
    by_cases hzero : count = 0
    · have hnone : groups encoder.bitsPerChar held = [] :=
        List.eq_nil_of_length_eq_zero (hcount.trans hzero)
      rw [characters, hzero, hnone]
      rfl
    · have hheld : encoder.bytePos ≠ 0 := by
        intro hbytePos
        rw [hbytePos, Nat.mul_zero, Nat.zero_add] at hdiv
        have hnil : held.length = 0 := by omega
        rw [hnil, Nat.mul_zero, Nat.zero_add, Nat.div_eq_of_lt (by omega)] at hceil
        exact hzero hceil
      have hspread := hholds.spread hheld
      exact @characters_eq { encoder with bytePos := count } held _ count hspread.bits
        hspread.chars_lt rfl hcount (hholds.length_outBuf ▸ hcountLt.le) le_rfl hholds.alphabet
  obtain ⟨blocks, hblocks⟩ := hdone
  have hdoneLength : (groups start.bitsPerChar done).length =
      outputBlockSize start.bitsPerChar * blocks := by
    apply length_groups_of_dvd start.bitsPerChar_pos
    rw [hblocks, Nat.mul_right_comm]
  have hgroups := @groups_append start.bitsPerChar start.bitsPerChar_pos done held
    (hblocks ▸ Nat.dvd_mul_right_of_dvd (Nat.dvd_mul_left _ _) _)
  have hnext : start.Encodes [] [] { encoder with bytePos := 0, bitPos := 0 } := by
    refine ⟨⟨h.same.alphabet, h.same.padding, h.same.bitsPerChar, h.same.length_outBuf⟩,
      [], [], rfl, Nat.dvd_zero _, ?_, ?_⟩
    · rw [groups, List.length_nil, Nat.mul_zero, Nat.zero_add,
        Nat.div_eq_of_lt (Nat.sub_lt start.bitsPerChar_pos Nat.one_pos)]
      rfl
    · exact holds_nil hholds.length_outBuf hholds.alphabet rfl rfl
  refine ⟨fillUp { encoder with bytePos := count }
    (encoder.encodeGroups (groups encoder.bitsPerChar held)),
    { encoder with bytePos := 0, bitPos := 0 }, ?_, ?_, hnext⟩
  · rw [BaseNEncoder.endMessage]
    simp only [hbegun]
    exact bind_eq_ok.mpr ⟨_, hcharacters, rfl⟩
  have htext : start.encodeGroups (groups start.bitsPerChar (done ++ held)) =
      start.encodeGroups (groups start.bitsPerChar done) ++
        encoder.encodeGroups (groups encoder.bitsPerChar held) := by
    rw [hgroups, encodeGroups, encodeGroups, encodeGroups, List.map_append, h.same.alphabet,
      h.same.bitsPerChar]
  have hlength : (start.encodeGroups (groups start.bitsPerChar (done ++ held))).length %
      outputBlockSize start.bitsPerChar = count := by
    rw [htext, List.length_append, length_encodeGroups, length_encodeGroups, hdoneLength, hcount,
      Nat.mul_add_mod, ← h.same.bitsPerChar, Nat.mod_eq_of_lt hcountLt]
  rw [encode, fillUp, ← h.same.padding]
  simp only [hlength]
  cases encoder.padding with
  | none => exact htext.symm
  | some padding =>
      simp only [htext, List.append_assoc]
      congr 1
      by_cases hzero : 0 < count
      · rw [if_pos hzero, ← h.same.bitsPerChar, Nat.mod_eq_of_lt (by omega)]
      · have hnone : count = 0 := by omega
        rw [if_neg hzero, hnone, Nat.sub_zero, Nat.mod_self, List.replicate_zero, List.append_nil]

end BaseNEncoder

end BBNotifier
