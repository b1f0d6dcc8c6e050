import BBNotifier.Crypto.AESWrapper
import BBNotifier.Cryptopp.BaseNEncoder
import BBNotifier.Cryptopp.FilterWithBufferedInput

/-! # The Base64 filter

`Base64Encoder` is a proxy for a `BaseN_Encoder` and the `Grouper` attached to
it. Whatever the puts a message arrives in, what comes out at the end is the
Base64 text of the message, broken into lines.
-/

namespace BBNotifier

open Foundation

structure Grouper where
  groupSize : Nat
  separator : QByteArray
  terminator : QByteArray
  counter : Nat

namespace Grouper

/-- The groups of some input. Each round puts out at least one byte of it. -/
def putGroups : Nat → Grouper → QByteArray → QByteArray × Grouper
  | 0, grouper, _ => ([], grouper)
  | fuel + 1, grouper, inString =>
      if 0 < inString.length then
        let full := grouper.counter = grouper.groupSize
        let counter := if full then 0 else grouper.counter
        let len := min inString.length (grouper.groupSize - counter)
        let rest := putGroups fuel { grouper with counter := counter + len } (inString.drop len)
        ((if full then grouper.separator else []) ++ inString.take len ++ rest.1, rest.2)
      else ([], grouper)

def put2 (grouper : Grouper) (begin : QByteArray) (messageEnd : Bool) : QByteArray × Grouper :=
  let (output, grouper) :=
    if grouper.groupSize ≠ 0 then putGroups begin.length grouper begin else (begin, grouper)
  if messageEnd then (output ++ grouper.terminator, { grouper with counter := 0 })
  else (output, grouper)

/-- A group that is not full takes bytes without a separator. -/
theorem grouper_append {groupSize counter : Nat} {separator terminator front : QByteArray}
    (hfits : counter + front.length ≤ groupSize) (rest : QByteArray) :
    AESKey.grouper groupSize separator terminator counter (front ++ rest) =
      front ++ AESKey.grouper groupSize separator terminator (counter + front.length) rest := by
  induction front generalizing counter with
  | nil => rfl
  | cons byte front ih =>
      rw [List.length_cons] at hfits
      rw [List.cons_append, AESKey.grouper, if_neg (by omega), ih (by omega), List.length_cons,
        Nat.add_right_comm, ← Nat.add_assoc]
      rfl

/-- A full group is followed by a separator as soon as there is another byte. -/
theorem grouper_of_full {groupSize : Nat} {separator terminator text : QByteArray}
    (hgroupSize : 0 < groupSize) (htext : text ≠ []) :
    AESKey.grouper groupSize separator terminator groupSize text =
      separator ++ AESKey.grouper groupSize separator terminator 0 text := by
  cases text with
  | nil => exact absurd rfl htext
  | cons byte rest => rw [AESKey.grouper, AESKey.grouper, if_pos rfl, if_neg hgroupSize.ne]

/-- Grouping a front of the text leaves the counter where the rest goes on. -/
structure Groups (grouper : Grouper) (front output : QByteArray) (next : Grouper) : Prop where
  groupSize : next.groupSize = grouper.groupSize
  separator : next.separator = grouper.separator
  terminator : next.terminator = grouper.terminator
  counter_le : next.counter ≤ grouper.groupSize
  output : ∀ rest, AESKey.grouper grouper.groupSize grouper.separator grouper.terminator
      grouper.counter (front ++ rest) =
    output ++ AESKey.grouper grouper.groupSize grouper.separator grouper.terminator
      next.counter rest

theorem groups_nil {grouper : Grouper} (h : grouper.counter ≤ grouper.groupSize) :
    grouper.Groups [] [] grouper :=
  ⟨rfl, rfl, rfl, h, fun _ => rfl⟩

theorem Groups.append {grouper middle next : Grouper} {front output front' output' : QByteArray}
    (h : grouper.Groups front output middle) (h' : middle.Groups front' output' next) :
    grouper.Groups (front ++ front') (output ++ output') next where
  groupSize := h'.groupSize.trans h.groupSize
  separator := h'.separator.trans h.separator
  terminator := h'.terminator.trans h.terminator
  counter_le := h'.counter_le.trans h.groupSize.le
  output := by
    intro rest
    have hrest := h'.output rest
    rw [h.groupSize, h.separator, h.terminator] at hrest
    rw [List.append_assoc, h.output, hrest, List.append_assoc]

theorem putGroups_groups {grouper : Grouper} (hgroupSize : 0 < grouper.groupSize)
    (hcounter : grouper.counter ≤ grouper.groupSize) {text : QByteArray} {fuel : Nat}
    (hfuel : text.length ≤ fuel) :
    grouper.Groups text (putGroups fuel grouper text).1 (putGroups fuel grouper text).2 := by
  induction fuel generalizing grouper text with
  | zero =>
      rw [List.eq_nil_of_length_eq_zero (Nat.le_zero.mp hfuel)]
      exact groups_nil hcounter
  | succ fuel ih =>
      simp only [putGroups]
      split
      next hmore =>
        have htext : text ≠ [] := List.ne_nil_of_length_pos hmore
        generalize hstart : (if grouper.counter = grouper.groupSize then 0 else grouper.counter) =
          counter
        have hlt : counter < grouper.groupSize := by
          rw [← hstart]
          split
          · exact hgroupSize
          next hpart => exact lt_of_le_of_ne hcounter hpart
        generalize hlen : min text.length (grouper.groupSize - counter) = len
        have htake : (text.take len).length = len := by
          rw [List.length_take]
          omega
        have hfirst : grouper.Groups (text.take len)
            ((if grouper.counter = grouper.groupSize then grouper.separator else []) ++
              text.take len) { grouper with counter := counter + len } := by
          refine ⟨rfl, rfl, rfl, by simp only; omega, fun rest => ?_⟩
          have hchunk := @grouper_append grouper.groupSize counter grouper.separator
            grouper.terminator (text.take len) (by omega) rest
          rw [htake] at hchunk
          simp only
          rw [List.append_assoc, ← hchunk, ← hstart]
          split
          next hfull =>
            have hne : text.take len ++ rest ≠ [] := by
              apply List.append_ne_nil_of_left_ne_nil
              exact List.ne_nil_of_length_pos (by omega)
            rw [hfull, grouper_of_full hgroupSize hne]
          · rfl
        have hrest := @ih { grouper with counter := counter + len } hgroupSize
          (by simp only; omega) (text.drop len) (by rw [List.length_drop]; omega)
        have hboth := hfirst.append hrest
        rw [List.take_append_drop] at hboth
        exact hboth
      next hnone =>
        rw [List.eq_nil_of_length_eq_zero (Nat.eq_zero_of_not_pos hnone)]
        exact groups_nil hcounter

end Grouper

/-- The filters behind the proxy, with the string they put into. -/
structure EncoderChain where
  encoder : BaseNEncoder
  grouper : Grouper
  output : QByteArray

namespace EncoderChain

def group (chain : EncoderChain) (piece : QByteArray) (messageEnd : Bool) : EncoderChain :=
  let result := chain.grouper.put2 piece messageEnd
  { chain with grouper := result.2, output := chain.output ++ result.1 }

def put (chain : EncoderChain) (inString : QByteArray) : Except Fault EncoderChain := do
  let (pieces, encoder) ← chain.encoder.putBytes inString
  return pieces.foldl (fun chain piece => chain.group piece false) { chain with encoder }

def messageEnd (chain : EncoderChain) : Except Fault EncoderChain := do
  let (last, encoder) ← chain.encoder.endMessage
  return group { chain with encoder } last true

/-- The calls that `SimpleProxyFilter` handles. It has no last block to pass on. -/
def call (chain : EncoderChain) : FilterWithBufferedInput.Call → Except Fault EncoderChain
  | .firstPut _ => .ok chain
  | .nextPut inString _ => chain.put inString
  | .lastPut _ => chain.messageEnd

/-- The sizes of `SimpleProxyFilter`. -/
def bufferSizes : BufferSizes where
  firstSize := 0
  blockSize := 1
  lastSize := 0
  blockSize_pos := Nat.one_pos

theorem bufferSizes_fits : bufferSizes.Fits where
  first := by decide
  ring := by decide

/-- What has come out for the part of a message that has been put in. -/
structure Puts (start : EncoderChain) (message : QByteArray) (chain : EncoderChain) : Prop where
  groupSize : 0 < start.grouper.groupSize
  text : ∃ text, start.encoder.Encodes message text chain.encoder ∧
    start.grouper.Groups text chain.output chain.grouper

/-- Pieces of the text go through the grouper. -/
theorem groups_foldl {grouper : Grouper} {text : QByteArray} {chain : EncoderChain}
    (hgroupSize : 0 < grouper.groupSize) (h : grouper.Groups text chain.output chain.grouper)
    (pieces : List QByteArray) {last : EncoderChain}
    (hlast : pieces.foldl (fun chain piece => chain.group piece false) chain = last) :
    grouper.Groups (text ++ pieces.flatten) last.output last.grouper ∧
      last.encoder = chain.encoder := by
  induction pieces generalizing text chain with
  | nil =>
      subst hlast
      rw [List.flatten_nil, List.append_nil]
      exact ⟨h, rfl⟩
  | cons piece rest ih =>
      have hpiece : grouper.Groups (text ++ piece) (chain.group piece false).output
          (chain.group piece false).grouper := by
        have hput := @Grouper.putGroups_groups chain.grouper (h.groupSize ▸ hgroupSize)
          (h.counter_le.trans h.groupSize.ge) piece _ le_rfl
        rw [group, Grouper.put2, if_pos (h.groupSize ▸ hgroupSize.ne')]
        exact h.append hput
      obtain ⟨hrest, hencoder⟩ := ih hpiece hlast
      rw [List.flatten_cons, ← List.append_assoc]
      exact ⟨hrest, hencoder⟩

theorem Puts.put {start chain : EncoderChain} {message : QByteArray}
    (h : start.Puts message chain) (inString : QByteArray) :
    ∃ next, chain.put inString = .ok next ∧ start.Puts (message ++ inString) next := by
  obtain ⟨text, hencodes, hgroups⟩ := h.text
  obtain ⟨pieces, encoder, hput, hencodes'⟩ := hencodes.putBytes inString
  obtain ⟨hgroups', hencoder⟩ :=
    @groups_foldl start.grouper text { chain with encoder } h.groupSize hgroups pieces _ rfl
  refine ⟨_, bind_eq_ok.mpr ⟨_, hput, rfl⟩, h.groupSize, text ++ pieces.flatten, ?_, hgroups'⟩
  rw [hencoder]
  exact hencodes'

/-- At the end of a message all of its text has come out, with the terminator. -/
theorem Puts.messageEnd {start chain : EncoderChain} {message : QByteArray}
    (h : start.Puts message chain) :
    ∃ last, chain.messageEnd = .ok last ∧ last.output =
      AESKey.grouper start.grouper.groupSize start.grouper.separator start.grouper.terminator
        start.grouper.counter (start.encoder.encode message) := by
  obtain ⟨text, hencodes, hgroups⟩ := h.text
  obtain ⟨piece, encoder, hend, htext, -⟩ := hencodes.endMessage
  refine ⟨_, bind_eq_ok.mpr ⟨_, hend, rfl⟩, ?_⟩
  have hput := @Grouper.putGroups_groups chain.grouper (hgroups.groupSize ▸ h.groupSize)
    (hgroups.counter_le.trans hgroups.groupSize.ge) piece _ le_rfl
  have houtput := (hgroups.append hput).output []
  rw [List.append_nil, htext, AESKey.grouper] at houtput
  rw [houtput, group, Grouper.put2, if_pos (hgroups.groupSize ▸ h.groupSize.ne')]
  simp only [if_true]
  rw [List.append_assoc, hgroups.terminator.symm, hput.terminator]

/-- The calls for the middle of a message, which is all of it. -/
theorem puts_of_pieces {start chain : EncoderChain} {done : QByteArray}
    (h : start.Puts done chain) (pieces : List (QByteArray × Bool)) :
    ∃ next, run call chain
        (pieces.map fun (piece, modifiable) => .nextPut piece modifiable) = .ok next ∧
      start.Puts (done ++ (pieces.map Prod.fst).flatten) next := by
  induction pieces generalizing done chain with
  | nil =>
      simp only [List.map_nil, List.flatten_nil, List.append_nil]
      exact ⟨chain, rfl, h⟩
  | cons piece rest ih =>
      obtain ⟨next, hput, hnext⟩ := h.put piece.1
      obtain ⟨last, hrest, hlast⟩ := ih hnext
      rw [List.map_cons, List.map_cons, List.flatten_cons, ← List.append_assoc, run,
        List.foldlM_cons]
      exact ⟨last, bind_eq_ok.mpr ⟨next, hput, hrest⟩, hlast⟩

/-- The calls made for a message. -/
theorem output_of_divides {start : EncoderChain} (hstart : start.Puts [] start)
    {message : QByteArray} {calls : List FilterWithBufferedInput.Call}
    (hdivides : FilterWithBufferedInput.Divides bufferSizes message calls) :
    ∃ last, run call start calls = .ok last ∧ last.output =
      AESKey.grouper start.grouper.groupSize start.grouper.separator start.grouper.terminator
        start.grouper.counter (start.encoder.encode message) := by
  cases hdivides with
  | short hshort => exact absurd hshort (Nat.not_lt_zero _)
  | long pieces _ _ hmiddle =>
      obtain ⟨chain, hrun, hputs⟩ := puts_of_pieces hstart pieces
      have hall : (message.drop bufferSizes.firstSize).take
          (FilterWithBufferedInput.middleSize bufferSizes message) = message := by
        apply List.take_of_length_le
        simp [FilterWithBufferedInput.middleSize, bufferSizes,
          FilterWithBufferedInput.roundDownToMultipleOf, Nat.mod_one]
      rw [hmiddle, hall, List.nil_append] at hputs
      obtain ⟨last, hend, houtput⟩ := hputs.messageEnd
      have hfront : run call start
          (FilterWithBufferedInput.frontCalls bufferSizes message pieces) = .ok chain := hrun
      exact ⟨last, run_snoc_eq_ok.mpr ⟨chain, hfront, hend⟩, houtput⟩

end EncoderChain

namespace Base64Encoder

/-- The alphabet. -/
def s_vec : QByteArray :=
  ['A', 'B', 'C', 'D', 'E', 'F', 'G', 'H', 'I', 'J', 'K', 'L', 'M', 'N', 'O', 'P', 'Q', 'R', 'S',
    'T', 'U', 'V', 'W', 'X', 'Y', 'Z', 'a', 'b', 'c', 'd', 'e', 'f', 'g', 'h', 'i', 'j', 'k', 'l',
    'm', 'n', 'o', 'p', 'q', 'r', 's', 't', 'u', 'v', 'w', 'x', 'y', 'z', '0', '1', '2', '3', '4',
    '5', '6', '7', '8', '9', '+', '/'].map fun c => UInt8.ofNat c.toNat

/-- `=`. -/
def s_padding : UInt8 := 61

/-- The filters as `IsolatedInitialize` sets them up by default. -/
def construct : EncoderChain where
  encoder := {
    alphabet := s_vec
    padding := some s_padding
    bitsPerChar := 6
    bitsPerChar_pos := by decide
    bitsPerChar_lt := by decide
    bytePos := 0
    bitPos := 0
    outBuf := List.replicate (BaseNEncoder.outputBlockSize 6) 0 }
  grouper := { groupSize := 72, separator := [10], terminator := [10], counter := 0 }
  output := []

/-- The width is one that the encoder accepts. -/
theorem isolatedInitialize_eq :
    BaseNEncoder.isolatedInitialize s_vec (some s_padding) 6 = some construct.encoder := rfl

def put : FilterWithBufferedInput × EncoderChain → FilterWithBufferedInput.Put →
    Except Fault (FilterWithBufferedInput × EncoderChain) :=
  FilterWithBufferedInput.putDerived id EncoderChain.call

theorem s_vec_eq_char : ∀ value < 64, s_vec.getD value 0 = Base64.char value := by decide

open Foundation.BitGroups

/-! The groups of six bits in up to three bytes. -/

theorem groups_one (a : UInt8) : groups 6 [a] = [a.toNat / 4, a.toNat % 4 * 16] := by
  have ha := a.toNat_lt
  simp [groups, group, ofBits, byteBit, List.range, List.range.loop, Nat.toNat_testBit,
    -Nat.testBit_zero]
  exact ⟨by omega, by omega⟩

theorem groups_two (a b : UInt8) :
    groups 6 [a, b] = [a.toNat / 4, a.toNat % 4 * 16 + b.toNat / 16, b.toNat % 16 * 4] := by
  have ha := a.toNat_lt
  have hb := b.toNat_lt
  simp [groups, group, ofBits, byteBit, List.range, List.range.loop, Nat.toNat_testBit,
    -Nat.testBit_zero]
  exact ⟨by omega, by omega, by omega⟩

theorem groups_three (a b c : UInt8) : groups 6 [a, b, c] =
    [a.toNat / 4, a.toNat % 4 * 16 + b.toNat / 16, b.toNat % 16 * 4 + c.toNat / 64,
      c.toNat % 64] := by
  have ha := a.toNat_lt
  have hb := b.toNat_lt
  have hc := c.toNat_lt
  simp [groups, group, ofBits, byteBit, List.range, List.range.loop, Nat.toNat_testBit,
    -Nat.testBit_zero]
  exact ⟨by omega, by omega, by omega, by omega⟩

theorem encodeGroups_eq {values : List Nat} (h : ∀ value ∈ values, value < 64) :
    construct.encoder.encodeGroups values = values.map Base64.char :=
  List.map_congr_left fun value hvalue => s_vec_eq_char value (h value hvalue)

/-- The encoder writes the Base64 text of a message. -/
theorem encode_eq (message : QByteArray) :
    construct.encoder.encode message = Base64.encode message := by
  have hencode : ∀ message, construct.encoder.encode message =
      construct.encoder.encodeGroups (groups 6 message) ++
        List.replicate ((4 - (groups 6 message).length % 4) % 4) Base64.padding := by
    intro message
    rw [BaseNEncoder.encode]
    simp only [BaseNEncoder.length_encodeGroups]
    rfl
  rw [hencode]
  induction message using Base64.encode.induct with
  | case1 => rfl
  | case2 a =>
      have ha := a.toNat_lt
      rw [groups_one, encodeGroups_eq (by simp; omega)]
      rfl
  | case3 a b =>
      have ha := a.toNat_lt
      have hb := b.toNat_lt
      rw [groups_two, encodeGroups_eq (by simp; omega)]
      rfl
  | case4 a b c rest ih =>
      have ha := a.toNat_lt
      have hb := b.toNat_lt
      have hc := c.toNat_lt
      have hsplit := @groups_append 6 (by decide) [a, b, c] rest (by simp)
      have hfirst := @encodeGroups_eq (groups 6 [a, b, c]) (by rw [groups_three]; simp; omega)
      have hlength : (groups 6 [a, b, c] ++ groups 6 rest).length % 4 =
          (groups 6 rest).length % 4 := by
        rw [List.length_append, groups_three]
        simp
      have happend : construct.encoder.encodeGroups (groups 6 [a, b, c] ++ groups 6 rest) =
          construct.encoder.encodeGroups (groups 6 [a, b, c]) ++
            construct.encoder.encodeGroups (groups 6 rest) := List.map_append
      rw [List.cons_append, List.cons_append, List.cons_append, List.nil_append] at hsplit
      rw [hsplit, hlength, happend, List.append_assoc, ih, hfirst, groups_three]
      rfl

theorem puts_construct : construct.Puts [] construct := by
  have hholds : construct.encoder.Holds [] :=
    BaseNEncoder.holds_nil rfl (by decide) rfl rfl
  refine ⟨by decide, [], ⟨⟨rfl, rfl, rfl, rfl⟩, [], [], rfl, Nat.dvd_zero _, rfl, hholds⟩, ?_⟩
  exact Grouper.groups_nil (Nat.zero_le _)

/-- Whatever puts a message arrives in, the filter gives its Base64 text in lines. -/
theorem output_eq_base64Encoder {puts : List FilterWithBufferedInput.Put} {message : QByteArray}
    (hmessage : FilterWithBufferedInput.messages puts = ([message], [])) :
    ∃ last, run put (.ofSizes EncoderChain.bufferSizes, construct) puts = .ok last ∧
      last.2.output = AESKey.base64Encoder message := by
  obtain ⟨calls, input, hdivides, hrun⟩ := FilterWithBufferedInput.divides_of_messages id
    EncoderChain.call EncoderChain.bufferSizes_fits construct hmessage
  obtain ⟨last, hcalls, houtput⟩ := EncoderChain.output_of_divides puts_construct hdivides
  rw [encode_eq] at houtput
  refine ⟨(input, last), ?_, houtput⟩
  rw [put, hrun, hcalls]
  rfl

/-- A key comes from a string source at once. -/
theorem output_eq_base64Encoder_zero_key :
    ∃ last, run put (.ofSizes EncoderChain.bufferSizes, construct)
        (FilterWithBufferedInput.stringSource (List.ofFn AESKey.zero.data)) = .ok last ∧
      last.2.output = AESKey.base64Encoder (List.ofFn AESKey.zero.data) :=
  output_eq_base64Encoder (FilterWithBufferedInput.messages_stringSource _)

end Base64Encoder

end BBNotifier
