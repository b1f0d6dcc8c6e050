import BBNotifier.Crypto.AESWrapper
import BBNotifier.Foundation.Reversal
import BBNotifier.Foundation.SubstitutionNetwork
import BBNotifier.Cryptopp.CBCDecryption
import BBNotifier.Cryptopp.RijndaelLayers

/-! # Rijndael

The key schedule of `Rijndael::Base::UncheckedSetKey` for keys of sixteen bytes,
and `ProcessAndXorBlock` of `Enc` and `Dec`, on a machine that keeps the low byte
of a word first. The key is four words for each round.
-/

namespace BBNotifier

open Foundation

namespace Rijndael

/-- Four words: a column of the block in each. -/
structure Words where
  w0 : BitVec 32
  w1 : BitVec 32
  w2 : BitVec 32
  w3 : BitVec 32

namespace Words

def word (words : Words) : Fin 4 → BitVec 32
  | 0 => words.w0
  | 1 => words.w1
  | 2 => words.w2
  | 3 => words.w3

def ofFn (word : Fin 4 → BitVec 32) : Words := ⟨word 0, word 1, word 2, word 3⟩

@[simp]
theorem word_ofFn (word : Fin 4 → BitVec 32) (c : Fin 4) : (ofFn word).word c = word c := by
  fin_cases c <;> rfl

/-- `words[a] ^= value`. -/
def xorAt (a : Fin 4) (value : BitVec 32) (words : Words) : Words :=
  match a with
  | 0 => { words with w0 := words.w0 ^^^ value }
  | 1 => { words with w1 := words.w1 ^^^ value }
  | 2 => { words with w2 := words.w2 ^^^ value }
  | 3 => { words with w3 := words.w3 ^^^ value }

theorem ext_word {s t : Words} (h : ∀ c, s.word c = t.word c) : s = t := by
  have h0 : s.w0 = t.w0 := h 0
  have h1 : s.w1 = t.w1 := h 1
  have h2 : s.w2 = t.w2 := h 2
  have h3 : s.w3 = t.w3 := h 3
  cases s
  cases t
  rw [mk.injEq]
  exact ⟨h0, h1, h2, h3⟩

theorem word_xorAt (a : Fin 4) (value : BitVec 32) (words : Words) (c : Fin 4) :
    (words.xorAt a value).word c = if c = a then words.word c ^^^ value else words.word c := by
  fin_cases a <;> fin_cases c <;> rfl

theorem xorAt_comm (a b : Fin 4) (value other : BitVec 32) (words : Words) :
    (words.xorAt a value).xorAt b other = (words.xorAt b other).xorAt a value := by
  apply ext_word
  intro c
  simp only [word_xorAt]
  split
  next => split <;> ac_rfl
  next => rfl

instance : XorOp Words := ⟨fun s t => ofFn fun c => s.word c ^^^ t.word c⟩

@[simp]
theorem word_xor (s t : Words) (c : Fin 4) : (s ^^^ t).word c = s.word c ^^^ t.word c :=
  word_ofFn _ _

/-- `ByteReverse`. -/
def byteReverse (value : BitVec 32) : BitVec 32 :=
  (((value &&& 0xFF00FF00#32) >>> 8) ||| ((value &&& 0x00FF00FF#32) <<< 8)).rotateLeft 16

/-- `ConditionalByteReverse` from the other byte order. -/
def reversed (words : Words) : Words := ofFn fun c => byteReverse (words.word c)

/-- The bytes of the columns, from the high byte of each word. -/
def rows (words : Words) : Block := ⟨fun i => getByte (words.word (column i)) (3 - row i)⟩

/-- `Block::Get`: the words as they lie in memory. -/
def get (block : Block) : Words := ofFn fun c =>
  (block.byte (place c 0)).toBitVec.setWidth 32 |||
    (block.byte (place c 1)).toBitVec.setWidth 32 <<< 8 |||
    (block.byte (place c 2)).toBitVec.setWidth 32 <<< 16 |||
    (block.byte (place c 3)).toBitVec.setWidth 32 <<< 24

/-- `Block::Put`, back into memory. -/
def put (words : Words) : Block := ⟨fun i => getByte (words.word (column i)) (row i)⟩

/-! The bytes of words. -/

theorem getByte_xor (x y : BitVec 32) (i : Nat) :
    getByte (x ^^^ y) i = getByte x i ^^^ getByte y i := by
  simp only [getByte, BitVec.ushiftRight_xor_distrib, BitVec.setWidth_xor, UInt8.ofBitVec_xor]

theorem getByte_byteReverse (x : BitVec 32) {r : Nat} (hr : r < 4) :
    getByte (byteReverse x) r = getByte x (3 - r) := by
  apply UInt8.eq_of_toBitVec_eq
  apply BitVec.eq_of_getLsbD_eq
  intro i hi
  interval_cases r
  all_goals
    simp only [getByte, byteReverse, BitVec.getLsbD_rotateLeft, BitVec.getLsbD_setWidth,
      BitVec.getLsbD_ushiftRight, BitVec.getLsbD_shiftLeft, BitVec.getLsbD_or,
      BitVec.getLsbD_and]
    interval_cases i <;> simp

theorem getByte_get (block : Block) (c r : Fin 4) :
    getByte ((get block).word c) r = block.byte (place c r) := by
  apply UInt8.eq_of_toBitVec_eq
  apply BitVec.eq_of_getLsbD_eq
  intro i hi
  fin_cases r
  all_goals
    simp only [getByte, get, word_ofFn, BitVec.getLsbD_setWidth, BitVec.getLsbD_ushiftRight,
      BitVec.getLsbD_shiftLeft, BitVec.getLsbD_or]
    interval_cases i <;> simp

theorem byte_rows (words : Words) (c r : Fin 4) :
    words.rows.byte (place c r) = getByte (words.word c) (3 - r) := by
  simp only [rows, column_place, row_place]

theorem byte_rows_reversed (words : Words) (c r : Fin 4) :
    words.reversed.rows.byte (place c r) = getByte (words.word c) r := by
  have hback : 3 - (3 - (r : Nat)) = r := Nat.sub_sub_self (Nat.le_of_lt_succ r.isLt)
  rw [byte_rows, reversed, word_ofFn, getByte_byteReverse _ (Nat.sub_lt_succ 3 r), hback]

theorem rows_reversed_get (block : Block) : (get block).reversed.rows = block := by
  apply block_ext
  intro c r
  rw [byte_rows_reversed, getByte_get]

theorem put_eq (words : Words) : words.put = words.reversed.rows := by
  apply block_ext
  intro c r
  simp only [byte_rows_reversed, put, column_place, row_place]

theorem rows_reversed_xor (s t : Words) :
    (s ^^^ t).reversed.rows = s.reversed.rows + t.reversed.rows := by
  apply block_ext
  intro c r
  simp only [Block.byte_add, byte_rows_reversed, word_xor, getByte_xor]

/-- Reversed twice, the bytes are as before. -/
theorem rows_reversed_reversed (words : Words) : words.reversed.reversed.rows = words.rows := by
  apply block_ext
  intro c r
  rw [byte_rows_reversed, byte_rows, reversed, word_ofFn, getByte_byteReverse _ r.isLt]

end Words

/-! ## Rounds -/

/-- `QUARTER_ROUND`, on the words of the given numbers. -/
def quarterRound (L : Nat → UInt8 → BitVec 32) (t : BitVec 32) (a b c d : Fin 4) (words : Words) :
    Words :=
  (((words.xorAt a (L 3 (getByte t 0))).xorAt b (L 2 (getByte t 1))).xorAt c
    (L 1 (getByte t 2))).xorAt d (L 0 (getByte t 3))

/-- `QUARTER_ROUND_FE` and `QUARTER_ROUND_FD` name the words the other way round. -/
def quarterRoundF (L : Nat → UInt8 → BitVec 32) (t : BitVec 32) (a b c d : Fin 4)
    (words : Words) : Words :=
  quarterRound L t d c b a words

/-- The quarter rounds of `Enc`: the words `s` are put into the words `t`. -/
def encRound (quarter : BitVec 32 → Fin 4 → Fin 4 → Fin 4 → Fin 4 → Words → Words)
    (s t : Words) : Words :=
  let t := quarter s.w3 0 1 2 3 t
  let t := quarter s.w2 3 0 1 2 t
  let t := quarter s.w1 2 3 0 1 t
  quarter s.w0 1 2 3 0 t

/-- The quarter rounds of `Dec`. -/
def decRound (quarter : BitVec 32 → Fin 4 → Fin 4 → Fin 4 → Fin 4 → Words → Words)
    (s t : Words) : Words :=
  let t := quarter s.w3 2 1 0 3 t
  let t := quarter s.w2 1 0 3 2 t
  let t := quarter s.w1 0 3 2 1 t
  quarter s.w0 3 2 1 0 t

def m_rounds : Nat := 16 / 4 + 6

/-- `rk`, four words at a time. -/
def keyAt (rk : List Words) (i : Nat) : Words := rk.getD i ⟨0, 0, 0, 0⟩

/-- The loop over `r`, two rounds in each turn. -/
def rounds (round : Words → Words → Words) : Nat → Words → List Words → Words × List Words
  | 0, t, rk => (t, rk)
  | r + 1, t, rk => rounds round r (round (round t (keyAt rk 0)) (keyAt rk 1)) (rk.drop 2)

/-- `QUARTER_ROUND_LE` and `QUARTER_ROUND_LD`: one byte of an entry each. -/
def quarterRoundL (L : UInt8 → UInt8) (t : BitVec 32) (a b c d : Fin 16)
    (tempBlock : Fin 16 → UInt8) : Fin 16 → UInt8 :=
  Function.update (Function.update (Function.update (Function.update tempBlock
    a (L (getByte t 0))) b (L (getByte t 1))) c (L (getByte t 2))) d (L (getByte t 3))

/-- `ProcessAndXorBlock` of either direction, with its rounds; without a block to
mask with, that block is zero. -/
def processAndXorBlock (roundF round : Words → Words → Words) (lastRound : Words → Block)
    (m_key : List Words) (inBlock xorBlock : Block) : Block :=
  let s := Words.get inBlock ^^^ keyAt m_key 0
  let t := roundF s (keyAt m_key 1)
  let r := rounds round (m_rounds / 2 - 1) t (m_key.drop 2)
  Words.put (Words.get (lastRound r.1) ^^^ keyAt r.2 0) + xorBlock

/-! ## Keys -/

def rcon : List (BitVec 32) :=
  [0x01000000, 0x02000000, 0x04000000, 0x08000000, 0x10000000, 0x20000000, 0x40000000,
    0x80000000, 0x1B000000, 0x36000000]

/-- The four words after `rk`. -/
def nextKey (rk : Words) (rc : BitVec 32) : Words :=
  let temp := rk.w3
  let byte (y : Nat) := (Se (getByte temp y)).toBitVec.setWidth 32
  let x := byte 2 <<< 24 ^^^ byte 1 <<< 16 ^^^ byte 0 <<< 8 ^^^ byte 3
  let w4 := rk.w0 ^^^ x ^^^ rc
  let w5 := rk.w1 ^^^ w4
  let w6 := rk.w2 ^^^ w5
  let w7 := rk.w3 ^^^ w6
  ⟨w4, w5, w6, w7⟩

/-- The words of all rounds, from the key on. -/
def expand : Words → List (BitVec 32) → List Words
  | rk, [] => [rk]
  | rk, rc :: rest => rk :: expand (nextKey rk rc) rest

/-- `GetUserKey`. -/
def getUserKey (key : AESKey) : Words := (Words.get ⟨key.data⟩).reversed

def inverseMixColumn (x : BitVec 32) : BitVec 32 :=
  TL_M Td 0 (Se (getByte x 3)) ^^^ TL_M Td 1 (Se (getByte x 2)) ^^^
    TL_M Td 2 (Se (getByte x 1)) ^^^ TL_M Td 3 (Se (getByte x 0))

namespace Enc

/-- `UncheckedSetKey`, forward. -/
def uncheckedSetKey (userKey : AESKey) : List Words :=
  let rk := expand (getUserKey userKey) rcon
  let rk := rk.set 0 (keyAt rk 0).reversed
  rk.set m_rounds (keyAt rk m_rounds).reversed

def lastRound (t : Words) : Block :=
  let last := quarterRoundL fun x => entryByte (Te x) 1
  let tempBlock := last t.w2 15 2 5 8 fun _ => 0
  let tempBlock := last t.w1 11 14 1 4 tempBlock
  let tempBlock := last t.w0 7 10 13 0 tempBlock
  let tempBlock := last t.w3 3 6 9 12 tempBlock
  ⟨tempBlock⟩

def processAndXorBlock : List Words → Block → Block → Block :=
  Rijndael.processAndXorBlock (encRound (quarterRoundF (TL_F Te)))
    (encRound (quarterRound (TL_M Te))) lastRound

end Enc

namespace Dec

/-- `UncheckedSetKey`, backward. -/
def uncheckedSetKey (userKey : AESKey) : List Words :=
  let rk := expand (getUserKey userKey) rcon
  let rk := Reversal.reverseBetween (fun words => .ofFn fun c => inverseMixColumn (words.word c))
    ⟨0, 0, 0, 0⟩ 1 (m_rounds - 1) rk
  (rk.set 0 (keyAt rk m_rounds).reversed).set m_rounds (keyAt rk 0).reversed

def lastRound (t : Words) : Block :=
  let last := quarterRoundL fun x => entryByte (Td x) 0
  let tempBlock := last t.w2 7 2 13 8 fun _ => 0
  let tempBlock := last t.w1 3 14 9 4 tempBlock
  let tempBlock := last t.w0 15 10 5 0 tempBlock
  let tempBlock := last t.w3 11 6 1 12 tempBlock
  ⟨tempBlock⟩

def processAndXorBlock : List Words → Block → Block → Block :=
  Rijndael.processAndXorBlock (decRound (quarterRoundF (TL_F Td)))
    (decRound (quarterRound (TL_M Td))) lastRound

end Dec

/-! ## What a round computes -/

theorem word_encRound (L : Nat → UInt8 → BitVec 32) (s t : Words) (c : Fin 4) :
    (encRound (quarterRound L) s t).word c =
      L 0 (getByte (s.word (c + 0)) 3) ^^^ L 1 (getByte (s.word (c + 1)) 2) ^^^
        L 2 (getByte (s.word (c + 2)) 1) ^^^ L 3 (getByte (s.word (c + 3)) 0) ^^^ t.word c := by
  have hwords : s.word 0 = s.w0 ∧ s.word 1 = s.w1 ∧ s.word 2 = s.w2 ∧ s.word 3 = s.w3 :=
    ⟨rfl, rfl, rfl, rfl⟩
  simp only [encRound, quarterRound, Words.word_xorAt]
  fin_cases c
  all_goals
    simp [hwords]
    ac_rfl

theorem word_decRound (L : Nat → UInt8 → BitVec 32) (s t : Words) (c : Fin 4) :
    (decRound (quarterRound L) s t).word c =
      L 0 (getByte (s.word (c - 0)) 3) ^^^ L 1 (getByte (s.word (c - 1)) 2) ^^^
        L 2 (getByte (s.word (c - 2)) 1) ^^^ L 3 (getByte (s.word (c - 3)) 0) ^^^ t.word c := by
  have hwords : s.word 0 = s.w0 ∧ s.word 1 = s.w1 ∧ s.word 2 = s.w2 ∧ s.word 3 = s.w3 :=
    ⟨rfl, rfl, rfl, rfl⟩
  simp only [decRound, quarterRound, Words.word_xorAt]
  fin_cases c
  all_goals
    simp [hwords]
    ac_rfl

/-- A round is its layers, on the bytes of the words. -/
theorem rows_round {T : UInt8 → BitVec 64} {replace : UInt8 → UInt8}
    {entry : Fin 4 → UInt8 → UInt8} {source : Fin 4 → Fin 4 → Fin 4} {round : Words → Words → Words}
    (hT : ∀ x, ∀ k r : Fin 4, getByte (TL_M T k x) (3 - r) = entry (r - k) (replace x))
    (hround : ∀ s t c, (round s t).word c =
      TL_M T 0 (getByte (s.word (source c 0)) 3) ^^^ TL_M T 1 (getByte (s.word (source c 1)) 2) ^^^
        TL_M T 2 (getByte (s.word (source c 2)) 1) ^^^
        TL_M T 3 (getByte (s.word (source c 3)) 0) ^^^ t.word c)
    (s t : Words) :
    (round s t).rows = mixColumns entry (shiftRows replace source s.rows) + t.rows := by
  apply block_ext
  intro c r
  have h0 := fun x => hT x 0 r
  have h1 := fun x => hT x 1 r
  have h2 := fun x => hT x 2 r
  have h3 := fun x => hT x 3 r
  simp only [Fin.isValue, Fin.coe_ofNat_eq_mod, Nat.reduceMod] at h0 h1 h2 h3
  simp only [Block.byte_add, byte_mixColumns, byte_shiftRows, Words.byte_rows, hround,
    Words.getByte_xor, h0, h1, h2, h3]
  rfl

theorem rows_encRound (s t : Words) :
    (encRound (quarterRound (TL_M Te)) s t).rows = mix (substitute s.rows) + t.rows :=
  rows_round getByte_TL_M_Te (word_encRound (TL_M Te)) s t

theorem rows_decRound (s t : Words) :
    (decRound (quarterRound (TL_M Td)) s t).rows = mix.symm (substitute.symm s.rows) + t.rows :=
  rows_round getByte_TL_M_Td (word_decRound (TL_M Td)) s t

/-- Words in the order of memory go through the tables at other offsets. -/
theorem quarterRoundF_eq (T : UInt8 → BitVec 64) :
    quarterRoundF (TL_F T) = fun t => quarterRound (TL_M T) (Words.byteReverse t) := by
  funext t a b c d words
  simp only [quarterRoundF, quarterRound, TL_F_eq_TL_M T (by decide : 0 < 4),
    TL_F_eq_TL_M T (by decide : 1 < 4), TL_F_eq_TL_M T (by decide : 2 < 4),
    TL_F_eq_TL_M T (by decide : 3 < 4), Nat.reduceSub,
    Words.getByte_byteReverse t (by decide : 0 < 4),
    Words.getByte_byteReverse t (by decide : 1 < 4),
    Words.getByte_byteReverse t (by decide : 2 < 4),
    Words.getByte_byteReverse t (by decide : 3 < 4)]
  -- The same words are masked, in the opposite order.
  rw [Words.xorAt_comm c d, Words.xorAt_comm b d, Words.xorAt_comm a d, Words.xorAt_comm b c,
    Words.xorAt_comm a c, Words.xorAt_comm a b]

theorem encRoundF_eq (s t : Words) :
    encRound (quarterRoundF (TL_F Te)) s t = encRound (quarterRound (TL_M Te)) s.reversed t := by
  simp only [quarterRoundF_eq, encRound, Words.reversed, Words.ofFn, Words.word]

theorem decRoundF_eq (s t : Words) :
    decRound (quarterRoundF (TL_F Td)) s t = decRound (quarterRound (TL_M Td)) s.reversed t := by
  simp only [quarterRoundF_eq, decRound, Words.reversed, Words.ofFn, Words.word]

theorem Enc.lastRound_eq (t : Words) : Enc.lastRound t = substitute t.rows := by
  apply block_ext
  intro c r
  simp only [Enc.lastRound, entryByte_Te]
  fin_cases c <;> fin_cases r <;> rfl

theorem Dec.lastRound_eq (t : Words) : Dec.lastRound t = substitute.symm t.rows := by
  apply block_ext
  intro c r
  simp only [Dec.lastRound, entryByte_Td]
  fin_cases c <;> fin_cases r <;> rfl

/-! ## A whole block -/

theorem rounds_eq (round : Words → Words → Words) (r : Nat) (t : Words) {rk : List Words}
    (hlength : 2 * r ≤ rk.length) :
    rounds round r t rk = ((rk.take (2 * r)).foldl round t, rk.drop (2 * r)) := by
  induction r generalizing t rk with
  | zero => rfl
  | succ r ih =>
      match rk, hlength with
      | first :: second :: rest, hlength =>
          have hrest : 2 * r ≤ rest.length := Nat.le_of_add_le_add_right hlength
          rw [rounds, List.drop_succ_cons, List.drop_succ_cons, List.drop_zero, ih _ hrest]
          rfl

section Block

variable {roundF round : Words → Words → Words} {lastRound : Words → Block}
  {substitute mix : Block → Block}
  (hroundF : ∀ s t, roundF s t = round s.reversed t)
  (hround : ∀ s t, (round s t).rows = mix (substitute s.rows) + t.rows)
  (hlast : ∀ t, lastRound t = substitute t.rows)

include hround in
theorem rows_foldl (keys : List Words) (t : Words) :
    (keys.foldl round t).rows =
      (keys.map Words.rows).foldl (fun block key => mix (substitute block) + key) t.rows := by
  induction keys generalizing t with
  | nil => rfl
  | cons key rest ih => rw [List.foldl_cons, ih, hround, List.map_cons, List.foldl_cons]

include hroundF hround hlast in
/-- A block goes through a network whose outer keys are read from memory. -/
theorem processAndXorBlock_eq {inner : List Words} (hinner : inner.length = m_rounds - 1)
    (first last : Words) (inBlock xorBlock : Block) :
    processAndXorBlock roundF round lastRound (first :: (inner ++ [last])) inBlock xorBlock =
      SubstitutionNetwork.network substitute mix first.reversed.rows (inner.map Words.rows)
        last.reversed.rows inBlock + xorBlock := by
  obtain ⟨second, rest, rfl⟩ : ∃ second rest, inner = second :: rest :=
    List.exists_cons_of_ne_nil fun h => by subst h; contradiction
  have hrest : rest.length = 2 * (m_rounds / 2 - 1) := Nat.succ.inj hinner
  have hdrop : (first :: (second :: rest ++ [last])).drop 2 = rest ++ [last] := rfl
  have hfirst : keyAt (first :: (second :: rest ++ [last])) 0 = first := rfl
  have hsecond : keyAt (first :: (second :: rest ++ [last])) 1 = second := rfl
  have hlength : 2 * (m_rounds / 2 - 1) ≤ (rest ++ [last]).length := by
    rw [List.length_append, hrest]
    exact Nat.le_add_right _ _
  simp only [processAndXorBlock, hdrop, hfirst, hsecond, rounds_eq _ _ _ hlength,
    List.take_left' hrest, List.drop_left' hrest, hroundF, hlast]
  rw [Words.put_eq, Words.rows_reversed_xor, Words.rows_reversed_get, rows_foldl hround, hround,
    Words.rows_reversed_xor, Words.rows_reversed_get]
  rfl

end Block

/-! ## The two keys -/

theorem expand_eq (rk : Words) (constants : List (BitVec 32)) :
    ∃ rest : List Words, expand rk constants = rk :: rest ∧ rest.length = constants.length := by
  induction constants generalizing rk with
  | nil => exact ⟨[], rfl, rfl⟩
  | cons rc constants ih =>
      obtain ⟨rest, hrest, hlength⟩ := ih (nextKey rk rc)
      refine ⟨nextKey rk rc :: rest, ?_, ?_⟩
      · rw [expand, hrest]
      · rw [List.length_cons, hlength, List.length_cons]

/-- The words of all rounds are outer ones for the first and the last, and inner ones. -/
theorem exists_keys (userKey : AESKey) :
    ∃ first last : Words, ∃ inner : List Words,
      expand (getUserKey userKey) rcon = first :: (inner ++ [last]) ∧
        inner.length = m_rounds - 1 := by
  obtain ⟨rest, hexpand, hlength⟩ := expand_eq (getUserKey userKey) rcon
  have hne : rest ≠ [] := fun h => by subst h; contradiction
  refine ⟨getUserKey userKey, rest.getLast hne, rest.dropLast, ?_, ?_⟩
  · rw [hexpand, List.dropLast_append_getLast hne]
  · rw [List.length_dropLast, hlength]
    rfl

theorem keyAt_last {inner : List Words} (hinner : inner.length = m_rounds - 1)
    (first last : Words) : keyAt (first :: (inner ++ [last])) m_rounds = last := by
  have hrounds : m_rounds = inner.length + 1 := by
    rw [hinner]
    rfl
  rw [keyAt, hrounds, List.getD_cons_succ, List.getD_append_right _ _ _ _ (Nat.le_refl _),
    Nat.sub_self]
  rfl

theorem set_last {inner : List Words} (hinner : inner.length = m_rounds - 1)
    (first last other : Words) :
    (first :: (inner ++ [last])).set m_rounds other = first :: (inner ++ [other]) := by
  have hrounds : m_rounds = inner.length + 1 := by
    rw [hinner]
    rfl
  rw [hrounds, List.set_cons_succ, List.set_append_right _ _ (Nat.le_refl _), Nat.sub_self]
  rfl

theorem Enc.uncheckedSetKey_eq {userKey : AESKey} {first last : Words} {inner : List Words}
    (hexpand : expand (getUserKey userKey) rcon = first :: (inner ++ [last]))
    (hinner : inner.length = m_rounds - 1) :
    Enc.uncheckedSetKey userKey = first.reversed :: (inner ++ [last.reversed]) := by
  rw [Enc.uncheckedSetKey, hexpand, List.set_cons_zero, keyAt_last hinner, set_last hinner]
  rfl

theorem Dec.uncheckedSetKey_eq {userKey : AESKey} {first last : Words} {inner : List Words}
    (hexpand : expand (getUserKey userKey) rcon = first :: (inner ++ [last]))
    (hinner : inner.length = m_rounds - 1) :
    Dec.uncheckedSetKey userKey = last.reversed ::
      (inner.reverse.map (fun words => .ofFn fun c => inverseMixColumn (words.word c)) ++
        [first.reversed]) := by
  have hodd : 2 ∣ inner.length - 1 := by
    rw [hinner]
    decide
  have hne : inner ≠ [] := fun h => by subst h; contradiction
  have hmapped : (inner.reverse.map
      (fun words => Words.ofFn fun c => inverseMixColumn (words.word c))).length =
        m_rounds - 1 := by
    rw [List.length_map, List.length_reverse, hinner]
  rw [Dec.uncheckedSetKey, hexpand, ← hinner, Reversal.reverseBetween_inner _ _ hodd hne,
    List.set_cons_zero, keyAt_last hmapped, set_last hmapped]
  rfl

/-- The inner keys of `Dec` have been through the inverse of the mixing. -/
theorem rows_inverseMixColumn (words : Words) :
    (Words.ofFn fun c => inverseMixColumn (words.word c)).rows = mix.symm words.rows := by
  apply block_ext
  intro c r
  have h0 := fun x => getByte_TL_M_Td x 0 r
  have h1 := fun x => getByte_TL_M_Td x 1 r
  have h2 := fun x => getByte_TL_M_Td x 2 r
  have h3 := fun x => getByte_TL_M_Td x 3 r
  simp only [Fin.isValue, Fin.coe_ofNat_eq_mod, Nat.reduceMod] at h0 h1 h2 h3
  have hmix : mix.symm words.rows = mixColumns decColumn words.rows := rfl
  rw [hmix]
  simp only [byte_mixColumns, Words.byte_rows, Words.word_ofFn, inverseMixColumn,
    Words.getByte_xor, h0, h1, h2, h3, Sd_Se]
  rfl

/-! ## Decryption undoes encryption -/

theorem neg_eq (block : Block) : -block = block := rfl

theorem Enc.processAndXorBlock_eq_network {userKey : AESKey} {first last : Words}
    {inner : List Words} (hexpand : expand (getUserKey userKey) rcon = first :: (inner ++ [last]))
    (hinner : inner.length = m_rounds - 1) (block xorBlock : Block) :
    Enc.processAndXorBlock (Enc.uncheckedSetKey userKey) block xorBlock =
      SubstitutionNetwork.network substitute mix first.rows (inner.map Words.rows) last.rows block +
        xorBlock := by
  rw [Enc.uncheckedSetKey_eq hexpand hinner, Enc.processAndXorBlock,
    processAndXorBlock_eq encRoundF_eq rows_encRound Enc.lastRound_eq hinner,
    Words.rows_reversed_reversed, Words.rows_reversed_reversed]

/-- The two directions under one key, as networks. -/
theorem exists_networks (userKey : AESKey) :
    ∃ first last : Block, ∃ inner : List Block,
      (∀ block xorBlock, Enc.processAndXorBlock (Enc.uncheckedSetKey userKey) block xorBlock =
        SubstitutionNetwork.network substitute mix first inner last block + xorBlock) ∧
      ∀ block xorBlock, Dec.processAndXorBlock (Dec.uncheckedSetKey userKey) block xorBlock =
        SubstitutionNetwork.network substitute.symm mix.symm (-last)
          (inner.reverse.map fun key => -mix.symm key) (-first) block + xorBlock := by
  obtain ⟨first, last, inner, hexpand, hinner⟩ := exists_keys userKey
  refine ⟨first.rows, last.rows, inner.map Words.rows,
    Enc.processAndXorBlock_eq_network hexpand hinner, ?_⟩
  · intro block xorBlock
    rw [Dec.uncheckedSetKey_eq hexpand hinner, Dec.processAndXorBlock,
      processAndXorBlock_eq decRoundF_eq rows_decRound Dec.lastRound_eq
        (by rw [List.length_map, List.length_reverse, hinner]),
      Words.rows_reversed_reversed, Words.rows_reversed_reversed, neg_eq, neg_eq]
    simp only [List.map_map, ← List.map_reverse, Function.comp_def, rows_inverseMixColumn, neg_eq]

/-- Rijndael under a key. -/
def permutation (userKey : AESKey) : Equiv.Perm Block where
  toFun block := Enc.processAndXorBlock (Enc.uncheckedSetKey userKey) block 0
  invFun block := Dec.processAndXorBlock (Dec.uncheckedSetKey userKey) block 0
  left_inv block := by
    obtain ⟨first, last, inner, henc, hdec⟩ := exists_networks userKey
    simp only [henc, hdec, add_zero, SubstitutionNetwork.network_network]
  right_inv block := by
    obtain ⟨first, last, inner, henc, hdec⟩ := exists_networks userKey
    simp only [henc, hdec, add_zero, SubstitutionNetwork.network_network_symm]

/-- The block to mask with comes on top. -/
theorem enc_eq_add (userKey : AESKey) (block xorBlock : Block) :
    Enc.processAndXorBlock (Enc.uncheckedSetKey userKey) block xorBlock =
      permutation userKey block + xorBlock := by
  obtain ⟨first, last, inner, henc, _⟩ := exists_networks userKey
  have hpermutation : permutation userKey block =
    Enc.processAndXorBlock (Enc.uncheckedSetKey userKey) block 0 := rfl
  rw [hpermutation, henc, henc, add_zero]

theorem dec_eq_add (userKey : AESKey) (block xorBlock : Block) :
    Dec.processAndXorBlock (Dec.uncheckedSetKey userKey) block xorBlock =
      (permutation userKey).symm block + xorBlock := by
  obtain ⟨first, last, inner, _, hdec⟩ := exists_networks userKey
  have hpermutation : (permutation userKey).symm block =
    Dec.processAndXorBlock (Dec.uncheckedSetKey userKey) block 0 := rfl
  rw [hpermutation, hdec, hdec, add_zero]

/-- `CBC_Decryption` calls `Dec` on the blocks in memory. -/
theorem cbcDecryption_processAndXorBlock (userKey : AESKey) (memory : Memory) (inBlock : Nat)
    (xorBlock : Block) (outBlock : Nat) :
    CBCDecryption.processAndXorBlock (permutation userKey) memory inBlock xorBlock outBlock =
      memory.writeBlock outBlock
        (Dec.processAndXorBlock (Dec.uncheckedSetKey userKey) (memory.block inBlock) xorBlock) := by
  rw [CBCDecryption.processAndXorBlock, dec_eq_add]

/-- Under every key the two directions undo each other, whatever they mask with:
the tables, the offsets into them and the mixed, reversed key schedule of `Dec`
belong to those of `Enc`. -/
theorem processAndXorBlock_inverse (userKey : AESKey) (block xorBlock other : Block) :
    Dec.processAndXorBlock (Dec.uncheckedSetKey userKey)
        (Enc.processAndXorBlock (Enc.uncheckedSetKey userKey) block xorBlock + xorBlock) other =
      block + other ∧
    Enc.processAndXorBlock (Enc.uncheckedSetKey userKey)
        (Dec.processAndXorBlock (Dec.uncheckedSetKey userKey) block xorBlock + xorBlock) other =
      block + other := by
  have hmask : ∀ result : Block, result + xorBlock + xorBlock = result := fun result => by
    rw [add_assoc, ← Block.sub_eq_add xorBlock, sub_self, add_zero]
  constructor
  · rw [enc_eq_add, hmask, dec_eq_add, Equiv.symm_apply_apply]
  · rw [dec_eq_add, hmask, enc_eq_add, Equiv.apply_symm_apply]

example : (Enc.processAndXorBlock (Enc.uncheckedSetKey ⟨fun i => .ofNat i⟩)
    ⟨fun i => .ofNat (0x11 * i)⟩ 0).toBytes =
      [0x69, 0xc4, 0xe0, 0xd8, 0x6a, 0x7b, 0x04, 0x30, 0xd8, 0xcd, 0xb7, 0x80, 0x70, 0xb4, 0xc5,
        0x5a] := by
  decide +kernel

end Rijndael

end BBNotifier
