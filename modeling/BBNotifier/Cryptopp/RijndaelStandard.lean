import BBNotifier.Foundation.AdvancedEncryption
import BBNotifier.Cryptopp.Rijndael

/-! # Rijndael and the standard

The tables, the word arithmetic and the key schedule compute the cipher of the
standard, byte for byte. A phone needs to know nothing but the standard.
-/

namespace BBNotifier

open Foundation

namespace Rijndael

open AdvancedEncryption (State roundKey)

/-- The square of bytes that a block is. -/
def state (block : Block) : State := fun row column => block.byte (place column row)

theorem state_add (block other : Block) :
    state (block + other) = AdvancedEncryption.addRoundKey (state block) (state other) := rfl

/-! ## The layers -/

theorem Se_eq_subByte : ∀ x, Se x = AdvancedEncryption.subByte x := forall_byte (by decide +kernel)

theorem times_eq_mul : ∀ x : UInt8,
    times f2 x = UInt8.ofNat (AdvancedEncryption.mul x.toNat 2) ∧
      times f3 x = UInt8.ofNat (AdvancedEncryption.mul x.toNat 3) ∧
      x = UInt8.ofNat (AdvancedEncryption.mul x.toNat 1) :=
  forall_byte (by decide +kernel)

theorem state_substitute (block : Block) :
    state (substitute block) =
      AdvancedEncryption.shiftRows (AdvancedEncryption.subBytes (state block)) := by
  funext r c
  have hsubstitute : substitute block = shiftRows Se (· + ·) block := rfl
  rw [state, hsubstitute, byte_shiftRows, Se_eq_subByte]
  rfl

theorem state_mix (block : Block) :
    state (mix block) = AdvancedEncryption.mixColumns (state block) := by
  funext r c
  have hmix : mix block = mixColumns encColumn block := rfl
  have hcolumn : ∀ (k : Fin 4) (x : UInt8), encColumn (r - k) x =
      UInt8.ofNat (AdvancedEncryption.mul x.toNat (AdvancedEncryption.coefficient r k)) := by
    intro k x
    obtain ⟨hdouble, htriple, hsingle⟩ := times_eq_mul x
    fin_cases r <;> fin_cases k
    all_goals first | exact hdouble | exact htriple | exact hsingle
  have hrange : List.finRange 4 = [0, 1, 2, 3] := rfl
  simp only [state, hmix, byte_mixColumns, hcolumn, AdvancedEncryption.mixColumns, hrange,
    List.foldr_cons, List.foldr_nil, UInt8.xor_zero, UInt8.xor_assoc]

/-! ## The key schedule -/

theorem getByte_rcon : ∀ n < 10, ∀ r : Fin 4,
    getByte (rcon.getD n 0) (3 - r) = AdvancedEncryption.rcon (n + 1) r := by
  decide +kernel

/-- The bytes of a word that is put together from them, from the high one on. -/
theorem getByte_bytes (b₀ b₁ b₂ b₃ : UInt8) :
    let word := b₀.toBitVec.setWidth 32 <<< 24 ^^^ b₁.toBitVec.setWidth 32 <<< 16 ^^^
      b₂.toBitVec.setWidth 32 <<< 8 ^^^ b₃.toBitVec.setWidth 32
    getByte word 3 = b₀ ∧ getByte word 2 = b₁ ∧ getByte word 1 = b₂ ∧ getByte word 0 = b₃ := by
  refine ⟨?_, ?_, ?_, ?_⟩
  all_goals
    apply UInt8.eq_of_toBitVec_eq
    apply BitVec.eq_of_getLsbD_eq
    intro i hi
    simp only [getByte, BitVec.getLsbD_setWidth, BitVec.getLsbD_ushiftRight,
      BitVec.getLsbD_shiftLeft, BitVec.getLsbD_xor]
    interval_cases i <;> simp

/-- The bytes of the last word, rotated and substituted. -/
theorem getByte_rotated (temp : BitVec 32) (r : Fin 4) :
    getByte ((Se (getByte temp 2)).toBitVec.setWidth 32 <<< 24 ^^^
        (Se (getByte temp 1)).toBitVec.setWidth 32 <<< 16 ^^^
        (Se (getByte temp 0)).toBitVec.setWidth 32 <<< 8 ^^^
        (Se (getByte temp 3)).toBitVec.setWidth 32) (3 - r) =
      Se (getByte temp (3 - (r + 1) % 4)) := by
  obtain ⟨h₀, h₁, h₂, h₃⟩ := getByte_bytes (Se (getByte temp 2)) (Se (getByte temp 1))
    (Se (getByte temp 0)) (Se (getByte temp 3))
  fin_cases r
  · exact h₀
  · exact h₁
  · exact h₂
  · exact h₃

theorem state_rows (words : Words) (r c : Fin 4) :
    state words.rows r c = getByte (words.word c) (3 - r) := Words.byte_rows words c r

section

variable {key : State} {rk : Words} {n : Nat}

/-- The first of the next four words. -/
theorem getByte_nextKey_first (hkey : state rk.rows = roundKey key n) (hn : n < 10) (r : Fin 4) :
    getByte ((nextKey rk (rcon.getD n 0)).word 0) (3 - r) =
      AdvancedEncryption.word key (4 * (n + 1)) r := by
  have hword : ∀ c : Fin 4, ∀ r : Fin 4,
      getByte (rk.word c) (3 - r) = AdvancedEncryption.word key (4 * n + c) r := fun c r => by
    rw [← state_rows, hkey, roundKey]
  have hfirst : (nextKey rk (rcon.getD n 0)).word 0 = rk.word 0 ^^^
      ((Se (getByte (rk.word 3) 2)).toBitVec.setWidth 32 <<< 24 ^^^
        (Se (getByte (rk.word 3) 1)).toBitVec.setWidth 32 <<< 16 ^^^
        (Se (getByte (rk.word 3) 0)).toBitVec.setWidth 32 <<< 8 ^^^
        (Se (getByte (rk.word 3) 3)).toBitVec.setWidth 32) ^^^ rcon.getD n 0 := rfl
  have hlast := hword 3 ⟨(r + 1) % 4, Nat.mod_lt _ (by decide)⟩
  rw [hfirst, Words.getByte_xor, Words.getByte_xor, getByte_rcon n hn,
    AdvancedEncryption.word_next_first, hword 0 r, getByte_rotated, Se_eq_subByte, hlast]
  rfl

theorem state_nextKey (hkey : state rk.rows = roundKey key n) (hn : n < 10) :
    state (nextKey rk (rcon.getD n 0)).rows = roundKey key (n + 1) := by
  have hnext : ∀ c : Fin 3, (nextKey rk (rcon.getD n 0)).word c.succ =
      rk.word c.succ ^^^ (nextKey rk (rcon.getD n 0)).word c.castSucc := by
    intro c
    fin_cases c <;> rfl
  funext r c
  rw [state_rows, roundKey]
  induction c using Fin.induction with
  | zero => exact getByte_nextKey_first hkey hn r
  | succ c ih =>
      have hword : getByte (rk.word c.succ) (3 - r) =
          AdvancedEncryption.word key (4 * n + (c + 1)) r := by
        rw [← state_rows, hkey, roundKey, Fin.val_succ]
      rw [hnext, Words.getByte_xor, hword, ih, Fin.val_succ, Fin.val_castSucc,
        AdvancedEncryption.word_next key n c.isLt r]

/-- The words of all rounds are the round keys of the standard. -/
theorem states_expand (constants : List (BitVec 32)) (hconstants : constants = rcon.drop n)
    (hkey : state rk.rows = roundKey key n) :
    (expand rk constants).map (fun words => state words.rows) =
      (List.range' n (constants.length + 1)).map (roundKey key) := by
  induction constants generalizing rk n with
  | nil => rw [expand, List.map_singleton, hkey]; rfl
  | cons rc rest ih =>
      have hn : n < 10 := by
        by_contra hlarge
        rw [List.drop_eq_nil_of_le (not_lt.mp hlarge)] at hconstants
        contradiction
      have hdrop : rcon.drop n = rcon.getD n 0 :: rcon.drop (n + 1) := by
        rw [List.drop_eq_getElem_cons hn, List.getD_eq_getElem _ _ hn]
      obtain ⟨rfl, hrest⟩ := List.cons.inj (hconstants.trans hdrop)
      rw [expand, List.map_cons, ih hrest (state_nextKey hkey hn), hkey]
      rfl

end

/-! ## The cipher -/

theorem state_foldl (keys : List Block) (block : Block) :
    state (keys.foldl (fun block key => mix (substitute block) + key) block) =
      (keys.map state).foldl AdvancedEncryption.round (state block) := by
  induction keys generalizing block with
  | nil => rfl
  | cons key rest ih =>
      rw [List.foldl_cons, ih, List.map_cons, List.foldl_cons, state_add, state_mix,
        state_substitute, AdvancedEncryption.round]

/-- A network with the round keys of the standard for its keys. -/
theorem state_network {key : State} {first last : Block} {inner : List Block}
    (hfirst : state first = roundKey key 0)
    (hinner : inner.map state = (List.range' 1 9).map (roundKey key))
    (hlast : state last = roundKey key 10) (block : Block) :
    state (SubstitutionNetwork.network substitute mix first inner last block) =
      AdvancedEncryption.cipher key (state block) := by
  rw [SubstitutionNetwork.network, state_add, state_substitute, state_foldl, state_add, hfirst,
    hinner, hlast]
  rfl

theorem state_permutation (userKey : AESKey) (block : Block) :
    state (permutation userKey block) =
      AdvancedEncryption.cipher (state ⟨userKey.data⟩) (state block) := by
  obtain ⟨first, last, inner, hexpand, hinner⟩ := exists_keys userKey
  have hkey : state (getUserKey userKey).rows = roundKey (state ⟨userKey.data⟩) 0 := by
    rw [getUserKey, Words.rows_reversed_get, AdvancedEncryption.roundKey_zero]
  have hkeys := states_expand rcon (List.drop_zero).symm hkey
  have hrange : (List.range' 0 (rcon.length + 1)).map (roundKey (state ⟨userKey.data⟩)) =
      roundKey (state ⟨userKey.data⟩) 0 ::
        ((List.range' 1 9).map (roundKey (state ⟨userKey.data⟩)) ++
          [roundKey (state ⟨userKey.data⟩) 10]) := rfl
  rw [hexpand, List.map_cons, List.map_append, List.map_singleton, hrange] at hkeys
  obtain ⟨hfirst, hrest⟩ := List.cons.inj hkeys
  obtain ⟨hinnerKeys, hlast⟩ := List.append_inj' hrest rfl
  have hnetwork := Enc.processAndXorBlock_eq_network hexpand hinner block 0
  rw [add_zero] at hnetwork
  have hpermutation : permutation userKey block =
    Enc.processAndXorBlock (Enc.uncheckedSetKey userKey) block 0 := rfl
  rw [hpermutation, hnetwork]
  apply state_network hfirst _ (List.singleton_inj.mp hlast)
  rw [List.map_map]
  exact hinnerKeys

/-- The code encrypts as the standard says, and the standard encrypts what it has
decrypted to the block it was given. -/
theorem processAndXorBlock_standard (userKey : AESKey) (block xorBlock : Block) :
    state (Enc.processAndXorBlock (Enc.uncheckedSetKey userKey) block xorBlock) =
        AdvancedEncryption.addRoundKey
          (AdvancedEncryption.cipher (state ⟨userKey.data⟩) (state block)) (state xorBlock) ∧
      AdvancedEncryption.cipher (state ⟨userKey.data⟩)
          (state (Dec.processAndXorBlock (Dec.uncheckedSetKey userKey) block xorBlock + xorBlock)) =
        state block := by
  constructor
  · rw [enc_eq_add, state_add, state_permutation]
  · rw [dec_eq_add, add_assoc, ← Block.sub_eq_add xorBlock, sub_self, add_zero,
      ← state_permutation, Equiv.apply_symm_apply]

end Rijndael

end BBNotifier
