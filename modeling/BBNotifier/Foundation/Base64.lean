import Mathlib.Algebra.Ring.Nat
import Mathlib.Data.List.Basic
import Mathlib.Tactic.Common

/-! # Base64 over bytes

The encoder writes groups of four characters for three bytes and pads the last
group with `=`. The decoder is a bit accumulator that skips every character
outside the alphabet, padding included.
-/

namespace BBNotifier.Foundation.Base64

/-- The character of a six-bit value. -/
def char (value : Nat) : UInt8 :=
  if value < 26 then UInt8.ofNat (65 + value)
  else if value < 52 then UInt8.ofNat (71 + value)
  else if value < 62 then UInt8.ofNat (value - 4)
  else if value = 62 then 43
  else 47

/-- The six-bit value of a character, if it is one of the alphabet. -/
def value? (c : UInt8) : Option Nat :=
  if 65 ≤ c ∧ c ≤ 90 then some (c.toNat - 65)
  else if 97 ≤ c ∧ c ≤ 122 then some (c.toNat - 71)
  else if 48 ≤ c ∧ c ≤ 57 then some (c.toNat + 4)
  else if c = 43 then some 62
  else if c = 47 then some 63
  else none

/-- The padding character `=`. -/
def padding : UInt8 := 61

/-- Encode three bytes at a time. -/
def encode : List UInt8 → List UInt8
  | [] => []
  | [a] => [char (a.toNat / 4), char (a.toNat % 4 * 16), padding, padding]
  | [a, b] => [char (a.toNat / 4), char (a.toNat % 4 * 16 + b.toNat / 16),
      char (b.toNat % 16 * 4), padding]
  | a :: b :: c :: rest => char (a.toNat / 4) :: char (a.toNat % 4 * 16 + b.toNat / 16) ::
      char (b.toNat % 16 * 4 + c.toNat / 64) :: char (c.toNat % 64) :: encode rest

/-- Decode with `bits` bits left over in `buffer`. -/
def decodeFrom : Nat → Nat → List UInt8 → List UInt8
  | _, _, [] => []
  | buffer, bits, c :: rest =>
      match value? c with
      | none => decodeFrom buffer bits rest
      | some value =>
          if 8 ≤ bits + 6 then
            UInt8.ofNat ((buffer * 64 + value) / 2 ^ (bits + 6 - 8)) ::
              decodeFrom ((buffer * 64 + value) % 2 ^ (bits + 6 - 8)) (bits + 6 - 8) rest
          else decodeFrom (buffer * 64 + value) (bits + 6) rest

/-- Decode, skipping what is not in the alphabet. -/
def decode (text : List UInt8) : List UInt8 := decodeFrom 0 0 text

theorem value?_char : ∀ value < 64, value? (char value) = some value := by decide

/-! The decoder meets a character with 0, 6, 4 or 2 bits left over. -/

theorem decodeFrom_char_zero {value : Nat} (hvalue : value < 64) (rest : List UInt8) :
    decodeFrom 0 0 (char value :: rest) = decodeFrom value 6 rest := by
  simp [decodeFrom, value?_char value hvalue]

theorem decodeFrom_char_six {value : Nat} (hvalue : value < 64) (buffer : Nat)
    (rest : List UInt8) :
    decodeFrom buffer 6 (char value :: rest) =
      UInt8.ofNat ((buffer * 64 + value) / 16) ::
        decodeFrom ((buffer * 64 + value) % 16) 4 rest := by
  simp [decodeFrom, value?_char value hvalue]

theorem decodeFrom_char_four {value : Nat} (hvalue : value < 64) (buffer : Nat)
    (rest : List UInt8) :
    decodeFrom buffer 4 (char value :: rest) =
      UInt8.ofNat ((buffer * 64 + value) / 4) ::
        decodeFrom ((buffer * 64 + value) % 4) 2 rest := by
  simp [decodeFrom, value?_char value hvalue]

theorem decodeFrom_char_two {value : Nat} (hvalue : value < 64) (buffer : Nat)
    (rest : List UInt8) :
    decodeFrom buffer 2 (char value :: rest) =
      UInt8.ofNat (buffer * 64 + value) :: decodeFrom 0 0 rest := by
  simp [decodeFrom, value?_char value hvalue, Nat.mod_one]

@[simp]
theorem decodeFrom_padding (buffer bits : Nat) (rest : List UInt8) :
    decodeFrom buffer bits (padding :: rest) = decodeFrom buffer bits rest := by
  rw [decodeFrom, show value? padding = none by decide]

theorem decode_encode (bytes : List UInt8) : decode (encode bytes) = bytes := by
  unfold decode
  induction bytes using encode.induct with
  | case1 => rfl
  | case2 a =>
      have ha := a.toNat_lt
      have hfirst : (a.toNat / 4 * 64 + a.toNat % 4 * 16) / 16 = a.toNat := by omega
      rw [encode, decodeFrom_char_zero (by omega), decodeFrom_char_six (by omega), hfirst,
        decodeFrom_padding, decodeFrom_padding, decodeFrom, UInt8.ofNat_toNat]
  | case3 a b =>
      have ha := a.toNat_lt
      have hb := b.toNat_lt
      have hfirst : (a.toNat / 4 * 64 + (a.toNat % 4 * 16 + b.toNat / 16)) / 16 = a.toNat := by
        omega
      have hsecond : ((a.toNat / 4 * 64 + (a.toNat % 4 * 16 + b.toNat / 16)) % 16 * 64 +
          b.toNat % 16 * 4) / 4 = b.toNat := by
        omega
      rw [encode, decodeFrom_char_zero (by omega), decodeFrom_char_six (by omega), hfirst,
        decodeFrom_char_four (by omega), hsecond, decodeFrom_padding, decodeFrom,
        UInt8.ofNat_toNat, UInt8.ofNat_toNat]
  | case4 a b c rest ih =>
      have ha := a.toNat_lt
      have hb := b.toNat_lt
      have hc := c.toNat_lt
      have hfirst : (a.toNat / 4 * 64 + (a.toNat % 4 * 16 + b.toNat / 16)) / 16 = a.toNat := by
        omega
      have hsecond : ((a.toNat / 4 * 64 + (a.toNat % 4 * 16 + b.toNat / 16)) % 16 * 64 +
          (b.toNat % 16 * 4 + c.toNat / 64)) / 4 = b.toNat := by
        omega
      have hthird : ((a.toNat / 4 * 64 + (a.toNat % 4 * 16 + b.toNat / 16)) % 16 * 64 +
          (b.toNat % 16 * 4 + c.toNat / 64)) % 4 * 64 + c.toNat % 64 = c.toNat := by
        omega
      rw [encode, decodeFrom_char_zero (by omega), decodeFrom_char_six (by omega), hfirst,
        decodeFrom_char_four (by omega), hsecond, decodeFrom_char_two (by omega), hthird, ih,
        UInt8.ofNat_toNat, UInt8.ofNat_toNat, UInt8.ofNat_toNat]

/-- What the encoder writes: characters of the alphabet and padding. -/
theorem mem_encode {c : UInt8} {bytes : List UInt8} (h : c ∈ encode bytes) :
    c = padding ∨ ∃ value < 64, c = char value := by
  induction bytes using encode.induct with
  | case1 => simp [encode] at h
  | case2 a =>
      have ha := a.toNat_lt
      simp only [encode, List.mem_cons, List.not_mem_nil, or_false] at h
      rcases h with rfl | rfl | rfl | rfl
      · exact .inr ⟨_, by omega, rfl⟩
      · exact .inr ⟨_, by omega, rfl⟩
      · exact .inl rfl
      · exact .inl rfl
  | case3 a b =>
      have ha := a.toNat_lt
      have hb := b.toNat_lt
      simp only [encode, List.mem_cons, List.not_mem_nil, or_false] at h
      rcases h with rfl | rfl | rfl | rfl
      · exact .inr ⟨_, by omega, rfl⟩
      · exact .inr ⟨_, by omega, rfl⟩
      · exact .inr ⟨_, by omega, rfl⟩
      · exact .inl rfl
  | case4 a b c' rest ih =>
      have ha := a.toNat_lt
      have hb := b.toNat_lt
      have hc := c'.toNat_lt
      simp only [encode, List.mem_cons] at h
      rcases h with rfl | rfl | rfl | rfl | hrest
      · exact .inr ⟨_, by omega, rfl⟩
      · exact .inr ⟨_, by omega, rfl⟩
      · exact .inr ⟨_, by omega, rfl⟩
      · exact .inr ⟨_, by omega, rfl⟩
      · exact ih hrest

/-- Encoded text is printable ASCII. -/
theorem mem_encode_ascii {c : UInt8} {bytes : List UInt8} (h : c ∈ encode bytes) :
    43 ≤ c ∧ c ≤ 122 := by
  have hchar : ∀ value < 64, 43 ≤ char value ∧ char value ≤ 122 := by decide
  rcases mem_encode h with rfl | ⟨value, hvalue, rfl⟩
  · decide
  · exact hchar value hvalue

/-- One byte over a multiple of three leaves two characters and two signs of
padding at the end. -/
theorem encode_of_one_over {bytes : List UInt8} (h : bytes.length % 3 = 1) :
    ∃ text, encode bytes = text ++ [padding, padding] ∧
      text.length = bytes.length / 3 * 4 + 2 ∧ ∀ c ∈ text, ∃ value < 64, c = char value := by
  induction bytes using encode.induct with
  | case1 => contradiction
  | case2 a =>
      have ha := a.toNat_lt
      refine ⟨[char (a.toNat / 4), char (a.toNat % 4 * 16)], rfl, by simp, ?_⟩
      rintro c (_ | ⟨_, _ | ⟨_, ⟨⟩⟩⟩)
      · exact ⟨_, by omega, rfl⟩
      · exact ⟨_, by omega, rfl⟩
  | case3 a b => simp at h
  | case4 a b c rest ih =>
      have ha := a.toNat_lt
      have hb := b.toNat_lt
      have hc := c.toNat_lt
      rw [List.length_cons, List.length_cons, List.length_cons] at h ⊢
      obtain ⟨text, htext, hlength, hchars⟩ := ih (by omega)
      refine ⟨char (a.toNat / 4) :: char (a.toNat % 4 * 16 + b.toNat / 16) ::
        char (b.toNat % 16 * 4 + c.toNat / 64) :: char (c.toNat % 64) :: text, ?_, ?_, ?_⟩
      · rw [encode, htext]
        rfl
      · simp only [List.length_cons, hlength]
        omega
      · rintro d (_ | ⟨_, _ | ⟨_, _ | ⟨_, _ | ⟨_, hrest⟩⟩⟩⟩)
        · exact ⟨_, by omega, rfl⟩
        · exact ⟨_, by omega, rfl⟩
        · exact ⟨_, by omega, rfl⟩
        · exact ⟨_, by omega, rfl⟩
        · exact hchars d hrest

end BBNotifier.Foundation.Base64
