import Mathlib.Data.List.TakeWhile
import Mathlib.Tactic.Common

/-! # Texts and byte arrays

A `QString` is a sequence of UTF-16 code units. It is read from UTF-8 bytes and
written to them; a text of Unicode scalar values is a list of characters.
-/

namespace BBNotifier

abbrev QByteArray := List UInt8

abbrev QString := List UInt16

/-- The code units of a character: one, or a surrogate pair. -/
def utf16 (c : Char) : QString :=
  if c.toNat < 0x10000 then [UInt16.ofNat c.toNat]
  else [UInt16.ofNat (0xD800 + (c.toNat - 0x10000) / 0x400),
    UInt16.ofNat (0xDC00 + (c.toNat - 0x10000) % 0x400)]

namespace QString

/-- The code units of a text. -/
def ofChars (text : List Char) : QString := text.flatMap utf16

/-- A string literal of the source. -/
def lit (text : String) : QString := ofChars text.toList

/-- A text of one-byte characters. -/
def ofLatin (bytes : QByteArray) : QString := bytes.map UInt8.toUInt16

def newline : UInt16 := 10

/-- The parts of a text between newlines, empty ones included. -/
def split (text : QString) : List QString := text.splitOn newline

end QString

/-- The UTF-8 bytes of a text. -/
def utf8 (text : List Char) : QByteArray := text.flatMap String.utf8EncodeChar

/-- The character whose UTF-8 form starts the bytes, if there is one. -/
def decodeChar? (bytes : QByteArray) : Option Char :=
  (bytes.take 4).toByteArray.utf8DecodeChar? 0

/-- Decode UTF-8 after skipping some bytes. A byte that starts no character
becomes one replacement character. -/
def decodeUtf8 : QByteArray → Nat → QString
  | [], _ => []
  | _ :: rest, skip + 1 => decodeUtf8 rest skip
  | byte :: rest, 0 =>
      match decodeChar? (byte :: rest) with
      | some c => utf16 c ++ decodeUtf8 rest (c.utf8Size - 1)
      | none => 0xFFFD :: decodeUtf8 rest 0

/-- The byte order mark is dropped when it comes first. -/
def skipByteOrderMark : QByteArray → QByteArray
  | 0xEF :: 0xBB :: 0xBF :: rest => rest
  | bytes => bytes

def QString.fromUtf8 (bytes : QByteArray) : QString := decodeUtf8 (skipByteOrderMark bytes) 0

/-- The bytes before the terminating zero of a C string. -/
def cString (bytes : QByteArray) : QByteArray := bytes.takeWhile (· ≠ 0)

/-- The UTF-8 form of a unit that is not half of a pair. A lone surrogate has
none and becomes a question mark. -/
def unitUtf8 (unit : UInt16) : QByteArray :=
  if 0xD800 ≤ unit ∧ unit ≤ 0xDFFF then [0x3F]
  else String.utf8EncodeChar (Char.ofNat unit.toNat)

def QString.toUtf8 : QString → QByteArray
  | [] => []
  | [unit] => unitUtf8 unit
  | high :: low :: rest =>
      if 0xD800 ≤ high ∧ high ≤ 0xDBFF ∧ 0xDC00 ≤ low ∧ low ≤ 0xDFFF then
        String.utf8EncodeChar
          (Char.ofNat (0x10000 + (high.toNat - 0xD800) * 0x400 + (low.toNat - 0xDC00))) ++
            QString.toUtf8 rest
      else unitUtf8 high ++ QString.toUtf8 (low :: rest)

/-! ## Decoding what was encoded -/

theorem decodeChar?_utf8EncodeChar_append (c : Char) (rest : QByteArray) :
    decodeChar? (String.utf8EncodeChar c ++ rest) = some c := by
  have hsize : (String.utf8EncodeChar c).length ≤ 4 := by
    rw [String.length_utf8EncodeChar]
    exact c.utf8Size_le_four
  rw [decodeChar?, List.take_append, List.take_of_length_le hsize, List.toByteArray_append]
  exact ByteArray.utf8DecodeChar?_utf8EncodeChar_append

theorem decodeUtf8_skip (bytes : QByteArray) (skip : Nat) :
    decodeUtf8 bytes skip = decodeUtf8 (bytes.drop skip) 0 := by
  induction bytes generalizing skip with
  | nil => simp [decodeUtf8]
  | cons byte rest ih =>
      cases skip with
      | zero => rfl
      | succ skip => rw [decodeUtf8, List.drop_succ_cons, ih]

theorem decodeUtf8_utf8EncodeChar_append (c : Char) (rest : QByteArray) :
    decodeUtf8 (String.utf8EncodeChar c ++ rest) 0 = utf16 c ++ decodeUtf8 rest 0 := by
  have hlength := String.length_utf8EncodeChar c
  have hdecode := decodeChar?_utf8EncodeChar_append c rest
  cases hbytes : String.utf8EncodeChar c with
  | nil => exact absurd hbytes String.utf8EncodeChar_ne_nil
  | cons byte tail =>
      rw [hbytes, List.cons_append] at hdecode
      have htail : tail.length = c.utf8Size - 1 := by
        rw [hbytes, List.length_cons] at hlength
        omega
      rw [List.cons_append, decodeUtf8, hdecode]
      simp only
      rw [decodeUtf8_skip, ← htail, List.drop_left]

theorem decodeUtf8_utf8 (text : List Char) : decodeUtf8 (utf8 text) 0 = QString.ofChars text := by
  induction text with
  | nil => rfl
  | cons c rest ih =>
      rw [utf8, List.flatMap_cons, decodeUtf8_utf8EncodeChar_append]
      exact congrArg (utf16 c ++ ·) ih

/-! ## ASCII -/

theorem utf8EncodeChar_ofNat {byte : UInt8} (hbyte : byte < 128) :
    String.utf8EncodeChar (Char.ofNat byte.toNat) = [byte] := by
  have hall : ∀ n < 128, String.utf8EncodeChar (Char.ofNat n) = [UInt8.ofNat n] := by decide
  rw [hall byte.toNat (UInt8.lt_iff_toNat_lt.mp hbyte), UInt8.ofNat_toNat]

theorem utf16_ofNat {byte : UInt8} (hbyte : byte < 128) :
    utf16 (Char.ofNat byte.toNat) = [byte.toUInt16] := by
  have hall : ∀ n < 128, utf16 (Char.ofNat n) = [UInt16.ofNat n] := by decide
  simpa using hall byte.toNat (UInt8.lt_iff_toNat_lt.mp hbyte)

/-- An ASCII byte decodes to its own code unit. -/
theorem decodeUtf8_cons_ascii {byte : UInt8} (hbyte : byte < 128) (rest : QByteArray) :
    decodeUtf8 (byte :: rest) 0 = byte.toUInt16 :: decodeUtf8 rest 0 := by
  have h := decodeUtf8_utf8EncodeChar_append (Char.ofNat byte.toNat) rest
  rwa [utf8EncodeChar_ofNat hbyte, utf16_ofNat hbyte] at h

theorem decodeUtf8_ascii_append {bytes : QByteArray} (hascii : ∀ byte ∈ bytes, byte < 128)
    (rest : QByteArray) :
    decodeUtf8 (bytes ++ rest) 0 = QString.ofLatin bytes ++ decodeUtf8 rest 0 := by
  induction bytes with
  | nil => rfl
  | cons byte tail ih =>
      rw [List.cons_append, decodeUtf8_cons_ascii (hascii byte List.mem_cons_self),
        ih fun other hother => hascii other (List.mem_cons_of_mem _ hother)]
      rfl

theorem decodeUtf8_ascii {bytes : QByteArray} (hascii : ∀ byte ∈ bytes, byte < 128) :
    decodeUtf8 bytes 0 = QString.ofLatin bytes := by
  simpa [decodeUtf8] using decodeUtf8_ascii_append hascii []

theorem skipByteOrderMark_of_head {bytes : QByteArray} (h : ∀ rest, bytes ≠ 0xEF :: rest) :
    skipByteOrderMark bytes = bytes := by
  unfold skipByteOrderMark
  split
  · exact absurd rfl (h _)
  · rfl

theorem QString.fromUtf8_ascii {bytes : QByteArray} (hascii : ∀ byte ∈ bytes, byte < 128) :
    QString.fromUtf8 bytes = QString.ofLatin bytes := by
  rw [QString.fromUtf8, skipByteOrderMark_of_head, decodeUtf8_ascii hascii]
  rintro rest rfl
  exact absurd (hascii 0xEF List.mem_cons_self) (by decide)

theorem unitUtf8_ascii {byte : UInt8} (hbyte : byte < 128) :
    unitUtf8 (byte.toUInt16) = [byte] := by
  have hall : ∀ n < 128, unitUtf8 (UInt16.ofNat n) = [UInt8.ofNat n] := by decide
  simpa using hall byte.toNat (UInt8.lt_iff_toNat_lt.mp hbyte)

theorem QString.toUtf8_cons_ascii {byte : UInt8} (hbyte : byte < 128) (rest : QString) :
    QString.toUtf8 (byte.toUInt16 :: rest) = byte :: QString.toUtf8 rest := by
  have hunit := unitUtf8_ascii hbyte
  have hall : ∀ n < 128, ¬ 0xD800 ≤ UInt16.ofNat n := by decide
  have hlow : ¬ 0xD800 ≤ byte.toUInt16 := by
    simpa using hall byte.toNat (UInt8.lt_iff_toNat_lt.mp hbyte)
  cases rest with
  | nil => simpa only [toUtf8] using hunit
  | cons low rest =>
      rw [toUtf8, if_neg (fun h => hlow h.1), hunit]
      rfl

theorem QString.toUtf8_ofLatin {bytes : QByteArray} (hascii : ∀ byte ∈ bytes, byte < 128) :
    QString.toUtf8 (QString.ofLatin bytes) = bytes := by
  induction bytes with
  | nil => rfl
  | cons byte rest ih =>
      rw [ofLatin, List.map_cons, toUtf8_cons_ascii (hascii byte List.mem_cons_self)]
      exact congrArg (byte :: ·)
        (ih fun other hother => hascii other (List.mem_cons_of_mem _ hother))

/-! ## C strings -/

theorem zero_notMem_utf8EncodeChar {c : Char} (hc : c ≠ '\x00') : 0 ∉ String.utf8EncodeChar c := by
  have hval : c.val.toNat ≠ 0 := by
    intro hzero
    exact hc (Char.ext (UInt32.toNat_inj.mp hzero))
  intro hmem
  simp only [String.utf8EncodeChar] at hmem
  split_ifs at hmem <;>
    simp only [List.mem_cons, List.not_mem_nil, or_false, ← UInt8.toNat_inj, UInt8.toNat_ofNat',
      UInt8.toNat_zero] at hmem <;> omega

theorem cString_append_of_notMem {bytes : QByteArray} (h : 0 ∉ bytes) (rest : QByteArray) :
    cString (bytes ++ rest) = bytes ++ cString rest := by
  rw [cString, List.takeWhile_append_of_pos]
  · rfl
  · intro byte hbyte
    have hne : byte ≠ 0 := fun heq => h (heq ▸ hbyte)
    simpa using hne

/-- A C string of encoded text ends where the text has its first zero. -/
theorem cString_utf8 (text : List Char) :
    cString (utf8 text) = utf8 (text.takeWhile (· ≠ '\x00')) := by
  induction text with
  | nil => rfl
  | cons c rest ih =>
      by_cases hc : c = '\x00'
      · subst hc
        rfl
      · rw [utf8, List.flatMap_cons, cString_append_of_notMem (zero_notMem_utf8EncodeChar hc),
          List.takeWhile_cons_of_pos (by simpa using hc), utf8, List.flatMap_cons]
        exact congrArg _ ih

theorem utf16_ne_nil (c : Char) : utf16 c ≠ [] := by
  unfold utf16
  split <;> simp

theorem QString.ofChars_eq_nil {text : List Char} : ofChars text = [] ↔ text = [] := by
  cases text with
  | nil => simp [ofChars]
  | cons c rest => simp [ofChars, utf16_ne_nil]

/-- A text cut at its first zero is another text if it has one. -/
theorem QString.ofChars_takeWhile_eq {text : List Char} :
    ofChars (text.takeWhile (· ≠ '\x00')) = ofChars text ↔ '\x00' ∉ text := by
  constructor
  · intro heq
    -- Equal lengths leave nothing for the part that was cut off.
    conv_rhs at heq => rw [← @List.takeWhile_append_dropWhile _ (· ≠ '\x00') text]
    rw [ofChars, ofChars, List.flatMap_append, List.self_eq_append_right] at heq
    have hnone := ofChars_eq_nil.mp heq
    intro hmem
    simpa using List.dropWhile_eq_nil_iff.mp hnone _ hmem
  · intro hnot
    rw [List.takeWhile_eq_self_iff.mpr]
    intro c hc
    have hne : c ≠ '\x00' := fun heq => hnot (heq ▸ hc)
    simpa using hne

/-! ## What an ASCII unit was decoded from -/

/-- A decoded character is the one whose bytes come first. -/
theorem utf8EncodeChar_prefix_of_decodeChar? {bytes : QByteArray} {c : Char}
    (h : decodeChar? bytes = some c) : String.utf8EncodeChar c <+: bytes := by
  obtain ⟨rest, hrest⟩ := ByteArray.exists_of_utf8DecodeChar?_eq_some h
  have htake : bytes.take 4 = String.utf8EncodeChar c ++ rest.data.toList := by
    simpa using congrArg (fun array => array.data.toList) hrest
  exact (htake ▸ List.prefix_append _ _).trans (List.take_prefix 4 bytes)

/-- Only an ASCII character starts with an ASCII unit. -/
theorem eq_ofNat_of_utf16 {byte : UInt8} (hbyte : byte < 128) {c : Char} {rest : QString}
    (h : utf16 c = byte.toUInt16 :: rest) : c = Char.ofNat byte.toNat := by
  have hsmall : byte.toNat < 128 := UInt8.lt_iff_toNat_lt.mp hbyte
  have hmax : c.toNat < 0x110000 := by
    have := c.valid
    simp only [UInt32.isValidChar, Nat.isValidChar] at this
    have heq : c.toNat = c.val.toNat := rfl
    omega
  unfold utf16 at h
  split at h
  next hlow =>
    have hunit := congrArg UInt16.toNat (List.head_eq_of_cons_eq h)
    rw [UInt16.toNat_ofNat', UInt8.toNat_toUInt16, Nat.mod_eq_of_lt (by omega)] at hunit
    rw [← hunit, Char.ofNat_toNat]
  next hhigh =>
    -- The first half of a surrogate pair is not ASCII.
    have hunit := congrArg UInt16.toNat (List.head_eq_of_cons_eq h)
    rw [UInt16.toNat_ofNat', UInt8.toNat_toUInt16] at hunit
    omega

/-- An ASCII unit at the head of a decoded text is the byte at the head. -/
theorem decodeUtf8_eq_cons_ascii {byte : UInt8} (hbyte : byte < 128) {bytes : QByteArray}
    {units : QString} (h : decodeUtf8 bytes 0 = byte.toUInt16 :: units) :
    ∃ rest, bytes = byte :: rest ∧ decodeUtf8 rest 0 = units := by
  cases bytes with
  | nil => simp [decodeUtf8] at h
  | cons first rest =>
      rw [decodeUtf8] at h
      cases hdecode : decodeChar? (first :: rest) with
      | none =>
          -- The replacement character is not ASCII.
          rw [hdecode] at h
          have hunit := congrArg UInt16.toNat (List.head_eq_of_cons_eq h)
          have hsmall : byte.toNat < 128 := UInt8.lt_iff_toNat_lt.mp hbyte
          rw [UInt8.toNat_toUInt16] at hunit
          exact absurd hunit (by simp; omega)
      | some c =>
          rw [hdecode] at h
          simp only at h
          obtain ⟨unit, tail, hutf16⟩ := List.exists_cons_of_ne_nil (utf16_ne_nil c)
          rw [hutf16, List.cons_append] at h
          obtain ⟨rfl, htail⟩ := List.cons_eq_cons.mp h
          -- The character is ASCII, so it is one byte and one unit long.
          have hc := eq_ofNat_of_utf16 hbyte hutf16
          have hencoded := utf8EncodeChar_prefix_of_decodeChar? hdecode
          have htail' : tail = [] := by
            rw [hc, utf16_ofNat hbyte] at hutf16
            exact (List.tail_eq_of_cons_eq hutf16).symm
          have hsize : c.utf8Size - 1 = 0 := by
            rw [← String.length_utf8EncodeChar, hc, utf8EncodeChar_ofNat hbyte]
            rfl
          rw [hc, utf8EncodeChar_ofNat hbyte, List.cons_prefix_cons] at hencoded
          rw [htail', hsize, List.nil_append] at htail
          exact ⟨rest, by rw [hencoded.1], htail⟩

theorem eq_append_of_decodeUtf8 {ascii bytes : QByteArray} {units : QString}
    (hascii : ∀ byte ∈ ascii, byte < 128)
    (h : decodeUtf8 bytes 0 = QString.ofLatin ascii ++ units) :
    ∃ rest, bytes = ascii ++ rest ∧ decodeUtf8 rest 0 = units := by
  induction ascii generalizing bytes with
  | nil => exact ⟨bytes, rfl, h⟩
  | cons byte tail ih =>
      obtain ⟨rest, rfl, hrest⟩ := decodeUtf8_eq_cons_ascii (hascii byte List.mem_cons_self) h
      obtain ⟨final, rfl, hfinal⟩ :=
        ih (fun other hother => hascii other (List.mem_cons_of_mem _ hother)) hrest
      exact ⟨final, rfl, hfinal⟩

/-! ## Splitting -/

theorem QString.newline_notMem_of_mem_split {text part : QString} (h : part ∈ text.split) :
    newline ∉ part := by
  unfold split at h
  induction text generalizing part with
  | nil =>
      rw [List.splitOn_nil, List.mem_singleton] at h
      simp [h]
  | cons unit rest ih =>
      rw [List.splitOn_cons_eq_if_modifyHead] at h
      split at h
      next =>
        rcases List.mem_cons.mp h with rfl | hrest
        · simp
        · exact ih hrest
      next hne =>
        cases hparts : List.splitOn newline rest with
        | nil => exact absurd hparts (List.splitOn_ne_nil _ _)
        | cons first others =>
            rw [hparts, List.modifyHead_cons] at h
            rcases List.mem_cons.mp h with rfl | hother
            · have hfirst : newline ∉ first := ih (hparts ▸ List.mem_cons_self)
              rw [List.mem_cons, not_or]
              exact ⟨fun heq => hne (by simp [heq]), hfirst⟩
            · exact ih (hparts ▸ List.mem_cons_of_mem _ hother)

/-- The first part of a text whose first newline is known. -/
theorem QString.split_append_cons {part : QString} (hpart : newline ∉ part) (rest : QString) :
    QString.split (part ++ newline :: rest) = part :: QString.split rest :=
  List.splitOn_append_cons_self_of_not_mem hpart rest

theorem QString.split_of_notMem {text : QString} (h : newline ∉ text) :
    QString.split text = [text] :=
  List.splitOn_eq_singleton h

end BBNotifier
