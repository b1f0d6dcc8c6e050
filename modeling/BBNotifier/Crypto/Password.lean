import BBNotifier.Crypto.AESWrapper

/-! # The displayed password

`AESKey::ToString` cuts the base64 text of the key into six groups. Sixteen bytes
make twenty-two characters and two signs of padding, which fit on one line, so
the groups are all the characters and nothing else.
-/

namespace BBNotifier

open Foundation

namespace AESKey

/-- A text that fits on a line is followed by the terminator only. -/
theorem grouper_of_fits {groupSize : Nat} (separator terminator : QByteArray) {counter : Nat}
    {text : QByteArray} (hfits : counter + text.length ≤ groupSize) :
    grouper groupSize separator terminator counter text = text ++ terminator := by
  induction text generalizing counter with
  | nil => rfl
  | cons c rest ih =>
      rw [List.length_cons] at hfits
      rw [grouper, if_neg (by omega), ih (by omega), List.cons_append]

/-- The characters that stand for the key, without padding and line break. -/
theorem base64Encoder_data (key : AESKey) :
    ∃ text, Base64.encode (List.ofFn key.data) = text ++ [Base64.padding, Base64.padding] ∧
      base64Encoder (List.ofFn key.data) =
        text ++ ([Base64.padding, Base64.padding] ++ [10]) ∧
      text.length = 22 ∧ ∀ c ∈ text, ∃ value < 64, c = Base64.char value := by
  have hlength : (List.ofFn key.data).length = 16 := List.length_ofFn
  have hover : (List.ofFn key.data).length % 3 = 1 := by rw [hlength]
  obtain ⟨text, htext, hsize, hchars⟩ := Base64.encode_of_one_over hover
  rw [hlength] at hsize
  refine ⟨text, htext, ?_, hsize, hchars⟩
  rw [base64Encoder, grouper_of_fits, htext, List.append_assoc]
  rw [htext, List.length_append, hsize]
  decide

/-- The groups that the password is cut into. -/
def groups (result : QByteArray) : List QByteArray :=
  [substr result 0 4, substr result 4 4, substr result 8 4, substr result 12 4,
    substr result 16 4, substr result 20 2]

theorem toString_eq_intercalate (key : AESKey) :
    key.toString =
      QString.fromUtf8 (List.intercalate [45] (groups (base64Encoder (List.ofFn key.data)))) := by
  simp [toString, groups, List.intercalate_cons_cons]

/-- A window into the text takes nothing from behind it. -/
theorem substr_append {text rest : QByteArray} {pos count : Nat}
    (h : pos + count ≤ text.length) : substr (text ++ rest) pos count = substr text pos count := by
  rw [substr, substr, List.drop_append_of_le_length (by omega),
    List.take_append_of_le_length (by rw [List.length_drop]; omega)]

theorem groups_append {text : QByteArray} (rest : QByteArray) (hlength : text.length = 22) :
    groups (text ++ rest) = groups text := by
  simp (disch := omega) only [groups, substr_append]

theorem length_groups {text : QByteArray} (hlength : text.length = 22) :
    (groups text).map List.length = [4, 4, 4, 4, 4, 2] := by
  simp [groups, substr, hlength]

theorem substr_append_drop (text : QByteArray) {pos count next : Nat} (h : pos + count = next) :
    substr text pos count ++ text.drop next = text.drop pos := by
  rw [substr, ← h, ← List.drop_drop, List.take_append_drop]

/-- The groups are the whole text. -/
theorem flatten_groups {text : QByteArray} (hlength : text.length = 22) :
    (groups text).flatten = text := by
  have hlast : substr text 20 2 = text.drop 20 := by
    rw [substr, List.take_of_length_le]
    rw [List.length_drop, hlength]
  simp only [groups, List.flatten_cons, List.flatten_nil, List.append_nil]
  rw [hlast, @substr_append_drop text 16 4 20 rfl, @substr_append_drop text 12 4 16 rfl,
    @substr_append_drop text 8 4 12 rfl, @substr_append_drop text 4 4 8 rfl,
    @substr_append_drop text 0 4 4 rfl, List.drop_zero]

theorem mem_of_mem_groups {text group : QByteArray} (hlength : text.length = 22)
    (hgroup : group ∈ groups text) {c : UInt8} (hc : c ∈ group) : c ∈ text := by
  rw [← flatten_groups hlength]
  exact List.mem_flatten_of_mem hgroup hc

/-- Removing the separator joins the groups. -/
theorem filter_intercalate {separator : UInt8} {groups : List QByteArray}
    (hgroups : ∀ group ∈ groups, separator ∉ group) :
    (List.intercalate [separator] groups).filter (· ≠ separator) = groups.flatten := by
  induction groups with
  | nil => rfl
  | cons group rest ih =>
      have hgroup : group.filter (· ≠ separator) = group := by
        rw [List.filter_eq_self]
        intro c hc
        have hne : c ≠ separator := fun heq => hgroups group List.mem_cons_self (heq ▸ hc)
        simpa using hne
      have hrest := ih fun other hother => hgroups other (List.mem_cons_of_mem _ hother)
      cases rest with
      | nil => simpa using hgroup
      | cons next rest =>
          rw [List.intercalate_cons_cons, List.filter_append, List.filter_append, hgroup, hrest,
            List.filter_cons_of_neg (by simp), List.filter_nil, List.append_nil]
          exact List.flatten_cons.symm

theorem mem_intercalate {separator c : UInt8} {groups : List QByteArray}
    (hc : c ∈ List.intercalate [separator] groups) :
    c = separator ∨ ∃ group ∈ groups, c ∈ group := by
  by_cases hseparator : c = separator
  · exact .inl hseparator
  · right
    induction groups with
    | nil => contradiction
    | cons group rest ih =>
        cases rest with
        | nil => exact ⟨group, List.mem_cons_self, by simpa using hc⟩
        | cons next rest =>
            rw [List.intercalate_cons_cons, List.mem_append, List.mem_append] at hc
            rcases hc with (hgroup | hmiddle) | hrest
            · exact ⟨group, List.mem_cons_self, hgroup⟩
            · exact absurd (List.mem_singleton.mp hmiddle) hseparator
            · obtain ⟨other, hother, hmem⟩ := ih hrest
              exact ⟨other, List.mem_cons_of_mem _ hother, hmem⟩

/-! ## The characters of the password -/

/-- Neither the separator nor padding nor a line break is in the alphabet. -/
theorem char_ne_special : ∀ value < 64, Base64.char value ≠ 45 ∧ Base64.char value ≠ 61 ∧
    Base64.char value ≠ 10 ∧ Base64.char value < 128 := by decide

theorem filter_ofLatin (separator : UInt8) (bytes : QByteArray) :
    (QString.ofLatin bytes).filter (· ≠ separator.toUInt16) =
      QString.ofLatin (bytes.filter (· ≠ separator)) := by
  rw [QString.ofLatin, QString.ofLatin, List.filter_map]
  congr 2
  funext byte
  simp [UInt8.toUInt16_inj]

/-- The password joins the groups of a text of the alphabet that only lacks its
padding. -/
theorem exists_groups (key : AESKey) :
    ∃ groups : List QByteArray,
      key.toString = QString.ofLatin (List.intercalate [45] groups) ∧
      groups.map List.length = [4, 4, 4, 4, 4, 2] ∧
      (∀ group ∈ groups, ∀ c ∈ group, ∃ value < 64, c = Base64.char value) ∧
      Base64.encode (List.ofFn key.data) = groups.flatten ++ [Base64.padding, Base64.padding] := by
  obtain ⟨text, hencode, hresult, hlength, hchars⟩ := base64Encoder_data key
  have halphabet : ∀ group ∈ groups text, ∀ c ∈ group, ∃ value < 64, c = Base64.char value :=
    fun group hgroup c hc => hchars c (mem_of_mem_groups hlength hgroup hc)
  have hascii : ∀ c ∈ List.intercalate [45] (groups text), c < 128 := by
    intro c hc
    rcases mem_intercalate hc with rfl | ⟨group, hgroup, hmem⟩
    · decide
    · obtain ⟨value, hvalue, rfl⟩ := halphabet group hgroup c hmem
      exact (char_ne_special value hvalue).2.2.2
  refine ⟨groups text, ?_, length_groups hlength, halphabet, ?_⟩
  · rw [toString_eq_intercalate, hresult, groups_append _ hlength, QString.fromUtf8_ascii hascii]
  · rw [hencode, flatten_groups hlength]

/-- The key is read back from its password. -/
theorem decode_toString (key : AESKey) :
    Base64.decode (QString.toUtf8 (key.toString.filter (· ≠ 45)) ++
      [Base64.padding, Base64.padding]) = List.ofFn key.data := by
  obtain ⟨groups, htoString, -, hchars, hencode⟩ := exists_groups key
  have hseparator : ∀ group ∈ groups, 45 ∉ group := by
    intro group hgroup hmem
    obtain ⟨value, hvalue, heq⟩ := hchars group hgroup 45 hmem
    exact (char_ne_special value hvalue).1 heq.symm
  have hascii : ∀ c ∈ groups.flatten, c < 128 := by
    intro c hc
    obtain ⟨group, hgroup, hmem⟩ := List.mem_flatten.mp hc
    obtain ⟨value, hvalue, rfl⟩ := hchars group hgroup c hmem
    exact (char_ne_special value hvalue).2.2.2
  have hfilter : key.toString.filter (· ≠ 45) = QString.ofLatin groups.flatten := by
    rw [htoString, ← filter_intercalate hseparator]
    exact filter_ofLatin 45 _
  rw [hfilter, QString.toUtf8_ofLatin hascii, ← hencode, Base64.decode_encode]

/-- The password of every key is five groups of four and one group of two base64
characters with separators between them, and decodes to the key. -/
theorem password_determines_key (key : AESKey) :
    (∃ groups : List QByteArray,
      key.toString = QString.ofLatin (List.intercalate [45] groups) ∧
      groups.map List.length = [4, 4, 4, 4, 4, 2] ∧
      ∀ group ∈ groups, ∀ c ∈ group, ∃ value < 64, c = Base64.char value) ∧
    Base64.decode (QString.toUtf8 (key.toString.filter (· ≠ 45)) ++
      [Base64.padding, Base64.padding]) = List.ofFn key.data ∧
    (∀ other : AESKey, other.toString = key.toString → other = key) ∧
    10 ∉ key.toString ∧ 61 ∉ key.toString := by
  obtain ⟨groups, htoString, hlengths, hchars, -⟩ := exists_groups key
  have hnot : ∀ c : UInt8, c ≠ 45 → (∀ value < 64, Base64.char value ≠ c) →
      c.toUInt16 ∉ key.toString := by
    intro c hseparator hnone hmem
    rw [htoString] at hmem
    obtain ⟨other, hother, hsame⟩ := List.mem_map.mp hmem
    obtain rfl := UInt8.toUInt16_inj.mp hsame
    rcases mem_intercalate hother with heq | ⟨group, hgroup, hin⟩
    · exact hseparator heq
    · obtain ⟨value, hvalue, heq⟩ := hchars group hgroup other hin
      exact hnone value hvalue heq.symm
  refine ⟨⟨groups, htoString, hlengths, hchars⟩, decode_toString key, ?_, ?_, ?_⟩
  · intro other hsame
    have hdata := decode_toString other
    rw [hsame, decode_toString key] at hdata
    exact AESKey.ext (List.ofFn_injective hdata).symm
  · have hten : (10 : UInt16) = (10 : UInt8).toUInt16 := by decide
    rw [hten]
    exact hnot 10 (by decide) fun value hvalue => (char_ne_special value hvalue).2.2.1
  · have hsign : (61 : UInt16) = (61 : UInt8).toUInt16 := by decide
    rw [hsign]
    exact hnot 61 (by decide) fun value hvalue => (char_ne_special value hvalue).2.1

end AESKey

end BBNotifier
