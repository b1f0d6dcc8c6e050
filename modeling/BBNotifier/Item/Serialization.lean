import BBNotifier.Item.NotificationItem

/-! # The text form is lossless

`Serialize` and the constructor from a text are inverse to each other, except
that dates are kept in whole seconds. Only the fields that come from a message
can hold a newline, and the constructor itself never puts one there.
-/

namespace BBNotifier

open Foundation

namespace CNotificationItem

/-- The free fields of an item have no newline, as those of a parsed item. -/
structure OneLine (item : CNotificationItem) : Prop where
  phone : QString.newline ∉ item.phone
  name : QString.newline ∉ item.name
  data : QString.newline ∉ item.data

/-- The item without the milliseconds of its date. -/
def toSeconds (item : CNotificationItem) : CNotificationItem :=
  { item with dateTime := item.dateTime.toSeconds }

/-- The image field of the text. -/
def imageText (item : CNotificationItem) : QString :=
  if item.image.isNone then [] else QString.fromUtf8 (toBase64 item.bits)

theorem setType_typeName (type : EType) : setType type.typeName = type := by
  cases type <;> decide

theorem newline_notMem_typeName (type : EType) : QString.newline ∉ type.typeName := by
  cases type <;> decide

/-! ## The image field -/

theorem toBase64_ascii (bytes : QByteArray) : ∀ byte ∈ toBase64 bytes, byte < 128 := by
  intro byte hbyte
  have hhigh := UInt8.le_iff_toNat_le.mp (Base64.mem_encode_ascii hbyte).2
  exact UInt8.lt_iff_toNat_lt.mpr (Nat.lt_of_le_of_lt hhigh (by decide))

theorem newline_notMem_imageText (item : CNotificationItem) :
    QString.newline ∉ item.imageText := by
  unfold imageText
  split
  · simp
  · -- A newline is below every character of the encoder.
    rw [QString.fromUtf8_ascii (toBase64_ascii _), QString.ofLatin, List.mem_map]
    rintro ⟨byte, hbyte, heq⟩
    have hlow := (Base64.mem_encode_ascii hbyte).1
    have hten : byte.toNat = 10 := by
      simpa [QString.newline] using congrArg UInt16.toNat heq
    have := UInt8.le_iff_toNat_le.mp hlow
    simp [hten] at this

/-- The field of an image decodes to its bytes. -/
theorem fromBase64_imageText {item : CNotificationItem} {image : QImage}
    (himage : item.image = some image) : fromBase64 item.imageText.toUtf8 = image.bits := by
  have htext : item.imageText = QString.ofLatin (toBase64 image.bits) := by
    rw [imageText, himage, bits, himage, QString.fromUtf8_ascii (toBase64_ascii _)]
    rfl
  rw [htext, QString.toUtf8_ofLatin (toBase64_ascii _)]
  exact Base64.decode_encode _

/-- An image comes out of its field as it was, whatever is stored behind. -/
theorem imageOf_imageText (heap : Memory) (item : CNotificationItem) :
    imageOf heap item.imageText = item.image := by
  cases himage : item.image with
  | none => simp [imageOf, imageText, himage]
  | some image =>
      have hbytes := fromBase64_imageText himage
      have hne : item.imageText ≠ [] := by
        intro hempty
        have hlength := image.length_bits
        rw [← hbytes, hempty] at hlength
        exact absurd hlength (by decide +kernel)
      have hcopy : copyImage image.bits heap = image := by
        apply QImage.ext
        rw [bits_copyImage image.length_bits.ge, ← image.length_bits, List.take_length]
      rw [imageOf, if_pos hne, hbytes, hcopy]

/-- A field that is empty or decodes to a whole image decides the image. -/
theorem imageOf_eq_of_complete {text : QString}
    (h : text = [] ∨ imageBytes ≤ (fromBase64 text.toUtf8).length) (heap heap' : Memory) :
    imageOf heap text = imageOf heap' text := by
  rcases h with rfl | hlength
  · simp [imageOf]
  · have hcopy : copyImage (fromBase64 text.toUtf8) heap =
        copyImage (fromBase64 text.toUtf8) heap' :=
      QImage.ext (by rw [bits_copyImage hlength, bits_copyImage hlength])
    rw [imageOf, imageOf, hcopy]

/-! ## The fields of a serialized item -/

theorem split_serialize (dates : QDateTimeText) {item : CNotificationItem} (hitem : item.OneLine) :
    (item.serialize dates).split = item.type.typeName :: item.phone :: item.name :: item.data ::
      item.imageText :: (dates.toString item.dateTime).split := by
  rw [serialize, QString.split_append_cons (newline_notMem_typeName _),
    QString.split_append_cons hitem.phone, QString.split_append_cons hitem.name,
    QString.split_append_cons hitem.data, ← imageText,
    QString.split_append_cons item.newline_notMem_imageText]

/-- The fields that calls are compared by come back, whatever the date format. -/
theorem ofSerialized_serialize_fields (dates : QDateTimeText) (heap : Memory)
    {item : CNotificationItem} (hitem : item.OneLine) :
    ∃ listItem, ofSerialized dates heap (item.serialize dates) = .ok listItem ∧
      listItem.phone = item.phone ∧ listItem.type = item.type := by
  rw [ofSerialized_eq, split_serialize dates hitem, if_pos (by simp)]
  refine ⟨_, rfl, rfl, ?_⟩
  exact setType_typeName item.type

theorem ofSerialized_serialize {dates : QDateTimeText} (hdates : dates.Lawful) (heap : Memory)
    {item : CNotificationItem} (hitem : item.OneLine) :
    ofSerialized dates heap (item.serialize dates) = .ok item.toSeconds := by
  have hdate : (dates.toString item.dateTime).split = [dates.toString item.dateTime] :=
    QString.split_of_notMem (hdates.newline_notMem_toString _)
  rw [ofSerialized_eq, split_serialize dates hitem, hdate, if_pos (by simp)]
  simp [withDefaults, toSeconds, imageOf_imageText, setType_typeName, hdates.parse_toString]

theorem serialize_toSeconds (dates : QDateTimeText) (item : CNotificationItem) :
    item.toSeconds.serialize dates = item.serialize dates := by
  simp only [serialize, toSeconds, QDateTimeText.toString_toSeconds]
  rfl

/-- An item made of the parts of a text has no newline in its fields. -/
theorem oneLine_withDefaults (dates : QDateTimeText) (heap : Memory) (text : QString) :
    (withDefaults dates heap text.split).OneLine := by
  have hfield : ∀ i default, QString.newline ∉ default →
      QString.newline ∉ text.split.getD i default := by
    intro i default hdefault
    rw [List.getD_eq_getElem?_getD]
    cases hpart : text.split[i]? with
    | none => simpa using hdefault
    | some part => exact QString.newline_notMem_of_mem_split (List.mem_of_getElem? hpart)
  exact ⟨hfield 1 _ (by decide), hfield 2 _ (by decide), hfield 3 _ (by simp)⟩

/-- The text form is lossless up to the milliseconds of the date. Texts of
items come back as they were, and what was parsed once survives being written
and parsed again. -/
theorem codec_lossless (dates : QDateTimeText) (hdates : dates.Lawful) :
    (∀ (item : CNotificationItem) heap, item.OneLine →
      ofSerialized dates heap (item.serialize dates) = .ok item.toSeconds) ∧
    (∀ text heap, (∃ item : CNotificationItem, item.OneLine ∧ text = item.serialize dates) →
      ∃ item, ofSerialized dates heap text = .ok item ∧ item.serialize dates = text) ∧
    (∀ text : QString, 5 ≤ text.split.length →
      (text.split.getD 4 [] = [] ∨
        imageBytes ≤ (fromBase64 (text.split.getD 4 []).toUtf8).length) →
      ∃ item, ∀ heap, ofSerialized dates heap text = .ok item ∧
        ofSerialized dates heap (item.serialize dates) = .ok item.toSeconds) := by
  refine ⟨fun item heap hitem => ofSerialized_serialize hdates heap hitem, ?_, ?_⟩
  · rintro text heap ⟨item, hitem, rfl⟩
    exact ⟨_, ofSerialized_serialize hdates heap hitem, serialize_toSeconds dates item⟩
  · intro text hfields himage
    refine ⟨withDefaults dates (fun _ => 0) text.split, fun heap => ?_⟩
    have hsame : withDefaults dates heap text.split =
        withDefaults dates (fun _ => 0) text.split := by
      simp only [withDefaults, imageOf_eq_of_complete himage heap (fun _ => 0)]
    constructor
    · rw [ofSerialized_eq, if_pos hfields, hsame]
    · exact ofSerialized_serialize hdates heap (oneLine_withDefaults dates _ text)

/-- A format that writes the epoch as the default format does, and any other
time as a sign and a tally of its seconds. -/
def tallyDates : QDateTimeText where
  format secs :=
    if secs = 0 then QString.lit "Thu Jan 1 00:00:00 1970"
    else (if secs < 0 then 45 else 43) :: List.replicate secs.natAbs 49
  parse
    | 43 :: tally => some (tally.length * 1000)
    | 45 :: tally => some (-tally.length * 1000)
    | text => if text = QString.lit "Thu Jan 1 00:00:00 1970" then some 0 else none

theorem tallyDates_lawful : tallyDates.Lawful where
  parse_format secs := by
    by_cases hzero : secs = 0
    · subst hzero
      decide
    by_cases hneg : secs < 0
    · simp only [tallyDates, if_neg hzero, if_pos hneg, List.length_replicate]
      congr 2
      omega
    · simp only [tallyDates, if_neg hzero, if_neg hneg, List.length_replicate]
      congr 2
      omega
  parse_empty := by decide
  newline_notMem_format secs := by
    simp only [tallyDates]
    split
    · decide
    · split <;> simp [QString.newline]

/-- A call half a second after the epoch, with an image. -/
theorem codec_lossless_call :
    ofSerialized tallyDates (fun _ => 0)
      (serialize tallyDates ⟨.lit "555", .lit "Bob", [], some 500,
        some ⟨List.replicate imageBytes 7, List.length_replicate⟩, .ringingCall⟩) =
      .ok ⟨.lit "555", .lit "Bob", [], some 0,
        some ⟨List.replicate imageBytes 7, List.length_replicate⟩, .ringingCall⟩ :=
  (codec_lossless tallyDates tallyDates_lawful).1
    ⟨.lit "555", .lit "Bob", [], some 500,
      some ⟨List.replicate imageBytes 7, List.length_replicate⟩, .ringingCall⟩ _
    ⟨by decide, by decide, by decide⟩

end CNotificationItem

end BBNotifier
