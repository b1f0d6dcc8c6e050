import BBNotifier.Item.Serialization

/-! # Where the bytes of an icon come from

The image of an item is copied through a pointer to the decoded bytes of its
field, always with the extent of 24 by 24 pixels. The field is only compared
with the empty text before, so a field that decodes to fewer bytes gets an image
that ends in whatever is stored behind them.
-/

namespace BBNotifier

open Foundation

namespace CNotificationItem

/-- The image the decoded bytes are good for: their first 24 by 24 pixels, and
none where they are fewer. -/
def decodedImage (byteArray : QByteArray) : Option QByteArray :=
  if imageBytes ≤ byteArray.length then some (byteArray.take imageBytes) else none

/-- The bytes that the image field of a text decodes to. -/
def imageField (text : QString) : QByteArray := fromBase64 (text.split.getD 4 []).toUtf8

/-- The image field of a text is empty or decodes to a whole image. -/
def ImageIsWhole (text : QString) : Prop :=
  text.split.getD 4 [] = [] ∨ imageBytes ≤ (imageField text).length

/-- What the constructor from a text reads through its pointer to the decoded
bytes. -/
def imageReads (text : QString) : List BufferRead :=
  if text.split.getD 4 [] ≠ [] then [⟨0, imageBytes, (imageField text).length⟩] else []

theorem imageReads_inside_iff (text : QString) :
    (∀ read ∈ imageReads text, read.Inside) ↔ ImageIsWhole text := by
  rw [imageReads, ImageIsWhole]
  by_cases hempty : text.split.getD 4 [] = []
  · rw [if_neg (not_not.mpr hempty)]
    exact iff_of_true (by simp) (.inl hempty)
  · rw [if_pos hempty, List.forall_mem_singleton, BufferRead.Inside, Nat.zero_add]
    exact (or_iff_right hempty).symm

/-- The text of an item has the image of the item, if any. -/
theorem imageIsWhole_serialize (dates : QDateTimeText) {item : CNotificationItem}
    (hitem : item.OneLine) : ImageIsWhole (item.serialize dates) := by
  have hfield : (item.serialize dates).split.getD 4 [] = item.imageText := by
    rw [split_serialize dates hitem]
    rfl
  rw [ImageIsWhole, imageField, hfield]
  cases himage : item.image with
  | none => exact .inl (by rw [imageText, himage]; rfl)
  | some image =>
      right
      rw [fromBase64_imageText himage]
      exact image.length_bits.ge

/-- Parsing a text gives the image of the decoded bytes and no other, and gives
it every time. -/
structure ImageFromMessage (dates : QDateTimeText) (text : QString) : Prop where
  decoded : ∀ heap, ∃ item, ofSerialized dates heap text = .ok item ∧
    item.image.map QImage.bits = decodedImage (imageField text)
  unique : ∀ heap heap' item item', ofSerialized dates heap text = .ok item →
    ofSerialized dates heap' text = .ok item' → item.image = item'.image

/-- The image of a field is what was decoded from it exactly when the field is
empty or long enough. -/
theorem imageOf_eq_decodedImage_iff (heap : Memory) (field : QString) :
    (imageOf heap field).map QImage.bits = decodedImage (fromBase64 field.toUtf8) ↔
      field = [] ∨ imageBytes ≤ (fromBase64 field.toUtf8).length := by
  by_cases hempty : field = []
  · subst hempty
    have hnone : decodedImage (fromBase64 (QString.toUtf8 [])) = none := by decide +kernel
    exact iff_of_true hnone.symm (.inl rfl)
  rw [imageOf, if_pos hempty, decodedImage, Option.map_some]
  by_cases hlength : imageBytes ≤ (fromBase64 field.toUtf8).length
  · rw [if_pos hlength, bits_copyImage hlength]
    exact iff_of_true rfl (.inr hlength)
  · rw [if_neg hlength]
    exact iff_of_false (Option.some_ne_none _) (not_or.mpr ⟨hempty, hlength⟩)

/-- For every message with its image field, the image comes from the message
only exactly when that field is empty or decodes to a whole image. -/
theorem image_from_message_iff (dates : QDateTimeText) (text : QString)
    (hfields : 5 ≤ text.split.length) :
    ImageFromMessage dates text ↔
      text.split.getD 4 [] = [] ∨ imageBytes ≤ (imageField text).length := by
  have hparsed : ∀ heap, ofSerialized dates heap text =
      .ok (withDefaults dates heap text.split) := by
    intro heap
    rw [ofSerialized_eq, if_pos hfields]
  constructor
  · intro hmessage
    obtain ⟨item, hitem, himage⟩ := hmessage.decoded fun _ => 0
    rw [hparsed] at hitem
    rw [← Except.ok.inj hitem] at himage
    exact (imageOf_eq_decodedImage_iff _ _).mp himage
  · intro hcomplete
    constructor
    · intro heap
      exact ⟨_, hparsed heap, (imageOf_eq_decodedImage_iff _ _).mpr hcomplete⟩
    · intro heap heap' item item' hitem hitem'
      rw [hparsed] at hitem hitem'
      rw [← Except.ok.inj hitem, ← Except.ok.inj hitem']
      exact imageOf_eq_of_complete hcomplete heap heap'

/-- The text of a call with an image. -/
theorem image_from_message_iff_call :
    ImageFromMessage tallyDates (serialize tallyDates ⟨.lit "555", .lit "Bob", [], some 0,
      some ⟨List.replicate imageBytes 7, List.length_replicate⟩, .ringingCall⟩) := by
  have hitem : OneLine ⟨.lit "555", .lit "Bob", [], some 0,
      some ⟨List.replicate imageBytes 7, List.length_replicate⟩, .ringingCall⟩ :=
    ⟨by decide, by decide, by decide⟩
  have hfields := split_serialize tallyDates hitem
  apply (image_from_message_iff tallyDates _ _).mpr
  · right
    rw [imageField, hfields, List.getD_cons_succ, List.getD_cons_succ, List.getD_cons_succ,
      List.getD_cons_succ, List.getD_cons_zero, fromBase64_imageText rfl]
    exact List.length_replicate.ge
  · rw [hfields]
    exact Nat.le_add_left 5 _

/-- One decoded byte makes an image. -/
theorem not_image_from_message :
    ¬ ∀ (dates : QDateTimeText) (text : QString), 5 ≤ text.split.length →
      ImageFromMessage dates text := by
  intro hall
  obtain ⟨item, hitem, himage⟩ :=
    (hall tallyDates (.lit "NOTIF\n555\nBob\nHi\nAA==") (by decide)).decoded fun _ => 0
  have hnone : decodedImage (imageField (.lit "NOTIF\n555\nBob\nHi\nAA==")) = none := by
    decide +kernel
  rw [ofSerialized_eq, if_pos (by decide)] at hitem
  rw [← Except.ok.inj hitem, hnone] at himage
  have hfield : (QString.lit "NOTIF\n555\nBob\nHi\nAA==").split.getD 4 [] = QString.lit "AA==" := by
    decide
  simp only [withDefaults, hfield, imageOf] at himage
  rw [if_pos (by decide)] at himage
  contradiction

end CNotificationItem

end BBNotifier
