import BBNotifier.Foundation.Base64
import BBNotifier.Qt.Memory

/-! # Notification items and their text form

The list widgets keep each item as a text: six fields joined by newlines. The
constructor from a text reads the fields back, testing the length of the list
before each access but one; the image field is read through a pointer, so the
parser also depends on the bytes stored behind the decoded ones.
-/

namespace BBNotifier

open Foundation

/-- Milliseconds since the epoch; a null date has none. -/
abbrev QDateTime := Option Int

/-- The default text format of dates: the text of a time given in seconds, and
the time in milliseconds that a text stands for. -/
structure QDateTimeText where
  format : Int → QString
  parse : QString → QDateTime

namespace QDateTimeText

def toString (dates : QDateTimeText) : QDateTime → QString
  | none => []
  | some msecs => dates.format (msecs / 1000)

/-- What is documented of the format. -/
structure Lawful (dates : QDateTimeText) : Prop where
  parse_format : ∀ secs, dates.parse (dates.format secs) = some (secs * 1000)
  parse_empty : dates.parse [] = none
  newline_notMem_format : ∀ secs, QString.newline ∉ dates.format secs

end QDateTimeText

/-- The same time without its milliseconds. -/
def QDateTime.toSeconds (dateTime : QDateTime) : QDateTime := dateTime.map (· / 1000 * 1000)

namespace QDateTimeText

variable {dates : QDateTimeText}

theorem Lawful.newline_notMem_toString (hdates : dates.Lawful) (dateTime : QDateTime) :
    QString.newline ∉ dates.toString dateTime := by
  cases dateTime with
  | none => simp [toString]
  | some msecs => exact hdates.newline_notMem_format _

theorem Lawful.parse_toString (hdates : dates.Lawful) (dateTime : QDateTime) :
    dates.parse (dates.toString dateTime) = dateTime.toSeconds := by
  cases dateTime with
  | none => exact hdates.parse_empty
  | some msecs => exact hdates.parse_format _

/-- The text does not show the milliseconds. -/
theorem toString_toSeconds (dates : QDateTimeText) (dateTime : QDateTime) :
    dates.toString dateTime.toSeconds = dates.toString dateTime := by
  cases dateTime with
  | none => rfl
  | some msecs =>
      simp only [QDateTime.toSeconds, Option.map_some, toString]
      rw [Int.mul_ediv_cancel _ (by decide)]

end QDateTimeText

/-- The bytes of 24 by 24 pixels. -/
@[irreducible]
def imageBytes : Nat := 24 * 24 * 4

/-- A 24 by 24 image in `Format_RGBA8888`. A null image is `none`. -/
@[ext]
structure QImage where
  bits : QByteArray
  length_bits : bits.length = imageBytes
deriving DecidableEq

inductive EType
  | empty
  | ringingCall
  | offhookCall
  | notification
deriving DecidableEq

structure CNotificationItem where
  phone : QString
  name : QString
  data : QString
  dateTime : QDateTime
  image : Option QImage
  type : EType
deriving DecidableEq

namespace EType

/-- The types by their numbers. -/
def all : List EType := [empty, ringingCall, offhookCall, notification]

def typeNames : List QString :=
  [QString.lit "EMPTY", QString.lit "RINGING", QString.lit "OFFHOOK", QString.lit "NOTIF"]

/-- `typeNames[Type]`. -/
def typeName : EType → QString
  | empty => typeNames[0]
  | ringingCall => typeNames[1]
  | offhookCall => typeNames[2]
  | notification => typeNames[3]

end EType

namespace CNotificationItem

/-- `SetType`: the first type of that name, in the order of their numbers. -/
def setType (strType : QString) : EType :=
  match EType.typeNames.findIdx? (strType = ·) with
  | some i => EType.all.getD i .empty
  | none => .empty

/-- The text shown for a notification: `\n` written out becomes a newline. -/
def getUnescapedData (item : CNotificationItem) : QString := unescape item.data
where
  unescape : QString → QString
  | 92 :: 110 :: rest => QString.newline :: unescape rest
  | unit :: rest => unit :: unescape rest
  | [] => []

def fromBase64 (text : QByteArray) : QByteArray := Base64.decode text

def toBase64 (bytes : QByteArray) : QByteArray := Base64.encode bytes

/-- Copy an image from the start of a byte array. -/
def copyImage (byteArray : QByteArray) (heap : Memory) : QImage where
  bits := (Memory.store byteArray heap).read 0 imageBytes
  length_bits := Memory.length_read ..

/-- `dataItems[i]`. -/
def item (dataItems : List QString) (i : Nat) : Except Fault QString :=
  match dataItems[i]? with
  | some text => .ok text
  | none => .error (.indexOutOfRange i dataItems.length)

/-- The constructor from a text. `heap` is what is stored behind the decoded
image. -/
def ofSerialized (dates : QDateTimeText) (heap : Memory) (serializedString : QString) :
    Except Fault CNotificationItem := do
  let dataItems := serializedString.split
  let len := dataItems.length
  -- `split` never returns an empty list, so the type is always set.
  let type ← if len > 0 then setType <$> item dataItems 0 else pure .empty
  let phone ← if len > 1 then item dataItems 1 else pure (QString.lit "Unknown Phone")
  let name ← if len > 2 then item dataItems 2 else pure (QString.lit "Unknown Contact")
  let data ← if len > 3 then item dataItems 3 else pure []
  let byteArray := fromBase64 (← item dataItems 4).toUtf8
  let image ←
    if len > 4 then
      (fun text => if text ≠ [] then some (copyImage byteArray heap) else none) <$>
        item dataItems 4
    else pure none
  let dateTime ← if len > 5 then dates.parse <$> item dataItems 5 else pure none
  return { phone, name, data, dateTime, image, type }

/-- The bytes of an image, none for a null one. -/
def bits (item : CNotificationItem) : QByteArray := (item.image.map QImage.bits).getD []

def serialize (dates : QDateTimeText) (item : CNotificationItem) : QString :=
  let enc := QString.fromUtf8 (toBase64 item.bits)
  item.type.typeName ++ QString.newline :: (item.phone ++ QString.newline :: (item.name ++
    QString.newline :: (item.data ++ QString.newline ::
      ((if item.image.isNone then [] else enc) ++ QString.newline ::
        dates.toString item.dateTime))))

/-- With enough bytes decoded, nothing stored behind them is read. -/
theorem bits_copyImage {byteArray : QByteArray} (h : imageBytes ≤ byteArray.length)
    (heap : Memory) : (copyImage byteArray heap).bits = byteArray.take imageBytes := by
  have hread := @Memory.read_store byteArray heap 0 imageBytes (by rwa [Nat.zero_add])
  rwa [List.drop_zero] at hread

/-! ## The fields that are there -/

/-- The image of a field: null for an empty one. -/
def imageOf (heap : Memory) (text : QString) : Option QImage :=
  if text ≠ [] then some (copyImage (fromBase64 text.toUtf8) heap) else none

/-- The item made of the fields, with the default of each missing one. -/
def withDefaults (dates : QDateTimeText) (heap : Memory) (fields : List QString) :
    CNotificationItem where
  phone := fields.getD 1 (QString.lit "Unknown Phone")
  name := fields.getD 2 (QString.lit "Unknown Contact")
  data := fields.getD 3 []
  dateTime := fields[5]?.elim none dates.parse
  image := imageOf heap (fields.getD 4 [])
  type := setType (fields.getD 0 [])

/-- The access to the fifth field is not guarded, so four fields or fewer are
an access beyond the end. -/
theorem ofSerialized_eq (dates : QDateTimeText) (heap : Memory) (serializedString : QString) :
    ofSerialized dates heap serializedString =
      if 5 ≤ serializedString.split.length then
        .ok (withDefaults dates heap serializedString.split)
      else .error (.indexOutOfRange 4 serializedString.split.length) := by
  have hne : serializedString.split ≠ [] := List.splitOn_ne_nil _ _
  unfold ofSerialized
  generalize serializedString.split = dataItems at hne ⊢
  match dataItems with
  | [] => contradiction
  | [_] | [_, _] | [_, _, _] | [_, _, _, _] => rfl
  | [type, phone, name, data, image] => rfl
  | type :: phone :: name :: data :: image :: dateTime :: rest =>
      simp [item, withDefaults, imageOf, pure, Except.pure, bind, Except.bind]

end CNotificationItem

end BBNotifier
