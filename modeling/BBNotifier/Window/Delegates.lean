import BBNotifier.Item.DecodedImage
import BBNotifier.Window.HistoryRefinement
import BBNotifier.Window.Notifications

/-! # The rows of the lists

`CHistoryItemDelegate` and `CNotificationItemDelegate` paint the rows of the two
list widgets. Each parses the text of its row once more, and draws what it finds
on the painter it was lent, by the font of that painter. The height of a row is
asked for beforehand, by the font of the row.
-/

namespace BBNotifier

open Foundation

structure QRect where
  left : Int
  top : Int
  width : Int
  height : Int

structure QFont where
  pixelSize : Int
  bold : Bool
  italic : Bool
deriving DecidableEq

/-- The height of a font, and how far its characters reach below the baseline. -/
structure QFontMetrics where
  height : Nat
  descent : Nat

/-- How texts are measured where they are painted: the metrics of each font, and
the rectangle that a wrapped text takes. -/
structure TextMeasures where
  fontMetrics : QFont → QFontMetrics
  boundingRect : QFont → QRect → QString → QRect

/-- Something drawn: a line of text by its baseline, a text in a rectangle, or
an image by its upper left corner. -/
inductive Drawn (Image : Type)
  | line (font : QFont) (x y : Int) (text : QString)
  | wrapped (font : QFont) (rect : QRect) (text : QString)
  | image (x y : Int) (image : Image)

namespace Drawn

variable {Image : Type}

def text? : Drawn Image → Option QString
  | line _ _ _ text | wrapped _ _ text => some text
  | image .. => none

def image? : Drawn Image → Option Image
  | image _ _ shown => some shown
  | line .. | wrapped .. => none

/-- Where it ends: below its baseline, by the descent of its font, or with the
height of its image. -/
def bottom (measures : TextMeasures) (height : Image → Nat) : Drawn Image → Int
  | line font _ y _ => y + (measures.fontMetrics font).descent
  | wrapped _ rect _ => rect.top + rect.height
  | image _ y shown => y + height shown

end Drawn

structure QPainter (Image : Type) where
  font : QFont
  saved : List QFont
  drawn : List (Drawn Image)

namespace QPainter

variable {Image : Type}

def save (painter : QPainter Image) : QPainter Image :=
  { painter with saved := painter.font :: painter.saved }

def restore (painter : QPainter Image) : QPainter Image :=
  match painter.saved with
  | font :: saved => { painter with font, saved }
  | [] => painter

def setFont (font : QFont) (painter : QPainter Image) : QPainter Image := { painter with font }

def drawText (x y : Int) (text : QString) (painter : QPainter Image) : QPainter Image :=
  { painter with drawn := painter.drawn ++ [.line painter.font x y text] }

def drawWrapped (rect : QRect) (text : QString) (painter : QPainter Image) : QPainter Image :=
  { painter with drawn := painter.drawn ++ [.wrapped painter.font rect text] }

def drawImage (x y : Int) (image : Image) (painter : QPainter Image) : QPainter Image :=
  { painter with drawn := painter.drawn ++ [.image x y image] }

end QPainter

/-- What the style of a row tells: its rectangle, and the metrics of its font. -/
structure QStyleOptionViewItem where
  rect : QRect
  fontMetrics : QFontMetrics

/-- The format `hh:mm:ss`, of a time in seconds. -/
abbrev TimeText := Int → QString

def TimeText.toString (times : TimeText) : QDateTime → QString
  | none => []
  | some msecs => times (msecs / 1000)

theorem TimeText.toString_toSeconds (times : TimeText) (dateTime : QDateTime) :
    times.toString dateTime.toSeconds = times.toString dateTime := by
  cases dateTime with
  | none => rfl
  | some msecs =>
      simp only [QDateTime.toSeconds, Option.map_some, toString]
      rw [Int.mul_ediv_cancel _ (by decide)]

/-! ## Calls -/

namespace EType

def number : EType → Nat
  | empty => 0
  | ringingCall => 1
  | offhookCall => 2
  | notification => 3

end EType

inductive StatusImage
  | missedCall
  | offhookCall
deriving DecidableEq

namespace CHistoryItemDelegate

def statusImages : List StatusImage := [.missedCall, .offhookCall]

def sizeHint (option : QStyleOptionViewItem) : Int := option.fontMetrics.height * 42 / 10

variable (measures : TextMeasures) (dates : QDateTimeText) (times : TimeText) (heap : Memory)
  (height : StatusImage → Nat) (option : QStyleOptionViewItem)

/-- `paint`, with the height of each status image. -/
def paint (text : QString) (painter : QPainter StatusImage) :
    Except Fault (QPainter StatusImage) := do
  let painter := painter.save
  let data ← CNotificationItem.ofSerialized dates heap text
  let smallHeight : Int := (measures.fontMetrics painter.font).height
  let bigHeight := smallHeight * 3 / 2
  let bigFont := { painter.font with pixelSize := bigHeight, bold := true }
  let left := option.rect.left
  let top := option.rect.top
  let painter := painter.drawText (left + 65) (top + bigHeight + smallHeight) data.phone
  let painter := painter.drawText (left + 65) (top + bigHeight + smallHeight * 2)
    (times.toString data.dateTime)
  let painter := painter.setFont bigFont
  let painter := painter.drawText (left + 5) (top + bigHeight - 2) data.name
  let painter ← (if data.type = .ringingCall ∨ data.type = .offhookCall then do
      let i := data.type.number - EType.ringingCall.number
      match statusImages[i]? with
      | some img =>
          return painter.drawImage 30 (top + bigHeight + 2 * smallHeight - height img) img
      | none => .error (.indexOutOfRange i statusImages.length)
    else .ok painter)
  return painter.restore

end CHistoryItemDelegate

/-! ## Notifications -/

namespace CNotificationItemDelegate

variable (measures : TextMeasures) (dates : QDateTimeText) (times : TimeText) (heap : Memory)
  (option : QStyleOptionViewItem)

def paint (text : QString) (painter : QPainter QImage) : Except Fault (QPainter QImage) := do
  let painter := painter.save
  let data ← CNotificationItem.ofSerialized dates heap text
  let smallHeight : Int := (measures.fontMetrics painter.font).height
  let bigHeight := smallHeight * 11 / 10
  let smallFont := { painter.font with italic := true }
  let bigFont := { painter.font with pixelSize := bigHeight }
  let left := option.rect.left
  let top := option.rect.top
  let painter := painter.setFont smallFont
  let painter := painter.drawText (left + 32) (top + smallHeight / 2 + 15)
    (data.phone ++ QString.lit " (" ++ times.toString data.dateTime ++ QString.lit ")")
  let painter := painter.setFont bigFont
  let textRect := measures.boundingRect painter.font
    ⟨left + 3, top + 28, option.rect.width - 7, 100⟩ data.getUnescapedData
  let painter := painter.drawWrapped textRect data.getUnescapedData
  let painter := match data.image with
    | some image => painter.drawImage 3 (top + 4) image
    | none => painter
  return painter.restore

end CNotificationItemDelegate

/-! ## What is painted -/

/-- A painter comes back as it was lent, with some marks drawn. -/
structure QPainter.Draws {Image : Type} (painter next : QPainter Image)
    (marks : List (Drawn Image)) : Prop where
  font : next.font = painter.font
  saved : next.saved = painter.saved
  drawn : next.drawn = painter.drawn ++ marks

/-- A painter between `save` and `restore`. -/
structure QPainter.Saved {Image : Type} (painter current : QPainter Image)
    (marks : List (Drawn Image)) : Prop where
  saved : current.saved = painter.font :: painter.saved
  drawn : current.drawn = painter.drawn ++ marks

namespace QPainter.Saved

variable {Image : Type} {painter current : QPainter Image} {marks : List (Drawn Image)}

theorem save (painter : QPainter Image) : painter.Saved painter.save [] :=
  ⟨rfl, (List.append_nil _).symm⟩

theorem setFont (hsaved : painter.Saved current marks) (font : QFont) :
    painter.Saved (current.setFont font) marks :=
  ⟨hsaved.saved, hsaved.drawn⟩

theorem drawText (hsaved : painter.Saved current marks) (x y : Int) (text : QString) :
    painter.Saved (current.drawText x y text) (marks ++ [.line current.font x y text]) := by
  refine ⟨hsaved.saved, ?_⟩
  rw [QPainter.drawText, hsaved.drawn, List.append_assoc]

theorem drawWrapped (hsaved : painter.Saved current marks) (rect : QRect) (text : QString) :
    painter.Saved (current.drawWrapped rect text)
      (marks ++ [.wrapped current.font rect text]) := by
  refine ⟨hsaved.saved, ?_⟩
  rw [QPainter.drawWrapped, hsaved.drawn, List.append_assoc]

theorem drawImage (hsaved : painter.Saved current marks) (x y : Int) (image : Image) :
    painter.Saved (current.drawImage x y image) (marks ++ [.image x y image]) := by
  refine ⟨hsaved.saved, ?_⟩
  rw [QPainter.drawImage, hsaved.drawn, List.append_assoc]

theorem restore (hsaved : painter.Saved current marks) : painter.Draws current.restore marks := by
  simp only [QPainter.restore, hsaved.saved]
  exact ⟨rfl, rfl, hsaved.drawn⟩

end QPainter.Saved

/-- The row was measured by a font as high as the one it is painted with, and
neither that one nor the big one made of it reaches far below its baseline. -/
structure FitsRow (measures : TextMeasures) (option : QStyleOptionViewItem) (font : QFont) :
    Prop where
  height : option.fontMetrics.height = (measures.fontMetrics font).height
  descent : 10 * (measures.fontMetrics font).descent ≤ 7 * option.fontMetrics.height
  bigDescent : 10 * (measures.fontMetrics { font with
      pixelSize := (measures.fontMetrics font).height * 3 / 2, bold := true }).descent ≤
    27 * option.fontMetrics.height

/-- The row of a call: its phone, time and name, and one image for its status,
all drawn down to the end of the row at most if the fonts fit. -/
structure PaintsCall (measures : TextMeasures) (times : TimeText) (height : StatusImage → Nat)
    (option : QStyleOptionViewItem) (font : QFont) (call : CNotificationItem)
    (marks : List (Drawn StatusImage)) : Prop where
  texts : marks.filterMap Drawn.text? = [call.phone, times.toString call.dateTime, call.name]
  images : marks.filterMap Drawn.image? =
    [if call.type = .ringingCall then .missedCall else .offhookCall]
  inside : FitsRow measures option font → ∀ mark ∈ marks,
    mark.bottom measures height ≤ option.rect.top + CHistoryItemDelegate.sizeHint option

/-- The row of a notification: its phone and time, its data, and its image if it
has one. -/
structure PaintsNotification (times : TimeText) (data : CNotificationItem)
    (marks : List (Drawn QImage)) : Prop where
  texts : marks.filterMap Drawn.text? =
    [data.phone ++ QString.lit " (" ++ times.toString data.dateTime ++ QString.lit ")",
      data.getUnescapedData]
  images : marks.filterMap Drawn.image? = data.image.toList

section

variable {dates : QDateTimeText} (hdates : dates.Lawful) (measures : TextMeasures)
  (times : TimeText) (heap : Memory) (option : QStyleOptionViewItem)

include hdates

theorem paint_call (height : StatusImage → Nat) {call : ParsedItem}
    (htype : call.val.type = .ringingCall ∨ call.val.type = .offhookCall)
    (painter : QPainter StatusImage) :
    ∃ next marks, CHistoryItemDelegate.paint measures dates times heap height option
        (call.text dates) painter = .ok next ∧
      painter.Draws next marks ∧
      PaintsCall measures times height option painter.font call.val marks := by
  have hparsed := CNotificationItem.ofSerialized_serialize hdates heap call.property
  have hsame : call.val.toSeconds.type = call.val.type := rfl
  have hstatus : CHistoryItemDelegate.statusImages[
      call.val.type.number - EType.ringingCall.number]? =
        some (if call.val.type = .ringingCall then .missedCall else .offhookCall) := by
    rcases htype with htype | htype <;> rw [htype] <;> rfl
  simp only [ParsedItem.text, CHistoryItemDelegate.paint, hparsed, bind, Except.bind, hsame,
    if_pos htype, hstatus, pure, Except.pure]
  refine ⟨_, _, rfl,
    (((((QPainter.Saved.save painter).drawText _ _ _).drawText _ _ _).setFont _).drawText _ _
      _).drawImage _ _ _ |>.restore, ⟨?_, rfl, ?_⟩⟩
  · rw [← times.toString_toSeconds call.val.dateTime]
    rfl
  · rintro ⟨hheight, hdescent, hbigDescent⟩ mark hmark
    have hsizeHint : CHistoryItemDelegate.sizeHint option =
        (measures.fontMetrics painter.font).height * 42 / 10 := by
      rw [CHistoryItemDelegate.sizeHint, hheight]
    rw [hheight] at hdescent hbigDescent
    simp only [List.nil_append, List.cons_append, List.mem_cons, List.not_mem_nil, or_false]
      at hmark
    rw [hsizeHint]
    -- The phone and the time in the font of the painter, the name in the big one.
    rcases hmark with rfl | rfl | rfl | rfl <;>
      simp only [Drawn.bottom, QPainter.save, QPainter.drawText, QPainter.setFont] <;> omega

theorem paint_notification (data : ParsedItem) (painter : QPainter QImage) :
    ∃ next marks, CNotificationItemDelegate.paint measures dates times heap option
        (data.text dates) painter = .ok next ∧
      painter.Draws next marks ∧ PaintsNotification times data.val marks := by
  have hparsed := CNotificationItem.ofSerialized_serialize hdates heap data.property
  simp only [ParsedItem.text, CNotificationItemDelegate.paint, hparsed, bind, Except.bind, pure,
    Except.pure]
  cases himage : data.val.toSeconds.image with
  | none =>
      refine ⟨_, _, rfl, ((((QPainter.Saved.save painter).setFont _).drawText _ _ _).setFont
        _).drawWrapped _ _ |>.restore, ⟨?_, ?_⟩⟩
      · rw [← times.toString_toSeconds data.val.dateTime]
        rfl
      · exact (congrArg Option.toList himage).symm
  | some image =>
      refine ⟨_, _, rfl, (((((QPainter.Saved.save painter).setFont _).drawText _ _ _).setFont
        _).drawWrapped _ _).drawImage _ _ _ |>.restore, ⟨?_, ?_⟩⟩
      · rw [← times.toString_toSeconds data.val.dateTime]
        rfl
      · exact (congrArg Option.toList himage).symm

end

/-- Only ringing and accepted calls are the latest of a phone. -/
theorem type_of_latestCall {events : List WindowEvent} {phone : QString} {call : ParsedItem}
    (hlatest : latestCall events phone = some call) :
    call.val.type = .ringingCall ∨ call.val.type = .offhookCall := by
  have hmem := List.mem_of_mem_filter (List.mem_of_getLast? hlatest)
  obtain ⟨event, -, hcall⟩ := List.mem_filterMap.mp hmem
  cases event with
  | newCall data surroundings =>
      rw [WindowEvent.call?] at hcall
      split at hcall
      next htype =>
        obtain rfl := Option.some.inj hcall
        exact htype
      next => contradiction
  | btnClearHistoryClicked | change | settingsChanged => contradiction

/-- The notifications since the last clear of their tab. -/
def notificationsSinceClear (events : List WindowEvent) : List ParsedItem :=
  (events.rtakeWhile (! ·.isNotificationsClear)).filterMap WindowEvent.notification?

/-- In every reachable state all rows can be painted, on any painter, and give
it back as it was, and the images in their texts are whole. The rows of the history
show the latest calls of different phones, in the order of their ringing, with the
image of a missed call exactly for those not accepted. The rows of the notifications
show the last ones received since their clear, with their images. -/
theorem rows_of_run (dates : QDateTimeText) (hdates : dates.Lawful) (measures : TextMeasures)
    (times : TimeText) (heap : Memory) (height : StatusImage → Nat)
    (option : QStyleOptionViewItem) (initial : Settings) (events : List WindowEvent) :
    ∃ session phones notifications,
      run (Session.step dates) (Session.new initial) events = .ok session ∧
      phones.Nodup ∧ phones <:+ ringOrder events ∧
      List.Forall₂ (fun phone text => CNotificationItem.ImageIsWhole text ∧
        ∃ call, latestCall events phone = some call ∧ ∀ painter, ∃ next marks,
          CHistoryItemDelegate.paint measures dates times heap height option text painter =
            .ok next ∧
          painter.Draws next marks ∧
          PaintsCall measures times height option painter.font call.val marks)
        phones session.window.listHistory ∧
      notifications <:+ notificationsSinceClear events ∧
      List.Forall₂ (fun (data : ParsedItem) text => CNotificationItem.ImageIsWhole text ∧
        ∀ painter, ∃ next marks,
          CNotificationItemDelegate.paint measures dates times heap option text painter =
            .ok next ∧
          painter.Draws next marks ∧ PaintsNotification times data.val marks)
        notifications session.window.listNotifications := by
  obtain ⟨session, hrun, ⟨history, hfollows⟩, hsuffix⟩ :=
    Session.run_notifications dates initial events
  obtain ⟨notifications, hlast, htexts⟩ := List.suffix_map_iff.mp hsuffix
  refine ⟨session, history.keys, notifications, hrun, history.nodup, hfollows.history.recent,
    ?_, hlast, ?_⟩
  · rw [hfollows.shows.listHistory]
    refine (hfollows.history.texts dates).imp ?_
    rintro phone text ⟨call, hlatest, rfl⟩
    exact ⟨CNotificationItem.imageIsWhole_serialize dates call.property, call, hlatest,
      paint_call hdates measures times heap option height (type_of_latestCall hlatest)⟩
  · rw [htexts, List.forall₂_map_right_iff, List.forall₂_same]
    intro data _
    exact ⟨CNotificationItem.imageIsWhole_serialize dates data.property,
      paint_notification hdates measures times heap option data⟩

/-- A missed call, in fonts of eight pixels to the line and two of them below it. -/
theorem rows_of_run_missed_call :
    ∃ session phones, run (Session.step CNotificationItem.tallyDates)
        (Session.new ⟨8083, .zero, true, true, 20⟩)
        [.newCall ⟨⟨.lit "555", .lit "Bob", [], some 0, none, .ringingCall⟩,
          ⟨by decide, by decide, by decide⟩⟩ ⟨fun _ => 0, true, true⟩] = .ok session ∧
      List.Forall₂ (fun (_ : QString) text => ∀ painter, ∃ next marks,
        CHistoryItemDelegate.paint ⟨fun _ => ⟨8, 2⟩, fun _ rect _ => rect⟩
            CNotificationItem.tallyDates (fun _ => []) (fun _ => 0) (fun _ => 16)
            ⟨⟨0, 0, 100, 33⟩, ⟨8, 2⟩⟩ text painter = .ok next ∧
        painter.Draws next marks ∧ ∀ mark ∈ marks,
          mark.bottom ⟨fun _ => ⟨8, 2⟩, fun _ rect _ => rect⟩ (fun _ => 16) ≤ 33)
        phones session.window.listHistory := by
  obtain ⟨session, phones, -, hrun, -, -, hrows, -⟩ :=
    rows_of_run CNotificationItem.tallyDates CNotificationItem.tallyDates_lawful
      ⟨fun _ => ⟨8, 2⟩, fun _ rect _ => rect⟩ (fun _ => []) (fun _ => 0) (fun _ => 16)
      ⟨⟨0, 0, 100, 33⟩, ⟨8, 2⟩⟩ ⟨8083, .zero, true, true, 20⟩
      [.newCall ⟨⟨.lit "555", .lit "Bob", [], some 0, none, .ringingCall⟩,
        ⟨by decide, by decide, by decide⟩⟩ ⟨fun _ => 0, true, true⟩]
  refine ⟨session, phones, hrun, hrows.imp ?_⟩
  rintro phone text ⟨-, call, -, hpaint⟩ painter
  obtain ⟨next, marks, hnext, hdraws, hpaints⟩ := hpaint painter
  exact ⟨next, marks, hnext, hdraws, hpaints.inside ⟨rfl, by simp, by simp⟩⟩

end BBNotifier
