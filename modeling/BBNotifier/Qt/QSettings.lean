import Mathlib.Data.Nat.Digits.Lemmas
import Mathlib.Logic.Function.Basic
import BBNotifier.Qt.QString

/-! # Stored settings

`QSettings` returns what was last set under a key. Numbers are read back from
their decimal texts.
-/

namespace BBNotifier

namespace QString

/-- The decimal text of a number. -/
def number (n : Nat) : QString :=
  if n = 0 then [48] else (Nat.digits 10 n).reverse.map fun digit => UInt16.ofNat (48 + digit)

/-- The value of a digit. -/
def digit? (unit : UInt16) : Option Nat :=
  if 48 ≤ unit ∧ unit ≤ 57 then some (unit.toNat - 48) else none

/-- The value of a text of digits, read from the left. -/
def digitsValue (text : QString) : Option Nat :=
  text.foldlM (fun value unit => (digit? unit).map (10 * value + ·)) 0

/-- Lower case, of the letters the stored flags are compared on. -/
def toLower (text : QString) : QString :=
  text.map fun unit => if 65 ≤ unit ∧ unit ≤ 90 then unit + 32 else unit

/-- `QChar::isSpace`: the separators, and those control characters that count as
white space. -/
def isSpace (unit : UInt16) : Bool :=
  unit = 32 ∨ 9 ≤ unit ∧ unit ≤ 13 ∨ unit = 0x85 ∨ unit = 0xA0 ∨ unit = 0x1680 ∨
    0x2000 ≤ unit ∧ unit ≤ 0x200A ∨ unit = 0x2028 ∨ unit = 0x2029 ∨ unit = 0x202F ∨
    unit = 0x205F ∨ unit = 0x3000

def trimmed (text : QString) : QString :=
  ((text.dropWhile isSpace).reverse.dropWhile isSpace).reverse

/-- The number a text of digits stands for, `none` when it is not one. -/
def toNat? (text : QString) : Option Nat := if text = [] then none else digitsValue text

/-- `QString::toInt`: 0 when the text is not a number or does not fit an int. -/
def toInt (text : QString) : Int :=
  let value : Option Int := match text.trimmed with
    | 45 :: digits => (toNat? digits).map fun n => -(n : Int)
    | 43 :: digits => (toNat? digits).map fun n => (n : Int)
    | digits => (toNat? digits).map fun n => (n : Int)
  match value with
  | some n => if -(2 ^ 31) ≤ n ∧ n < 2 ^ 31 then n else 0
  | none => 0

/-- A number written with at least `width` digits. -/
def padded (width n : Nat) : QString :=
  List.replicate (width - (number n).length) 48 ++ number n

theorem digitsValue_digits (digits : List Nat) (hdigits : ∀ digit ∈ digits, digit < 10) :
    digitsValue (digits.reverse.map fun digit => UInt16.ofNat (48 + digit)) =
      some (Nat.ofDigits 10 digits) := by
  induction digits with
  | nil => rfl
  | cons digit rest ih =>
      rw [List.forall_mem_cons] at hdigits
      have hread : ∀ n < 10, digit? (48 + UInt16.ofNat n) = some n := by decide
      have hrest := ih hdigits.2
      rw [digitsValue] at hrest
      -- The lowest digit is read last.
      rw [digitsValue, List.reverse_cons, List.map_append, List.foldlM_append, hrest,
        Nat.ofDigits_cons, Nat.add_comm]
      simp [hread digit hdigits.1]

/-- A number is read from its decimal text. -/
theorem digitsValue_number (n : Nat) : digitsValue (number n) = some n := by
  rw [number]
  split
  next hzero =>
    subst hzero
    rfl
  · rw [digitsValue_digits _ fun _ hdigit => Nat.digits_lt_base (by decide) hdigit,
      Nat.ofDigits_digits]

theorem digitsValue_padded (width n : Nat) : digitsValue (padded width n) = some n := by
  rw [padded]
  induction width - (number n).length with
  | zero => exact digitsValue_number n
  | succ count ih => exact ih

theorem mem_padded {width n : Nat} {unit : UInt16} (h : unit ∈ padded width n) : unit ≤ 57 := by
  rw [padded, List.mem_append] at h
  rcases h with hzero | hdigit
  · rw [List.eq_of_mem_replicate hzero]
    decide
  rw [number] at hdigit
  split at hdigit
  · rw [List.mem_singleton.mp hdigit]
    decide
  · obtain ⟨digit, hmem, rfl⟩ := List.mem_map.mp hdigit
    have hall : ∀ n < 10, UInt16.ofNat (48 + n) ≤ 57 := by decide
    exact hall digit (Nat.digits_lt_base (by decide) (List.mem_reverse.mp hmem))

theorem length_number_le {width n : Nat} (hwidth : 0 < width) (hn : n < 10 ^ width) :
    (number n).length ≤ width := by
  rw [number]
  split
  · exact hwidth
  · rw [List.length_map, List.length_reverse]
    exact (Nat.digits_length_le_iff (by decide) n).mpr hn

theorem length_padded {width n : Nat} (hwidth : 0 < width) (hn : n < 10 ^ width) :
    (padded width n).length = width := by
  rw [padded, List.length_append, List.length_replicate]
  exact Nat.sub_add_cancel (length_number_le hwidth hn)

end QString

inductive QVariant
  | bool (value : Bool)
  | int (value : Int)
  | string (text : QString)
  | list (values : List QVariant)

namespace QVariant

def toInt : QVariant → Int
  | .bool value => if value then 1 else 0
  | .int value => value
  | .string text => text.toInt
  | .list _ => 0

def toBool : QVariant → Bool
  | .bool value => value
  | .int value => value ≠ 0
  | .string text =>
      ! (text = [] ∨ text = QString.lit "0" ∨ text.toLower = QString.lit "false")
  | .list _ => false

def toString : QVariant → QString
  | .bool value => if value then QString.lit "true" else QString.lit "false"
  | .int value =>
      if value < 0 then QString.lit "-" ++ QString.number value.natAbs
      else QString.number value.natAbs
  | .string text => text
  | .list _ => []

/-- A list comes back as the texts of its members, a text as itself. -/
def toStringList : QVariant → List QString
  | .list values => values.map toString
  | .string text => [text]
  | _ => []

end QVariant

/-- The entries of the storage, by key. -/
abbrev QSettings := QString → Option QVariant

namespace QSettings

def value (settings : QSettings) (key : QString) (default : QVariant) : QVariant :=
  (settings key).getD default

def setValue (settings : QSettings) (key : QString) (value : QVariant) : QSettings :=
  Function.update settings key (some value)

theorem setValue_self (settings : QSettings) (key : QString) (value : QVariant) :
    settings.setValue key value key = some value := Function.update_self ..

theorem setValue_of_ne (settings : QSettings) {key other : QString} (h : other ≠ key)
    (value : QVariant) : settings.setValue key value other = settings other :=
  Function.update_of_ne h ..

end QSettings

end BBNotifier
