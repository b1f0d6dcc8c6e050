import BBNotifier.Crypto.AESWrapper

/-! # Settings and their stored form

The members of `CSettingsDialog` that the program works with, how the
constructor reads them from the storage, and how the OK handler writes them.
The key is stored as a list of integers and read back entry by entry.
-/

namespace BBNotifier

/-- The settings in force. -/
@[ext]
structure Settings where
  tcpPort : Int
  aesKey : AESKey
  shouldShowCallPopup : Bool
  shouldShowNotificationPopup : Bool
  maxItemsCount : Int
deriving DecidableEq

namespace Settings

/-- `aesKey.Data[i] = value`. -/
def writeKey (key : AESKey) (i : Nat) (value : UInt8) : Except Fault AESKey :=
  if h : i < 16 then .ok ⟨Function.update key.data ⟨i, h⟩ value⟩
  else .error (.indexOutOfRange i 16)

/-- The loop over the stored key, from the entry at `i` on. -/
def loadKey (i : Nat) (key : AESKey) : List QString → Except Fault AESKey
  | [] => .ok key
  | text :: rest => do
      let key ← writeKey key i (UInt8.ofInt text.toInt)
      loadKey (i + 1) key rest

/-- The reads of the constructor. -/
def load (settingsStorage : QSettings) : Except Fault Settings := do
  let shouldShowCallPopup := (settingsStorage.value (.lit "showCallPopup") (.bool true)).toBool
  let shouldShowNotificationPopup :=
    (settingsStorage.value (.lit "showNotifPopup") (.bool true)).toBool
  let maxItemsCount := (settingsStorage.value (.lit "maxItemsCount") (.int 20)).toInt
  let tcpPort := (settingsStorage.value (.lit "port") (.int 8083)).toInt
  let baKey := (settingsStorage.value (.lit "key") (.list [])).toStringList
  let aesKey ← loadKey 0 .zero baKey
  return { tcpPort, aesKey, shouldShowCallPopup, shouldShowNotificationPopup, maxItemsCount }

/-- The writes of the OK handler. -/
def store (settings : Settings) (settingsStorage : QSettings) : QSettings :=
  ((((settingsStorage.setValue (.lit "port") (.int settings.tcpPort)).setValue
    (.lit "key") settings.aesKey.toQVList).setValue
    (.lit "showCallPopup") (.bool settings.shouldShowCallPopup)).setValue
    (.lit "showNotifPopup") (.bool settings.shouldShowNotificationPopup)).setValue
    (.lit "maxItemsCount") (.int settings.maxItemsCount)

/-! ## Reading a stored key -/

/-- The byte of a stored entry. -/
def keyByte (text : QString) : UInt8 := UInt8.ofInt text.toInt

/-- Entries that fit into the key are written one after the other. -/
theorem loadKey_eq_ok (texts : List QString) (i : Nat) (key : AESKey)
    (hfits : i + texts.length ≤ 16) :
    loadKey i key texts = .ok ⟨fun j =>
      if i ≤ j.val then (texts[j.val - i]?.map keyByte).getD (key.data j) else key.data j⟩ := by
  induction texts generalizing i key with
  | nil => simp [loadKey]
  | cons text rest ih =>
      rw [List.length_cons] at hfits
      have hi : i < 16 := by omega
      rw [loadKey, writeKey, dif_pos hi]
      apply (ih (i + 1) _ (by omega)).trans
      apply congrArg
      apply AESKey.ext
      funext j
      -- Entry `i` is written here; the entries after it are left to the rest.
      by_cases hbefore : j.val < i
      · have hne : j ≠ ⟨i, hi⟩ := fun heq => by simp [heq] at hbefore
        simp only [Function.update_of_ne hne]
        rw [if_neg (by omega), if_neg (by omega)]
      by_cases hhere : j = ⟨i, hi⟩
      · subst hhere
        simp [keyByte]
      · have hne : j.val ≠ i := fun heq => hhere (Fin.ext heq)
        simp only [Function.update_of_ne hhere]
        rw [if_pos (by omega), if_pos (by omega), show j.val - i = j.val - (i + 1) + 1 by omega,
          List.getElem?_cons_succ]

theorem keyByte_number (byte : UInt8) : keyByte (QVariant.int byte.toNat).toString = byte := by
  have hall : ∀ n < 256, keyByte (QVariant.int (n : Nat)).toString = UInt8.ofNat n := by
    decide +kernel
  rw [hall byte.toNat byte.toNat_lt, UInt8.ofNat_toNat]

/-- A stored key is read back. -/
theorem loadKey_toQVList (key : AESKey) :
    loadKey 0 .zero key.toQVList.toStringList = .ok key := by
  have hlength : key.toQVList.toStringList.length = 16 := by
    simp [AESKey.toQVList, QVariant.toStringList]
  rw [loadKey_eq_ok _ _ _ (by omega)]
  apply congrArg
  apply AESKey.ext
  funext j
  have hentry : key.toQVList.toStringList[j.val]? =
      some (QVariant.int (key.data j).toNat).toString := by
    rw [AESKey.toQVList, QVariant.toStringList, List.map_map, List.getElem?_map,
      List.getElem?_ofFn, dif_pos j.isLt]
    rfl
  simp [hentry, keyByte_number]

/-- What was stored is what the next start of the program loads. -/
theorem load_store (settings : Settings) (settingsStorage : QSettings) :
    load (settings.store settingsStorage) = .ok settings := by
  simp (disch := decide) only [load, store, QSettings.value, QSettings.setValue_of_ne,
    QSettings.setValue_self, Option.getD_some, loadKey_toQVList]
  rfl

end Settings

end BBNotifier
