import BBNotifier.Settings.SavedSettings

/-! # Loading the stored key

The constructor writes one byte of the key for each entry of the stored list,
and nothing in it asks how many entries there are.
-/

namespace BBNotifier

namespace Settings

/-- With more entries than the key has bytes, the write behind its end is
reached. -/
theorem loadKey_eq_error (texts : List QString) (i : Nat) (key : AESKey) (hi : i ≤ 16)
    (hlong : 16 < i + texts.length) :
    loadKey i key texts = .error (.indexOutOfRange 16 16) := by
  induction texts generalizing i key with
  | nil => exact absurd hi (not_le.mpr hlong)
  | cons text rest ih =>
      rw [List.length_cons] at hlong
      rw [loadKey, writeKey]
      by_cases hlast : i < 16
      · rw [dif_pos hlast]
        exact ih (i + 1) _ hlast (by omega)
      · obtain rfl : i = 16 := by omega
        rfl

theorem keyByte_toNat (text : QString) : ((keyByte text).toNat : Int) = text.toInt % 256 := by
  rw [keyByte, UInt8.ofInt, UInt8.toNat_ofNat']
  omega

end Settings

namespace CSettingsDialog

/-- The construction over a storage with a list of strings under the key: each
byte of the key is its entry modulo 256, and zero where there is none. All else
is as without a stored key. -/
def LoadsKey (settingsStorage : QSettings) (registry : Option QString) (texts : List QString) :
    Prop :=
  ∃ dialog without : CSettingsDialog,
    construct (settingsStorage.setValue (.lit "key") (.list (texts.map .string))) registry =
      .ok dialog ∧
    construct (settingsStorage.setValue (.lit "key") (.list [])) registry = .ok without ∧
    (∀ i : Fin 16, ((dialog.settings.aesKey.data i).toNat : Int) =
      (texts[i.val]?.elim 0 QString.toInt) % 256) ∧
    dialog = { without with
      settings := { without.settings with aesKey := dialog.settings.aesKey }
      settingsStorage := dialog.settingsStorage }

theorem toStringList_map_string (texts : List QString) :
    (QVariant.list (texts.map .string)).toStringList = texts := by
  rw [QVariant.toStringList, List.map_map]
  exact List.map_id _

/-- What the constructor makes of the other entries, with the key it loaded. -/
def withKey (settingsStorage : QSettings) (registry : Option QString) (value : QVariant)
    (aesKey : AESKey) : CSettingsDialog where
  settings :=
    { tcpPort := (settingsStorage.value (.lit "port") (.int 8083)).toInt
      aesKey
      shouldShowCallPopup := (settingsStorage.value (.lit "showCallPopup") (.bool true)).toBool
      shouldShowNotificationPopup :=
        (settingsStorage.value (.lit "showNotifPopup") (.bool true)).toBool
      maxItemsCount := (settingsStorage.value (.lit "maxItemsCount") (.int 20)).toInt }
  settingsStorage := settingsStorage.setValue (.lit "key") value
  registry
  ui := setupUi
  isVisible := false
  timerActive := false

theorem construct_setValue_key (settingsStorage : QSettings) (registry : Option QString)
    (value : QVariant) :
    construct (settingsStorage.setValue (.lit "key") value) registry =
      withKey settingsStorage registry value <$> Settings.loadKey 0 .zero value.toStringList := by
  rw [construct, Settings.load]
  simp (disch := decide) only [QSettings.value, QSettings.setValue_of_ne, QSettings.setValue_self,
    Option.getD_some]
  cases Settings.loadKey 0 .zero value.toStringList with
  | error => rfl
  | ok => rfl

/-- Loading the stored key gives the entries exactly when there are no more of
them than the key has bytes. -/
theorem loads_key_iff (settingsStorage : QSettings) (registry : Option QString)
    (texts : List QString) : LoadsKey settingsStorage registry texts ↔ texts.length ≤ 16 := by
  constructor
  · rintro ⟨dialog, -, hdialog, -⟩
    by_contra hlong
    rw [construct_setValue_key, toStringList_map_string,
      Settings.loadKey_eq_error texts 0 .zero (Nat.zero_le _) (by omega)] at hdialog
    contradiction
  · intro hfits
    have hdialog := construct_setValue_key settingsStorage registry (.list (texts.map .string))
    rw [toStringList_map_string, Settings.loadKey_eq_ok texts 0 .zero (by omega)] at hdialog
    have hwithout := construct_setValue_key settingsStorage registry (.list [])
    refine ⟨_, _, hdialog, hwithout, ?_, rfl⟩
    intro i
    simp only [withKey, Nat.zero_le, if_true, Nat.sub_zero]
    cases texts[i.val]? with
    | none => rfl
    | some text => exact Settings.keyByte_toNat text

/-- The entry behind the end of the key is written. -/
theorem not_loads_key :
    ¬ ∀ (settingsStorage : QSettings) (registry : Option QString) (texts : List QString),
      LoadsKey settingsStorage registry texts := by
  intro hall
  obtain ⟨dialog, -, hdialog, -⟩ := hall (fun _ => none) none (List.replicate 17 (.lit "1"))
  have herror : construct
      (QSettings.setValue (fun _ => none) (.lit "key")
        (.list ((List.replicate 17 (.lit "1")).map .string))) none =
      .error (.indexOutOfRange 16 16) := rfl
  rw [herror] at hdialog
  contradiction

end CSettingsDialog

end BBNotifier
