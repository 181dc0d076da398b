import MDCMotorControl.Settings.Record

/-!
# Saving under failure and power loss

A save erases the only copy of the record before it writes the new one, with the
checksum last.  Whatever operation falls short, the next start finds the old
record, the new one, or a partial image, and a partial image passes the two
checks only when its checksum happens to be the erased word.

Main results:

- Theorem `recordValid_partialImage`: when a partial image passes the checks.
- Theorem `init_after_save`: what the next start loads after a save that was cut
  off anywhere.
- Theorem `save_not_atomic`: a reset after the erase loses both records.
-/

namespace MDCMotorControl
namespace Settings

open FlashSector

variable {crc : List (BitVec 32) → BitVec 32}

/-- A partial image of a sealed record passes the checks exactly when its magic
word has been programmed and its checksum is the erased word. -/
theorem recordValid_partialImage (new : SystemSettings) (k : Fin 12) :
    RecordValid crc (partialImage erasedWord (sealed crc new).words k) ↔
      0 < k ∧ crc (payload (partialImage erasedWord (sealed crc new).words k)) = erasedWord := by
  -- word 11 is never programmed before word `k ≤ 11` has fallen short
  have hcrc : partialImage erasedWord (sealed crc new).words k 11 = erasedWord := by
    have hk : ¬ (11 : Fin 12) < k := by
      have := k.isLt
      omega
    rw [partialImage, if_neg hk]
  have hmagic : partialImage erasedWord (sealed crc new).words k 0 = settingsMagicWord ↔ 0 < k := by
    by_cases hk : (0 : Fin 12) < k
    · rw [partialImage, if_pos hk]
      exact iff_of_true rfl hk
    · rw [partialImage, if_neg hk]
      exact iff_of_false (by decide) hk
  rw [RecordValid, hcrc, hmagic, calculateSettingsCRC, SystemSettings.words_ofWords]

section NextStart

variable (ops repair : Outcomes 12) (new ram : SystemSettings) (st : Storage)

/-- The RAM copy that the next start loads from what a save left in Flash. -/
def loadedAfterSave (crc : List (BitVec 32) → BitVec 32) : SystemSettings :=
  (appSettingsInit crc repair ⟨(appSettingsSave crc ops new st).1.flash, ram⟩).active

/-- If the sector was not erased, the next start loads the previous record. -/
theorem loaded_of_not_erased (hvalid : RecordValid crc st.flash)
    (herase : ops.erase ≠ .completed) :
    loadedAfterSave ops repair new ram st crc = .ofWords st.flash := by
  have hflash : (appSettingsSave crc ops new st).1.flash = st.flash := by
    rw [appSettingsSave_flash, rewrite_of_not_erased herase]
  rw [loadedAfterSave, appSettingsInit_active_of_valid (by rwa [hflash]), hflash]

/-- If every operation completed, the next start loads the new record. -/
theorem loaded_of_completed (herase : ops.erase = .completed)
    (hall : ∀ i, ops.program i = .completed) :
    loadedAfterSave ops repair new ram st crc = sealed crc new := by
  have hflash : (appSettingsSave crc ops new st).1.flash = (sealed crc new).words := by
    rw [appSettingsSave_flash, rewrite_of_completed herase hall]
  rw [loadedAfterSave,
    appSettingsInit_active_of_valid (by rw [hflash]; exact recordValid_sealed new), hflash,
    SystemSettings.ofWords_words]

/-- If word `k` was the first not to be programmed, the next start loads the
partial image in case its checksum is the erased word, and the factory settings
otherwise. -/
theorem loaded_of_first (herase : ops.erase = .completed) {k : Fin 12}
    (hbefore : ∀ i < k, ops.program i = .completed) (hk : ops.program k ≠ .completed) :
    let image := partialImage erasedWord (sealed crc new).words k
    if 0 < k ∧ crc (payload image) = erasedWord then
      loadedAfterSave ops repair new ram st crc = .ofWords image
    else { loadedAfterSave ops repair new ram st crc with crc32 := 0 } = defaultSettings := by
  have hflash : (appSettingsSave crc ops new st).1.flash =
      partialImage erasedWord (sealed crc new).words k := by
    rw [appSettingsSave_flash, rewrite_of_first herase hbefore hk]
  intro image
  split
  · rename_i hcollision
    have hvalid : RecordValid crc image := (recordValid_partialImage new k).mpr hcollision
    rw [loadedAfterSave, appSettingsInit_active_of_valid (by rwa [hflash]), hflash]
  · rename_i hcollision
    have hinvalid : ¬ RecordValid crc image := (recordValid_partialImage new k).not.mpr hcollision
    exact appSettingsInit_active_of_invalid (by rwa [hflash])

end NextStart

/-- A save that is cut off or fails anywhere leaves the RAM copy alone, and the
next start loads the previous record if the erase did not complete, the new
record if every word was programmed, and otherwise the factory settings, unless
the checksum of the words that were programmed happens to be the erased word. -/
theorem init_after_save (crc : List (BitVec 32) → BitVec 32) (ops repair : Outcomes 12)
    (new ram : SystemSettings) (st : Storage) (hvalid : RecordValid crc st.flash) :
    let save := appSettingsSave crc ops new st
    let loaded := (appSettingsInit crc repair ⟨save.1.flash, ram⟩).active
    (save.2 ≠ .completed → save.1.active = st.active) ∧
    (ops.erase ≠ .completed → loaded = .ofWords st.flash) ∧
    (ops.erase = .completed → (∀ i, ops.program i = .completed) → loaded = sealed crc new) ∧
    (ops.erase = .completed → ∀ k, (∀ i < k, ops.program i = .completed) →
      ops.program k ≠ .completed →
        let image := partialImage erasedWord (sealed crc new).words k
        if 0 < k ∧ crc (payload image) = erasedWord then loaded = .ofWords image
        else { loaded with crc32 := 0 } = defaultSettings) := by
  refine ⟨fun hstatus => ?_, loaded_of_not_erased ops repair new ram st hvalid,
    loaded_of_completed ops repair new ram st,
    fun herase k => loaded_of_first ops repair new ram st herase⟩
  rw [appSettingsSave_active, if_neg hstatus]

/-! ## A reset after the erase -/

/-- A record saved earlier: 15.0 RPM. -/
def oldRecord : SystemSettings :=
  { defaultSettings with targetRPM := 0x41700000 }

/-- The record to be saved: 20.0 RPM. -/
def newRecord : SystemSettings :=
  { defaultSettings with targetRPM := 0x41A00000 }

/-- The Flash and the RAM copy after the earlier save. -/
def savedOnce : Storage where
  flash := (sealed stm32Crc oldRecord).words
  active := sealed stm32Crc oldRecord

/-- The erase completes and a reset comes before the first word. -/
def cutAfterErase : Outcomes 12 where
  erase := .completed
  program := fun _ => .cut

/-- An undisturbed rewrite. -/
def undisturbed : Outcomes 12 where
  erase := .completed
  program := fun _ => .completed

/-- A reset comes after three words. -/
def cutAtFourthWord : Outcomes 12 where
  erase := .completed
  program := fun i => if i.val < 3 then .completed else .cut

/-- A save of the new record over the old one: undisturbed, with an erase that fails,
and cut off at its fourth word. -/
theorem init_after_save_outcomes :
    let loadedAfter := fun ops => (appSettingsInit stm32Crc undisturbed
      ⟨(appSettingsSave stm32Crc ops newRecord savedOnce).1.flash, oldRecord⟩).active
    loadedAfter undisturbed = sealed stm32Crc newRecord ∧
    loadedAfter ⟨.failed, fun _ => .cut⟩ = .ofWords savedOnce.flash ∧
    { loadedAfter cutAtFourthWord with crc32 := 0 } = defaultSettings ∧
    (appSettingsSave stm32Crc cutAtFourthWord newRecord savedOnce).1.active =
      savedOnce.active := by
  have hvalid : RecordValid stm32Crc savedOnce.flash := by decide +kernel
  have hsave := fun ops =>
    init_after_save stm32Crc ops undisturbed newRecord oldRecord savedOnce hvalid
  refine ⟨(hsave undisturbed).2.2.1 rfl fun _ => rfl,
    (hsave ⟨.failed, fun _ => .cut⟩).2.1 (by decide), ?_,
    (hsave cutAtFourthWord).1 (by decide +kernel)⟩
  -- no partial image of the new record has a matching checksum
  have hmismatch : ∀ k : Fin 12, ¬ (0 < k ∧ stm32Crc (payload
      (partialImage erasedWord (sealed stm32Crc newRecord).words k)) = erasedWord) := by
    decide +kernel
  have hpartial := (hsave cutAtFourthWord).2.2.2
  simp only [hmismatch, if_false] at hpartial
  exact hpartial rfl 3 (by decide) (by decide)

/-- After a valid record and a reset between the erase and the first word, the
next start loads neither the previous record nor the new one. -/
theorem save_not_atomic :
    RecordValid stm32Crc savedOnce.flash ∧
    let flash := (appSettingsSave stm32Crc cutAfterErase newRecord savedOnce).1.flash
    let loaded := (appSettingsInit stm32Crc undisturbed ⟨flash, savedOnce.active⟩).active
    loaded ≠ .ofWords savedOnce.flash ∧ loaded ≠ sealed stm32Crc newRecord := by
  decide +kernel

end Settings
end MDCMotorControl
