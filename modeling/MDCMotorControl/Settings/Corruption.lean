import MDCMotorControl.Settings.Record

/-!
# Corrupted records

A record in Flash is a text whose checksum register ends at zero: eleven words and
the checksum of these.  An error pattern is added to it word by word, and the
register is linear, so the record is taken for valid only if the register ends at
zero on the pattern, which it does not on a burst.

Main results:

- Theorem `recordValid_iff_digest`: the two checks, as one checksum over the whole
  record.
- Theorem `not_recordValid_of_burst`: no burst of at most 32 bits passes them.
- Theorem `init_after_corruption`: what the next start loads from a saved record
  after a burst.
-/

namespace MDCMotorControl
namespace Settings

open FlashSector CrcRegister

/-- The record in Flash after an error: the bits of the pattern are inverted. -/
def corrupt (pattern f : Sector) : Sector :=
  fun i => f i ^^^ pattern i

/-- The words of a record in the order in which the checksum unit consumes them,
the checksum last. -/
def consumed (f : Sector) : List (BitVec 32) :=
  List.ofFn f

theorem consumed_eq (f : Sector) : consumed f = payload f ++ [f 11] := by
  rw [consumed, List.ofFn_succ']
  exact List.concat_eq_append

theorem consumed_corrupt (pattern f : Sector) :
    consumed (corrupt pattern f) = List.zipWith (· ^^^ ·) (consumed f) (consumed pattern) := by
  apply List.ext_getElem
  · simp [consumed]
  · intro i h h'
    simp [consumed, corrupt]

/-- A record passes the two checks when its magic word is right and the register
of the checksum unit ends at zero. -/
theorem recordValid_iff_digest (f : Sector) :
    RecordValid stm32Crc f ↔
      f 0 = settingsMagicWord ∧ digest 0x04C11DB7 0xFFFFFFFF (consumed f) = 0#32 := by
  rw [RecordValid, calculateSettingsCRC, SystemSettings.words_ofWords, consumed_eq, digest,
    List.foldl_append, List.foldl_cons, List.foldl_nil, absorb_eq_zero (by decide)]
  rfl

/-- A burst of at most 32 bits makes a valid record invalid. -/
theorem not_recordValid_of_burst {pattern f : Sector} (hvalid : RecordValid stm32Crc f)
    (hburst : Burst (consumed pattern)) (hne : ∃ i, pattern i ≠ 0#32) :
    ¬ RecordValid stm32Crc (corrupt pattern f) := by
  rw [recordValid_iff_digest] at hvalid ⊢
  rintro ⟨-, hcorrupt⟩
  obtain ⟨i, hi⟩ := hne
  have hlen : (consumed f).length = (consumed pattern).length := by
    simp [consumed]
  have hsum := digest_xor 0x04C11DB7 0xFFFFFFFF 0#32 hlen
  rw [BitVec.xor_zero, ← consumed_corrupt, hcorrupt, hvalid.2, BitVec.zero_xor] at hsum
  have hmem : pattern i ∈ consumed pattern := List.mem_ofFn.mpr ⟨i, rfl⟩
  exact digest_burst_ne_zero (by decide) hburst hmem hi hsum.symm

/-- After a save that completed: the record is accepted and loaded as long as no
bit changes, and after any burst of at most 32 consecutive bits, wherever it lies,
it is rejected and the factory settings are loaded. -/
theorem init_after_corruption (ops repair : Outcomes 12) (new ram : SystemSettings) (st : Storage)
    (pattern : Sector) (hsaved : (appSettingsSave stm32Crc ops new st).2 = .completed)
    (hburst : Burst (consumed pattern)) :
    let flash := corrupt pattern (appSettingsSave stm32Crc ops new st).1.flash
    let loaded := (appSettingsInit stm32Crc repair ⟨flash, ram⟩).active
    ((∃ i, pattern i ≠ 0#32) →
      ¬ RecordValid stm32Crc flash ∧ { loaded with crc32 := 0 } = defaultSettings) ∧
    ((∀ i, pattern i = 0#32) → RecordValid stm32Crc flash ∧ loaded = sealed stm32Crc new) := by
  have hrecord : (appSettingsSave stm32Crc ops new st).1.flash = (sealed stm32Crc new).words :=
    congrArg Storage.flash (appSettingsSave_of_completed hsaved)
  have hvalid : RecordValid stm32Crc (sealed stm32Crc new).words := recordValid_sealed new
  rw [hrecord]
  refine ⟨fun hne => ?_, fun hzero => ?_⟩
  · have hinvalid := not_recordValid_of_burst hvalid hburst hne
    exact ⟨hinvalid, appSettingsInit_active_of_invalid hinvalid⟩
  · have hflash : corrupt pattern (sealed stm32Crc new).words = (sealed stm32Crc new).words := by
      funext i
      rw [corrupt, hzero i, BitVec.xor_zero]
    rw [hflash]
    refine ⟨hvalid, ?_⟩
    rw [appSettingsInit_active_of_valid hvalid, SystemSettings.ofWords_words]

/-- A burst from the last bit of the gateway into the checksum. -/
def straddling : Sector :=
  fun i => if i.val = 10 then 1 else if i.val = 11 then 0xFFFFFFFE else 0

theorem burst_straddling : Burst (consumed straddling) :=
  burst_of_bits (by decide) 351 (by decide +kernel)

/-- The factory settings, saved and hit by the burst. -/
theorem init_after_corruption_straddling :
    ¬ RecordValid stm32Crc (corrupt straddling
      (appSettingsSave stm32Crc ⟨.completed, fun _ => .completed⟩ defaultSettings
        ⟨fun _ => erasedWord, defaultSettings⟩).1.flash) :=
  ((init_after_corruption ⟨.completed, fun _ => .completed⟩ ⟨.completed, fun _ => .completed⟩
    defaultSettings defaultSettings ⟨fun _ => erasedWord, defaultSettings⟩ straddling
    (by decide +kernel) burst_straddling).1 ⟨10, by decide⟩).1

end Settings
end MDCMotorControl
