import MDCMotorControl.Library.CrcRegister
import MDCMotorControl.Library.FlashSector
import Mathlib.Data.Fin.VecNotation
import Mathlib.Data.Fintype.Basic
import Mathlib.Tactic.FinCases

/-!
# The settings record in Flash

`app_settings.c` keeps one record of twelve words at the start of a Flash
sector.  The record starts with a magic word and ends with a checksum over the
other eleven words.  Float fields are kept as their bit patterns, since the
checksum and the Flash see the record as words.

The checksum unit is a parameter of the model, any function of the words given;
`stm32Crc` is the one in the hardware.

Main definitions and results:

- Definitions `appSettingsSave` and `appSettingsInit`: saving and loading, with
  the outcome of every Flash operation as input.
- Theorems `ofWords_words` and `words_ofWords`: the record and its words
  determine each other.
-/

namespace MDCMotorControl
namespace Settings

open FlashSector

/-! ## The record -/

/-- Four bytes in memory order. -/
structure Octets where
  o0 : BitVec 8
  o1 : BitVec 8
  o2 : BitVec 8
  o3 : BitVec 8
deriving DecidableEq

/-- The little-endian word of four bytes. -/
def Octets.word (o : Octets) : BitVec 32 :=
  BitVec.ofNat 32
    (o.o0.toNat + o.o1.toNat * 0x100 + o.o2.toNat * 0x10000 + o.o3.toNat * 0x1000000)

/-- The four bytes of a little-endian word. -/
def Octets.ofWord (w : BitVec 32) : Octets where
  o0 := BitVec.ofNat 8 w.toNat
  o1 := BitVec.ofNat 8 (w.toNat / 0x100)
  o2 := BitVec.ofNat 8 (w.toNat / 0x10000)
  o3 := BitVec.ofNat 8 (w.toNat / 0x1000000)

@[simp] theorem Octets.ofWord_word (o : Octets) : Octets.ofWord o.word = o := by
  obtain ⟨a, b, c, d⟩ := o
  simp only [Octets.ofWord, Octets.word, BitVec.toNat_ofNat, Octets.mk.injEq]
  refine ⟨?_, ?_, ?_, ?_⟩ <;>
    (apply BitVec.eq_of_toNat_eq; simp only [BitVec.toNat_ofNat]; omega)

@[simp] theorem Octets.word_ofWord (w : BitVec 32) : (Octets.ofWord w).word = w := by
  apply BitVec.eq_of_toNat_eq
  simp only [Octets.ofWord, Octets.word, BitVec.toNat_ofNat]
  omega

/-- `SystemSettings_t`. -/
structure SystemSettings where
  magicWord : BitVec 32
  targetRPM : BitVec 32
  accelTimeSec : BitVec 32
  motorDirection : BitVec 32
  encoderReversed : BitVec 32
  uartBaudRate : BitVec 32
  autoStartStream : BitVec 32
  microsteps : BitVec 32
  ipAddress : Octets
  netmask : Octets
  gateway : Octets
  crc32 : BitVec 32
deriving DecidableEq

/-- The words of the sector that the record occupies. -/
abbrev Sector := Fin 12 → BitVec 32

/-- The record as memory words. -/
def SystemSettings.words (s : SystemSettings) : Sector :=
  ![s.magicWord, s.targetRPM, s.accelTimeSec, s.motorDirection, s.encoderReversed,
    s.uartBaudRate, s.autoStartStream, s.microsteps, s.ipAddress.word, s.netmask.word,
    s.gateway.word, s.crc32]

/-- Memory words read as a record. -/
def SystemSettings.ofWords (f : Sector) : SystemSettings where
  magicWord := f 0
  targetRPM := f 1
  accelTimeSec := f 2
  motorDirection := f 3
  encoderReversed := f 4
  uartBaudRate := f 5
  autoStartStream := f 6
  microsteps := f 7
  ipAddress := .ofWord (f 8)
  netmask := .ofWord (f 9)
  gateway := .ofWord (f 10)
  crc32 := f 11

@[simp] theorem SystemSettings.ofWords_words (s : SystemSettings) : ofWords s.words = s := by
  obtain ⟨_, _, _, _, _, _, _, _, _, _, _, _⟩ := s
  simp [ofWords, words]

@[simp] theorem SystemSettings.words_ofWords (f : Sector) : (ofWords f).words = f := by
  ext i
  fin_cases i <;> simp [ofWords, words]

/-- `SETTINGS_MAGIC_WORD`. -/
def settingsMagicWord : BitVec 32 := 0xAA55AA55

/-- An erased word. -/
def erasedWord : BitVec 32 := 0xFFFFFFFF

/-- The factory settings: 8.0 RPM and 5.0 s. -/
def defaultSettings : SystemSettings where
  magicWord := settingsMagicWord
  targetRPM := 0x41000000
  accelTimeSec := 0x40A00000
  motorDirection := 0
  encoderReversed := 0
  uartBaudRate := 230400
  autoStartStream := 0
  microsteps := 5000
  ipAddress := ⟨192, 168, 1, 151⟩
  netmask := ⟨255, 255, 255, 0⟩
  gateway := ⟨192, 168, 1, 1⟩
  crc32 := 0

/-! ## Checksum -/

/-- The checksum unit of the target: polynomial 0x04C11DB7, words fed most
significant bit first, all ones initially. -/
def stm32Crc (words : List (BitVec 32)) : BitVec 32 :=
  CrcRegister.digest 0x04C11DB7 0xFFFFFFFF words

/-- The words the checksum covers: all but the last. -/
def payload (f : Sector) : List (BitVec 32) :=
  List.ofFn fun i : Fin 11 => f i.castSucc

section Storage

variable (crc : List (BitVec 32) → BitVec 32)

/-- `CalculateSettingsCRC`. -/
def calculateSettingsCRC (settings : SystemSettings) : BitVec 32 :=
  crc (payload settings.words)

/-- The record that a save writes: magic word and checksum are filled in. -/
def sealed (new : SystemSettings) : SystemSettings :=
  let data := { new with magicWord := settingsMagicWord }
  { data with crc32 := calculateSettingsCRC crc data }

/-- The two checks of `App_Settings_Init` on the record in Flash. -/
def RecordValid (f : Sector) : Prop :=
  f 0 = settingsMagicWord ∧ calculateSettingsCRC crc (.ofWords f) = f 11

instance (f : Sector) : Decidable (RecordValid crc f) :=
  inferInstanceAs (Decidable (_ ∧ _))

/-- The record in Flash and the RAM copy `activeSettings`. -/
structure Storage where
  flash : Sector
  active : SystemSettings

/-- `App_Settings_Save`.  The RAM copy is updated only after the last word has
been programmed. -/
def appSettingsSave (ops : Outcomes 12) (new : SystemSettings) (st : Storage) :
    Storage × Outcome :=
  let dataToWrite := sealed crc new
  let (flash, status) := rewrite erasedWord ops dataToWrite.words st.flash
  (⟨flash, if status = .completed then dataToWrite else st.active⟩, status)

/-- `App_Settings_Init`: load a valid record, otherwise fall back to the factory
settings and write them to Flash. -/
def appSettingsInit (ops : Outcomes 12) (st : Storage) : Storage :=
  if RecordValid crc st.flash then { st with active := .ofWords st.flash }
  else (appSettingsSave crc ops defaultSettings { st with active := defaultSettings }).1

end Storage

/-! ## What save and load do -/

variable {crc : List (BitVec 32) → BitVec 32}

/-- A save always leaves in Flash what the rewrite of the sector leaves. -/
theorem appSettingsSave_flash (ops : Outcomes 12) (new : SystemSettings) (st : Storage) :
    (appSettingsSave crc ops new st).1.flash =
      (rewrite erasedWord ops (sealed crc new).words st.flash).1 := rfl

/-- A save reports success exactly when every Flash operation completed. -/
theorem appSettingsSave_completed_iff (ops : Outcomes 12) (new : SystemSettings) (st : Storage) :
    (appSettingsSave crc ops new st).2 = .completed ↔
      ops.erase = .completed ∧ ∀ i, ops.program i = .completed :=
  rewrite_completed erasedWord ops (sealed crc new).words st.flash

/-- The RAM copy changes only when the save completes. -/
theorem appSettingsSave_active (ops : Outcomes 12) (new : SystemSettings) (st : Storage) :
    (appSettingsSave crc ops new st).1.active =
      if (appSettingsSave crc ops new st).2 = .completed then sealed crc new
      else st.active := rfl

/-- A save that reports success leaves the sealed record in Flash and in the RAM
copy. -/
theorem appSettingsSave_of_completed {ops : Outcomes 12} {new : SystemSettings} {st : Storage}
    (h : (appSettingsSave crc ops new st).2 = .completed) :
    (appSettingsSave crc ops new st).1 = ⟨(sealed crc new).words, sealed crc new⟩ := by
  have hops := (appSettingsSave_completed_iff ops new st).mp h
  have hflash : (appSettingsSave crc ops new st).1.flash = (sealed crc new).words := by
    rw [appSettingsSave_flash, rewrite_of_completed hops.1 hops.2]
  have hactive : (appSettingsSave crc ops new st).1.active = sealed crc new := by
    rw [appSettingsSave_active, if_pos h]
  rw [← hflash, ← hactive]

/-- The checksum covers every field but itself. -/
theorem payload_words (s : SystemSettings) :
    payload s.words =
      [s.magicWord, s.targetRPM, s.accelTimeSec, s.motorDirection, s.encoderReversed,
        s.uartBaudRate, s.autoStartStream, s.microsteps, s.ipAddress.word, s.netmask.word,
        s.gateway.word] := rfl

/-- A sealed record passes both checks. -/
theorem recordValid_sealed (new : SystemSettings) :
    RecordValid crc (sealed crc new).words := by
  refine ⟨rfl, ?_⟩
  rw [SystemSettings.ofWords_words, calculateSettingsCRC, payload_words]
  show _ = calculateSettingsCRC crc _
  rw [calculateSettingsCRC, payload_words]
  rfl

/-- Loading a valid record yields it. -/
theorem appSettingsInit_active_of_valid {ops : Outcomes 12} {st : Storage}
    (h : RecordValid crc st.flash) :
    (appSettingsInit crc ops st).active = .ofWords st.flash := by
  rw [appSettingsInit, if_pos h]

/-- Loading an invalid record yields the factory settings, up to the checksum
field, whether or not they can be written to Flash. -/
theorem appSettingsInit_active_of_invalid {ops : Outcomes 12} {st : Storage}
    (h : ¬ RecordValid crc st.flash) :
    { (appSettingsInit crc ops st).active with crc32 := 0 } = defaultSettings := by
  rw [appSettingsInit, if_neg h, appSettingsSave_active]
  split <;> rfl

end Settings
end MDCMotorControl
