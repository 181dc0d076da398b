import MDCMotorControl.Settings.PowerLoss
import Mathlib.Data.List.Induction

/-!
# The record over the life of a board

Over its life a board is restarted any number of times and saves its settings any number of
times, and any of the Flash operations of a save, or of the repair that a restart makes,
may fail or be prevented by a reset.  As for a single save, an operation that fails or is
prevented leaves its target as it was; a reset in the middle of an operation is not covered.

`Stored` is what the sector is for: it holds the record that was written last, or nothing
that can be loaded, because the last rewrite that erased it was not finished.

Main results:

- Theorem `ofFlash_life`: the sector refines `Stored` along every life.
- Theorem `loaded_after_life`: what a restart loads is the last record that was written as
  a whole, or the factory settings; never a mixture of two.
-/

namespace MDCMotorControl
namespace Settings

open FlashSector

variable {crc : List (BitVec 32) → BitVec 32}

/-! ## The two levels -/

/-- What happens to the settings: a save of new ones, or a restart, each with the outcomes
of the Flash operations that it makes. -/
inductive LifeEvent where
  | save (ops : Outcomes 12) (new : SystemSettings)
  | restart (repair : Outcomes 12)

/-- The code: `App_Settings_Save` and `App_Settings_Init`. -/
def lifeStep (crc : List (BitVec 32) → BitVec 32) (st : Storage) : LifeEvent → Storage
  | .save ops new => (appSettingsSave crc ops new st).1
  | .restart repair => appSettingsInit crc repair st

/-- What the sector stands for. -/
inductive Stored where
  | record (s : SystemSettings)
  | nothing
deriving DecidableEq

namespace Stored

/-- A rewrite leaves the sector as it is, or has erased it and got to the end, or has
erased it and not got to the end. -/
def rewrite (ops : Outcomes 12) (s : SystemSettings) (stored : Stored) : Stored :=
  if ops.erase = .completed then
    if ∀ i, ops.program i = .completed then .record s else .nothing
  else stored

theorem rewrite_origin {ops : Outcomes 12} {s s' : SystemSettings} {stored : Stored}
    (h : stored.rewrite ops s' = .record s) : stored = .record s ∨ s = s' := by
  unfold rewrite at h
  split at h
  · split at h
    · exact .inr (record.inj h).symm
    · exact absurd h (by simp)
  · exact .inl h

/-- A restart writes the factory settings where it finds nothing. -/
def step (crc : List (BitVec 32) → BitVec 32) (stored : Stored) : LifeEvent → Stored
  | .save ops new => stored.rewrite ops (sealed crc new)
  | .restart repair =>
      match stored with
      | .record s => .record s
      | .nothing => Stored.nothing.rewrite repair (sealed crc defaultSettings)

/-- The settings that a restart takes. -/
def settings : Stored → SystemSettings
  | .record s => s
  | .nothing => defaultSettings

/-- What a sector with any contents stands for. -/
def ofFlash (crc : List (BitVec 32) → BitVec 32) (flash : Sector) : Stored :=
  if RecordValid crc flash then .record (.ofWords flash) else .nothing

end Stored

/-! ## Refinement -/

/-- No part of the record that a save leaves unfinished passes for a whole one: its checksum
is not the erased word that stands in the place of the checksum. -/
def NoCollision (crc : List (BitVec 32) → BitVec 32) (new : SystemSettings) : Prop :=
  ∀ k : Fin 12, 0 < k.val →
    crc (payload (partialImage erasedWord (sealed crc new).words k)) ≠ erasedWord

instance (new : SystemSettings) : Decidable (NoCollision crc new) :=
  inferInstanceAs (Decidable (∀ k : Fin 12, 0 < k.val → _ ≠ erasedWord))

/-- The records written in an event. -/
def LifeEvent.writes : LifeEvent → SystemSettings
  | .save _ new => new
  | .restart _ => defaultSettings

/-- A rewrite of the sector with a sealed record. -/
theorem ofFlash_rewrite {ops : Outcomes 12} {new : SystemSettings} (st : Storage)
    (hnew : NoCollision crc new) :
    Stored.ofFlash crc (appSettingsSave crc ops new st).1.flash =
      (Stored.ofFlash crc st.flash).rewrite ops (sealed crc new) := by
  rw [appSettingsSave_flash, Stored.rewrite]
  by_cases herase : ops.erase = .completed
  · rw [if_pos herase]
    rcases completed_or_first ops.program with hall | ⟨k, hbefore, hk⟩
    · rw [if_pos hall, rewrite_of_completed herase hall, Stored.ofFlash,
        if_pos (recordValid_sealed new), SystemSettings.ofWords_words]
    · rw [if_neg fun hall => hk (hall k), rewrite_of_first herase hbefore hk, Stored.ofFlash,
        if_neg fun hvalid => ?_]
      obtain ⟨hpos, hcollision⟩ := (recordValid_partialImage new k).mp hvalid
      exact hnew k hpos hcollision
  · rw [if_neg herase, rewrite_of_not_erased herase]

/-- One event of the life of a board. -/
theorem ofFlash_lifeStep {e : LifeEvent} (st : Storage) (he : NoCollision crc e.writes) :
    Stored.ofFlash crc (lifeStep crc st e).flash =
      (Stored.ofFlash crc st.flash).step crc e := by
  cases e with
  | save ops new => exact ofFlash_rewrite st he
  | restart repair =>
      by_cases hvalid : RecordValid crc st.flash
      · have hstored : Stored.ofFlash crc st.flash = .record (.ofWords st.flash) := if_pos hvalid
        simp only [lifeStep, appSettingsInit, if_pos hvalid, hstored, Stored.step]
      · have hstored : Stored.ofFlash crc st.flash = .nothing := if_neg hvalid
        simp only [lifeStep, appSettingsInit, if_neg hvalid, hstored, Stored.step]
        have hrepair : Stored.ofFlash crc
            (appSettingsSave crc repair defaultSettings ⟨st.flash, defaultSettings⟩).1.flash =
              (Stored.ofFlash crc st.flash).rewrite repair (sealed crc defaultSettings) :=
          ofFlash_rewrite _ he
        rw [hrepair, hstored]

/-- The sector refines `Stored` over the whole life of a board. -/
theorem ofFlash_life {events : List LifeEvent} (st : Storage)
    (hevents : ∀ e ∈ events, NoCollision crc e.writes) :
    Stored.ofFlash crc (events.foldl (lifeStep crc) st).flash =
      events.foldl (Stored.step crc) (.ofFlash crc st.flash) := by
  induction events generalizing st with
  | nil => rfl
  | cons e events ih =>
      rw [List.foldl_cons, List.foldl_cons,
        ih (lifeStep crc st e) fun a ha => hevents a (List.mem_cons_of_mem _ ha),
        ofFlash_lifeStep st (hevents e List.mem_cons_self)]

/-! ## What a restart loads -/

/-- The settings that a restart takes, but for the checksum that a repair fills in. -/
theorem init_settings (repair : Outcomes 12) (st : Storage) :
    { (appSettingsInit crc repair st).active with crc32 := 0 } =
      { (Stored.ofFlash crc st.flash).settings with crc32 := 0 } := by
  by_cases hvalid : RecordValid crc st.flash
  · rw [appSettingsInit_active_of_valid hvalid, Stored.ofFlash, if_pos hvalid]
    rfl
  · rw [appSettingsInit_active_of_invalid hvalid, Stored.ofFlash, if_neg hvalid]
    rfl

/-- A record in the sector was in it at first, or was written in one piece. -/
theorem stored_origin {events : List LifeEvent} {stored : Stored} {s : SystemSettings}
    (h : events.foldl (Stored.step crc) stored = .record s) :
    stored = .record s ∨ ∃ e ∈ events, s = sealed crc e.writes := by
  induction events using List.reverseRecOn with
  | nil => exact .inl h
  | append_singleton events e ih =>
      rw [List.foldl_append, List.foldl_cons, List.foldl_nil] at h
      have hkept : events.foldl (Stored.step crc) stored = .record s →
          stored = .record s ∨ ∃ a ∈ events ++ [e], s = sealed crc a.writes := fun hbefore =>
        (ih hbefore).imp_right fun ⟨a, ha, hs⟩ => ⟨a, List.mem_append_left _ ha, hs⟩
      generalize events.foldl (Stored.step crc) stored = before at h hkept
      have hnew : s = sealed crc e.writes →
          stored = .record s ∨ ∃ a ∈ events ++ [e], s = sealed crc a.writes := fun hs =>
        .inr ⟨e, by simp, hs⟩
      cases e with
      | save ops new => exact (Stored.rewrite_origin h).elim hkept hnew
      | restart repair =>
          cases before with
          | record s' => exact hkept h
          | nothing => exact (Stored.rewrite_origin h).elim (fun heq => by simp at heq) hnew

/-- A save that does not get past its erase, or a restart. -/
def LifeEvent.Spares : LifeEvent → Prop
  | .save ops _ => ops.erase ≠ .completed
  | .restart _ => True

/-- A record stays until the sector is erased again. -/
theorem stored_of_spared {events : List LifeEvent} {s : SystemSettings}
    (h : ∀ e ∈ events, e.Spares) : events.foldl (Stored.step crc) (.record s) = .record s := by
  induction events with
  | nil => rfl
  | cons e events ih =>
      have hstep : (Stored.record s).step crc e = .record s := by
        have hspares := h e List.mem_cons_self
        cases e with
        | save ops new => exact if_neg hspares
        | restart repair => rfl
      rw [List.foldl_cons, hstep]
      exact ih fun a ha => h a (List.mem_cons_of_mem _ ha)

/-! ## Main result -/

/-- Over the whole life of a board, whichever Flash operations of its saves and repairs
failed or were cut off: a restart takes the record that the sector stands for, or the
factory settings where it stands for none; such a record was in the sector at first or was
written in one piece; and a save that completed is what is taken until the sector is erased
again. -/
theorem loaded_after_life (crc : List (BitVec 32) → BitVec 32) (st : Storage)
    (events : List LifeEvent) (repair : Outcomes 12)
    (hevents : ∀ e ∈ events, NoCollision crc e.writes) :
    let stored := events.foldl (Stored.step crc) (.ofFlash crc st.flash)
    let loaded := (appSettingsInit crc repair (events.foldl (lifeStep crc) st)).active
    { loaded with crc32 := 0 } = { stored.settings with crc32 := 0 } ∧
    (∀ s, stored = .record s → loaded = s ∧
      (RecordValid crc st.flash ∧ s = .ofWords st.flash ∨
        ∃ e ∈ events, s = sealed crc e.writes)) ∧
    ∀ before ops new after, events = before ++ .save ops new :: after →
      ops.erase = .completed → (∀ i, ops.program i = .completed) → (∀ e ∈ after, e.Spares) →
        loaded = sealed crc new := by
  intro stored loaded
  have hlife := ofFlash_life st hevents
  have hloaded : ∀ s, stored = .record s → loaded = s := by
    intro s hs
    have hflash := hlife.trans hs
    rw [Stored.ofFlash] at hflash
    split at hflash
    · rename_i hvalid
      exact (appSettingsInit_active_of_valid hvalid).trans (Stored.record.inj hflash)
    · exact absurd hflash (by simp)
  refine ⟨?_, fun s hs => ⟨hloaded s hs, ?_⟩,
    fun before ops new after heq herase hall hspared => ?_⟩
  · rw [init_settings, hlife]
  · refine (stored_origin hs).imp_left fun hfirst => ?_
    rw [Stored.ofFlash] at hfirst
    split at hfirst
    · exact ⟨‹_›, (Stored.record.inj hfirst).symm⟩
    · exact absurd hfirst (by simp)
  · refine hloaded _ ?_
    have hsaved : ∀ stored',
        Stored.step crc stored' (.save ops new) = .record (sealed crc new) := by
      intro stored'
      rw [Stored.step, Stored.rewrite, if_pos herase, if_pos hall]
    show events.foldl (Stored.step crc) _ = _
    rw [heq, List.foldl_append, List.foldl_cons, hsaved]
    exact stored_of_spared hspared

/-- A record that replaced the factory settings, and a save that was cut off at its erase. -/
theorem loaded_after_life_spared :
    let events : List LifeEvent := [.restart undisturbed, .save undisturbed newRecord,
      .save ⟨.cut, fun _ => .cut⟩ oldRecord]
    (appSettingsInit stm32Crc undisturbed
      (events.foldl (lifeStep stm32Crc) ⟨fun _ => erasedWord, oldRecord⟩)).active =
        sealed stm32Crc newRecord := by
  refine (loaded_after_life stm32Crc ⟨fun _ => erasedWord, oldRecord⟩
    [.restart undisturbed, .save undisturbed newRecord, .save ⟨.cut, fun _ => .cut⟩ oldRecord]
    undisturbed (by decide +kernel)).2.2 [.restart undisturbed] undisturbed newRecord
    [.save ⟨.cut, fun _ => .cut⟩ oldRecord] rfl rfl (fun _ => rfl) fun e he => ?_
  obtain rfl := List.mem_singleton.mp he
  exact (by decide : Outcome.cut ≠ .completed)

end Settings
end MDCMotorControl
