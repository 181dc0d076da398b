import MDCMotorControl.Library.StableLevel
import MDCMotorControl.Panel.Switch

/-!
# The debouncer computes the last stable level

The debouncer keeps one raw sample and a counter.  A change of the raw level clears
the counter, and 50 more samples of the new level take it to the debounce time, so a
level is adopted when 51 consecutive samples agree on it.

The counter tells how far back the raw level reaches only while this level waits to be
adopted.  What earlier samples left in it at `App_Switch_Init` does not matter, since
the level read there is adopted from the start.

Main results:

- Theorem `Debounced.tick`: a sample keeps the debouncer in step with the history.
- Theorem `debounced_level`: the state is the last stable level of the samples.
-/

namespace MDCMotorControl
namespace Panel

open StableLevel

/-- The debouncer initialised with the pin at a level and then given samples. -/
def afterSamples (pin : Bool) (pins : List Bool) (sw : Switch) : Switch :=
  pins.foldl (fun sw pin => appSwitchTick1ms pin sw) (appSwitchInit pin sw)

/-- The raw samples of `App_Switch_Init` and of the ticks, most recent first. -/
def rawHistory (pin : Bool) (pins : List Bool) : List Bool :=
  ((pin :: pins).map halSwitchGetRawState).reverse

theorem afterSamples_append (pin : Bool) (pins pins' : List Bool) (sw : Switch) :
    afterSamples pin (pins ++ pins') sw =
      pins'.foldl (fun sw pin => appSwitchTick1ms pin sw) (afterSamples pin pins sw) := by
  rw [afterSamples, afterSamples, List.foldl_append]

theorem rawHistory_append (pin : Bool) (pins pins' : List Bool) :
    rawHistory pin (pins ++ pins') =
      (pins'.map halSwitchGetRawState).reverse ++ rawHistory pin pins := by
  rw [rawHistory, rawHistory, ← List.cons_append, List.map_append, List.reverse_append]

/-- The debouncer in step with the history of its samples: a raw level that is not
adopted has been counted from its first sample on. -/
structure Debounced (initial : Bool) (history : List Bool) (sw : Switch) : Prop where
  lastRaw : history.head? = some sw.switchLastRawState
  stable : sw.switchStableState = lastStable 51 initial history
  counter_le : sw.debounceCounter ≤ debounceTimeMs
  counting : sw.switchStableState ≠ sw.switchLastRawState →
    sw.debounceCounter < debounceTimeMs ∧
      List.replicate (sw.debounceCounter + 1) sw.switchLastRawState <+: history ∧
      ¬ List.replicate (sw.debounceCounter + 2) sw.switchLastRawState <+: history

/-- The level read at the start is adopted, whatever the counter holds. -/
theorem appSwitchInit_debounced {pin : Bool} {sw : Switch}
    (h : sw.debounceCounter ≤ debounceTimeMs) :
    Debounced (halSwitchGetRawState pin) (rawHistory pin []) (appSwitchInit pin sw) where
  lastRaw := rfl
  stable := by
    simp [appSwitchInit, rawHistory, lastStable]
  counter_le := h
  counting := fun hne => absurd rfl hne

namespace Debounced

variable {initial pin : Bool} {history : List Bool} {sw : Switch}

/-- The history begins with the raw level that the debouncer keeps. -/
theorem exists_cons (h : Debounced initial history sw) :
    ∃ earlier, history = sw.switchLastRawState :: earlier := by
  have hhead := h.lastRaw
  cases history with
  | nil => cases hhead
  | cons x earlier =>
      rw [List.head?_cons, Option.some.injEq] at hhead
      exact ⟨earlier, by rw [hhead]⟩

/-- A level that is not adopted is adopted by a further sample exactly if this sample
takes the counter to the end. -/
theorem window_iff (h : Debounced initial history sw)
    (hne : sw.switchStableState ≠ sw.switchLastRawState) :
    List.replicate 51 sw.switchLastRawState <+: sw.switchLastRawState :: history ↔
      sw.debounceCounter + 1 = debounceTimeMs := by
  obtain ⟨hlt, hcounted, hnot⟩ := h.counting hne
  have hms : debounceTimeMs = 50 := rfl
  rw [window_succ_iff]
  constructor
  · intro hwindow
    by_contra hless
    exact hnot (window_mono (by omega) hwindow)
  · intro heq
    exact window_mono (by omega) hcounted

/-- A sample keeps the debouncer in step with the history. -/
theorem tick (h : Debounced initial history sw) (pin : Bool) :
    Debounced initial (halSwitchGetRawState pin :: history) (appSwitchTick1ms pin sw) := by
  have hms : debounceTimeMs = 50 := rfl
  have hcase := appSwitchTick1ms_cases pin sw
  generalize appSwitchTick1ms pin sw = sw' at hcase
  cases hcase with
  | changed hraw =>
      obtain ⟨earlier, hearlier⟩ := h.exists_cons
      have hedge : ∀ {n : ℕ}, 2 ≤ n →
          ¬ List.replicate n (halSwitchGetRawState pin) <+:
            halSwitchGetRawState pin :: history := by
        intro n hn
        rw [hearlier]
        exact not_window_of_edge hn hraw
      refine ⟨rfl, ?_, Nat.zero_le _, fun _ => ⟨?_, ?_, hedge le_rfl⟩⟩
      · rw [lastStable_cons_of_not_window (hedge (by decide))]
        exact h.stable
      · show 0 < debounceTimeMs
        decide
      · simp
  | counted hraw hlt =>
      refine ⟨congrArg some hraw, ?_, Nat.le_of_lt hlt, fun hne => ⟨hlt, ?_, ?_⟩⟩
      · show sw.switchStableState = _
        rw [hraw]
        by_cases hstable : sw.switchStableState = sw.switchLastRawState
        · rw [lastStable, ← h.stable, hstable, ite_self]
        · rw [lastStable_cons_of_not_window (mt (h.window_iff hstable).mp (by omega))]
          exact h.stable
      · rw [hraw]
        exact window_succ_iff.mpr (h.counting hne).2.1
      · rw [hraw]
        exact mt window_succ_iff.mp (h.counting hne).2.2
  | adopted hraw heq =>
      refine ⟨congrArg some hraw, ?_, le_rfl, fun hne => absurd hraw hne⟩
      show halSwitchGetRawState pin = _
      rw [hraw]
      by_cases hstable : sw.switchStableState = sw.switchLastRawState
      · rw [lastStable, ← h.stable, hstable, ite_self]
      · exact (lastStable_of_window (by decide) ((h.window_iff hstable).mpr heq)).symm
  | settled hraw hle =>
      have hstable : sw.switchStableState = sw.switchLastRawState := by
        by_contra hne
        have hlt := (h.counting hne).1
        omega
      refine ⟨congrArg some hraw, ?_, h.counter_le, fun hne => absurd hstable hne⟩
      rw [hraw, lastStable, ← h.stable, hstable, ite_self]

end Debounced

/-- After any samples the debouncer is in step with them. -/
theorem afterSamples_debounced (pin : Bool) (pins : List Bool) {sw : Switch}
    (h : sw.debounceCounter ≤ debounceTimeMs) :
    Debounced (halSwitchGetRawState pin) (rawHistory pin pins) (afterSamples pin pins sw) := by
  induction pins using List.reverseRecOn with
  | nil => exact appSwitchInit_debounced h
  | append_singleton pins pin' ih =>
      rw [afterSamples_append, rawHistory_append]
      exact ih.tick pin'

/-- The state is the last stable level of the samples since `App_Switch_Init`, with
windows of 51.  A level held for 51 samples is adopted; the state changes only to a
level held for 51 samples; and fewer than 51 samples of any kind do not disturb a
signal at its level. -/
theorem debounced_level (pin : Bool) (pins : List Bool) {sw : Switch}
    (h : sw.debounceCounter ≤ debounceTimeMs) :
    let state : List Bool → Bool := fun later =>
      appSwitchGetState (afterSamples pin (pins ++ later) sw)
    state [] = lastStable 51 (halSwitchGetRawState pin) (rawHistory pin pins) ∧
    (∀ level, List.replicate 51 level <+: rawHistory pin pins → state [] = level) ∧
    (∀ pin', state [pin'] ≠ state [] →
      List.replicate 51 (state [pin']) <+: rawHistory pin (pins ++ [pin'])) ∧
    ∀ disturbance : List Bool, disturbance.length < 51 →
      (rawHistory pin pins).head? = some (state []) → state disturbance = state [] := by
  intro state
  have hstate : ∀ later, state later =
      lastStable 51 (halSwitchGetRawState pin) (rawHistory pin (pins ++ later)) :=
    fun later => (afterSamples_debounced pin (pins ++ later) h).stable
  have hnow : state [] = lastStable 51 (halSwitchGetRawState pin) (rawHistory pin pins) := by
    rw [hstate, List.append_nil]
  refine ⟨hnow, fun level hwindow => ?_, fun pin' hne => ?_, fun disturbance hshort hhead => ?_⟩
  · rw [hnow]
    exact lastStable_of_window (by decide) hwindow
  · have hlonger : rawHistory pin (pins ++ [pin']) =
        halSwitchGetRawState pin' :: rawHistory pin pins := rawHistory_append pin pins [pin']
    rw [hnow, hstate, hlonger] at hne
    obtain ⟨hlevel, hwindow⟩ := window_of_lastStable_ne hne
    rw [hstate, hlonger, hlevel]
    exact hwindow
  · rw [hstate, rawHistory_append]
    exact lastStable_append_of_short (by simpa using hshort) hhead hnow.symm

/-- A counter at 30 when the switch is released, then 51 samples of a pressed switch: it
is adopted, and 50 samples of a released one do not change that. -/
theorem debounced_level_press :
    let pressed := List.replicate 51 false
    let start : Switch := { initialSwitch with debounceCounter := 30 }
    appSwitchGetState (afterSamples true (pressed ++ []) start) = true ∧
      appSwitchGetState (afterSamples true (pressed ++ List.replicate 50 true) start) = true := by
  intro pressed start
  obtain ⟨-, hadopted, -, hundisturbed⟩ := @debounced_level true pressed start (by decide)
  have hpressed := hadopted true ⟨[false], rfl⟩
  refine ⟨hpressed, (hundisturbed (List.replicate 50 true) (by decide) ?_).trans hpressed⟩
  rw [hpressed]
  rfl

end Panel
end MDCMotorControl
