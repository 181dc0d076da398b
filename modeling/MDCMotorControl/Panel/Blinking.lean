import MDCMotorControl.Panel.Lamp

/-!
# Blinking under repeated requests

The main loop requests the mode of a lamp in every pass.  A request of the mode that is
set does nothing, so the time counter of a lamp counts the ticks since its last change of
mode, modulo the interval, and its output is toggled whenever the interval is full.

Main results:

- Theorem `SinceChange.tick`: a tick counts, and toggles once an interval.
- Theorem `blink_timing`: the calls into the hardware layer since a change of mode.
-/

namespace MDCMotorControl
namespace Panel

/-! ## Runs -/

/-- A call into `app_lamp.c` after its initialisation, taken whole. -/
inductive LampEvent where
  | setMode (lampIndex : ℕ) (mode : LampMode)
  | tick
deriving DecidableEq

/-- What one call does. -/
def lampStep (lamps : Lamps) : LampEvent → Lamps
  | .setMode lampIndex mode => appLampSetMode lampIndex mode lamps
  | .tick => appLampTick1ms lamps

/-- The lamps after calls in any order. -/
def lampRun (events : List LampEvent) (lamps : Lamps) : Lamps :=
  events.foldl lampStep lamps

/-- None of the calls changes the mode of a lamp. -/
def ModeKept (i : Fin numLamps) : List LampEvent → Lamps → Prop
  | [], _ => True
  | e :: events, lamps =>
      (lampStep lamps e i).currentMode = (lamps i).currentMode ∧
        ModeKept i events (lampStep lamps e)

/-- The calls into the hardware layer for a lamp, from a change to a mode on, after `k`
ticks. -/
def LampMode.callsAfter (k : ℕ) : LampMode → List LampCall
  | off => [.setState false]
  | on => [.setState true]
  | blinkSlow => List.replicate (k / 500) .toggle
  | blinkFast => List.replicate (k / 100) .toggle

/-! ## One call -/

/-- A lamp `k` ticks after a change to a mode. -/
structure SinceChange (mode : LampMode) (k : ℕ) (earlier : List LampCall) (lamp : Lamp) :
    Prop where
  mode_eq : lamp.currentMode = mode
  counter_eq : ∀ interval, mode.blinkInterval = some interval → lamp.timeCounter = k % interval
  calls_eq : lamp.calls = mode.callsAfter k ++ earlier

theorem LampMode.callsAfter_blink {mode : LampMode} {interval : ℕ}
    (h : mode.blinkInterval = some interval) (k : ℕ) :
    mode.callsAfter k = List.replicate (k / interval) .toggle := by
  cases mode <;> simp_all [blinkInterval, callsAfter]

theorem LampMode.callsAfter_static {mode : LampMode} (h : mode.blinkInterval = none) (k l : ℕ) :
    mode.callsAfter k = mode.callsAfter l := by
  cases mode <;> simp_all [blinkInterval, callsAfter]

theorem LampMode.blinkInterval_pos {mode : LampMode} {interval : ℕ}
    (h : mode.blinkInterval = some interval) : 0 < interval := by
  cases mode <;> simp_all [blinkInterval] <;> omega

/-- The change itself sets a static mode at once. -/
theorem Lamp.changeMode_sinceChange (mode : LampMode) (lamp : Lamp) :
    SinceChange mode 0 lamp.calls (lamp.changeMode mode) := by
  cases mode <;> constructor <;>
    simp [changeMode, halLampSetState, LampMode.callsAfter, LampMode.blinkInterval]

/-- A count that fills an interval starts over. -/
theorem succ_divMod_of_full {k n : ℕ} (hn : 0 < n) (h : n ≤ k % n + 1) :
    (k + 1) / n = k / n + 1 ∧ (k + 1) % n = 0 := by
  have hlt := Nat.mod_lt k hn
  have hk := Nat.mod_add_div k n
  refine (Nat.div_mod_unique hn).mpr ⟨?_, hn⟩
  rw [Nat.mul_add, Nat.mul_one]
  omega

/-- A count that does not fill an interval goes on. -/
theorem succ_divMod_of_not_full {k n : ℕ} (hn : 0 < n) (h : k % n + 1 < n) :
    (k + 1) / n = k / n ∧ (k + 1) % n = k % n + 1 := by
  have hk := Nat.mod_add_div k n
  refine (Nat.div_mod_unique hn).mpr ⟨?_, h⟩
  omega

/-- In a blinking mode the interval tells the counter and the calls. -/
theorem sinceChange_of_interval {mode : LampMode} {interval k : ℕ} {earlier : List LampCall}
    {lamp : Lamp} (hinterval : mode.blinkInterval = some interval)
    (hmode : lamp.currentMode = mode) (hcounter : lamp.timeCounter = k % interval)
    (hcalls : lamp.calls = List.replicate (k / interval) .toggle ++ earlier) :
    SinceChange mode k earlier lamp where
  mode_eq := hmode
  counter_eq := by
    intro other hother
    rw [hinterval, Option.some.injEq] at hother
    rw [← hother, hcounter]
  calls_eq := by
    rw [hcalls, LampMode.callsAfter_blink hinterval]

/-- A tick counts, and toggles when it fills an interval. -/
theorem SinceChange.tick {mode : LampMode} {k : ℕ} {earlier : List LampCall} {lamp : Lamp}
    (h : SinceChange mode k earlier lamp) : SinceChange mode (k + 1) earlier lamp.tick := by
  cases hinterval : mode.blinkInterval with
  | none =>
      have htick : lamp.tick = lamp := by
        simp [Lamp.tick, h.mode_eq, hinterval]
      rw [htick]
      refine ⟨h.mode_eq, fun interval hsome => ?_, ?_⟩
      · rw [hinterval] at hsome
        cases hsome
      · rw [h.calls_eq, LampMode.callsAfter_static hinterval k (k + 1)]
  | some interval =>
      have hpos := LampMode.blinkInterval_pos hinterval
      have hcounter := h.counter_eq interval hinterval
      have hcalls := h.calls_eq
      rw [LampMode.callsAfter_blink hinterval] at hcalls
      by_cases hfull : interval ≤ k % interval + 1
      · obtain ⟨hdiv, hmod⟩ := succ_divMod_of_full hpos hfull
        have htick : lamp.tick = halLampToggle { lamp with timeCounter := 0 } := by
          simp [Lamp.tick, h.mode_eq, hinterval, hcounter, hfull]
        rw [htick]
        apply sinceChange_of_interval hinterval
        · exact h.mode_eq
        · exact hmod.symm
        · rw [hdiv, List.replicate_succ, List.cons_append, ← hcalls]
          rfl
      · obtain ⟨hdiv, hmod⟩ := succ_divMod_of_not_full hpos (Nat.not_le.mp hfull)
        have htick : lamp.tick = { lamp with timeCounter := lamp.timeCounter + 1 } := by
          simp [Lamp.tick, h.mode_eq, hinterval, hcounter, hfull]
        rw [htick]
        apply sinceChange_of_interval hinterval
        · exact h.mode_eq
        · rw [hmod, ← hcounter]
        · rw [hdiv, ← hcalls]

/-- A call that keeps the mode of a lamp counts as a tick or does nothing to it. -/
theorem SinceChange.step {i : Fin numLamps} {mode : LampMode} {k : ℕ} {earlier : List LampCall}
    {lamps : Lamps} (h : SinceChange mode k earlier (lamps i)) {e : LampEvent}
    (hkept : (lampStep lamps e i).currentMode = (lamps i).currentMode) :
    SinceChange mode (k + [e].count .tick) earlier (lampStep lamps e i) := by
  cases e with
  | tick => exact h.tick
  | setMode lampIndex mode' =>
      have hsame : lampStep lamps (.setMode lampIndex mode') i = lamps i := by
        by_cases hchange : (i : ℕ) = lampIndex ∧ (lamps i).currentMode ≠ mode'
        · rw [lampStep, appLampSetMode, if_pos hchange] at hkept
          have hmode : ((lamps i).changeMode mode').currentMode = mode' :=
            ((lamps i).changeMode_sinceChange mode').mode_eq
          exact absurd (hkept.symm.trans hmode) hchange.2
        · rw [lampStep, appLampSetMode, if_neg hchange]
      rw [hsame]
      exact h

/-- A run that keeps the mode of a lamp counts its ticks. -/
theorem SinceChange.run {i : Fin numLamps} {mode : LampMode} {k : ℕ} {earlier : List LampCall}
    {lamps : Lamps} (h : SinceChange mode k earlier (lamps i)) {events : List LampEvent}
    (hkept : ModeKept i events lamps) :
    SinceChange mode (k + events.count .tick) earlier (lampRun events lamps i) := by
  induction events generalizing k lamps with
  | nil => exact h
  | cons e events ih =>
      have hcount : (e :: events).count LampEvent.tick =
          [e].count LampEvent.tick + events.count LampEvent.tick :=
        @List.count_append _ _ LampEvent.tick [e] events
      rw [hcount, ← Nat.add_assoc]
      exact ih (h.step hkept.1) hkept.2

theorem Lamp.tick_currentMode (lamp : Lamp) : lamp.tick.currentMode = lamp.currentMode := by
  unfold Lamp.tick
  split
  · rfl
  · simp only
    split <;> rfl

/-- A run keeps the mode of a lamp when every request for the lamp is for this mode. -/
theorem modeKept_of_requests {i : Fin numLamps} {lamps : Lamps} {events : List LampEvent}
    (h : ∀ mode, LampEvent.setMode i mode ∈ events → mode = (lamps i).currentMode) :
    ModeKept i events lamps := by
  induction events generalizing lamps with
  | nil => trivial
  | cons e events ih =>
      have hkept : (lampStep lamps e i).currentMode = (lamps i).currentMode := by
        cases e with
        | tick => exact (lamps i).tick_currentMode
        | setMode lampIndex mode =>
            by_cases hindex : (i : ℕ) = lampIndex
            · subst hindex
              rw [lampStep, h mode List.mem_cons_self, appLampSetMode_same]
            · rw [lampStep, appLampSetMode_other hindex]
      refine ⟨hkept, ih fun mode hmem => ?_⟩
      rw [hkept]
      exact h mode (List.mem_cons_of_mem e hmem)

/-! ## Main result -/

/-- Since a call that changed the mode of a lamp, through any calls that do not, in
which `k` ticks fall: a lamp in fast blink has been toggled once in 100 ticks, in slow
blink once in 500, and a lamp switched on or off was set once, at the change.  A request
of the mode that is set, and any request for another index, leaves the lamp alone. -/
theorem blink_timing {i : Fin numLamps} {mode : LampMode} {lamps : Lamps}
    (hchange : (lamps i).currentMode ≠ mode) {events : List LampEvent}
    (hkept : ModeKept i events (appLampSetMode i mode lamps)) :
    (lampRun events (appLampSetMode i mode lamps) i).calls =
      mode.callsAfter (events.count .tick) ++ (lamps i).calls ∧
    (∀ now : Lamps, appLampSetMode i (now i).currentMode now = now) ∧
    ∀ (now : Lamps) (lampIndex : ℕ) (mode' : LampMode), (i : ℕ) ≠ lampIndex →
      appLampSetMode lampIndex mode' now i = now i := by
  have hset : appLampSetMode i mode lamps i = (lamps i).changeMode mode :=
    if_pos ⟨rfl, hchange⟩
  have hstart : SinceChange mode 0 (lamps i).calls (appLampSetMode i mode lamps i) := by
    rw [hset]
    exact (lamps i).changeMode_sinceChange mode
  have hrun := (hstart.run hkept).calls_eq
  rw [Nat.zero_add] at hrun
  exact ⟨hrun, fun _ => appLampSetMode_same, fun _ _ _ hother => appLampSetMode_other hother⟩

/-- A lamp switched on and then to fast blink, with 200 ticks around a repeated request
and one for the other lamp: it was toggled twice. -/
theorem blink_timing_fast :
    let lit := appLampSetMode 0 .on initialLamps
    let events := List.replicate 130 .tick ++ [.setMode 0 .blinkFast, .setMode 1 .off] ++
      List.replicate 70 .tick
    (lampRun events (appLampSetMode 0 .blinkFast lit) 0).calls =
      [.toggle, .toggle, .setState true] := by
  intro lit events
  have hrequests : ∀ mode, LampEvent.setMode 0 mode ∈ events → mode = .blinkFast := by
    intro mode hmem
    simp only [events, List.mem_append, List.mem_replicate, List.mem_cons, reduceCtorEq,
      LampEvent.setMode.injEq] at hmem
    simpa using hmem
  have hticks : events.count .tick = 200 := by
    simp only [events, List.count_append, List.count_replicate_self]
    rfl
  have hcalls := (@blink_timing 0 .blinkFast lit (by decide) events
    (modeKept_of_requests hrequests)).1
  rw [hticks] at hcalls
  exact hcalls

end Panel
end MDCMotorControl
