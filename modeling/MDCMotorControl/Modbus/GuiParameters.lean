import MDCMotorControl.Library.DecimalText
import MDCMotorControl.Modbus.GuiPolling
import MDCMotorControl.Modbus.RegisterCells

/-!
# The parameters in the GUI

The settings tab of `modbus_gui_flash.py` shows the parameters of the board as texts.
`load_parameters` fills the texts from three reads, and `apply_parameters` parses them and
writes nine registers.  Speed and ramp time go through a float and its shortest text, the
baud rate through hundreds, and the addresses through dotted texts.

Main results:

- Theorem `ipToRegs_regsToIp`: an address comes back from its text.
- Theorem `applyWrites_shownFields`: after a complete load, the writes of `apply_parameters`
  carry the words that were read.
- Theorem `readRegister_written_back`: such writes leave what is read from every register.
-/

namespace MDCMotorControl
namespace Modbus

open Motor Settings BigEndian DecimalText SignificantBits

/-! ## Texts -/

/-- `str` of a float that is zero or lies between `1e-4` and `2 ^ 53`, where the text is in
fixed notation. -/
def strFloat (x : ℚ) : String :=
  let (d, places) := (shortest 53 21 x).getD (Binary32.nearestEven (x * 10 ^ 21), 21)
  fixedText d places

/-- `float` of a text in fixed notation. -/
def floatOf (s : String) : Option ℚ :=
  (readFixed s).map (roundBits 53)

/-- `regs_to_ip`. -/
def regsToIp (high low : BitVec 16) : String :=
  String.intercalate "."
    ([hiByte high, loByte high, hiByte low, loByte low].map fun b => Nat.repr b.toNat)

/-- `ip_to_regs`.  A part that is no number and a missing part raise. -/
def ipToRegs (ipStr : String) : Option (ℕ × ℕ) := do
  match ← (splitAt '.' ipStr).mapM String.toNat? with
  | p0 :: p1 :: p2 :: p3 :: _ => return (p0 <<< 8 ||| p1, p2 <<< 8 ||| p3)
  | _ => none

/-! ## The settings tab -/

/-- The variables of the settings tab. -/
structure ParameterFields where
  motorDir : ℕ
  rpm : String
  accel : String
  microsteps : String
  encDir : ℕ
  baud : String
  autoStream : ℕ
  cfgIp : String
  cfgMask : String
  cfgGw : String
deriving DecidableEq

/-- Their values before the first load. -/
def initialFields : ParameterFields where
  motorDir := 0
  rpm := "10.0"
  accel := "2.0"
  microsteps := "5000"
  encDir := 0
  baud := "1000000"
  autoStream := 0
  cfgIp := "192.168.1.151"
  cfgMask := "255.255.255.0"
  cfgGw := "192.168.1.1"

/-- The variables so far, and whether an exception has ended the load. -/
abbrev Loaded := Except ParameterFields ParameterFields

/-- Set a variable from `res.registers[i]`; too few registers raise. -/
def setFrom (values : List (BitVec 16)) (i : ℕ)
    (set : BitVec 16 → ParameterFields → ParameterFields) (f : ParameterFields) : Loaded :=
  match values[i]? with
  | some v => .ok (set v f)
  | none => .error f

/-- Set an address from `res.registers[i]` and `res.registers[i + 1]`. -/
def setAddressFrom (values : List (BitVec 16)) (i : ℕ)
    (set : String → ParameterFields → ParameterFields) (f : ParameterFields) : Loaded :=
  match values[i]?, values[i + 1]? with
  | some high, some low => .ok (set (regsToIp high low) f)
  | _, _ => .error f

/-- Use the registers of an answer; an error answer is passed over. -/
def onRegisters (response : PollResponse)
    (block : List (BitVec 16) → ParameterFields → Loaded) (f : ParameterFields) : Loaded :=
  match response with
  | .raised => .error f
  | .error => .ok f
  | .registers values => block values f

/-- The motor parameters, the registers from 201. -/
def loadMotor (values : List (BitVec 16)) (f : ParameterFields) : Loaded := do
  let f ← setFrom values 0 (fun v f => { f with motorDir := v.toNat }) f
  let f ← setFrom values 1 (fun v f => { f with rpm := strFloat (roundBits 53 (v.toNat / 10)) }) f
  let f ← setFrom values 2
    (fun v f => { f with accel := strFloat (roundBits 53 (v.toNat / 10)) }) f
  setFrom values 3 (fun v f => { f with microsteps := Nat.repr v.toNat }) f

/-- The encoder and telemetry parameters, the registers from 301. -/
def loadEncoder (values : List (BitVec 16)) (f : ParameterFields) : Loaded := do
  let f ← setFrom values 0 (fun v f => { f with encDir := v.toNat }) f
  let f ← setFrom values 1 (fun v f => { f with baud := Nat.repr (v.toNat * 100) }) f
  setFrom values 2 (fun v f => { f with autoStream := v.toNat }) f

/-- The addresses, the registers from 310. -/
def loadNetwork (values : List (BitVec 16)) (f : ParameterFields) : Loaded := do
  let f ← setAddressFrom values 0 (fun s f => { f with cfgIp := s }) f
  let f ← setAddressFrom values 2 (fun s f => { f with cfgMask := s }) f
  setAddressFrom values 4 (fun s f => { f with cfgGw := s }) f

/-- `load_parameters`, with what its three reads come back with. -/
def loadParameters (isConnected : Bool) (motor encoder network : PollResponse)
    (f : ParameterFields) : ParameterFields :=
  if isConnected then
    let loaded : Loaded := do
      let f ← onRegisters motor loadMotor f
      let f ← onRegisters encoder loadEncoder f
      onRegisters network loadNetwork f
    match loaded with
    | .ok f => f
    | .error f => f
  else f

/-- The first seven writes of `apply_parameters`.  A text that is no number raises before
any of them. -/
def parameterWrites (f : ParameterFields) : Option (List (Register × ℕ)) := do
  let rpm := truncToNat (roundBits 53 ((← floatOf f.rpm) * 10))
  let accel := truncToNat (roundBits 53 ((← floatOf f.accel) * 10))
  let baud := truncToNat (roundBits 53 ((← f.baud.toNat?) / 100))
  let microsteps ← f.microsteps.toNat?
  return [(.motorDir, f.motorDir), (.motorRpm, rpm), (.motorAccel, accel),
    (.motorMicrosteps, microsteps), (.encoderDir, f.encDir), (.uartBaud, baud),
    (.autoStream, f.autoStream)]

/-- The writes that `apply_parameters` makes if none of them raises.  An address that is
none raises after the first seven. -/
def applyWrites (f : ParameterFields) : List (Register × ℕ) :=
  match parameterWrites f with
  | none => []
  | some writes =>
      match ipToRegs f.cfgIp with
      | none => writes
      | some (ipH, ipL) => writes ++ [(.ipHigh, ipH), (.ipLow, ipL)]

/-- `apply_parameters`: the writes up to one that raises. -/
def applyParameters (isConnected : Bool) (sent : ℕ) (f : ParameterFields) :
    List (Register × ℕ) :=
  if isConnected then (applyWrites f).take sent else []

/-- A read of the client, answered by the board. -/
def readHoldingRegisters (fl : ℚ → ℚ) (inputs : ℕ → ReadInputs) (cfg : ModbusConfig)
    (address count : BitVec 16) : PollResponse :=
  match (modbusRecvCb fl inputs cfg
    (some (requestSegment fcReadHoldingRegs address count)) 0).frames with
  | frame :: _ => .registers ((List.range count.toNat).map (responseWord frame))
  | [] => .raised

example : strFloat (roundBits 53 (1234 / 10)) = "123.4" := by decide +kernel

/-! ## Texts come back -/

/-- The text of a register in tenths. -/
theorem strFloat_tenth (v : BitVec 16) :
    strFloat (roundBits 53 (v.toNat / 10)) = fixedText v.toNat 1 := by
  have hlt := v.isLt
  rw [strFloat, shortest_tenth (by decide) (by omega), Option.getD_some]

/-- It is read as the float it was written for. -/
theorem floatOf_tenth (v : BitVec 16) :
    floatOf (strFloat (roundBits 53 (v.toNat / 10))) = some (roundBits 53 (v.toNat / 10)) := by
  rw [strFloat_tenth, floatOf, readFixed_fixedText v.toNat (by decide), Option.map_some, pow_one]

/-- In tenths it is the register again. -/
theorem truncToNat_tenth (v : BitVec 16) :
    truncToNat (roundBits 53 (roundBits 53 (v.toNat / 10) * 10)) = v.toNat := by
  have hlt := v.isLt
  rw [roundBits_tenth_mul_ten (by decide) (by omega), truncToNat_natCast]

/-- A baud rate in hundreds. -/
theorem truncToNat_hundredth (v : BitVec 16) :
    truncToNat (roundBits 53 (((v.toNat * 100 : ℕ) : ℚ) / 100)) = v.toNat := by
  have hlt := v.isLt
  have hquotient : ((v.toNat * 100 : ℕ) : ℚ) / 100 = v.toNat := by
    push_cast
    exact mul_div_cancel_right₀ _ (by decide)
  rw [hquotient, roundBits_natCast (by omega), truncToNat_natCast]

/-- A word from its two bytes, as the GUI puts them together. -/
theorem shiftLeft_or_bytes (v : BitVec 16) :
    (hiByte v).toNat <<< 8 ||| (loByte v).toNat = v.toNat := by
  have hlt := v.isLt
  rw [hiByte, loByte, BitVec.toNat_ofNat, BitVec.toNat_ofNat,
    ← Nat.shiftLeft_add_eq_or_of_lt (by omega), Nat.shiftLeft_eq]
  omega

/-- An address comes back from its text. -/
theorem ipToRegs_regsToIp (high low : BitVec 16) :
    ipToRegs (regsToIp high low) = some (high.toNat, low.toNat) := by
  have hsplit : splitAt '.' (regsToIp high low) =
      [hiByte high, loByte high, hiByte low, loByte low].map fun b => Nat.repr b.toNat := by
    refine split_intercalate (by simp) fun s hs => ?_
    obtain ⟨b, _, rfl⟩ := List.mem_map.mp hs
    exact not_mem_repr (by decide) _
  rw [ipToRegs, hsplit]
  simp only [List.map_cons, List.map_nil, List.mapM_cons, List.mapM_nil, Nat.toNat?_repr,
    Option.bind_eq_bind, Option.bind_some, Option.pure_def, shiftLeft_or_bytes]

/-! ## Load and apply -/

/-- What a complete load leaves in the settings tab. -/
def shownFields (d r a m e b s ih il mh ml gh gl : BitVec 16) : ParameterFields where
  motorDir := d.toNat
  rpm := strFloat (roundBits 53 (r.toNat / 10))
  accel := strFloat (roundBits 53 (a.toNat / 10))
  microsteps := Nat.repr m.toNat
  encDir := e.toNat
  baud := Nat.repr (b.toNat * 100)
  autoStream := s.toNat
  cfgIp := regsToIp ih il
  cfgMask := regsToIp mh ml
  cfgGw := regsToIp gh gl

section

variable {d r a m e b s ih il mh ml gh gl : BitVec 16} {f : ParameterFields}

theorem loadParameters_registers :
    loadParameters true (.registers [d, r, a, m]) (.registers [e, b, s])
      (.registers [ih, il, mh, ml, gh, gl]) f =
        shownFields d r a m e b s ih il mh ml gh gl := rfl

/-- After a complete load, the writes carry the words that were read. -/
theorem applyWrites_shownFields :
    applyWrites (shownFields d r a m e b s ih il mh ml gh gl) =
      [(.motorDir, d.toNat), (.motorRpm, r.toNat), (.motorAccel, a.toNat),
        (.motorMicrosteps, m.toNat), (.encoderDir, e.toNat), (.uartBaud, b.toNat),
        (.autoStream, s.toNat), (.ipHigh, ih.toNat), (.ipLow, il.toNat)] := by
  simp only [applyWrites, parameterWrites, shownFields, floatOf_tenth, truncToNat_tenth,
    Nat.toNat?_repr, truncToNat_hundredth, ipToRegs_regsToIp, Option.bind_eq_bind,
    Option.bind_some, Option.pure_def, List.cons_append, List.nil_append]

end

/-- A read of one to twenty registers. -/
theorem readHoldingRegisters_eq {fl : ℚ → ℚ} {inputs : ℕ → ReadInputs} {cfg : ModbusConfig}
    {address count : BitVec 16} (hpos : 0 < count) (hle : count ≤ 20) :
    readHoldingRegisters fl inputs cfg address count =
      .registers ((List.range count.toNat).map fun i =>
        readAddress fl (inputs i) cfg (address + BitVec.ofNat 16 i)) := by
  rw [readHoldingRegisters,
    (recv_read (requestSegment_isRequest fcReadHoldingRegs address count) hpos hle).2]
  refine congrArg PollResponse.registers (List.map_congr_left fun i hi => ?_)
  exact readResponse_word address (List.mem_range.mp hi)

/-- The registers from 201. -/
theorem readHoldingRegisters_motor (fl : ℚ → ℚ) (inputs : ℕ → ReadInputs) (cfg : ModbusConfig) :
    readHoldingRegisters fl inputs cfg 201 4 =
      .registers [readRegister fl (inputs 0) cfg .motorDir,
        readRegister fl (inputs 1) cfg .motorRpm, readRegister fl (inputs 2) cfg .motorAccel,
        readRegister fl (inputs 3) cfg .motorMicrosteps] := by
  rw [readHoldingRegisters_eq (by decide) (by decide)]
  rfl

/-- The registers from 301. -/
theorem readHoldingRegisters_encoder (fl : ℚ → ℚ) (inputs : ℕ → ReadInputs) (cfg : ModbusConfig) :
    readHoldingRegisters fl inputs cfg 301 3 =
      .registers [readRegister fl (inputs 0) cfg .encoderDir,
        readRegister fl (inputs 1) cfg .uartBaud, readRegister fl (inputs 2) cfg .autoStream] := by
  rw [readHoldingRegisters_eq (by decide) (by decide)]
  rfl

/-- The registers from 310. -/
theorem readHoldingRegisters_network (fl : ℚ → ℚ) (inputs : ℕ → ReadInputs) (cfg : ModbusConfig) :
    readHoldingRegisters fl inputs cfg 310 6 =
      .registers [readRegister fl (inputs 0) cfg .ipHigh,
        readRegister fl (inputs 1) cfg .ipLow, readRegister fl (inputs 2) cfg .netmaskHigh,
        readRegister fl (inputs 3) cfg .netmaskLow, readRegister fl (inputs 4) cfg .gatewayHigh,
        readRegister fl (inputs 5) cfg .gatewayLow] := by
  rw [readHoldingRegisters_eq (by decide) (by decide)]
  rfl

/-! ## Writing back what was read -/

/-- The parameters that the settings tab reads and writes. -/
def parameterRegisters : List Register :=
  [.motorDir, .motorRpm, .motorAccel, .motorMicrosteps, .encoderDir, .uartBaud, .autoStream]

section

variable {cfg : ModbusConfig} {r : Register}

/-- A parameter other than a direction that no write gives reads the same when it is written
back. -/
theorem read_write_back (h : r ∈ parameterRegisters) (now : ReadInputs)
    (hdir : readRegister Binary32.round now cfg .motorDir ≤ 1) :
    readRegister Binary32.round now
        (writeRegister Binary32.round cfg r (readRegister Binary32.round now cfg r)) r =
      readRegister Binary32.round now cfg r := by
  by_cases hvalue : r ∈ valueRegisters
  · exact read_write_value now hvalue _
  · have hflag : r ∈ flagRegisters := by
      cases r <;> first | decide | exact absurd (by decide) hvalue | exact absurd h (by decide)
    have hle : readRegister Binary32.round now cfg r ≤ 1 := by
      simp only [flagRegisters, List.mem_cons, List.not_mem_nil, or_false] at hflag
      rcases hflag with rfl | rfl | rfl
      · exact hdir
      · simp only [readRegister]
        split <;> decide
      · simp only [readRegister]
        split <;> decide
    rw [read_write_flag now hflag]
    generalize readRegister Binary32.round now cfg r = v at hle
    split
    · bv_omega
    · bv_omega

/-- The same for every register: a write of what was read, or of an address half. -/
theorem readRegister_write_back {v : BitVec 16} (now : ReadInputs)
    (hdir : readRegister Binary32.round now cfg .motorDir ≤ 1)
    (h : (r = .ipHigh ∨ r = .ipLow) ∨
      r ∈ parameterRegisters ∧ v = readRegister Binary32.round now cfg r) (s : Register) :
    readRegister Binary32.round now (writeRegister Binary32.round cfg r v) s =
      readRegister Binary32.round now cfg s := by
  by_cases hs : r = s
  · subst hs
    rcases h with (rfl | rfl) | ⟨hr, rfl⟩
    · rfl
    · rfl
    · exact read_write_back hr now hdir
  · exact readRegister_writeRegister_of_ne now hs v

/-- A batch of such writes leaves what is read from every register. -/
theorem readRegister_written_back {ws : List (Register × BitVec 16)} (now : ReadInputs)
    (hdir : readRegister Binary32.round now cfg .motorDir ≤ 1)
    (h : ∀ c ∈ ws, (c.1 = .ipHigh ∨ c.1 = .ipLow) ∨
      c.1 ∈ parameterRegisters ∧ c.2 = readRegister Binary32.round now cfg c.1) (s : Register) :
    readRegister Binary32.round now
        (ws.foldl (fun cfg c => writeRegister Binary32.round cfg c.1 c.2) cfg) s =
      readRegister Binary32.round now cfg s := by
  induction ws generalizing cfg with
  | nil => rfl
  | cons c ws ih =>
      have hfirst := readRegister_write_back now hdir (h c List.mem_cons_self)
      rw [List.foldl_cons, ih (by rwa [hfirst]) fun c' hc' => ?_, hfirst]
      rw [hfirst]
      exact h c' (List.mem_cons_of_mem c hc')

end

end Modbus
end MDCMotorControl
