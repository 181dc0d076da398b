import MDCMotorControl.Firmware.SavedRuns
import MDCMotorControl.Modbus.RegisterCells

/-!
# Network registers and network settings

The network registers are read from the settings in use and written, as far as they
can be, to the Modbus structure.  Only the two halves of the address have a case in the
write branch; a save carries all three addresses over to the settings, and the boot
hands them to LwIP.

Main results:

- Theorem `runFrom_inStep`: the netmask and the gateway of the Modbus structure are
  always those of the settings.
- Theorem `network_write_iff`: when a write of a network register is read back, at once
  and after a save and a restart.
- Theorem `netif_after_save`: the addresses that LwIP is given.
-/

namespace MDCMotorControl
namespace Firmware

open Interruptible Motor Settings Modbus Panel FlashSector BigEndian

/-! ## Addresses and their halves -/

/-- An address, a netmask and a gateway. -/
structure HostConfig where
  ipAddress : Octets
  netmask : Octets
  gateway : Octets
deriving DecidableEq

/-- The network part of the parameters. -/
def hostConfig (p : Parameters) : HostConfig :=
  ⟨p.ipAddress, p.netmask, p.gateway⟩

/-- The network registers. -/
def networkRegisters : List Register :=
  [.ipHigh, .ipLow, .netmaskHigh, .netmaskLow, .gatewayHigh, .gatewayLow]

/-- The network registers that a write changes. -/
def addressRegisters : List Register :=
  [.ipHigh, .ipLow]

/-- The half-word that a network register stands for. -/
def HostConfig.half (n : HostConfig) : Register → BitVec 16
  | .ipHigh => wordOf n.ipAddress.o0 n.ipAddress.o1
  | .ipLow => wordOf n.ipAddress.o2 n.ipAddress.o3
  | .netmaskHigh => wordOf n.netmask.o0 n.netmask.o1
  | .netmaskLow => wordOf n.netmask.o2 n.netmask.o3
  | .gatewayHigh => wordOf n.gateway.o0 n.gateway.o1
  | .gatewayLow => wordOf n.gateway.o2 n.gateway.o3
  | _ => 0

/-- The addresses in the settings in use. -/
def Control.activeHost (ctl : Control) : HostConfig :=
  hostConfig (loadedParameters ctl.settings)

/-- The addresses in the Modbus structure. -/
def Control.modbusHost (ctl : Control) : HostConfig :=
  hostConfig (parametersOf ctl.mb)

/-- What a read of a single register is answered with. -/
def readSingle (inputs : ReadInputs) (ctl : Control) (q : Pbuf) : BitVec 16 :=
  readBack Binary32.round { inputs with settings := ctl.settings } ctl.mb q

section

variable {crc : List (BitVec 32) → BitVec 32} {fl : ℚ → ℚ}

/-- Network registers are read from the settings in use. -/
theorem readSingle_network {r : Register} (hr : r ∈ networkRegisters) {q : Pbuf}
    (hq : q.IsRequest fcReadHoldingRegs r.address 1) (inputs : ReadInputs) (ctl : Control) :
    readSingle inputs ctl q = ctl.activeHost.half r := by
  rw [readSingle, readBack_eq hq, readAddress, Register.ofAddress_address]
  simp only [networkRegisters, List.mem_cons, List.not_mem_nil, or_false] at hr
  rcases hr with rfl | rfl | rfl | rfl | rfl | rfl <;> rfl

/-- Only writes of the address registers change the network part. -/
theorem hostConfig_part {r : Register} (hr : r ∉ addressRegisters) (mb : ModbusConfig)
    (v : BitVec 16) :
    hostConfig (parametersOf (writeRegister fl mb r v)) = hostConfig (parametersOf mb) := by
  cases r with
  | ipHigh | ipLow => exact absurd (by decide) hr
  | motorCtrl | streamCtrl | saveSettings | systemReboot =>
      simp only [writeRegister]
      split <;> rfl
  | _ => rfl

/-- A write changes its own half of the address and no other half. -/
theorem half_writeRegister (mb : ModbusConfig) (r r' : Register) (v : BitVec 16) :
    (hostConfig (parametersOf (writeRegister fl mb r v))).half r' =
      if r' = r ∧ r ∈ addressRegisters then v else (hostConfig (parametersOf mb)).half r' := by
  by_cases hr : r ∈ addressRegisters
  · simp only [addressRegisters, List.mem_cons, List.not_mem_nil, or_false] at hr
    rcases hr with rfl | rfl <;> cases r' <;> first | rfl | exact wordOf_hiByte_loByte v
  · rw [hostConfig_part hr, if_neg fun h => hr h.2]

/-! ## Netmask and gateway -/

/-- The Modbus structure has the netmask and the gateway of the settings in use. -/
def InStep (view : Parameters × SystemSettings × Storage) : Prop :=
  view.1.netmask = view.2.2.active.netmask ∧ view.1.gateway = view.2.2.active.gateway

/-- No write changes the two. -/
theorem applyCommand_netmask_gateway (mb : ModbusConfig) (c : Option (Register × BitVec 16)) :
    (applyCommand fl mb c).netmask = mb.netmask ∧ (applyCommand fl mb c).gateway = mb.gateway := by
  rcases c with _ | ⟨r, v⟩
  · exact ⟨rfl, rfl⟩
  · cases r with
    | motorCtrl | streamCtrl | saveSettings | systemReboot =>
        simp only [applyCommand, writeRegister]
        split <;> exact ⟨rfl, rfl⟩
    | _ => exact ⟨rfl, rfl⟩

theorem receive_inStep (deliveries : List (Pbuf × (ℕ → ReadInputs))) :
    (mxLwipProcess fl deliveries).Preserves fun w => InStep w.settled := by
  refine mxLwipProcess_preserves _ (fun p inputs w hw => ?_) deliveries
  obtain ⟨hnetmask, hgateway⟩ := @applyCommand_netmask_gateway fl w.ctl.mb p.command
  rw [← @recv_cfg fl inputs] at hnetmask hgateway
  exact ⟨hnetmask.trans hw.1, hgateway.trans hw.2⟩

/-- A save copies them into the settings, or leaves these alone. -/
theorem saveCommand_inStep (ops : Outcomes 12) :
    Triple (sysTickHandler fl) (fun _ => True) (fun w => InStep w.settled)
      (saveCommand crc ops) fun w => InStep w.settled := by
  let assertion : Control → Prop := fun ctl => InStep (parametersOf ctl.mb, ctl.newCfg, ctl.storage)
  apply Triple.of_exec (P := assertion) (Q := assertion) (sysTickHandler_ctl fl)
    saveCommand_determined
  intro w hw
  by_cases hpending : w.ctl.mb.pendingSaveCmd = true
  · show InStep ((saveCommand crc ops).exec w).settled
    rw [saveCommand_exec hpending, InStep, appSettingsSave_active]
    split
    · exact ⟨rfl, rfl⟩
    · exact hw
  · rw [saveCommand, Code.exec_whenever, if_neg hpending]
    exact hw

theorem inStep_stable : Stable (sysTickHandler fl) fun w => InStep w.settled := by
  intro pin w hw
  rwa [sysTickHandler_settled]

theorem pass_inStep (input : PassInput) :
    Triple (sysTickHandler fl) (fun _ => True) (fun w => InStep w.settled) (pass fl crc input)
      fun w => InStep w.settled := by
  have hkeep : ∀ {c : Code World}, c.Preserves (fun w => InStep w.settled) →
      Triple (sysTickHandler fl) (fun _ => True) (fun w => InStep w.settled) c
        fun w => InStep w.settled :=
    fun hc => .of_preserves inStep_stable (fun _ _ => trivial) hc
  have hmachine : (motorStateMachine fl).Keeps World.settled :=
    motorStateMachine_keeps fl (fun _ _ => rfl) fun _ _ => rfl
  exact (hkeep (receive_inStep _)).seq <|
    (hkeep (sampleInputs_settled.preserves fun v => InStep v.2)).seq <|
    (saveCommand_inStep _).seq <| (hkeep (commands_settled.preserves InStep)).seq <|
    hkeep (.block_cons (hmachine.preserves InStep) .block_nil)

/-- The boot copies them out of the settings. -/
theorem boot_inStep (repair : Outcomes 12) :
    Triple (sysTickHandler fl) (fun _ => True) (fun _ => True) (boot crc repair)
      fun w => InStep w.settled := by
  let assertion : Control → Prop := fun ctl => InStep (parametersOf ctl.mb, ctl.newCfg, ctl.storage)
  have hinit : (settingsInit crc repair).Preserves fun _ => True :=
    .branch ⟨fun _ => id, trivial⟩ (.stmt fun _ => id)
  have htrue : Stable (sysTickHandler fl) fun _ : World => True := fun _ _ => id
  rw [boot_eq]
  refine (Triple.of_preserves htrue (fun _ _ => trivial) hinit).seq ?_
  apply Triple.of_exec (P := fun _ => True) (Q := assertion) (sysTickHandler_ctl fl)
    bootAfterInit_determined
  exact fun w _ => ⟨rfl, rfl⟩

/-- Wherever the boot code or a pass has returned in a run, the Modbus structure has the
netmask and the gateway of the settings. -/
theorem runFrom_inStep {start : PowerUp} {schedule : List (Event Bool PassInput)}
    (hready : (runFrom fl crc start schedule).code = .done) :
    InStep (runFrom fl crc start schedule).state.settled :=
  wp_returned (Q := fun w => InStep w.settled)
    (System.run_invariant (I := fun _ => True) (fun input w hw => pass_inStep input w hw)
      (boot_inStep start.repair _ trivial) schedule) hready

end

/-! ## Writes of network registers -/

section

variable {crc : List (BitVec 32) → BitVec 32}

/-- Reads of the network registers in the second state are answered with `v` for the
register `r` and as in the first state for the others. -/
def ReadsBack (r : Register) (v : BitVec 16) (ctl ctl' : Control) : Prop :=
  ∀ r' ∈ networkRegisters, ∀ q : Pbuf, q.IsRequest fcReadHoldingRegs r'.address 1 →
    ∀ inputs, readSingle inputs ctl' q = if r' = r then v else readSingle inputs ctl q

theorem readsBack_iff {r : Register} {v : BitVec 16} {ctl ctl' : Control} :
    ReadsBack r v ctl ctl' ↔ ∀ r' ∈ networkRegisters,
      ctl'.activeHost.half r' = if r' = r then v else ctl.activeHost.half r' := by
  constructor
  · intro h r' hr'
    have hq := requestSegment_isRequest fcReadHoldingRegs r'.address 1
    have hread := h r' hr' _ hq restInputs
    rwa [readSingle_network hr' hq, readSingle_network hr' hq] at hread
  · intro h r' hr' q hq inputs
    rw [readSingle_network hr' hq, readSingle_network hr' hq]
    exact h r' hr'

/-- At the write, the halves of the netmask and of the gateway in the Modbus structure
are those in the settings. -/
theorem LastWrite.half_eq {rs : List Register} {p : Pbuf} {s : PassRun crc} {ctl : Control}
    (h : LastWrite rs p s ctl) {r : Register} (hr : r ∉ addressRegisters) :
    ctl.modbusHost.half r = ctl.activeHost.half r := by
  obtain ⟨schedule, earlier, hready, rfl⟩ := h.exists_ready
  have hexec := (@receive_inStep Binary32.round earlier).exec (runFrom_inStep hready)
  rw [World.settled, receive_exec] at hexec
  obtain ⟨hnetmask, hgateway⟩ := hexec
  cases r with
  | ipHigh | ipLow => exact absurd (by decide) hr
  | netmaskHigh => exact congrArg (fun o : Octets => wordOf o.o0 o.o1) hnetmask
  | netmaskLow => exact congrArg (fun o : Octets => wordOf o.o2 o.o3) hnetmask
  | gatewayHigh => exact congrArg (fun o : Octets => wordOf o.o0 o.o1) hgateway
  | gatewayLow => exact congrArg (fun o : Octets => wordOf o.o2 o.o3) hgateway
  | _ => rfl

/-- After a save and a restart a register shows what the Modbus structure had at the
last write, or the value of this write. -/
theorem LastWrite.half_reboot {s : PassRun crc} {p : Pbuf} {ctl : Control} {r : Register}
    {v : BitVec 16} (h : LastWrite addressRegisters p s ctl)
    (hp : p.IsRequest fcWriteSingleReg r.address v) (hsaves : s.Saves) {pin : Bool}
    {repair : Outcomes 12} {restart : List (Event Bool PassInput)}
    (hrestart : ∀ e ∈ restart, e.isEnter = false) (hsteps : 9 ≤ programSteps restart)
    (r' : Register) :
    (s.reboot pin repair restart).state.ctl.activeHost.half r' =
      if r' = r ∧ r ∈ addressRegisters then v else ctl.modbusHost.half r' := by
  obtain ⟨_, hloaded, _⟩ :=
    @PassRun.reboot_of_saves crc s hsaves pin repair restart hrestart hsteps
  have hbatch := h.batch_part fun r hr mb w => @hostConfig_part Binary32.round r hr mb w
  rw [hp.command, applyCommand] at hbatch
  rw [Control.activeHost, hloaded, hbatch]
  exact half_writeRegister ctl.mb r r' v

/-- A write of a network register is acknowledged.  It is read back, at once and after a
save and a restart, with the other network registers as before, exactly if the register
already reads as written and no other half of the address awaits its save. -/
theorem network_write_iff {s : PassRun crc} {p : Pbuf} {ctl : Control} {r : Register}
    {v : BitVec 16} (hr : r ∈ networkRegisters) (hwrite : LastWrite addressRegisters p s ctl)
    (hp : p.IsRequest fcWriteSingleReg r.address v) (hsaves : s.Saves) {pin : Bool}
    {repair : Outcomes 12} {restart : List (Event Bool PassInput)}
    (hrestart : ∀ e ∈ restart, e.isEnter = false) (hsteps : 9 ≤ programSteps restart)
    (inputs : ℕ → ReadInputs) :
    let result := modbusRecvCb Binary32.round inputs ctl.mb (some p) 0
    let after : Control := { ctl with mb := result.cfg }
    let booted := s.reboot pin repair restart
    result.frames = [(List.range 12).map p.data] ∧ booted.code = .done ∧
      (ReadsBack r v ctl after ∧ ReadsBack r v ctl booted.state.ctl ↔
        ctl.activeHost.half r = v ∧ ∀ r' ∈ addressRegisters, r' ≠ r →
          ctl.modbusHost.half r' = ctl.activeHost.half r') := by
  intro result after booted
  obtain ⟨hdone, _⟩ := @PassRun.reboot_of_saves crc s hsaves pin repair restart hrestart hsteps
  have hafter : after.activeHost = ctl.activeHost := rfl
  have hbooted := @LastWrite.half_reboot crc s p ctl r v hwrite hp hsaves pin repair restart
    hrestart hsteps
  refine ⟨recv_write_frames hp, hdone, ?_⟩
  rw [readsBack_iff, readsBack_iff, hafter]
  constructor
  · rintro ⟨hnow, hlater⟩
    refine ⟨(hnow r hr).trans (if_pos rfl), fun r' hr' hne => ?_⟩
    have hnetwork : r' ∈ networkRegisters := by
      simp only [addressRegisters, List.mem_cons, List.not_mem_nil, or_false] at hr'
      rcases hr' with rfl | rfl <;> decide
    have hshown := hlater r' hnetwork
    rwa [hbooted, if_neg fun h => hne h.1, if_neg hne] at hshown
  · rintro ⟨hv, hagree⟩
    have hsame : ∀ r', (r' = r → r ∉ addressRegisters) →
        ctl.modbusHost.half r' = ctl.activeHost.half r' := by
      intro r' hother
      by_cases hr' : r' ∈ addressRegisters
      · exact hagree r' hr' fun heq => hother heq (heq ▸ hr')
      · exact hwrite.half_eq hr'
    refine ⟨fun r' _ => ?_, fun r' _ => ?_⟩
    · split
      case isTrue heq => rw [heq, hv]
      case isFalse => rfl
    · rw [hbooted]
      by_cases heq : r' = r
      · subst heq
        by_cases haddress : r' ∈ addressRegisters
        · simp [haddress]
        · rw [if_neg fun h => haddress h.2, if_pos rfl, hsame r' fun _ => haddress, hv]
      · rw [if_neg fun h => heq h.1, if_neg heq]
        exact hsame r' fun h => absurd h heq

end

/-- The upper half of the address, written as it is, and saved. -/
def sameAddress : PassRun fun _ => 0 :=
  firstPass [(.ipHigh, 0xC0A8), (.saveSettings, 1)] (by decide +kernel)

/-- It is read back. -/
theorem network_write_iff_same :
    ReadsBack .ipHigh 0xC0A8 sameAddress.old
      (sameAddress.reboot true flashCompletes (List.replicate 9 .main)).state.ctl := by
  have hwrite : LastWrite addressRegisters (writeSegment .ipHigh 0xC0A8) sameAddress
      (afterDeliveries sameAddress.old []) :=
    @LastWrite.inLastPass _ _ _ sameAddress [] [(writeSegment .saveSettings 1, fun _ => restInputs)]
      (fun _ => restInputs) rfl (by simp [Avoids, writeSegment_command, addressRegisters])
  have hsaves : sameAddress.Saves := ⟨by decide +kernel, by decide +kernel⟩
  obtain ⟨_, _, hiff⟩ := @network_write_iff _ sameAddress _ _ .ipHigh 0xC0A8 (by decide) hwrite
    (writeSegment_isRequest .ipHigh 0xC0A8) hsaves true flashCompletes (List.replicate 9 .main)
    (by decide) (by decide) fun _ => restInputs
  exact (hiff.mpr ⟨by decide +kernel, by decide +kernel⟩).2

/-- The lower half of the address and the upper half of the netmask, both written and
acknowledged: neither is read back at once, and after a save and a restart the netmask
is still the old one. -/
theorem network_writes_lost :
    let c := runFrom Binary32.round (fun _ => 0) (emptyFlash false) (bootAndPasses [])
    let saved := runFrom Binary32.round (fun _ => 0) (emptyFlash false) (bootAndPasses
      [writes [(.ipLow, 0x0105), (.netmaskHigh, 0xFF00), (.saveSettings, 1)]])
    let booted := runFrom Binary32.round (fun _ => 0)
      ⟨saved.state.ctl.storage.flash, true, flashCompletes⟩ (List.replicate 9 .main)
    let result := fun r v => modbusRecvCb Binary32.round (fun _ => restInputs) c.state.ctl.mb
      (some (writeSegment r v)) 0
    let read := fun (r : Register) (ctl : Control) =>
      readSingle restInputs ctl (requestSegment fcReadHoldingRegs r.address 1)
    (result .ipLow 0x0105).frames = [(writeSegment .ipLow 0x0105).payload] ∧
      (result .netmaskHigh 0xFF00).frames = [(writeSegment .netmaskHigh 0xFF00).payload] ∧
      read .ipLow { c.state.ctl with mb := (result .ipLow 0x0105).cfg } = 0x0197 ∧
      read .netmaskHigh { c.state.ctl with mb := (result .netmaskHigh 0xFF00).cfg } = 0xFFFF ∧
      booted.code.returned = true ∧ read .ipLow booted.state.ctl = 0x0105 ∧
      read .netmaskHigh booted.state.ctl = 0xFFFF := by
  decide +kernel

/-! ## The addresses of the network interface -/

/-- The factory addresses of `MX_LWIP_Init`. -/
def factoryHost : HostConfig where
  ipAddress := ⟨192, 168, 1, 151⟩
  netmask := ⟨255, 255, 255, 0⟩
  gateway := ⟨192, 168, 1, 1⟩

/-- `MX_LWIP_Init` down to `netif_add`: the sanity check looks at the first octet of the
address alone. -/
def mxLwipInit (sysCfg : SystemSettings) : HostConfig :=
  if sysCfg.ipAddress.o0 = 0 ∨ sysCfg.ipAddress.o0 = 255 then factoryHost
  else ⟨sysCfg.ipAddress, sysCfg.netmask, sysCfg.gateway⟩

/-- The boot when it is about to call `MX_LWIP_Init`. -/
def mxLwipInitCall : Code World :=
  .block [.stmt id, .stmt (World.onCtl syncModbus)]

/-- A host can use the addresses: the address is unicast, neither the network address
nor the broadcast address of its subnet, and the gateway is in the subnet. -/
def HostConfig.Usable (n : HostConfig) : Prop :=
  (1 ≤ n.ipAddress.o0.toNat ∧ n.ipAddress.o0.toNat ≤ 223 ∧ n.ipAddress.o0 ≠ 127) ∧
    n.ipAddress.word &&& ~~~n.netmask.word ≠ 0 ∧
    n.ipAddress.word ||| n.netmask.word ≠ BitVec.allOnes 32 ∧
    n.gateway.word &&& n.netmask.word = n.ipAddress.word &&& n.netmask.word

instance (n : HostConfig) : Decidable n.Usable :=
  inferInstanceAs (Decidable (_ ∧ _))

section

variable {crc : List (BitVec 32) → BitVec 32}

/-- Where the boot calls `MX_LWIP_Init`, the settings are the saved ones. -/
theorem settings_at_call {s : PassRun crc} (hsaves : s.Saves) {pin : Bool} {repair : Outcomes 12}
    {restart : List (Event Bool PassInput)} (hrestart : ∀ e ∈ restart, e.isEnter = false)
    (hcall : (s.reboot pin repair restart).code = mxLwipInitCall) :
    loadedParameters (s.reboot pin repair restart).state.ctl.settings = parametersOf s.last.mb := by
  have hboot : wp (firmware Binary32.round crc).irq (fun _ => True)
      (fun w => w.ctl.settings = .ofWords s.last.storage.flash) (boot crc repair)
      (.powerUp s.last.storage.flash pin) := by
    refine wp_mono (fun _ => id) (fun w hw => ?_)
      (Triple.determined (sysTickHandler_ctl Binary32.round) (boot_determined repair) _ _ rfl)
    rw [hw]
    exact (@boot_exec_loads crc repair (.powerUp s.last.storage.flash pin)
      (PassRun.last_valid hsaves)).1
  have hrun : wp (firmware Binary32.round crc).irq (fun _ => True)
      (fun w => w.ctl.settings = .ofWords s.last.storage.flash)
      (s.reboot pin repair restart).code (s.reboot pin repair restart).state :=
    System.run_wp hrestart hboot
  rw [hcall] at hrun
  -- what is left of the boot does not touch the settings
  have hsettings : (s.reboot pin repair restart).state.ctl.settings =
      .ofWords s.last.storage.flash := wp_exec hrun trivial
  rw [hsettings, PassRun.loaded_last hsaves, s.last_parameters]

/-- After a save and a restart, LwIP is given the addresses that the Modbus structure
had at the save, whether they fit together or not, unless the first octet of the address
is 0 or 255; then it is given the factory addresses, which a host can use. -/
theorem netif_after_save {s : PassRun crc} (hsaves : s.Saves) {pin : Bool} {repair : Outcomes 12}
    {restart : List (Event Bool PassInput)} (hrestart : ∀ e ∈ restart, e.isEnter = false)
    (hcall : (s.reboot pin repair restart).code = mxLwipInitCall) :
    let saved := s.last.modbusHost
    let given := mxLwipInit (s.reboot pin repair restart).state.ctl.settings
    given = (if saved.ipAddress.o0 = 0 ∨ saved.ipAddress.o0 = 255 then factoryHost else saved) ∧
      given.ipAddress.o0 ≠ 0 ∧ given.ipAddress.o0 ≠ 255 ∧ factoryHost.Usable := by
  intro saved given
  have hactive : (s.reboot pin repair restart).state.ctl.activeHost = saved :=
    congrArg hostConfig (settings_at_call hsaves hrestart hcall)
  have hgiven : given =
      if saved.ipAddress.o0 = 0 ∨ saved.ipAddress.o0 = 255 then factoryHost else saved := by
    rw [← hactive]
    rfl
  rw [hgiven]
  refine ⟨rfl, ?_, ?_, by decide⟩
  · split
    case isTrue => decide
    case isFalse hfirst => exact fun h => hfirst (.inl h)
  · split
    case isTrue => decide
    case isFalse hfirst => exact fun h => hfirst (.inr h)

end

/-- An address that starts with 0, written and saved. -/
def zeroAddress : PassRun fun _ => 0 :=
  firstPass [(.ipHigh, 0x0001), (.saveSettings, 1)] (by decide +kernel)

/-- It is replaced. -/
theorem netif_after_save_zero :
    let booted := zeroAddress.reboot true flashCompletes (List.replicate 7 .main)
    mxLwipInit booted.state.ctl.settings = factoryHost := by
  have hsaves : zeroAddress.Saves := ⟨by decide +kernel, by decide +kernel⟩
  obtain ⟨hgiven, _⟩ := @netif_after_save _ zeroAddress hsaves true flashCompletes
    (List.replicate 7 .main) (by decide) rfl
  exact hgiven.trans (by decide +kernel)

/-- The address 10.0.0.5, written and saved: LwIP is given it with the gateway
192.168.1.1, which is not in its subnet. -/
theorem unusable_addresses_given :
    let saved := runFrom Binary32.round (fun _ => 0) (emptyFlash false) (bootAndPasses
      [writes [(.ipHigh, 0x0A00), (.ipLow, 0x0005), (.saveSettings, 1)]])
    let booted := runFrom Binary32.round (fun _ => 0)
      ⟨saved.state.ctl.storage.flash, true, flashCompletes⟩ (List.replicate 7 .main)
    let given := mxLwipInit booted.state.ctl.settings
    booted.code = mxLwipInitCall ∧
      given = ⟨⟨10, 0, 0, 5⟩, ⟨255, 255, 255, 0⟩, ⟨192, 168, 1, 1⟩⟩ ∧ ¬ given.Usable ∧
      given ≠ factoryHost :=
  ⟨rfl, by decide +kernel⟩

end Firmware
end MDCMotorControl
