import MDCMotorControl.Modbus.Server

/-!
# What the receive handler reads of a segment

The handler once more, with every read of the payload recorded and every byte
that goes from the payload to `tcp_write`.  The configuration, the calls into
LwIP and the return value are those of the handler without the record.

Main results:

- Theorem `recv_recording`: the record of one call, and that it is only a record.
- Theorem `accesses_within_iff`: on which segments the handler keeps to the
  bytes it was given.
-/

namespace MDCMotorControl
namespace Modbus

open BigEndian

/-! ## The recording handler -/

/-- The payload indices read so far, and those of the payload bytes handed to
`tcp_write`. -/
structure Access where
  reads : List ℕ
  handed : List ℕ
deriving DecidableEq

/-- `data[i]`. -/
def Pbuf.load (p : Pbuf) (i : ℕ) : StateM Access Byte := fun a =>
  (p.data i, { a with reads := a.reads ++ [i] })

/-- `memcpy` from the start of the payload. -/
def Pbuf.copy (p : Pbuf) (n : ℕ) : StateM Access (List Byte) := fun a =>
  ((List.range n).map p.data, { a with reads := a.reads ++ List.range n })

/-- The payload as the argument of `tcp_write`, which copies the bytes itself. -/
def Pbuf.handOver (p : Pbuf) (n : ℕ) : StateM Access (List Byte) := fun a =>
  ((List.range n).map p.data, { a with handed := a.handed ++ List.range n })

section

variable (fl : ℚ → ℚ)

/-- The dispatch on the function code, with its reads. -/
def handleFrameRecording (inputs : ℕ → ReadInputs) (cfg : ModbusConfig) (p : Pbuf) :
    StateM Access (ModbusConfig × Option (List Byte)) := do
  let functionCode ← p.load 7
  if functionCode = fcReadHoldingRegs then
    let startHi ← p.load 8
    let startLo ← p.load 9
    let quantityHi ← p.load 10
    let quantityLo ← p.load 11
    let quantity := wordOf quantityHi quantityLo
    if 0 < quantity ∧ quantity ≤ 20 then
      let byteCount : Byte := BitVec.ofNat 8 (quantity.toNat * 2)
      let length : BitVec 16 := 3 + byteCount.setWidth 16
      let header ← p.copy 6
      let unit ← p.load 6
      return (cfg, some ((header.set 4 (hiByte length) |>.set 5 (loByte length)) ++
        [unit, functionCode, byteCount] ++
        registerBytes fl inputs cfg (wordOf startHi startLo) quantity.toNat))
    else return (cfg, none)
  else if functionCode = fcWriteSingleReg then
    let addressHi ← p.load 8
    let addressLo ← p.load 9
    let valueHi ← p.load 10
    let valueLo ← p.load 11
    let echo ← p.handOver 12
    return (writeAddress fl cfg (wordOf addressHi addressLo) (wordOf valueHi valueLo), some echo)
  else return (cfg, none)

/-- `modbus_recv_cb`, with its reads. -/
def modbusRecvCbRecording (inputs : ℕ → ReadInputs) (cfg : ModbusConfig) (p : Option Pbuf)
    (err : Int) : StateM Access RecvResult := do
  match p with
  | none => return ⟨cfg, [.close], 0⟩
  | some p =>
      if err ≠ 0 then return ⟨cfg, [.free], err⟩
      else if mbapHeaderSize ≤ p.payload.length then
        let (cfg', frame) ← handleFrameRecording fl inputs cfg p
        return ⟨cfg', [.recved p.totLen] ++ (frame.map LwipCall.write).toList ++
          [.output, .free], 0⟩
      else return ⟨cfg, [.recved p.totLen, .free], 0⟩

/-! ## The record of one call -/

/-- What the dispatch reads and hands over, by the function code it finds. -/
def Pbuf.frameAccess (p : Pbuf) : Access :=
  if p.data 7 = fcReadHoldingRegs then
    if 0 < wordOf (p.data 10) (p.data 11) ∧ wordOf (p.data 10) (p.data 11) ≤ 20 then
      ⟨[7, 8, 9, 10, 11] ++ List.range 6 ++ [6], []⟩
    else ⟨[7, 8, 9, 10, 11], []⟩
  else if p.data 7 = fcWriteSingleReg then ⟨[7, 8, 9, 10, 11], List.range 12⟩
  else ⟨[7], []⟩

/-- What the handler reads of a segment and hands over of it. -/
def Pbuf.access (p : Pbuf) : Access :=
  if mbapHeaderSize ≤ p.payload.length then p.frameAccess else ⟨[], []⟩

variable {fl} {inputs : ℕ → ReadInputs} {cfg : ModbusConfig} {p : Pbuf}

@[simp] theorem run_load (i : ℕ) (a : Access) :
    (p.load i).run a = pure (p.data i, { a with reads := a.reads ++ [i] }) :=
  rfl

@[simp] theorem run_copy (n : ℕ) (a : Access) :
    (p.copy n).run a =
      pure ((List.range n).map p.data, { a with reads := a.reads ++ List.range n }) :=
  rfl

@[simp] theorem run_handOver (n : ℕ) (a : Access) :
    (p.handOver n).run a =
      pure ((List.range n).map p.data, { a with handed := a.handed ++ List.range n }) :=
  rfl

/-- The recorded dispatch is the dispatch of the handler. -/
theorem handleFrame_recording (a : Access) :
    (handleFrameRecording fl inputs cfg p).run a =
      pure (handleFrame fl inputs cfg p,
        ⟨a.reads ++ p.frameAccess.reads, a.handed ++ p.frameAccess.handed⟩) := by
  unfold handleFrameRecording handleFrame Pbuf.frameAccess
  by_cases hread : p.data 7 = fcReadHoldingRegs
  · by_cases hq : 0 < wordOf (p.data 10) (p.data 11) ∧ wordOf (p.data 10) (p.data 11) ≤ 20
    · simp only [BitVec.ofNat_eq_ofNat] at hq
      simp [hread, hq, readResponse]
    · simp only [BitVec.ofNat_eq_ofNat] at hq
      simp [hread, hq]
  · by_cases hwrite : p.data 7 = fcWriteSingleReg
    · have hne : fcWriteSingleReg ≠ fcReadHoldingRegs := by decide
      simp [hwrite, hne]
    · simp [hread, hwrite]

/-- One call records its reads and is otherwise the call of the handler. -/
theorem recv_recording :
    (modbusRecvCbRecording fl inputs cfg (some p) 0).run ⟨[], []⟩ =
      (modbusRecvCb fl inputs cfg (some p) 0, p.access) := by
  unfold modbusRecvCbRecording modbusRecvCb Pbuf.access
  by_cases hlen : mbapHeaderSize ≤ p.payload.length
  · simp [hlen, handleFrame_recording]
    rfl
  · simp [hlen]
    rfl

/-! ## Segments of any length -/

/-- No call reaches beyond the twelve bytes of a request. -/
theorem access_lt_twelve : (∀ i ∈ p.access.reads, i < 12) ∧ ∀ i ∈ p.access.handed, i < 12 := by
  unfold Pbuf.access Pbuf.frameAccess
  split_ifs <;> decide

/-- A segment as long as the header has its function code read. -/
theorem seven_mem_reads (h : mbapHeaderSize ≤ p.payload.length) : 7 ∈ p.access.reads := by
  unfold Pbuf.access Pbuf.frameAccess
  rw [if_pos h]
  split_ifs <;> decide

/-- A function code that is served has the last byte of a request read. -/
theorem eleven_mem_reads (h : mbapHeaderSize ≤ p.payload.length)
    (hcode : p.data 7 = fcReadHoldingRegs ∨ p.data 7 = fcWriteSingleReg) :
    11 ∈ p.access.reads := by
  unfold Pbuf.access Pbuf.frameAccess
  rw [if_pos h]
  split_ifs with hread hq hwrite
  · decide
  · decide
  · decide
  · exact absurd hcode (not_or.mpr ⟨hread, hwrite⟩)

/-- Any other function code is read, ignored and not answered. -/
theorem recv_other (hread : p.data 7 ≠ fcReadHoldingRegs) (hwrite : p.data 7 ≠ fcWriteSingleReg)
    (h : mbapHeaderSize ≤ p.payload.length) :
    p.access = ⟨[7], []⟩ ∧ (modbusRecvCb fl inputs cfg (some p) 0).frames = [] ∧
      (modbusRecvCb fl inputs cfg (some p) 0).cfg = cfg := by
  constructor
  · rw [Pbuf.access, if_pos h, Pbuf.frameAccess, if_neg hread, if_neg hwrite]
  · rw [(recv_frame h).1, (recv_frame h).2, handleFrame, if_neg hread, if_neg hwrite]
    exact ⟨rfl, rfl⟩

/-- The handler reads and echoes only bytes of the segment, and ignores the ones
too short for a request, exactly when the segment is shorter than the header,
or as long as a request, or holds a function code that is not served. -/
theorem accesses_within_iff :
    ((∀ i ∈ ((modbusRecvCbRecording fl inputs cfg (some p) 0).run ⟨[], []⟩).2.reads,
        i < p.payload.length) ∧
      (∀ i ∈ ((modbusRecvCbRecording fl inputs cfg (some p) 0).run ⟨[], []⟩).2.handed,
        i < p.payload.length) ∧
      (p.payload.length < 12 →
        ((modbusRecvCbRecording fl inputs cfg (some p) 0).run ⟨[], []⟩).1.frames = [] ∧
        ((modbusRecvCbRecording fl inputs cfg (some p) 0).run ⟨[], []⟩).1.cfg = cfg)) ↔
    p.payload.length < mbapHeaderSize ∨ 12 ≤ p.payload.length ∨
      (8 ≤ p.payload.length ∧ p.data 7 ≠ fcReadHoldingRegs ∧ p.data 7 ≠ fcWriteSingleReg) := by
  rw [recv_recording]
  constructor
  · rintro ⟨hreads, _, _⟩
    by_contra hcontra
    simp only [not_or, not_and, not_lt, not_le, ne_eq] at hcontra
    obtain ⟨hheader, hshort, hcode⟩ := hcontra
    have h7 : 7 < p.payload.length := hreads 7 (seven_mem_reads hheader)
    have hserved : p.data 7 = fcReadHoldingRegs ∨ p.data 7 = fcWriteSingleReg := by
      by_cases hread : p.data 7 = fcReadHoldingRegs
      · exact .inl hread
      · exact .inr (not_not.mp (hcode h7 hread))
    have h11 : 11 < p.payload.length := hreads 11 (eleven_mem_reads hheader hserved)
    omega
  · rintro (hshort | hlong | ⟨hlen, hread, hwrite⟩)
    · have hheader : ¬ mbapHeaderSize ≤ p.payload.length := not_le.mpr hshort
      have haccess : p.access = ⟨[], []⟩ := if_neg hheader
      rw [haccess]
      exact ⟨by simp, by simp, fun _ => ⟨(recv_short hheader).2, (recv_short hheader).1⟩⟩
    · obtain ⟨hreads, hhanded⟩ := @access_lt_twelve p
      exact ⟨fun i hi => lt_of_lt_of_le (hreads i hi) hlong,
        fun i hi => lt_of_lt_of_le (hhanded i hi) hlong, fun h => absurd h (not_lt.mpr hlong)⟩
    · have hheader : mbapHeaderSize ≤ p.payload.length := le_trans (by decide) hlen
      obtain ⟨haccess, hframes, hcfg⟩ := @recv_other fl inputs cfg p hread hwrite hheader
      rw [haccess]
      refine ⟨?_, by simp, fun _ => ⟨hframes, hcfg⟩⟩
      intro i hi
      have hi7 : i = 7 := by simpa using hi
      omega

end

/-- The first eight bytes of a write, with an older write in the memory behind
them. -/
def cutWrite : Pbuf where
  payload := [0, 1, 0, 0, 0, 6, 1, fcWriteSingleReg]
  beyond := fun i => if i = 9 then 200 else if i = 11 then 1 else 0
  totLen := 8

/-- Eight bytes start the motor: the register and the value are read behind the
segment, and four bytes from there are sent to the client. -/
theorem cutWrite_starts_motor :
    let run := (modbusRecvCbRecording id (fun _ => restInputs) initialConfig (some cutWrite) 0).run
      ⟨[], []⟩
    cutWrite.payload.length = 8 ∧ 11 ∈ run.2.reads ∧ 11 ∈ run.2.handed ∧
      run.1.frames = [[0, 1, 0, 0, 0, 6, 1, 6, 0, 200, 0, 1]] ∧
      initialConfig.pendingMotorStart = false ∧ run.1.cfg.pendingMotorStart = true := by
  decide +kernel

end Modbus
end MDCMotorControl
