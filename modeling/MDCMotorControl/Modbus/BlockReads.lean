import Mathlib.Data.List.GetD
import MDCMotorControl.Modbus.Server

/-!
# Reading a block of registers

The answer to a read is built in a buffer: the first six bytes of the request, with
the length field overwritten, then unit, function code, byte count and two bytes for
each register.

Main results:

- Theorem `readResponse_word`: a word of the answer is the register that its own
  iteration reads.
- Theorem `block_read`: the answer is well formed, fits its buffer, and carries what
  reads of the single registers return.
- Theorem `read_refused`: a quantity outside 1 to 20 is not answered.
-/

namespace MDCMotorControl
namespace Modbus

open Motor Settings BigEndian

/-! ## Requests -/

/-- A segment that holds at least a request with the given fields. -/
structure Pbuf.IsRequest (p : Pbuf) (code : Byte) (address value : BitVec 16) : Prop where
  long : 12 ≤ p.payload.length
  code_eq : p.data 7 = code
  address_eq : wordOf (p.data 8) (p.data 9) = address
  value_eq : wordOf (p.data 10) (p.data 11) = value

theorem Pbuf.IsRequest.header {p : Pbuf} {code : Byte} {address value : BitVec 16}
    (h : p.IsRequest code address value) : mbapHeaderSize ≤ p.payload.length :=
  le_trans (by decide) h.long

/-- The command of a write. -/
theorem Pbuf.IsRequest.command {p : Pbuf} {r : Register} {v : BitVec 16}
    (h : p.IsRequest fcWriteSingleReg r.address v) : p.command = some (r, v) := by
  rw [Pbuf.command, if_pos ⟨h.header, h.code_eq⟩, h.address_eq, h.value_eq,
    Register.ofAddress_address]
  rfl

/-- The segment of a request, as a master sends it. -/
def requestSegment (code : Byte) (address value : BitVec 16) : Pbuf where
  payload := [0, 1, 0, 0, 0, 6, 1, code, hiByte address, loByte address, hiByte value,
    loByte value]
  beyond := fun _ => 0
  totLen := 12

theorem requestSegment_isRequest (code : Byte) (address value : BitVec 16) :
    (requestSegment code address value).IsRequest code address value where
  long := le_of_eq rfl
  code_eq := rfl
  address_eq := wordOf_hiByte_loByte address
  value_eq := wordOf_hiByte_loByte value

theorem writeSegment_isRequest (r : Register) (v : BitVec 16) :
    (writeSegment r v).IsRequest fcWriteSingleReg r.address v :=
  requestSegment_isRequest fcWriteSingleReg r.address v

/-! ## The words of an answer -/

/-- The `i`-th word of an answer to a read. -/
def responseWord (frame : List Byte) (i : ℕ) : BitVec 16 :=
  wordOf (frame.getD (9 + 2 * i) 0) (frame.getD (10 + 2 * i) 0)

section

variable {fl : ℚ → ℚ} {inputs : ℕ → ReadInputs} {cfg : ModbusConfig} {p : Pbuf}

theorem registerBytes_succ (startAddress : BitVec 16) (n : ℕ) :
    registerBytes fl inputs cfg startAddress (n + 1) =
      registerBytes fl inputs cfg startAddress n ++
        [hiByte (readAddress fl (inputs n) cfg (startAddress + BitVec.ofNat 16 n)),
          loByte (readAddress fl (inputs n) cfg (startAddress + BitVec.ofNat 16 n))] := by
  simp [registerBytes, List.range_succ]

/-- The two bytes of iteration `i`. -/
theorem registerBytes_getD (startAddress : BitVec 16) {quantity i : ℕ} (h : i < quantity) :
    (registerBytes fl inputs cfg startAddress quantity).getD (2 * i) 0 =
      hiByte (readAddress fl (inputs i) cfg (startAddress + BitVec.ofNat 16 i)) ∧
    (registerBytes fl inputs cfg startAddress quantity).getD (2 * i + 1) 0 =
      loByte (readAddress fl (inputs i) cfg (startAddress + BitVec.ofNat 16 i)) := by
  induction quantity with
  | zero => omega
  | succ n ih =>
      rw [registerBytes_succ]
      have hlen := @length_registerBytes fl inputs cfg startAddress n
      rcases Nat.lt_succ_iff_lt_or_eq.mp h with hlt | rfl
      · rw [List.getD_append _ _ _ _ (by omega), List.getD_append _ _ _ _ (by omega)]
        exact ih hlt
      · rw [List.getD_append_right _ _ _ _ (by omega), List.getD_append_right _ _ _ _ (by omega),
          hlen, Nat.sub_self, Nat.add_sub_cancel_left]
        exact ⟨rfl, rfl⟩

/-- Nine bytes stand before the registers. -/
theorem readResponse_getD_add (startAddress quantity : BitVec 16) (k : ℕ) :
    (readResponse fl inputs cfg p startAddress quantity).getD (9 + k) 0 =
      (registerBytes fl inputs cfg startAddress quantity.toNat).getD k 0 := by
  rw [readResponse, List.getD_append_right _ _ _ _ (by simp)]
  simp

/-- A word of the answer is the register that its own iteration reads. -/
theorem readResponse_word (startAddress : BitVec 16) {quantity : BitVec 16} {i : ℕ}
    (h : i < quantity.toNat) :
    responseWord (readResponse fl inputs cfg p startAddress quantity) i =
      readAddress fl (inputs i) cfg (startAddress + BitVec.ofNat 16 i) := by
  obtain ⟨hhi, hlo⟩ := @registerBytes_getD fl inputs cfg startAddress quantity.toNat i h
  have hlow : 10 + 2 * i = 9 + (2 * i + 1) := by omega
  rw [responseWord, hlow, readResponse_getD_add, readResponse_getD_add, hhi, hlo,
    wordOf_hiByte_loByte]

/-- The header fields of the answer. -/
theorem readResponse_header (startAddress quantity : BitVec 16) :
    (readResponse fl inputs cfg p startAddress quantity).take 9 =
      [p.data 0, p.data 1, p.data 2, p.data 3,
        hiByte (3 + (BitVec.ofNat 8 (quantity.toNat * 2)).setWidth 16),
        loByte (3 + (BitVec.ofNat 8 (quantity.toNat * 2)).setWidth 16), p.data 6, p.data 7,
        BitVec.ofNat 8 (quantity.toNat * 2)] := by
  simp [readResponse, List.range_succ]

/-- A segment that is a read is answered with its registers. -/
theorem recv_read {startAddress quantity : BitVec 16}
    (h : p.IsRequest fcReadHoldingRegs startAddress quantity) (hpos : 0 < quantity)
    (hle : quantity ≤ 20) :
    (modbusRecvCb fl inputs cfg (some p) 0).cfg = cfg ∧
      (modbusRecvCb fl inputs cfg (some p) 0).frames =
        [readResponse fl inputs cfg p startAddress quantity] := by
  obtain ⟨hcfg, hframes⟩ := @recv_frame fl inputs cfg p h.header
  have hread := @handleFrame_read fl inputs cfg p h.code_eq (h.value_eq ▸ hpos)
    (h.value_eq ▸ hle)
  rw [h.address_eq, h.value_eq] at hread
  rw [hcfg, hframes, hread]
  exact ⟨rfl, rfl⟩

/-- A read of no register or of more than twenty has no effect. -/
theorem recv_read_refused {startAddress quantity : BitVec 16}
    (h : p.IsRequest fcReadHoldingRegs startAddress quantity)
    (hq : ¬ (0 < quantity ∧ quantity ≤ 20)) :
    (modbusRecvCb fl inputs cfg (some p) 0).cfg = cfg ∧
      (modbusRecvCb fl inputs cfg (some p) 0).frames = [] := by
  obtain ⟨hcfg, hframes⟩ := @recv_frame fl inputs cfg p h.header
  have hrefused : handleFrame fl inputs cfg p = (cfg, none) := by
    rw [← h.value_eq] at hq
    simp only [handleFrame, if_pos h.code_eq, if_neg hq]
  rw [hcfg, hframes, hrefused]
  exact ⟨rfl, rfl⟩

end

/-! ## Blocks and single registers -/

section

variable {fl : ℚ → ℚ} {inputs : ReadInputs} {cfg : ModbusConfig} {p : Pbuf}

/-- The value that a read of a single register is answered with. -/
def readBack (fl : ℚ → ℚ) (inputs : ReadInputs) (cfg : ModbusConfig) (p : Pbuf) : BitVec 16 :=
  responseWord ((modbusRecvCb fl (fun _ => inputs) cfg (some p) 0).frames.headD []) 0

theorem readBack_eq {address : BitVec 16} (h : p.IsRequest fcReadHoldingRegs address 1) :
    readBack fl inputs cfg p = readAddress fl inputs cfg address := by
  rw [readBack, (recv_read h (by decide) (by decide)).2, List.headD_cons,
    readResponse_word address (by decide)]
  simp

/-- The shape of the answer to a request for `quantity` registers. -/
structure WellFormedAnswer (p : Pbuf) (quantity : ℕ) (res : List Byte) : Prop where
  length_eq : res.length = 9 + 2 * quantity
  fits : res.length ≤ 64
  ids : res.take 4 = [p.data 0, p.data 1, p.data 2, p.data 3]
  /-- The length field counts the bytes behind it. -/
  mbapLength : (wordOf (res.getD 4 0) (res.getD 5 0)).toNat = res.length - 6
  unit : res.getD 6 0 = p.data 6
  code : res.getD 7 0 = p.data 7
  byteCount : (res.getD 8 0).toNat = 2 * quantity

theorem readResponse_wellFormed (startAddress : BitVec 16) {quantity : BitVec 16}
    (hle : quantity.toNat ≤ 20) (inputs : ℕ → ReadInputs) :
    WellFormedAnswer p quantity.toNat
      (readResponse fl inputs cfg p startAddress quantity) := by
  have hlength := @length_readResponse fl inputs cfg p startAddress quantity
  have hheader := @readResponse_header fl inputs cfg p startAddress quantity
  generalize readResponse fl inputs cfg p startAddress quantity = res at hlength hheader
  have hget : ∀ i < 9, res.getD i 0 = (res.take 9).getD i 0 := by
    intro i hi
    rw [List.getD_eq_getElem?_getD, List.getD_eq_getElem?_getD, List.getElem?_take_of_lt hi]
  have hcount : (BitVec.ofNat 8 (quantity.toNat * 2)).toNat = 2 * quantity.toNat := by
    rw [BitVec.toNat_ofNat]
    omega
  refine ⟨hlength, by omega, ?_, ?_, ?_, ?_, ?_⟩
  · have htake : res.take 4 = (res.take 9).take 4 := by rw [List.take_take]; rfl
    rw [htake, hheader]
    rfl
  · rw [hget 4 (by decide), hget 5 (by decide), hheader]
    show (wordOf (hiByte _) (loByte _)).toNat = _
    rw [wordOf_hiByte_loByte, BitVec.toNat_add, BitVec.toNat_setWidth, hcount, hlength]
    show (3 + 2 * quantity.toNat % 2 ^ 16) % 2 ^ 16 = _
    omega
  · rw [hget 6 (by decide), hheader]
    rfl
  · rw [hget 7 (by decide), hheader]
    rfl
  · rw [hget 8 (by decide), hheader]
    exact hcount

/-- A read of 1 to 20 registers is answered once, with a well-formed answer whose
words are what reads of the single registers return; any other quantity is not
answered; and the configuration stays as it is. -/
theorem block_read {startAddress quantity : BitVec 16}
    (h : p.IsRequest fcReadHoldingRegs startAddress quantity) :
    (modbusRecvCb fl (fun _ => inputs) cfg (some p) 0).cfg = cfg ∧
    (0 < quantity → quantity ≤ 20 →
      ∃ res, (modbusRecvCb fl (fun _ => inputs) cfg (some p) 0).frames = [res] ∧
        WellFormedAnswer p quantity.toNat res ∧
        ∀ i < quantity.toNat, ∀ single : Pbuf,
          single.IsRequest fcReadHoldingRegs (startAddress + BitVec.ofNat 16 i) 1 →
          responseWord res i = readBack fl inputs cfg single) ∧
    (quantity = 0 ∨ 20 < quantity →
      (modbusRecvCb fl (fun _ => inputs) cfg (some p) 0).frames = []) := by
  refine ⟨?_, fun hpos hle => ?_, fun hrefused => ?_⟩
  · by_cases hq : 0 < quantity ∧ quantity ≤ 20
    · exact (recv_read h hq.1 hq.2).1
    · exact (recv_read_refused h hq).1
  · refine ⟨_, (recv_read h hpos hle).2, readResponse_wellFormed startAddress hle _, ?_⟩
    intro i hi single hsingle
    rw [readResponse_word startAddress hi, readBack_eq hsingle]
  · apply (recv_read_refused h _).2
    rintro ⟨hpos, hle⟩
    rcases hrefused with rfl | hgt
    · exact absurd hpos (by decide)
    · exact absurd hle (BitVec.not_le.mpr hgt)

end

/-- A read of twenty registers across the end of the address space. -/
theorem block_read_wrapping :
    ∃ res, (modbusRecvCb id (fun _ => restInputs) initialConfig
        (some (requestSegment fcReadHoldingRegs 65530 20)) 0).frames = [res] ∧
      WellFormedAnswer (requestSegment fcReadHoldingRegs 65530 20) 20 res := by
  obtain ⟨_, hanswered, _⟩ := @block_read id restInputs initialConfig _ _ _
    (requestSegment_isRequest fcReadHoldingRegs 65530 20)
  obtain ⟨res, hframes, hshape, _⟩ := hanswered (by decide) (by decide)
  exact ⟨res, hframes, hshape⟩

end Modbus
end MDCMotorControl
