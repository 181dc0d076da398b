import MDCMotorControl.Motor.Kinematics
import MDCMotorControl.Telemetry.Packets

/-!
# The host decoder

The loop of `com_test.py`, which takes stream packets from the serial line.  A
byte `0x55` starts a packet wherever it stands, and the three bytes after it are
consumed even when their checksum is wrong.

The packets of the line carry neither type nor length, and a response is one
byte longer than a stream packet.  The decoder finds its way back after a
response unless the response reads as a stream packet or ends in `0x55`.

Main results:

- Theorem `decoded_iff`: the decoder outputs the stream packets of the line, and
  nothing else, exactly when the line is unambiguous.
-/

namespace MDCMotorControl
namespace Telemetry

open BigEndian

/-! ## The receive loop -/

/-- What one pass of the loop finds: a byte to skip, the end of the input inside
a packet, a wrong checksum, or a position, with the place of its first byte. -/
inductive LoopPass where
  | skipped
  | incomplete
  | crcError
  | packet (place : ℕ) (position : BitVec 16)
deriving DecidableEq

/-- The passes of the loop over the bytes from a place on. -/
def loopPasses (place : ℕ) : List Byte → List LoopPass
  | [] => []
  | b :: rest =>
      if b = syncByte then
        match rest with
        | hi :: lo :: crc :: rest' =>
            (if crc8Atm [hi, lo] = crc then .packet place (wordOf hi lo) else .crcError) ::
              loopPasses (place + 4) rest'
        | _ => [.incomplete]
      else .skipped :: loopPasses (place + 1) rest

/-- The tracking variables of the loop. -/
structure Tracking where
  lastPos : Option (BitVec 16)
  packetsReceived : ℕ
  errorsCrc : ℕ
  errorsSkipped : ℕ
deriving DecidableEq

/-- `MAX_POS`. -/
def maxPos : Int := 14399

/-- A position follows another one by a single step or a rollover. -/
def isValidStep (lastPos currentPos : BitVec 16) : Bool :=
  let diff := (currentPos.toNat : Int) - lastPos.toNat
  diff.natAbs = 1 || (diff.natAbs : Int) = maxPos

/-- What one pass does to the tracking variables. -/
def Tracking.update (s : Tracking) : LoopPass → Tracking
  | .skipped => s
  | .incomplete => s
  | .crcError => { s with errorsCrc := s.errorsCrc + 1 }
  | .packet _ currentPos =>
      let skip : Bool := s.lastPos.any fun lastPos =>
        !isValidStep lastPos currentPos && currentPos != lastPos
      { s with
        packetsReceived := s.packetsReceived + 1
        errorsSkipped := if skip then s.errorsSkipped + 1 else s.errorsSkipped
        lastPos := some currentPos }

/-- The tracking variables after the loop has run over some bytes. -/
def tracking (bytes : List Byte) : Tracking :=
  (loopPasses 0 bytes).foldl Tracking.update ⟨none, 0, 0, 0⟩

/-- The output of one pass. -/
def LoopPass.output : LoopPass → Option (ℕ × BitVec 16)
  | packet place position => some (place, position)
  | _ => none

/-- The positions that the loop decodes, each with the place of its packet. -/
def decoded (place : ℕ) (bytes : List Byte) : List (ℕ × BitVec 16) :=
  (loopPasses place bytes).filterMap LoopPass.output

section

variable {place : ℕ} {b hi lo crc : Byte} {rest : List Byte}

/-- A byte that is not the sync byte is skipped. -/
theorem decoded_skip (h : b ≠ syncByte) :
    decoded place (b :: rest) = decoded (place + 1) rest := by
  rw [decoded, loopPasses.eq_def]
  simp [h, decoded, LoopPass.output, List.filterMap_cons]

/-- A sync byte and three bytes with the right checksum are a packet. -/
theorem decoded_packet (h : crc8Atm [hi, lo] = crc) :
    decoded place (syncByte :: hi :: lo :: crc :: rest) =
      (place, wordOf hi lo) :: decoded (place + 4) rest := by
  simp only [decoded, loopPasses, if_pos h]
  rfl

/-- A sync byte and three bytes with a wrong checksum are consumed. -/
theorem decoded_crcError (h : crc8Atm [hi, lo] ≠ crc) :
    decoded place (syncByte :: hi :: lo :: crc :: rest) = decoded (place + 4) rest := by
  simp only [decoded, loopPasses, if_neg h]
  rfl

end

/-- Outputs come from the bytes that are read. -/
theorem le_of_mem_decoded {place : ℕ} {bytes : List Byte} {out : ℕ × BitVec 16}
    (h : out ∈ decoded place bytes) : place ≤ out.1 := by
  unfold decoded at h
  fun_induction loopPasses place bytes with
  | case1 => simp at h
  | case2 place hi lo crc rest' ih =>
      rcases List.mem_filterMap.mp h with ⟨pass, hpass, hout⟩
      rcases List.mem_cons.mp hpass with rfl | htail
      · split at hout
        · have heq : (place, wordOf hi lo) = out := by simpa [LoopPass.output] using hout
          exact Nat.le_of_eq (congrArg Prod.fst heq)
        · simp [LoopPass.output] at hout
      · have hle := ih (List.mem_filterMap.mpr ⟨pass, htail, hout⟩)
        omega
  | case3 => simp [LoopPass.output, List.filterMap_cons] at h
  | case4 place b rest hb ih =>
      have hle := ih (by simpa [LoopPass.output, List.filterMap_cons] using h)
      omega

/-! ## Both packets on one line -/

/-- A packet on the line. -/
inductive LinePacket where
  | stream (position : BitVec 16)
  | response (position : BitVec 16) (motorState : Motor.MotorState)
deriving DecidableEq

/-- The bytes of a packet. -/
def LinePacket.bytes : LinePacket → List Byte
  | stream position => (FastStreamPacket.pack position).bytes
  | response position motorState =>
      (ResponsePacket.pack position (motorState.code.setWidth 8)).bytes

/-- The bytes of packets sent back to back. -/
def lineBytes (packets : List LinePacket) : List Byte :=
  packets.flatMap LinePacket.bytes

/-- The positions of the stream packets of the line, each with the place of its
packet. -/
def streamed (place : ℕ) : List LinePacket → List (ℕ × BitVec 16)
  | [] => []
  | .stream position :: packets => (place, position) :: streamed (place + 4) packets
  | .response _ _ :: packets => streamed (place + 5) packets

/-- The checksum of a response, its last byte. -/
def responseCrc (position : BitVec 16) (motorState : Motor.MotorState) : Byte :=
  crc8Atm [hiByte position, loByte position, motorState.code.setWidth 8]

/-- No packet is mistaken.  The flag says that a response before ends in the sync
byte, which the decoder takes for the start of a packet: then no stream packet
may follow, and in a response it is the sync byte and the high byte whose
checksum must differ from the byte after them.  Otherwise the checksum of the
position must differ from the motor state, or a response reads as a stream
packet. -/
def Unambiguous : Bool → List LinePacket → Prop
  | _, [] => True
  | afterSync, .stream _ :: packets => afterSync = false ∧ Unambiguous false packets
  | afterSync, .response position motorState :: packets =>
      (if afterSync then crc8Atm [syncByte, hiByte position] ≠ loByte position
        else crc8Atm [hiByte position, loByte position] ≠ motorState.code.setWidth 8) ∧
      Unambiguous (responseCrc position motorState = syncByte) packets

/-- What the decoder has still to read before some packets: a sync byte left over
from a response, or nothing. -/
def leftOver (afterSync : Bool) : List Byte :=
  if afterSync then [syncByte] else []

theorem le_of_mem_streamed {place : ℕ} {packets : List LinePacket} {out : ℕ × BitVec 16}
    (h : out ∈ streamed place packets) : place ≤ out.1 := by
  induction packets generalizing place with
  | nil => simp [streamed] at h
  | cons packet packets ih =>
      cases packet with
      | stream position =>
          rcases List.mem_cons.mp h with rfl | htail
          · exact Nat.le_refl _
          · have hle := ih htail
            omega
      | response position motorState =>
          have hle := ih h
          omega

/-- An output before all packets of the line is none of them. -/
theorem invented {place place' : ℕ} {hi lo crc : Byte} {rest : List Byte}
    {packets : List LinePacket} (h : crc8Atm [hi, lo] = crc) (hplace : place < place') :
    decoded place (syncByte :: hi :: lo :: crc :: rest) ≠ streamed place' packets := by
  intro heq
  have hmem : (place, wordOf hi lo) ∈ streamed place' packets := by
    rw [← heq, decoded_packet h]
    exact List.mem_cons_self
  have hle := le_of_mem_streamed hmem
  omega

/-- A stream packet that begins inside the bytes of another read is not output. -/
theorem lost {place place' : ℕ} {hi lo crc : Byte} {rest : List Byte} {position : BitVec 16}
    {packets : List LinePacket} (hplace : place < place') (hinside : place' < place + 4) :
    decoded place (syncByte :: hi :: lo :: crc :: rest) ≠
      streamed place' (.stream position :: packets) := by
  by_cases h : crc8Atm [hi, lo] = crc
  · exact invented h hplace
  · intro heq
    have hmem : (place', position) ∈ decoded (place + 4) rest := by
      rw [← decoded_crcError h, heq]
      exact List.mem_cons_self
    have hle := le_of_mem_decoded hmem
    omega

theorem code_ne_syncByte (motorState : Motor.MotorState) :
    motorState.code.setWidth 8 ≠ syncByte := by
  cases motorState <;> decide

theorem lineBytes_stream (position : BitVec 16) (packets : List LinePacket) :
    lineBytes (.stream position :: packets) =
      syncByte :: hiByte position :: loByte position ::
        crc8Atm [hiByte position, loByte position] :: lineBytes packets := by
  simp [lineBytes, LinePacket.bytes, FastStreamPacket.bytes_pack]

theorem lineBytes_response (position : BitVec 16) (motorState : Motor.MotorState)
    (packets : List LinePacket) :
    lineBytes (.response position motorState :: packets) =
      syncByte :: hiByte position :: loByte position :: motorState.code.setWidth 8 ::
        responseCrc position motorState :: lineBytes packets := by
  simp [lineBytes, LinePacket.bytes, ResponsePacket.bytes_pack, responseCrc]

/-! ## Main result -/

/-- From the last byte of a response on: it is left over when it is the sync
byte, and skipped otherwise. -/
theorem decoded_lastByte {packets : List LinePacket}
    (h : ∀ afterSync place, decoded place (leftOver afterSync ++ lineBytes packets) =
      streamed (place + (leftOver afterSync).length) packets ↔ Unambiguous afterSync packets)
    (place : ℕ) (crc : Byte) :
    decoded place (crc :: lineBytes packets) = streamed (place + 1) packets ↔
      Unambiguous (crc = syncByte) packets := by
  by_cases hcrc : crc = syncByte
  · have hleft := h true place
    rw [hcrc, decide_eq_true rfl]
    exact hleft
  · have hleft := h false (place + 1)
    rw [decoded_skip hcrc, decide_eq_false hcrc]
    exact hleft

/-- The decoder on a line, with or without a sync byte left over before it. -/
theorem decoded_leftOver_iff (afterSync : Bool) (place : ℕ) (packets : List LinePacket) :
    decoded place (leftOver afterSync ++ lineBytes packets) =
      streamed (place + (leftOver afterSync).length) packets ↔
    Unambiguous afterSync packets := by
  induction packets generalizing afterSync place with
  | nil => cases afterSync <;> simp [leftOver, lineBytes, decoded, loopPasses, streamed,
      Unambiguous, LoopPass.output, List.filterMap_cons]
  | cons packet packets ih =>
      cases packet with
      | stream position =>
          rw [lineBytes_stream]
          cases afterSync with
          | false =>
              have hnext := ih false (place + 4)
              simp only [leftOver, Bool.false_eq_true, if_false, List.nil_append,
                List.length_nil, Nat.add_zero] at hnext ⊢
              rw [decoded_packet rfl, streamed, wordOf_hiByte_loByte, List.cons_inj_right,
                Unambiguous, hnext, eq_self_iff_true, true_and]
          | true =>
              -- the packet is read from the byte before it
              simp only [leftOver, if_true, List.singleton_append, List.length_singleton,
                Unambiguous, Bool.true_eq_false, false_and, iff_false]
              exact lost (by omega) (by omega)
      | response position motorState =>
          rw [lineBytes_response]
          cases afterSync with
          | false =>
              simp only [leftOver, Bool.false_eq_true, if_false, List.nil_append,
                List.length_nil, Nat.add_zero, streamed, Unambiguous]
              by_cases hcrc : crc8Atm [hiByte position, loByte position] =
                  motorState.code.setWidth 8
              · exact iff_of_false (invented hcrc (by omega)) fun h => h.1 hcrc
              · rw [decoded_crcError hcrc, and_iff_right hcrc]
                exact decoded_lastByte ih (place + 4) _
          | true =>
              simp only [leftOver, if_true, List.singleton_append, List.length_singleton,
                streamed, Unambiguous]
              by_cases hcrc : crc8Atm [syncByte, hiByte position] = loByte position
              · exact iff_of_false (invented hcrc (by omega)) fun h => h.1 hcrc
              · rw [decoded_crcError hcrc, decoded_skip (code_ne_syncByte motorState),
                  and_iff_right hcrc]
                exact decoded_lastByte ih (place + 5) _

/-- The decoder started at the first byte of a line outputs the positions of the
stream packets, in order and each from its own packet, exactly when the line is
unambiguous. -/
theorem decoded_iff (packets : List LinePacket) :
    decoded 0 (lineBytes packets) = streamed 0 packets ↔ Unambiguous false packets :=
  decoded_leftOver_iff false 0 packets

/-- A response at position 0 is decoded as a stream packet, and a response at
position 245, which ends in the sync byte, hides the stream packet after it. -/
theorem line_misread :
    (decoded 0 (lineBytes [.response 0 .stopped])).map Prod.snd = [0] ∧
      (streamed 0 [.response 0 .stopped]).map Prod.snd = [] ∧
      (decoded 0 (lineBytes [.response 245 .stopped, .stream 5])).map Prod.snd = [] ∧
      (streamed 0 [.response 245 .stopped, .stream 5]).map Prod.snd = [5] := by
  decide +kernel

end Telemetry
end MDCMotorControl
