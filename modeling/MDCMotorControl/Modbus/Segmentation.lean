import MDCMotorControl.Library.PrefixCode
import MDCMotorControl.Modbus.Server

/-!
# Requests and segments

The handler takes a segment for a request.  A stream of complete requests is
served as such when each of them has a segment of its own.  A segment that
starts with a request and goes on is served as that one request.

Main results:

- Theorem `serve_leading`: every segment is executed and answered as the
  complete request at its start, once and in order.
- Theorem `serve_independent_iff`: a request stream, cut into segments that the
  handler reads within themselves, is served as its requests exactly when the
  segments are the requests.
-/

namespace MDCMotorControl
namespace Modbus

open Motor Settings BigEndian PrefixCode InformationTheory

/-! ## Complete requests -/

/-- A complete request of twelve bytes: a read of 1 to 20 registers or the write
of one register. -/
structure Request where
  bytes : List Byte
  length_bytes : bytes.length = 12
  complete :
    (bytes.getD 7 0 = fcReadHoldingRegs ∧ 0 < wordOf (bytes.getD 10 0) (bytes.getD 11 0) ∧
      wordOf (bytes.getD 10 0) (bytes.getD 11 0) ≤ 20) ∨ bytes.getD 7 0 = fcWriteSingleReg

namespace Request

theorem take_bytes (r : Request) : r.bytes.take 12 = r.bytes :=
  List.take_of_length_le (Nat.le_of_eq r.length_bytes)

/-- The byte at an offset. -/
def byte (r : Request) (i : ℕ) : Byte :=
  r.bytes.getD i 0

/-- The address field. -/
def address (r : Request) : BitVec 16 :=
  wordOf (r.byte 8) (r.byte 9)

/-- The value field of a write, the quantity of a read. -/
def value (r : Request) : BitVec 16 :=
  wordOf (r.byte 10) (r.byte 11)

variable (fl : ℚ → ℚ) (inputs : ReadInputs)

/-- The effect of a request on the configuration. -/
def execute (r : Request) (cfg : ModbusConfig) : ModbusConfig :=
  if r.byte 7 = fcWriteSingleReg then writeAddress fl cfg r.address r.value else cfg

/-- The answer to a request: the echo of a write, the registers of a read. -/
def answer (r : Request) (cfg : ModbusConfig) : List Byte :=
  if r.byte 7 = fcWriteSingleReg then r.bytes
  else
    let byteCount : Byte := BitVec.ofNat 8 (r.value.toNat * 2)
    let length : BitVec 16 := 3 + byteCount.setWidth 16
    [r.byte 0, r.byte 1, r.byte 2, r.byte 3, hiByte length, loByte length, r.byte 6,
      r.byte 7, byteCount] ++ registerBytes fl (fun _ => inputs) cfg r.address r.value.toNat

end Request

section

variable (fl : ℚ → ℚ) (inputs : ReadInputs)

/-- The service of a list of requests: each is executed once and answered once,
in order. -/
def transact : ModbusConfig → List Request → ModbusConfig × List (List Byte)
  | cfg, [] => (cfg, [])
  | cfg, r :: rs =>
      ((transact (r.execute fl cfg) rs).1,
        r.answer fl inputs cfg :: (transact (r.execute fl cfg) rs).2)

/-- Segments delivered to the handler one after the other. -/
def serve : ModbusConfig → List Pbuf → ModbusConfig × List (List Byte)
  | cfg, [] => (cfg, [])
  | cfg, p :: ps =>
      let r := modbusRecvCb fl (fun _ => inputs) cfg (some p) 0
      ((serve r.cfg ps).1, r.frames ++ (serve r.cfg ps).2)

variable {fl inputs} {cfg : ModbusConfig} {p : Pbuf} {r : Request}

/-! ## A segment that starts with a request -/

/-- The handler sees the request at the start of a segment. -/
theorem data_eq_byte (h : p.payload.take 12 = r.bytes) {i : ℕ} (hi : i < 12) :
    p.data i = r.byte i := by
  have hlen : i < p.payload.length := by
    have hlength := congrArg List.length h
    rw [List.length_take, r.length_bytes] at hlength
    omega
  rw [Request.byte, ← h, List.getD_eq_getElem?_getD, List.getElem?_take_of_lt hi,
    List.getElem?_eq_getElem hlen, Option.getD_some, Pbuf.data_of_lt hlen]

theorem le_length_of_leading (h : p.payload.take 12 = r.bytes) :
    mbapHeaderSize ≤ p.payload.length := by
  have hlength := congrArg List.length h
  rw [List.length_take, r.length_bytes] at hlength
  simp only [mbapHeaderSize]
  omega

/-- The echo of a segment that starts with a request is the request. -/
theorem map_data_eq_bytes (h : p.payload.take 12 = r.bytes) :
    (List.range 12).map p.data = r.bytes := by
  apply List.ext_getElem
  · rw [List.length_map, List.length_range, r.length_bytes]
  · intro i hi hi'
    have hi12 : i < 12 := by simpa using hi
    rw [List.getElem_map, List.getElem_range, data_eq_byte h hi12, Request.byte,
      List.getD_eq_getElem?_getD, List.getElem?_eq_getElem hi', Option.getD_some]

/-- The answer to a segment that starts with a read is the answer to the read. -/
theorem readResponse_eq_answer (h : p.payload.take 12 = r.bytes)
    (hread : r.byte 7 = fcReadHoldingRegs) :
    readResponse fl (fun _ => inputs) cfg p r.address r.value = r.answer fl inputs cfg := by
  have hne : r.byte 7 ≠ fcWriteSingleReg := by
    rw [hread]
    decide
  have hdata : ∀ i < 12, p.data i = r.byte i := fun _ hi => data_eq_byte h hi
  have hheader : (List.range 6).map p.data =
      [r.byte 0, r.byte 1, r.byte 2, r.byte 3, p.data 4, p.data 5] := by
    simp [List.range_succ, hdata]
  simp only [readResponse, Request.answer, if_neg hne, hheader, hdata 6 (by decide),
    hdata 7 (by decide)]
  rfl

/-- A segment that starts with a request is executed and answered as this one
request, whatever follows. -/
theorem recv_leading (h : p.payload.take 12 = r.bytes) :
    (modbusRecvCb fl (fun _ => inputs) cfg (some p) 0).cfg = r.execute fl cfg ∧
    (modbusRecvCb fl (fun _ => inputs) cfg (some p) 0).frames =
      [r.answer fl inputs cfg] := by
  have hdata : ∀ i < 12, p.data i = r.byte i := fun _ hi => data_eq_byte h hi
  have h7 : p.data 7 = r.byte 7 := hdata 7 (by decide)
  have haddress : wordOf (p.data 8) (p.data 9) = r.address :=
    congrArg₂ wordOf (hdata 8 (by decide)) (hdata 9 (by decide))
  have hvalue : wordOf (p.data 10) (p.data 11) = r.value :=
    congrArg₂ wordOf (hdata 10 (by decide)) (hdata 11 (by decide))
  rw [(recv_frame (le_length_of_leading h)).1, (recv_frame (le_length_of_leading h)).2]
  rcases r.complete with ⟨hread, hpos, hle⟩ | hwrite
  · have hread' : r.byte 7 = fcReadHoldingRegs := hread
    have hne : r.byte 7 ≠ fcWriteSingleReg := by
      rw [hread']
      decide
    rw [handleFrame_read (h7.trans hread) (by rw [hvalue]; exact hpos)
      (by rw [hvalue]; exact hle), haddress, hvalue, readResponse_eq_answer h hread']
    exact ⟨by simp only [Request.execute, if_neg hne], rfl⟩
  · have hwrite' : r.byte 7 = fcWriteSingleReg := hwrite
    rw [handleFrame_write (h7.trans hwrite), haddress, hvalue, map_data_eq_bytes h]
    exact ⟨by simp only [Request.execute, if_pos hwrite'],
      by simp only [Request.answer, if_pos hwrite', Option.toList_some]⟩

/-- Segments that start with the requests of a list are served as this list,
each request once and in order. -/
theorem serve_leading {ps : List Pbuf} {reqs : List Request}
    (h : ps.map (fun p => p.payload.take 12) = reqs.map Request.bytes) :
    serve fl inputs cfg ps = transact fl inputs cfg reqs := by
  induction ps generalizing cfg reqs with
  | nil =>
      have hreqs : reqs = [] := by simpa using h.symm
      rw [hreqs]
      rfl
  | cons p ps ih =>
      cases reqs with
      | nil => simp at h
      | cons r rs =>
          simp only [List.map_cons, List.cons.injEq] at h
          obtain ⟨hcfg, hframes⟩ := @recv_leading fl inputs cfg p r h.1
          simp only [serve, transact, hcfg, hframes, ih h.2, List.singleton_append]

/-! ## The frames of an arbitrary segment -/

/-- The shape of an answer: the function code and the byte count tell its
length. -/
def IsAnswer (f : List Byte) : Prop :=
  9 ≤ f.length ∧
    f.length = if f.getD 7 0 = fcReadHoldingRegs then 9 + (f.getD 8 0).toNat else 12

/-- Answers are self-delimiting. -/
theorem selfDelimiting_isAnswer : SelfDelimiting {f : List Byte | IsAnswer f} := by
  apply selfDelimiting_of_lengthOf 9 fun w =>
    if w.getD 7 0 = fcReadHoldingRegs then 9 + (w.getD 8 0).toNat else 12
  rintro f ⟨hlen, hlength⟩
  refine ⟨hlen, ?_⟩
  simpa [List.getD_eq_getElem?_getD, List.getElem?_take] using hlength

/-- The frame the handler answers with, by cases on the request it sees. -/
theorem recv_frames_cases {f : List Byte}
    (hf : f ∈ (modbusRecvCb fl (fun _ => inputs) cfg (some p) 0).frames) :
    (modbusRecvCb fl (fun _ => inputs) cfg (some p) 0).frames = [f] ∧
    ((p.data 7 = fcReadHoldingRegs ∧ 0 < wordOf (p.data 10) (p.data 11) ∧
        wordOf (p.data 10) (p.data 11) ≤ 20 ∧
        f = readResponse fl (fun _ => inputs) cfg p (wordOf (p.data 8) (p.data 9))
          (wordOf (p.data 10) (p.data 11))) ∨
      (p.data 7 = fcWriteSingleReg ∧ f = (List.range 12).map p.data)) := by
  by_cases hlen : mbapHeaderSize ≤ p.payload.length
  · rw [(recv_frame hlen).2] at hf ⊢
    by_cases hread : p.data 7 = fcReadHoldingRegs
    · by_cases hq : 0 < wordOf (p.data 10) (p.data 11) ∧ wordOf (p.data 10) (p.data 11) ≤ 20
      · rw [handleFrame_read hread hq.1 hq.2] at hf ⊢
        have hfr := List.mem_singleton.mp hf
        exact ⟨by rw [hfr]; rfl, .inl ⟨hread, hq.1, hq.2, hfr⟩⟩
      · simp only [handleFrame, if_pos hread, if_neg hq, Option.toList_none,
          List.not_mem_nil] at hf
    · by_cases hwrite : p.data 7 = fcWriteSingleReg
      · rw [handleFrame_write hwrite] at hf ⊢
        have hfw := List.mem_singleton.mp hf
        exact ⟨by rw [hfw]; rfl, .inr ⟨hwrite, hfw⟩⟩
      · simp [handleFrame, hread, hwrite] at hf
  · rw [(recv_short hlen).2] at hf
    simp at hf

/-- Whatever the handler sends is an answer. -/
theorem recv_frames_isAnswer {f : List Byte}
    (hf : f ∈ (modbusRecvCb fl (fun _ => inputs) cfg (some p) 0).frames) : IsAnswer f := by
  obtain ⟨_, ⟨hread, _, hle, rfl⟩ | ⟨hwrite, rfl⟩⟩ := recv_frames_cases hf
  · have hq : (wordOf (p.data 10) (p.data 11)).toNat ≤ 20 := hle
    have h7 : (readResponse fl (fun _ => inputs) cfg p (wordOf (p.data 8) (p.data 9))
        (wordOf (p.data 10) (p.data 11))).getD 7 0 = p.data 7 := by
      simp [readResponse, List.getD_eq_getElem?_getD, List.range_succ]
    have h8 : (readResponse fl (fun _ => inputs) cfg p (wordOf (p.data 8) (p.data 9))
        (wordOf (p.data 10) (p.data 11))).getD 8 0 =
          BitVec.ofNat 8 ((wordOf (p.data 10) (p.data 11)).toNat * 2) := by
      simp [readResponse, List.getD_eq_getElem?_getD, List.range_succ]
    rw [IsAnswer, h7, h8, if_pos hread, length_readResponse, BitVec.toNat_ofNat]
    omega
  · have h7 : ((List.range 12).map p.data).getD 7 0 = p.data 7 := by
      simp [List.getD_eq_getElem?_getD, List.range_succ]
    have hne : p.data 7 ≠ fcReadHoldingRegs := by
      rw [hwrite]
      decide
    rw [IsAnswer, h7, if_neg hne]
    simp

theorem serve_isAnswer {ps : List Pbuf} {f : List Byte}
    (hf : f ∈ (serve fl inputs cfg ps).2) : IsAnswer f := by
  induction ps generalizing cfg with
  | nil => simp [serve] at hf
  | cons p ps ih =>
      rcases List.mem_append.mp hf with hhead | htail
      · exact recv_frames_isAnswer hhead
      · exact ih htail

/-- Services with the same response stream send the same answers. -/
theorem serve_frames_eq {ps ps' : List Pbuf} {cfg' : ModbusConfig}
    (h : (serve fl inputs cfg ps).2.flatten = (serve fl inputs cfg' ps').2.flatten) :
    (serve fl inputs cfg ps).2 = (serve fl inputs cfg' ps').2 := by
  have hempty : [] ∉ {f : List Byte | IsAnswer f} := by
    rintro ⟨hlen, _⟩
    simp at hlen
  exact selfDelimiting_isAnswer.uniquelyDecodable hempty _ _
    (fun _ hf => serve_isAnswer hf) (fun _ hf => serve_isAnswer hf) h

/-! ## Segments that are read within themselves -/

/-- The handler reads nothing behind the segment: too short for a header, it is
skipped; with twelve bytes it holds every byte the handler looks at. -/
def ReadWithin (s : List Byte) : Prop :=
  s.length < mbapHeaderSize ∨ 12 ≤ s.length

instance : DecidablePred ReadWithin :=
  fun s => inferInstanceAs (Decidable (s.length < mbapHeaderSize ∨ 12 ≤ s.length))

/-- A segment is answered at most once. -/
theorem recv_frames_length_le_one (p : Pbuf) :
    (modbusRecvCb fl (fun _ => inputs) cfg (some p) 0).frames.length ≤ 1 := by
  rcases hframes : (modbusRecvCb fl (fun _ => inputs) cfg (some p) 0).frames with _ | ⟨f, fs⟩
  · exact Nat.zero_le 1
  · have hmem : f ∈ (modbusRecvCb fl (fun _ => inputs) cfg (some p) 0).frames := by
      rw [hframes]
      exact List.mem_cons_self
    have hone := (recv_frames_cases hmem).1
    rw [hframes] at hone
    rw [hone, List.length_singleton]

/-- Segments that are read within themselves hold twelve bytes for each answer,
and nothing else only when each of them holds exactly twelve. -/
theorem twelve_bytes_each {ps : List Pbuf} (hne : ∀ p ∈ ps, p.payload ≠ [])
    (hwithin : ∀ p ∈ ps, ReadWithin p.payload) :
    12 * (serve fl inputs cfg ps).2.length ≤ (ps.map Pbuf.payload).flatten.length ∧
    ((ps.map Pbuf.payload).flatten.length = 12 * (serve fl inputs cfg ps).2.length →
      ∀ p ∈ ps, p.payload.length = 12) := by
  induction ps generalizing cfg with
  | nil => simp [serve]
  | cons p ps ih =>
      have hp : 0 < p.payload.length := List.length_pos_iff.mpr (hne p List.mem_cons_self)
      obtain ⟨hle, hall⟩ := @ih (modbusRecvCb fl (fun _ => inputs) cfg (some p) 0).cfg
        (fun q hq => hne q (List.mem_cons_of_mem p hq))
        (fun q hq => hwithin q (List.mem_cons_of_mem p hq))
      simp only [List.map_cons, List.flatten_cons, List.length_append, serve]
      rcases hwithin p List.mem_cons_self with hshort | hlong
      · -- a short segment has bytes and no answer
        have hsilent := (@recv_short fl (fun _ => inputs) cfg p (Nat.not_le.mpr hshort)).2
        rw [hsilent, List.length_nil]
        exact ⟨by omega, fun htotal => by omega⟩
      · have hone := @recv_frames_length_le_one fl inputs cfg p
        refine ⟨by omega, fun htotal q hq => ?_⟩
        rcases List.mem_cons.mp hq with rfl | hq
        · omega
        · exact hall (by omega) q hq

theorem length_transact (reqs : List Request) :
    (transact fl inputs cfg reqs).2.length = reqs.length := by
  induction reqs generalizing cfg with
  | nil => rfl
  | cons r rs ih => simp only [transact, List.length_cons, ih]

theorem length_flatten_bytes (reqs : List Request) :
    (reqs.map Request.bytes).flatten.length = 12 * reqs.length := by
  induction reqs with
  | nil => rfl
  | cons r rs ih =>
      simp only [List.map_cons, List.flatten_cons, List.length_append, Request.length_bytes, ih,
        List.length_cons]
      omega

/-- Texts cut into words of twelve bytes are cut alike. -/
theorem cut_eq_of_twelve {cut cut' : List (List Byte)} (h : ∀ s ∈ cut, s.length = 12)
    (h' : ∀ s ∈ cut', s.length = 12) (hflat : cut.flatten = cut'.flatten) : cut = cut' := by
  have hself : SelfDelimiting {w : List Byte | w.length = 12} :=
    selfDelimiting_of_lengthOf 12 (fun _ => 12) fun w hw => ⟨Nat.le_of_eq hw.symm, hw⟩
  exact hself.uniquelyDecodable (by simp) cut cut' h h' hflat

/-- A segment with the same byte everywhere behind it. -/
def filled (b : Byte) (s : List Byte) : Pbuf where
  payload := s
  beyond := fun _ => b
  totLen := s.length

/-! ## Main result -/

/-- Cut a stream of complete requests into nonempty segments that are read within
themselves.  Whatever lies behind them, they are served as the requests, each one
once and in order, exactly when every request has a segment of its own. -/
theorem serve_independent_iff (reqs : List Request) (cut : List (List Byte))
    (hne : ∀ s ∈ cut, s ≠ []) (hwithin : ∀ s ∈ cut, ReadWithin s)
    (hcut : cut.flatten = (reqs.map Request.bytes).flatten) (ps : List Pbuf)
    (hps : ps.map Pbuf.payload = cut) :
    ((serve fl inputs cfg ps).1 = (transact fl inputs cfg reqs).1 ∧
      (serve fl inputs cfg ps).2.flatten = (transact fl inputs cfg reqs).2.flatten) ↔
    cut = reqs.map Request.bytes := by
  subst hps
  constructor
  · rintro ⟨_, hflat⟩
    have hown : serve fl inputs cfg (reqs.map fun r => filled 0 r.bytes) =
        transact fl inputs cfg reqs := by
      apply serve_leading
      rw [List.map_map]
      exact List.map_congr_left fun r _ => r.take_bytes
    have hanswers : (serve fl inputs cfg ps).2 = (transact fl inputs cfg reqs).2 := by
      rw [← hown] at hflat ⊢
      exact serve_frames_eq hflat
    obtain ⟨_, htwelve⟩ := @twelve_bytes_each fl inputs cfg ps
      (fun p hp => hne p.payload (List.mem_map_of_mem hp))
      (fun p hp => hwithin p.payload (List.mem_map_of_mem hp))
    rw [hanswers, length_transact, hcut, length_flatten_bytes] at htwelve
    refine cut_eq_of_twelve ?_ ?_ hcut
    · intro s hs
      obtain ⟨p, hp, rfl⟩ := List.mem_map.mp hs
      exact htwelve rfl p hp
    · intro s hs
      obtain ⟨r, _, rfl⟩ := List.mem_map.mp hs
      exact r.length_bytes
  · intro hown
    have hlead : ps.map (fun p => p.payload.take 12) = reqs.map Request.bytes := by
      have htake := congrArg (List.map (List.take 12)) hown
      rw [List.map_map, List.map_map] at htake
      exact htake.trans (List.map_congr_left fun r _ => r.take_bytes)
    rw [serve_leading hlead]
    exact ⟨rfl, rfl⟩

end

/-! ## Two commands in one segment -/

/-- The write of a value to a register, as a master sends it. -/
def writeRequest (r : Register) (v : BitVec 16) : Request where
  bytes := [0, 1, 0, 0, 0, 6, 1, fcWriteSingleReg, hiByte r.address, loByte r.address,
    hiByte v, loByte v]
  length_bytes := rfl
  complete := .inr rfl

/-- A start and a stop command are served as such in segments of their own, and not
in one segment. -/
theorem serve_independent_iff_startStop :
    let start := writeRequest .motorCtrl 1
    let stop := writeRequest .motorCtrl 0
    ((serve id restInputs initialConfig [filled 3 start.bytes, filled 3 stop.bytes]).1 =
        (transact id restInputs initialConfig [start, stop]).1 ∧
      (serve id restInputs initialConfig [filled 3 start.bytes, filled 3 stop.bytes]).2.flatten =
        (transact id restInputs initialConfig [start, stop]).2.flatten) ∧
    ¬ ((serve id restInputs initialConfig [filled 3 (start.bytes ++ stop.bytes)]).1 =
        (transact id restInputs initialConfig [start, stop]).1 ∧
      (serve id restInputs initialConfig [filled 3 (start.bytes ++ stop.bytes)]).2.flatten =
        (transact id restInputs initialConfig [start, stop]).2.flatten) :=
  ⟨(serve_independent_iff [writeRequest .motorCtrl 1, writeRequest .motorCtrl 0] _
      (by decide) (by decide) rfl [filled 3 (writeRequest .motorCtrl 1).bytes,
        filled 3 (writeRequest .motorCtrl 0).bytes] rfl).mpr rfl,
    mt (serve_independent_iff [writeRequest .motorCtrl 1, writeRequest .motorCtrl 0]
      [(writeRequest .motorCtrl 1).bytes ++ (writeRequest .motorCtrl 0).bytes]
      (by decide) (by decide) rfl [filled 3 ((writeRequest .motorCtrl 1).bytes ++
        (writeRequest .motorCtrl 0).bytes)] rfl).mp (by decide)⟩

/-- A start and a stop command in one segment are not served as the same bytes
in two segments: the stop command is neither executed nor answered. -/
theorem stop_lost_in_segment :
    let start := (writeRequest .motorCtrl 1).bytes
    let stop := (writeRequest .motorCtrl 0).bytes
    let apart := serve id restInputs initialConfig [filled 0 start, filled 0 stop]
    let together := serve id restInputs initialConfig [filled 0 (start ++ stop)]
    apart.1.pendingMotorStop = true ∧ together.1.pendingMotorStop = false ∧
      apart.2.flatten = start ++ stop ∧ together.2.flatten = start := by
  decide +kernel

end Modbus
end MDCMotorControl
