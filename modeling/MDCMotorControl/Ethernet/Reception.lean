import MDCMotorControl.Ethernet.ReceivePool
import Mathlib.Data.List.Induction

/-!
# Reception over whole runs

`ethernetif_input` asks the driver for packets until there are none, unless the last
allocation found the pool empty, and hands each packet to lwIP.  The driver, which
allocates buffers and links the filled ones through the callbacks, and lwIP, which takes,
passes on and drops references, are not fixed here: a run is any order of their calls
that keeps to what they were given.

The functions of lwIP are those that move references: `pbuf_ref`, `pbuf_free`, `pbuf_cat`,
and the end of `pbuf_realloc`, at any buffer of a chain.

Main results:

- Theorem `receive_buffers_accounted`: in every run each buffer is free or counts exactly
  the references to it, none leaks, and reception resumes when lwIP has let go.
- Theorem `delivered_packet`: each packet handed to lwIP is the chain of the buffers linked
  for it, in order, with the right lengths.
-/

namespace MDCMotorControl
namespace Ethernet

open LinkedCells

/-- The buffers along a chain. -/
def RxPool.chain (s : RxPool) : ℕ → Option RxBuff → List RxBuff
  | n + 1, some b => b :: s.chain n (s.next b)
  | _, _ => []

theorem RxPool.chain_eq {s : RxPool} {n : ℕ} {a : Option RxBuff} {xs : List RxBuff}
    (h : Linked s.next a xs) (hn : xs.length ≤ n) : s.chain n a = xs := by
  induction xs generalizing a n with
  | nil =>
      obtain rfl := linked_nil.mp h
      cases n <;> rfl
  | cons b xs ih =>
      obtain ⟨rfl, hxs⟩ := linked_cons.mp h
      obtain ⟨n, rfl⟩ := Nat.exists_eq_succ_of_ne_zero (Nat.ne_zero_of_lt hn)
      rw [chain, ih hxs (Nat.le_of_succ_le_succ hn)]

/-! ## Runs -/

/-- Where `ethernetif_input` is: not running, in `HAL_ETH_ReadData`, or in
`netif->input` with a packet. -/
inductive Place where
  | idle
  | reading
  | delivering (p : RxBuff)
deriving DecidableEq

/-- The pool with those who refer to its buffers: the driver, to the ones it was given and
to the packet under construction (`RxDescList.pRxStart`, `pRxEnd`), and lwIP. -/
structure Reception where
  pool : RxPool
  place : Place
  dma : List RxBuff
  pStart : Option RxBuff
  pEnd : Option RxBuff
  stack : RxBuff → ℕ

inductive RxEvent where
  /-- The main loop calls `ethernetif_input`. -/
  | poll
  /-- The driver calls `HAL_ETH_RxAllocateCallback`. -/
  | allocate
  /-- The driver calls `HAL_ETH_RxLinkCallback`. -/
  | link (buff : RxBuff) (length : BitVec 16)
  /-- `HAL_ETH_ReadData` returns the packet. -/
  | packet
  /-- `HAL_ETH_ReadData` returns no packet. -/
  | noPacket
  /-- `netif->input` returns `ERR_OK`. -/
  | accepted
  /-- `netif->input` returns an error. -/
  | refused
  /-- lwIP calls `pbuf_ref`, `pbuf_free`, `pbuf_cat`, `pbuf_realloc`. -/
  | ref (b : RxBuff)
  | free (b : RxBuff)
  | cat (h t : RxBuff)
  | realloc (q : RxBuff) (remLen : BitVec 16)

namespace Reception

/-- The references to a buffer that are not in another buffer. -/
def held (r : Reception) (b : RxBuff) : ℕ :=
  r.dma.count b + (if r.pStart = some b then 1 else 0) + r.stack b

/-- A buffer that lwIP can get at through the references that it has. -/
def Reaches (r : Reception) (b : RxBuff) : Prop :=
  ∃ a, 0 < r.stack a ∧ b ∈ r.pool.chain ethRxBufferCnt (some a)

instance (r : Reception) (b : RxBuff) : Decidable (r.Reaches b) :=
  inferInstanceAs (Decidable (∃ a, 0 < r.stack a ∧ b ∈ r.pool.chain ethRxBufferCnt (some a)))

def initial : Reception :=
  ⟨RxPool.mempInitPool, .idle, [], none, none, fun _ => 0⟩

/-- `low_level_input` as far as the call of `HAL_ETH_ReadData`; without it the loop of
`ethernetif_input` ends. -/
def lowLevelInput (r : Reception) : Reception :=
  { r with place := if r.pool.rxAllocStatus = .ok then .reading else .idle }

/-- lwIP drops a reference. -/
def release (b : RxBuff) (r : Reception) : Reception :=
  { r with
    pool := r.pool.pbufFree (some b)
    stack := Function.update r.stack b (r.stack b - 1) }

/-- One call, where the caller may make it. -/
def step (r : Reception) : RxEvent → Option Reception
  | .poll => if r.place = .idle then some r.lowLevelInput else none
  | .allocate =>
      match r.place with
      | .delivering _ => none
      | _ =>
          let (buff, pool) := r.pool.halEthRxAllocateCallback
          some { r with pool := pool, dma := buff.toList ++ r.dma }
  | .link buff length =>
      if r.place = .reading ∧ buff ∈ r.dma then
        let (pStart, pEnd, pool) :=
          r.pool.halEthRxLinkCallback r.pStart r.pEnd buff length
        some { r with
          pool := pool, dma := r.dma.erase buff, pStart := pStart, pEnd := pEnd }
      else none
  | .packet =>
      match r.place, r.pStart with
      | .reading, some p =>
          some { r with
            place := .delivering p
            pStart := none
            stack := Function.update r.stack p (r.stack p + 1) }
      | _, _ => none
  | .noPacket => if r.place = .reading then some { r with place := .idle } else none
  | .accepted =>
      match r.place with
      | .delivering _ => some r.lowLevelInput
      | _ => none
  | .refused =>
      match r.place with
      | .delivering p => if 0 < r.stack p then some (r.release p).lowLevelInput else none
      | _ => none
  | .ref b =>
      if r.place ≠ .reading ∧ r.Reaches b ∧ (r.pool.pbuf b).ref ≠ 255 then
        some { r with
          pool := r.pool.pbufRef b, stack := Function.update r.stack b (r.stack b + 1) }
      else none
  | .free b => if r.place ≠ .reading ∧ 0 < r.stack b then some (r.release b) else none
  | .cat h t =>
      if r.place ≠ .reading ∧ 0 < r.stack h ∧ 0 < r.stack t ∧
          (r.pool.chain ethRxBufferCnt (some h)).getLast? ≠
            (r.pool.chain ethRxBufferCnt (some t)).getLast? then
        some { r with
          pool := r.pool.pbufCat h t, stack := Function.update r.stack t (r.stack t - 1) }
      else none
  | .realloc q remLen =>
      if r.place ≠ .reading ∧ r.Reaches q then
        some { r with pool := r.pool.pbufReallocEnd q remLen }
      else none

/-- A run, unless a call was made that its caller may not make. -/
def run (events : List RxEvent) : Option Reception :=
  events.foldlM step initial

theorem run_concat (events : List RxEvent) (e : RxEvent) :
    run (events ++ [e]) = (run events).bind (·.step e) := by
  simp [run, List.foldlM_append, Option.bind_eq_bind]

end Reception

/-- The buffers linked for the packet that is under construction after some calls. -/
def linkedSince (events : List RxEvent) : List (RxBuff × BitVec 16) :=
  events.foldl (fun segs e =>
    match e with
    | .packet => []
    | .link buff length => segs ++ [(buff, length)]
    | _ => segs) []

theorem linkedSince_concat (events : List RxEvent) (e : RxEvent) :
    linkedSince (events ++ [e]) =
      match e with
      | .packet => []
      | .link buff length => linkedSince events ++ [(buff, length)]
      | _ => linkedSince events := by
  rw [linkedSince, List.foldl_append]
  rfl

/-! ## What every call keeps -/

namespace Reception

variable {r r' : Reception} {segs : List (RxBuff × BitVec 16)} {a b : RxBuff}
  {xs : List RxBuff}

/-- The buffers are accounted for; those of the driver and those of the packet under
construction are referred to once, and the packet is complete as far as it goes. -/
structure Inv (r : Reception) (segs : List (RxBuff × BitVec 16)) : Prop where
  accounted : ∃ free, r.pool.Accounted r.held free none
  dma : ∀ b ∈ r.dma, r.pool.next b = none ∧ (r.pool.pbuf b).ref = 1
  start : r.pStart = segs.head?.map Prod.fst
  last : ∀ pre seg, segs = pre ++ [seg] → r.pEnd = some seg.1
  packet : r.pool.Packet segs

theorem Inv.dma_count (h : r.Inv segs) (hb : b ∈ r.dma) : r.pool.count b = 1 := by
  rw [RxPool.count, (h.dma b hb).2]
  rfl

theorem held_dma (hb : b ∈ r.dma) : 0 < r.held b := by
  have hpos := List.count_pos_iff.mpr hb
  unfold held
  omega

theorem held_stack (hb : 0 < r.stack b) : 0 < r.held b := by
  unfold held
  omega

theorem held_start (hb : r.pStart = some b) : 0 < r.held b := by
  unfold held
  rw [if_pos hb]
  omega

/-- A single reference leaves no room for two. -/
theorem Inv.held_le (h : r.Inv segs) (hcount : r.pool.count b = 1) : r.held b ≤ 1 := by
  obtain ⟨free, hacc⟩ := h.accounted
  by_cases hpos : 0 < r.held b
  · have hsum := hacc.counted.counted b (hacc.counted.held_live b hpos)
    omega
  · omega

/-- The buffers that the driver has to itself. -/
def Private (r : Reception) (segs : List (RxBuff × BitVec 16)) (b : RxBuff) : Prop :=
  b ∈ r.dma ∨ b ∈ segs.map Prod.fst

theorem Inv.private_count (h : r.Inv segs) (hb : r.Private segs b) : r.pool.count b = 1 :=
  hb.elim h.dma_count h.packet.count_eq

theorem Inv.packet_live (h : r.Inv segs) {free : List RxBuff}
    (hacc : r.pool.Accounted r.held free none) (hb : b ∈ segs.map Prod.fst) : b ∉ free := by
  have hlinked := h.packet.linked
  refine RxPool.mem_live.mp (hlinked.mem_of_closed hacc.counted.closed (fun a ha => ?_) b hb)
  exact hacc.counted.held_live a (held_start (h.start.trans ha))

/-- No pointer leads from another live buffer to one of the driver's. -/
theorem Inv.private_of_next (h : r.Inv segs) {free : List RxBuff}
    (hacc : r.pool.Accounted r.held free none) (ha : a ∉ free) (hnext : r.pool.next a = some b)
    (hb : r.Private segs b) : r.Private segs a := by
  have halive := RxPool.mem_live.mpr ha
  have hblive := hacc.counted.closed a halive b hnext
  have hcount := h.private_count hb
  have hunheld : ¬0 < r.held b := fun hheld =>
    hacc.counted.not_pointed hblive hcount (.inl hheld) a halive hnext
  rcases hb with hdma | hseg
  · exact absurd (held_dma hdma) hunheld
  · rcases h.packet.head_or_pointed hseg with hhead | ⟨e, he, hnext'⟩
    · exact absurd (held_start (h.start.trans hhead)) hunheld
    · obtain ⟨-, hsole⟩ := hacc.counted.sole_pointer halive hnext hcount
      rw [← hsole e (RxPool.mem_live.mpr (h.packet_live hacc he)) hnext']
      exact .inr he

/-- What lwIP holds does not belong to the driver. -/
theorem Inv.not_private_of_stack (h : r.Inv segs) {free : List RxBuff}
    (hacc : r.pool.Accounted r.held free none) (ha : 0 < r.stack a) : ¬r.Private segs a := by
  intro hprivate
  have hle := h.held_le (h.private_count hprivate)
  have halive := hacc.counted.held_live a (held_stack ha)
  rcases hprivate with hdma | hseg
  · have hpos := List.count_pos_iff.mpr hdma
    unfold held at hle
    omega
  · rcases h.packet.head_or_pointed hseg with hhead | ⟨e, he, hnext⟩
    · unfold held at hle
      rw [if_pos (h.start.trans hhead)] at hle
      omega
    · have hsole := hacc.counted.sole_pointer
        (RxPool.mem_live.mpr (h.packet_live hacc he)) hnext (h.packet.count_eq hseg)
      have hheld := held_stack ha
      omega

theorem Inv.outside_closed (h : r.Inv segs) {free : List RxBuff}
    (hacc : r.pool.Accounted r.held free none) (c : RxBuff) (hc : c ∉ free ∧ ¬r.Private segs c)
    (t : RxBuff) (ht : r.pool.next c = some t) : t ∉ free ∧ ¬r.Private segs t :=
  ⟨RxPool.mem_live.mp (hacc.counted.closed c (RxPool.mem_live.mpr hc.1) t ht),
    fun ht' => hc.2 (h.private_of_next hacc hc.1 ht ht')⟩

/-- What lwIP can get at is live, and none of the driver's. -/
theorem Inv.reaches_live (h : r.Inv segs) {free : List RxBuff}
    (hacc : r.pool.Accounted r.held free none) (hb : r.Reaches b) :
    b ∉ free ∧ ¬r.Private segs b := by
  obtain ⟨a, ha, hmem⟩ := hb
  have halive := hacc.counted.held_live a (held_stack ha)
  obtain ⟨ys, hys⟩ := hacc.counted.ends a halive
  rw [RxPool.chain_eq hys (RxPool.length_walk_le hys)] at hmem
  refine hys.mem_of_closed (h.outside_closed hacc) (fun c hc => ?_) b hmem
  obtain rfl := Option.some.inj hc
  exact ⟨RxPool.mem_live.mp halive, h.not_private_of_stack hacc ha⟩

theorem Inv.stack_walk (h : r.Inv segs) {free : List RxBuff}
    (hacc : r.pool.Accounted r.held free none) (hb : r.Reaches b)
    (hxs : Linked r.pool.next (some b) xs) : ∀ x ∈ xs, x ∉ free ∧ ¬r.Private segs x := by
  refine hxs.mem_of_closed (h.outside_closed hacc) fun c hc => ?_
  obtain rfl := Option.some.inj hc
  exact h.reaches_live hacc hb

/-- What is held can be reached. -/
theorem reaches_self (hb : 0 < r.stack b) : r.Reaches b :=
  ⟨b, hb, List.mem_cons_self⟩

/-- A call of lwIP that leaves the buffers of the driver alone. -/
theorem Inv.of_stack (h : r.Inv segs) (haccounted : ∃ free, r'.pool.Accounted r'.held free none)
    (hdma : r'.dma = r.dma) (hstart : r'.pStart = r.pStart) (hend : r'.pEnd = r.pEnd)
    (hsame : ∀ b, r.Private segs b → r'.pool.pbuf b = r.pool.pbuf b) : r'.Inv segs where
  accounted := haccounted
  dma b hb := by
    rw [hdma] at hb
    rw [RxPool.next, hsame b (.inl hb)]
    exact h.dma b hb
  start := hstart.trans h.start
  last pre seg hsegs := hend.trans (h.last pre seg hsegs)
  packet := h.packet.congr fun b hb => hsame b (.inr hb)

theorem Inv.lowLevelInput (h : r.Inv segs) : r.lowLevelInput.Inv segs :=
  h.of_stack h.accounted rfl rfl rfl fun _ _ => rfl

/-- The holds after a change of lwIP's. -/
theorem held_update_self {n : ℕ} :
    ({ r with stack := Function.update r.stack b n } : Reception).held b + r.stack b =
      r.held b + n := by
  simp only [held, Function.update_self]
  omega

theorem held_update_of_ne {n : ℕ} (ha : a ≠ b) :
    ({ r with stack := Function.update r.stack b n } : Reception).held a = r.held a := by
  simp [held, Function.update_of_ne ha]

/-- `pbuf_free` by the owner of a reference. -/
theorem Inv.release (h : r.Inv segs) (hb : 0 < r.stack b) : (r.release b).Inv segs := by
  obtain ⟨free, hacc⟩ := h.accounted
  have hheld : r.held b = (r.release b).held b + 1 := by
    have hupdate : (r.release b).held b + r.stack b = r.held b + (r.stack b - 1) :=
      held_update_self
    omega
  have hdue : r.pool.Accounted (r.release b).held free (some b) :=
    ⟨hacc.linked, hacc.counted.give hheld fun a ha => held_update_of_ne ha, hacc.exhausted⟩
  obtain ⟨hfree, xs, hxs, hsame⟩ := RxPool.pbufFree_accounted hdue
  have hwalk := h.stack_walk hacc (reaches_self hb) hxs
  exact h.of_stack hfree rfl rfl rfl fun c hc => hsame c fun hmem => (hwalk c hmem).2 hc

theorem Inv.ref (h : r.Inv segs) (hb : r.Reaches b) (href : (r.pool.pbuf b).ref ≠ 255) :
    ({ r with
      pool := r.pool.pbufRef b
      stack := Function.update r.stack b (r.stack b + 1) } : Reception).Inv segs := by
  obtain ⟨free, hacc⟩ := h.accounted
  obtain ⟨hlive, hprivate⟩ := h.reaches_live hacc hb
  refine h.of_stack ⟨free, RxPool.pbufRef_accounted hacc hlive href ?_ fun a ha => ?_⟩
    rfl rfl rfl fun c hc => ?_
  · have hupdate := held_update_self (r := r) (b := b) (n := r.stack b + 1)
    exact Nat.add_right_cancel (hupdate.trans (by omega))
  · exact held_update_of_ne ha
  · have hne : c ≠ b := by
      rintro rfl
      exact hprivate hc
    exact RxPool.onPbuf_of_ne (s := r.pool) (f := fun p => { p with ref := p.ref + 1 }) hne

theorem Inv.cat (h : r.Inv segs) {t : RxBuff} (hb : 0 < r.stack b) (ht : 0 < r.stack t)
    (hends : (r.pool.chain ethRxBufferCnt (some b)).getLast? ≠
      (r.pool.chain ethRxBufferCnt (some t)).getLast?) :
    ({ r with
      pool := r.pool.pbufCat b t
      stack := Function.update r.stack t (r.stack t - 1) } : Reception).Inv segs := by
  obtain ⟨free, hacc⟩ := h.accounted
  have hblive := hacc.counted.held_live b (held_stack hb)
  obtain ⟨xs, hxs⟩ := hacc.counted.ends b hblive
  obtain ⟨ys, hys⟩ := hacc.counted.ends t (hacc.counted.held_live t (held_stack ht))
  have hwalk := h.stack_walk hacc (reaches_self hb) hxs
  rw [RxPool.chain_eq hxs (RxPool.length_walk_le hxs),
    RxPool.chain_eq hys (RxPool.length_walk_le hys)] at hends
  cases xs using List.reverseRecOn with
  | nil => exact absurd hxs (by simp)
  | append_singleton xs e _ =>
      have hcat := RxPool.pbufCat_accounted (t := t)
        ({ r with stack := Function.update r.stack t (r.stack t - 1) } : Reception).held
        hacc (RxPool.mem_live.mp hblive) hxs
        (by
          have hupdate := held_update_self (r := r) (b := t) (n := r.stack t - 1)
          omega)
        (fun c hc => held_update_of_ne hc) fun zs hzs he => by
          obtain ⟨pre, rfl⟩ := hzs.eq_concat he hxs.next_last
          rw [hys.unique hzs, List.getLast?_concat, List.getLast?_concat] at hends
          exact hends rfl
      exact h.of_stack ⟨free, hcat.1⟩ rfl rfl rfl fun c hc =>
        hcat.2 c fun hmem => (hwalk c hmem).2 hc

theorem Inv.realloc (h : r.Inv segs) (remLen : BitVec 16) (hb : r.Reaches b) :
    ({ r with pool := r.pool.pbufReallocEnd b remLen } : Reception).Inv segs := by
  obtain ⟨free, hacc⟩ := h.accounted
  obtain ⟨hfree, xs, hxs, hsame⟩ :=
    RxPool.pbufReallocEnd_accounted remLen hacc (h.reaches_live hacc hb).1
  have hwalk := h.stack_walk hacc hb hxs
  exact h.of_stack hfree rfl rfl rfl fun c hc => hsame c fun hmem => (hwalk c hmem).2 hc

/-! ## The calls of the driver -/

theorem Inv.allocate (h : r.Inv segs) :
    ({ r with
      pool := r.pool.halEthRxAllocateCallback.2
      dma := r.pool.halEthRxAllocateCallback.1.toList ++ r.dma } : Reception).Inv segs := by
  obtain ⟨free, hacc⟩ := h.accounted
  rcases RxPool.allocate_accounted hacc with
    ⟨b, rest, pool, rfl, heq, hnew, hsame, hafter⟩ | ⟨pool, heq, hsame, hafter⟩
  · have hfresh : ∀ c, r.Private segs c → c ≠ b := by
      rintro c (hdma | hseg) rfl
      · exact RxPool.mem_live.mp (hacc.counted.held_live c (held_dma hdma)) List.mem_cons_self
      · exact h.packet_live hacc hseg List.mem_cons_self
    rw [heq]
    refine ⟨⟨rest, hafter _ ?_ fun c hc => ?_⟩, fun c hc => ?_, h.start, h.last,
      h.packet.congr fun c hc => hsame c (hfresh c (.inr hc))⟩
    · simp only [held, Option.toList_some, List.singleton_append, List.count_cons_self]
      omega
    · simp only [held, Option.toList_some, List.singleton_append]
      rw [List.count_cons_of_ne hc.symm]
    · rcases List.mem_cons.mp hc with rfl | hmem
      · rw [RxPool.next, hnew]
        exact ⟨rfl, rfl⟩
      · rw [RxPool.next, hsame c (hfresh c (.inl hmem))]
        exact h.dma c hmem
  · rw [heq]
    exact h.of_stack ⟨[], hafter⟩ rfl rfl rfl fun c _ => by rw [hsame]

theorem Inv.packetReturned (h : r.Inv segs) {p : RxBuff} (hp : r.pStart = some p)
    (place : Place) :
    ({ r with
      place := place
      pStart := none
      stack := Function.update r.stack p (r.stack p + 1) } : Reception).Inv [] := by
  have hheld : ({ r with
      place := place
      pStart := none
      stack := Function.update r.stack p (r.stack p + 1) } : Reception).held = r.held := by
    funext b
    by_cases hb : b = p
    · subst hb
      simp [held, hp]
      omega
    · simp [held, hp, Function.update_of_ne hb, Ne.symm hb]
  exact ⟨by rw [hheld]; exact h.accounted, h.dma, rfl, fun pre seg heq => by simp at heq, trivial⟩

/-- A buffer of the driver is not in the packet yet. -/
theorem Inv.dma_not_packet (h : r.Inv segs) (hb : b ∈ r.dma) : b ∉ segs.map Prod.fst := by
  intro hseg
  obtain ⟨free, hacc⟩ := h.accounted
  have hdma := List.count_pos_iff.mpr hb
  rcases h.packet.head_or_pointed hseg with hhead | ⟨e, he, hnext⟩
  · have hle := h.held_le (h.dma_count hb)
    unfold held at hle
    rw [if_pos (h.start.trans hhead)] at hle
    omega
  · have hsole := hacc.counted.sole_pointer
      (RxPool.mem_live.mpr (h.packet_live hacc he)) hnext (h.dma_count hb)
    have hheld := held_dma hb
    omega

theorem Inv.not_mem_erase (h : r.Inv segs) (hb : b ∈ r.dma) : b ∉ r.dma.erase b := by
  intro hmem
  have hle := h.held_le (h.dma_count hb)
  have hpos := List.count_pos_iff.mpr hmem
  rw [List.count_erase_self] at hpos
  unfold held at hle
  omega

theorem Inv.link (h : r.Inv segs) (hb : b ∈ r.dma) (length : BitVec 16) :
    ({ r with
      pool := (r.pool.halEthRxLinkCallback r.pStart r.pEnd b length).2.2
      dma := r.dma.erase b
      pStart := (r.pool.halEthRxLinkCallback r.pStart r.pEnd b length).1
      pEnd := (r.pool.halEthRxLinkCallback r.pStart r.pEnd b length).2.1 } : Reception).Inv
        (segs ++ [(b, length)]) := by
  obtain ⟨free, hacc⟩ := h.accounted
  have hfresh := h.dma_not_packet hb
  have hcount := List.count_pos_iff.mpr hb
  have hdma : ∀ c ∈ r.dma.erase b, c ∈ r.dma ∧ c ≠ b := fun c hc =>
    ⟨List.mem_of_mem_erase hc, ne_of_mem_of_not_mem hc (h.not_mem_erase hb)⟩
  have hlast : ∀ pre seg, segs ++ [(b, length)] = pre ++ [seg] → some b = some seg.1 := by
    intro pre seg heq
    obtain rfl : (b, length) = seg := by simpa using (List.append_inj' heq rfl).2
    rfl
  cases segs using List.reverseRecOn with
  | nil =>
      have hstart : r.pStart = none := h.start
      obtain ⟨pool, heq, hpacket, hsame, hafter⟩ :=
        RxPool.link_first length r.pEnd (h.dma b hb).2
      have hheld : ({ r with
          pool := pool, dma := r.dma.erase b, pStart := some b, pEnd := some b } :
            Reception).held = r.held := by
        funext c
        by_cases hc : c = b
        · subst hc
          simp [held, hstart]
          omega
        · simp [held, hstart, List.count_erase_of_ne hc, Ne.symm hc]
      rw [hstart, heq]
      refine ⟨⟨free, ?_⟩, fun c hc => ?_, rfl, hlast, hpacket⟩
      · rw [hheld]
        exact hafter _ _ (h.dma b hb).1 hacc
      · rw [RxPool.next, hsame c (hdma c hc).2]
        exact h.dma c (hdma c hc).1
  | append_singleton pre seg _ =>
      obtain ⟨first, hfirst⟩ : ∃ first, (pre ++ [seg]).head?.map Prod.fst = some first := by
        cases pre <;> exact ⟨_, rfl⟩
      have hstart : r.pStart = some first := h.start.trans hfirst
      obtain ⟨pool, heq, hpacket, hsame, hafter⟩ :=
        RxPool.link_next length h.packet (h.dma b hb).2 hfresh hfirst
      rw [hstart, h.last pre seg rfl, heq]
      refine ⟨⟨free, ?_⟩, fun c hc => ?_, ?_, hlast, hpacket⟩
      · refine hafter r.held _ free (h.dma b hb).1
          (h.packet_live hacc (by simp)) ?_ (fun c hc => ?_) hacc
        · simp only [held, hstart, List.count_erase_self]
          omega
        · simp only [held, hstart, List.count_erase_of_ne hc]
      · rw [RxPool.next, hsame c (hdma c hc).2 (h.dma_not_packet (hdma c hc).1)]
        exact h.dma c (hdma c hc).1
      · rw [← hfirst]
        cases pre <;> rfl

/-- One call keeps the buffers accounted for, and the packet that is under construction. -/
theorem Inv.step {e : RxEvent} {events : List RxEvent} (h : r.Inv (linkedSince events))
    (hstep : r.step e = some r') : r'.Inv (linkedSince (events ++ [e])) := by
  rw [linkedSince_concat]
  cases e with
  | poll =>
      obtain ⟨-, heq⟩ := Option.ite_none_right_eq_some.mp hstep
      obtain rfl := Option.some.inj heq
      exact h.lowLevelInput
  | allocate =>
      simp only [Reception.step] at hstep
      split at hstep
      · exact absurd hstep (by simp)
      · obtain rfl := Option.some.inj hstep
        exact h.allocate
  | link buff length =>
      obtain ⟨⟨-, hbuff⟩, heq⟩ := Option.ite_none_right_eq_some.mp hstep
      obtain rfl := Option.some.inj heq
      exact h.link hbuff length
  | packet =>
      simp only [Reception.step] at hstep
      split at hstep
      · rename_i p _ hp
        obtain rfl := Option.some.inj hstep
        exact h.packetReturned hp _
      · exact absurd hstep (by simp)
  | noPacket =>
      obtain ⟨-, heq⟩ := Option.ite_none_right_eq_some.mp hstep
      obtain rfl := Option.some.inj heq
      exact h.of_stack h.accounted rfl rfl rfl fun _ _ => rfl
  | accepted =>
      simp only [Reception.step] at hstep
      split at hstep
      · obtain rfl := Option.some.inj hstep
        exact h.lowLevelInput
      · exact absurd hstep (by simp)
  | refused =>
      simp only [Reception.step] at hstep
      split at hstep
      · obtain ⟨hp, heq⟩ := Option.ite_none_right_eq_some.mp hstep
        obtain rfl := Option.some.inj heq
        exact (h.release hp).lowLevelInput
      · exact absurd hstep (by simp)
  | ref b =>
      obtain ⟨⟨-, hb, href⟩, heq⟩ := Option.ite_none_right_eq_some.mp hstep
      obtain rfl := Option.some.inj heq
      exact h.ref hb href
  | free b =>
      obtain ⟨⟨-, hb⟩, heq⟩ := Option.ite_none_right_eq_some.mp hstep
      obtain rfl := Option.some.inj heq
      exact h.release hb
  | cat b t =>
      obtain ⟨⟨-, hb, ht, hends⟩, heq⟩ := Option.ite_none_right_eq_some.mp hstep
      obtain rfl := Option.some.inj heq
      exact h.cat hb ht hends
  | realloc q remLen =>
      obtain ⟨⟨-, hq⟩, heq⟩ := Option.ite_none_right_eq_some.mp hstep
      obtain rfl := Option.some.inj heq
      exact h.realloc remLen hq

theorem initial_inv : initial.Inv [] where
  accounted := ⟨_, RxPool.mempInitPool_accounted⟩
  dma _ hb := absurd hb List.not_mem_nil
  start := rfl
  last _ _ heq := by simp at heq
  packet := trivial

theorem run_inv {events : List RxEvent} (h : run events = some r) :
    r.Inv (linkedSince events) := by
  induction events using List.reverseRecOn generalizing r with
  | nil =>
      obtain rfl := Option.some.inj h
      exact initial_inv
  | append_singleton events e ih =>
      rw [run_concat] at h
      obtain ⟨before, hbefore, hstep⟩ := Option.bind_eq_some_iff.mp h
      exact (ih hbefore).step hstep

theorem exists_held_of_reachable {free : List RxBuff}
    (hacc : r.pool.Accounted r.held free none) (hb : b ∉ free) :
    ∃ a, 0 < r.held a ∧ b ∈ r.pool.chain ethRxBufferCnt (some a) := by
  obtain ⟨a, xs, ha, hxs, hmem⟩ := hacc.counted.reachable (RxPool.mem_live.mpr hb)
  exact ⟨a, ha, by rwa [RxPool.chain_eq hxs (RxPool.length_walk_le hxs)]⟩

/-- Once lwIP holds nothing, the driver can only have exhausted the pool by having all the
buffers. -/
theorem Inv.status_ok (h : r.Inv segs) (hstack : ∀ b, r.stack b = 0)
    (hdriver : r.dma.length + (r.pool.chain ethRxBufferCnt r.pStart).length < ethRxBufferCnt) :
    r.pool.rxAllocStatus = .ok := by
  obtain ⟨free, hacc⟩ := h.accounted
  by_contra hstatus
  have herror : r.pool.rxAllocStatus = .error := by
    cases heq : r.pool.rxAllocStatus with
    | ok => exact absurd heq hstatus
    | error => rfl
  obtain rfl := hacc.exhausted herror
  have hall : ∀ b, b ∈ r.dma ++ r.pool.chain ethRxBufferCnt r.pStart := by
    intro b
    obtain ⟨a, ha, hmem⟩ := exists_held_of_reachable hacc (List.not_mem_nil (a := b))
    rw [List.mem_append]
    by_cases hdma : a ∈ r.dma
    · have halone : Linked r.pool.next (some a) [a] := ⟨rfl, (h.dma a hdma).1⟩
      rw [RxPool.chain_eq halone (RxPool.length_walk_le halone), List.mem_singleton] at hmem
      rw [hmem]
      exact .inl hdma
    · have hzero := List.count_eq_zero_of_not_mem hdma
      have hstart : r.pStart = some a := by
        by_contra hne
        rw [held, hzero, if_neg hne, hstack] at ha
        omega
      rw [hstart]
      exact .inr hmem
  have hcard : (Finset.univ : Finset RxBuff).card ≤
      (r.dma ++ r.pool.chain ethRxBufferCnt r.pStart).toFinset.card :=
    Finset.card_le_card fun b _ => List.mem_toFinset.mpr (hall b)
  have hle := hcard.trans (List.toFinset_card_le _)
  rw [Finset.card_univ, Fintype.card_fin, List.length_append] at hle
  omega

end Reception

/-! ## Main results -/

/-- In every state of every run: the list of the pool ends and holds no buffer that is
referred to; every other buffer counts exactly the references to it, from the driver,
from lwIP and from other buffers in use, and can be reached from one that the driver or
lwIP holds.  After an allocation that failed, the pool stays empty until a buffer is
freed; if lwIP holds nothing and the driver not everything, packets are read again. -/
theorem receive_buffers_accounted (events : List RxEvent) (r : Reception)
    (hrun : Reception.run events = some r) :
    (∃ free, Linked r.pool.next r.pool.tab free ∧
      (∀ b, b ∈ free → r.held b = 0 ∧ ∀ a, a ∉ free → r.pool.next a ≠ some b) ∧
      (∀ b, b ∉ free → 0 < (r.pool.pbuf b).ref.toNat ∧
        (r.pool.pbuf b).ref.toNat = r.held b + pointers r.pool.next (free.toFinset)ᶜ b ∧
        ∃ a, 0 < r.held a ∧ b ∈ r.pool.chain ethRxBufferCnt (some a)) ∧
      (r.pool.rxAllocStatus = .error → free = [])) ∧
    ((∀ b, r.stack b = 0) →
      r.dma.length + (r.pool.chain ethRxBufferCnt r.pStart).length < ethRxBufferCnt →
      r.pool.rxAllocStatus = .ok) := by
  have hinv := Reception.run_inv hrun
  obtain ⟨free, hacc⟩ := hinv.accounted
  refine ⟨⟨free, hacc.linked, fun b hb => ⟨?_, fun a ha hnext => ?_⟩, fun b hb => ⟨?_, ?_, ?_⟩,
    hacc.exhausted⟩, hinv.status_ok⟩
  · by_contra hne
    exact RxPool.mem_live.mp (hacc.counted.held_live b (Nat.pos_of_ne_zero hne)) hb
  · exact RxPool.mem_live.mp (hacc.counted.closed a (RxPool.mem_live.mpr ha) b hnext) hb
  · exact hacc.counted.positive b (RxPool.mem_live.mpr hb)
  · have hsum := hacc.counted.counted b (RxPool.mem_live.mpr hb)
    rwa [if_neg (by simp)] at hsum
  · exact Reception.exists_held_of_reachable hacc hb

/-- The driver takes every buffer and asks for one more. -/
theorem receive_buffers_accounted_exhausted :
    ∃ r, Reception.run (List.replicate 13 .allocate) = some r ∧ r.pool.tab = none := by
  obtain ⟨r, hrun, hstatus⟩ : ∃ r, Reception.run (List.replicate 13 .allocate) = some r ∧
      r.pool.rxAllocStatus = .error := ⟨_, rfl, by decide +kernel⟩
  obtain ⟨⟨free, hlinked, -, -, hempty⟩, -⟩ :=
    receive_buffers_accounted (List.replicate 13 .allocate) r hrun
  rw [hempty hstatus] at hlinked
  exact ⟨r, hrun, hlinked⟩

/-- A packet that is handed to lwIP consists of the buffers that were linked since the
packet before, in that order: each points to the next, holds as many bytes as were linked,
counts the bytes from itself to the end, and is referred to once. -/
theorem delivered_packet (events : List RxEvent) (r : Reception)
    (hrun : Reception.run (events ++ [.packet]) = some r) :
    ∃ first, r.place = .delivering first ∧ 0 < r.stack first ∧
      (linkedSince events).head?.map Prod.fst = some first ∧
      r.pool.Packet (linkedSince events) ∧
      r.pool.chain ethRxBufferCnt (some first) = (linkedSince events).map Prod.fst := by
  rw [Reception.run_concat] at hrun
  obtain ⟨before, hbefore, hstep⟩ := Option.bind_eq_some_iff.mp hrun
  have hinv := Reception.run_inv hbefore
  simp only [Reception.step] at hstep
  split at hstep
  · rename_i first _ hstart
    obtain rfl := Option.some.inj hstep
    have hfirst := hinv.start.symm.trans hstart
    have hlinked := hinv.packet.linked
    rw [hfirst] at hlinked
    refine ⟨first, rfl, ?_, hfirst, hinv.packet,
      RxPool.chain_eq hlinked (RxPool.length_walk_le hlinked)⟩
    simp
  · exact absurd hstep (by simp)

/-- A frame in two buffers. -/
theorem delivered_packet_two :
    ∃ r, Reception.run [.poll, .allocate, .allocate, .link 11 1524, .link 10 12, .packet] =
        some r ∧ r.place = .delivering 11 ∧ (r.pool.pbuf 11).totLen = 1536 := by
  obtain ⟨r, hrun⟩ : ∃ r, Reception.run
      ([.poll, .allocate, .allocate, .link 11 1524, .link 10 12] ++ [.packet]) = some r :=
    ⟨_, rfl⟩
  obtain ⟨first, hplace, -, hfirst, hpacket, -⟩ := delivered_packet
    [.poll, .allocate, .allocate, .link 11 1524, .link 10 12] r hrun
  obtain rfl : (11 : RxBuff) = first := Option.some.inj hfirst
  exact ⟨r, hrun, hplace, congrArg Pbuf.totLen hpacket.1⟩

end Ethernet
end MDCMotorControl
