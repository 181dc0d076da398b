import MDCMotorControl.Library.Monitor
import MDCMotorControl.Library.PeriodicTask

/-!
# The Ethernet link

`ethernet_link_check_state` compares the link state of the PHY with the flag of the
network interface: it stops the MAC when the link is gone, and sets the MAC up for
the negotiated mode and starts it when the link has come.  It is called at start-up,
after the start-up delay, and from the main loop every 100 milliseconds.  The start-up
leaves `EthernetLinkTimer` at zero, so the first pass of the main loop samples the PHY at
once.

The mode is only read when the link comes up: a PHY that changes its mode without
losing the link in between leaves the MAC as it is.

Main results:

- Theorem `checkState_inv`: one check takes the interface along with the samples.
- Theorem `link_follows_phy`: after any number of passes the flags, the calls into the
  MAC driver and its mode are those of the PHY states that have been sampled.
-/

namespace MDCMotorControl
namespace Ethernet

open PeriodicTask

/-! ## The PHY and the MAC -/

inductive Duplex where
  | full
  | half
deriving DecidableEq, Repr

inductive Speed where
  | mbit100
  | mbit10
deriving DecidableEq, Repr

/-- The two fields of `ETH_MACConfigTypeDef` that the link check sets. -/
structure MacConfig where
  duplexMode : Duplex
  speed : Speed
deriving DecidableEq, Repr

/-- The result of `LAN8742_GetLinkState`, as far as it is told apart: the link is down
or could not be read, the four modes, and any other state above
`LAN8742_STATUS_LINK_DOWN`. -/
inductive PhyLinkState where
  | linkDown
  | fullDuplex100
  | halfDuplex100
  | fullDuplex10
  | halfDuplex10
  | other
deriving DecidableEq, Repr

/-- The mode that the switch of `ethernet_link_check_state` reads off a state. -/
def PhyLinkState.mode : PhyLinkState → Option MacConfig
  | .fullDuplex100 => some ⟨.full, .mbit100⟩
  | .halfDuplex100 => some ⟨.half, .mbit100⟩
  | .fullDuplex10 => some ⟨.full, .mbit10⟩
  | .halfDuplex10 => some ⟨.half, .mbit10⟩
  | .linkDown => none
  | .other => none

/-- The calls into the MAC driver, and the reports of lwIP that announce the
interface on the network. -/
inductive PortCall where
  | getMacConfig
  | setMacConfig (config : MacConfig)
  | start
  | stop
  | report
deriving DecidableEq

/-- The flags of the network interface, `EthernetLinkTimer`, and the ghost record of
the calls, most recent first. -/
structure Port where
  up : Bool
  linkUp : Bool
  ethernetLinkTimer : BitVec 32
  calls : List PortCall

namespace Port

def log (call : PortCall) (p : Port) : Port :=
  { p with calls := call :: p.calls }

/-- `netif_issue_reports`: only with both flags up. -/
def issueReports (p : Port) : Port :=
  if p.linkUp && p.up then p.log .report else p

/-- `netif_set_up`. -/
def netifSetUp (p : Port) : Port :=
  if p.up then p else { p with up := true }.issueReports

/-- `netif_set_down`. -/
def netifSetDown (p : Port) : Port :=
  if p.up then { p with up := false } else p

/-- `netif_set_link_up`. -/
def netifSetLinkUp (p : Port) : Port :=
  if p.linkUp then p else { p with linkUp := true }.issueReports

/-- `netif_set_link_down`. -/
def netifSetLinkDown (p : Port) : Port :=
  if p.linkUp then { p with linkUp := false } else p

end Port

/-- `ethernet_link_check_state`. -/
def ethernetLinkCheckState (phy : PhyLinkState) (p : Port) : Port :=
  if p.linkUp && phy = .linkDown then
    (p.log .stop).netifSetDown.netifSetLinkDown
  else if !p.linkUp && phy ≠ .linkDown then
    match phy.mode with
    | some config =>
        ((((p.log .getMacConfig).log (.setMacConfig config)).log .start).netifSetUp).netifSetLinkUp
    | none => p
  else p

/-- `Ethernet_Link_Periodic_Handle`, with the two times at which it reads the tick. -/
def ethernetLinkPeriodicHandle (poll : Poll) (phy : PhyLinkState) (p : Port) : Port :=
  if due 100 (BitVec.ofNat 32 poll.now) p.ethernetLinkTimer then
    ethernetLinkCheckState phy { p with ethernetLinkTimer := BitVec.ofNat 32 poll.stored }
  else p

/-- `STARTUP_DELAY_MS`. -/
def startupDelayMs : ℕ := 5000

/-- What the start-up finds: whether the initialisation of the PHY and of the MAC
driver succeed, the tick at which the state of the PHY is sampled, and that state.
`HAL_Delay` has waited before. -/
structure StartUp where
  phyInit : Bool
  halEthInit : Bool
  time : ℕ
  phy : PhyLinkState
  delayed : startupDelayMs ≤ time

/-- The end of `low_level_init`.  `Error_Handler` does not return. -/
def lowLevelInit (s : StartUp) (p : Port) : Option Port :=
  if !s.phyInit then some p.netifSetLinkDown.netifSetDown
  else if s.halEthInit then some (ethernetLinkCheckState s.phy p)
  else none

/-- The interface as `netif_add` finds it. -/
def Port.initial : Port where
  up := false
  linkUp := false
  ethernetLinkTimer := 0
  calls := []

/-- `MX_LWIP_Init`, as far as it concerns the link. -/
def mxLwipInitLink (s : StartUp) : Option Port :=
  (lowLevelInit s .initial).map Port.netifSetUp

/-! ## What the samples say -/

/-- The mode of a link that is up: the first mode sampled since the link was last
seen down.  The samples have the most recent one first. -/
def negotiated (samples : List PhyLinkState) : Option MacConfig :=
  (samples.takeWhile (· ≠ .linkDown)).reverse.findSome? PhyLinkState.mode

@[simp] theorem negotiated_nil : negotiated [] = none := rfl

@[simp] theorem negotiated_linkDown (samples : List PhyLinkState) :
    negotiated (.linkDown :: samples) = none := rfl

/-- A further sample with the link there only counts while there is no mode yet. -/
theorem negotiated_cons {phy : PhyLinkState} (h : phy ≠ .linkDown)
    (samples : List PhyLinkState) :
    negotiated (phy :: samples) = (negotiated samples).or phy.mode := by
  rw [negotiated, List.takeWhile_cons, if_pos (decide_eq_true h), List.reverse_cons,
    List.findSome?_append, List.findSome?_singleton, ← negotiated]

/-- How far the MAC driver has come, with its mode. -/
inductive MacPhase where
  | stopped
  | configured (config : MacConfig)
  | started (config : MacConfig)
  | running (config : MacConfig)
deriving DecidableEq

/-- The MAC is given its mode while it is stopped, then started, and announced once
before it is stopped again. -/
def MacPhase.next : MacPhase → PortCall → Option MacPhase
  | .stopped, .getMacConfig => some .stopped
  | .stopped, .setMacConfig config => some (.configured config)
  | .configured config, .start => some (.started config)
  | .started config, .report => some (.running config)
  | .running _, .stop => some .stopped
  | _, _ => none

/-- The phase of the MAC that belongs to a link. -/
def MacPhase.of : Option MacConfig → MacPhase
  | none => .stopped
  | some config => .running config

/-! ## One check -/

/-- The interface is what the samples say. -/
structure LinkInv (samples : List PhyLinkState) (p : Port) : Prop where
  phase : Monitor.after MacPhase.next .stopped p.calls = some (.of (negotiated samples))
  linkUp : p.linkUp = (negotiated samples).isSome
  up : p.linkUp = true → p.up = true

/-- The time stamp does not matter. -/
theorem LinkInv.stamped {samples : List PhyLinkState} {p : Port} (h : LinkInv samples p)
    (stamp : BitVec 32) : LinkInv samples { p with ethernetLinkTimer := stamp } :=
  ⟨h.phase, h.linkUp, h.up⟩

/-- The interface is brought up with a mode: both flags are set, and the second one to
be set announces it. -/
theorem bringUp_calls (config : MacConfig) {p : Port} (hdown : p.linkUp = false) :
    let p' :=
      ((((p.log .getMacConfig).log (.setMacConfig config)).log .start).netifSetUp).netifSetLinkUp
    p'.calls = .report :: .start :: .setMacConfig config :: .getMacConfig :: p.calls ∧
      p'.linkUp = true ∧ p'.up = true := by
  cases hup : p.up <;>
    simp [Port.netifSetUp, Port.netifSetLinkUp, Port.issueReports, Port.log, hup, hdown]

theorem takeDown_calls {p : Port} (hlink : p.linkUp = true) :
    let p' := (p.log .stop).netifSetDown.netifSetLinkDown
    p'.calls = .stop :: p.calls ∧ p'.linkUp = false := by
  cases hup : p.up <;>
    simp [Port.netifSetDown, Port.netifSetLinkDown, Port.log, hup, hlink]

/-- One check takes the interface along with the samples. -/
theorem checkState_inv {samples : List PhyLinkState} {p : Port} (h : LinkInv samples p)
    (phy : PhyLinkState) : LinkInv (phy :: samples) (ethernetLinkCheckState phy p) := by
  obtain ⟨hphase, hlink, hup⟩ := h
  unfold ethernetLinkCheckState
  cases hmode : negotiated samples with
  | none =>
      rw [hmode, Option.isSome_none] at hlink
      rw [hmode] at hphase
      rw [if_neg (by simp [hlink])]
      by_cases hdown : phy = .linkDown
      · subst hdown
        rw [if_neg (by simp)]
        exact ⟨hphase, hlink, hup⟩
      · have hnow : negotiated (phy :: samples) = phy.mode := by
          rw [negotiated_cons hdown, hmode, Option.none_or]
        rw [if_pos (by simp [hlink, hdown])]
        cases hphy : phy.mode with
        | none =>
            rw [hphy] at hnow
            refine ⟨?_, ?_, hup⟩
            · rw [hnow]
              exact hphase
            · rw [hnow]
              exact hlink
        | some config =>
            obtain ⟨hcalls, hlinkUp, hadmin⟩ := bringUp_calls config hlink
            rw [hphy] at hnow
            refine ⟨?_, ?_, fun _ => hadmin⟩
            · rw [hnow]
              show Monitor.after MacPhase.next .stopped _ = some (.running config)
              rw [hcalls]
              exact Monitor.after_cons_of (Monitor.after_cons_of (Monitor.after_cons_of
                (Monitor.after_cons_of hphase rfl) rfl) rfl) rfl
            · rw [hnow]
              exact hlinkUp
  | some config =>
      rw [hmode, Option.isSome_some] at hlink
      rw [hmode] at hphase
      by_cases hdown : phy = .linkDown
      · subst hdown
        obtain ⟨hcalls, hlinkDown⟩ := takeDown_calls hlink
        rw [if_pos (by simp [hlink])]
        refine ⟨?_, hlinkDown, fun hnot => absurd (hlinkDown.symm.trans hnot) (by decide)⟩
        rw [hcalls]
        exact Monitor.after_cons_of hphase rfl
      · have hnow : negotiated (phy :: samples) = some config := by
          rw [negotiated_cons hdown, hmode, Option.some_or]
        rw [if_neg (by simp [hdown]), if_neg (by simp [hlink])]
        exact ⟨hnow ▸ hphase, hnow ▸ hlink, hup⟩

/-! ## Runs of the main loop -/

/-- The interface in a run, with the ghost record of the samples and their times: the one
of the start-up, if there is one, and those of the passes, most recent first. -/
structure LinkRun where
  port : Port
  atStartUp : Option (ℕ × PhyLinkState)
  periodic : List (ℕ × PhyLinkState)

namespace LinkRun

/-- The samples, most recent first. -/
def samples (r : LinkRun) : List (ℕ × PhyLinkState) :=
  r.periodic ++ r.atStartUp.toList

/-- The PHY states that have been sampled. -/
def states (r : LinkRun) : List PhyLinkState :=
  r.samples.map Prod.snd

/-- The time in `EthernetLinkTimer`: that of the last periodic sample, zero before the
first one. -/
def last (r : LinkRun) : ℕ :=
  (r.periodic.head?.map Prod.fst).getD 0

/-- The link part of one pass, `MX_LWIP_Process`. -/
def pass (r : LinkRun) (input : Poll × PhyLinkState) : LinkRun :=
  { r with
    port := ethernetLinkPeriodicHandle input.1 input.2 r.port
    periodic :=
      if due 100 (BitVec.ofNat 32 input.1.now) r.port.ethernetLinkTimer then
        (input.1.stored, input.2) :: r.periodic
      else r.periodic }

/-- The run after start-up. -/
def afterStartUp (s : StartUp) (p : Port) : LinkRun where
  port := p
  atStartUp := if s.phyInit then some (s.time, s.phy) else none
  periodic := []

end LinkRun

/-- The passes of a main loop that does not stall for as long as the tick takes to come
around. -/
def Paced : Poll → List (Poll × PhyLinkState) → Prop
  | _, [] => True
  | p, input :: inputs => Follows 32 100 p input.1 ∧ Paced input.1 inputs

theorem Paced.reads {p : Poll} {inputs : List (Poll × PhyLinkState)} (h : Paced p inputs)
    {input : Poll × PhyLinkState} (hmem : input ∈ inputs) : input.1.now ≤ input.1.stored := by
  induction inputs generalizing p with
  | nil => cases hmem
  | cons first inputs ih =>
      rcases List.mem_cons.mp hmem with rfl | hmem
      · exact h.1.reads
      · exact ih h.2 hmem

/-- The poll that the initial value of `EthernetLinkTimer` stands for. -/
def startPoll : Poll :=
  ⟨0, 0⟩

/-- The last poll of a run. -/
def lastPoll (p : Poll) (inputs : List (Poll × PhyLinkState)) : Poll :=
  inputs.foldl (fun _ input => input.1) p

/-- What holds after every pass. -/
structure RunInv (p : Poll) (r : LinkRun) : Prop where
  link : LinkInv r.states r.port
  timer : r.port.ethernetLinkTimer = BitVec.ofNat 32 r.last
  recent : Recent 100 r.last p
  spaced : r.periodic.Pairwise fun a b => b.1 + 100 ≤ a.1

section Timer

variable (p : Port)

@[simp] theorem Port.netifSetUp_timer :
    p.netifSetUp.ethernetLinkTimer = p.ethernetLinkTimer := by
  cases hup : p.up <;> cases hlink : p.linkUp <;>
    simp [Port.netifSetUp, Port.issueReports, Port.log, hup, hlink]

@[simp] theorem Port.netifSetLinkUp_timer :
    p.netifSetLinkUp.ethernetLinkTimer = p.ethernetLinkTimer := by
  cases hup : p.up <;> cases hlink : p.linkUp <;>
    simp [Port.netifSetLinkUp, Port.issueReports, Port.log, hup, hlink]

@[simp] theorem Port.netifSetDown_timer :
    p.netifSetDown.ethernetLinkTimer = p.ethernetLinkTimer := by
  unfold Port.netifSetDown
  split <;> rfl

@[simp] theorem Port.netifSetLinkDown_timer :
    p.netifSetLinkDown.ethernetLinkTimer = p.ethernetLinkTimer := by
  unfold Port.netifSetLinkDown
  split <;> rfl

/-- The check itself leaves the time stamp alone. -/
@[simp] theorem checkState_timer (phy : PhyLinkState) :
    (ethernetLinkCheckState phy p).ethernetLinkTimer = p.ethernetLinkTimer := by
  unfold ethernetLinkCheckState
  split
  · simp [Port.log]
  · split
    · split
      · simp [Port.log]
      · rfl
    · rfl

end Timer

/-- A pass that looks at the PHY. -/
theorem pass_of_due {p : Poll} {r : LinkRun} {input : Poll × PhyLinkState} (h : RunInv p r)
    (hpaced : Follows 32 100 p input.1) (hrun : 100 ≤ input.1.now - r.last) :
    r.pass input = { r with
      port := ethernetLinkCheckState input.2
        { r.port with ethernetLinkTimer := BitVec.ofNat 32 input.1.stored }
      periodic := (input.1.stored, input.2) :: r.periodic } := by
  have hdue := (hpaced.due_iff h.recent).mpr hrun
  rw [← h.timer] at hdue
  rw [LinkRun.pass, ethernetLinkPeriodicHandle, if_pos hdue, if_pos hdue]

/-- A pass that does not. -/
theorem pass_of_not_due {p : Poll} {r : LinkRun} {input : Poll × PhyLinkState}
    (h : RunInv p r) (hpaced : Follows 32 100 p input.1)
    (hrun : ¬ 100 ≤ input.1.now - r.last) : r.pass input = r := by
  have hdue := mt (hpaced.due_iff h.recent).mp hrun
  rw [← h.timer] at hdue
  rw [LinkRun.pass, ethernetLinkPeriodicHandle, if_neg hdue, if_neg hdue]

/-- What a pass of a paced main loop does: it samples the PHY when a hundred
milliseconds have passed since the last periodic sample, and nothing otherwise. -/
theorem pass_inv {p : Poll} {r : LinkRun} {input : Poll × PhyLinkState} (h : RunInv p r)
    (hpaced : Follows 32 100 p input.1) : RunInv input.1 (r.pass input) := by
  have hrecent := hpaced.recent (by omega) h.recent
  by_cases hrun : 100 ≤ input.1.now - r.last
  · rw [lastRun, if_pos hrun] at hrecent
    rw [pass_of_due h hpaced hrun]
    refine ⟨checkState_inv (h.link.stamped _) input.2, ?_, hrecent, ?_⟩
    · rw [checkState_timer]
      rfl
    · rw [List.pairwise_cons]
      refine ⟨fun a ha => ?_, h.spaced⟩
      have hspaced := lastRun_spaced hpaced.reads hrun (by omega)
      have hle : a.1 ≤ r.last := by
        unfold LinkRun.last
        cases hr : r.periodic with
        | nil => rw [hr] at ha; cases ha
        | cons b rest =>
            have hpairs := h.spaced
            rw [hr, List.pairwise_cons] at hpairs
            rw [hr] at ha
            rcases List.mem_cons.mp ha with rfl | ha
            · exact le_rfl
            · have := hpairs.1 a ha
              show a.1 ≤ b.1
              omega
      show a.1 + 100 ≤ input.1.stored
      omega
  · rw [lastRun, if_neg hrun] at hrecent
    rw [pass_of_not_due h hpaced hrun]
    exact ⟨h.link, h.timer, hrecent, h.spaced⟩

/-- What every pass keeps holds after any number of passes. -/
theorem passes_inv {p : Poll} {r : LinkRun} {inputs : List (Poll × PhyLinkState)}
    (h : RunInv p r) (hpaced : Paced p inputs) :
    RunInv (lastPoll p inputs) (inputs.foldl LinkRun.pass r) := by
  induction inputs generalizing p r with
  | nil => exact h
  | cons input inputs ih => exact ih (pass_inv h hpaced.1) hpaced.2

/-- The samples of the passes come at the times of the passes. -/
theorem passes_periodic {r : LinkRun} {inputs : List (Poll × PhyLinkState)} :
    ∀ a ∈ (inputs.foldl LinkRun.pass r).periodic,
      a ∈ r.periodic ∨ ∃ input ∈ inputs, a = (input.1.stored, input.2) := by
  induction inputs generalizing r with
  | nil => exact fun a ha => .inl ha
  | cons input inputs ih =>
      intro a ha
      rcases ih a ha with hbefore | ⟨later, hmem, rfl⟩
      · simp only [LinkRun.pass] at hbefore
        split at hbefore
        · rcases List.mem_cons.mp hbefore with rfl | hbefore
          · exact .inr ⟨input, List.mem_cons_self, rfl⟩
          · exact .inl hbefore
        · exact .inl hbefore
      · exact .inr ⟨later, List.mem_cons_of_mem _ hmem, rfl⟩

/-- Passes keep the samples that there are. -/
theorem passes_length {r : LinkRun} {inputs : List (Poll × PhyLinkState)} :
    r.periodic.length ≤ (inputs.foldl LinkRun.pass r).periodic.length := by
  induction inputs generalizing r with
  | nil => exact le_rfl
  | cons input inputs ih =>
      refine le_trans ?_ ih
      simp only [LinkRun.pass]
      split
      · exact Nat.le_succ _
      · exact le_rfl

/-- The start-up leaves the interface as its sample says, and up. -/
theorem startUp_inv {s : StartUp} {p : Port} (h : mxLwipInitLink s = some p) :
    RunInv startPoll (.afterStartUp s p) := by
  have hinitial : LinkInv [] .initial := ⟨rfl, rfl, nofun⟩
  have hsetUp : ∀ samples q, LinkInv samples q → LinkInv samples q.netifSetUp := by
    rintro samples q ⟨hphase, hlink, hup⟩
    cases hadmin : q.up with
    | true =>
        have hsame : q.netifSetUp = q := by simp [Port.netifSetUp, hadmin]
        rw [hsame]
        exact ⟨hphase, hlink, hup⟩
    | false =>
        have hdown : q.linkUp = false := by
          rw [← Bool.not_eq_true]
          intro hlinkUp
          exact absurd (hadmin.symm.trans (hup hlinkUp)) (by decide)
        have hsame : q.netifSetUp = { q with up := true } := by
          simp [Port.netifSetUp, Port.issueReports, hadmin, hdown]
        rw [hsame]
        exact ⟨hphase, hlink, fun _ => rfl⟩
  obtain ⟨q, hq, rfl⟩ := Option.map_eq_some_iff.mp h
  have htimer : q.ethernetLinkTimer = 0 ∧ LinkInv (LinkRun.afterStartUp s q).states q := by
    obtain ⟨phyInit, halEthInit, time, phy, hdelayed⟩ := s
    cases phyInit with
    | false =>
        obtain rfl : Port.initial = q := Option.some.inj hq
        exact ⟨rfl, hinitial⟩
    | true =>
        cases halEthInit with
        | false => cases hq
        | true =>
            obtain rfl : ethernetLinkCheckState phy .initial = q := Option.some.inj hq
            exact ⟨checkState_timer .initial phy, checkState_inv hinitial phy⟩
  have hrecent : Recent 100 0 startPoll := ⟨le_rfl, by decide⟩
  refine ⟨hsetUp _ q htimer.2, ?_, hrecent, .nil⟩
  show q.netifSetUp.ethernetLinkTimer = _
  rw [Port.netifSetUp_timer, htimer.1]
  rfl

/-- The first pass samples the PHY: the timer is at zero, and the start-up delay is over. -/
theorem firstPass_samples {s : StartUp} {p : Port} (h : mxLwipInitLink s = some p)
    {input : Poll × PhyLinkState} (hpaced : Follows 32 100 startPoll input.1)
    (hlater : s.time ≤ input.1.now) :
    ((LinkRun.afterStartUp s p).pass input).periodic = [(input.1.stored, input.2)] := by
  have hdelayed := s.delayed
  have hrun : 100 ≤ input.1.now - (LinkRun.afterStartUp s p).last := by
    show 100 ≤ input.1.now - 0
    rw [startupDelayMs] at hdelayed
    omega
  rw [pass_of_due (startUp_inv h) hpaced hrun]
  rfl

/-! ## Main result -/

/-- After the start-up and any number of passes of a main loop that does not stall for
as long as the tick takes to roll over: the calls into the MAC driver kept their order,
and the MAC runs exactly when the samples so far show a link, in the mode that was
sampled first since the link was last down; the link flag says the same, and the
interface is up whenever the link is.  The first pass samples the PHY again, however soon
it comes after the start-up; from then on the last sample is less than a hundred
milliseconds older than the last pass, and the samples of the passes are at least a hundred
milliseconds apart. -/
theorem link_follows_phy (s : StartUp) (p : Port) (inputs : List (Poll × PhyLinkState))
    (hstart : mxLwipInitLink s = some p) (hpaced : Paced startPoll inputs)
    (hlater : ∀ input ∈ inputs, s.time ≤ input.1.now) :
    let r := inputs.foldl LinkRun.pass (.afterStartUp s p)
    Monitor.after MacPhase.next .stopped r.port.calls = some (.of (negotiated r.states)) ∧
      r.port.linkUp = (negotiated r.states).isSome ∧
      (r.port.linkUp = true → r.port.up = true) ∧
      (inputs ≠ [] →
        r.periodic ≠ [] ∧ (lastPoll startPoll inputs).now < r.last + 100) ∧
      (r.periodic.Pairwise fun a b => b.1 + 100 ≤ a.1) ∧
      ∀ a ∈ r.periodic, s.time ≤ a.1 := by
  intro r
  have hrun : RunInv (lastPoll startPoll inputs) r := passes_inv (startUp_inv hstart) hpaced
  refine ⟨hrun.link.phase, hrun.link.linkUp, hrun.link.up, fun hpasses => ⟨?_, hrun.recent.lt⟩,
    hrun.spaced, fun a ha => ?_⟩
  · cases inputs with
    | nil => exact absurd rfl hpasses
    | cons input inputs =>
        have hfirst := firstPass_samples hstart hpaced.1 (hlater input List.mem_cons_self)
        have hlength := @passes_length ((LinkRun.afterStartUp s p).pass input) inputs
        rw [hfirst] at hlength
        exact List.ne_nil_of_length_pos hlength
  · rcases passes_periodic a ha with hbefore | ⟨input, hmem, rfl⟩
    · cases hbefore
    · exact (hlater input hmem).trans (hpaced.reads hmem)

/-- The cable of a running interface is pulled right after the start-up and plugged in again,
in another mode; the first pass looks at once, a later one does not. -/
theorem link_follows_phy_replugged :
    let s : StartUp := ⟨true, true, 5075, .fullDuplex100, by decide⟩
    let inputs : List (Poll × PhyLinkState) :=
      [(⟨5080, 5080⟩, .linkDown), (⟨5150, 5150⟩, .other), (⟨5181, 5182⟩, .halfDuplex10)]
    let r := inputs.foldl LinkRun.pass (.afterStartUp s
      ((ethernetLinkCheckState .fullDuplex100 .initial).netifSetUp))
    r.port.linkUp = true ∧ negotiated r.states = some ⟨.half, .mbit10⟩ ∧
      r.periodic.map Prod.fst = [5182, 5080] := by
  intro s inputs r
  have hpaced : Paced startPoll inputs :=
    ⟨⟨by decide, by decide, by decide⟩, ⟨by decide, by decide, by decide⟩,
      ⟨by decide, by decide, by decide⟩, trivial⟩
  have hlink := (link_follows_phy s _ inputs rfl hpaced (by decide)).2.1
  exact ⟨hlink.trans (by decide +kernel), by decide +kernel, by decide +kernel⟩

end Ethernet
end MDCMotorControl
