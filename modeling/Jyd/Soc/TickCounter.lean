import Jyd.Hdl.GrayCode
import Jyd.Soc.PeripheralBridge

/-!
# TickCounter — the counter register of the simulated SoC and of the FPGA top

Both tops take the same start and stop commands.  The simulated timer counts whole
milliseconds and forgets a partial one when it is stopped; the FPGA counter counts cycles
of the 50 MHz clock and hands them over to the core as a Gray code.
-/

namespace Jyd
namespace Soc

open Hdl Jyd.Core JYDPeripheralBridge

/-! ## The FPGA counter -/

namespace JYDFPGATickCounter

structure Regs where
  enableSync1 : Bool
  enableSync2 : Bool
  ticks : Word
  tickGraySync1 : Word
  tickGraySync2 : Word
  deriving DecidableEq, Repr

/-- The clocks that have an edge at an instant. -/
structure Edges where
  clk_50Mhz : Bool
  clock : Bool
  deriving DecidableEq, Repr

def tickGray (r : Regs) : Word := r.ticks ^^^ (r.ticks >>> 1)

def next (r : Regs) (enable : Bool) (e : Edges) : Regs where
  enableSync1 := if e.clk_50Mhz then enable else r.enableSync1
  enableSync2 := if e.clk_50Mhz then r.enableSync1 else r.enableSync2
  ticks := if e.clk_50Mhz && r.enableSync2 then r.ticks + 1 else r.ticks
  tickGraySync1 := if e.clock then tickGray r else r.tickGraySync1
  tickGraySync2 := if e.clock then r.tickGraySync1 else r.tickGraySync2

def tickBinary (r : Regs) : Word :=
  [1, 2, 4, 8, 16].foldl (fun b shift => b ^^^ (b >>> shift)) r.tickGraySync2

/-- The decoder undoes the encoder of the other clock domain. -/
theorem tickBinary_of_gray {r r' : Regs} (h : r'.tickGraySync2 = tickGray r) :
    tickBinary r' = r.ticks := by
  rw [tickBinary, h]
  exact grayStages_decode (k := 5) r.ticks (by decide)

/-- The tick count crosses the clock domains as a Gray code: the reader decodes what the
counter encodes, consecutive counts differ in one bit of the code (also at the wrap to zero),
and a register that catches some bits before and some behind an increment reads one of the
two counts. -/
theorem sample_reads_old_or_new (r : Regs) :
    (∀ s : Regs, s.tickGraySync2 = tickGray r → tickBinary s = r.ticks) ∧
    (∃! k, (tickGray r).getLsbD k ≠ (tickGray { r with ticks := r.ticks + 1 }).getLsbD k) ∧
    ∀ s : Regs, BitsFrom (tickGray r) (tickGray { r with ticks := r.ticks + 1 }) s.tickGraySync2 →
      tickBinary s = r.ticks ∨ tickBinary s = r.ticks + 1 := by
  have honly := grayEncode_succ_existsUnique r.ticks (by decide)
  refine ⟨fun _ hs => tickBinary_of_gray hs, honly, ?_⟩
  intro s hs
  rcases honly with ⟨p, _, hp⟩
  rcases hs.eq_or_eq hp with hold | hnew
  · exact Or.inl (tickBinary_of_gray hold)
  · exact Or.inr (tickBinary_of_gray hnew)

end JYDFPGATickCounter

namespace SimpleBusFPGACounter

structure Regs where
  counter : JYDFPGATickCounter.Regs
  pipe : RespPipe

def next (r : Regs) (b : BusReq) (cntEnable : Bool) (e : JYDFPGATickCounter.Edges) : Regs where
  counter := JYDFPGATickCounter.next r.counter cntEnable e
  pipe :=
    if e.clock then r.pipe.next b.valid b.valid (JYDFPGATickCounter.tickBinary r.counter)
    else r.pipe

end SimpleBusFPGACounter

/-! ## The counter behind the bridge of the FPGA top -/

namespace FPGABus

structure Regs where
  perip : JYDPeripheralBridge.Regs
  cnt : SimpleBusFPGACounter.Regs

structure In where
  req : BusReq
  edges : JYDFPGATickCounter.Edges
  deriving DecidableEq, Repr

def next (r : Regs) (i : In) : Regs where
  perip := if i.edges.clock then JYDPeripheralBridge.next r.perip i.req else r.perip
  cnt := SimpleBusFPGACounter.next r.cnt (DataBus.select i.req .cnt) r.perip.cntEnableReg i.edges

/-- The response of the counter as the bridge passes it on. -/
def cntResp (r : Regs) : Valid Word where
  valid := r.perip.respValidPipe1 && r.perip.respSelPipe1 == .cnt && r.cnt.pipe.resp.valid
  bits := r.cnt.pipe.resp.bits

structure Reset (r : Regs) : Prop where
  cntEnableReg : r.perip.cntEnableReg = false
  respValidPipe0 : r.perip.respValidPipe0 = false
  respValidPipe1 : r.perip.respValidPipe1 = false
  counter : r.cnt.counter = ⟨false, false, 0, 0, 0⟩
  validPipe0 : r.cnt.pipe.validPipe0 = false
  respValidReg : r.cnt.pipe.respValidReg = false

def machine : Machine In Regs where
  init := Reset
  next := fun i r => next r i

end FPGABus

/-! ## Command histories -/

/-- What a bus cycle does to the enable of either counter. -/
def counterCommand (b : BusReq) (on : Bool) : Bool :=
  if b.valid && targetSel b.req.addr == .cnt && b.req.wen then
    (if b.req.wdata == 0x80000000#32 then true
     else if b.req.wdata == 0xffffffff#32 then false
     else on)
  else on

/-- Whether the counters run in cycle `t`. -/
def counterEnabled (req : ℕ → BusReq) : ℕ → Bool
  | 0 => false
  | t + 1 => counterCommand (req t) (counterEnabled req t)

section Counts

variable (on : ℕ → Bool)

/-- The enabled cycles before `t`. -/
def onCycles : ℕ → ℕ
  | 0 => 0
  | t + 1 => onCycles t + (on t).toNat

/-- The enabled cycles since the last start. -/
def streak : ℕ → ℕ
  | 0 => 0
  | t + 1 => if on t then streak t + 1 else 0

/-- The whole milliseconds before `t`, counted anew from every start. -/
def wholeMs : ℕ → ℕ
  | 0 => 0
  | t + 1 => wholeMs t + if on t && decide ((streak on t + 1) % 50000 = 0) then 1 else 0

/-- A millisecond needs its cycles. -/
theorem wholeMs_le (t : ℕ) : 50000 * wholeMs on t + streak on t % 50000 ≤ onCycles on t := by
  induction t with
  | zero => exact Nat.le_refl 0
  | succ t ih =>
    -- a stop forgets the cycles since the last whole millisecond
    cases h : on t with
    | false =>
      simp only [wholeMs, streak, onCycles, h, Bool.false_and, Bool.toNat_false]
      simp only [Bool.false_eq_true, if_false]
      omega
    | true =>
      simp only [wholeMs, streak, onCycles, h, Bool.true_and, Bool.toNat_true, if_true,
        decide_eq_true_eq]
      split <;> omega

theorem onCycles_eq_zero_iff (t : ℕ) : onCycles on t = 0 ↔ ∀ v < t, on v = false := by
  induction t with
  | zero => simp [onCycles]
  | succ t ih =>
    rw [onCycles, Nat.add_eq_zero_iff, ih]
    constructor
    · rintro ⟨hbefore, hlast⟩ v hv
      rcases Nat.lt_succ_iff_lt_or_eq.mp hv with hlt | rfl
      · exact hbefore v hlt
      · cases hon : on v with
        | false => rfl
        | true => simp [hon] at hlast
    · intro hall
      refine ⟨fun v hv => hall v (Nat.lt_succ_of_lt hv), ?_⟩
      rw [hall t (Nat.lt_succ_self t)]
      rfl

end Counts

/-! ## The simulated timer -/

section Simulated

variable {sizeInByte : ℕ} (S : Run (DataBus.machine sizeInByte))

def simEnabled : ℕ → Bool := counterEnabled (DataBus.requestAt S)

theorem start_at (t : ℕ) : (S.state t).cnt.start = simEnabled S t := by
  induction t with
  | zero => exact S.init.cntStart
  | succ t ih =>
    rw [simEnabled, counterEnabled, ← simEnabled, ← ih, S.step t]
    rfl

theorem cycleCounter_at (t : ℕ) :
    (S.state t).cnt.cycleCounter.toNat = streak (simEnabled S) t % 50000 := by
  induction t with
  | zero =>
    rw [S.init.cycleCounter]
    rfl
  | succ t ih =>
    have hmax : SimpleBusTimer.cycleCounterMax.toNat = 49999 := rfl
    have hnext : (S.state (t + 1)).cnt.cycleCounter =
        if simEnabled S t then
          (if (S.state t).cnt.cycleCounter == SimpleBusTimer.cycleCounterMax then 0
           else (S.state t).cnt.cycleCounter + 1)
        else 0 := by
      rw [S.step t, ← start_at]
      rfl
    rw [hnext, streak]
    cases simEnabled S t with
    | false => rfl
    | true =>
      simp only [if_true]
      -- the prescaler starts anew after its last cycle
      by_cases hlast : (S.state t).cnt.cycleCounter = SimpleBusTimer.cycleCounterMax
      · rw [if_pos (by simpa using hlast)]
        rw [hlast, hmax] at ih
        show 0 = _
        omega
      · rw [if_neg (by simpa using hlast)]
        have hne : (S.state t).cnt.cycleCounter.toNat ≠ 49999 :=
          fun h => hlast (BitVec.eq_of_toNat_eq (h.trans hmax.symm))
        have hone : (1 : BitVec 16).toNat = 1 := rfl
        rw [BitVec.toNat_add, hone]
        omega

/-- The simulated counter holds the whole milliseconds. -/
theorem timerMs_at (t : ℕ) :
    (S.state t).cnt.timerMs = BitVec.ofNat 32 (wholeMs (simEnabled S) t) := by
  induction t with
  | zero => exact S.init.timerMs
  | succ t ih =>
    have hmax : SimpleBusTimer.cycleCounterMax.toNat = 49999 := rfl
    have hnext : (S.state (t + 1)).cnt.timerMs =
        if simEnabled S t && (S.state t).cnt.cycleCounter == SimpleBusTimer.cycleCounterMax then
          (S.state t).cnt.timerMs + 1
        else (S.state t).cnt.timerMs := by
      rw [S.step t, ← start_at]
      rfl
    -- the prescaler is at its end exactly when a millisecond is complete
    have hfull : ((S.state t).cnt.cycleCounter == SimpleBusTimer.cycleCounterMax) =
        decide ((streak (simEnabled S) t + 1) % 50000 = 0) := by
      have hcycle := cycleCounter_at S t
      rw [Bool.eq_iff_iff, beq_iff_eq, decide_eq_true_eq, ← BitVec.toNat_inj, hmax]
      omega
    rw [hnext, hfull, wholeMs, ih]
    split
    · exact (BitVec.ofNat_add _ 1).symm
    · rfl

end Simulated

/-! ## The FPGA counter on the clock of the core -/

section Fpga

variable (F : Run FPGABus.machine)

/-- The core runs on the 50 MHz clock, as it does in the simulation. -/
def Lockstep : Prop := ∀ t, (F.input t).edges = ⟨true, true⟩

def fpgaEnabled : ℕ → Bool := counterEnabled fun t => (F.input t).req

variable {F} (hclk : Lockstep F)

include hclk

theorem counter_next (t : ℕ) :
    (F.state (t + 1)).cnt.counter =
      JYDFPGATickCounter.next (F.state t).cnt.counter (F.state t).perip.cntEnableReg
        ⟨true, true⟩ := by
  rw [F.step t, ← hclk t]
  rfl

theorem cntEnableReg_at (t : ℕ) : (F.state t).perip.cntEnableReg = fpgaEnabled F t := by
  induction t with
  | zero => exact F.init.cntEnableReg
  | succ t ih =>
    have hnext : (F.state (t + 1)).perip =
        JYDPeripheralBridge.next (F.state t).perip (F.input t).req := by
      rw [F.step t]
      show (if (F.input t).edges.clock then _ else _) = _
      rw [hclk t]
      rfl
    rw [hnext, fpgaEnabled, counterEnabled, ← fpgaEnabled, ← ih]
    rfl

theorem enableSync2_at (t : ℕ) : (F.state (t + 2)).cnt.counter.enableSync2 = fpgaEnabled F t := by
  rw [counter_next hclk (t + 1), ← cntEnableReg_at hclk t]
  show (F.state (t + 1)).cnt.counter.enableSync1 = _
  rw [counter_next hclk t]
  rfl

/-- The enable arrives in the 50 MHz domain after two cycles. -/
theorem ticks_at (t : ℕ) :
    (F.state (t + 2)).cnt.counter.ticks = BitVec.ofNat 32 (onCycles (fpgaEnabled F) t) := by
  induction t with
  | zero =>
    rw [counter_next hclk 1, counter_next hclk 0, F.init.counter]
    rfl
  | succ t ih =>
    have hnext : (F.state (t + 3)).cnt.counter.ticks =
        if (F.state (t + 2)).cnt.counter.enableSync2 then
          (F.state (t + 2)).cnt.counter.ticks + 1
        else (F.state (t + 2)).cnt.counter.ticks := by
      rw [counter_next hclk (t + 2)]
      simp only [JYDFPGATickCounter.next, Bool.true_and]
    rw [hnext, enableSync2_at hclk, ih, onCycles]
    cases fpgaEnabled F t with
    | false => rfl
    | true => exact (BitVec.ofNat_add _ 1).symm

/-- The count arrives in the core after two more. -/
theorem tickBinary_at (t : ℕ) :
    JYDFPGATickCounter.tickBinary (F.state (t + 4)).cnt.counter =
      BitVec.ofNat 32 (onCycles (fpgaEnabled F) t) := by
  have hgray : (F.state (t + 4)).cnt.counter.tickGraySync2 =
      JYDFPGATickCounter.tickGray (F.state (t + 2)).cnt.counter := by
    rw [counter_next hclk (t + 3)]
    show (F.state (t + 3)).cnt.counter.tickGraySync1 = _
    rw [counter_next hclk (t + 2)]
    rfl
  rw [JYDFPGATickCounter.tickBinary_of_gray hgray, ticks_at hclk]

/-- A read of the counter is answered with its value at the time of the request. -/
theorem cntResp_at {t : ℕ} (hv : (F.input t).req.valid = true)
    (hcnt : targetSel (F.input t).req.req.addr = .cnt) :
    FPGABus.cntResp (F.state (t + 2)) =
      ⟨true, JYDFPGATickCounter.tickBinary (F.state t).cnt.counter⟩ := by
  have hstep : ∀ k, F.state (k + 1) = FPGABus.next (F.state k) ⟨(F.input k).req, ⟨true, true⟩⟩ := by
    intro k
    rw [F.step k, ← hclk k]
    rfl
  rw [hstep (t + 1), hstep t]
  simp [FPGABus.cntResp, FPGABus.next, JYDPeripheralBridge.next, SimpleBusFPGACounter.next,
    RespPipe.next, RespPipe.resp, DataBus.select, hv, hcnt]

end Fpga

/-! ## The two registers compared -/

/-- A read of the counter register. -/
def ReadsCounter (b : BusReq) : Prop :=
  b.valid = true ∧ b.req.wen = false ∧ targetSel b.req.addr = .cnt

instance (b : BusReq) : Decidable (ReadsCounter b) :=
  inferInstanceAs (Decidable (_ ∧ _ ∧ _))

/-- What the read of cycle `t` returns in the simulation. -/
def simRead {sizeInByte : ℕ} (S : Run (DataBus.machine sizeInByte)) (t : ℕ) : Word :=
  (DataBus.respAt S (t + 2)).bits

/-- What the read of cycle `t` returns on the FPGA. -/
def fpgaRead (F : Run FPGABus.machine) (t : ℕ) : Word := (FPGABus.cntResp (F.state (t + 2))).bits

/-- `__am_timer_uptime`, in microseconds. -/
def amTimerUptime (ticks startTicks : Word) : Word := (ticks - startTicks) / 50#32

theorem simRead_eq {sizeInByte : ℕ} (S : Run (DataBus.machine sizeInByte)) {t : ℕ}
    (h : ReadsCounter (DataBus.requestAt S t)) :
    simRead S t = BitVec.ofNat 32 (wholeMs (simEnabled S) t) := by
  rcases h with ⟨hv, hread, hcnt⟩
  rw [simRead, DataBus.respAt_bits S hv hread, DataBus.answer_eq, hcnt, ← timerMs_at]
  rfl

theorem fpgaRead_eq {F : Run FPGABus.machine} (hclk : Lockstep F) {t : ℕ}
    (h : ReadsCounter (F.input (t + 4)).req) :
    fpgaRead F (t + 4) = BitVec.ofNat 32 (onCycles (fpgaEnabled F) t) := by
  rcases h with ⟨hv, _, hcnt⟩
  rw [fpgaRead, cntResp_at hclk hv hcnt, tickBinary_at hclk]

/-- Four cycles of synchronisers apart, the FPGA returns the number of enabled cycles and the
simulation the number of whole milliseconds.  As long as the former does not wrap, they
agree only if the counter has never been started. -/
theorem counters_agree_iff {sizeInByte : ℕ} (S : Run (DataBus.machine sizeInByte))
    (F : Run FPGABus.machine) (hclk : Lockstep F)
    (hsame : ∀ t, (F.input t).req = DataBus.requestAt S t) {t : ℕ}
    (hsim : ReadsCounter (DataBus.requestAt S t))
    (hfpga : ReadsCounter (DataBus.requestAt S (t + 4))) :
    (fpgaRead F (t + 4) = simRead S t ↔
      onCycles (simEnabled S) t % 2 ^ 32 = wholeMs (simEnabled S) t % 2 ^ 32) ∧
    (onCycles (simEnabled S) t < 2 ^ 32 →
      (fpgaRead F (t + 4) = simRead S t ↔ ∀ v < t, simEnabled S v = false)) := by
  have hen : fpgaEnabled F = simEnabled S := by
    rw [fpgaEnabled, funext hsame]
    rfl
  have hiff : fpgaRead F (t + 4) = simRead S t ↔
      onCycles (simEnabled S) t % 2 ^ 32 = wholeMs (simEnabled S) t % 2 ^ 32 := by
    rw [fpgaRead_eq hclk (hsame (t + 4) ▸ hfpga), simRead_eq S hsim, hen, ← BitVec.toNat_inj,
      BitVec.toNat_ofNat, BitVec.toNat_ofNat]
  refine ⟨hiff, fun hlt => ?_⟩
  -- fifty thousand cycles make one millisecond, so equal counts are zero
  have hms := wholeMs_le (simEnabled S) t
  rw [hiff, ← onCycles_eq_zero_iff]
  omega

/-! ### One start -/

/-- Start the counter, then read it in every cycle. -/
def startThenRead (t : ℕ) : BusReq :=
  if t = 0 then ⟨true, ⟨CNT, 2, true, 0x80000000#32, 0b1111⟩⟩ else ⟨true, ⟨CNT, 2, false, 0, 0⟩⟩

def startThenReadSim : Run (DataBus.machine 65536) :=
  (DataBus.machine 65536).runFrom (fun t => ⟨startThenRead t, 0⟩) PowerUp.bus PowerUp.busReset

def FPGABus.powerUp : FPGABus.Regs where
  perip := ⟨.dram, .dram, false, false, false⟩
  cnt := ⟨⟨false, false, 0, 0, 0⟩, ⟨false, false, 0, 0⟩⟩

def startThenReadFPGA : Run FPGABus.machine :=
  FPGABus.machine.runFrom (fun t => ⟨startThenRead t, ⟨true, true⟩⟩) FPGABus.powerUp
    ⟨rfl, rfl, rfl, rfl, rfl, rfl⟩

theorem startThenRead_enabled (t : ℕ) : counterEnabled startThenRead t = decide (0 < t) := by
  induction t with
  | zero => rfl
  | succ t ih =>
    rw [counterEnabled, ih]
    cases t with
    | zero => decide
    | succ t =>
      rw [startThenRead, if_neg (Nat.succ_ne_zero t)]
      simp [counterCommand]

/-- The counts of a counter that runs from cycle 1 on. -/
theorem counts_from_start (t : ℕ) :
    onCycles (fun v => decide (0 < v)) (t + 1) = t ∧ streak (fun v => decide (0 < v)) (t + 1) = t ∧
      wholeMs (fun v => decide (0 < v)) (t + 1) = t / 50000 := by
  induction t with
  | zero => decide
  | succ t ih =>
    rcases ih with ⟨hcycles, hstreak, hms⟩
    rw [onCycles, streak, wholeMs, hcycles, hstreak, hms]
    have hon : decide (0 < t + 1) = true := decide_eq_true (Nat.succ_pos t)
    simp only [hon, if_true, Bool.true_and, Bool.toNat_true, decide_eq_true_eq, true_and]
    split <;> omega

theorem startThenRead_reads (t : ℕ) : ReadsCounter (startThenRead (t + 1)) := by
  rw [startThenRead, if_neg (Nat.succ_ne_zero t)]
  decide

theorem startThenRead_sim (t : ℕ) :
    simRead startThenReadSim (t + 1) = BitVec.ofNat 32 (t / 50000) := by
  have hen : simEnabled startThenReadSim = fun v => decide (0 < v) := funext startThenRead_enabled
  rw [simRead_eq startThenReadSim (t := t + 1) (startThenRead_reads t), hen,
    (counts_from_start t).2.2]

theorem startThenRead_fpga (t : ℕ) :
    fpgaRead startThenReadFPGA (t + 5) = BitVec.ofNat 32 t := by
  have hen : fpgaEnabled startThenReadFPGA = fun v => decide (0 < v) :=
    funext startThenRead_enabled
  rw [fpgaRead_eq (t := t + 1) (fun _ => rfl) (startThenRead_reads (t + 4)), hen,
    (counts_from_start t).1]

/-- No latency makes the two registers agree after a start, and a second later the software
sees 20 microseconds in the simulation. -/
theorem counters_differ :
    (∀ latency, ∃ t, ReadsCounter (startThenRead t) ∧ ReadsCounter (startThenRead (t + latency)) ∧
      fpgaRead startThenReadFPGA (t + latency) ≠ simRead startThenReadSim t) ∧
    amTimerUptime (simRead startThenReadSim 50000001) 0 = 20#32 ∧
    amTimerUptime (fpgaRead startThenReadFPGA 50000005) 0 = 1000000#32 := by
  refine ⟨?_, ?_, ?_⟩
  · intro latency
    by_contra hnone
    -- the simulated counter is still zero, and the other one cannot be zero twice in a row
    have hzero : ∀ n < 50000, 4 ≤ n → BitVec.ofNat 32 (n + latency - 4) = 0#32 := by
      intro n hn hge
      by_contra hne
      refine hnone ⟨n + 1, startThenRead_reads n, ?_, ?_⟩
      · rw [Nat.add_right_comm]
        exact startThenRead_reads (n + latency)
      · have hcycle : n + 1 + latency = (n + latency - 4) + 5 := by omega
        rw [hcycle, startThenRead_fpga, startThenRead_sim, Nat.div_eq_of_lt hn]
        exact hne
    have h4 := congrArg BitVec.toNat (hzero 4 (by decide) (by decide))
    have h5 := congrArg BitVec.toNat (hzero 5 (by decide) (by decide))
    rw [BitVec.toNat_ofNat, BitVec.toNat_ofNat] at h4 h5
    omega
  · rw [startThenRead_sim 50000000]
    decide
  · rw [startThenRead_fpga 50000000]
    decide

/-! ### No start -/

/-- Read the counter in every cycle without starting it. -/
def neverStarted : BusReq := ⟨true, ⟨CNT, 2, false, 0, 0⟩⟩

theorem counters_agree_iff_oneStart :
    fpgaRead (FPGABus.machine.runFrom (fun _ => ⟨neverStarted, ⟨true, true⟩⟩) FPGABus.powerUp
        ⟨rfl, rfl, rfl, rfl, rfl, rfl⟩) 7 =
      simRead ((DataBus.machine 65536).runFrom (fun _ => ⟨neverStarted, 0⟩) PowerUp.bus
        PowerUp.busReset) 3 ∧
    fpgaRead startThenReadFPGA 9 ≠ simRead startThenReadSim 5 := by
  refine ⟨((counters_agree_iff _ _ (fun _ => rfl) (fun _ => rfl) (t := 3) (by decide)
    (by decide)).2 (by decide)).mpr (by decide), ?_⟩
  have hiff := (counters_agree_iff startThenReadSim startThenReadFPGA (fun _ => rfl) (fun _ => rfl)
    (t := 5) (by decide) (by decide)).2 (by decide)
  exact fun hsame => absurd (hiff.mp hsame 1 (by decide)) (by decide)

end Soc
end Jyd
