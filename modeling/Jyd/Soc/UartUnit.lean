import Jyd.Soc.AxiMemUnit
import Jyd.Soc.JydDevices
import Mathlib.Data.List.GetD

/-!
# UartUnit — the simulation UART behind an AXI4 port, and both slaves together

`UARTUnit` turns a write with address and data, or a read, into one request of the simple
bus and answers it in the one cycle in which that bus responds.  The last connections of
the module overwrite `rlast` and both ids with zero.
-/

namespace Jyd
namespace Soc

open Hdl Axi4 Jyd.Core

namespace UARTUnit

structure Regs where
  waitingResp : Bool
  pendingRead : Bool
  pendingId : BitVec 4
  uartBus : SimpleBusUART.Regs

/-- The master's wires, and the character the host would deliver. -/
structure In where
  bus : Master
  ch : Word

variable (i : In) (r : Regs)

def writeReqFire : Bool := !r.waitingResp && i.bus.aw.valid && i.bus.w.valid
def readReqFire : Bool := !r.waitingResp && !writeReqFire i r && i.bus.ar.valid
def reqFire : Bool := writeReqFire i r || readReqFire i r

def busReq : BusReq where
  valid := reqFire i r
  req :=
    { addr := if writeReqFire i r then i.bus.aw.bits.addr else i.bus.ar.bits.addr
      size := if writeReqFire i r then i.bus.aw.bits.size else i.bus.ar.bits.size
      wen := writeReqFire i r
      wdata := i.bus.w.bits.data
      wmask := i.bus.w.bits.strb }

def respValid : Bool := (SimpleBusUART.resp r.uartBus).valid

def slave : Slave where
  awready := !r.waitingResp && i.bus.w.valid
  wready := !r.waitingResp && i.bus.aw.valid
  b := ⟨r.waitingResp && !r.pendingRead && respValid r, ⟨OKAY, 0⟩⟩
  arready := !r.waitingResp && !writeReqFire i r
  r :=
    ⟨r.waitingResp && r.pendingRead && respValid r,
      ⟨(SimpleBusUART.resp r.uartBus).bits, OKAY, false, 0⟩⟩

def next : Regs where
  waitingResp :=
    if r.waitingResp && respValid r then false
    else if reqFire i r then true
    else r.waitingResp
  pendingRead := if reqFire i r then readReqFire i r else r.pendingRead
  pendingId :=
    if reqFire i r then (if writeReqFire i r then i.bus.aw.bits.id else i.bus.ar.bits.id)
    else r.pendingId
  uartBus := SimpleBusUART.next r.uartBus (busReq i r) i.ch

structure Reset (r : Regs) : Prop where
  waitingResp : r.waitingResp = false
  pendingRead : r.pendingRead = false
  validPipe0 : r.uartBus.validPipe0 = false
  respValidReg : r.uartBus.respValidReg = false

def machine : Machine In Regs where
  init := Reset
  next := next

/-! ## Writes over a run -/

/-- No read is accepted, and a write response is taken when it is offered. -/
structure Polite (i : In) (r : Regs) : Prop where
  read : arFire i.bus (slave i r) = false
  write : (slave i r).b.valid = true → i.bus.bready = true

/-- The write under way, by the stage of the UART pipeline it has reached. -/
inductive Phase (r : Regs) (l : Log) : Prop
  | quiet (waiting : r.waitingResp = false) (pipe : r.uartBus.validPipe0 = false)
      (resp : r.uartBus.respValidReg = false) (aws : l.aws = l.bs) (ws : l.ws = l.bs)
  | requested (waiting : r.waitingResp = true) (read : r.pendingRead = false)
      (pipe : r.uartBus.validPipe0 = true) (resp : r.uartBus.respValidReg = false)
      (aws : l.aws = l.bs + 1) (ws : l.ws = l.bs + 1)
  | responding (waiting : r.waitingResp = true) (read : r.pendingRead = false)
      (pipe : r.uartBus.validPipe0 = false) (resp : r.uartBus.respValidReg = true)
      (aws : l.aws = l.bs + 1) (ws : l.ws = l.bs + 1)

variable {i r} {l : Log}

/-- While a request is under way, no other one is accepted. -/
theorem no_request (h : r.waitingResp = true) :
    reqFire i r = false ∧ awFire i.bus (slave i r) = false ∧ wFire i.bus (slave i r) = false := by
  simp [reqFire, readReqFire, writeReqFire, awFire, wFire, slave, h]

theorem phase_next (h : Phase r l) (hp : Polite i r) :
    Phase (next i r) (l.watch i.bus (slave i r)) := by
  cases h with
  | quiet waiting pipe resp aws ws =>
    have hb : bFire i.bus (slave i r) = false := by simp [bFire, slave, waiting]
    -- reads are excluded: their response has no R channel to go to
    have hread : readReqFire i r = false := by
      have hr := hp.read
      simp only [arFire, slave] at hr
      rw [readReqFire, Bool.and_comm]
      exact hr
    -- address and data are taken together or not at all
    have haw : awFire i.bus (slave i r) = writeReqFire i r := by
      simp [awFire, slave, writeReqFire, waiting]
    have hw : wFire i.bus (slave i r) = writeReqFire i r := by
      simp [wFire, slave, writeReqFire, waiting, Bool.and_comm]
    cases hwr : writeReqFire i r with
    | false =>
      have hreq : reqFire i r = false := by simp [reqFire, hwr, hread]
      refine Phase.quiet ?_ ?_ ?_ ?_ ?_
      · simp [next, waiting, hreq]
      · simp [next, SimpleBusUART.next, busReq, hreq]
      · simp [next, SimpleBusUART.next, pipe]
      · simp [haw, hwr, hb, aws]
      · simp [hw, hwr, hb, ws]
    | true =>
      have hreq : reqFire i r = true := by simp [reqFire, hwr]
      refine Phase.requested ?_ ?_ ?_ ?_ ?_ ?_
      · simp [next, waiting, hreq]
      · simp [next, hreq, hread]
      · simp [next, SimpleBusUART.next, busReq, hreq]
      · simp [next, SimpleBusUART.next, pipe]
      · simp [haw, hwr, hb, aws]
      · simp [hw, hwr, hb, ws]
  | requested waiting read pipe resp aws ws =>
    obtain ⟨hreq, haw, hw⟩ := no_request (i := i) waiting
    have hresp : respValid r = false := resp
    have hb : bFire i.bus (slave i r) = false := by simp [bFire, slave, hresp]
    refine Phase.responding ?_ ?_ ?_ ?_ ?_ ?_
    · simp [next, waiting, hresp]
    · simp [next, hreq, read]
    · simp [next, SimpleBusUART.next, busReq, hreq]
    · simp [next, SimpleBusUART.next, pipe]
    · simp [haw, hb, aws]
    · simp [hw, hb, ws]
  | responding waiting read pipe resp aws ws =>
    obtain ⟨hreq, haw, hw⟩ := no_request (i := i) waiting
    have hresp : respValid r = true := resp
    -- the response is offered for this one cycle, and the master takes it
    have hv : (slave i r).b.valid = true := by simp [slave, waiting, read, hresp]
    have hb : bFire i.bus (slave i r) = true := by simp [bFire, hv, hp.write hv]
    refine Phase.quiet ?_ ?_ ?_ ?_ ?_
    · simp [next, waiting, hresp]
    · simp [next, SimpleBusUART.next, busReq, hreq]
    · simp [next, SimpleBusUART.next, pipe]
    · simp [haw, hb, aws]
    · simp [hw, hb, ws]

theorem Phase.rvalid (h : Phase r l) : (slave i r).r.valid = false := by
  cases h with
  | quiet waiting _ _ _ _ => simp [slave, waiting]
  | requested _ read _ _ _ _ => simp [slave, read]
  | responding _ read _ _ _ _ => simp [slave, read]

section Run

variable (R : Run machine)

def logAt : ℕ → Log := R.observe Log.empty fun i r => Log.watch i.bus (slave i r)

variable {R} {t : ℕ}

theorem log_succ (R : Run machine) (t : ℕ) : logAt R (t + 1) =
    (logAt R t).watch (R.input t).bus (slave (R.input t) (R.state t)) := rfl

theorem phase (hp : ∀ t, Polite (R.input t) (R.state t)) (t : ℕ) :
    Phase (R.state t) (logAt R t) := by
  induction t with
  | zero =>
    have hr := R.init
    exact Phase.quiet hr.waitingResp hr.validPipe0 hr.respValidReg rfl rfl
  | succ t ih =>
    rw [R.step t, log_succ]
    exact phase_next ih (hp t)

theorem no_reads (hp : ∀ t, Polite (R.input t) (R.state t)) (t : ℕ) :
    (logAt R t).answered = [] ∧ (logAt R t).waiting = [] ∧ (logAt R t).stray = 0 := by
  induction t with
  | zero => exact ⟨rfl, rfl, rfl⟩
  | succ t ih =>
    have hr : rFire (R.input t).bus (slave (R.input t) (R.state t)) = false := by
      simp [rFire, (phase hp t).rvalid]
    rw [log_succ, Log.watch_of_no_beat hr, (hp t).read]
    exact ⟨ih.1, by simp [ih.2.1], ih.2.2⟩

theorem wellServed (hp : ∀ t, Polite (R.input t) (R.state t)) (t : ℕ) :
    (logAt R t).WellServed := by
  obtain ⟨hans, hwait, hstray⟩ := no_reads hp t
  refine ⟨hstray, ?_, ?_, ?_, ?_⟩
  · simp [hans]
  · simp [hwait]
  · cases phase hp t <;> omega
  · cases phase hp t <;> omega

theorem aws_mono {t u : ℕ} (h : t ≤ u) : (logAt R t).aws ≤ (logAt R u).aws :=
  R.observe_mono _ _ Log.aws (fun _ _ _ => Log.aws_le_watch _ _ _) h

/-- A request is answered within two cycles. -/
theorem responds : R.LeadsTo
    (fun r => (r.waitingResp = true ∧ r.uartBus.respValidReg = true) ∨
      (r.waitingResp = true ∧ r.uartBus.validPipe0 = true ∧ r.uartBus.respValidReg = false))
    (fun r => r.waitingResp = false) := by
  have hresp : R.LeadsTo (fun r => r.waitingResp = true ∧ r.uartBus.respValidReg = true)
      (fun r => r.waitingResp = false) := by
    refine Run.LeadsTo.of_step ?_
    intro i r h
    simp [machine, next, respValid, SimpleBusUART.resp, h.1, h.2]
  have hreq : R.LeadsTo
      (fun r => r.waitingResp = true ∧ r.uartBus.validPipe0 = true ∧ r.uartBus.respValidReg = false)
      (fun r => r.waitingResp = false) := by
    refine Run.LeadsTo.trans (Run.LeadsTo.of_step ?_) hresp
    intro i r h
    simp [machine, next, respValid, SimpleBusUART.resp, SimpleBusUART.next, h.1, h.2.1, h.2.2]
  exact hresp.or hreq

theorem writes_answered (hp : ∀ t, Polite (R.input t) (R.state t)) (t : ℕ) :
    ∃ u, t ≤ u ∧ min (logAt R t).aws (logAt R t).ws ≤ (logAt R u).bs := by
  have hquiet : ∀ u, t ≤ u → (R.state u).waitingResp = false →
      min (logAt R t).aws (logAt R t).ws ≤ (logAt R u).bs := by
    intro u htu hu
    have hmono := aws_mono (R := R) htu
    cases phase hp u with
    | quiet _ _ _ aws _ => omega
    | requested waiting _ _ _ _ _ => simp [waiting] at hu
    | responding waiting _ _ _ _ _ => simp [waiting] at hu
  have hend : ∃ u, t ≤ u ∧ (R.state u).waitingResp = false := by
    cases phase hp t with
    | quiet waiting _ _ _ _ => exact ⟨t, Nat.le_refl t, waiting⟩
    | requested waiting _ pipe resp _ _ => exact responds t (Or.inr ⟨waiting, pipe, resp⟩)
    | responding waiting _ _ resp _ _ => exact responds t (Or.inl ⟨waiting, resp⟩)
  obtain ⟨u, htu, hu⟩ := hend
  exact ⟨u, htu, hquiet u htu hu⟩

end Run

/-! ## Runs of a scripted master -/

def powerUp : Regs := ⟨false, false, 0, ⟨0xff, false, false, false, false, false, 0⟩⟩

def scripted (script : List Master) (rest : Master) : Run machine :=
  machine.runFrom (fun t => ⟨script.getD t rest, 0x41⟩) powerUp ⟨rfl, rfl, rfl, rfl⟩

end UARTUnit

/-! ## Both slaves -/

/-- Under polite masters both slaves answer every read with its beats in address order and
one mark on the last, and every write with one response. -/
theorem axi_slaves_answer {sizeInByte : ℕ} (R : Run (AXI4MemUnit.machine sizeInByte))
    (hR : ∀ t, AXI4MemUnit.Polite (R.input t) (R.state t)) (U : Run UARTUnit.machine)
    (hU : ∀ t, UARTUnit.Polite (U.input t) (U.state t)) (t : ℕ) :
    ((AXI4MemUnit.logAt R t).WellServed ∧
      (∀ q ∈ (AXI4MemUnit.logAt R t).answered, AXI4MemUnit.InAddressOrder R q) ∧
      (R.Recurs (fun i => i.bus.rready = true) →
        ∃ u, t ≤ u ∧ (AXI4MemUnit.logAt R t).reads ≤ (AXI4MemUnit.logAt R u).answered.length) ∧
      (R.Recurs (fun i => i.bus.bready = true) →
        ∃ u, t ≤ u ∧ min (AXI4MemUnit.logAt R t).aws (AXI4MemUnit.logAt R t).ws ≤
          (AXI4MemUnit.logAt R u).bs)) ∧
    ((UARTUnit.logAt U t).WellServed ∧
      ∃ u, t ≤ u ∧ min (UARTUnit.logAt U t).aws (UARTUnit.logAt U t).ws ≤
        (UARTUnit.logAt U u).bs) := by
  refine ⟨⟨AXI4MemUnit.wellServed hR t, ?_, ?_, ?_⟩, UARTUnit.wellServed hU t,
    UARTUnit.writes_answered hU t⟩
  · exact fun q hq => ((AXI4MemUnit.readInv hR t).answered q hq).2
  · exact fun hready => AXI4MemUnit.reads_answered hR hready t
  · exact fun hready => AXI4MemUnit.writes_answered hR hready t

namespace AXI4MemUnit

/-- A read of two words under a master that is always ready. -/
def twoWords : Run (machine 64) := scripted [Master.read 0 1 true] (Master.idle true true)

theorem twoWords_polite (t : ℕ) : Polite (twoWords.input t) (twoWords.state t) := by
  cases t with
  | zero => exact ⟨fun _ => ⟨rfl, by decide⟩, fun h => absurd h (by decide)⟩
  | succ t => exact ⟨fun h => by simp [twoWords, scripted, Machine.runFrom, arFire, Master.idle] at h,
      fun _ => by simp [twoWords, scripted, Machine.runFrom, awFire, wFire, Master.idle]⟩

/-- A second read arrives while the only beat of the first one waits. -/
def earlyRead : Run (machine 64) :=
  scripted [Master.read 0 0 false, Master.idle true false, Master.idle true false,
    Master.read 8 0 false] (Master.idle true true)

/-- A burst of seventeen words. -/
def longBurst : Run (machine 64) := scripted [Master.read 0 16 true] (Master.idle true true)

/-- A second write arrives while the response of the first one waits. -/
def earlyWrite : Run (machine 64) :=
  scripted [Master.write 0 5 false, Master.idle false true, Master.idle false true,
    Master.idle false true, Master.idle false true, Master.write 4 6 false] (Master.idle true true)

end AXI4MemUnit

namespace UARTUnit

def oneWrite : Run machine := scripted [Master.write 0 0x41 true] (Master.idle true true)

theorem oneWrite_polite (t : ℕ) : Polite (oneWrite.input t) (oneWrite.state t) := by
  cases t with
  | zero => exact ⟨by decide, fun _ => rfl⟩
  | succ t => exact ⟨by simp [oneWrite, scripted, Machine.runFrom, arFire, Master.idle], fun _ => rfl⟩

def oneRead : Run machine := scripted [Master.read 0 0 true] (Master.idle true true)

/-- The master is not ready in the one cycle of the response. -/
def lateReady : Run machine :=
  scripted [Master.write 0 0x41 true, Master.idle true true, Master.idle false true]
    (Master.idle true true)

end UARTUnit

theorem axi_slaves_answer_twoWords :
    (AXI4MemUnit.logAt AXI4MemUnit.twoWords 1).reads = 1 ∧
      (UARTUnit.logAt UARTUnit.oneWrite 1).aws = 1 ∧
      (∃ u, 1 ≤ u ∧ (AXI4MemUnit.logAt AXI4MemUnit.twoWords 1).reads ≤
        (AXI4MemUnit.logAt AXI4MemUnit.twoWords u).answered.length) ∧
      ∃ u, 1 ≤ u ∧ min (UARTUnit.logAt UARTUnit.oneWrite 1).aws
        (UARTUnit.logAt UARTUnit.oneWrite 1).ws ≤ (UARTUnit.logAt UARTUnit.oneWrite u).bs := by
  have h := axi_slaves_answer AXI4MemUnit.twoWords AXI4MemUnit.twoWords_polite UARTUnit.oneWrite
    UARTUnit.oneWrite_polite 1
  refine ⟨by decide, by decide, h.1.2.2.1 ?_, h.2.2⟩
  intro t
  exact ⟨t + 1, Nat.le_succ t, rfl⟩

/-- The read that came early is never answered, a burst of seventeen words gets sixteen with
a mark on the sixteenth, the write that came early gets no response, a read of the UART gets
no mark, and its write response is gone when the master was not ready. -/
theorem slaves_lose_requests :
    ((AXI4MemUnit.logAt AXI4MemUnit.earlyRead 6).reads = 2 ∧
      ∀ t, 6 ≤ t → (AXI4MemUnit.logAt AXI4MemUnit.earlyRead t).answered.length = 1) ∧
    (AXI4MemUnit.logAt AXI4MemUnit.longBurst 40).waiting.map (fun q => q.beats.map RData.last) =
      [List.replicate 15 false ++ [true]] ∧
    ((AXI4MemUnit.logAt AXI4MemUnit.earlyWrite 12).aws = 2 ∧
      (AXI4MemUnit.logAt AXI4MemUnit.earlyWrite 12).ws = 2 ∧
      (AXI4MemUnit.logAt AXI4MemUnit.earlyWrite 12).bs = 1 ∧
      (AXI4MemUnit.earlyWrite.state 12).bState = .idle) ∧
    (UARTUnit.logAt UARTUnit.oneRead 5).answered.map (fun q => q.beats.map RData.last) =
      [[false]] ∧
    ((UARTUnit.logAt UARTUnit.lateReady 5).aws = 1 ∧ (UARTUnit.logAt UARTUnit.lateReady 5).bs = 0 ∧
      (UARTUnit.lateReady.state 5).waitingResp = false) := by
  refine ⟨⟨by decide +kernel, ?_⟩, by decide +kernel, by decide +kernel, by decide +kernel,
    by decide +kernel⟩
  intro t ht
  have hq : AXI4MemUnit.Quiet (AXI4MemUnit.earlyRead.state 6) :=
    ⟨by decide +kernel, by decide +kernel, by decide +kernel⟩
  have hno : ∀ t, 6 ≤ t → (AXI4MemUnit.earlyRead.input t).bus.ar.valid = false := by
    intro t ht
    have hrest : (AXI4MemUnit.earlyRead.input t).bus = Master.idle true true :=
      List.getD_eq_default _ _ (le_trans (by decide) ht)
    rw [hrest]
    rfl
  rw [AXI4MemUnit.answered_of_quiet hq hno ht]
  decide +kernel

end Soc
end Jyd
