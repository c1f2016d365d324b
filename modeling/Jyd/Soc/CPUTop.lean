import Jyd.Core.ExuRequests
import Jyd.Core.Redirect
import Jyd.Soc.DualSimpleBusToAXI4
import Jyd.Soc.PowerUp

/-!
# CPUTop — the core behind the AXI4 bridge

A load or store leaves EXU when the bridge takes its request, and reaches WBU two
cycles later, whatever the slave does.  The response is there in that cycle exactly
when the slave takes the address at once and answers in the next cycle.
-/

namespace Jyd
namespace Soc
namespace CPUTop

open Hdl Jyd.Core

structure Regs where
  core : CPUCore.Regs
  memBridge : DualSimpleBusToAXI4.Regs

/-! ## Wires -/

variable (i : Axi4.Slave) (r : Regs)

def idleReq : BusReq := ⟨false, ⟨0, 0, false, 0, 0⟩⟩

/-- The responses of the bridge do not depend on the requests of the same cycle. -/
def bridgeResp (q : DualSimpleBusToAXI4.Requester) : Valid Word :=
  DualSimpleBusToAXI4.resp ⟨idleReq, idleReq, i⟩ r.memBridge q

/-- The wires of the core, but for the ready of its fetch port. -/
def dramIn : CPUCore.In where
  iromReqReady := false
  iromResp := bridgeResp i r .ifu
  dramReqReady := r.memBridge.state == .idle
  dramResp := bridgeResp i r .lsu

def dramReq : BusReq := ⟨CPUCore.dramReqValid r.core (dramIn i r), CPUCore.dramReq r.core (dramIn i r)⟩

def coreIn : CPUCore.In :=
  { dramIn i r with iromReqReady := r.memBridge.state == .idle && !(dramReq i r).valid }

def iromReq : BusReq where
  valid := CPUCore.iromReqValid r.core (coreIn i r)
  req := ⟨CPUCore.iromAddr r.core (coreIn i r), 2, false, 0, 0⟩

def bridgeIn : DualSimpleBusToAXI4.In := ⟨iromReq i r, dramReq i r, i⟩

def next : Regs where
  core := CPUCore.next r.core (coreIn i r)
  memBridge := DualSimpleBusToAXI4.next (bridgeIn i r) r.memBridge

structure Reset (r : Regs) : Prop where
  core : CPUCore.Reset r.core
  memBridge : DualSimpleBusToAXI4.Reset r.memBridge

def machine : Machine Axi4.Slave Regs where
  init := Reset
  next := next

variable {i r}

/-! ## The payload in EXU -/

/-- What holds of the core under every memory. -/
structure CoreOk (r : CPUCore.Regs) : Prop where
  exu : CPUCore.ExuOk r
  decoded : r.exuPipe.valid = true → Decoded r.exuPipe.bits

theorem CoreOk.next {r : CPUCore.Regs} {j : CPUCore.In} (h : CoreOk r) :
    CoreOk (CPUCore.next r j) where
  exu := CPUCore.exuOk_next h.exu h.decoded
  decoded := by
    intro hv
    simp only [CPUCore.next, Pipe.next] at hv ⊢
    split at hv
    · rename_i ha
      rw [if_pos ha]
      exact ⟨_, rfl⟩
    · rename_i ha
      rw [if_neg ha]
      exact h.decoded hv

theorem coreOk_of_reset {r : CPUCore.Regs} (h : CPUCore.Reset r) : CoreOk r where
  exu := EXU.Vacant.occupied
    ⟨h.exu.listReverseState, h.exu.xmsumState, h.exu.xdfaWordState, h.exu.csrPrepared,
      h.exu.capturedLateLoadValid, h.exu.lateOtherOperandCaptured⟩
  decoded := fun hv => absurd (h.exuPipe.symm.trans hv) (by decide)

/-- A load or store leaves EXU with its request. -/
theorem request_of_fire {r : CPUCore.Regs} {j : CPUCore.In} (h : CoreOk r)
    (hfire : CPUCore.exuInFire r j = true) (hmem : EXU.needMemReq r.exuPipe.bits = true) :
    CPUCore.dramReqValid r j = true ∧ j.dramReqReady = true ∧
      (CPUCore.dramReq r j).wen = EXU.isTypStore r.exuPipe.bits := by
  have hv := CPUCore.exuInValid_of_inFire hfire
  have hd := h.decoded (CPUCore.exuInValid_iff.mp hv).1
  have harith : EXU.isTypArithmetic r.exuPipe.bits = false :=
    Bool.eq_false_iff.mpr fun ha =>
      absurd ((EXU.not_needMemReq_of_arithmetic ha).symm.trans hmem) (by decide)
  rcases EXU.not_accelerator hd harith with ⟨hn, hl, hx⟩
  have hready : EXU.memReqFire r.exu (CPUCore.exuIn r j) = true := by
    have hin : EXU.inReady r.exu (CPUCore.exuIn r j) = true := by
      have hfire' : ((CPUCore.exuIn r j).valid && EXU.inReady r.exu (CPUCore.exuIn r j)) = true :=
        hfire
      exact (Bool.and_eq_true _ _ ▸ hfire').2
    simpa [EXU.inReady, CPUCore.exuIn, EXU.isNumericDfaStep, hn, hl, hx, hmem] using hin
  simp only [EXU.memReqFire, Bool.and_eq_true] at hready
  refine ⟨hready.1, hready.2, ?_⟩
  simp [CPUCore.dramReq, EXU.memReq, CPUCore.exuIn, EXU.isNumericDfaStep, hn, hl, hx]

/-! ## Loads and stores of a run -/

section Run

variable (R : Run machine)

/-- The bridge, as a system of its own. -/
def bridgeRun : Run DualSimpleBusToAXI4.machine where
  input := fun t => bridgeIn (R.input t) (R.state t)
  state := fun t => (R.state t).memBridge
  init := R.init.memBridge
  step := fun t => by
    rw [R.step t]
    rfl

def coreInAt (t : ℕ) : CPUCore.In := coreIn (R.input t) (R.state t)

def completesAt (t : ℕ) : Bool := CPUCore.exuInFire (R.state t).core (coreInAt R t)

/-- A load or store completes in EXU. -/
def memOpAt (t : ℕ) : Bool := completesAt R t && EXU.needMemReq (R.state t).core.exuPipe.bits

def loadAt (t : ℕ) : Bool := completesAt R t && EXU.isTypLoad (R.state t).core.exuPipe.bits

/-- The value that a load extracts from the word `data`. -/
def extracted (t : ℕ) (data : Word) : Word :=
  ExtLoadData data ((EXU.reg1AddImm (R.state t).core.exuPipe.bits).extractLsb' 0 2)
    (EXU.func3t (R.state t).core.exuPipe.bits)

theorem coreOk (t : ℕ) : CoreOk (R.state t).core :=
  R.invariant (fun s => CoreOk s.core) (fun _ h => coreOk_of_reset h.core)
    (fun _ _ h => h.next) t

variable {R} {t : ℕ}

theorem accepts_of_memOp (h : memOpAt R t = true) :
    DualSimpleBusToAXI4.acceptsAt (bridgeRun R) t .lsu = true := by
  simp only [memOpAt, Bool.and_eq_true] at h
  rcases request_of_fire (coreOk R t) h.1 h.2 with ⟨hv, hready, _⟩
  have hv' : (dramReq (R.input t) (R.state t)).valid = true := hv
  have hidle : ((R.state t).memBridge.state == .idle) = true := hready
  exact Bool.and_eq_true_iff.mpr ⟨hv', hidle⟩

theorem wen_of_memOp (h : memOpAt R t = true) :
    (DualSimpleBusToAXI4.requestAt (bridgeRun R) t .lsu).wen =
      EXU.isTypStore (R.state t).core.exuPipe.bits := by
  simp only [memOpAt, Bool.and_eq_true] at h
  exact (request_of_fire (coreOk R t) h.1 h.2).2.2

theorem lsuPipe_at (t : ℕ) :
    (R.state (t + 1)).core.lsuPipe =
      ⟨completesAt R t, EXU.outBits (R.state t).core.exu
        (CPUCore.exuIn (R.state t).core (coreInAt R t))⟩ := by
  have hcore : (R.state (t + 1)).core = CPUCore.next (R.state t).core (coreInAt R t) := by
    rw [R.step t]
    rfl
  rw [hcore, CPUCore.lsuPipe_next, CPUCore.exuOutValid_eq (coreOk R t).exu]
  rfl

theorem wbuPipe_at (t : ℕ) :
    (R.state (t + 1)).core.wbuPipe =
      ⟨(R.state t).core.lsuPipe.valid,
        LSU.outBits (R.state t).core.lsuPipe (DCache.readData (R.state t).core.dcache)⟩ := by
  have hcore : (R.state (t + 1)).core = CPUCore.next (R.state t).core (coreInAt R t) := by
    rw [R.step t]
    rfl
  rw [hcore, CPUCore.wbuPipe_next]

/-- WBU holds the load or store that completed two cycles before. -/
theorem wbu_memOp (t : ℕ) :
    ((R.state (t + 2)).core.wbuPipe.valid && (R.state (t + 2)).core.wbuPipe.bits.isMemOp) =
      memOpAt R t := by
  rw [wbuPipe_at (t + 1), lsuPipe_at t, memOpAt, EXU.needMemReq]
  cases completesAt R t with
  | false => rfl
  | true => simp [LSU.outBits, EXU.outBits, CPUCore.exuIn]

theorem wbu_early {k : ℕ} (hk : k < 2) : (R.state k).core.wbuPipe.valid = false := by
  rcases (by omega : k = 0 ∨ k = 1) with rfl | rfl
  · exact R.init.core.wbuPipe
  · rw [wbuPipe_at 0]
    exact R.init.core.lsuPipe

/-- What WBU writes for a load: the extracted part of the word on the response wires. -/
theorem gprWrite_of_load (h : loadAt R t = true) :
    CPUCore.gprWrite (R.state (t + 2)).core (coreInAt R (t + 2)) =
      ⟨true, (R.state t).core.exuPipe.bits.info.rd,
        extracted R t (coreInAt R (t + 2)).dramResp.bits⟩ := by
  simp only [loadAt, Bool.and_eq_true] at h
  have hv : CPUCore.exuInValid (R.state t).core = true := CPUCore.exuInValid_of_inFire h.1
  rcases (coreOk R t).decoded (CPUCore.exuInValid_iff.mp hv).1 with ⟨j, hj⟩
  have htyp : (IDU.metaInfo (IDU.inst j)).typ = .load := by
    have hl := h.2
    rw [hj] at hl
    simpa [EXU.isTypLoad, IDU.outBits, IDU.info] using hl
  have hwr : (R.state t).core.exuPipe.bits.info.rdWrEn = true := by
    rw [hj]
    simp [IDU.outBits, IDU.info, IDU.rdWrEn, IDU.isTyp, htyp]
  have hlane : EXU.isTypLoad (R.state t).core.exuPipe.bits = true := h.2
  simp only [CPUCore.gprWrite, WBU.gprEn, WBU.gprData, WBU.loadResult, wbuPipe_at (t + 1),
    lsuPipe_at t, LSU.outBits, EXU.outBits, EXU.writeBackInfo, ResultLaneSelect.anyValid,
    ResultLaneSelect.validVec, ResultLaneSelect.rd, CPUCore.exuIn, h.1, hlane, hwr, extracted]
  simp

/-- The response that a load or store finds in WBU is its own, and is there exactly when the
slave has no wait states. -/
theorem response_iff_prompt (h : memOpAt R t = true) :
    WBU.responseAssert (R.state (t + 2)).core.wbuPipe (coreInAt R (t + 2)).dramResp = true ↔
      DualSimpleBusToAXI4.Prompt (bridgeRun R) t .lsu := by
  rw [← (DualSimpleBusToAXI4.resp_of_accepts (accepts_of_memOp h)).2, WBU.responseAssert,
    wbu_memOp, h]
  exact Iff.rfl

theorem load_writes_own_data
    (hr : Axi4.Responsive (fun t => DualSimpleBusToAXI4.out (R.state t).memBridge) R.input)
    (h : loadAt R t = true) (hp : DualSimpleBusToAXI4.Prompt (bridgeRun R) t .lsu) :
    DualSimpleBusToAXI4.Served (bridgeRun R) t (t + 2) .lsu
        (DualSimpleBusToAXI4.requestAt (bridgeRun R) t .lsu) ∧
      CPUCore.gprWrite (R.state (t + 2)).core (coreInAt R (t + 2)) =
        ⟨true, (R.state t).core.exuPipe.bits.info.rd,
          extracted R t (R.input (t + 2)).r.bits.data⟩ := by
  have hmem : memOpAt R t = true := by
    simp only [loadAt, Bool.and_eq_true] at h
    simp [memOpAt, h.1, EXU.needMemReq, h.2]
  have hacc := accepts_of_memOp hmem
  have hresp := DualSimpleBusToAXI4.resp_of_accepts hacc
  have hvalid := hresp.2.mpr hp
  obtain ⟨t', htt', hserved⟩ := DualSimpleBusToAXI4.served (R := bridgeRun R) hr hacc
  -- the one response of the transaction is the one two cycles later
  obtain rfl : t' = t + 2 := by
    have hlast := (hserved.resp.2.2 t' htt' le_rfl).mpr rfl
    rcases Nat.lt_or_ge t' (t + 2) with hlt | hge
    · obtain rfl : t' = t + 1 := by omega
      exact absurd (hresp.1.symm.trans hlast) (by decide)
    · exact ((hserved.resp.2.2 (t + 2) (by omega) hge).mp hvalid).symm
  have hwen : (DualSimpleBusToAXI4.requestAt (bridgeRun R) t .lsu).wen = false := by
    rw [wen_of_memOp hmem]
    simp only [loadAt, Bool.and_eq_true, EXU.isTypLoad, beq_iff_eq] at h
    simp [EXU.isTypStore, h.2]
  have hbits : (coreInAt R (t + 2)).dramResp.bits = (R.input (t + 2)).r.bits.data :=
    (hserved.read hwen).2.2.1
  exact ⟨hserved, by rw [gprWrite_of_load h, hbits]⟩

end Run

/-! ## The contract -/

/-- Under a slave that serves every transaction: the response assertion of WBU holds in every
cycle and every load writes the data of its own transaction, exactly when the slave takes
the address of every load and store at once and answers in the next cycle. -/
theorem own_response_iff_prompt (R : Run machine)
    (hr : Axi4.Responsive (fun t => DualSimpleBusToAXI4.out (R.state t).memBridge) R.input) :
    ((∀ t, WBU.responseAssert (R.state t).core.wbuPipe (coreInAt R t).dramResp = true) ∧
      ∀ t, loadAt R t = true → ∃ t',
        DualSimpleBusToAXI4.Served (bridgeRun R) t t' .lsu
          (DualSimpleBusToAXI4.requestAt (bridgeRun R) t .lsu) ∧
        CPUCore.gprWrite (R.state (t + 2)).core (coreInAt R (t + 2)) =
          ⟨true, (R.state t).core.exuPipe.bits.info.rd,
            extracted R t (R.input t').r.bits.data⟩) ↔
      ∀ t, memOpAt R t = true → DualSimpleBusToAXI4.Prompt (bridgeRun R) t .lsu := by
  constructor
  · rintro ⟨hassert, -⟩ t hmem
    exact (response_iff_prompt hmem).mp (hassert (t + 2))
  · intro hprompt
    refine ⟨fun k => ?_, fun t hload => ?_⟩
    · rcases Nat.lt_or_ge k 2 with hk | hk
      · simp [WBU.responseAssert, wbu_early hk]
      · obtain ⟨t, rfl⟩ := Nat.exists_eq_add_of_le' hk
        cases hmem : memOpAt R t with
        | false => simp [WBU.responseAssert, wbu_memOp, hmem]
        | true => exact (response_iff_prompt hmem).mpr (hprompt t hmem)
    · have hmem : memOpAt R t = true := by
        simp only [loadAt, Bool.and_eq_true] at hload
        simp [memOpAt, hload.1, EXU.needMemReq, hload.2]
      exact ⟨t + 2, load_writes_own_data hr hload (hprompt t hmem)⟩

def powerUp : Regs := ⟨PowerUp.core, ⟨.idle, false, 0, 0, 0, 0, false, false, false⟩⟩

theorem reset_powerUp : Reset powerUp := ⟨PowerUp.coreReset, ⟨rfl, rfl, rfl, rfl⟩⟩

/-- The slave is ready and answers nothing. -/
def silent : Axi4.Slave := ⟨true, true, ⟨false, ⟨0, 0⟩⟩, true, ⟨false, ⟨0, 0, false, 0⟩⟩⟩

/-- `lui x1, 0x80100; lw x3, 0(x1); j 0`, and the word that is loaded. -/
def loadProgram (addr : Word) : Word :=
  if addr = 0x80000000#32 then 0x801000b7#32
  else if addr = 0x80000004#32 then 0x0000a183#32
  else if addr = 0x80100000#32 then 0x1234#32
  else 0x0000006f#32

/-- Every transfer is taken at once and answered in the next cycle, which the bridge spends
waiting for the answer. -/
def promptSlave (r : Regs) : Axi4.Slave :=
  { silent with
    b := ⟨r.memBridge.state == .waitB, ⟨Axi4.OKAY, 0⟩⟩
    r := ⟨r.memBridge.state == .waitR, ⟨loadProgram r.memBridge.reqAddr, Axi4.OKAY, true, 0⟩⟩ }

def promptState : ℕ → Regs
  | 0 => powerUp
  | t + 1 => next (promptSlave (promptState t)) (promptState t)

def promptRun : Run machine :=
  ⟨fun t => promptSlave (promptState t), promptState, reset_powerUp, fun _ => rfl⟩

theorem promptRun_waits (t : ℕ) :
    ((promptRun.state t).memBridge.state = .sendAR →
      (promptRun.state (t + 1)).memBridge.state = .waitR) ∧
    ((promptRun.state t).memBridge.state = .sendAWW →
      (promptRun.state (t + 1)).memBridge.state = .waitB) := by
  have hready : (promptRun.input t).arready = true ∧ (promptRun.input t).awready = true ∧
      (promptRun.input t).wready = true := ⟨rfl, rfl, rfl⟩
  rw [promptRun.step t]
  refine ⟨fun h => ?_, fun h => ?_⟩ <;>
    simp [machine, next, bridgeIn, DualSimpleBusToAXI4.next, DualSimpleBusToAXI4.nextState, h, hready]

theorem own_response_iff_prompt_promptRun :
    Axi4.CompliantUpTo (fun t => DualSimpleBusToAXI4.out (promptRun.state t).memBridge)
        promptRun.input 14 ∧
      loadAt promptRun 9 = true ∧
      (∀ t, WBU.responseAssert (promptRun.state t).core.wbuPipe (coreInAt promptRun t).dramResp =
        true) ∧
      CPUCore.gprWrite (promptRun.state 11).core (coreInAt promptRun 11) =
        ⟨true, 3#5, 0x1234#32⟩ := by
  have hr : Axi4.Responsive (fun t => DualSimpleBusToAXI4.out (promptRun.state t).memBridge)
      promptRun.input := by
    refine ⟨fun t _ => ⟨t, le_rfl, rfl⟩, fun t _ => ⟨t, le_rfl, rfl⟩, fun t _ => ⟨t, le_rfl, rfl⟩,
      fun t hfire => ⟨t + 1, by omega, ?_⟩, fun t t' haw hw => ⟨max t t' + 1, by omega, by omega, ?_⟩⟩
    · have hsend : (promptRun.state t).memBridge.state = .sendAR := by
        by_contra hno
        simp [Axi4.arFire, DualSimpleBusToAXI4.out, hno] at hfire
      exact beq_iff_eq.mpr ((promptRun_waits t).1 hsend)
    · have hsend : (promptRun.state (max t t')).memBridge.state = .sendAWW := by
        by_contra hno
        rcases max_choice t t' with h | h <;> rw [h] at hno <;>
          simp [Axi4.awFire, Axi4.wFire, DualSimpleBusToAXI4.out, hno] at haw hw
      exact beq_iff_eq.mpr ((promptRun_waits _).2 hsend)
  have hprompt : ∀ t, memOpAt promptRun t = true →
      DualSimpleBusToAXI4.Prompt (bridgeRun promptRun) t .lsu := by
    intro t hmem
    have hstart := (DualSimpleBusToAXI4.holds_of_accepts (accepts_of_memOp hmem)).1.state
    rw [DualSimpleBusToAXI4.Prompt]
    cases hwen : (DualSimpleBusToAXI4.requestAt (bridgeRun promptRun) t .lsu).wen with
    | false =>
      rw [show (DualSimpleBusToAXI4.req _ _).req.wen = false from hwen] at hstart
      exact beq_iff_eq.mpr ((promptRun_waits (t + 1)).1 hstart)
    | true =>
      rw [show (DualSimpleBusToAXI4.req _ _).req.wen = true from hwen] at hstart
      exact beq_iff_eq.mpr ((promptRun_waits (t + 1)).2 hstart)
  exact ⟨by decide +kernel, by decide +kernel,
    ((own_response_iff_prompt promptRun hr).mpr hprompt).1, by decide +kernel⟩

def readData (w : Word) : Axi4.Slave := { silent with r := ⟨true, ⟨w, Axi4.OKAY, true, 0⟩⟩ }

/-- `lui x1, 0x80100; lw x3, 0(x1); nop`, each fetched without wait states; the data read is
answered one cycle later than it could be. -/
def slowRead : List Axi4.Slave :=
  [silent, silent, readData 0x801000b7#32, silent, silent, readData 0x0000a183#32,
    silent, silent, readData 0x00000013#32, silent, silent, silent, readData 0x1234#32]

def slowRun : Run machine :=
  machine.runFrom (fun t => slowRead.getD t silent) powerUp reset_powerUp

/-- One wait state, and the load writes `0` to `x3` while the assertion fires; its data come
in the next cycle. -/
theorem load_before_response :
    Axi4.CompliantUpTo (fun t => DualSimpleBusToAXI4.out (slowRun.state t).memBridge)
        slowRun.input 14 ∧
      loadAt slowRun 9 = true ∧
      (DualSimpleBusToAXI4.firesAt (bridgeRun slowRun) 10).ar = true ∧
      WBU.responseAssert (slowRun.state 11).core.wbuPipe (coreInAt slowRun 11).dramResp = false ∧
      CPUCore.gprWrite (slowRun.state 11).core (coreInAt slowRun 11) = ⟨true, 3#5, 0#32⟩ ∧
      (DualSimpleBusToAXI4.firesAt (bridgeRun slowRun) 12).r = true ∧
      DualSimpleBusToAXI4.respAt (bridgeRun slowRun) 12 .lsu = ⟨true, 0x1234#32⟩ := by
  refine ⟨by decide +kernel, by decide +kernel, by decide +kernel, by decide +kernel,
    by decide +kernel, by decide +kernel, by decide +kernel⟩

end CPUTop
end Soc
end Jyd
