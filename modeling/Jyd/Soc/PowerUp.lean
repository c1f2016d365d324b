import Jyd.Soc.JydSoC

/-!
# PowerUp — a reset state and the run of a program

Registers without a reset value may start with anything.  Here they start with
zero, which makes every program run deterministic under a fixed memory timing.
-/

namespace Jyd
namespace Soc

open Hdl Jyd.Core

/-! ## Registers of the core -/

namespace PowerUp

def exu : EXU.Regs where
  listReverse := ⟨.idle, 0, 0, 0, 0, 0, 0, false, false, false, false, 0, false, 0⟩
  xmsum := ⟨.idle, 0, 0, 0, 0, 0, 0, false, 0, 0, 0, false, 0⟩
  numericDfa := ⟨fun _ => 0, fun _ => 0, 0, .idle, 0, 0, 0, 0, 0, 0, 0, 0⟩
  csr := ⟨false, 0, 0, false, 0, 0, false, ⟨0, fun _ => 0⟩⟩
  alu :=
    { bExtension := ⟨.idle, .clz, 0, 0, 0, 0, 0, 0, false, 0, 0, false, 0⟩
      multiplier :=
        ⟨.idle, false, false, false, 0, 0, 0, 0, 0, 0, (0, 0, 0, 0), (0, 0, 0), 0, 0⟩
      divider := ⟨.idle, false, false, 0, 0, 0, 0, 0⟩ }
  capturedLateLoadValid := false
  capturedLateLoadData := 0
  lateOtherOperandCaptured := false
  capturedLateOtherRegV1 := 0
  capturedLateOtherRegV2 := 0

def info : DecodedInstInfo where
  fmt := .imm
  typ := .arithmetic
  imm := 0
  rd := 0
  rs1 := 0
  rs2 := 0
  rdWrEn := false
  reg1 := 0
  reg2 := 0
  staticNextPCOrCSRTarget := 0
  pcAddImm := 0
  reg1AddImm := 0
  lateLoadRs1 := false
  lateLoadRs2 := false
  fastAluRs1 := 0
  fastAluRs2 := 0
  fastBranchRs1 := 0
  fastBranchRs2 := 0
  fastStoreRs2 := 0
  adjacentFastBranch := false
  resultKind := .fastInt
  bExtValid := false
  crcValid := false
  xbmulValid := false
  listReverseValid := false
  listReverseStep := false
  listReverseLoop := false
  xmsumValid := false
  numericDfaValid := false
  aluIsSub := false
  isECall := false
  isMRet := false
  is_beq := false
  is_bne := false
  is_blt := false
  is_bge := false
  is_bltu := false
  is_bgeu := false
  notBranchPredWrong := false
  preMuxWrBackData := 0

def lane : ResultLane := ⟨false, 0, 0⟩

def writeBack : WriteBackInfo :=
  ⟨.fastInt, lane, lane, lane, lane, ⟨false, 0⟩, false, false, 0, 0, 0, 0, false, false, false, 0⟩

def lsuInput : LSUInput := ⟨false, false, 0, false, false, 0, false, 0, false, false, writeBack⟩

def pred : PredBundle := ⟨0, false, false⟩

def request : IFU.Request := ⟨0, pred, 0, false⟩

def core : CPUCore.Regs where
  pipelineEpoch := false
  redirectPendingReg := false
  redirectEpochReg := false
  pc := CPUCore.INIT_PC
  branchUpdateFireReg := false
  branchUpdate := ⟨0, 0, false, false, false, false, false⟩
  lateRedirectNow := false
  dcacheStoreEpoch := false
  previousDcacheStoreMutation := false
  gprs := fun _ => 0
  ifu := ⟨.idle, request, request, 0, 0⟩
  exu := exu
  dcache := ⟨fun _ _ => 0, fun _ => 0, fun _ _ => 0, fun _ _ _ => 0, false⟩
  btb :=
    ⟨fun _ => BTB.BTBEntry.zero, fun _ => BTB.BTBUpdateState.zero, 0, false, false, 0,
      BTB.BTBEntry.zero, BTB.BTBUpdateState.zero⟩
  bp := ⟨fun _ => 0, false, 0⟩
  iduPipe := ⟨false, ⟨0, 0, 0, false, pred⟩⟩
  exuPipe := ⟨false, ⟨0, 0, 0, false, false, info⟩⟩
  lsuPipe := ⟨false, lsuInput⟩
  wbuPipe := ⟨false, writeBack⟩

/-! ## Registers of the data bus -/

def respPipe : RespPipe := ⟨false, false, 0, 0⟩

def bus : DataBus.Regs where
  perip := ⟨.dram, .dram, false, false, false⟩
  dram := ⟨fun _ => 0, respPipe⟩
  led := ⟨0, respPipe⟩
  seg := ⟨0, respPipe⟩
  cnt := ⟨false, 0, 0, respPipe⟩
  uart := ⟨0xff, false, false, false, false, false, 0⟩

theorem exuReset : CPUCore.EXUReset exu := by
  constructor <;> first | rfl | intro _; rfl

theorem coreReset : CPUCore.Reset core := by
  constructor <;> first | exact exuReset | rfl | intros; rfl

theorem busReset : DataBus.Reset bus := by
  constructor <;> rfl

end PowerUp

/-! ## An instruction on its own -/

/-- IDU with a read port that returns `base`, and no producer in the pipeline. -/
def decoding (code base : Word) : IDU.In where
  valid := true
  bits := ⟨code, 0x80000000#32, 0, false, PowerUp.pred⟩
  rdata1 := base
  rdata2 := 0
  exu := ⟨0, false, false, 0, .fastInt⟩
  lsu := ⟨0, false, false, 0, .fastInt⟩
  lateLoadProducer := false
  outReady := true

/-- EXU with the instruction that IDU hands over. -/
def exuOf (j : IDU.In) : EXU.In where
  valid := true
  dinst := IDU.outBits j
  lateLoadLSU := ⟨false, false, 0, 0, 0, 0⟩
  lateLoadWBU := ⟨false, false, 0, 0, 0, 0⟩
  previousStageFwd := ⟨0, false, false, 0, .fastInt⟩
  dcacheHit := false
  dcacheReadData := 0
  dcacheLateReadData := 0
  dcacheStoreEpoch := false
  memReqReady := true
  memResp := ⟨false, 0⟩
  outReady := true

/-! ## Runs -/

namespace JYDSoC

def powerUp : Regs := ⟨PowerUp.core, none, PowerUp.bus⟩

theorem reset_powerUp : Reset powerUp := ⟨PowerUp.coreReset, rfl, PowerUp.busReset⟩

/-- A ROM that holds `code` from address zero on, and `nop` behind it. -/
def romOf (code : List Word) : Rom := fun a => code.getD a.toNat 0x00000013#32

/-- The run of a program under the timing of `SimpleBusROM`. -/
def run (c : Config) : Run (machine c) :=
  (machine c).runFrom (fun _ => ⟨SimpleBusROM.schedule, 0⟩) powerUp reset_powerUp

end JYDSoC

end Soc
end Jyd
