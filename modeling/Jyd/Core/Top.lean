import Jyd.Core.Idu
import Jyd.Core.Ifu
import Jyd.Core.BranchPredictor
import Jyd.Core.DCache
import Jyd.Core.Exu

/-!
# Top — the core

`CPUCore` of `Top.scala`: the five stages and their pipeline registers, the
redirect mailbox with the one-bit fetch epoch, the prediction front end and the
wiring of the data cache.  The two memory ports are left to the environment.
-/

namespace Jyd
namespace Core
namespace CPUCore

open Hdl

/-- `branchUpdate*Reg`, captured when an instruction leaves EXU. -/
structure BranchUpdate where
  pc : Word
  target : Word
  isCall : Bool
  isReturn : Bool
  isJAL : Bool
  isBranch : Bool
  taken : Bool
  deriving DecidableEq, Repr

structure Regs where
  pipelineEpoch : Bool
  redirectPendingReg : Bool
  redirectEpochReg : Bool
  pc : Word
  branchUpdateFireReg : Bool
  branchUpdate : BranchUpdate
  lateRedirectNow : Bool
  dcacheStoreEpoch : Bool
  previousDcacheStoreMutation : Bool
  gprs : RegisterFile.Regs
  ifu : IFU.Regs
  exu : EXU.Regs
  dcache : DCache.Regs
  btb : BTB.Regs
  bp : BranchPredictor.Regs
  iduPipe : Pipe FetchedInst
  exuPipe : Pipe DecodedInst
  lsuPipe : Pipe LSUInput
  wbuPipe : Pipe WriteBackInfo

/-- The wires that the two memories drive. -/
structure In where
  iromReqReady : Bool
  iromResp : Valid Word
  dramReqReady : Bool
  dramResp : Valid Word
  deriving DecidableEq, Repr

variable (r : Regs) (i : In)

/-! ## LSU and WBU -/

def lsuInReady : Bool := r.wbuPipe.allowIn true
def exuOutReady : Bool := r.lsuPipe.allowIn (lsuInReady r)
def lsuInFire : Bool := r.lsuPipe.valid && lsuInReady r

def gprWrite : GprWrite where
  en := WBU.gprEn r.wbuPipe
  addr := ResultLaneSelect.rd r.wbuPipe.bits
  data := WBU.gprData r.wbuPipe i.dramResp

def wbuDcacheUpdate : Bool := WBU.dcacheUpdate r.wbuPipe r.dcacheStoreEpoch

/-! ## Late redirect -/

def lateRedirectDetected : Bool :=
  lsuInFire r && r.lsuPipe.bits.lateBranchResolve && r.lsuPipe.bits.lateBranchMismatch

def lateRedirectKill : Bool := lateRedirectDetected r || r.lateRedirectNow

/-! ## EXU and the data cache -/

def exuEpochMatch : Bool := r.exuPipe.bits.epoch == r.pipelineEpoch
def exuInValid : Bool := r.exuPipe.valid && exuEpochMatch r && !lateRedirectKill r

def dcacheQueryAddr : Word := EXU.dcacheQueryAddr r.exu r.exuPipe.bits
def dcacheLateQueryAddr : Word := EXU.reg1AddImm r.exuPipe.bits

def lateLoadLSU : LateLoadSourceInfo :=
  let b := r.lsuPipe.bits
  let valid := r.lsuPipe.valid && b.isLoad && supportedLoadWidth b.func3t
  { valid := valid
    dataValid := valid && b.cacheableLoad && b.dcacheHit
    data := ExtLoadData b.lateLoadData (b.destAddr.extractLsb' 0 2) b.func3t
    rawData := b.lateLoadData
    func3t := b.func3t
    offset := b.destAddr.extractLsb' 0 2 }

def lateLoadWBU : LateLoadSourceInfo :=
  let b := r.wbuPipe.bits
  let valid := r.wbuPipe.valid && b.isLoad && supportedLoadWidth b.lsuFunc3t
  { valid := valid
    dataValid := valid
    data := ExtLoadData i.dramResp.bits b.lsuAddrOffset b.lsuFunc3t
    rawData := i.dramResp.bits
    func3t := b.lsuFunc3t
    offset := b.lsuAddrOffset }

def exuIn : EXU.In where
  valid := exuInValid r
  dinst := r.exuPipe.bits
  lateLoadLSU := lateLoadLSU r
  lateLoadWBU := lateLoadWBU r i
  previousStageFwd := ExtractFastFwdInfoFromLSU r.lsuPipe
  dcacheHit :=
    DCache.hit r.dcache (DCache.indexOf (dcacheQueryAddr r)) (DCache.tagOf (dcacheQueryAddr r))
  dcacheReadData := DCache.readData r.dcache
  dcacheLateReadData := DCache.lateReadData r.dcache (DCache.indexOf (dcacheLateQueryAddr r))
  dcacheStoreEpoch := r.dcacheStoreEpoch
  memReqReady := i.dramReqReady
  memResp := i.dramResp
  outReady := exuOutReady r

def exuOutValid : Bool := EXU.outValid r.exu (exuIn r i)
def exuOutFire : Bool := EXU.outFire r.exu (exuIn r i)
def exuInFire : Bool := EXU.inFire r.exu (exuIn r i)
def exuPipeReady : Bool :=
  EXU.inReady r.exu (exuIn r i) || !exuEpochMatch r || lateRedirectKill r

def dramReqValid : Bool := EXU.memReqValid r.exu (exuIn r i)
def dramReq : MemReq := EXU.memReq r.exu (exuIn r i)
def dramReqFire : Bool := EXU.memReqFire r.exu (exuIn r i)

def storeUpdate : Bool := EXU.cacheableStoreFire r.exu (exuIn r i)
def fullUpdate : Bool := EXU.listReverseStepCacheStore r.exu (exuIn r i)
def dcacheStoreMutation : Bool := storeUpdate r i || fullUpdate r i

def dcacheIn : DCache.In where
  queryIndex := DCache.indexOf (dcacheQueryAddr r)
  queryTag := DCache.tagOf (dcacheQueryAddr r)
  storeUpdate := storeUpdate r i
  storeFull := EXU.storeFull r.exu (exuIn r i)
  storeData := EXU.memWData (exuIn r i)
  storeMask := EXU.memWMask r.exuPipe.bits
  update := fullUpdate r i || (wbuDcacheUpdate r && !dcacheStoreMutation r i)
  updateValid := true
  updateAddr :=
    if fullUpdate r i then r.exu.listReverse.listReverseCurrent else r.wbuPipe.bits.memAddr
  updateData :=
    if fullUpdate r i then r.exu.listReverse.listReversePrevious else i.dramResp.bits
  updateMask := 0b1111

/-! ## IDU -/

def iduEpochMatch : Bool := r.iduPipe.bits.epoch == r.pipelineEpoch

def iduIn : IDU.In where
  valid := r.iduPipe.valid && iduEpochMatch r
  bits := r.iduPipe.bits
  rdata1 := RegisterFile.read r.gprs (gprWrite r i) (IDU.rs1 r.iduPipe.bits.code)
  rdata2 := RegisterFile.read r.gprs (gprWrite r i) (IDU.rs2 r.iduPipe.bits.code)
  exu := EXU.fwd r.exu (exuIn r i)
  lsu := ExtractFwdInfoFromLSU r.lsuPipe
  lateLoadProducer := EXU.lateLoadProducer (exuIn r i)
  outReady := r.exuPipe.allowIn (exuPipeReady r i)

def iduPipeReady : Bool := IDU.inReady (iduIn r i) || !iduEpochMatch r

/-! ## Redirects and the front end -/

def immediateRedirectNow : Bool :=
  exuOutValid r i && EXU.immediatePredWrong r.exu (exuIn r i)

def redirectNow : Bool := immediateRedirectNow r i || r.lateRedirectNow

/-- `redirectPacket.target`, kept by the update registers until it is consumed. -/
def redirectTarget : BitVec 15 :=
  if !r.branchUpdate.isBranch || r.branchUpdate.taken then TrimmedPC.trim r.branchUpdate.target
  else TrimmedPC.trim r.branchUpdate.pc + 1

def pcFeedToIFU : Word :=
  if r.redirectPendingReg then TrimmedPC.expand (redirectTarget r) else r.pc

def fetchPrediction : PredBundle :=
  if r.redirectPendingReg then
    { hit := false, take := false, pc := pcFeedToIFU r + 4 }
  else BranchPredictor.pred r.bp r.pc (BTB.query r.btb r.pc)

def ifuIn : IFU.In where
  pcValid := true
  pc := pcFeedToIFU r
  epoch := r.pipelineEpoch
  predNext := fetchPrediction r
  memReqReady := i.iromReqReady
  memResp := i.iromResp
  outReady := r.iduPipe.allowIn (iduPipeReady r i)

def ifuPcReady : Bool := IFU.pcReady r.ifu (ifuIn r i)
def redirectPendingFire : Bool := ifuPcReady r i && r.redirectPendingReg

def iromReqValid : Bool := IFU.memReqValid r.ifu (ifuIn r i)
def iromAddr : Word := IFU.memReqAddr r.ifu (ifuIn r i)

def branchUpdateNext : BranchUpdate where
  pc := r.exuPipe.bits.pc
  target := EXU.branchTarget r.exu (exuIn r i)
  isCall := EXU.isCall (exuIn r i)
  isReturn := EXU.isReturn (exuIn r i)
  isJAL := EXU.isJAL (exuIn r i)
  isBranch := EXU.isBranch r.exu (exuIn r i)
  taken := EXU.branchTaken r.exu (exuIn r i)

def btbUpdate : BTB.Update where
  en := r.branchUpdateFireReg
  addr := r.branchUpdate.pc
  isJAL := r.branchUpdate.isJAL
  isBranch := r.branchUpdate.isBranch
  isReturn := r.branchUpdate.isReturn
  actualTaken := r.branchUpdate.taken
  target := r.branchUpdate.target

def bpUpdate : BranchPredictor.Update where
  en := r.branchUpdateFireReg
  pc := r.branchUpdate.pc
  isCall := r.branchUpdate.isCall
  isReturn := r.branchUpdate.isReturn

/-! ## One clock edge -/

def next : Regs where
  pipelineEpoch := if redirectNow r i then !r.pipelineEpoch else r.pipelineEpoch
  redirectPendingReg :=
    if redirectNow r i then true
    else if redirectPendingFire r i then false
    else r.redirectPendingReg
  redirectEpochReg := if redirectNow r i then !r.pipelineEpoch else r.redirectEpochReg
  pc :=
    TrimmedPC.expand
      (if ifuPcReady r i then TrimmedPC.trim (fetchPrediction r).pc else TrimmedPC.trim r.pc)
  branchUpdateFireReg := exuOutFire r i && EXU.btbUpdateEn r.exu (exuIn r i)
  branchUpdate := if exuOutFire r i then branchUpdateNext r i else r.branchUpdate
  lateRedirectNow := lateRedirectDetected r
  dcacheStoreEpoch := if dcacheStoreMutation r i then !r.dcacheStoreEpoch else r.dcacheStoreEpoch
  previousDcacheStoreMutation := storeUpdate r i
  gprs := RegisterFile.next r.gprs (gprWrite r i)
  ifu := IFU.next r.ifu (ifuIn r i)
  exu := EXU.next r.exu (exuIn r i)
  dcache := DCache.next r.dcache (dcacheIn r i)
  btb := BTB.next r.btb (btbUpdate r)
  bp := BranchPredictor.next r.bp (bpUpdate r)
  iduPipe :=
    r.iduPipe.next (iduPipeReady r i) (IFU.outValid r.ifu (ifuIn r i)) (IFU.outBits r.ifu (ifuIn r i))
  exuPipe :=
    r.exuPipe.next (exuPipeReady r i) (IDU.outValid (iduIn r i)) (IDU.outBits (iduIn r i))
  lsuPipe := r.lsuPipe.next (lsuInReady r) (exuOutValid r i) (EXU.outBits r.exu (exuIn r i))
  wbuPipe :=
    r.wbuPipe.next true r.lsuPipe.valid (LSU.outBits r.lsuPipe (DCache.readData r.dcache))

/-! ## Reset -/

/-- `CPUTop_ResetPCProvider`. -/
def INIT_PC : Word := 0x80000000#32

/-- The registers of EXU that have a reset value; all others start arbitrary. -/
structure EXUReset (e : EXU.Regs) : Prop where
  listReverseState : e.listReverse.listReverseState = .idle
  listReverseLoopAddress : e.listReverse.listReverseLoopAddress = 0
  listReverseStepStoreCommitted : e.listReverse.listReverseStepStoreCommitted = false
  listReverseLoopTaken : e.listReverse.listReverseLoopTaken = false
  listReversePrefetchValid : e.listReverse.listReversePrefetchValid = false
  xmsumState : e.xmsum.xmsumState = .idle
  xmsumResponsePending : e.xmsum.xmsumResponsePending = false
  xdfaCounters : ∀ s, e.numericDfa.xdfaCounters s = 0
  xdfaFinalCounters : ∀ s, e.numericDfa.xdfaFinalCounters s = 0
  xdfaPendingMask : e.numericDfa.xdfaPendingMask = 0
  xdfaWordState : e.numericDfa.xdfaWordState = .idle
  csrPrepared : e.csr.csrPrepared = false
  mcycleLo : e.csr.csrs.mcycleLo = 0
  bExtensionState : e.alu.bExtension.state = .idle
  multiplierState : e.alu.multiplier.state = .idle
  slowValidPipe : e.alu.multiplier.slowValidPipe = 0
  fastValidPipe : e.alu.multiplier.fastValidPipe = 0
  narrowValidPipe : e.alu.multiplier.narrowValidPipe = 0
  dividerState : e.alu.divider.state = .idle
  capturedLateLoadValid : e.capturedLateLoadValid = false
  lateOtherOperandCaptured : e.lateOtherOperandCaptured = false

structure Reset (r : Regs) : Prop where
  pipelineEpoch : r.pipelineEpoch = false
  redirectPendingReg : r.redirectPendingReg = false
  redirectEpochReg : r.redirectEpochReg = false
  pc : r.pc = INIT_PC
  branchUpdateFireReg : r.branchUpdateFireReg = false
  lateRedirectNow : r.lateRedirectNow = false
  dcacheStoreEpoch : r.dcacheStoreEpoch = false
  previousDcacheStoreMutation : r.previousDcacheStoreMutation = false
  ifuState : r.ifu.state = .idle
  instID : r.ifu.instID = 0
  exu : EXUReset r.exu
  -- the distributed memories of the cache are initialised to zero
  tagMem : ∀ b l, r.dcache.tagMem b l = 0
  lateDataMem : ∀ b k l, r.dcache.lateDataMem b k l = 0
  initCount : r.btb.initCount = 0
  initDone : r.btb.initDone = false
  rasEntries : ∀ k, r.bp.rasEntries k = 0
  rasPtr : r.bp.rasPtr = false
  rasCount : r.bp.rasCount = 0
  iduPipe : r.iduPipe.valid = false
  exuPipe : r.exuPipe.valid = false
  lsuPipe : r.lsuPipe.valid = false
  wbuPipe : r.wbuPipe.valid = false

end CPUCore
end Core
end Jyd
