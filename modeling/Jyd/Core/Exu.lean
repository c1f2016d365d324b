import Jyd.Core.Alu
import Jyd.Core.Lsu
import Jyd.Core.Exu.NumericDfa
import Jyd.Core.Exu.ListReverse
import Jyd.Core.Exu.MatrixSum
import Jyd.Core.Exu.CsrTransaction

/-!
# Exu — the execute stage

Operand selection (adjacent-fast and late-load tokens), the result lanes, branch
resolution, the shared data-memory port and the handshakes of `exu.scala`.
-/

namespace Jyd
namespace Core
namespace EXU

open Hdl

structure Regs where
  listReverse : ListReverse.Regs
  xmsum : MatrixSum.Regs
  numericDfa : NumericDfa.Regs
  csr : CsrTransaction.Regs
  alu : SpecialExecutionCluster.Regs
  capturedLateLoadValid : Bool
  capturedLateLoadData : Word
  lateOtherOperandCaptured : Bool
  capturedLateOtherRegV1 : Word
  capturedLateOtherRegV2 : Word

structure In where
  valid : Bool
  dinst : DecodedInst
  lateLoadLSU : LateLoadSourceInfo
  lateLoadWBU : LateLoadSourceInfo
  previousStageFwd : WrBackForwardInfo
  dcacheHit : Bool
  dcacheReadData : Word
  dcacheLateReadData : Word
  dcacheStoreEpoch : Bool
  memReqReady : Bool
  memResp : Valid Word
  outReady : Bool

/-! ## Wires that depend on the payload only -/

section Payload

variable (d : DecodedInst)

def func3t : BitVec 3 := d.code.extractLsb' 12 3
def func7t : BitVec 7 := d.code.extractLsb' 25 7

def isFmtI : Bool := d.info.fmt == .imm
def isFmtB : Bool := d.info.fmt == .branch
def isTypSys : Bool := d.info.typ == .system
def isTypLoad : Bool := d.info.typ == .load
def isTypStore : Bool := d.info.typ == .store
def isTypJAL : Bool := d.info.typ == .jal
def isTypJALR : Bool := d.info.typ == .jalr
def isTypBranch : Bool := d.info.typ == .branch
def isTypArithmetic : Bool := d.info.typ == .arithmetic

def isNumericDfa : Bool := d.info.numericDfaValid
def isNumericDfaStep : Bool := isNumericDfa d && func3t d == 5#3
def isListReverse : Bool := d.info.listReverseValid
def isListReverseStep : Bool := d.info.listReverseStep
def isListReverseLoop : Bool := d.info.listReverseLoop
def isXmsum : Bool := d.info.xmsumValid

def resultIsFast : Bool := d.info.resultKind == .fastInt
def resultIsLong : Bool := d.info.resultKind == .longArithmetic
def resultIsAccelerator : Bool := d.info.resultKind == .accelerator
def simpleAccelerator : Bool := d.info.crcValid || d.info.xbmulValid

def needMemReq : Bool := isTypLoad d || isTypStore d
def hasLateLoadOperand : Bool := d.info.lateLoadRs1 || d.info.lateLoadRs2
def isLateLoadAndi1 : Bool := hasLateLoadOperand d && func3t d == 0b111#3
def isLateLoadSrli1 : Bool := hasLateLoadOperand d && func3t d == 0b101#3
def isLateLoadBit : Bool := isLateLoadAndi1 d || isLateLoadSrli1 d

/-- The registered address lane under the fixed address prefix. -/
def reg1AddImm : Word := 0x80#8 ++ 0#2 ++ d.info.reg1AddImm

def controlFlowTarget : Word :=
  if isListReverseLoop d then d.pc
  else if isTypJALR d then reg1AddImm d
  else d.info.pcAddImm

/-- Bits `21..20` of an address that belongs to the data RAM. -/
def inDramRegion (addr : Word) : Bool := addr.extractLsb' 20 2 == 0b01#2

def loadAddressAligned : Bool :=
  if (func3t d).getLsbD 1 then (reg1AddImm d).extractLsb' 0 2 == 0#2
  else if (func3t d).getLsbD 0 then !(reg1AddImm d).getLsbD 0
  else true

def cacheableLoad : Bool :=
  isTypLoad d && supportedLoadWidth (func3t d) && loadAddressAligned d &&
    inDramRegion (reg1AddImm d)

def cacheableStore : Bool := isTypStore d && inDramRegion (reg1AddImm d)

def memWMask : BitVec 4 := GenMemWMask ((reg1AddImm d).extractLsb' 0 2) (func3t d)

/-- The hardwired return `jalr x0, 0(x1)`. -/
def isReturnCode : Bool := d.code == 0x00008067#32

end Payload

/-! ## Adjacent-fast selectors -/

/-- Spread one selector bit over each nibble. -/
def expandAdjacentFastGroups (g : BitVec 8) : Word :=
  fill 4 (g.getLsbD 7) ++ fill 4 (g.getLsbD 6) ++ fill 4 (g.getLsbD 5) ++ fill 4 (g.getLsbD 4) ++
    fill 4 (g.getLsbD 3) ++ fill 4 (g.getLsbD 2) ++ fill 4 (g.getLsbD 1) ++ fill 4 (g.getLsbD 0)

def decodeAdjacentFastGroups (encoded : BitVec 8) (base : Word) : BitVec 8 :=
  encoded ^^^ base.extractLsb' 0 8

def selectAdjacentFast (prevData : Word) (groups : BitVec 8) (base : Word) : Word :=
  let mask := expandAdjacentFastGroups groups
  (prevData &&& mask) ||| (base &&& ~~~mask)

/-- Compare raw cache data with an operand, as if it had been extended first. -/
def rawLoadEqual (rawData : Word) (offset : BitVec 2) (loadFunc3t : BitVec 3) (other : Word) : Bool :=
  let selectedHalf :=
    if offset.getLsbD 1 then rawData.extractLsb' 16 16 else rawData.extractLsb' 0 16
  let selectedByte := rawData.extractLsb' (8 * offset.toNat) 8
  let unsignedLoad := loadFunc3t.getLsbD 2
  let byteUpperMatches :=
    if unsignedLoad then other.extractLsb' 8 24 == 0#24
    else other.extractLsb' 8 24 == fill 24 (selectedByte.getLsbD 7)
  let halfUpperMatches :=
    if unsignedLoad then other.extractLsb' 16 16 == 0#16
    else other.extractLsb' 16 16 == fill 16 (selectedHalf.getLsbD 15)
  if loadFunc3t.getLsbD 1 then rawData == other
  else if loadFunc3t.getLsbD 0 then selectedHalf == other.extractLsb' 0 16 && halfUpperMatches
  else selectedByte == other.extractLsb' 0 8 && byteUpperMatches

/-- The one-hot branch condition over an equality and two orderings. -/
def branchCondition (d : DecodedInst) (eq lt ltu : Bool) : Bool :=
  mux1HBool
    [(d.info.is_beq, eq), (d.info.is_bne, !eq), (d.info.is_blt, lt), (d.info.is_bge, !lt),
     (d.info.is_bltu, ltu), (d.info.is_bgeu, !ltu)]

variable (r : Regs) (i : In)

/-! ## Operands -/

def fastAluRs1Groups : BitVec 8 :=
  decodeAdjacentFastGroups i.dinst.info.fastAluRs1 i.dinst.info.reg1
def fastAluRs2Groups : BitVec 8 :=
  decodeAdjacentFastGroups i.dinst.info.fastAluRs2 i.dinst.info.reg2
def fastBranchRs1Groups : BitVec 8 :=
  decodeAdjacentFastGroups i.dinst.info.fastBranchRs1 i.dinst.info.reg1
def fastBranchRs2Groups : BitVec 8 :=
  decodeAdjacentFastGroups i.dinst.info.fastBranchRs2 i.dinst.info.reg2
def fastStoreRs2Groups : BitVec 8 :=
  decodeAdjacentFastGroups i.dinst.info.fastStoreRs2 i.dinst.info.reg2

def fastRegV1 : Word :=
  selectAdjacentFast i.previousStageFwd.data (fastAluRs1Groups i) i.dinst.info.reg1
def fastRegV2 : Word :=
  selectAdjacentFast i.previousStageFwd.data (fastAluRs2Groups i) i.dinst.info.reg2
def branchRegV1 : Word :=
  selectAdjacentFast i.previousStageFwd.data (fastBranchRs1Groups i) i.dinst.info.reg1
def branchRegV2 : Word :=
  selectAdjacentFast i.previousStageFwd.data (fastBranchRs2Groups i) i.dinst.info.reg2
def storeRegV2 : Word :=
  selectAdjacentFast i.previousStageFwd.data (fastStoreRs2Groups i) i.dinst.info.reg2

/-- A late operand looks at LSU first, then at the captured WBU response. -/
def resolveLateLoadReady (late : Bool) : Bool :=
  let lsuMatch := late && i.lateLoadLSU.valid
  let capturedMatch := late && !lsuMatch && r.capturedLateLoadValid
  !late || (lsuMatch && i.lateLoadLSU.dataValid) || capturedMatch

def resolveLateLoadData (late : Bool) (normalData : Word) : Word :=
  let lsuMatch := late && i.lateLoadLSU.valid
  let capturedMatch := late && !lsuMatch && r.capturedLateLoadValid
  if lsuMatch then i.lateLoadLSU.data
  else if capturedMatch then r.capturedLateLoadData
  else normalData

def lateRegV1 : Word := resolveLateLoadData r i i.dinst.info.lateLoadRs1 (branchRegV1 i)
def lateRegV2 : Word := resolveLateLoadData r i i.dinst.info.lateLoadRs2 (branchRegV2 i)
def lateDataReady : Bool :=
  resolveLateLoadReady r i i.dinst.info.lateLoadRs1 && resolveLateLoadReady r i i.dinst.info.lateLoadRs2
def lateDataReadyFromLSU : Bool := hasLateLoadOperand i.dinst && i.lateLoadLSU.dataValid

def captureLateLoadWBU : Bool :=
  i.valid && (i.dinst.info.lateLoadRs1 || i.dinst.info.lateLoadRs2) && !i.lateLoadLSU.valid &&
    i.lateLoadWBU.valid && i.lateLoadWBU.dataValid && !r.capturedLateLoadValid

/-- The fixed `andi 1` / `srli 1` results of a late operand. -/
def lateBit (isAndi : Bool) (x : Word) : Word :=
  if isAndi then (x.extractLsb' 0 1).setWidth 32 else (x.extractLsb' 1 31).setWidth 32

def lateBitResult : Word := lateBit (isLateLoadAndi1 i.dinst) (lateRegV1 r i)

def lateForwardRegV1 : Word :=
  if i.dinst.info.lateLoadRs1 then i.lateLoadLSU.data else i.dinst.info.reg1

def lateBitForwardResult : Word := lateBit (isLateLoadAndi1 i.dinst) (lateForwardRegV1 i)

/-! ## Functional units -/

def fastIn : FastIntegerALUInput where
  isImm := isFmtI i.dinst
  isSub := i.dinst.info.aluIsSub
  func3t := func3t i.dinst
  func7t := func7t i.dinst
  src1 := fastRegV1 i
  src2 := fastRegV2 i

def fastIntegerOut : Word := FastIntegerALU.outBits (fastIn i)

def fastIntegerValid : Bool :=
  i.valid && isTypArithmetic i.dinst && resultIsFast i.dinst && !hasLateLoadOperand i.dinst

def specialIn : ALUInput where
  is_imm := isFmtI i.dinst
  isSub := i.dinst.info.aluIsSub
  func3t := func3t i.dinst
  func7t := func7t i.dinst
  bExtValid := i.dinst.info.bExtValid
  crcValid := i.dinst.info.crcValid
  xbmulValid := i.dinst.info.xbmulValid
  src1 := i.dinst.info.reg1
  src2 := i.dinst.info.reg2
  mulRawSrc1 := i.dinst.info.reg1
  mulRawSrc2 := i.dinst.info.reg2
  mulPrevData := 0
  mulPrevRs1 := false
  mulPrevRs2 := false
  mulNoLate := true

def aluInValid : Bool :=
  i.valid && isTypArithmetic i.dinst &&
    (resultIsLong i.dinst || (resultIsAccelerator i.dinst && simpleAccelerator i.dinst))

def specialExecutionOut : Word := SpecialExecutionCluster.outBits r.alu (specialIn i)
def aluOutValid : Bool := SpecialExecutionCluster.outValid r.alu (specialIn i) (aluInValid i)

/-! ## Branch resolution -/

def stableLateOtherRegV1 : Word :=
  if r.lateOtherOperandCaptured then r.capturedLateOtherRegV1 else branchRegV1 i
def stableLateOtherRegV2 : Word :=
  if r.lateOtherOperandCaptured then r.capturedLateOtherRegV2 else branchRegV2 i

def equalityRegV1 : Word :=
  if i.dinst.info.lateLoadRs1 then lateRegV1 r i else stableLateOtherRegV1 r i
def equalityRegV2 : Word :=
  if i.dinst.info.lateLoadRs2 then lateRegV2 r i else stableLateOtherRegV2 r i

def extendedLoadEqual : Bool :=
  let equalityDiff := equalityRegV1 r i ^^^ equalityRegV2 r i
  !((List.range 4).any (fun k => byteOf equalityDiff k != 0#8))

def lsuLateEqual : Bool :=
  let raw := rawLoadEqual i.lateLoadLSU.rawData i.lateLoadLSU.offset i.lateLoadLSU.func3t
  if i.dinst.info.lateLoadRs1 && i.dinst.info.lateLoadRs2 then true
  else if i.dinst.info.lateLoadRs1 then raw (stableLateOtherRegV2 r i)
  else raw (stableLateOtherRegV1 r i)

def useRegisteredRawLoadEqual : Bool := hasLateLoadOperand i.dinst && i.lateLoadLSU.dataValid

def isEqual : Bool :=
  if useRegisteredRawLoadEqual i then lsuLateEqual r i else extendedLoadEqual r i

def takeBranch : Bool :=
  branchCondition i.dinst (isEqual r i) ((branchRegV1 i).slt (branchRegV2 i))
    ((branchRegV1 i).ult (branchRegV2 i))

def capturedLateEqual : Bool :=
  if i.dinst.info.lateLoadRs1 && i.dinst.info.lateLoadRs2 then true
  else if i.dinst.info.lateLoadRs1 then r.capturedLateLoadData == stableLateOtherRegV2 r i
  else r.capturedLateLoadData == stableLateOtherRegV1 r i

/-- The redirect of this cycle never looks through the adjacent-fast selectors. -/
def immediateTakeBranch : Bool :=
  branchCondition i.dinst
    (if hasLateLoadOperand i.dinst then capturedLateEqual r i
     else i.dinst.info.reg1 == i.dinst.info.reg2)
    (i.dinst.info.reg1.slt i.dinst.info.reg2) (i.dinst.info.reg1.ult i.dinst.info.reg2)

/-! ## Completion -/

def listReverseDone : Bool :=
  isListReverse i.dinst && r.listReverse.listReverseState == .done
def xmsumDone : Bool := isXmsum i.dinst && r.xmsum.xmsumState == .done
def xdfaWordDone : Bool := isNumericDfaStep i.dinst && r.numericDfa.xdfaWordState == .done

def exuResultValid : Bool :=
  if isNumericDfaStep i.dinst then xdfaWordDone r i
  else if isListReverse i.dinst then listReverseDone r i
  else if isXmsum i.dinst then xmsumDone r i
  else
    (!isTypSys i.dinst || r.csr.csrPrepared) &&
      (!isTypArithmetic i.dinst || isNumericDfa i.dinst ||
        (if resultIsFast i.dinst then
          (if hasLateLoadOperand i.dinst then lateDataReady r i else fastIntegerValid i)
         else aluOutValid r i)) &&
      (!hasLateLoadOperand i.dinst || lateDataReady r i)

/-! ## The data-memory port -/

def listReverseLoadRequest : Bool := r.listReverse.listReverseState == .loadRequest
def listReverseStoreRequest : Bool := r.listReverse.listReverseState == .storeRequest
def xmsumRequest : Bool := r.xmsum.xmsumState == .request
def xdfaWordRequest : Bool := r.numericDfa.xdfaWordState == .request

def memWData : Word := GenMemWData ((reg1AddImm i.dinst).extractLsb' 0 2) (storeRegV2 i)

def memReqValid : Bool :=
  xdfaWordRequest r || (listReverseLoadRequest r || listReverseStoreRequest r) || xmsumRequest r ||
    (needMemReq i.dinst && i.valid && i.outReady)

def memReq : MemReq where
  addr :=
    if isNumericDfaStep i.dinst then r.numericDfa.xdfaWordAddress &&& ~~~3#32
    else if isListReverse i.dinst then r.listReverse.listReverseCurrent
    else if isXmsum i.dinst then r.xmsum.xmsumAddress
    else reg1AddImm i.dinst
  size :=
    if isNumericDfaStep i.dinst || isListReverse i.dinst || isXmsum i.dinst then 2
    else ((func3t i.dinst).extractLsb' 0 2).setWidth 3
  wen :=
    if isNumericDfaStep i.dinst then false
    else if isListReverse i.dinst then listReverseStoreRequest r
    else !isXmsum i.dinst && isTypStore i.dinst
  wdata :=
    if listReverseStoreRequest r then r.listReverse.listReversePrevious
    else if isXmsum i.dinst || (isListReverse i.dinst && !listReverseStoreRequest r) then 0
    else memWData i
  wmask :=
    if listReverseStoreRequest r then 0b1111
    else if isXmsum i.dinst || (isListReverse i.dinst && !listReverseStoreRequest r) then 0
    else memWMask i.dinst

def memReqFire : Bool := memReqValid r i && i.memReqReady

/-! ## Handshakes -/

def inReady : Bool :=
  if isNumericDfaStep i.dinst then xdfaWordDone r i && i.outReady
  else if isListReverse i.dinst then listReverseDone r i && i.outReady
  else if isXmsum i.dinst then xmsumDone r i && i.outReady
  else memReqFire r i || (i.outReady && !needMemReq i.dinst && exuResultValid r i)

def outValid : Bool :=
  if isNumericDfaStep i.dinst then xdfaWordDone r i
  else if isListReverse i.dinst then listReverseDone r i
  else if isXmsum i.dinst then xmsumDone r i
  else memReqFire r i || (i.valid && !needMemReq i.dinst && exuResultValid r i)

def outFire : Bool := outValid r i && i.outReady
def inFire : Bool := i.valid && inReady r i

/-! ## Forwarding to IDU -/

def useSingleCycleForward : Bool :=
  isTypArithmetic i.dinst && resultIsFast i.dinst && !hasLateLoadOperand i.dinst
def useLateBitForward : Bool :=
  isLateLoadBit i.dinst && exuResultValid r i && lateDataReadyFromLSU i

def fwd : WrBackForwardInfo where
  addr := i.dinst.info.rd
  enWr := i.dinst.info.rdWrEn && i.valid
  dataVaild := useSingleCycleForward i || useLateBitForward r i
  data := if useLateBitForward r i then lateBitForwardResult i else fastIntegerOut i
  kind := i.dinst.info.resultKind

def lateLoadProducer : Bool :=
  i.valid && isTypLoad i.dinst && supportedLoadWidth (func3t i.dinst)

/-! ## Data-cache controls -/

def dcacheQueryAddr (d : DecodedInst) : Word :=
  if isListReverse d then r.listReverse.listReverseQueryAddress else reg1AddImm d

def cacheableStoreFire : Bool := memReqFire r i && cacheableStore i.dinst

def storeFull : Bool := cacheableStoreFire r i && memWMask i.dinst == 0b1111#4

/-- The cache write of a list-reversal store, one cycle behind its memory write. -/
def listReverseStepCacheStore : Bool :=
  isListReverseStep i.dinst && r.listReverse.listReverseState == .done &&
    r.listReverse.listReverseStepStoreCommitted

/-! ## Next program counter -/

def listReverseLoopBranch : Bool := isListReverseLoop i.dinst && listReverseDone r i

def snpc : Word :=
  if isTypSys i.dinst then r.csr.csrNextPCReg else i.dinst.info.staticNextPCOrCSRTarget

def normalNxtPC : Word :=
  TrimmedPC.expand
    (if isTypJALR i.dinst then TrimmedPC.trim (reg1AddImm i.dinst)
     else if isTypJAL i.dinst || (isFmtB i.dinst && takeBranch r i) then
       TrimmedPC.trim i.dinst.info.pcAddImm
     else TrimmedPC.trim (snpc r i))

def nxtPC : Word :=
  if listReverseLoopBranch r i && r.listReverse.listReverseLoopTaken then i.dinst.pc
  else normalNxtPC r i

def branchTarget : Word :=
  if isTypBranch i.dinst || isTypJAL i.dinst || isTypJALR i.dinst || listReverseLoopBranch r i then
    controlFlowTarget i.dinst
  else snpc r i

def isJAL : Bool := isTypJAL i.dinst || isReturnCode i.dinst
def isBranch : Bool := isTypBranch i.dinst || listReverseLoopBranch r i
def isReturn : Bool := isTypJALR i.dinst && isReturnCode i.dinst
def isCall : Bool := (isTypJAL i.dinst || isTypJALR i.dinst) && i.dinst.info.rd != 0#5
def branchTaken : Bool :=
  if listReverseLoopBranch r i then r.listReverse.listReverseLoopTaken else takeBranch r i
def btbUpdateEn : Bool :=
  isTypBranch i.dinst || isTypJAL i.dinst || isTypJALR i.dinst || listReverseLoopBranch r i

def lateEqualityBranchResolve : Bool :=
  isTypBranch i.dinst && (i.dinst.info.is_beq || i.dinst.info.is_bne) &&
    hasLateLoadOperand i.dinst && useRegisteredRawLoadEqual i

def registeredBranchResolve : Bool :=
  lateEqualityBranchResolve i || i.dinst.info.adjacentFastBranch

def predWrong : Bool :=
  exuResultValid r i &&
    (if listReverseLoopBranch r i then
       r.listReverse.listReverseLoopTaken ^^ i.dinst.predTake
     else
       (isFmtB i.dinst && (takeBranch r i ^^ i.dinst.predTake)) || i.dinst.info.notBranchPredWrong)

def immediatePredWrong : Bool :=
  exuResultValid r i &&
    (if listReverseLoopBranch r i then
       r.listReverse.listReverseLoopTaken ^^ i.dinst.predTake
     else
       (isFmtB i.dinst && !registeredBranchResolve i &&
          (immediateTakeBranch r i ^^ i.dinst.predTake)) ||
         i.dinst.info.notBranchPredWrong)

/-! ## The payload handed to LSU -/

def numericDfaIn : NumericDfa.In where
  valid := i.valid
  isNumericDfa := isNumericDfa i.dinst
  func3t := func3t i.dinst
  func7t := func7t i.dinst
  reg_v1 := i.dinst.info.reg1
  reg_v2 := i.dinst.info.reg2
  memReqFire := memReqFire r i
  memResp := i.memResp
  outReady := i.outReady
  outFire := outFire r i

def acceleratorData : Word :=
  if isNumericDfa i.dinst then
    NumericDfa.xdfaWordResult r.numericDfa (numericDfaIn r i)
  else if isListReverse i.dinst then r.listReverse.listReverseResult
  else if isXmsum i.dinst then r.xmsum.xmsumResult
  else specialExecutionOut r i

def writeBackInfo : WriteBackInfo where
  resultKind := i.dinst.info.resultKind
  fastResult :=
    { valid := i.dinst.info.rdWrEn && resultIsFast i.dinst
      rd := i.dinst.info.rd
      data := if isLateLoadBit i.dinst then lateBitResult r i else fastIntegerOut i }
  directResult :=
    { valid := i.dinst.info.rdWrEn && i.dinst.info.resultKind == .direct
      rd := i.dinst.info.rd
      data := if isTypSys i.dinst then r.csr.csrReadDataReg else i.dinst.info.preMuxWrBackData }
  longResult :=
    { valid := i.dinst.info.rdWrEn && resultIsLong i.dinst
      rd := i.dinst.info.rd
      data := specialExecutionOut r i }
  acceleratorResult :=
    { valid := i.dinst.info.rdWrEn && resultIsAccelerator i.dinst
      rd := i.dinst.info.rd
      data := acceleratorData r i }
  loadResult :=
    { valid := i.dinst.info.rdWrEn && isTypLoad i.dinst
      rd := i.dinst.info.rd }
  -- the memory fields are filled in by LSU
  isLoad := false
  isMemOp := false
  lsuResult := 0
  lsuFunc3t := 0
  lsuAddrOffset := 0
  memAddr := 0
  cacheableLoad := false
  dcacheHit := false
  dcacheStoreEpoch := false
  iid := i.dinst.iid

def outBits : LSUInput where
  isLoad := isTypLoad i.dinst
  isStore := isTypStore i.dinst
  destAddr := reg1AddImm i.dinst
  cacheableLoad := cacheableLoad i.dinst
  dcacheHit := cacheableLoad i.dinst && i.dcacheHit
  lateLoadData := if cacheableLoad i.dinst then i.dcacheLateReadData else 0
  dcacheStoreEpoch := i.dcacheStoreEpoch
  func3t := func3t i.dinst
  lateBranchResolve := exuResultValid r i && registeredBranchResolve i
  lateBranchMismatch := takeBranch r i ^^ i.dinst.predTake
  exuWriteBack := writeBackInfo r i

/-! ## Assertions on the fast tokens -/

/-- The previous stage holds a result of the fast lane. -/
def previousIsFast : Bool :=
  i.previousStageFwd.dataVaild && i.previousStageFwd.kind == .fastInt

def fastTokenAsserts : Bool :=
  (!(i.valid && (fastAluRs1Groups i != 0#8 || fastAluRs2Groups i != 0#8)) ||
    (resultIsFast i.dinst && isTypArithmetic i.dinst && previousIsFast i)) &&
  (!(i.valid && (fastBranchRs1Groups i != 0#8 || fastBranchRs2Groups i != 0#8)) ||
    (isTypBranch i.dinst && previousIsFast i)) &&
  (!(i.valid && fastStoreRs2Groups i != 0#8) ||
    (isTypStore i.dinst && previousIsFast i))

/-! ## Register update -/

def listReverseIn : ListReverse.In where
  valid := i.valid
  isListReverse := isListReverse i.dinst
  isListReverseStep := isListReverseStep i.dinst
  isListReverseLoop := isListReverseLoop i.dinst
  reg_v1 := i.dinst.info.reg1
  reg_v2 := i.dinst.info.reg2
  dcacheHit := i.dcacheHit
  dcacheReadData := i.dcacheReadData
  memReqFire := memReqFire r i
  memResp := i.memResp
  outFire := outFire r i

def xmsumIn : MatrixSum.In where
  valid := i.valid
  isXmsum := isXmsum i.dinst
  reg_v1 := i.dinst.info.reg1
  reg_v2 := i.dinst.info.reg2
  memReqFire := memReqFire r i
  memResp := i.memResp
  outFire := outFire r i

def csrIn : CsrTransaction.In where
  valid := i.valid
  isTypSys := isTypSys i.dinst
  isECall := i.dinst.info.isECall
  isMRet := i.dinst.info.isMRet
  code := i.dinst.code
  pc := i.dinst.pc
  reg_v1 := i.dinst.info.reg1
  staticNextPCOrCSRTarget := i.dinst.info.staticNextPCOrCSRTarget
  outFire := outFire r i

def next : Regs where
  listReverse := ListReverse.next r.listReverse (listReverseIn r i)
  xmsum := MatrixSum.next r.xmsum (xmsumIn r i)
  numericDfa := NumericDfa.next r.numericDfa (numericDfaIn r i)
  csr := CsrTransaction.next r.csr (csrIn r i)
  alu := SpecialExecutionCluster.next r.alu (specialIn i) (aluInValid i) i.outReady
  capturedLateLoadValid :=
    if !i.valid || inFire r i then false
    else if captureLateLoadWBU r i then true
    else r.capturedLateLoadValid
  capturedLateLoadData := i.lateLoadWBU.data
  lateOtherOperandCaptured :=
    if !i.valid || inFire r i then false
    else if hasLateLoadOperand i.dinst && !r.lateOtherOperandCaptured then true
    else r.lateOtherOperandCaptured
  capturedLateOtherRegV1 :=
    if hasLateLoadOperand i.dinst && !r.lateOtherOperandCaptured then branchRegV1 i
    else r.capturedLateOtherRegV1
  capturedLateOtherRegV2 :=
    if hasLateLoadOperand i.dinst && !r.lateOtherOperandCaptured then branchRegV2 i
    else r.capturedLateOtherRegV2

end EXU
end Core
end Jyd
