import Jyd.Core.CommonDef

/-!
# Idu — decode, bypass and issue

The instruction classes and immediates of `idu.scala`, the cache-aware bypass
multiplexer with its late-load and adjacent-fast tokens, the split address adder
and the check of non-branch predictions.
-/

namespace Jyd
namespace Core
namespace IDU

open Hdl

/-! ## Wires that depend on the instruction word only -/

section Code

variable (inst : Word)

/-- The source leaves the class of an unrecognised opcode open; `dontcare_eq` is all that is
used of it. -/
@[irreducible] def dontcare : InstMetaInfo := ⟨.imm, .arithmetic⟩

theorem dontcare_eq : dontcare = ⟨.imm, .arithmetic⟩ ∨ dontcare = ⟨.reg, .arithmetic⟩ := by
  unfold dontcare
  exact Or.inl rfl

def metaInfo : InstMetaInfo := (InstInfoDecoder (inst.extractLsb' 0 7)).getD dontcare

def opcode : BitVec 7 := inst.extractLsb' 0 7
def func3 : BitVec 3 := inst.extractLsb' 12 3
def func7 : BitVec 7 := inst.extractLsb' 25 7
def bImmLow5 : BitVec 5 := inst.extractLsb' 20 5

def isTyp (t : InstType) : Bool := (metaInfo inst).typ == t
def isFmt (f : InstFmt) : Bool := (metaInfo inst).fmt == f
def isFmtI : Bool := isFmt inst .imm

def noNeedRs2 : Bool := isFmt inst .imm || isFmt inst .upper || isFmt inst .jump

def rd : BitVec 5 := inst.extractLsb' 7 5
def rs1 : BitVec 5 := inst.extractLsb' 15 5
def rs2 : BitVec 5 := if noNeedRs2 inst then 0 else inst.extractLsb' 20 5

def rdWrEn : Bool := !(isTyp inst .store || isTyp inst .branch)

def immI : Word := fill 21 (inst.getLsbD 31) ++ inst.extractLsb' 20 11
def immS : Word := (immI inst).extractLsb' 5 27 ++ inst.extractLsb' 8 4 ++ inst.extractLsb' 7 1
def immB : Word :=
  (immI inst).extractLsb' 12 20 ++ inst.extractLsb' 7 1 ++ (immS inst).extractLsb' 1 10 ++ 0#1
def immU : Word := inst.extractLsb' 12 20 ++ 0#12
def immJ : Word :=
  (immI inst).extractLsb' 20 12 ++ inst.extractLsb' 12 8 ++ inst.extractLsb' 20 1 ++
    inst.extractLsb' 21 10 ++ 0#1

/-- The immediate of the register format is open in the source. -/
def imm : Word :=
  match (metaInfo inst).fmt with
  | .imm => immI inst
  | .jump => immJ inst
  | .store => immS inst
  | .branch => immB inst
  | .upper => immU inst
  | .reg => 0

/-- I- and S-format address immediates, selected by two opcode bits. -/
def addrImm12 : BitVec 12 :=
  inst.extractLsb' 25 7 ++
    (if inst.extractLsb' 5 2 == 0b01#2 then inst.extractLsb' 7 5 else inst.extractLsb' 20 5)

def isListReverseLoopEncoding : Bool :=
  func7 inst == 2#7 && func3 inst == 6#3 && opcode inst == 0b0001011#7

def isListReverseEncoding : Bool :=
  opcode inst == 0b0001011#7 && func3 inst == 6#3 && (func7 inst == 0#7 || func7 inst == 2#7)

def needReg1AddImm : Bool := isTyp inst .load || isTyp inst .store || isTyp inst .jalr

/-! ### Late-load consumers -/

def isLateLoadAndi1 : Bool :=
  isTyp inst .arithmetic && isFmtI inst && func3 inst == 0b111#3 && inst.extractLsb' 20 12 == 1#12
def isLateLoadSrli1 : Bool :=
  isTyp inst .arithmetic && isFmtI inst && func3 inst == 0b101#3 && inst.extractLsb' 20 12 == 1#12
def isEqualityBranch : Bool := isTyp inst .branch && inst.extractLsb' 13 2 == 0#2

def allowLateLoadRs1 : Bool :=
  isLateLoadAndi1 inst || isLateLoadSrli1 inst || isEqualityBranch inst

/-! ### Arithmetic classes -/

/-- A register-form encoding named by its function fields. -/
def isReg (f7 : BitVec 7) (f3 : BitVec 3) : Bool :=
  !isFmtI inst && func7 inst == f7 && func3 inst == f3

/-- An encoding that exists in register and immediate form. -/
def isEither (f7 : BitVec 7) (f3 : BitVec 3) : Bool :=
  func7 inst == f7 && func3 inst == f3

/-- An immediate-form encoding whose low immediate bits extend the opcode. -/
def isImmSel (f7 : BitVec 7) (f3 : BitVec 3) (sel : BitVec 5) : Bool :=
  isFmtI inst && func7 inst == f7 && func3 inst == f3 && bImmLow5 inst == sel

def isMExtArithmetic : Bool := !isFmtI inst && func7 inst == 0b0000001#7

def isBCount : Bool :=
  isImmSel inst 0b0110000#7 0b001#3 0#5 || isImmSel inst 0b0110000#7 0b001#3 1#5 ||
    isImmSel inst 0b0110000#7 0b001#3 2#5
def isBClmul : Bool := isReg inst 0b0000101#7 0b001#3 || isReg inst 0b0000101#7 0b011#3
def isBOrcB : Bool := isImmSel inst 0b0010100#7 0b101#3 7#5
def isBXperm4 : Bool := isReg inst 0b0010100#7 0b010#3
def isBRor : Bool := isEither inst 0b0110000#7 0b101#3
def isIterativeB : Bool :=
  isBCount inst || isBClmul inst || isBOrcB inst || isBXperm4 inst || isBRor inst

def isBShiftAdd : Bool :=
  isReg inst 0b0010000#7 0b010#3 || isReg inst 0b0010000#7 0b100#3 ||
    isReg inst 0b0010000#7 0b110#3
def isBSext : Bool :=
  isImmSel inst 0b0110000#7 0b001#3 4#5 || isImmSel inst 0b0110000#7 0b001#3 5#5
def isBMinu : Bool := isReg inst 0b0000101#7 0b101#3
def isBBext : Bool := isEither inst 0b0100100#7 0b101#3
def isBSet : Bool := isEither inst 0b0010100#7 0b001#3
def isBClr : Bool := isEither inst 0b0100100#7 0b001#3
def isBInv : Bool := isEither inst 0b0110100#7 0b001#3
def isBAndn : Bool := isReg inst 0b0100000#7 0b111#3
def isBOrn : Bool := isReg inst 0b0100000#7 0b110#3
def isBXnor : Bool := isReg inst 0b0100000#7 0b100#3
def isBMax : Bool := isReg inst 0b0000101#7 0b110#3
def isBMaxu : Bool := isReg inst 0b0000101#7 0b111#3
def isBMin : Bool := isReg inst 0b0000101#7 0b100#3
def isBRol : Bool := isReg inst 0b0110000#7 0b001#3
def isBRev8 : Bool := isImmSel inst 0b0110100#7 0b101#3 24#5

def isShortB : Bool :=
  isBShiftAdd inst || isBSext inst || isBMinu inst || isBBext inst || isBSet inst ||
    isBClr inst || isBInv inst || isBAndn inst || isBOrn inst || isBXnor inst || isBMax inst ||
    isBMaxu inst || isBMin inst || isBRol inst || isBRev8 inst

/-- A custom-0 operation named by its function fields. -/
def isCustom0 (f7 : BitVec 7) (f3 : BitVec 3) : Bool :=
  func7 inst == f7 && func3 inst == f3 && opcode inst == 0b0001011#7

def isCrcU8Custom : Bool := isCustom0 inst 0#7 0#3
def isBitExtractMulCustom : Bool := isCustom0 inst 0#7 5#3
def isListReverseCustom : Bool := isListReverseEncoding inst
def isMatrixReduceCustom : Bool := isCustom0 inst 2#7 7#3
def isNumericDfaCustom : Bool :=
  opcode inst == 0b1011011#7 &&
    ((func7 inst == 0#7 &&
        (func3 inst == 0#3 || func3 inst == 2#3 || func3 inst == 3#3 || func3 inst == 5#3)) ||
      (func7 inst == 1#7 && (func3 inst == 2#3 || func3 inst == 5#3)))

def isPack : Bool := isReg inst 0b0000100#7 0b100#3

def isRv32iImmediate : Bool :=
  opcode inst == 0b0010011#7 && isFmtI inst &&
    ((func3 inst != 0b001#3 && func3 inst != 0b101#3) ||
      (func3 inst == 0b001#3 && func7 inst == 0#7) ||
      (func3 inst == 0b101#3 && (func7 inst == 0#7 || func7 inst == 0b0100000#7)))

def isRv32iRegister : Bool :=
  opcode inst == 0b0110011#7 && !isFmtI inst &&
    (func7 inst == 0#7 ||
      (func7 inst == 0b0100000#7 && (func3 inst == 0#3 || func3 inst == 0b101#3)))

def isFastIntegerArithmetic : Bool :=
  isTyp inst .arithmetic && (isRv32iImmediate inst || isRv32iRegister inst || isPack inst)

def isLongArithmetic : Bool :=
  isTyp inst .arithmetic && (isMExtArithmetic inst || isIterativeB inst || isShortB inst)

def isAccelerator : Bool :=
  isCrcU8Custom inst || isBitExtractMulCustom inst || isListReverseCustom inst ||
    isMatrixReduceCustom inst || isNumericDfaCustom inst

def resultKind : ResultKind :=
  if isTyp inst .load then .load
  else if isTyp inst .lui || isTyp inst .auipc || isTyp inst .jal || isTyp inst .jalr ||
      isTyp inst .system then .direct
  else if isAccelerator inst then .accelerator
  else if isLongArithmetic inst then .longArithmetic
  else .fastInt

def isECall : Bool := inst == 0x73#32
def isMRet : Bool := inst == 0x30200073#32
def isPredictableReturn : Bool := inst == 0x00008067#32

end Code

/-! ## Bypass -/

/-- `SingleByPassMux.conflict`. -/
def conflict (rs rd : BitVec 5) (en : Bool) : Bool := rs == rd && rd != 0#5 && en

structure ByPass where
  needStall : Bool
  outData : Word
  lateLoadSelect : Bool
  adjacentFastSelect : Bool
  deriving DecidableEq, Repr

/-- `CacheAwareByPassMux`; WBU is only seen through the register file's write-through. -/
def CacheAwareByPassMux (rs : BitVec 5) (regData : Word) (exu lsu : WrBackForwardInfo)
    (lateLoadProducer allowLateLoad allowAdjacentFast : Bool) : ByPass :=
  let exuConflict := conflict rs exu.addr exu.enWr
  let lsuConflict := conflict rs lsu.addr lsu.enWr
  let lateLoadSelect := allowLateLoad && exuConflict && lateLoadProducer
  let adjacentFastSelect := allowAdjacentFast && exuConflict && exu.dataVaild
  let lsuSelect := !exuConflict && lsuConflict && lsu.dataVaild
  { needStall :=
      if exuConflict then !lateLoadSelect && !adjacentFastSelect else lsuConflict && !lsuSelect
    outData := if lsuSelect then lsu.data else regData
    lateLoadSelect := lateLoadSelect
    adjacentFastSelect := adjacentFastSelect }

/-- The split adder: bits `21..16` of the base are kept unless a positive offset
carries into the data RAM or into the peripherals. -/
def addAddrImm (base : Word) (addrImm12 : BitVec 12) : BitVec 22 :=
  let lowSum : BitVec 17 :=
    (base.extractLsb' 0 16).setWidth 17 + (addrImm12.signExtend 16).setWidth 17
  let positiveOffset := !addrImm12.getLsbD 11
  let crossesIntoDram :=
    positiveOffset && base.extractLsb' 12 8 == 0xff#8 && lowSum.getLsbD 16
  let crossesIntoPerip :=
    positiveOffset && base.extractLsb' 12 9 == 0x1ff#9 && lowSum.getLsbD 16
  let high : BitVec 6 :=
    if crossesIntoPerip then 0x20 else if crossesIntoDram then 0x10 else base.extractLsb' 16 6
  high ++ lowSum.extractLsb' 0 16

/-! ## The stage -/

structure In where
  valid : Bool
  bits : FetchedInst
  /-- The two read ports, addressed by `rs1` and `rs2` of the instruction. -/
  rdata1 : Word
  rdata2 : Word
  exu : WrBackForwardInfo
  lsu : WrBackForwardInfo
  lateLoadProducer : Bool
  outReady : Bool

variable (i : In)

def inst : Word := i.bits.code

def byPass1 : ByPass :=
  CacheAwareByPassMux
    (if isListReverseLoopEncoding (inst i) || needReg1AddImm (inst i) then 0 else rs1 (inst i))
    i.rdata1 i.exu i.lsu i.lateLoadProducer (allowLateLoadRs1 (inst i))
    (isFastIntegerArithmetic (inst i) || isTyp (inst i) .branch)

def byPass2 : ByPass :=
  CacheAwareByPassMux (rs2 (inst i)) i.rdata2 i.exu i.lsu i.lateLoadProducer
    (isEqualityBranch (inst i))
    (isFastIntegerArithmetic (inst i) || isTyp (inst i) .branch || isTyp (inst i) .store)

def addressExuConflict : Bool :=
  needReg1AddImm (inst i) && conflict (rs1 (inst i)) i.exu.addr i.exu.enWr
def addressLsuConflict : Bool :=
  needReg1AddImm (inst i) && conflict (rs1 (inst i)) i.lsu.addr i.lsu.enWr
def addressLsuReady : Bool := addressLsuConflict i && i.lsu.dataVaild
def needStallAddress : Bool :=
  addressExuConflict i || (addressLsuConflict i && !addressLsuReady i)

def needStall : Bool := (byPass1 i).needStall || (byPass2 i).needStall || needStallAddress i

def addressBase : Word := if addressLsuReady i then i.lsu.data else i.rdata1

def reg1 : Word := (byPass1 i).outData
def reg2 : Word := if isFmtI (inst i) then immI (inst i) else (byPass2 i).outData

def fastAluRs1Token : Bool := (byPass1 i).adjacentFastSelect && isFastIntegerArithmetic (inst i)
def fastAluRs2Token : Bool := (byPass2 i).adjacentFastSelect && isFastIntegerArithmetic (inst i)
def fastBranchRs1Token : Bool := (byPass1 i).adjacentFastSelect && isTyp (inst i) .branch
def fastBranchRs2Token : Bool := (byPass2 i).adjacentFastSelect && isTyp (inst i) .branch
def fastStoreRs2Token : Bool := (byPass2 i).adjacentFastSelect && isTyp (inst i) .store

/-- A token is stored as eight copies, each inverted by a bit of the base operand. -/
def encodeToken (token : Bool) (base : Word) : BitVec 8 := fill 8 token ^^^ base.extractLsb' 0 8

def pcAddImm : Word := i.bits.pc + imm (inst i)
def snpc : Word := i.bits.pc + 4

def returnProducerPending : Bool :=
  conflict (rs1 (inst i)) i.exu.addr i.exu.enWr || conflict (rs1 (inst i)) i.lsu.addr i.lsu.enWr

def returnTargetPredWrong : Bool :=
  isPredictableReturn (inst i) && i.bits.pred.hit &&
    (returnProducerPending i ||
      TrimmedPC.trim i.rdata1 != TrimmedPC.trim i.bits.pred.pc)

def notBranchPredWrong : Bool :=
  isECall (inst i) || isMRet (inst i) ||
    (isTyp (inst i) .jal && !i.bits.pred.hit) ||
    (isTyp (inst i) .jalr && (!isPredictableReturn (inst i) || !i.bits.pred.hit)) ||
    returnTargetPredWrong i

def info : DecodedInstInfo where
  toInstMetaInfo := metaInfo (inst i)
  imm := imm (inst i)
  rd := rd (inst i)
  rs1 := rs1 (inst i)
  rs2 := rs2 (inst i)
  rdWrEn := rdWrEn (inst i)
  reg1 := reg1 i
  reg2 := reg2 i
  staticNextPCOrCSRTarget := snpc i
  pcAddImm := pcAddImm i
  reg1AddImm := addAddrImm (addressBase i) (addrImm12 (inst i))
  lateLoadRs1 := (byPass1 i).lateLoadSelect
  lateLoadRs2 := (byPass2 i).lateLoadSelect
  fastAluRs1 := encodeToken (fastAluRs1Token i) (reg1 i)
  fastAluRs2 := encodeToken (fastAluRs2Token i) (reg2 i)
  fastBranchRs1 := encodeToken (fastBranchRs1Token i) (reg1 i)
  fastBranchRs2 := encodeToken (fastBranchRs2Token i) (reg2 i)
  fastStoreRs2 := encodeToken (fastStoreRs2Token i) (reg2 i)
  adjacentFastBranch := fastBranchRs1Token i || fastBranchRs2Token i
  resultKind := resultKind (inst i)
  bExtValid := isTyp (inst i) .arithmetic && !isMExtArithmetic (inst i) && isIterativeB (inst i)
  crcValid := isCrcU8Custom (inst i)
  xbmulValid := isBitExtractMulCustom (inst i)
  listReverseValid := isListReverseCustom (inst i)
  listReverseStep := isListReverseCustom (inst i)
  listReverseLoop := isListReverseCustom (inst i) && isListReverseLoopEncoding (inst i)
  xmsumValid := isMatrixReduceCustom (inst i)
  numericDfaValid := isNumericDfaCustom (inst i)
  aluIsSub := !isFmtI (inst i) && (inst i).getLsbD 30
  isECall := isECall (inst i)
  isMRet := isMRet (inst i)
  is_beq := isTyp (inst i) .branch && func3 (inst i) == 0b000#3
  is_bne := isTyp (inst i) .branch && func3 (inst i) == 0b001#3
  is_blt := isTyp (inst i) .branch && func3 (inst i) == 0b100#3
  is_bge := isTyp (inst i) .branch && func3 (inst i) == 0b101#3
  is_bltu := isTyp (inst i) .branch && func3 (inst i) == 0b110#3
  is_bgeu := isTyp (inst i) .branch && func3 (inst i) == 0b111#3
  notBranchPredWrong := notBranchPredWrong i
  preMuxWrBackData :=
    mux1H
      [(isTyp (inst i) .lui, immU (inst i)),
       (isTyp (inst i) .auipc, pcAddImm i),
       (isTyp (inst i) .jalr || isTyp (inst i) .jal, snpc i),
       (isTyp (inst i) .system, 0)]

def outBits : DecodedInst where
  code := inst i
  pc := i.bits.pc
  iid := i.bits.iid
  epoch := i.bits.epoch
  predTake := i.bits.pred.take
  info := info i

def inReady : Bool := i.outReady && !needStall i
def outValid : Bool := i.valid && !needStall i

end IDU
end Core
end Jyd
