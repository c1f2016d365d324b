import Jyd.Core.BitManip

/-!
# Alu — the fast integer lane and the special execution cluster

`FastIntegerALU` is combinational.  `SpecialExecutionCluster` adds the short
B operations and the single-cycle accelerators to three multi-cycle units: the
multiplier (with its pipelined IP blocks), the divider and the B unit.
-/

namespace Jyd
namespace Core

open Hdl

/-! ## Fast integer lane -/

structure FastIntegerALUInput where
  isImm : Bool
  isSub : Bool
  func3t : BitVec 3
  func7t : BitVec 7
  src1 : Word
  src2 : Word
  deriving DecidableEq, Repr

namespace FastIntegerALU

variable (i : FastIntegerALUInput)

/-- The carry-select adder: the low half decides which high half is used. -/
def addSubResult : Word :=
  let addSubSrc2 := if i.isSub then ~~~i.src2 else i.src2
  let addSubLow : BitVec 17 :=
    (i.src1.extractLsb' 0 16).setWidth 17 + (addSubSrc2.extractLsb' 0 16).setWidth 17 +
      (BitVec.ofBool i.isSub).setWidth 17
  let addSubHighCarry0 := i.src1.extractLsb' 16 16 + addSubSrc2.extractLsb' 16 16
  let addSubHighCarry1 := i.src1.extractLsb' 16 16 + addSubSrc2.extractLsb' 16 16 + 1
  (if addSubLow.getLsbD 16 then addSubHighCarry1 else addSubHighCarry0) ++
    addSubLow.extractLsb' 0 16

def isPack : Bool := !i.isImm && i.func3t == 0b100#3 && i.func7t == 0b0000100#7

def outBits : Word :=
  let shamt := (i.src2.extractLsb' 0 5).toNat
  match i.func3t with
  | 0#3 => addSubResult i
  | 1#3 => i.src1 <<< shamt
  | 2#3 => (BitVec.ofBool (i.src1.slt i.src2)).setWidth 32
  | 3#3 => (BitVec.ofBool (i.src1.ult i.src2)).setWidth 32
  | 4#3 =>
    if isPack i then i.src2.extractLsb' 0 16 ++ i.src1.extractLsb' 0 16 else i.src1 ^^^ i.src2
  | 5#3 => if i.func7t.getLsbD 5 then i.src1.sshiftRight shamt else i.src1 >>> shamt
  | 6#3 => i.src1 ||| i.src2
  | _ => i.src1 &&& i.src2

end FastIntegerALU

/-! ## Multiplier -/

structure MultiplierInput where
  src1 : Word
  src2 : Word
  rawSrc1 : Word
  rawSrc2 : Word
  prevData : Word
  prevRs1 : Bool
  prevRs2 : Bool
  noLate : Bool
  func3t : BitVec 3
  deriving DecidableEq, Repr

namespace Multiplier

inductive State
  | idle
  | busy
  | done
  deriving DecidableEq, Repr

structure Regs where
  state : State
  isFastReg : Bool
  isNarrowFastReg : Bool
  narrowSelectReg : Bool
  narrowPrevAReg : BitVec 16
  narrowPrevBReg : BitVec 16
  resultReg : Word
  slowValidPipe : BitVec 4
  fastValidPipe : BitVec 3
  narrowValidPipe : BitVec 2
  /-- `pipe` of `mult_gen_0`, entry `0` first. -/
  slowPipe : BitVec 66 × BitVec 66 × BitVec 66 × BitVec 66
  /-- `pipe` of `mult_gen_mul32_fast`. -/
  fastPipe : Word × Word × Word
  /-- The single stage of each of the two `mult_gen_mul16_fast` blocks. -/
  narrowPipe0 : Word
  narrowPipe1 : Word

variable (r : Regs) (i : MultiplierInput)

def aExt : BitVec 33 :=
  BitVec.ofBool ((i.func3t == 1#3 || i.func3t == 2#3) && i.src1.getLsbD 31) ++ i.src1

def bExt : BitVec 33 :=
  BitVec.ofBool (i.func3t == 1#3 && i.src2.getLsbD 31) ++ i.src2

def product : BitVec 66 := (aExt i).signExtend 66 * (bExt i).signExtend 66

def result : Word :=
  if r.isNarrowFastReg then (if r.narrowSelectReg then r.narrowPipe1 else r.narrowPipe0)
  else if r.isFastReg then r.fastPipe.2.2
  else r.slowPipe.2.2.2.extractLsb' 32 32

def resultValid : Bool :=
  if r.isNarrowFastReg then
    (if r.narrowSelectReg then r.narrowValidPipe.getLsbD 1 else r.narrowValidPipe.getLsbD 0)
  else if r.isFastReg then r.fastValidPipe.getLsbD 2
  else r.slowValidPipe.getLsbD 3

def inReady : Bool := r.state == .idle
def outValid : Bool := r.state == .done || (r.state == .busy && resultValid r)
def outBits : Word := if r.state == .done then r.resultReg else result r

/-- The IP blocks shift on every clock, whatever the controller does. -/
def clockPipes : Regs :=
  { r with
    slowPipe := (product i, r.slowPipe.1, r.slowPipe.2.1, r.slowPipe.2.2.1)
    fastPipe := (i.src1 * i.src2, r.fastPipe.1, r.fastPipe.2.1)
    narrowPipe0 :=
      (i.rawSrc1.extractLsb' 0 16).setWidth 32 * (i.rawSrc2.extractLsb' 0 16).setWidth 32
    narrowPipe1 := r.narrowPrevAReg.setWidth 32 * r.narrowPrevBReg.setWidth 32 }

def isNarrowFast : Bool :=
  i.func3t == 0#3 && i.noLate && !i.prevRs1 &&
    i.src1.extractLsb' 16 16 == 0#16 && i.src2.extractLsb' 16 16 == 0#16

def next (inValid outReady : Bool) : Regs :=
  let c := clockPipes r i
  match r.state with
  | .idle =>
    if inValid then
      let isMul := i.func3t == 0#3
      { c with
        isFastReg := isMul
        isNarrowFastReg := isNarrowFast i
        narrowSelectReg := i.prevRs2
        narrowPrevAReg := i.rawSrc1.extractLsb' 0 16
        narrowPrevBReg := i.prevData.extractLsb' 0 16
        slowValidPipe := if isMul then 0 else 1
        fastValidPipe := if isMul then 1 else 0
        narrowValidPipe := if isNarrowFast i then 1 else 0
        state := .busy }
    else c
  | .busy =>
    let b :=
      { c with
        slowValidPipe := r.slowValidPipe <<< 1
        fastValidPipe := r.fastValidPipe <<< 1
        narrowValidPipe := r.narrowValidPipe <<< 1 }
    if resultValid r then
      (if outReady then { b with state := .idle }
       else { b with resultReg := result r, state := .done })
    else b
  | .done =>
    if outReady then { c with state := .idle } else c

end Multiplier

/-! ## Divider -/

structure DividerInput where
  src1 : Word
  src2 : Word
  func3t : BitVec 3
  deriving DecidableEq, Repr

namespace Divider

inductive State
  | idle
  | busy
  | correct
  | done
  deriving DecidableEq, Repr

structure Regs where
  state : State
  resultIsRemReg : Bool
  resultNegReg : Bool
  resultReg : Word
  divisorReg : Word
  quotientReg : Word
  remainderReg : BitVec 33
  iterationReg : BitVec 5

variable (r : Regs) (i : DividerInput)

def inputIsRem : Bool := i.func3t.getLsbD 1
def inputIsSigned : Bool := !i.func3t.getLsbD 0
def inputDividendNeg : Bool := inputIsSigned i && i.src1.getLsbD 31
def inputDivisorNeg : Bool := inputIsSigned i && i.src2.getLsbD 31
def inputDividendAbs : Word := if inputDividendNeg i then ~~~i.src1 + 1 else i.src1
def inputDivisorAbs : Word := if inputDivisorNeg i then ~~~i.src2 + 1 else i.src2
def inputDivideByZero : Bool := i.src2 == 0#32

def shiftedRemainder : BitVec 33 :=
  r.remainderReg.extractLsb' 0 32 ++ r.quotientReg.extractLsb' 31 1

def subtractResult : BitVec 33 := shiftedRemainder r - (0#1 ++ r.divisorReg)
def canSubtract : Bool := !(subtractResult r).getLsbD 32
def nextRemainder : BitVec 33 :=
  if canSubtract r then subtractResult r else shiftedRemainder r
def nextQuotient : Word := r.quotientReg.extractLsb' 0 31 ++ BitVec.ofBool (canSubtract r)
def unsignedResult : Word :=
  if r.resultIsRemReg then (nextRemainder r).extractLsb' 0 32 else nextQuotient r
def correctedResult : Word := if r.resultNegReg then ~~~r.resultReg + 1 else r.resultReg

def inReady : Bool := r.state == .idle
def outValid : Bool := r.state == .done
def outBits : Word := r.resultReg

def next (inValid outReady : Bool) : Regs :=
  match r.state with
  | .idle =>
    if inValid then
      { r with
        resultIsRemReg := inputIsRem i
        resultNegReg :=
          if inputIsRem i then inputDividendNeg i
          else !inputDivideByZero i && (inputDividendNeg i ^^ inputDivisorNeg i)
        divisorReg := inputDivisorAbs i
        quotientReg := inputDividendAbs i
        remainderReg := 0
        iterationReg := 0
        state := .busy }
    else r
  | .busy =>
    if r.iterationReg == 31#5 then
      { r with resultReg := unsignedResult r, state := .correct }
    else
      { r with
        quotientReg := nextQuotient r
        remainderReg := nextRemainder r
        iterationReg := r.iterationReg + 1 }
  | .correct => { r with resultReg := correctedResult r, state := .done }
  | .done => if outReady then { r with state := .idle } else r

end Divider

/-! ## Special execution cluster -/

structure ALUInput where
  is_imm : Bool
  isSub : Bool
  func3t : BitVec 3
  func7t : BitVec 7
  bExtValid : Bool
  crcValid : Bool
  xbmulValid : Bool
  src1 : Word
  src2 : Word
  mulRawSrc1 : Word
  mulRawSrc2 : Word
  mulPrevData : Word
  mulPrevRs1 : Bool
  mulPrevRs2 : Bool
  mulNoLate : Bool
  deriving DecidableEq, Repr

namespace SpecialExecutionCluster

structure Regs where
  bExtension : BExtensionUnit.Regs
  multiplier : Multiplier.Regs
  divider : Divider.Regs

variable (r : Regs) (i : ALUInput)

/-- A register-form operation named by its function fields. -/
def isReg (f7 : BitVec 7) (f3 : BitVec 3) : Bool :=
  !i.is_imm && i.func7t == f7 && i.func3t == f3

/-- An immediate-form operation whose low immediate bits extend the opcode. -/
def isImmSel (f7 : BitVec 7) (f3 : BitVec 3) (sel : BitVec 5) : Bool :=
  i.is_imm && i.func7t == f7 && i.func3t == f3 && i.src2.extractLsb' 0 5 == sel

/-- An operation that has both forms. -/
def isEither (f7 : BitVec 7) (f3 : BitVec 3) : Bool :=
  i.func7t == f7 && i.func3t == f3

/-- Row masks of the parallel CRC matrix, bit `0` first. -/
def crcMasks : List (BitVec 24) :=
  [0xff01ff, 0x000200, 0x000400, 0x000800,
   0x001000, 0x002000, 0x014001, 0x038003,
   0x060006, 0x0c000c, 0x180018, 0x300030,
   0x600060, 0xc000c0, 0x7f007f, 0xff00ff]

def xorR {n : Nat} (x : BitVec n) : Bool :=
  (List.range n).foldl (fun acc k => acc ^^ x.getLsbD k) false

def crcResult : Word :=
  let crcInput : BitVec 24 := i.src1.extractLsb' 0 8 ++ i.src2.extractLsb' 0 16
  BitVec.ofBoolListLE (crcMasks.map (fun mask => xorR (crcInput &&& mask))) |>.setWidth 32

def xbmulResult : Word :=
  (i.src1.extractLsb' 2 4).setWidth 32 * (i.src1.extractLsb' 5 7).setWidth 32

def aluResult : Word :=
  let src1 := i.src1
  let src2 := i.src2
  let shamt := (src2.extractLsb' 0 5).toNat
  let bitMask := 1#32 <<< shamt
  if isReg i 0b0010000#7 0b010#3 then src2 + (src1 <<< 1)
  else if isReg i 0b0010000#7 0b100#3 then src2 + (src1 <<< 2)
  else if isReg i 0b0010000#7 0b110#3 then src2 + (src1 <<< 3)
  else if isImmSel i 0b0110000#7 0b001#3 4#5 then (src1.extractLsb' 0 8).signExtend 32
  else if isImmSel i 0b0110000#7 0b001#3 5#5 then (src1.extractLsb' 0 16).signExtend 32
  else if isReg i 0b0000101#7 0b101#3 then (if src1.ult src2 then src1 else src2)
  else if isEither i 0b0100100#7 0b101#3 then ((src1 >>> shamt).extractLsb' 0 1).setWidth 32
  else if isEither i 0b0010100#7 0b001#3 then src1 ||| bitMask
  else if isEither i 0b0100100#7 0b001#3 then src1 &&& ~~~bitMask
  else if isEither i 0b0110100#7 0b001#3 then src1 ^^^ bitMask
  else if isReg i 0b0100000#7 0b111#3 then src1 &&& ~~~src2
  else if isReg i 0b0100000#7 0b110#3 then src1 ||| ~~~src2
  else if isReg i 0b0100000#7 0b100#3 then ~~~(src1 ^^^ src2)
  else if isReg i 0b0000101#7 0b110#3 then (if src1.slt src2 then src2 else src1)
  else if isReg i 0b0000101#7 0b111#3 then (if src1.ult src2 then src2 else src1)
  else if isReg i 0b0000101#7 0b100#3 then (if src1.slt src2 then src1 else src2)
  else if isReg i 0b0110000#7 0b001#3 then
    (if shamt = 0 then src1 else (src1 <<< shamt) ||| (src1 >>> (32 - shamt)))
  else if isImmSel i 0b0110100#7 0b101#3 24#5 then
    src1.extractLsb' 0 8 ++ src1.extractLsb' 8 8 ++ src1.extractLsb' 16 8 ++ src1.extractLsb' 24 8
  else if i.crcValid then crcResult i
  else if i.xbmulValid then xbmulResult i
  else 0

def isMExt : Bool := !i.is_imm && i.func7t == 0b0000001#7
def isMulOp : Bool := isMExt i && !i.func3t.getLsbD 2
def isDivOp : Bool := isMExt i && i.func3t.getLsbD 2

def outValid (inValid : Bool) : Bool :=
  mux1HBool
    [(i.bExtValid, BExtensionUnit.outValid r.bExtension),
     (isMulOp i, Multiplier.outValid r.multiplier),
     (isDivOp i, Divider.outValid r.divider),
     (!i.bExtValid && !isMExt i, inValid)]

def outBits : Word :=
  if i.bExtValid || isMulOp i || isDivOp i then
    mux1H
      [(i.bExtValid, BExtensionUnit.outBits r.bExtension),
       (isMulOp i, Multiplier.outBits r.multiplier),
       (isDivOp i, Divider.outBits r.divider)]
  else aluResult i

def bExtensionIn : BExtensionInput :=
  { isImm := i.is_imm, func3t := i.func3t, func7t := i.func7t, src1 := i.src1, src2 := i.src2 }

def multiplierIn : MultiplierInput :=
  { src1 := i.src1, src2 := i.src2, rawSrc1 := i.mulRawSrc1, rawSrc2 := i.mulRawSrc2
    prevData := i.mulPrevData, prevRs1 := i.mulPrevRs1, prevRs2 := i.mulPrevRs2
    noLate := i.mulNoLate, func3t := i.func3t }

def dividerIn : DividerInput :=
  { src1 := i.src1, src2 := i.src2, func3t := i.func3t }

def next (inValid outReady : Bool) : Regs where
  bExtension := BExtensionUnit.next r.bExtension (inValid && i.bExtValid) (bExtensionIn i) outReady
  multiplier := Multiplier.next r.multiplier (multiplierIn i) (inValid && isMulOp i) outReady
  divider := Divider.next r.divider (dividerIn i) (inValid && isDivOp i) outReady

end SpecialExecutionCluster

end Core
end Jyd
