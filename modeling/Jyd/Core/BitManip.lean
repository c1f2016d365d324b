import Jyd.Core.CommonDef

/-!
# BitManip — the iterative B-extension unit

`BExtensionUnit` of `BitManip.scala`: one accepted request is decoded locally
and worked off bit by bit (or byte by byte) until its result register is valid.
-/

namespace Jyd
namespace Core

open Hdl

inductive BExtensionOp
  | clz
  | ctz
  | cpop
  | clmul
  | clmulh
  | orcB
  | xperm4
  | ror
  | pack
  deriving DecidableEq, Repr

structure BExtensionInput where
  isImm : Bool
  func3t : BitVec 3
  func7t : BitVec 7
  src1 : Word
  src2 : Word
  deriving DecidableEq, Repr

namespace BExtensionUnit

inductive State
  | idle
  | busy
  | done
  deriving DecidableEq, Repr

structure Regs where
  state : State
  opReg : BExtensionOp
  sourceA : Word
  workA : BitVec 64
  workB : Word
  accum : BitVec 64
  count : BitVec 6
  rorRemain : BitVec 5
  found : Bool
  iteration : BitVec 5
  resultReg : Word
  crcClmulhFast : Bool
  crcClmulhResult : BitVec 16

/-! ## Request decoding -/

section Decode

variable (i : BExtensionInput)

def immLow5 : BitVec 5 := i.src2.extractLsb' 0 5

/-- The unary count group shares one encoding and is split by the low immediate. -/
def isCount (sel : BitVec 5) : Bool :=
  i.isImm && i.func3t == 0b001#3 && i.func7t == 0b0110000#7 && immLow5 i == sel

def isClmul : Bool := !i.isImm && i.func3t == 0b001#3 && i.func7t == 0b0000101#7
def isClmulh : Bool := !i.isImm && i.func3t == 0b011#3 && i.func7t == 0b0000101#7
def isOrcB : Bool :=
  i.isImm && i.func3t == 0b101#3 && i.func7t == 0b0010100#7 && immLow5 i == 7#5
def isXperm4 : Bool := !i.isImm && i.func3t == 0b010#3 && i.func7t == 0b0010100#7
def isRor : Bool := !i.isImm && i.func3t == 0b101#3 && i.func7t == 0b0110000#7
def isRori : Bool := i.isImm && i.func3t == 0b101#3 && i.func7t == 0b0110000#7
def isPack : Bool := !i.isImm && i.func3t == 0b100#3 && i.func7t == 0b0000100#7

def decodedOp : BExtensionOp :=
  if isCount i 1#5 then .ctz
  else if isCount i 2#5 then .cpop
  else if isClmul i then .clmul
  else if isClmulh i then .clmulh
  else if isOrcB i then .orcB
  else if isXperm4 i then .xperm4
  else if isRor i || isRori i then .ror
  else if isPack i then .pack
  else .clz

end Decode

/-! ## One iteration -/

/-- The working registers after one iteration of the selected operation. -/
def iterate (r : Regs) : Regs :=
  match r.opReg with
  | .clz =>
    { r with
      workA := r.workA <<< 1
      found := if !r.found && r.workA.getLsbD 31 then true else r.found
      count := if !r.found && !r.workA.getLsbD 31 then r.count + 1 else r.count }
  | .ctz =>
    { r with
      workA := r.workA >>> 1
      found := if !r.found && r.workA.getLsbD 0 then true else r.found
      count := if !r.found && !r.workA.getLsbD 0 then r.count + 1 else r.count }
  | .cpop =>
    { r with
      workA := r.workA >>> 1
      count := r.count + (r.workA.extractLsb' 0 1).setWidth 6 }
  | .clmul | .clmulh =>
    -- two zero multiplier bits are skipped in one iteration
    let skipZeroPair := r.workB.extractLsb' 0 2 == 0#2
    { r with
      workA := if skipZeroPair then r.workA <<< 2 else r.workA <<< 1
      workB := if skipZeroPair then r.workB >>> 2 else r.workB >>> 1
      accum := if !skipZeroPair && r.workB.getLsbD 0 then r.accum ^^^ r.workA else r.accum }
  | .orcB =>
    if r.iteration < 4#5 then
      { r with
        workA := r.workA >>> 8
        accum :=
          (fill 8 (r.workA.extractLsb' 0 8 != 0#8) ++ r.accum.extractLsb' 8 24).setWidth 64 }
    else r
  | .xperm4 =>
    if r.iteration < 8#5 then
      let index := (r.workB.extractLsb' 0 4).toNat
      let selectedNibble := if index < 8 then r.sourceA.extractLsb' (4 * index) 4 else 0#4
      { r with
        workB := r.workB >>> 4
        accum := (selectedNibble ++ r.accum.extractLsb' 4 28).setWidth 64 }
    else r
  | .ror =>
    if r.rorRemain != 0#5 then
      { r with
        workA := (r.workA.extractLsb' 0 1 ++ r.workA.extractLsb' 1 31).setWidth 64
        rorRemain := r.rorRemain - 1 }
    else r
  | .pack =>
    { r with
      accum := (r.workB.extractLsb' 0 16 ++ r.workA.extractLsb' 0 16).setWidth 64 }

def isClmulOp (op : BExtensionOp) : Bool := op == .clmul || op == .clmulh

def isCountOp (op : BExtensionOp) : Bool := op == .clz || op == .ctz || op == .cpop

/-- The final result, read off the registers after the last iteration. -/
def finalResult (n : Regs) : Word :=
  if n.opReg == .ror then n.workA.extractLsb' 0 32
  else if isCountOp n.opReg then n.count.setWidth 32
  else if isClmulOp n.opReg then
    (if n.opReg == .clmulh then n.accum.extractLsb' 32 32 else n.accum.extractLsb' 0 32)
  else n.accum.extractLsb' 0 32

/-- The dedicated high product by `0x00014002`. -/
def crcShortcut (a : Word) : BitVec 16 :=
  a.extractLsb' 31 1 ++ a.extractLsb' 30 1 ++
    (a.extractLsb' 19 13 ^^^ a.extractLsb' 17 13) ++
    (a.extractLsb' 31 1 ^^^ a.extractLsb' 18 1 ^^^ a.extractLsb' 16 1)

/-! ## The unit -/

def inReady (r : Regs) : Bool := r.state == .idle
def outValid (r : Regs) : Bool := r.state == .done
def outBits (r : Regs) : Word :=
  if r.crcClmulhFast then r.crcClmulhResult.setWidth 32 else r.resultReg

def next (r : Regs) (inValid : Bool) (i : BExtensionInput) (outReady : Bool) : Regs :=
  match r.state with
  | .idle =>
    if inValid then
      { r with
        opReg := decodedOp i
        crcClmulhFast := isClmulh i && i.src2 == 0x00014002#32
        sourceA := i.src1
        workA := i.src1.setWidth 64
        workB := i.src2
        accum := 0
        count := 0
        rorRemain := i.src2.extractLsb' 0 5
        found := false
        iteration := 0
        state := .busy }
    else r
  | .busy =>
    let n := iterate r
    if r.crcClmulhFast then
      { n with crcClmulhResult := crcShortcut r.sourceA, state := .done }
    else if r.iteration == 31#5 || (isClmulOp r.opReg && n.workB == 0#32) then
      { n with resultReg := finalResult n, state := .done }
    else
      { n with iteration := r.iteration + 1 }
  | .done =>
    if outReady then { r with state := .idle } else r

end BExtensionUnit

end Core
end Jyd
