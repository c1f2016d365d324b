import Jyd.Hdl.Signal
import Jyd.Hdl.Transducer

/-!
# RtlModel — the predictor runners of the branch simulator

`RtlModelRunner::process` replays one record of a branch trace: it predicts, counts and
then updates its table under one of four allocation policies, with an optional direction
table and optional selected index bits.  A failed assertion is `none`.
-/

namespace Jyd
namespace Branchsim

open Hdl

structure Record where
  pc : Word
  code : Word
  nxtPc : Word
  deriving DecidableEq, Repr

/-! ## Decoding -/

def signExtend (value : Word) (bits : ℕ) : Word :=
  let signBit := 1#32 <<< (bits - 1)
  (value ^^^ signBit) - signBit

def getBImm (code : Word) : Word :=
  let imm12 := (code >>> 31) &&& 0x1#32
  let imm11 := (code >>> 7) &&& 0x1#32
  let imm10_5 := (code >>> 25) &&& 0x3f#32
  let imm4_1 := (code >>> 8) &&& 0xf#32
  signExtend ((imm12 <<< 12) ||| (imm11 <<< 11) ||| (imm10_5 <<< 5) ||| (imm4_1 <<< 1)) 13

def getJImm (code : Word) : Word :=
  let imm20 := (code >>> 31) &&& 0x1#32
  let imm19_12 := (code >>> 12) &&& 0xff#32
  let imm11 := (code >>> 20) &&& 0x1#32
  let imm10_1 := (code >>> 21) &&& 0x3ff#32
  signExtend ((imm20 <<< 20) ||| (imm19_12 <<< 12) ||| (imm11 <<< 11) ||| (imm10_1 <<< 1)) 21

def isConditionalBranch (code : Word) : Bool := code &&& 0x7f#32 == 0x63#32
def isJal (code : Word) : Bool := code &&& 0x7f#32 == 0x6f#32
def isJalr (code : Word) : Bool := code &&& 0x7f#32 == 0x67#32
def isExactRet (code : Word) : Bool := code == 0x00008067#32

inductive ControlKind
  | branch
  | jal
  | ret
  | jalr
  deriving DecidableEq, Repr

def getControlKind (code : Word) : Option ControlKind :=
  if isConditionalBranch code then some .branch
  else if isJal code then some .jal
  else if isExactRet code then some .ret
  else if isJalr code then some .jalr
  else none

structure DecodedBranch where
  isConditional : Bool
  isJal : Bool
  directTargetValid : Bool
  directTarget : Word
  deriving DecidableEq, Repr

def decodeBranch (pc code : Word) : DecodedBranch where
  isConditional := isConditionalBranch code
  isJal := isJal code
  directTargetValid := isConditionalBranch code || isJal code
  directTarget :=
    if isConditionalBranch code then pc + getBImm code
    else if isJal code then pc + getJImm code
    else 0

/-! ## Configuration and state -/

inductive RtlAllocationPolicy
  | always
  | skipConflictingNotTaken
  | protectJalFromBranches
  | secondChanceJal
  deriving DecidableEq, Repr

structure RtlModelConfig where
  btbSize : ℕ
  allocationPolicy : RtlAllocationPolicy
  indexBits : List ℕ
  directionTableSize : ℕ
  ghrBits : ℕ

structure RtlBTBEntry where
  pc : Word
  target : Word
  directionCounter : BitVec 8
  valid : Bool
  isJal : Bool
  isBranch : Bool
  jalProtected : Bool
  deriving DecidableEq, Repr

def RtlBTBEntry.empty : RtlBTBEntry := ⟨0, 0, 0, false, false, false, false⟩

structure RtlModelStats where
  total : BitVec 64
  wrong : BitVec 64
  directionWrong : BitVec 64
  targetWrong : BitVec 64
  noPrediction : BitVec 64
  skippedNotTakenAllocations : BitVec 64
  totalByKind : ControlKind → BitVec 64
  wrongByKind : ControlKind → BitVec 64

structure RtlModelRunner where
  entries : ℕ → RtlBTBEntry
  directionCounters : ℕ → BitVec 8
  ghr : Word
  stats : RtlModelStats

namespace RtlModelRunner

def init : RtlModelRunner where
  entries := fun _ => RtlBTBEntry.empty
  directionCounters := fun _ => 1
  ghr := 0
  stats := ⟨0, 0, 0, 0, 0, 0, fun _ => 0, fun _ => 0⟩

section Process

variable (config : RtlModelConfig) (r : RtlModelRunner) (record : Record) (kind : ControlKind)

def getIndex (pc : Word) : ℕ :=
  if config.indexBits ≠ [] then
    config.indexBits.zipIdx.foldl
      (fun result (bit, i) => result ||| ((((pc >>> (2 + bit)) &&& 1#32) <<< i).toNat)) 0
  else (pc >>> 2).toNat &&& (config.btbSize - 1)

def getDirectionIndex (pc : Word) : ℕ :=
  let history := if config.ghrBits = 0 then 0 else r.ghr
  ((pc >>> 2) ^^^ history).toNat % config.directionTableSize

def oldEntry : RtlBTBEntry := r.entries (getIndex config record.pc)

def hit : Bool := (oldEntry config r record).valid && (oldEntry config r record).pc == record.pc

def branchDirection : Bool :=
  if config.directionTableSize = 0 then decide (2 ≤ (oldEntry config r record).directionCounter)
  else decide (2 ≤ r.directionCounters (getDirectionIndex config r record.pc))

def predictedTaken : Bool :=
  hit config r record &&
    ((oldEntry config r record).isJal ||
      ((oldEntry config r record).isBranch && branchDirection config r record))

def predictedPc : Word :=
  if predictedTaken config r record then (oldEntry config r record).target else record.pc + 4

def actualTaken : Bool := kind != .branch || record.nxtPc != record.pc + 4

def wrong : Bool := predictedPc config r record != record.nxtPc

def nextStats : RtlModelStats :=
  let stats := r.stats
  let taken := predictedTaken config r record
  let counted :=
    { stats with
      total := stats.total + 1
      totalByKind := Function.update stats.totalByKind kind (stats.totalByKind kind + 1) }
  if wrong config r record then
    let missed :=
      { counted with
        wrong := stats.wrong + 1
        wrongByKind := Function.update stats.wrongByKind kind (stats.wrongByKind kind + 1) }
    if taken != actualTaken record kind then
      { missed with directionWrong := stats.directionWrong + 1 }
    else if taken then { missed with targetWrong := stats.targetWrong + 1 }
    else { missed with noPrediction := stats.noPrediction + 1 }
  else counted

def matchingBranch : Bool :=
  hit config r record && (oldEntry config r record).isBranch && kind == .branch

/-- The direction table and the global history behind a conditional branch. -/
def nextDirectionCounters : ℕ → BitVec 8 :=
  if kind = .branch ∧ config.directionTableSize ≠ 0 then
    let k := getDirectionIndex config r record.pc
    let counter := r.directionCounters k
    if actualTaken record kind && counter != 3 then
      Function.update r.directionCounters k (counter + 1)
    else if !actualTaken record kind && counter != 0 then
      Function.update r.directionCounters k (counter - 1)
    else r.directionCounters
  else r.directionCounters

def nextGhr : Word :=
  if kind = .branch ∧ config.directionTableSize ≠ 0 ∧ config.ghrBits ≠ 0 then
    let mask := if 32 ≤ config.ghrBits then BitVec.allOnes 32 else (1#32 <<< config.ghrBits) - 1
    ((r.ghr <<< 1) ||| (if actualTaken record kind then 1 else 0)) &&& mask
  else r.ghr

def skipConflictingNotTaken : Bool :=
  config.allocationPolicy != .always && kind == .branch && !actualTaken record kind &&
    !matchingBranch config r record kind

def protectJal : Bool :=
  config.allocationPolicy == .protectJalFromBranches && kind == .branch && !hit config r record &&
    (oldEntry config r record).valid && (oldEntry config r record).isJal

def giveJalSecondChance : Bool :=
  config.allocationPolicy == .secondChanceJal && kind == .branch && !hit config r record &&
    (oldEntry config r record).valid && (oldEntry config r record).isJal &&
    (oldEntry config r record).jalProtected

def nextDirection : BitVec 8 :=
  let counter := (oldEntry config r record).directionCounter
  if kind = .branch then
    if !matchingBranch config r record kind then (if actualTaken record kind then 2 else 1)
    else if actualTaken record kind && counter != 3 then counter + 1
    else if !actualTaken record kind && counter != 0 then counter - 1
    else counter
  else 0

def storedTarget : Word :=
  if kind = .branch then (decodeBranch record.pc record.code).directTarget else record.nxtPc

def nextEntry : RtlBTBEntry where
  pc := record.pc
  target := storedTarget record kind
  directionCounter := nextDirection config r record kind
  valid := true
  isJal := kind == .jal || kind == .ret
  isBranch := kind == .branch
  jalProtected := kind == .jal || kind == .ret

def skipAllocation : Bool :=
  skipConflictingNotTaken config r record kind || protectJal config r record kind ||
    giveJalSecondChance config r record kind

def nextEntries : ℕ → RtlBTBEntry :=
  if skipAllocation config r record kind then
    if giveJalSecondChance config r record kind then
      Function.update r.entries (getIndex config record.pc)
        { oldEntry config r record with jalProtected := false }
    else r.entries
  else Function.update r.entries (getIndex config record.pc) (nextEntry config r record kind)

def process : Option RtlModelRunner := do
  let kind ← getControlKind record.code
  let stats := nextStats config r record kind
  let skip := skipAllocation config r record kind
  -- a stored branch needs its direct target
  if !skip && kind == .branch && !(decodeBranch record.pc record.code).directTargetValid then none
  else
    some
      { entries := nextEntries config r record kind
        directionCounters := nextDirectionCounters config r record kind
        ghr := nextGhr config r record kind
        stats :=
          if skip then
            { stats with skippedNotTakenAllocations := stats.skippedNotTakenAllocations + 1 }
          else stats }

end Process

/-- A runner over a trace; a record is answered by whether it was mispredicted. -/
def runner (config : RtlModelConfig) : Transducer Record Bool RtlModelRunner where
  init := init
  step := fun r record => do
    let r' ← process config r record
    some (wrong config r record, r')

end RtlModelRunner

end Branchsim
end Jyd
