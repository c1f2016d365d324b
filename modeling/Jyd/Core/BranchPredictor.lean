import Jyd.Core.CommonDef

/-!
# BranchPredictor — branch target buffer and return-address stack

The 512-entry BTB zeroes its memories after reset and writes an update two cycles
after the control instruction left EXU.  The eight LUTRAM banks of the source are
selected by the upper index bits, so one memory over the whole index stands for them.
-/

namespace Jyd
namespace Core

open Hdl

namespace BTB

inductive EntryType
  | invalid
  | branch
  | jal
  | ret
  deriving DecidableEq, Repr

structure BTBEntry where
  entryType : EntryType
  directionCounter : BitVec 2
  tag : BitVec 6
  target : BitVec 15
  deriving DecidableEq, Repr

structure BTBUpdateState where
  valid : Bool
  tag : BitVec 6
  isBranch : Bool
  directionCounter : BitVec 2
  deriving DecidableEq, Repr

def BTBEntry.zero : BTBEntry := ⟨.invalid, 0, 0, 0⟩
def BTBUpdateState.zero : BTBUpdateState := ⟨false, 0, false, 0⟩

structure Regs where
  queryMem : BitVec 9 → BTBEntry
  updateStateMem : BitVec 9 → BTBUpdateState
  initCount : BitVec 9
  initDone : Bool
  updateEnReg : Bool
  updateIndexReg : BitVec 9
  nextEntryReg : BTBEntry
  nextUpdateStateReg : BTBUpdateState

structure Update where
  en : Bool
  addr : Word
  isJAL : Bool
  isBranch : Bool
  isReturn : Bool
  actualTaken : Bool
  target : Word
  deriving DecidableEq, Repr

def extractTag (addr : Word) : BitVec 6 := addr.extractLsb' 11 6
def extractIndex (addr : Word) : BitVec 9 := addr.extractLsb' 2 9

structure Query where
  hit : Bool
  target : Word
  isJAL : Bool
  isBranch : Bool
  isReturn : Bool
  directionTaken : Bool
  deriving DecidableEq, Repr

variable (r : Regs)

def query (addr : Word) : Query :=
  let e := r.queryMem (extractIndex addr)
  { hit := if r.initDone then e.entryType != .invalid && e.tag == extractTag addr else false
    target := TrimmedPC.expand e.target
    isJAL := e.entryType == .jal || e.entryType == .ret
    isBranch := e.entryType == .branch
    isReturn := e.entryType == .ret
    directionTaken := e.directionCounter.getLsbD 1 }

variable (u : Update)

def oldUpdateState : BTBUpdateState := r.updateStateMem (extractIndex u.addr)

def entryMatches : Bool :=
  if r.initDone then
    (oldUpdateState r u).valid && (oldUpdateState r u).tag == extractTag u.addr &&
      (oldUpdateState r u).isBranch
  else false

/-- The saturating direction counter of a conditional branch. -/
def nextDirection : BitVec 2 :=
  let old := (oldUpdateState r u).directionCounter
  if u.isBranch then
    if !entryMatches r u then (if u.actualTaken then 2 else 1)
    else if u.actualTaken && old != 3#2 then old + 1
    else if !u.actualTaken && old != 0#2 then old - 1
    else old
  else 0

def nextEntry : BTBEntry where
  entryType :=
    if u.isBranch then .branch
    else if u.isReturn then .ret
    else if u.isJAL then .jal
    else .invalid
  tag := extractTag u.addr
  target := TrimmedPC.trim u.target
  directionCounter := nextDirection r u

def nextUpdateState : BTBUpdateState where
  valid := true
  tag := extractTag u.addr
  isBranch := u.isBranch
  directionCounter := nextDirection r u

def skipConflictingNotTakenBranch : Bool :=
  u.isBranch && !u.actualTaken && !entryMatches r u

def updateEn : Bool :=
  u.en && (nextEntry r u).entryType != .invalid && r.initDone && !skipConflictingNotTakenBranch r u

def next : Regs where
  initCount := if r.initDone then r.initCount else r.initCount + 1
  initDone := r.initDone || r.initCount == 511#9
  updateEnReg := updateEn r u
  updateIndexReg := extractIndex u.addr
  nextEntryReg := nextEntry r u
  nextUpdateStateReg := nextUpdateState r u
  queryMem :=
    if !r.initDone then Function.update r.queryMem r.initCount BTBEntry.zero
    else if r.updateEnReg then Function.update r.queryMem r.updateIndexReg r.nextEntryReg
    else r.queryMem
  updateStateMem :=
    if !r.initDone then Function.update r.updateStateMem r.initCount BTBUpdateState.zero
    else if r.updateEnReg then
      Function.update r.updateStateMem r.updateIndexReg r.nextUpdateStateReg
    else r.updateStateMem

end BTB

namespace BranchPredictor

structure Regs where
  rasEntries : Bool → Word
  rasPtr : Bool
  rasCount : BitVec 2

variable (r : Regs)

def useRas (q : BTB.Query) : Bool := q.isReturn && q.hit && r.rasCount != 0#2

/-- The top of the stack sits below the one-bit pointer. -/
def rasTop : Word := r.rasEntries (!r.rasPtr)

def take (q : BTB.Query) : Bool :=
  if useRas r q then true
  else q.hit && (q.isJAL || (q.isBranch && q.directionTaken))

def pred (pc : Word) (q : BTB.Query) : PredBundle :=
  let predictTarget := if useRas r q then rasTop r else q.target
  { hit := q.hit
    take := take r q
    pc :=
      0x80#8 ++ 0#2 ++
        (if take r q then predictTarget.extractLsb' 2 20 else pc.extractLsb' 2 20 + 1) ++ 0#2 }

structure Update where
  en : Bool
  pc : Word
  isCall : Bool
  isReturn : Bool
  deriving DecidableEq, Repr

def next (u : Update) : Regs :=
  if u.en then
    if u.isCall then
      { rasEntries := Function.update r.rasEntries r.rasPtr (u.pc + 4)
        rasPtr := !r.rasPtr
        rasCount := if r.rasCount == 2#2 then r.rasCount else r.rasCount + 1 }
    else if u.isReturn && r.rasCount != 0#2 then
      { r with rasPtr := !r.rasPtr, rasCount := r.rasCount - 1 }
    else r
  else r

end BranchPredictor

end Core
end Jyd
