import Jyd.Core.CommonDef

/-!
# Lsu, Wbu — the two stages behind EXU

Load/store results cross LSU unconditionally in one cycle; WBU writes the
register file and proposes a cache refill for a missed load.
-/

namespace Jyd
namespace Core

open Hdl

/-! ## Byte lanes of loads and stores -/

/-- `GenMemWMask`. -/
def GenMemWMask (offset : BitVec 2) (func3t : BitVec 3) : BitVec 4 :=
  let memOpIsByte := !func3t.getLsbD 1 && !func3t.getLsbD 0
  let b0 := offset == 0#2
  let b1 := !offset.getLsbD 1 && (if memOpIsByte then offset.getLsbD 0 else !offset.getLsbD 0)
  let b2 := offset == 2#2
  let b3 := offset.getLsbD 1 && (if memOpIsByte then offset.getLsbD 0 else !offset.getLsbD 0)
  (BitVec.ofBool b3 ++ BitVec.ofBool b2 ++ BitVec.ofBool b1 ++ BitVec.ofBool b0) |||
    fill 4 (func3t.getLsbD 1)

/-- `GenMemWData`. -/
def GenMemWData (offset : BitVec 2) (data : Word) : Word :=
  match offset with
  | 0#2 => data
  | 1#2 => 0#16 ++ data.extractLsb' 0 8 ++ 0#8
  | 2#2 => data.extractLsb' 0 16 ++ 0#16
  | _ => data.extractLsb' 0 8 ++ 0#24

/-- `ExtLoadData`. -/
def ExtLoadData (rawData : Word) (addrOffset : BitVec 2) (func3t : BitVec 3) : Word :=
  let respHalfWord :=
    if addrOffset.getLsbD 1 then rawData.extractLsb' 16 16 else rawData.extractLsb' 0 16
  let respByte := rawData.extractLsb' (8 * addrOffset.toNat) 8
  if func3t.getLsbD 1 then rawData
  else if func3t.getLsbD 0 then
    fill 16 (respHalfWord.getLsbD 15 && !func3t.getLsbD 2) ++ respHalfWord
  else fill 24 (respByte.getLsbD 7 && !func3t.getLsbD 2) ++ respByte

/-- The load widths the cache and the late path accept. -/
def supportedLoadWidth (func3t : BitVec 3) : Bool :=
  func3t == 0b000#3 || func3t == 0b001#3 || func3t == 0b010#3 || func3t == 0b100#3 ||
    func3t == 0b101#3

/-! ## Result lanes -/

structure ResultLane where
  valid : Bool
  rd : BitVec 5
  data : Word
  deriving DecidableEq, Repr

structure LoadResultLane where
  valid : Bool
  rd : BitVec 5
  deriving DecidableEq, Repr

structure WriteBackInfo where
  resultKind : ResultKind
  fastResult : ResultLane
  directResult : ResultLane
  longResult : ResultLane
  acceleratorResult : ResultLane
  loadResult : LoadResultLane
  isLoad : Bool
  isMemOp : Bool
  lsuResult : Word
  lsuFunc3t : BitVec 3
  lsuAddrOffset : BitVec 2
  memAddr : Word
  cacheableLoad : Bool
  dcacheHit : Bool
  dcacheStoreEpoch : Bool
  iid : BitVec 32
  deriving DecidableEq, Repr

namespace ResultLaneSelect

variable (w : WriteBackInfo)

def validVec : List Bool :=
  [w.fastResult.valid, w.directResult.valid, w.longResult.valid, w.acceleratorResult.valid,
   w.loadResult.valid]

def anyValid : Bool := (validVec w).any id

/-- Every lane carries the same destination register. -/
def rd : BitVec 5 := w.fastResult.rd

def nonLoadData : Word :=
  mux1H
    [(w.fastResult.valid, w.fastResult.data),
     (w.directResult.valid, w.directResult.data),
     (w.longResult.valid, w.longResult.data),
     (w.acceleratorResult.valid, w.acceleratorResult.data)]

/-- The one-hot assertion repeated in EXU, LSU and WBU. -/
def lanesOneHot : Bool := (validVec w).count true ≤ 1

end ResultLaneSelect

/-! ## LSU -/

structure LSUInput where
  isLoad : Bool
  isStore : Bool
  destAddr : Word
  cacheableLoad : Bool
  dcacheHit : Bool
  lateLoadData : Word
  dcacheStoreEpoch : Bool
  func3t : BitVec 3
  lateBranchResolve : Bool
  lateBranchMismatch : Bool
  exuWriteBack : WriteBackInfo
  deriving DecidableEq, Repr

/-- `ExtractFwdInfoFromLSU`. -/
def ExtractFwdInfoFromLSU (info : Pipe LSUInput) : WrBackForwardInfo :=
  let b := info.bits
  let loadData := ExtLoadData b.lateLoadData (b.destAddr.extractLsb' 0 2) b.func3t
  let loadDataValid := b.isLoad && b.cacheableLoad && b.dcacheHit
  { addr := ResultLaneSelect.rd b.exuWriteBack
    enWr := ResultLaneSelect.anyValid b.exuWriteBack && info.valid
    dataVaild := info.valid && (!b.isLoad || loadDataValid)
    data := if b.isLoad then loadData else ResultLaneSelect.nonLoadData b.exuWriteBack
    kind := b.exuWriteBack.resultKind }

/-- `ExtractFastFwdInfoFromLSU`. -/
def ExtractFastFwdInfoFromLSU (info : Pipe LSUInput) : WrBackForwardInfo :=
  let fast := info.bits.exuWriteBack.fastResult
  { addr := fast.rd
    enWr := fast.valid && info.valid
    dataVaild := fast.valid && info.valid
    data := fast.data
    kind := .fastInt }

namespace LSU

/-- The payload LSU hands to WBU; the block-memory data joins here. -/
def outBits (info : Pipe LSUInput) (dcacheReadData : Word) : WriteBackInfo :=
  let b := info.bits
  { b.exuWriteBack with
    isLoad := b.isLoad
    isMemOp := (b.isLoad && info.valid) || (b.isStore && info.valid)
    lsuResult := dcacheReadData
    lsuFunc3t := b.func3t
    lsuAddrOffset := b.destAddr.extractLsb' 0 2
    memAddr := b.destAddr
    cacheableLoad := b.cacheableLoad
    dcacheHit := b.dcacheHit
    dcacheStoreEpoch := b.dcacheStoreEpoch }

end LSU

/-! ## WBU -/

namespace WBU

variable (info : Pipe WriteBackInfo) (memResp : Valid Word)

def loadResult : Word :=
  ExtLoadData memResp.bits info.bits.lsuAddrOffset info.bits.lsuFunc3t

def gprEn : Bool := ResultLaneSelect.anyValid info.bits && info.valid

def gprData : Word :=
  if info.bits.loadResult.valid then loadResult info memResp
  else ResultLaneSelect.nonLoadData info.bits

/-- A missed cacheable load refills its line unless a younger store changed the generation. -/
def dcacheUpdate (dcacheStoreEpoch : Bool) : Bool :=
  info.valid && info.bits.cacheableLoad && !info.bits.dcacheHit &&
    info.bits.dcacheStoreEpoch == dcacheStoreEpoch

/-- "WBU memory response must be valid for memory operations". -/
def responseAssert : Bool := !(info.valid && info.bits.isMemOp) || memResp.valid

/-- "DCache hit data mismatch". -/
def hitDataAssert : Bool :=
  !(info.valid && info.bits.cacheableLoad && info.bits.dcacheHit && memResp.valid) ||
    info.bits.lsuResult == memResp.bits

end WBU

end Core
end Jyd
