import Jyd.Core.CommonDef

/-!
# DCache — the direct-mapped data cache

Two banks of 512 words.  The block memory answers a query one cycle later; the
tag memory and the byte-wide shadow of the data answer in the same cycle.
-/

namespace Jyd
namespace Core
namespace DCache

open Hdl

abbrev Bank := Bool
abbrev Line := BitVec 9

structure Regs where
  /-- Block memories `blk_mem_gen_2KB`. -/
  dataMem : Bank → Line → Word
  /-- Their registered read ports. -/
  doutb : Bank → Word
  /-- Tag memories: seven tag bits over the valid bit. -/
  tagMem : Bank → Line → BitVec 8
  /-- The asynchronous shadow, one memory a byte. -/
  lateDataMem : Bank → Fin 4 → Line → BitVec 8
  readBank : Bank

structure In where
  queryIndex : BitVec 10
  queryTag : BitVec 7
  storeUpdate : Bool
  storeFull : Bool
  storeData : Word
  storeMask : BitVec 4
  update : Bool
  updateValid : Bool
  updateAddr : Word
  updateData : Word
  updateMask : BitVec 4

def bankOf (index : BitVec 10) : Bank := index.getLsbD 9
def lineOf (index : BitVec 10) : Line := index.extractLsb' 0 9

def indexOf (addr : Word) : BitVec 10 := addr.extractLsb' 2 10
def tagOf (addr : Word) : BitVec 7 := addr.extractLsb' 11 7

variable (r : Regs)

def tagEntry (index : BitVec 10) : BitVec 8 := r.tagMem (bankOf index) (lineOf index)

def hit (index : BitVec 10) (tag : BitVec 7) : Bool :=
  (tagEntry r index).getLsbD 0 && (tagEntry r index).extractLsb' 1 7 == tag

def readData : Word := r.doutb r.readBank

def lateReadData (index : BitVec 10) : Word :=
  let byte (k : Fin 4) := r.lateDataMem (bankOf index) k (lineOf index)
  byte 3 ++ byte 2 ++ byte 1 ++ byte 0

variable (i : In)

/-- A store wins over an older refill in the choice of the written line. -/
def writeIndex : BitVec 10 := if i.storeUpdate then i.queryIndex else indexOf i.updateAddr

def writes : Bool := i.storeUpdate || i.update

def tagWriteData : BitVec 8 :=
  if i.storeUpdate then i.queryTag ++ BitVec.ofBool i.storeFull
  else tagOf i.updateAddr ++ BitVec.ofBool i.updateValid

def dataWriteMask : BitVec 4 :=
  if i.storeUpdate then i.storeMask else if i.update then i.updateMask else 0

def dataWriteData : Word := if i.storeUpdate then i.storeData else i.updateData

def next : Regs where
  tagMem :=
    if writes i then
      Function.update r.tagMem (bankOf (writeIndex i))
        (Function.update (r.tagMem (bankOf (writeIndex i))) (lineOf (writeIndex i)) (tagWriteData i))
    else r.tagMem
  dataMem :=
    if writes i then
      Function.update r.dataMem (bankOf (writeIndex i))
        (Function.update (r.dataMem (bankOf (writeIndex i))) (lineOf (writeIndex i))
          (writeMasked (dataWriteMask i) (dataWriteData i)
            (r.dataMem (bankOf (writeIndex i)) (lineOf (writeIndex i)))))
    else r.dataMem
  lateDataMem :=
    if writes i then
      Function.update r.lateDataMem (bankOf (writeIndex i)) (fun byte =>
        let mem := r.lateDataMem (bankOf (writeIndex i)) byte
        if (dataWriteMask i).getLsbD byte then
          Function.update mem (lineOf (writeIndex i)) (byteOf (dataWriteData i) byte)
        else mem)
    else r.lateDataMem
  -- the read port samples the memories before this edge's write
  doutb := fun bank => r.dataMem bank (lineOf i.queryIndex)
  readBank := bankOf i.queryIndex

end DCache
end Core
end Jyd
