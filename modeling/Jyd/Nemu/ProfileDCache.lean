import Jyd.Hdl.Signal

/-!
# ProfileDCache — the data-cache shadows of the instruction profiler

The profiler replays the loads and stores of a program on shadows of several data caches
and counts hits and misses.  Here are the parts they share and the direct-mapped shadow
`rtl_dcache`, which stands for the cache of the core.
-/

namespace Jyd
namespace Nemu
namespace Profile

open Hdl

/-! ## Accesses -/

inductive MemWidth
  | byte
  | half
  | word
  | other
  deriving DecidableEq, Repr

def memoryWidth (x : Word) (load : Bool) : MemWidth :=
  let f3 := (x >>> 12) &&& 7#32
  if f3 = 0#32 ∨ (load = true ∧ f3 = 4#32) then .byte
  else if f3 = 1#32 ∨ (load = true ∧ f3 = 5#32) then .half
  else if f3 = 2#32 then .word
  else .other

def alignedForWidth (addr : Word) : MemWidth → Bool
  | .byte => true
  | .half => addr &&& 1#32 == 0#32
  | .word => addr &&& 3#32 == 0#32
  | .other => false

def dcacheable (addr : Word) : Bool := (addr >>> 20) &&& 3#32 == 1#32

structure DCacheStat where
  loadAccess : MemWidth → BitVec 64
  loadHit : MemWidth → BitVec 64
  loadMiss : MemWidth → BitVec 64
  fullStoreAllocate : BitVec 64
  partialStoreTotal : BitVec 64
  partialStoreHitUpdate : BitVec 64
  partialStoreInvalidate : BitVec 64

namespace DCacheStat

/-- Statistics in static storage. -/
def zero : DCacheStat := ⟨fun _ => 0, fun _ => 0, fun _ => 0, 0, 0, 0, 0⟩

variable (stat : DCacheStat)

def countHit (width : MemWidth) : DCacheStat :=
  { stat with
    loadAccess := Function.update stat.loadAccess width (stat.loadAccess width + 1)
    loadHit := Function.update stat.loadHit width (stat.loadHit width + 1) }

def countMiss (width : MemWidth) : DCacheStat :=
  { stat with
    loadAccess := Function.update stat.loadAccess width (stat.loadAccess width + 1)
    loadMiss := Function.update stat.loadMiss width (stat.loadMiss width + 1) }

def countFullStore : DCacheStat := { stat with fullStoreAllocate := stat.fullStoreAllocate + 1 }

def countPartialHit : DCacheStat :=
  { stat with
    partialStoreTotal := stat.partialStoreTotal + 1
    partialStoreHitUpdate := stat.partialStoreHitUpdate + 1 }

def countPartialInvalidate : DCacheStat :=
  { stat with
    partialStoreTotal := stat.partialStoreTotal + 1
    partialStoreInvalidate := stat.partialStoreInvalidate + 1 }

end DCacheStat

/-- A load or a store as the profiler sees it. -/
structure Access where
  isLoad : Bool
  addr : Word
  width : MemWidth
  deriving DecidableEq, Repr

/-- The loads that the shadows of narrow caches take part in. -/
def proposedEligible (addr : Word) (width : MemWidth) : Bool :=
  dcacheable addr && alignedForWidth addr width

/-! ## The direct-mapped shadow -/

structure DCacheEnt where
  tag : BitVec 8
  valid : Bool
  deriving DecidableEq, Repr

/-- `DCACHE_LINES` entries. -/
abbrev DCacheTable := BitVec 9 → DCacheEnt

def DCacheTable.zero : DCacheTable := fun _ => ⟨0, false⟩

/-- `(addr >> 2) & (DCACHE_LINES - 1)`. -/
def dcacheIndex (addr : Word) : BitVec 9 := addr.extractLsb' 2 9

def dcacheTag (addr : Word) : BitVec 8 := ((addr >>> 11) &&& 0x7f#32).setWidth 8

section Direct

variable (cache : DCacheTable) (stat : DCacheStat) (addr : Word) (width : MemWidth)

def dcacheHit : Bool :=
  (cache (dcacheIndex addr)).valid && (cache (dcacheIndex addr)).tag == dcacheTag addr

def dcacheAllocate : DCacheTable :=
  Function.update cache (dcacheIndex addr) ⟨dcacheTag addr, true⟩

def dcacheLoad (eligible : Bool) : Bool × DCacheTable × DCacheStat :=
  if !eligible then (false, cache, stat)
  else if dcacheHit cache addr then (true, cache, stat.countHit width)
  else (false, dcacheAllocate cache addr, stat.countMiss width)

def rtlDcacheStore : DCacheTable × DCacheStat :=
  if !dcacheable addr then (cache, stat)
  else if width = .word then (dcacheAllocate cache addr, stat.countFullStore)
  else
    (Function.update cache (dcacheIndex addr) { cache (dcacheIndex addr) with valid := false },
      stat.countPartialInvalidate)

end Direct

/-- The shadow `rtl_dcache` and its statistics. -/
structure RtlDcache where
  table : DCacheTable
  stat : DCacheStat

def RtlDcache.zero : RtlDcache := ⟨DCacheTable.zero, DCacheStat.zero⟩

/-- The step of `riscv_profile_record` for a load or store: whether a load hits, and the
shadow afterwards. -/
def RtlDcache.record (c : RtlDcache) (a : Access) : Bool × RtlDcache :=
  if a.isLoad then
    let (hit, table, stat) := dcacheLoad c.table c.stat a.addr a.width (proposedEligible a.addr a.width)
    (hit, ⟨table, stat⟩)
  else
    let (table, stat) := rtlDcacheStore c.table c.stat a.addr a.width
    (false, ⟨table, stat⟩)

end Profile
end Nemu
end Jyd
