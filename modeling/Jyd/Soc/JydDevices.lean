import Jyd.Core.CommonDef
import Mathlib.Data.Nat.Log

/-!
# JydDevices — the data side of the JYD SoC

The peripheral bridge and the devices behind it.  Every device takes one request
per cycle and answers two cycles later; the bridge selects the answer with a copy
of the target delayed by the same two cycles.
-/

namespace Jyd
namespace Soc

open Hdl Jyd.Core

/-- The request half of a simple bus. -/
structure BusReq where
  valid : Bool
  req : MemReq
  deriving DecidableEq, Repr

/-! ## Response pipelines -/

/-- A two-stage response pipeline: `RegNext(RegNext(doReq))` beside `RegNext(RegEnable(data))`. -/
structure RespPipe where
  validPipe0 : Bool
  respValidReg : Bool
  respDataPipe0 : Word
  respDataReg : Word

namespace RespPipe

def next (p : RespPipe) (doReq capture : Bool) (data : Word) : RespPipe where
  validPipe0 := doReq
  respValidReg := p.validPipe0
  respDataPipe0 := if capture then data else p.respDataPipe0
  respDataReg := p.respDataPipe0

def resp (p : RespPipe) : Valid Word := ⟨p.respValidReg, p.respDataReg⟩

end RespPipe

/-! ## Data RAM -/

def dramBaseAddr : Word := 0x80100000#32

namespace MaskedRdWrMem

variable (sizeInByte : ℕ)

/-- `dataOut` of a cycle that does not write.  A memory whose size is no power of two has no
word behind its upper indices. -/
def read (mem : ℕ → Word) (rdAddr : ℕ) : Word :=
  if rdAddr / 4 < sizeInByte / 4 then mem (rdAddr / 4) else 0

/-- The words after a cycle that writes. -/
def write (mem : ℕ → Word) (wrAddr : ℕ) (mask : BitVec 4) (dataIn : Word) : ℕ → Word :=
  if wrAddr / 4 < sizeInByte / 4 then
    Function.update mem (wrAddr / 4) (writeMasked mask dataIn (mem (wrAddr / 4)))
  else mem

end MaskedRdWrMem

namespace SimpleBusMem

/-- The words of `MaskedRdWrMem` and the response registers. -/
structure Regs where
  mem : ℕ → Word
  pipe : RespPipe

variable (sizeInByte : ℕ)

/-- The port of the memory has `log2Ceil(sizeInByte)` address bits. -/
def localAddr (addr : Word) : ℕ := (addr - dramBaseAddr).toNat % 2 ^ Nat.clog 2 sizeInByte

/-- The word that the memory selects for an address. -/
def wordIndex (addr : Word) : ℕ := localAddr sizeInByte addr / 4

def read (mem : ℕ → Word) (addr : Word) : Word :=
  MaskedRdWrMem.read sizeInByte mem (localAddr sizeInByte addr)

def write (mem : ℕ → Word) (q : MemReq) : ℕ → Word :=
  MaskedRdWrMem.write sizeInByte mem (localAddr sizeInByte q.addr) q.wmask q.wdata

theorem read_eq (mem : ℕ → Word) (addr : Word) :
    read sizeInByte mem addr =
      if wordIndex sizeInByte addr < sizeInByte / 4 then mem (wordIndex sizeInByte addr) else 0 :=
  rfl

theorem write_eq (mem : ℕ → Word) (q : MemReq) :
    write sizeInByte mem q =
      if wordIndex sizeInByte q.addr < sizeInByte / 4 then
        Function.update mem (wordIndex sizeInByte q.addr)
          (writeMasked q.wmask q.wdata (mem (wordIndex sizeInByte q.addr)))
      else mem := rfl

def next (r : Regs) (b : BusReq) : Regs where
  mem := if b.valid && b.req.wen then write sizeInByte r.mem b.req else r.mem
  pipe := r.pipe.next b.valid (b.valid && !b.req.wen) (read sizeInByte r.mem b.req.addr)

end SimpleBusMem

namespace SimpleBusFPGAMem

/-- `addr(log2Ceil(sizeInByte) - 1, 2)`. -/
def localWordAddr (sizeInByte : ℕ) (addr : Word) : ℕ :=
  addr.toNat % 2 ^ Nat.clog 2 sizeInByte / 4

/-- The cells of the block memory after one cycle; its enable is always high. -/
def nextMem (sizeInByte : ℕ) (mem : ℕ → Word) (b : BusReq) : ℕ → Word :=
  let wea := b.req.wmask &&& fill 4 (b.req.wen && b.valid)
  Function.update mem (localWordAddr sizeInByte b.req.addr)
    (writeMasked wea b.req.wdata (mem (localWordAddr sizeInByte b.req.addr)))

theorem nextMem_of_invalid {sizeInByte : ℕ} (mem : ℕ → Word) {b : BusReq} (h : b.valid = false) :
    nextMem sizeInByte mem b = mem := by
  have hmask : b.req.wmask &&& fill 4 (b.req.wen && b.valid) = 0#4 := by simp [h, fill]
  have hkeep : ∀ x y : Word, writeMasked 0#4 x y = y := by
    intro x y
    refine eq_of_byteOf fun k hk => ?_
    rw [byteOf_writeMasked _ _ _ hk]
    simp
  simp only [nextMem, hmask, hkeep, Function.update_eq_self]

end SimpleBusFPGAMem

/-! ## One-word device -/

namespace SimpleBusOneWordRWDevice

structure Regs where
  dataReg : Word
  pipe : RespPipe

def next (r : Regs) (b : BusReq) : Regs where
  dataReg := if b.valid && b.req.wen then b.req.wdata else r.dataReg
  pipe := r.pipe.next b.valid b.valid r.dataReg

end SimpleBusOneWordRWDevice

/-! ## Timer -/

namespace SimpleBusTimer

structure Regs where
  start : Bool
  cycleCounter : BitVec 16
  timerMs : Word
  pipe : RespPipe

def cycleCounterMax : BitVec 16 := 49999#16
def MAGIC_START : Word := 0x80000000#32
def MAGIC_STOP : Word := 0xffffffff#32

def next (r : Regs) (b : BusReq) : Regs where
  start :=
    if b.valid && b.req.wen then
      (if b.req.wdata == MAGIC_START then true
       else if b.req.wdata == MAGIC_STOP then false
       else r.start)
    else r.start
  cycleCounter :=
    if r.start then (if r.cycleCounter == cycleCounterMax then 0 else r.cycleCounter + 1) else 0
  timerMs :=
    if r.start && r.cycleCounter == cycleCounterMax then r.timerMs + 1 else r.timerMs
  pipe := r.pipe.next b.valid b.valid r.timerMs

end SimpleBusTimer

/-! ## UART -/

namespace SimpleBusUART

structure Regs where
  /-- The output register of the host-side character source. -/
  chData : Word
  validPipe0 : Bool
  respValidReg : Bool
  readRespPipe0 : Bool
  readRespReg : Bool
  statusReadPipe0 : Bool
  respDataReg : Word

def isStatus (addr : Word) : Bool := addr.extractLsb' 2 2 != 0#2

def resp (r : Regs) : Valid Word := ⟨r.respValidReg, if r.readRespReg then r.respDataReg else 0⟩

/-- `ch` is what the host delivers if it is asked in this cycle. -/
def next (r : Regs) (b : BusReq) (ch : Word) : Regs where
  chData := if b.valid && !b.req.wen && !isStatus b.req.addr then ch else r.chData
  validPipe0 := b.valid
  respValidReg := r.validPipe0
  readRespPipe0 := b.valid && !b.req.wen
  readRespReg := r.readRespPipe0
  statusReadPipe0 := b.valid && !b.req.wen && isStatus b.req.addr
  respDataReg :=
    if r.readRespPipe0 then (if r.statusReadPipe0 then 1 else r.chData) else r.respDataReg

/-- What `uartToStdOut` prints in this cycle: the low byte of every write, whatever its offset. -/
def toStdOut (b : BusReq) : Option (BitVec 8) :=
  if b.valid && b.req.wen then some (b.req.wdata.extractLsb' 0 8) else none

end SimpleBusUART

/-! ## Peripheral bridge -/

namespace JYDPeripheralBridge

inductive Target
  | dram
  | led
  | seg
  | cnt
  | uart
  deriving DecidableEq, Repr

/-- `AddrSpace.inRng` against the start of a range. -/
def inRng (addr rngStart : Word) : Bool :=
  let isMMIO := addr.getLsbD 21
  ( isMMIO && addr.extractLsb' 4 4 == rngStart.extractLsb' 4 4) ||
    (not isMMIO && addr.getLsbD 20 == rngStart.getLsbD 20)

def LED : Word := 0x80200040#32
def SEG : Word := 0x80200020#32
def CNT : Word := 0x80200050#32
def UART : Word := 0x802000a0#32

/-- The first range that matches; everything else falls through to the data RAM. -/
def targetSel (addr : Word) : Target :=
  if inRng addr LED then .led
  else if inRng addr SEG then .seg
  else if inRng addr CNT then .cnt
  else if inRng addr UART then .uart
  else .dram

structure Regs where
  respSelPipe0 : Target
  respSelPipe1 : Target
  respValidPipe0 : Bool
  respValidPipe1 : Bool
  cntEnableReg : Bool

/-- The devices are always ready, so a presented request is an accepted one. -/
def next (r : Regs) (b : BusReq) : Regs where
  respSelPipe0 := targetSel b.req.addr
  respSelPipe1 := r.respSelPipe0
  respValidPipe0 := b.valid
  respValidPipe1 := r.respValidPipe0
  cntEnableReg :=
    if b.valid && targetSel b.req.addr == .cnt && b.req.wen then
      (if b.req.wdata == 0x80000000#32 then true
       else if b.req.wdata == 0xffffffff#32 then false
       else r.cntEnableReg)
    else r.cntEnableReg

end JYDPeripheralBridge

/-! ## The data bus as a whole -/

namespace DataBus

open JYDPeripheralBridge

structure Regs where
  perip : JYDPeripheralBridge.Regs
  dram : SimpleBusMem.Regs
  led : SimpleBusOneWordRWDevice.Regs
  seg : SimpleBusOneWordRWDevice.Regs
  cnt : SimpleBusTimer.Regs
  uart : SimpleBusUART.Regs

def respOf (r : Regs) : Target → Valid Word
  | .dram => r.dram.pipe.resp
  | .led => r.led.pipe.resp
  | .seg => r.seg.pipe.resp
  | .cnt => r.cnt.pipe.resp
  | .uart => SimpleBusUART.resp r.uart

def resp (r : Regs) : Valid Word where
  valid := r.perip.respValidPipe1 && (respOf r r.perip.respSelPipe1).valid
  bits := (respOf r r.perip.respSelPipe1).bits

/-- The request as device `t` sees it. -/
def select (b : BusReq) (t : Target) : BusReq :=
  ⟨b.valid && targetSel b.req.addr == t, b.req⟩

def next (sizeInByte : ℕ) (r : Regs) (b : BusReq) (ch : Word) : Regs where
  perip := JYDPeripheralBridge.next r.perip b
  dram := SimpleBusMem.next sizeInByte r.dram (select b .dram)
  led := SimpleBusOneWordRWDevice.next r.led (select b .led)
  seg := SimpleBusOneWordRWDevice.next r.seg (select b .seg)
  cnt := SimpleBusTimer.next r.cnt (select b .cnt)
  uart := SimpleBusUART.next r.uart (select b .uart) ch

/-- No response is in flight after reset; the contents of the data RAM are arbitrary. -/
structure Reset (r : Regs) : Prop where
  respSelPipe0 : r.perip.respSelPipe0 = .dram
  respSelPipe1 : r.perip.respSelPipe1 = .dram
  respValidPipe0 : r.perip.respValidPipe0 = false
  respValidPipe1 : r.perip.respValidPipe1 = false
  cntEnableReg : r.perip.cntEnableReg = false
  dram0 : r.dram.pipe.validPipe0 = false
  dram1 : r.dram.pipe.respValidReg = false
  led0 : r.led.pipe.validPipe0 = false
  led1 : r.led.pipe.respValidReg = false
  ledData : r.led.dataReg = 0
  seg0 : r.seg.pipe.validPipe0 = false
  seg1 : r.seg.pipe.respValidReg = false
  segData : r.seg.dataReg = 0
  cnt0 : r.cnt.pipe.validPipe0 = false
  cnt1 : r.cnt.pipe.respValidReg = false
  cntStart : r.cnt.start = false
  cycleCounter : r.cnt.cycleCounter = 0
  timerMs : r.cnt.timerMs = 0
  uart0 : r.uart.validPipe0 = false
  uart1 : r.uart.respValidReg = false
  uartRead0 : r.uart.readRespPipe0 = false
  uartRead1 : r.uart.readRespReg = false
  uartStatus0 : r.uart.statusReadPipe0 = false
  chData : r.uart.chData = 0xff

end DataBus

end Soc
end Jyd
