import Jyd.Hdl.Machine
import Jyd.Core.Top
import Jyd.Soc.JydDevices

/-!
# JydSoC — the core between an instruction ROM and the data bus

The ROM holds a constant program.  Its port takes a request and answers it in
cycles that the environment chooses; `SimpleBusROM` is the schedule that is always
ready and answers in the next cycle.
-/

namespace Jyd
namespace Soc

open Hdl Jyd.Core

/-! ## Instruction ROM -/

abbrev Rom := BitVec 17 → Word

/-- The 512 KB window of the ROM, one word an index. -/
def romWord (rom : Rom) (addr : Word) : Word :=
  rom ((addr - 0x80000000#32).extractLsb' 2 17)

namespace RomPort

/-- The address of the accepted request that is not answered yet. -/
abbrev Regs := Option Word

/-- The environment's choice: take a request, answer the outstanding one. -/
structure Schedule where
  ready : Bool
  answer : Bool
  deriving DecidableEq, Repr

variable (rom : Rom)

def resp (r : Regs) (s : Schedule) : Valid Word :=
  match r with
  | some addr => ⟨s.answer, romWord rom addr⟩
  | none => ⟨false, 0⟩

def next (r : Regs) (s : Schedule) (reqValid : Bool) (addr : Word) : Regs :=
  if reqValid && s.ready then some addr
  else if s.answer then none
  else r

end RomPort

namespace SimpleBusROM

/-- The memory takes a request in every cycle, and its word is in the output register in the
next.  Since the program is constant this is the word the port reads then. -/
def schedule : RomPort.Schedule := ⟨true, true⟩

end SimpleBusROM

/-! ## The closed system -/

namespace JYDSoC

structure Regs where
  core : CPUCore.Regs
  irom : RomPort.Regs
  bus : DataBus.Regs

/-- What remains open: the timing of the ROM and the characters of the host. -/
structure In where
  irom : RomPort.Schedule
  uartCh : Word
  deriving DecidableEq, Repr

structure Config where
  rom : Rom
  dramSizeInByte : ℕ

variable (c : Config)

def coreIn (i : In) (r : Regs) : CPUCore.In where
  iromReqReady := i.irom.ready
  iromResp := RomPort.resp c.rom r.irom i.irom
  dramReqReady := true
  dramResp := DataBus.resp r.bus

def busReq (i : In) (r : Regs) : BusReq :=
  ⟨CPUCore.dramReqValid r.core (coreIn c i r), CPUCore.dramReq r.core (coreIn c i r)⟩

def next (i : In) (r : Regs) : Regs where
  core := CPUCore.next r.core (coreIn c i r)
  irom :=
    RomPort.next r.irom i.irom (CPUCore.iromReqValid r.core (coreIn c i r))
      (CPUCore.iromAddr r.core (coreIn c i r))
  bus := DataBus.next c.dramSizeInByte r.bus (busReq c i r) i.uartCh

structure Reset (r : Regs) : Prop where
  core : CPUCore.Reset r.core
  irom : r.irom = none
  bus : DataBus.Reset r.bus

def machine : Machine In Regs where
  init := Reset
  next := next c

end JYDSoC

end Soc
end Jyd
