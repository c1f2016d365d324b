import Jyd.Core.RegFile

/-!
# CsrTransaction — the two-phase CSR access inside EXU

A system instruction spends its first cycle capturing the read value and the
write request, and commits the captured write when it leaves EXU.
-/

namespace Jyd
namespace Core
namespace CsrTransaction

open Hdl

structure Regs where
  csrPrepared : Bool
  csrReadDataReg : Word
  csrNextPCReg : Word
  csrWriteEnReg : Bool
  csrWriteAddrReg : BitVec 12
  csrWriteDataReg : Word
  csrECallReg : Bool
  csrs : ControlStatusRegisterFile.Regs

/-- What the transaction sees of the instruction in EXU. -/
structure In where
  valid : Bool
  isTypSys : Bool
  isECall : Bool
  isMRet : Bool
  code : Word
  pc : Word
  reg_v1 : Word
  staticNextPCOrCSRTarget : Word
  outFire : Bool

variable (r : Regs) (i : In)

def func3t : BitVec 3 := i.code.extractLsb' 12 3
def csr_raddr : BitVec 12 := i.code.extractLsb' 20 12
def csr_rdata : Word := ControlStatusRegisterFile.readData r.csrs (csr_raddr i)
def csrUIMM : Word := (i.code.extractLsb' 15 5).setWidth 32

def csrOpMask : Word := if (func3t i).getLsbD 2 then csrUIMM i else i.reg_v1

def csrWrEnable : Bool := i.isTypSys && (func3t i).extractLsb' 0 2 != 0#2

def csrWrAddr : BitVec 12 :=
  if i.isTypSys && i.isECall then CSRAddr.mepc else csr_raddr i

/-- The value to write; a set or clear reads the old value first. -/
def csrWrData : Word :=
  if i.isECall then i.pc
  else if (func3t i).extractLsb' 0 2 == 3#2 then csr_rdata r i &&& ~~~(csrOpMask i)
  else if (func3t i).extractLsb' 0 2 == 2#2 then csr_rdata r i ||| csrOpMask i
  else csrOpMask i

def commits : Bool := i.outFire && i.isTypSys && r.csrPrepared

def write : ControlStatusRegisterFile.Write where
  en := r.csrWriteEnReg && commits r i
  addr := r.csrWriteAddrReg
  data := r.csrWriteDataReg
  is_ecall := r.csrECallReg && commits r i

def next : Regs :=
  let n := { r with csrs := ControlStatusRegisterFile.next r.csrs (write r i) }
  if !i.valid then { n with csrPrepared := false }
  else if i.isTypSys && !r.csrPrepared then
    { n with
      csrPrepared := true
      csrReadDataReg := csr_rdata r i
      csrNextPCReg :=
        if i.isECall then ControlStatusRegisterFile.mtvec r.csrs
        else if i.isMRet then ControlStatusRegisterFile.mepc r.csrs
        else i.staticNextPCOrCSRTarget
      csrWriteEnReg := csrWrEnable i
      csrWriteAddrReg := csrWrAddr i
      csrWriteDataReg := csrWrData r i
      csrECallReg := i.isECall }
  else if i.outFire && i.isTypSys then { n with csrPrepared := false }
  else n

end CsrTransaction
end Core
end Jyd
