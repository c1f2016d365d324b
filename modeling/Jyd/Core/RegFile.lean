import Jyd.Core.CommonDef

/-!
# RegFile — general-purpose registers and control/status registers

`RegisterFile` reads through a write of the same cycle.  The two distributed-RAM
replicas of the source see the same writes, so one array stands for both.
`ControlStatusRegisterFile` keeps four writable registers behind an address table
whose default index is `0`.
-/

namespace Jyd
namespace Core

open Hdl

/-- The write port of the register file. -/
structure GprWrite where
  en : Bool
  addr : BitVec 5
  data : Word
  deriving DecidableEq, Repr

namespace RegisterFile

abbrev Regs := BitVec 5 → Word

def writeEn (w : GprWrite) : Bool := w.en && w.addr != 0#5

def read (regs : Regs) (w : GprWrite) (addr : BitVec 5) : Word :=
  if addr == 0#5 then 0
  else if writeEn w && addr == w.addr then w.data
  else regs addr

def next (regs : Regs) (w : GprWrite) : Regs :=
  if writeEn w then Function.update regs w.addr w.data else regs

/-- A read through the write port sees the register file of the next cycle. -/
theorem read_next {regs : Regs} {w w' : GprWrite} {addr : BitVec 5}
    (h : (writeEn w' && addr == w'.addr) = false) :
    read (next regs w) w' addr = read regs w addr := by
  by_cases h0 : addr = 0#5
  · simp [read, h0]
  · cases hw : writeEn w with
    | false => simp [read, next, h0, h, hw]
    | true =>
      by_cases ha : addr = w.addr
      · subst ha
        simp [read, next, h0, h, hw]
      · simp [read, next, h0, h, hw, ha]

end RegisterFile

namespace CSRAddr

def mstatus : BitVec 12 := 0x300#12
def mtvec : BitVec 12 := 0x305#12
def mepc : BitVec 12 := 0x341#12
def mcause : BitVec 12 := 0x342#12
def mcycle : BitVec 12 := 0xB00#12
def mcycleh : BitVec 12 := 0xB80#12
def mvendorid : BitVec 12 := 0xF11#12
def marchid : BitVec 12 := 0xF12#12

end CSRAddr

namespace ControlStatusRegisterFile

structure Regs where
  mcycleLo : Word
  /-- `0`: mstatus, `1`: mepc, `2`: mcause, `3`: mtvec. -/
  waregs : BitVec 2 → Word

/-- The address table shared by reads and writes. -/
def walut (addr : BitVec 12) : BitVec 2 :=
  if addr == CSRAddr.mstatus then 0
  else if addr == CSRAddr.mepc then 1
  else if addr == CSRAddr.mcause then 2
  else if addr == CSRAddr.mtvec then 3
  else 0

variable (r : Regs)

def mepc : Word := r.waregs 1
def mtvec : Word := r.waregs 3

def mcycle64 : BitVec 64 := 0#32 ++ r.mcycleLo

def mvendor_id : Word := 0x79737978#32
def march_id : Word := 25100261#32

def readData (addr : BitVec 12) : Word :=
  if addr == CSRAddr.mcycle then (mcycle64 r).extractLsb' 0 32
  else if addr == CSRAddr.mcycleh then (mcycle64 r).extractLsb' 32 32
  else if addr == CSRAddr.mvendorid then mvendor_id
  else if addr == CSRAddr.marchid then march_id
  else r.waregs (walut addr)

/-- The write port, with the trap strobe of `ecall`. -/
structure Write where
  en : Bool
  addr : BitVec 12
  data : Word
  is_ecall : Bool
  deriving DecidableEq, Repr

def isTrap (w : Write) : Bool := w.is_ecall && w.addr == CSRAddr.mepc

def next (w : Write) : Regs where
  mcycleLo := r.mcycleLo + 1
  waregs :=
    if w.en || isTrap w then
      let written := Function.update r.waregs (walut w.addr) w.data
      if isTrap w then Function.update written 2 11#32 else written
    else r.waregs

end ControlStatusRegisterFile

end Core
end Jyd
