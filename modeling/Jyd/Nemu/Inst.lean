import Jyd.Hdl.Signal

/-!
# Inst — the accelerator instructions of the reference simulator

The list-reversal and numeric-DFA instructions as `decode_exec` executes them, on byte
memory and 32-bit counters.  The data RAM lies inside `pmem`, so memory accesses are
plain little-endian accesses to its bytes.
-/

namespace Jyd
namespace Nemu

open Hdl

/-! ## Memory -/

abbrev Pmem := Word → BitVec 8

/-- `vaddr_read` of four bytes. -/
def vaddrRead (pmem : Pmem) (addr : Word) : Word :=
  ofBytes (fun k => pmem (addr + BitVec.ofNat 32 k))

/-- `vaddr_write` of four bytes. -/
def vaddrWrite (pmem : Pmem) (addr data : Word) : Pmem := fun a =>
  if (a - addr).toNat < 4 then byteOf data (a - addr).toNat else pmem a

/-! ## State -/

structure Cpu where
  pc : Word
  gpr : BitVec 5 → Word
  pmem : Pmem
  listReversePrevious : Word
  numericDfaTransitionCounts : BitVec 3 → Word
  numericDfaFinalCounts : BitVec 3 → Word
  numericDfaPendingMask : Word

/-! ## The word step of the numeric DFA -/

structure WordStep where
  state : Word
  consumed : Word
  mask : Word
  stop : Bool
  deriving DecidableEq, Repr

namespace WordStep

def setBit (w : WordStep) (k : Nat) : WordStep := { w with mask := w.mask ||| (1#32 <<< k) }
def goto (w : WordStep) (state : Word) : WordStep := { w with state := state }

def isDigit (c : BitVec 8) : Bool := (c - 0x30#8).ule 9#8
def isSign (c : BitVec 8) : Bool := c == 0x2b#8 || c == 0x2d#8
def isDot (c : BitVec 8) : Bool := c == 0x2e#8
def isExponent (c : BitVec 8) : Bool := c == 0x45#8 || c == 0x65#8

/-- The `switch` over the state. -/
def transition (w : WordStep) (c : BitVec 8) : WordStep :=
  let digit := isDigit c
  if w.state == 0#32 then
    (if digit then w.goto 4
     else if isSign c then w.goto 2
     else if isDot c then w.goto 5
     else (w.goto 1).setBit 1).setBit 0
  else if w.state == 2#32 then
    (if digit then w.goto 4 else if isDot c then w.goto 5 else w.goto 1).setBit 2
  else if w.state == 4#32 then
    (if isDot c then (w.goto 5).setBit 4
     else if !digit then (w.goto 1).setBit 4
     else w)
  else if w.state == 5#32 then
    (if isExponent c then (w.goto 3).setBit 5
     else if !digit then (w.goto 1).setBit 5
     else w)
  else if w.state == 3#32 then (w.goto (if isSign c then 6 else 1)).setBit 3
  else if w.state == 6#32 then (w.goto (if digit then 7 else 1)).setBit 6
  else if w.state == 7#32 then (if !digit then (w.goto 1).setBit 1 else w)
  else { w with stop := true }

/-- One iteration of the byte loop. -/
def byte (w : WordStep) (c : BitVec 8) : WordStep :=
  if c == 0#8 then { w with stop := true }
  else
    let w := { w with consumed := w.consumed + 1 }
    if c == 0x2c#8 then { w with stop := true }
    else
      let w := w.transition c
      if w.state == 1#32 then { w with stop := true } else w

/-- The byte loop over `width` bytes of the word. -/
def loop (symbols : Word) : (width i : Nat) → WordStep → WordStep
  | 0, _, w => w
  | width + 1, i, w =>
    if w.stop then w else loop symbols width (i + 1) (w.byte ((symbols >>> (8 * i)).setWidth 8))

end WordStep

/-- `numeric_dfa_word_step` in the four-byte format. -/
def numericDfaWordStep (state symbols : Word) (width : Nat) : Word :=
  let w := WordStep.loop symbols width 0 ⟨state, 0, 0, false⟩
  w.state ||| (w.consumed <<< 3) ||| ((BitVec.ofBool w.stop).setWidth 32 <<< 6) ||| (w.mask <<< 7)

/-! ## Instructions -/

inductive Inst
  | xlistrevInit (rd rs1 : BitVec 5)
  | xlistrevLoop (rd rs1 : BitVec 5)
  | xdfacntInit
  | xdfacntRead (rd rs1 : BitVec 5)
  | xdfacntCommit (rs1 : BitVec 5)
  | xdfa4Step (rd rs1 rs2 : BitVec 5)
  | xdfa4hStep (rd rs1 rs2 : BitVec 5)
  | xdfa4hFinalRead (rd rs1 : BitVec 5)
  deriving DecidableEq, Repr

/-- `(inst & MASK) == MATCH`, one line an instruction. -/
def decode (inst : Word) : Option Inst :=
  let rd := inst.extractLsb' 7 5
  let rs1 := inst.extractLsb' 15 5
  let rs2 := inst.extractLsb' 20 5
  let key := inst &&& 0xfe00707f#32
  if key == 0x0000600b#32 then some (.xlistrevInit rd rs1)
  else if key == 0x0400600b#32 then some (.xlistrevLoop rd rs1)
  else if key == 0x0000005b#32 then some .xdfacntInit
  else if key == 0x0000205b#32 then some (.xdfacntRead rd rs1)
  else if key == 0x0000305b#32 then some (.xdfacntCommit rs1)
  else if key == 0x0000505b#32 then some (.xdfa4Step rd rs1 rs2)
  else if key == 0x0200205b#32 then some (.xdfa4hFinalRead rd rs1)
  else if key == 0x0200505b#32 then some (.xdfa4hStep rd rs1 rs2)
  else none

namespace Cpu

variable (s : Cpu)

/-- `R(rd) = v`, with the reset of `R(0)` at the end of the instruction. -/
def setReg (rd : BitVec 5) (v : Word) : Cpu :=
  { s with gpr := Function.update (Function.update s.gpr rd v) 0 0 }

/-- Add one to every counter whose bit is set. -/
def bump (counts : BitVec 3 → Word) (mask : Word) : BitVec 3 → Word := fun k =>
  if mask.getLsbD k.toNat then counts k + 1 else counts k

/-- The word behind a DFA address, shifted to its first byte, and the bytes left in it. -/
def symbolsAt (address : Word) : Word × Nat :=
  let offset := (address &&& 3#32).toNat
  (vaddrRead s.pmem (address &&& ~~~3#32) >>> (8 * offset), 4 - offset)

/-- The effect on everything but the pc. -/
def effect : Inst → Cpu
  | .xlistrevInit rd rs1 =>
    let current := s.gpr rs1
    { s.setReg rd (vaddrRead s.pmem current) with
      pmem := vaddrWrite s.pmem current 0
      listReversePrevious := current }
  | .xlistrevLoop rd rs1 =>
    let current := s.gpr rs1
    if current == 0#32 then s.setReg rd s.listReversePrevious
    else
      let next := vaddrRead s.pmem current
      { s.setReg rd (if next != 0#32 then next else current) with
        pmem := vaddrWrite s.pmem current s.listReversePrevious
        listReversePrevious := current }
  | .xdfacntInit =>
    { s with
      numericDfaTransitionCounts := fun _ => 0
      numericDfaFinalCounts := fun _ => 0
      numericDfaPendingMask := 0 }
  | .xdfacntRead rd rs1 =>
    let state := s.gpr rs1
    s.setReg rd
      (if state.ult 8#32 then s.numericDfaTransitionCounts (state.setWidth 3) else 0)
  | .xdfacntCommit rs1 =>
    { s with numericDfaTransitionCounts := bump s.numericDfaTransitionCounts (s.gpr rs1) }
  | .xdfa4Step rd rs1 rs2 =>
    let (symbols, width) := s.symbolsAt (s.gpr rs2)
    s.setReg rd (numericDfaWordStep (s.gpr rs1) symbols width)
  | .xdfa4hFinalRead rd rs1 =>
    let state := s.gpr rs1
    s.setReg rd (if state.ult 8#32 then s.numericDfaFinalCounts (state.setWidth 3) else 0)
  | .xdfa4hStep rd rs1 rs2 =>
    let (symbols, width) := s.symbolsAt (s.gpr rs2)
    let result := numericDfaWordStep (s.gpr rs1) symbols width
    let pending := s.numericDfaPendingMask ||| (result >>> 7)
    let final := result.setWidth 3
    if result.getLsbD 6 then
      { s.setReg rd result with
        numericDfaTransitionCounts := bump s.numericDfaTransitionCounts pending
        numericDfaFinalCounts :=
          Function.update s.numericDfaFinalCounts final (s.numericDfaFinalCounts final + 1)
        numericDfaPendingMask := 0 }
    else { s.setReg rd result with numericDfaPendingMask := pending }

/-- `dnpc`: only the list-reversal loop repeats itself. -/
def dnpc : Inst → Word
  | .xlistrevLoop _ rs1 =>
    let current := s.gpr rs1
    if current != 0#32 && vaddrRead s.pmem current != 0#32 then s.pc else s.pc + 4
  | _ => s.pc + 4

def exec (inst : Inst) : Cpu := { s.effect inst with pc := s.dnpc inst }

end Cpu

end Nemu
end Jyd
