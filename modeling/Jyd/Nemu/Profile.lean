import Jyd.Hdl.Signal

/-!
# Profile — the branch-predictor models of the instruction profiler

`model_rtl_btb32` predicts a control transfer from a table of 32 entries, compares the
prediction with the actual next pc and updates the table.  The profiler keeps two such
tables, one that allocates always and one that skips conflicting not-taken branches.
-/

namespace Jyd
namespace Nemu
namespace Profile

open Hdl

inductive Kind
  | alu
  | branch
  | jal
  | jalr
  | load
  | store
  | m
  | b
  | crc
  | system
  | other
  deriving DecidableEq, Repr

def kindOf (x : Word) : Kind :=
  let op := x &&& 0x7f#32
  let f3 := (x >>> 12) &&& 7#32
  let f7 := x >>> 25
  let bRegister : Bool :=
    op = 0x33#32 ∧
      ((f7 = 0x05#32 ∧ (f3 ≤ 3#32 ∨ 4#32 ≤ f3)) ∨
        (f7 = 0x10#32 ∧ (f3 = 2#32 ∨ f3 = 4#32 ∨ f3 = 6#32)) ∨
        (f7 = 0x20#32 ∧ (f3 = 4#32 ∨ f3 = 6#32 ∨ f3 = 7#32)) ∨
        (f7 = 0x30#32 ∧ (f3 = 1#32 ∨ f3 = 5#32)) ∨
        (f7 = 0x24#32 ∧ (f3 = 1#32 ∨ f3 = 5#32)) ∨
        (f7 = 0x14#32 ∧ (f3 = 1#32 ∨ f3 = 2#32)) ∨
        (f7 = 0x34#32 ∧ f3 = 1#32))
  let bImmediate : Bool :=
    op = 0x13#32 ∧ (f3 = 1#32 ∨ f3 = 5#32) ∧
      (f7 = 0x05#32 ∨ f7 = 0x30#32 ∨ f7 = 0x24#32 ∨ f7 = 0x14#32 ∨ f7 = 0x34#32)
  if op = 0x63#32 then .branch
  else if op = 0x6f#32 then .jal
  else if op = 0x67#32 then .jalr
  else if op = 0x03#32 then .load
  else if op = 0x23#32 then .store
  else if op = 0x0b#32 ∧ f7 = 0#32 ∧ f3 < 3#32 then .crc
  else if op = 0x73#32 then .system
  else if op = 0x33#32 ∧ f7 = 1#32 then .m
  else if op = 0x33#32 ∧ f7 = 0x04#32 ∧ f3 = 4#32 then .b
  else if bRegister || bImmediate then .b
  else if op = 0x33#32 ∨ op = 0x13#32 ∨ op = 0x37#32 ∨ op = 0x17#32 then .alu
  else .other

def branchImm (x : Word) : Word :=
  let imm :=
    ((x >>> 31) <<< 12) ||| (((x >>> 7) &&& 1#32) <<< 11) ||| (((x >>> 25) &&& 0x3f#32) <<< 5) |||
      (((x >>> 8) &&& 0xf#32) <<< 1)
  (imm <<< 19).sshiftRight 19

structure BtbEnt where
  tag : Word
  target : Word
  valid : Bool
  type : Kind
  counter : BitVec 8
  deriving DecidableEq, Repr

/-- A table of 32 entries. -/
abbrev Btb32 := BitVec 5 → BtbEnt

/-- `(pc >> 2) & 31`. -/
def index (pc : Word) : BitVec 5 := pc.extractLsb' 2 5

section Model

variable (b : Btb32) (pc target inst : Word) (type : Kind) (taken skipConflictingNotTaken : Bool)

def hit : Bool := (b (index pc)).valid && (b (index pc)).tag == pc

def predictedTaken : Bool :=
  hit b pc &&
    ((b (index pc)).type == .jal || ((b (index pc)).type == .branch && decide (2 ≤ (b (index pc)).counter)))

def predictedPc : Word := if predictedTaken b pc then (b (index pc)).target else pc + 4

def matchingBranch : Bool := hit b pc && (b (index pc)).type == .branch && type == .branch

def nextDirection : BitVec 8 :=
  let counter := (b (index pc)).counter
  if type = .branch then
    if !matchingBranch b pc type then (if taken then 2 else 1)
    else if taken && counter != 3 then counter + 1
    else if !taken && counter != 0 then counter - 1
    else counter
  else 0

/-- The entry allocated for a control transfer. -/
def storedEntry : BtbEnt where
  tag := pc
  target := if type == .branch then pc + branchImm inst else target
  valid := true
  type := if type == .jal || inst == 0x00008067#32 then .jal else type
  counter := nextDirection b pc type taken

def skips : Bool :=
  skipConflictingNotTaken && type == .branch && !taken && !matchingBranch b pc type

/-- Whether the prediction is wrong, and the table afterwards. -/
def modelRtlBtb32 : Bool × Btb32 :=
  let wrong := predictedPc b pc != target
  if skips b pc type taken skipConflictingNotTaken then (wrong, b)
  else (wrong, Function.update b (index pc) (storedEntry b pc target inst type taken))

theorem modelRtlBtb32_wrong :
    (modelRtlBtb32 b pc target inst type taken skipConflictingNotTaken).1 =
      (predictedPc b pc != target) := by
  rw [modelRtlBtb32]
  split <;> rfl

theorem modelRtlBtb32_table :
    (modelRtlBtb32 b pc target inst type taken skipConflictingNotTaken).2 =
      if skips b pc type taken skipConflictingNotTaken then b
      else Function.update b (index pc) (storedEntry b pc target inst type taken) := by
  rw [modelRtlBtb32]
  split <;> rfl

end Model

/-! ## The profiler's use of the model -/

/-- What the simulator knows about an executed instruction. -/
structure Decode where
  pc : Word
  snpc : Word
  dnpc : Word
  inst : Word
  deriving DecidableEq, Repr

/-- The step of `riscv_profile_record` for a control transfer and one of the two tables. -/
def riscvProfileRecord (skipConflictingNotTaken : Bool) (b : Btb32) (s : Decode) : Bool × Btb32 :=
  modelRtlBtb32 b s.pc s.dnpc s.inst (kindOf s.inst) (s.dnpc != s.snpc) skipConflictingNotTaken

/-- The entries of a table in static storage. -/
def BtbEnt.zero : BtbEnt := ⟨0, 0, false, .alu, 0⟩

end Profile
end Nemu
end Jyd
