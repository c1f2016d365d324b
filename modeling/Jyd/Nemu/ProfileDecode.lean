import Jyd.Nemu.Profile

/-!
# ProfileDecode — how the instruction profiler reads an instruction word

`bop_of` names the bit manipulation of a word, `late_load_source_eligible` says which of its
source registers could take the value of a load that is still under way.
-/

namespace Jyd
namespace Nemu
namespace Profile

open Hdl

/-! ## Operations -/

inductive BOp
  | clz
  | ctz
  | cpop
  | sextb
  | sexth
  | clmul
  | clmulr
  | clmulh
  | orcb
  | rev8
  | andn
  | orn
  | xnor
  | min
  | max
  | minu
  | maxu
  | sh1add
  | sh2add
  | sh3add
  | bset
  | bclr
  | binv
  | bext
  | xperm4
  | rol
  | ror
  | rori
  | pack
  | other
  deriving DecidableEq, Repr

/-- `M_MUL` to `M_REMU`, by their number. -/
def mopOf (x : Word) : BitVec 3 := x.extractLsb' 12 3

def bopOf (x : Word) : BOp :=
  let op := x.extractLsb' 0 7
  let f3 := x.extractLsb' 12 3
  let f7 := x.extractLsb' 25 7
  let rs2 := x.extractLsb' 20 5
  -- the group of unary operations falls through for the other values of rs2
  if op = 0x13 ∧ f3 = 1 ∧ f7 = 0x30 ∧ rs2 = 0 then .clz
  else if op = 0x13 ∧ f3 = 1 ∧ f7 = 0x30 ∧ rs2 = 1 then .ctz
  else if op = 0x13 ∧ f3 = 1 ∧ f7 = 0x30 ∧ rs2 = 2 then .cpop
  else if op = 0x13 ∧ f3 = 1 ∧ f7 = 0x30 ∧ rs2 = 4 then .sextb
  else if op = 0x13 ∧ f3 = 1 ∧ f7 = 0x30 ∧ rs2 = 5 then .sexth
  else if op = 0x33 ∧ f7 = 0x05 ∧ f3 = 1 then .clmul
  else if op = 0x33 ∧ f7 = 0x05 ∧ f3 = 2 then .clmulr
  else if op = 0x33 ∧ f7 = 0x05 ∧ f3 = 3 then .clmulh
  else if op = 0x13 ∧ f3 = 5 ∧ f7 = 0x14 ∧ rs2 = 7 then .orcb
  else if op = 0x13 ∧ f3 = 5 ∧ f7 = 0x34 ∧ rs2 = 24 then .rev8
  else if op = 0x33 ∧ f7 = 0x20 ∧ f3 = 4 then .xnor
  else if op = 0x33 ∧ f7 = 0x20 ∧ f3 = 6 then .orn
  else if op = 0x33 ∧ f7 = 0x20 ∧ f3 = 7 then .andn
  else if op = 0x33 ∧ f7 = 0x05 ∧ f3 = 4 then .min
  else if op = 0x33 ∧ f7 = 0x05 ∧ f3 = 5 then .max
  else if op = 0x33 ∧ f7 = 0x05 ∧ f3 = 6 then .minu
  else if op = 0x33 ∧ f7 = 0x05 ∧ f3 = 7 then .maxu
  else if op = 0x33 ∧ f7 = 0x10 ∧ f3 = 2 then .sh1add
  else if op = 0x33 ∧ f7 = 0x10 ∧ f3 = 4 then .sh2add
  else if op = 0x33 ∧ f7 = 0x10 ∧ f3 = 6 then .sh3add
  else if (op = 0x33 ∨ op = 0x13) ∧ f7 = 0x14 ∧ f3 = 1 then .bset
  else if (op = 0x33 ∨ op = 0x13) ∧ f7 = 0x24 ∧ f3 = 1 then .bclr
  else if (op = 0x33 ∨ op = 0x13) ∧ f7 = 0x34 ∧ f3 = 1 then .binv
  else if (op = 0x33 ∨ op = 0x13) ∧ f7 = 0x24 ∧ f3 = 5 then .bext
  else if op = 0x33 ∧ f7 = 0x14 ∧ f3 = 2 then .xperm4
  else if op = 0x33 ∧ f7 = 0x30 ∧ f3 = 1 then .rol
  else if op = 0x33 ∧ f7 = 0x30 ∧ f3 = 5 then .ror
  else if op = 0x13 ∧ f7 = 0x30 ∧ f3 = 5 then .rori
  else if op = 0x33 ∧ f7 = 0x04 ∧ f3 = 4 then .pack
  else .other

/-! ## Late loads -/

/-- `add` and `addi`. -/
def isAddForm (x : Word) : Bool :=
  x.extractLsb' 12 3 == 0#3 &&
    (x.extractLsb' 0 7 == 0x13#7 || (x.extractLsb' 0 7 == 0x33#7 && x.extractLsb' 25 7 == 0#7))

/-- An immediate form with the immediate one: `andi` or `srli`, by its `f3`. -/
def isOneImmediate (x : Word) (f3 : BitVec 3) : Bool :=
  x.extractLsb' 0 7 == 0x13#7 && x.extractLsb' 12 3 == f3 && x.extractLsb' 20 12 == 1#12

def lateLoadSourceEligible (x : Word) (sourceMask : BitVec 2) : Bool :=
  let add := isAddForm x
  let andi1 := isOneImmediate x 7
  let srli1 := isOneImmediate x 5
  let allowRs1 := add || andi1 || srli1
  let allowRs2 := add && x.extractLsb' 0 7 == 0x33#7
  (!sourceMask.getLsbD 0 || allowRs1) && (!sourceMask.getLsbD 1 || allowRs2)

end Profile
end Nemu
end Jyd
